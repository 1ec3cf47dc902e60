import FFS.Cod.StructFields
import FFS.FM.ArrayReaders

/-!
# Type strings of fields

The string of an array has the text of its size in brackets, and the format library reads that text
again: a name of a field of integer type, or a number in the base that it announces.
-/

namespace FFS
namespace Cod

open Machine

/-- The text of a size in a type string, with the bracket behind it. -/
def sizeText (text : CString) : List UInt8 := text.bytes ++ [chr ']']

/-- What the format library reads from the text of a size. -/
def readDimension (fields : List ParsedField) (index : Nat) (text : CString) : Int × Int :=
  textDimension (fmFields fields) index (sizeText text)

/-! ## Type strings -/

/-- The strings that `type_list_to_string` returns. -/
def baseStrings : List CString := [integerString, unsignedString, floatString]

theorem mem_baseStrings {cg : CgType} {base : CString × Int32} (h : cg.asString = some base) :
    base.1 ∈ baseStrings := by
  cases cg <;> cases h <;> decide

/-- The size and the string give the type back. -/
theorem strCgType_asString {cg : CgType} {base : CString × Int32} (h : cg.asString = some base) :
    strCgType base.1.bytes base.2 = cg := by
  cases cg <;> cases h <;> decide

theorem base_plain : ∀ base ∈ baseStrings,
    chr '[' ∉ base.bytes ∧ chr '(' ∉ base.bytes ∧ chr ')' ∉ base.bytes := by decide

/-- None begins like a pointer, with a blank, or like a string. -/
theorem base_first : ∀ base ∈ baseStrings, ∃ b bs, base.bytes = b :: bs ∧ b ≠ chr '*' ∧
    isSpace b = false ∧ b ≠ chr 's' := by
  intro base hbase
  have hall : ∀ base ∈ baseStrings, base.bytes.head?.any
      (fun b => decide (b ≠ chr '*' ∧ isSpace b = false ∧ b ≠ chr 's')) = true := by decide
  have hfirst := hall base hbase
  cases hbytes : base.bytes with
  | nil =>
    rw [hbytes] at hfirst
    cases hfirst
  | cons b bs =>
    rw [hbytes] at hfirst
    exact ⟨b, bs, rfl, of_decide_eq_true hfirst⟩

theorem base_known : ∀ base ∈ baseStrings, strToDataType base.bytes ≠ .unknownType := by decide

/-- The last link of the chain of such a string. -/
def scalarLink (index : Nat) (base : CString) : FMTypeDesc :=
  { FMTypeDesc.new .simple with fieldIndex := index, dataType := strToDataType base.bytes }

/-- A type without parentheses is one piece. -/
theorem fieldPieces_of_noParens {typ : List UInt8} (hopen : chr '(' ∉ typ) (hclose : chr ')' ∉ typ) :
    fieldPieces typ = some [typ] := by
  have hfirst : typ.idxOf? (chr '(') = none := List.idxOf?_eq_none_iff.mpr hopen
  have hlast : typ.reverse.idxOf? (chr ')') = none :=
    List.idxOf?_eq_none_iff.mpr fun hmem => hclose (List.mem_reverse.mp hmem)
  rw [fieldPieces, typePieces, hfirst, hlast]
  rfl

/-- A base string with what can only be dimensions behind it. -/
theorem fieldDesc_dimensions {base : CString} (h : base ∈ baseStrings) {dims : List UInt8}
    (hbracket : dims = [] ∨ dims.head? = some (chr '[')) (hopen : chr '(' ∉ dims)
    (hclose : chr ')' ∉ dims) (fields : List FMField) (index : Nat) :
    fieldDesc fields index (base.bytes ++ dims) =
      let read := (bracketTexts dims).map (textDimension fields index)
      some ((if read.any (·.1 = -1) then [FMTypeDesc.new .pointer] else []) ++
        (read.map fun (staticSize, control) =>
          { FMTypeDesc.new .array with
            fieldIndex := index, staticSize := if staticSize = -1 then 0 else staticSize,
            controlFieldIndex := control }) ++ [scalarLink index base]) := by
  obtain ⟨hbase, hbaseOpen, hbaseClose⟩ := base_plain base h
  obtain ⟨b, bs, hfirst, hstar, hspace, hletter⟩ := base_first base h
  have hskip : skipPointers (base.bytes ++ dims) = (0, base.bytes ++ dims) := by
    rw [hfirst, List.cons_append, skipPointers, if_neg hstar,
      if_neg (by rw [hspace]; exact Bool.false_ne_true)]
  have hhead : typeHead (base.bytes ++ dims) = base.bytes := by
    have hnone : typeHead dims = [] := by
      rcases hbracket with rfl | hbracket
      · rfl
      · obtain ⟨rest, rfl⟩ := List.head?_eq_some_iff.mp hbracket
        exact List.takeWhile_cons_of_neg (by simp)
    rw [typeHead_append hbase, hnone, List.append_nil]
  have hnotString : isStringName (base.bytes ++ dims) = false := by
    rw [isStringName, hfirst, Bool.and_eq_false_iff]
    exact .inl (beq_eq_false_iff_ne.mpr fun heq => hletter (List.cons_eq_cons.mp heq).1)
  have helement : pieceElement index (base.bytes ++ dims) = scalarLink index base := by
    rw [pieceElement_eq, hhead, if_neg (base_known base h), hskip, hnotString]
    rfl
  rw [fieldDesc_eq, fieldPieces_of_noParens (List.not_mem_append hbaseOpen hopen)
    (List.not_mem_append hbaseClose hclose), Option.map_some, ← List.nil_append [_],
    pieceChain_concat, List.nil_append, List.flatMap_singleton, helement, pieceLinks, hskip,
    pieceDimensions_eq, bracketTexts_append hbase]
  rfl

theorem fieldDesc_base {base : CString} (h : base ∈ baseStrings) (fields : List FMField)
    (index : Nat) : fieldDesc fields index base.bytes = some [scalarLink index base] := by
  have hdesc := fieldDesc_dimensions h (.inl rfl) List.not_mem_nil List.not_mem_nil fields index
  rwa [List.append_nil] at hdesc

section

variable {base size : CString}

theorem strchr_bracketed (h : base ∈ baseStrings) :
    strchr (bracketed base size).bytes (chr '[') = some (chr '[' :: sizeText size) :=
  strchr_append (base_plain base h).1

theorem takeWhile_bracketed (h : base ∈ baseStrings) :
    (bracketed base size).bytes.takeWhile (· ≠ chr '[') = base.bytes :=
  takeWhile_append_other (base_plain base h).1

/-- A text that nothing in a type string is taken for a dimension or a parenthesis of. -/
def Unbracketed (text : List UInt8) : Prop :=
  ∀ b ∈ text, b ≠ chr '[' ∧ b ≠ chr '(' ∧ b ≠ chr ')'

theorem fieldDesc_bracketed (h : base ∈ baseStrings) (hsize : Unbracketed size.bytes)
    (fields : List FMField) (index : Nat) :
    fieldDesc fields index (bracketed base size).bytes =
      some ((if (textDimension fields index (sizeText size)).1 = -1 then
          [FMTypeDesc.new .pointer] else []) ++
        [{ FMTypeDesc.new .array with
            fieldIndex := index
            staticSize :=
              if (textDimension fields index (sizeText size)).1 = -1 then 0
              else (textDimension fields index (sizeText size)).1
            controlFieldIndex := (textDimension fields index (sizeText size)).2 },
          scalarLink index base]) := by
  have hplain : ∀ c, c ≠ chr '[' → c ≠ chr ']' → c ∉ size.bytes →
      c ∉ chr '[' :: sizeText size := by
    intro c hleft hright hsize hmem
    rcases List.mem_cons.mp hmem with heq | hmem
    · exact hleft heq
    · rcases List.mem_append.mp hmem with hmem | hmem
      · exact hsize hmem
      · exact hright (List.mem_singleton.mp hmem)
  have hinside : chr '[' ∉ sizeText size := fun hmem =>
    (List.mem_append.mp hmem).elim (fun h => (hsize _ h).1 rfl) (by decide)
  have htexts : bracketTexts (chr '[' :: sizeText size) = [sizeText size] := by
    have hnil := @bracketTexts_append (sizeText size) [] hinside
    rw [List.append_nil] at hnil
    rw [bracketTexts, if_pos rfl, hnil]
    rfl
  have hdesc := fieldDesc_dimensions h (.inr rfl)
    (hplain _ (by decide) (by decide) fun h => (hsize _ h).2.1 rfl)
    (hplain _ (by decide) (by decide) fun h => (hsize _ h).2.2 rfl) fields index
  rw [htexts] at hdesc
  refine hdesc.trans ?_
  simp only [List.map_cons, List.map_nil, List.any_cons, List.any_nil, Bool.or_false,
    decide_eq_true_eq, List.append_assoc]
  rfl

end

/-! ## Fields with a type string -/

section

variable {types : Nat → ScopeType} {addressed : CString → Bool} {fields : List ParsedField}
  {index : Nat} {f : ParsedField} {cg : CgType} {base : CString × Int32}

theorem semanticizeField_scalar (hbase : cg.asString = some base)
    (hstring : f.stringType = some base.1) (hsize : f.cgSize = base.2) (s : Scopes) :
    semanticizeField types addressed fields index f s = .given (cg, .null) := by
  have hmem := mem_baseStrings hbase
  have hnone : strchr base.1.bytes (chr '[') = none := by
    have hall : ∀ base ∈ baseStrings, strchr base.bytes (chr '[') = none := by decide
    exact hall base.1 hmem
  rw [semanticizeField, hstring]
  dsimp only
  rw [hnone, fieldDesc_base hmem, hsize, strCgType_asString hbase]
  rfl

/-- The type node of an array, which is behind a pointer where its size is not static. -/
def arrayNode (staticSize : Int) (cg : CgType) (dimension : Dimension) : ComplexType :=
  if staticSize = -1 then .reference .err (.array cg .null dimension) false
  else .array cg .null dimension

/-- The dimension of an array by what the format library has read. -/
def nodeDimension (fields : List ParsedField) (read : Int × Int) : Outcome Dimension :=
  if read.1 = 0 ∨ read.1 = -1 then controlled fields read.2.toNat else .given (.static read.1)

theorem buildSubtypeNodes_array {str : CString} (s : Scopes) (link : FMTypeDesc)
    (hlink : link.type = .array) (base : CString) :
    buildSubtypeNodes fields f str s [link, scalarLink index base] =
      (if link.staticSize = 0 ∨ link.staticSize = -1 then
          controlled fields link.controlFieldIndex.toNat
        else .given (.static link.staticSize)).bind fun dimension =>
          .given (.array (strCgType (str.bytes.takeWhile (· ≠ chr '[')) f.cgSize) .null
            dimension) := by
  rw [buildSubtypeNodes, hlink]
  rfl

theorem buildSubtypeNodes_pointer {str : CString} (s : Scopes) (descs : List FMTypeDesc) :
    buildSubtypeNodes fields f str s (FMTypeDesc.new .pointer :: descs) =
      (buildSubtypeNodes fields f str s descs).bind fun subtype =>
        .given (.reference .err subtype false) := rfl

theorem Outcome.bind_assoc {α β γ : Type} (x : Outcome α) (f : α → Outcome β)
    (g : β → Outcome γ) : (x.bind f).bind g = x.bind fun a => (f a).bind g := by
  cases x <;> rfl

theorem semanticizeField_array (hbase : cg.asString = some base) {size : CString}
    (hstring : f.stringType = some (bracketed base.1 size)) (hsize : f.cgSize = base.2)
    (hplain : Unbracketed size.bytes) (s : Scopes) :
    semanticizeField types addressed fields index f s =
      if namesUntyped fields index (sizeText size) then .fault
      else (nodeDimension fields (readDimension fields index size)).bind fun dimension =>
        .given (strCgType (bracketed base.1 size).bytes f.cgSize,
          arrayNode (readDimension fields index size).1 cg dimension) := by
  have hmem := mem_baseStrings hbase
  have helement : strCgType ((bracketed base.1 size).bytes.takeWhile (· ≠ chr '[')) f.cgSize =
      cg := by
    rw [takeWhile_bracketed hmem, hsize, strCgType_asString hbase]
  rw [semanticizeField, hstring]
  dsimp only
  rw [strchr_bracketed hmem, fieldDesc_bracketed hmem hplain]
  refine ite_congr rfl (fun _ => rfl) fun _ => ?_
  change (buildSubtypeNodes fields f _ s _).bind _ = _
  rw [readDimension, nodeDimension]
  generalize textDimension (fmFields fields) index (sizeText size) = read
  by_cases hread : read.1 = -1
  · rw [if_pos hread, List.singleton_append, buildSubtypeNodes_pointer,
      buildSubtypeNodes_array s _ rfl, helement, Outcome.bind_assoc, Outcome.bind_assoc]
    simp only [hread, if_true, true_or, or_true, arrayNode]
    rfl
  · rw [if_neg hread, List.nil_append, buildSubtypeNodes_array s _ rfl, helement,
      Outcome.bind_assoc]
    dsimp only
    rw [if_neg hread]
    simp only [Outcome.bind, arrayNode, if_neg hread]

end

/-! ## Sizes -/

theorem strtol_of_first {a : UInt8} {t : List UInt8} (hspace : isSpace a = false)
    (hsign : a ≠ chr '-' ∧ a ≠ chr '+') (hdigit : isDigitOf 10 a = false) :
    strtol 0 (a :: t) = (0, a :: t) := by
  have hdrop : (a :: t).dropWhile isSpace = a :: t :=
    List.dropWhile_cons_of_neg (by rw [hspace]; exact Bool.false_ne_true)
  have hzero : a ≠ chr '0' := by
    rintro rfl
    revert hdigit
    decide
  have hends : EndsNumber (a :: t) := fun b hb => Option.some.inj hb ▸ hdigit
  rw [strtol_eq, hdrop]
  simp only [List.head?_cons, Option.some.injEq, hsign.1, hsign.2, or_self, if_false,
    unsignedNumber, numberBase_of_ne hzero, scanDigits_of_ends hends 0, if_true]

theorem nameByte_plain : ∀ b, isNameByte b = true → isSpace b = false ∧
    (b ≠ chr '-' ∧ b ≠ chr '+') ∧ b ≠ chr ']' ∧ b ≠ chr '[' ∧ b ≠ chr '(' ∧ b ≠ chr ')' := by
  refine forall_byte ?_
  decide +kernel

namespace Name

variable (name : Name)

/-- There is no number in front of a name. -/
theorem strtol_text : strtol 0 (sizeText name.text) = (0, sizeText name.text) := by
  obtain ⟨⟨bytes, hnul⟩, hplain, hfirst⟩ := name
  cases bytes with
  | nil =>
    have hbracket : strtol 0 [chr ']'] = (0, [chr ']']) := by decide
    exact hbracket
  | cons b bytes =>
    obtain ⟨hspace, hsign, -⟩ := nameByte_plain b (hplain b List.mem_cons_self)
    exact strtol_of_first hspace hsign (hfirst b rfl)

theorem takeWhile_text : (sizeText name.text).takeWhile (· ≠ chr ']') = name.text.bytes := by
  rw [sizeText, List.takeWhile_append_of_pos, List.takeWhile_cons_of_neg (by simp),
    List.append_nil]
  intro b hb
  exact decide_eq_true (nameByte_plain b (name.plain b hb)).2.2.1

theorem unbracketed_text : Unbracketed name.text.bytes :=
  fun b hb => (nameByte_plain b (name.plain b hb)).2.2.2

end Name

/-- The type strings that the parser makes. -/
def Produced (fields : List ParsedField) : Prop :=
  ∀ f ∈ fields, ∀ str ∈ f.stringType,
    str ∈ baseStrings ∨ ∃ base ∈ baseStrings, ∃ size, str = bracketed base size

theorem isInteger_of_produced {str : CString}
    (h : str ∈ baseStrings ∨ ∃ base ∈ baseStrings, ∃ size, str = bracketed base size)
    (htype : strToDataType str.bytes = .integerType ∨ strToDataType str.bytes = .unsignedType) :
    (strCgType str.bytes 4).isInteger = true := by
  rcases h with hbase | ⟨base, -, size, rfl⟩
  · have hall : ∀ base ∈ baseStrings, (strToDataType base.bytes = .integerType ∨
        strToDataType base.bytes = .unsignedType) →
          (strCgType base.bytes 4).isInteger = true := by decide
    exact hall str hbase htype
  · have hbracket : chr '[' ∈ (bracketed base size).bytes :=
      List.mem_append_right _ List.mem_cons_self
    rw [strToDataType_of_bracket hbracket] at htype
    rcases htype with h | h <;> cases h

section

variable {fields : List ParsedField} {index : Nat}

/-- A field that controls an array, as the format library finds it. -/
theorem controls_iff {i : Nat} :
    (((fmFields fields)[i]?.map fun f => strToDataType f.fieldType.bytes) = some .integerType ∨
        ((fmFields fields)[i]?.map fun f => strToDataType f.fieldType.bytes) =
          some .unsignedType) ↔
      ∃ f str, fields[i]? = some f ∧ f.stringType = some str ∧
        (strToDataType str.bytes = .integerType ∨ strToDataType str.bytes = .unsignedType) := by
  rw [fmFields, List.getElem?_map]
  cases hf : fields[i]? with
  | none => simp
  | some f =>
    cases hstring : f.stringType with
    | none =>
      have hempty : strToDataType emptyString.bytes = .unknownType := by decide
      simp [hstring, hempty]
    | some str => simp [hstring]

theorem controlled_of_controls (hproduced : Produced fields) {i : Nat}
    (h : ∃ f str, fields[i]? = some f ∧ f.stringType = some str ∧
      (strToDataType str.bytes = .integerType ∨ strToDataType str.bytes = .unsignedType)) :
    controlled fields i = .given (.control i) := by
  obtain ⟨f, str, hf, hstring, htype⟩ := h
  have hinteger := isInteger_of_produced
    (hproduced f (List.mem_of_getElem? hf) str hstring) htype
  rw [controlled, hf]
  dsimp only
  rw [hstring]
  exact if_pos hinteger

/-- What the text of a size is read as: the number of a field, or without one. -/
theorem readDimension_cases (hproduced : Produced fields) (index : Nat) (size : CString) :
    (readDimension fields index size).2 = -1 ∨
      ∃ i : Nat, readDimension fields index size = (-1, (i : Int)) ∧
        controlled fields i = .given (.control i) ∧
        namesUntyped fields index (sizeText size) = false := by
  rw [readDimension, textDimension]
  dsimp only
  split
  · next hlength =>
    cases hfind : findField ((sizeText size).takeWhile (· ≠ chr ']')) (fmFields fields) index with
    | none => exact .inl rfl
    | some i =>
      dsimp only
      split
      · next hcontrols =>
        obtain hcontrols := controls_iff.mp hcontrols
        refine .inr ⟨i, rfl, controlled_of_controls hproduced hcontrols, ?_⟩
        obtain ⟨f, str, hf, hstring, -⟩ := hcontrols
        rw [namesUntyped, hfind, Option.any_some, hf, Option.any_some, hstring]
        exact Bool.and_false _
      · exact .inl rfl
  · split
    · exact .inl rfl
    · split
      · exact .inl rfl
      · exact .inl rfl

theorem readDimension_notFound {name : Name}
    (hfind : findField name.text.bytes (fmFields fields) index = none) :
    readDimension fields index name.text = (-1, -1) := by
  rw [readDimension, textDimension, name.strtol_text, name.takeWhile_text]
  dsimp only
  rw [hfind, if_pos rfl]

theorem readDimension_found {name : Name} {i : Nat}
    (hfind : findField name.text.bytes (fmFields fields) index = some i) :
    readDimension fields index name.text =
      if ((fmFields fields)[i]?.map fun f => strToDataType f.fieldType.bytes) =
            some .integerType ∨
          ((fmFields fields)[i]?.map fun f => strToDataType f.fieldType.bytes) =
            some .unsignedType
      then (-1, (i : Int)) else (0, -1) := by
  rw [readDimension, textDimension, name.strtol_text, name.takeWhile_text]
  dsimp only
  rw [hfind]
  exact if_pos rfl

/-- For a name the library finds the field of integer type, or none. -/
theorem controlField_eq (name : Name) : controlField fields index name =
    if (readDimension fields index name.text).2 = -1 then none
    else some (readDimension fields index name.text).2.toNat := by
  rw [controlField]
  cases hfind : findField name.text.bytes (fmFields fields) index with
  | none =>
    rw [readDimension_notFound hfind]
    rfl
  | some i =>
    have hread := readDimension_found hfind
    have hany : (fields[i]?.any fun f => f.stringType.any fun str =>
        strToDataType str.bytes = .integerType ∨ strToDataType str.bytes = .unsignedType) = true ↔
          ∃ f str, fields[i]? = some f ∧ f.stringType = some str ∧
            (strToDataType str.bytes = .integerType ∨
              strToDataType str.bytes = .unsignedType) := by
      simp [Option.any_eq_true]
    by_cases hcontrols : ∃ f str, fields[i]? = some f ∧ f.stringType = some str ∧
        (strToDataType str.bytes = .integerType ∨ strToDataType str.bytes = .unsignedType)
    · rw [if_pos (controls_iff.mpr hcontrols)] at hread
      rw [hread, Option.filter_some, if_pos (hany.mpr hcontrols)]
      rfl
    · rw [if_neg fun h => hcontrols (controls_iff.mp h)] at hread
      rw [hread, Option.filter_some, if_neg fun h => hcontrols (hany.mp h)]
      rfl

end

/-! ## Constants for sizes -/

theorem digit_plain : ∀ b, isDigitOf 16 b = true →
    b ≠ chr '[' ∧ b ≠ chr '(' ∧ b ≠ chr ')' := by
  refine forall_byte ?_
  decide +kernel

theorem unbracketed_decimal (v : Int) : Unbracketed (decimal v) := by
  have hdigits : ∀ bound n, Unbracketed (digits bound n) := fun bound n b hb =>
    digit_plain b (isDigitOf_mono (by decide) (List.all_eq_true.mp digits_all b hb))
  rw [decimal]
  split
  · intro b hb
    rcases List.mem_cons.mp hb with rfl | hb
    · decide
    · exact hdigits _ _ b hb
  · exact hdigits _ _

theorem unbracketed_literal (lit : IntLiteral) : Unbracketed lit.text := by
  have hstart : ∀ base : Base, Unbracketed base.start := by
    intro base b hb
    have hall : base.start.all (fun b => b ≠ chr '[' ∧ b ≠ chr '(' ∧ b ≠ chr ')') = true := by
      cases base <;> decide
    exact of_decide_eq_true (List.all_eq_true.mp hall b hb)
  have hsuffix : ∀ suffix ∈ integerSuffixes, Unbracketed suffix := by
    intro suffix hmem b hb
    have hall : integerSuffixes.all (fun suffix =>
        suffix.all fun b => b ≠ chr '[' ∧ b ≠ chr '(' ∧ b ≠ chr ')') = true := by decide
    exact of_decide_eq_true
      (List.all_eq_true.mp (List.all_eq_true.mp hall suffix hmem) b hb)
  have hradix : lit.base.radix ≤ 16 := by
    cases lit.base <;> decide
  intro b hb
  rcases List.mem_append.mp hb with hb | hb
  · rcases List.mem_append.mp hb with hb | hb
    · exact hstart _ b hb
    · exact digit_plain b (isDigitOf_mono hradix (lit.allDigits b hb))
  · exact hsuffix _ lit.hasSuffix b hb

/-- The text of an integer constant that an expression is folded to. -/
theorem unbracketed_folded {e : ConstExpr} {text : List UInt8}
    (h : e.evaluateConstantReturnExpr = .value ⟨.integerConstant, text⟩) : Unbracketed text := by
  have hnew : ∀ v, Folded.value (newConstant v) = .value ⟨.integerConstant, text⟩ →
      Unbracketed text := by
    intro v hv
    cases hv
    exact unbracketed_decimal v
  induction e with
  | integer lit =>
    cases h
    exact unbracketed_literal lit
  | character start item => cases h
  | identifier decl constVar initValue =>
    rw [ConstExpr.evaluateConstantReturnExpr] at h
    split at h <;> cases h
  | cast t e ih => exact ih h
  | sizeofType t => exact hnew _ h
  | sizeofExpr right =>
    cases right with
    | cast t e => exact hnew _ h
    | _ => cases h
  | unary op r =>
    obtain ⟨right, -, h⟩ := Folded.of_bind h
    obtain ⟨rightVal, -, h⟩ := Folded.of_bind h
    obtain ⟨value, -, h⟩ := Folded.of_bind h
    exact hnew _ h
  | arith op l r =>
    obtain ⟨left, -, h⟩ := Folded.of_bind h
    obtain ⟨right, -, h⟩ := Folded.of_bind h
    obtain ⟨leftVal, -, h⟩ := Folded.of_bind h
    obtain ⟨rightVal, -, h⟩ := Folded.of_bind h
    split at h
    · cases h
    · obtain ⟨value, -, h⟩ := Folded.of_bind h
      exact hnew _ h
  | compare op l r =>
    obtain ⟨left, -, h⟩ := Folded.of_bind h
    obtain ⟨right, -, h⟩ := Folded.of_bind h
    obtain ⟨leftVal, -, h⟩ := Folded.of_bind h
    obtain ⟨rightVal, -, h⟩ := Folded.of_bind h
    exact hnew _ h
  | logical op l r =>
    obtain ⟨left, -, h⟩ := Folded.of_bind h
    obtain ⟨right, -, h⟩ := Folded.of_bind h
    obtain ⟨leftVal, -, h⟩ := Folded.of_bind h
    obtain ⟨rightVal, -, h⟩ := Folded.of_bind h
    exact hnew _ h

theorem unbracketed_sizeStr {sizeExpr : SizeExpr} {size : CString}
    (h : sizeExpr.sizeStr = .given size) : Unbracketed size.bytes := by
  cases sizeExpr with
  | identifier name =>
    cases h
    exact name.unbracketed_text
  | constant e =>
    rw [SizeExpr.sizeStr] at h
    split at h
    · next text htext =>
      cases h
      exact fun b hb => unbracketed_folded htext b (List.takeWhile_subset _ hb)
    · cases h
  | _ => cases h

end Cod
end FFS
