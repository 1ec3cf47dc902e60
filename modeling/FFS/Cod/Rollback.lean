import Mathlib.Data.List.Find
import FFS.Cod.Underscores

/-!
# Names of formats for conversion code

`uniqueifyNames` is `uniqueify_names` of `cod.y`.  It puts a prefix in front of the names of the
formats of a list, so that two lists can be declared to one piece of conversion code, and replaces
blanks by underscores in all names and types.  What a type says to `cod_add_simple_struct_type` is
`fieldMeaning`.
-/

namespace FFS

open Machine

/-! ## Renaming -/

/-- `space_to_underscore` -/
def spaceToUnderscore (s : CString) : CString where
  bytes := s.bytes.map underscored
  noNul h := by
    obtain ⟨b, hb, hzero⟩ := List.mem_map.mp h
    exact underscored_ne_zero (fun heq => s.noNul (heq ▸ hb)) hzero

/-- A prefix and a string in one piece of memory. -/
def prefixed (front s : CString) : CString where
  bytes := front.bytes ++ s.bytes
  noNul h := (List.mem_append.mp h).elim front.noNul s.noNul

/-- The loop over the formats that are renamed already: their names, behind the prefix, are
compared with the type up to its bracket. -/
def retype (front : CString) (renamed : List CString) (fieldType : CString) : CString :=
  let head := fieldType.bytes.takeWhile (· ≠ chr '[')
  let named := renamed.any fun name =>
    let name := name.bytes.drop front.length
    name.take head.length == head && (name[head.length]?).isNone
  if named then prefixed front fieldType else fieldType

/-- The loop over the formats. -/
def uniqueifyFrom (front : CString) : List CString → List FMStructDesc → List FMStructDesc
  | _, [] => []
  | renamed, f :: list =>
    { f with
      formatName := prefixed front f.formatName,
      fieldList := f.fieldList.map fun fl =>
        { fl with fieldType := retype front renamed fl.fieldType } } ::
      uniqueifyFrom front (renamed ++ [prefixed front f.formatName]) list

/-- `purify_name` -/
def purifyName (f : FMStructDesc) : FMStructDesc :=
  { f with
    formatName := spaceToUnderscore f.formatName,
    fieldList := f.fieldList.map fun fl =>
      { fl with fieldName := spaceToUnderscore fl.fieldName,
                fieldType := spaceToUnderscore fl.fieldType } }

/-- `uniqueify_names` -/
def uniqueifyNames (front : CString) (list : List FMStructDesc) : List FMStructDesc :=
  (uniqueifyFrom front [] list).map purifyName

/-! ## What a type says -/

/-- What `semanticize_struct_type_node` takes from the type of a field: the chain of descriptors,
the types of the field and of the elements of its arrays, and the name that is looked up for a
subformat. -/
structure FieldMeaning where
  desc : Option (List FMTypeDesc)
  cgType : Option DillType
  cgElementType : Option DillType
  base : Option (List UInt8)
deriving DecidableEq

/-- A chain that has a subformat in it. -/
def hasSubformat (desc : Option (List FMTypeDesc)) : Bool :=
  desc.any fun chain => chain.any fun link => link.type = .subformat

/-- The chain of a field's type. -/
def fieldDesc (fields : List FMField) (index : Nat) (typ : List UInt8) :
    Option (List FMTypeDesc) :=
  genTypeDesc fields index (typ.length + 1) typ

def fieldMeaning (fields : List FMField) (index : Nat) (field : FMField) : FieldMeaning :=
  let typ := field.fieldType.bytes
  let desc := fieldDesc fields index typ
  { desc,
    cgType := codStrToDataType typ field.fieldSize,
    cgElementType := codStrToDataType (typeHead typ) field.fieldSize,
    base := if hasSubformat desc then some (baseDataType typ) else none }

/-- The meaning when formats have other names. -/
def FieldMeaning.renamed (m : FieldMeaning) (rename : List UInt8 → List UInt8) : FieldMeaning :=
  { m with base := m.base.map rename }

/-- The names of the formats of a list. -/
def formatNames (list : List FMStructDesc) : List (List UInt8) :=
  list.map (·.formatName.bytes)

/-- The new name of a format, other names staying as they are. -/
def newName (front : CString) (list : List FMStructDesc) (name : List UInt8) : List UInt8 :=
  if name ∈ formatNames list then (front.bytes ++ name).map underscored else name

/-- One format is another under new names. -/
structure FormatRenamed (rename : List UInt8 → List UInt8) (f f' : FMStructDesc) : Prop where
  name : f'.formatName.bytes = rename f.formatName.bytes
  size : f'.structSize = f.structSize
  optInfo : f'.optInfo = f.optInfo
  count : f'.fieldList.length = f.fieldList.length
  fieldNames : ∀ (i j : Nat) a b a' b', f.fieldList[i]? = some a → f.fieldList[j]? = some b →
    f'.fieldList[i]? = some a' → f'.fieldList[j]? = some b' →
      a'.fieldName = b'.fieldName → a.fieldName = b.fieldName
  places : ∀ (j : Nat) fl fl', f.fieldList[j]? = some fl → f'.fieldList[j]? = some fl' →
    fl'.fieldSize = fl.fieldSize ∧ fl'.fieldOffset = fl.fieldOffset
  meaning : ∀ (j : Nat) fl fl', f.fieldList[j]? = some fl → f'.fieldList[j]? = some fl' →
    fieldMeaning f'.fieldList j fl' = (fieldMeaning f.fieldList j fl).renamed rename

/-- A list is isomorphic to another by the new names of its formats. -/
def Isomorphic (rename : List UInt8 → List UInt8) (list list' : List FMStructDesc) : Prop :=
  List.Forall₂ (FormatRenamed rename) list list' ∧
    ∀ a ∈ formatNames list, ∀ b ∈ formatNames list, rename a = rename b → a = b

/-- Two lists are renamed, each to one that is isomorphic to it, and no format of the one is called
like a format of the other. -/
def RenamedApart (front front' : CString) (list list' : List FMStructDesc) : Prop :=
  Isomorphic (newName front list) list (uniqueifyNames front list) ∧
    Isomorphic (newName front' list') list' (uniqueifyNames front' list') ∧
    ∀ a ∈ formatNames (uniqueifyNames front list),
      a ∉ formatNames (uniqueifyNames front' list')

/-! ## Renamed fields -/

theorem renamed_eq_iff {front name : List UInt8} {head : List UInt8} :
    (((front ++ name).drop front.length).take head.length == head &&
      (((front ++ name).drop front.length)[head.length]?).isNone) = true ↔ name = head := by
  rw [List.drop_left, Bool.and_eq_true, beq_iff_eq, Option.isNone_iff_eq_none,
    List.getElem?_eq_none_iff]
  constructor
  · rintro ⟨htake, hlong⟩
    rwa [List.take_of_length_le hlong] at htake
  · rintro rfl
    exact ⟨List.take_length, le_refl _⟩

/-- A type gets the prefix if its head is a name in front of its format. -/
theorem retype_eq (front : CString) (before : List FMStructDesc) (typ : CString) :
    retype front (before.map fun f => prefixed front f.formatName) typ =
      if typeHead typ.bytes ∈ formatNames before then prefixed front typ else typ := by
  rw [retype]
  refine if_congr ?_ rfl rfl
  rw [List.any_eq_true, formatNames, List.mem_map]
  constructor
  · rintro ⟨name, hname, hmatch⟩
    obtain ⟨f, hf, rfl⟩ := List.mem_map.mp hname
    exact ⟨f, hf, renamed_eq_iff.mp hmatch⟩
  · rintro ⟨f, hf, heq⟩
    exact ⟨_, List.mem_map.mpr ⟨f, hf, rfl⟩, renamed_eq_iff.mpr heq⟩

/-- A field of a format behind the formats `before`. -/
def renamedField (front : CString) (before : List FMStructDesc) (fl : FMField) : FMField :=
  { fl with
    fieldName := spaceToUnderscore fl.fieldName,
    fieldType := spaceToUnderscore
      (retype front (before.map fun f => prefixed front f.formatName) fl.fieldType) }

/-- A format behind the formats `before`. -/
def renamedFormat (front : CString) (before : List FMStructDesc) (f : FMStructDesc) :
    FMStructDesc :=
  { f with
    formatName := spaceToUnderscore (prefixed front f.formatName),
    fieldList := f.fieldList.map (renamedField front before) }

theorem purifyName_uniqueifyFrom (front : CString) (before : List FMStructDesc) (f : FMStructDesc)
    (list : List FMStructDesc) :
    (uniqueifyFrom front (before.map fun f => prefixed front f.formatName) (f :: list)).map
        purifyName =
      renamedFormat front before f ::
        (uniqueifyFrom front ((before ++ [f]).map fun f => prefixed front f.formatName) list).map
          purifyName := by
  rw [uniqueifyFrom, List.map_cons, List.map_append, List.map_singleton]
  congr 1
  simp only [purifyName, renamedFormat, List.map_map]
  rfl

/-- The type that a field gets behind the formats `earlier`. -/
def newType (front : List UInt8) (earlier : List (List UInt8)) (typ : List UInt8) : List UInt8 :=
  (if typeHead typ ∈ earlier then front ++ typ else typ).map underscored

theorem renamedField_fieldType (front : CString) (before : List FMStructDesc) (fl : FMField) :
    (renamedField front before fl).fieldType.bytes =
      newType front.bytes (formatNames before) fl.fieldType.bytes := by
  rw [renamedField, retype_eq, newType]
  split <;> rfl

/-- Names that differ by more than blanks. -/
def NamesApart (names : List (List UInt8)) : Prop :=
  ∀ a ∈ names, ∀ b ∈ names, a.map underscored = b.map underscored → a = b

/-! ## Dimensions -/

/-- A control field has to be an integer. -/
def isControl (typ : List UInt8) : Prop :=
  strToDataType typ = .integerType ∨ strToDataType typ = .unsignedType

theorem isControl.known {typ : List UInt8} (h : isControl typ) :
    strToDataType typ ≠ .unknownType := by
  rcases h with h | h <;> rw [h] <;> decide

/-- There is no number behind a bracket. -/
def NoNumber (text : List UInt8) : Prop := (strtol 0 text).2.length = text.length

/-- What stands behind a bracket up to the next. -/
def textName (text : List UInt8) : List UInt8 := text.takeWhile (· ≠ chr ']')

/-- A text behind a bracket says the same with underscores.  No number stands behind a blank in it.
Where it is no number, no field but one of its name is called like it but for blanks, and the one
that it finds is an integer whose type has neither a blank nor the name of a format. -/
structure DimensionKept (earlier : List (List UInt8)) (fields : List FMField) (field : Nat)
    (text : List UInt8) : Prop where
  number : text.head?.any isSpace = true → NoNumber text
  name : NoNumber text → ∀ f ∈ fields,
    f.fieldName.bytes.map underscored = (textName text).map underscored →
      f.fieldName.bytes = textName text
  control : NoNumber text → ∀ i ∈ findField (textName text) fields field, ∀ f ∈ fields[i]?,
    isControl f.fieldType.bytes ∧ NoBlank f.fieldType.bytes ∧ f.fieldType.bytes ∉ earlier

section
variable {front : CString} {before : List FMStructDesc} {fields : List FMField} {field : Nat}
  {text : List UInt8}

theorem findField_renamed {name : List UInt8}
    (hname : ∀ f ∈ fields, f.fieldName.bytes.map underscored = name.map underscored →
      f.fieldName.bytes = name) :
    findField (name.map underscored) (fields.map (renamedField front before)) field =
      findField name fields field := by
  rw [findField, findField, List.length_map]
  apply List.find?_congr
  intro i _
  rw [List.getElem?_map]
  cases hf : fields[i]? with
  | none => rfl
  | some f =>
    have hmem := List.mem_of_getElem? hf
    show decide (f.fieldName.bytes.map underscored = name.map underscored) =
      decide (f.fieldName.bytes = name)
    exact decide_eq_decide.mpr ⟨hname f hmem, congrArg _⟩

theorem findField_spec {name : List UInt8} {i : Nat} (h : findField name fields field = some i) :
    ∃ f, fields[i]? = some f ∧ f.fieldName.bytes = name := by
  have hfound := List.find?_some h
  obtain ⟨f, hf, hname⟩ := (Option.any_eq_true _ _).mp hfound
  exact ⟨f, hf, of_decide_eq_true hname⟩

/-- An integer type without blanks that names no format stays what it is. -/
theorem newType_of_control {earlier : List (List UInt8)} {typ : List UInt8}
    (hcontrol : isControl typ) (hblank : NoBlank typ) (hname : typ ∉ earlier)
    (front : List UInt8) : newType front earlier typ = typ := by
  rw [newType, typeHead_of_known hcontrol.known, if_neg hname, map_underscored_eq_self_iff.mpr hblank]

theorem control_of_newType {front : List UInt8} (hfront : PlainPrefix front)
    {earlier : List (List UInt8)} {typ : List UInt8} (hcontrol : isControl typ)
    (hnew : isControl (newType front earlier typ)) : NoBlank typ ∧ typ ∉ earlier := by
  rw [newType, typeHead_of_known hcontrol.known] at hnew
  by_cases hname : typ ∈ earlier
  · rw [if_pos hname] at hnew
    exact absurd (strToDataType_prefixed hfront hcontrol.known) hnew.known
  · rw [if_neg hname] at hnew
    exact ⟨noBlank_of_known hnew.known, hname⟩

theorem NoNumber.strtol_eq (h : NoNumber text) : strtol 0 text = (0, text) := by
  obtain ⟨front, hfront, -⟩ := strtol_suffix 0 text
  have hlength := congrArg List.length hfront
  rw [List.length_append, h] at hlength
  have hnil : front = [] := List.eq_nil_of_length_eq_zero (by omega)
  rw [hnil, List.nil_append] at hfront
  exact Prod.ext (strtol_eq_zero h) hfront.symm

theorem strtol_underscored_of_number (h : text.head?.any isSpace = true → NoNumber text) :
    strtol 0 (text.map underscored) = ((strtol 0 text).1, (strtol 0 text).2.map underscored) :=
  strtol_underscored fun hspace => (h hspace).strtol_eq

/-- A dimension that is kept is read alike. -/
theorem DimensionKept.textDimension_eq (h : DimensionKept (formatNames before) fields field text) :
    textDimension (fields.map (renamedField front before)) field (text.map underscored) =
      textDimension fields field text := by
  have hend := head?_underscored (c := chr ']') (by decide) (by decide) (strtol 0 text).2
  rw [textDimension, textDimension]
  simp only [strtol_underscored_of_number h.number, List.length_map]
  refine if_ctx_congr Iff.rfl (fun hnumber => ?_) fun _ =>
    if_congr (not_congr hend) rfl rfl
  rw [takeWhile_underscored (by decide : isSpace (chr ']') = false) (by decide), ← textName,
    findField_renamed (h.name hnumber)]
  cases hfind : findField (textName text) fields field with
  | none => rfl
  | some i =>
    obtain ⟨f, hf, -⟩ := findField_spec hfind
    obtain ⟨hcontrol, hblank, hname⟩ := h.control hnumber i hfind f hf
    simp only [List.getElem?_map, hf, Option.map_some, renamedField_fieldType,
      newType_of_control hcontrol hblank hname]

/-- A dimension with a control field names it. -/
theorem textDimension_control (h : (textDimension fields field text).2 ≠ -1) :
    NoNumber text ∧ ∃ (i : Nat) (f : FMField), findField (textName text) fields field = some i ∧
      fields[i]? = some f ∧ isControl f.fieldType.bytes ∧
      (textDimension fields field text).2 = i := by
  generalize hdimension : textDimension fields field text = dimension at h ⊢
  rw [textDimension] at hdimension
  dsimp only at hdimension
  split at hdimension
  · next hnumber =>
    refine ⟨hnumber, ?_⟩
    cases hfind : findField (textName text) fields field with
    | none =>
      rw [textName] at hfind
      rw [hfind] at hdimension
      exact absurd (congrArg Prod.snd hdimension).symm h
    | some i =>
      obtain ⟨f, hf, -⟩ := findField_spec hfind
      rw [textName] at hfind
      rw [hfind] at hdimension
      dsimp only at hdimension
      rw [hf, Option.map_some] at hdimension
      split at hdimension
      · next hcontrol =>
        refine ⟨i, f, rfl, hf, ?_, (congrArg Prod.snd hdimension).symm⟩
        simpa only [Option.some.injEq, isControl] using hcontrol
      · exact absurd (congrArg Prod.snd hdimension).symm h
  · split at hdimension
    · exact absurd (congrArg Prod.snd hdimension).symm h
    · split at hdimension
      · exact absurd (congrArg Prod.snd hdimension).symm h
      · exact absurd (congrArg Prod.snd hdimension).symm h

theorem control_of_proper (hproper : ProperDimension (textDimension fields field text))
    (hnumber : NoNumber text) : (textDimension fields field text).2 ≠ -1 := by
  refine hproper.resolve_left fun hpos => ?_
  have hread := (textDimension_pos hpos).1
  rw [hnumber.strtol_eq] at hread
  exact absurd hread (lt_irrefl 0)

/-- A dimension that can be told and is read alike is kept. -/
theorem kept_of_textDimension (hfront : PlainPrefix front.bytes)
    (hnames : NamesApart (fields.map fun f => f.fieldName.bytes))
    (hproper : ProperDimension (textDimension fields field text))
    (heq : textDimension (fields.map (renamedField front before)) field (text.map underscored) =
      textDimension fields field text) :
    DimensionKept (formatNames before) fields field text := by
  constructor
  · intro hspace
    by_contra hnumber
    -- The old size is read from the number, and the new text is no number any more.
    have hpos := hproper.resolve_right fun hcontrol =>
      hnumber (textDimension_control hcontrol).1
    rw [← heq] at hpos
    have hread := (textDimension_pos hpos).1
    rw [strtol_of_blank hspace] at hread
    exact absurd hread (lt_irrefl 0)
  · intro hnumber f hf hname
    obtain ⟨-, i, f', hfind, hf', -⟩ := textDimension_control (control_of_proper hproper hnumber)
    obtain ⟨g, hg, hfound⟩ := findField_spec hfind
    rw [← hfound] at hname ⊢
    exact hnames _ (List.mem_map.mpr ⟨f, hf, rfl⟩) _
      (List.mem_map.mpr ⟨g, List.mem_of_getElem? hg, rfl⟩) hname
  · intro hnumber i hfind f hf
    have hcontrol := control_of_proper hproper hnumber
    obtain ⟨-, i', f', hfind', hf', hinteger, hindex⟩ := textDimension_control hcontrol
    rw [Option.mem_def.mp hfind, Option.some.injEq] at hfind'
    subst hfind'
    rw [Option.mem_def.mp hf, Option.some.injEq] at hf'
    subst hf'
    rw [← heq] at hcontrol hindex
    obtain ⟨-, k, g, -, hg, hnew, hindex'⟩ := textDimension_control hcontrol
    have hk : k = i := by
      rw [hindex] at hindex'
      exact_mod_cast hindex'.symm
    subst hk
    rw [List.getElem?_map, Option.mem_def.mp hf, Option.map_some, Option.some.injEq] at hg
    rw [← hg, renamedField_fieldType] at hnew
    exact ⟨hinteger, control_of_newType hfront hinteger hnew⟩

end

/-! ## Types -/

/-- All dimensions of a piece are kept. -/
def DimensionsKept (earlier : List (List UInt8)) (fields : List FMField) (field : Nat)
    (piece : List UInt8) : Prop :=
  ∀ text ∈ bracketTexts piece, DimensionKept earlier fields field text

/-- The type of a field is a name of an earlier format with dimensions, so that it gets the prefix.
The name is that of no simple type, with and without the prefix.  Nothing marks it as a pointer,
and where the type reads as a subformat, that is the one it names. -/
structure NamesFormat (front : List UInt8) (names earlier : List (List UInt8))
    (fields : List FMField) (index : Nat) (fl : FMField) : Prop where
  named : typeHead fl.fieldType.bytes ∈ earlier
  marks : Unmarked front
  outside : codStrToDataType (typeHead fl.fieldType.bytes) fl.fieldSize = some .err
  outside' : codStrToDataType ((front ++ typeHead fl.fieldType.bytes).map underscored) fl.fieldSize =
    some .err
  pieces : ∀ pieces ∈ fieldPieces fl.fieldType.bytes,
    (∀ first ∈ pieces.head?, (skipPointers first).1 = 0) ∧
      (∀ piece ∈ pieces.tail, PointersFirst piece) ∧
      (∀ piece ∈ pieces, DimensionsKept earlier fields index piece) ∧
      (∀ last ∈ pieces.tail.getLast?, KeepsElement last) ∧
      (pieces.tail = [] → ∀ first ∈ pieces.head?, NamesElement front first)
  base : hasSubformat (fieldDesc fields index fl.fieldType.bytes) = true →
    baseDataType fl.fieldType.bytes ∈ names ∧
      skipTypePrefix (typeStem fl.fieldType.bytes) = typeStem fl.fieldType.bytes

/-- The type of a field gets no prefix and reads as no format of the list, and no blank counts in
it. -/
structure NamesOther (names earlier : List (List UInt8)) (fields : List FMField) (index : Nat)
    (fl : FMField) : Prop where
  other : typeHead fl.fieldType.bytes ∉ earlier
  outside : codStrToDataType (typeHead fl.fieldType.bytes) fl.fieldSize = some .err ∨
    NoBlank (typeHead fl.fieldType.bytes)
  pieces : ∀ pieces ∈ fieldPieces fl.fieldType.bytes,
    (∀ piece ∈ pieces, PointersFirst piece ∧ DimensionsKept earlier fields index piece) ∧
      ∀ last ∈ pieces.getLast?, KeepsElement last
  base : hasSubformat (fieldDesc fields index fl.fieldType.bytes) = true →
    baseDataType fl.fieldType.bytes ∉ names ∧ NoBlank (typeStem fl.fieldType.bytes)

/-- A field of a format behind the formats `earlier` whose type is renamed rightly. -/
def FieldSafe (front : List UInt8) (names earlier : List (List UInt8)) (fields : List FMField)
    (index : Nat) (fl : FMField) : Prop :=
  NamesFormat front names earlier fields index fl ∨ NamesOther names earlier fields index fl

/-- The type of a field can be told: its parentheses pair up, and each dimension has a size or a
control field. -/
def ReadableField (fields : List FMField) (index : Nat) (fl : FMField) : Prop :=
  ∃ pieces ∈ fieldPieces fl.fieldType.bytes,
    ∀ piece ∈ pieces, ∀ dimension ∈ pieceDimensions fields index piece, ProperDimension dimension

theorem fieldDesc_eq (fields : List FMField) (index : Nat) (typ : List UInt8) :
    fieldDesc fields index typ = (fieldPieces typ).map (pieceChain fields index) :=
  genTypeDesc_eq _ _

theorem bracketTexts_prefixed {front : List UInt8} (hfront : Unmarked front) (piece : List UInt8) :
    bracketTexts ((front ++ piece).map underscored) =
      (bracketTexts piece).map (·.map underscored) := by
  rw [bracketTexts_underscored, bracketTexts_append hfront.bracket]

theorem fieldMeaning_eq_iff {fields fields' : List FMField} {index : Nat} {fl fl' : FMField}
    {rename : List UInt8 → List UInt8} :
    fieldMeaning fields' index fl' = (fieldMeaning fields index fl).renamed rename ↔
      fieldDesc fields' index fl'.fieldType.bytes = fieldDesc fields index fl.fieldType.bytes ∧
      codStrToDataType fl'.fieldType.bytes fl'.fieldSize =
        codStrToDataType fl.fieldType.bytes fl.fieldSize ∧
      codStrToDataType (typeHead fl'.fieldType.bytes) fl'.fieldSize =
        codStrToDataType (typeHead fl.fieldType.bytes) fl.fieldSize ∧
      (hasSubformat (fieldDesc fields index fl.fieldType.bytes) = true →
        baseDataType fl'.fieldType.bytes = rename (baseDataType fl.fieldType.bytes)) := by
  simp only [fieldMeaning, FieldMeaning.renamed, FieldMeaning.mk.injEq]
  refine and_congr_right fun hdesc => and_congr_right fun _ => and_congr_right fun _ => ?_
  rw [hdesc]
  split
  · next hsub => simp [hsub]
  · next hsub => simp [hsub]

section
variable {front : CString} {before : List FMStructDesc} {fields : List FMField} {index : Nat}
  {fl : FMField} {piece piece' : List UInt8}

theorem DimensionsKept.pieceDimensions_eq (h : DimensionsKept (formatNames before) fields index piece)
    (hbrackets : bracketTexts piece' = (bracketTexts piece).map (·.map underscored)) :
    pieceDimensions (fields.map (renamedField front before)) index piece' =
      pieceDimensions fields index piece := by
  rw [FFS.pieceDimensions_eq, FFS.pieceDimensions_eq, hbrackets, List.map_map]
  exact List.map_congr_left fun text htext => (h text htext).textDimension_eq

theorem kept_of_pieceDimensions (hfront : PlainPrefix front.bytes)
    (hnames : NamesApart (fields.map fun f => f.fieldName.bytes))
    (hproper : ∀ dimension ∈ pieceDimensions fields index piece, ProperDimension dimension)
    (hbrackets : bracketTexts piece' = (bracketTexts piece).map (·.map underscored))
    (heq : pieceDimensions (fields.map (renamedField front before)) index piece' =
      pieceDimensions fields index piece) :
    DimensionsKept (formatNames before) fields index piece := by
  intro text htext
  rw [FFS.pieceDimensions_eq] at hproper
  rw [FFS.pieceDimensions_eq, FFS.pieceDimensions_eq, hbrackets, List.map_map] at heq
  exact kept_of_textDimension hfront hnames (hproper _ (List.mem_map.mpr ⟨text, htext, rfl⟩))
    (List.map_inj_left.mp heq text htext)

theorem length_pieceDimensions {fields' : List FMField}
    (hbrackets : bracketTexts piece' = (bracketTexts piece).map (·.map underscored)) :
    (pieceDimensions fields' index piece').length = (pieceDimensions fields index piece).length := by
  rw [FFS.pieceDimensions_eq, FFS.pieceDimensions_eq, hbrackets, List.length_map, List.length_map,
    List.length_map]

/-- The last piece of a type with a prefix is the first just if there is no other. -/
theorem lastElement_prefixed_iff {front first : List UInt8} {rest : List (List UInt8)} :
    ((prefixFirst front (first :: rest)).map (·.map underscored)).getLast?.map (pieceElement index) =
        (first :: rest).getLast?.map (pieceElement index) ↔
      rest.getLast?.elim (pieceElement index ((front ++ first).map underscored) =
        pieceElement index first) KeepsElement := by
  rw [prefixFirst, List.map_cons, List.getLast?_cons, List.getLast?_cons, List.getLast?_map]
  cases rest.getLast? with
  | none => simp
  | some last => simp [pieceElement_underscored_iff]

theorem lastElement_underscored_iff {pieces : List (List UInt8)} :
    (pieces.map (·.map underscored)).getLast?.map (pieceElement index) =
        pieces.getLast?.map (pieceElement index) ↔ ∀ last ∈ pieces.getLast?, KeepsElement last := by
  rw [List.getLast?_map]
  cases pieces.getLast? with
  | none => simp
  | some last => simp [pieceElement_underscored_iff]

/-! ### Types with the prefix -/

theorem NamesFormat.fieldType_eq {names : List (List UInt8)}
    (h : NamesFormat front.bytes names (formatNames before) fields index fl) :
    (renamedField front before fl).fieldType.bytes =
      (front.bytes ++ fl.fieldType.bytes).map underscored := by
  rw [renamedField_fieldType, newType, if_pos h.named]

theorem NamesFormat.desc_eq {names : List (List UInt8)}
    (h : NamesFormat front.bytes names (formatNames before) fields index fl) :
    fieldDesc (fields.map (renamedField front before)) index
        ((front.bytes ++ fl.fieldType.bytes).map underscored) =
      fieldDesc fields index fl.fieldType.bytes := by
  rw [fieldDesc_eq, fieldDesc_eq, fieldPieces_prefixed h.marks]
  cases hpieces : fieldPieces fl.fieldType.bytes with
  | none => rfl
  | some pieces =>
    obtain ⟨first, rest, rfl⟩ := List.exists_cons_of_ne_nil (typePieces_ne_nil hpieces)
    obtain ⟨hzero, hpointers, hdims, hlast, hfirst⟩ := h.pieces _ hpieces
    rw [List.forall_mem_cons] at hdims
    refine congrArg some (pieceChain_congr (.cons ⟨?_, ?_⟩ ?_) (lastElement_prefixed_iff.mpr ?_))
    · rw [pointers_prefixed h.marks, hzero first rfl]
    · exact hdims.1.pieceDimensions_eq (bracketTexts_prefixed h.marks first)
    · rw [List.forall₂_map_left_iff, List.forall₂_same]
      exact fun piece hpiece => ⟨pointers_underscored_iff.mpr (hpointers piece hpiece),
        (hdims.2 piece hpiece).pieceDimensions_eq (bracketTexts_underscored piece)⟩
    · cases hend : rest.getLast? with
      | none =>
        exact (hfirst (List.getLast?_eq_none_iff.mp hend) first rfl).pieceElement_eq h.marks
      | some last => exact hlast last hend

/-- A type that names an earlier format names it under its new name. -/
theorem NamesFormat.meaning_eq {list : List FMStructDesc}
    (h : NamesFormat front.bytes (formatNames list) (formatNames before) fields index fl) :
    fieldMeaning (fields.map (renamedField front before)) index (renamedField front before fl) =
      (fieldMeaning fields index fl).renamed (newName front list) := by
  rw [fieldMeaning_eq_iff, h.fieldType_eq]
  have hhead : codStrToDataType (typeHead ((front.bytes ++ fl.fieldType.bytes).map underscored))
      fl.fieldSize = codStrToDataType (typeHead fl.fieldType.bytes) fl.fieldSize := by
    rw [typeHead_underscored, typeHead_append h.marks.bracket, h.outside, h.outside']
  refine ⟨h.desc_eq, codStrToDataType_of_head ?_ hhead, hhead, fun hsub => ?_⟩
  · rw [mem_underscored_iff (by decide) (by decide), List.mem_append]
    exact or_iff_right h.marks.bracket
  · obtain ⟨hbase, hstem⟩ := h.base hsub
    rw [newName, if_pos hbase]
    exact (baseDataType_prefixed_iff h.marks).mpr hstem

/-- A type with the prefix that keeps its meaning names the format. -/
theorem namesFormat_of_meaning {list : List FMStructDesc} (hfront : PlainPrefix front.bytes)
    (hnames : NamesApart (fields.map fun f => f.fieldName.bytes))
    (hreadable : ReadableField fields index fl) (hnamed : typeHead fl.fieldType.bytes ∈ formatNames before)
    (hmeaning : fieldMeaning (fields.map (renamedField front before)) index
      (renamedField front before fl) = (fieldMeaning fields index fl).renamed (newName front list)) :
    NamesFormat front.bytes (formatNames list) (formatNames before) fields index fl := by
  have hmarks := hfront.toUnmarked
  rw [fieldMeaning_eq_iff, renamedField_fieldType, newType, if_pos hnamed] at hmeaning
  obtain ⟨hdesc, -, hhead, hbase⟩ := hmeaning
  obtain ⟨pieces, hpieces, hproper⟩ := hreadable
  rw [typeHead_underscored, typeHead_append hmarks.bracket] at hhead
  have houtside : codStrToDataType (typeHead fl.fieldType.bytes) fl.fieldSize = some .err := by
    by_cases hknown : strToDataType (typeHead fl.fieldType.bytes) = .unknownType
    · exact codStrToDataType_of_unknown hknown _
    · rw [← hhead]
      exact codStrToDataType_of_unknown (strToDataType_prefixed hfront hknown) _
  refine ⟨hnamed, hmarks, houtside, hhead.trans houtside, ?_, fun hsub => ?_⟩
  · intro pieces' hpieces'
    obtain rfl : pieces = pieces' := Option.some.inj (hpieces.symm.trans hpieces')
    obtain ⟨first, rest, rfl⟩ := List.exists_cons_of_ne_nil (typePieces_ne_nil hpieces)
    rw [fieldDesc_eq, fieldDesc_eq, fieldPieces_prefixed hmarks, hpieces, Option.map_some,
      Option.map_some, Option.map_some, Option.some.injEq] at hdesc
    obtain ⟨hlinks, hlast⟩ := sameLinks_of_pieceChain
      (.cons ⟨by rw [pointers_prefixed hmarks]; exact Nat.zero_le _,
          length_pieceDimensions (bracketTexts_prefixed hmarks first)⟩
        (List.forall₂_map_left_iff.mpr (List.forall₂_same.mpr fun piece _ =>
          ⟨pointers_underscored_le piece, length_pieceDimensions (bracketTexts_underscored piece)⟩)))
      hproper hdesc
    rw [List.forall₂_cons, List.forall₂_map_left_iff, List.forall₂_same] at hlinks
    obtain ⟨⟨hzero, hdims⟩, hrest⟩ := hlinks
    rw [List.forall_mem_cons] at hproper
    have helement := lastElement_prefixed_iff.mp hlast
    refine ⟨?_, fun piece hpiece => pointers_underscored_iff.mp (hrest piece hpiece).1,
      List.forall_mem_cons.mpr ⟨?_, fun piece hpiece => ?_⟩, fun last hend => ?_, fun hnil => ?_⟩
    · intro first' hfirst'
      obtain rfl : first = first' := Option.some.inj hfirst'
      rw [← hzero, pointers_prefixed hmarks]
    · exact kept_of_pieceDimensions hfront hnames hproper.1 (bracketTexts_prefixed hmarks first) hdims
    · exact kept_of_pieceDimensions hfront hnames (hproper.2 piece hpiece)
        (bracketTexts_underscored piece) (hrest piece hpiece).2
    · rw [show rest.getLast? = some last from hend] at helement
      exact helement
    · rw [show rest = [] from hnil] at helement
      intro first' hfirst'
      obtain rfl : first = first' := Option.some.inj hfirst'
      exact namesElement_of_eq hfront helement
  · have hnew := hbase hsub
    rw [newName] at hnew
    split at hnew
    · next hmem => exact ⟨hmem, (baseDataType_prefixed_iff hmarks).mp hnew⟩
    · exact absurd hnew (baseDataType_prefixed_ne hmarks _)

/-! ### Types without it -/

theorem NamesOther.fieldType_eq {names : List (List UInt8)}
    (h : NamesOther names (formatNames before) fields index fl) :
    (renamedField front before fl).fieldType.bytes = fl.fieldType.bytes.map underscored := by
  rw [renamedField_fieldType, newType, if_neg h.other]

/-- Another type keeps its meaning. -/
theorem NamesOther.meaning_eq {list : List FMStructDesc}
    (h : NamesOther (formatNames list) (formatNames before) fields index fl) :
    fieldMeaning (fields.map (renamedField front before)) index (renamedField front before fl) =
      (fieldMeaning fields index fl).renamed (newName front list) := by
  rw [fieldMeaning_eq_iff, h.fieldType_eq]
  have hhead : codStrToDataType (typeHead (fl.fieldType.bytes.map underscored)) fl.fieldSize =
      codStrToDataType (typeHead fl.fieldType.bytes) fl.fieldSize := by
    rw [typeHead_underscored]
    exact codStrToDataType_underscored_iff.mpr h.outside
  refine ⟨?_, codStrToDataType_of_head (mem_underscored_iff (by decide) (by decide)) hhead, hhead,
    fun hsub => ?_⟩
  · rw [fieldDesc_eq, fieldDesc_eq, fieldPieces_underscored]
    cases hpieces : fieldPieces fl.fieldType.bytes with
    | none => rfl
    | some pieces =>
      obtain ⟨hkept, helement⟩ := h.pieces pieces hpieces
      refine congrArg some (pieceChain_congr ?_ (lastElement_underscored_iff.mpr helement))
      rw [List.forall₂_map_left_iff, List.forall₂_same]
      exact fun piece hpiece => ⟨pointers_underscored_iff.mpr (hkept piece hpiece).1,
        (hkept piece hpiece).2.pieceDimensions_eq (bracketTexts_underscored piece)⟩
  · obtain ⟨hbase, hstem⟩ := h.base hsub
    rw [newName, if_neg hbase]
    exact baseDataType_underscored_iff.mpr hstem

/-- A type without the prefix that keeps its meaning names no format. -/
theorem namesOther_of_meaning {list : List FMStructDesc} (hfront : PlainPrefix front.bytes)
    (hnames : NamesApart (fields.map fun f => f.fieldName.bytes))
    (hreadable : ReadableField fields index fl) (hother : typeHead fl.fieldType.bytes ∉ formatNames before)
    (hmeaning : fieldMeaning (fields.map (renamedField front before)) index
      (renamedField front before fl) = (fieldMeaning fields index fl).renamed (newName front list)) :
    NamesOther (formatNames list) (formatNames before) fields index fl := by
  rw [fieldMeaning_eq_iff, renamedField_fieldType, newType, if_neg hother] at hmeaning
  obtain ⟨hdesc, -, hhead, hbase⟩ := hmeaning
  obtain ⟨pieces, hpieces, hproper⟩ := hreadable
  rw [typeHead_underscored] at hhead
  refine ⟨hother, codStrToDataType_underscored_iff.mp hhead, ?_, fun hsub => ?_⟩
  · intro pieces' hpieces'
    obtain rfl : pieces = pieces' := Option.some.inj (hpieces.symm.trans hpieces')
    rw [fieldDesc_eq, fieldDesc_eq, fieldPieces_underscored, hpieces, Option.map_some,
      Option.map_some, Option.map_some, Option.some.injEq] at hdesc
    obtain ⟨hlinks, hlast⟩ := sameLinks_of_pieceChain
      (List.forall₂_map_left_iff.mpr (List.forall₂_same.mpr fun piece _ =>
        ⟨pointers_underscored_le piece, length_pieceDimensions (bracketTexts_underscored piece)⟩))
      hproper hdesc
    rw [List.forall₂_map_left_iff, List.forall₂_same] at hlinks
    refine ⟨fun piece hpiece => ⟨pointers_underscored_iff.mp (hlinks piece hpiece).1, ?_⟩,
      lastElement_underscored_iff.mp hlast⟩
    exact kept_of_pieceDimensions hfront hnames (hproper piece hpiece)
      (bracketTexts_underscored piece) (hlinks piece hpiece).2
  · have hnew := hbase hsub
    rw [newName] at hnew
    split at hnew
    · exact absurd hnew (baseDataType_ne_prefixed hfront _)
    · next hmem => exact ⟨hmem, baseDataType_underscored_iff.mp hnew⟩

end

/-! ## Lists that are renamed rightly -/

/-- The formats of a list from one on: no two fields of one are called alike but for blanks, and
the types are renamed rightly. -/
def FormatsSafe (front : CString) (names : List (List UInt8)) :
    List (List UInt8) → List FMStructDesc → Prop
  | _, [] => True
  | earlier, f :: list =>
    NamesApart (f.fieldList.map fun fl => fl.fieldName.bytes) ∧
    (∀ j < f.fieldList.length, ∀ fl ∈ f.fieldList[j]?,
      FieldSafe front.bytes names earlier f.fieldList j fl) ∧
    FormatsSafe front names (earlier ++ [f.formatName.bytes]) list

/-- A list whose fields are all safe, and whose names differ by more than blanks. -/
structure RenamesSafely (front : CString) (list : List FMStructDesc) : Prop where
  fields : FormatsSafe front (formatNames list) [] list
  names : NamesApart (formatNames list)

/-- A list whose types can all be told. -/
def TypesReadable (list : List FMStructDesc) : Prop :=
  ∀ f ∈ list, ∀ j < f.fieldList.length, ∀ fl ∈ f.fieldList[j]?, ReadableField f.fieldList j fl

section
variable {front : CString} {before list : List FMStructDesc} {f : FMStructDesc}

theorem renamedFormat_field {j : Nat} {fl fl' : FMField} (h : f.fieldList[j]? = some fl)
    (h' : (renamedFormat front before f).fieldList[j]? = some fl') :
    fl' = renamedField front before fl := by
  rw [renamedFormat, List.getElem?_map, h] at h'
  exact (Option.some.inj h').symm

theorem renamedFormat_get {j : Nat} {fl : FMField} (h : f.fieldList[j]? = some fl) :
    (renamedFormat front before f).fieldList[j]? = some (renamedField front before fl) := by
  rw [renamedFormat, List.getElem?_map, h]
  rfl

theorem formatRenamed_of_safe (hf : f ∈ list)
    (hnames : NamesApart (f.fieldList.map fun fl => fl.fieldName.bytes))
    (hsafe : ∀ j < f.fieldList.length, ∀ fl ∈ f.fieldList[j]?,
      FieldSafe front.bytes (formatNames list) (formatNames before) f.fieldList j fl) :
    FormatRenamed (newName front list) f (renamedFormat front before f) := by
  constructor
  · have hmem : f.formatName.bytes ∈ formatNames list := List.mem_map.mpr ⟨f, hf, rfl⟩
    rw [newName, if_pos hmem]
    rfl
  · rfl
  · rfl
  · exact List.length_map _
  · intro i j a b a' b' ha hb ha' hb' heq
    rw [renamedFormat_field ha ha', renamedFormat_field hb hb'] at heq
    exact CString.ext (hnames _ (List.mem_map.mpr ⟨a, List.mem_of_getElem? ha, rfl⟩) _
      (List.mem_map.mpr ⟨b, List.mem_of_getElem? hb, rfl⟩) (congrArg CString.bytes heq))
  · intro j fl fl' hfl hfl'
    rw [renamedFormat_field hfl hfl']
    exact ⟨rfl, rfl⟩
  · intro j fl fl' hfl hfl'
    rw [renamedFormat_field hfl hfl']
    have hlt : j < f.fieldList.length := (List.getElem?_eq_some_iff.mp hfl).1
    rcases hsafe j hlt fl hfl with hnames | hother
    · exact hnames.meaning_eq
    · exact hother.meaning_eq

theorem safe_of_formatRenamed (hfront : PlainPrefix front.bytes)
    (hreadable : ∀ j < f.fieldList.length, ∀ fl ∈ f.fieldList[j]?, ReadableField f.fieldList j fl)
    (h : FormatRenamed (newName front list) f (renamedFormat front before f)) :
    NamesApart (f.fieldList.map fun fl => fl.fieldName.bytes) ∧
      ∀ j < f.fieldList.length, ∀ fl ∈ f.fieldList[j]?,
        FieldSafe front.bytes (formatNames list) (formatNames before) f.fieldList j fl := by
  have hnames : NamesApart (f.fieldList.map fun fl => fl.fieldName.bytes) := by
    intro a ha b hb heq
    obtain ⟨x, hx, rfl⟩ := List.mem_map.mp ha
    obtain ⟨y, hy, rfl⟩ := List.mem_map.mp hb
    obtain ⟨i, hi⟩ := List.mem_iff_getElem?.mp hx
    obtain ⟨j, hj⟩ := List.mem_iff_getElem?.mp hy
    exact congrArg CString.bytes (h.fieldNames i j x y _ _ hi hj (renamedFormat_get hi)
      (renamedFormat_get hj) (CString.ext heq))
  refine ⟨hnames, fun j hlt fl hfl => ?_⟩
  have hmeaning := h.meaning j fl _ hfl (renamedFormat_get hfl)
  by_cases hnamed : typeHead fl.fieldType.bytes ∈ formatNames before
  · exact .inl (namesFormat_of_meaning hfront hnames (hreadable j hlt fl hfl) hnamed hmeaning)
  · exact .inr (namesOther_of_meaning hfront hnames (hreadable j hlt fl hfl) hnamed hmeaning)

end

theorem formatNames_concat (before : List FMStructDesc) (f : FMStructDesc) :
    formatNames (before ++ [f]) = formatNames before ++ [f.formatName.bytes] := List.map_append

theorem formatsRenamed_of_safe {front : CString} {whole before list : List FMStructDesc}
    (hsub : list ⊆ whole)
    (hsafe : FormatsSafe front (formatNames whole) (formatNames before) list) :
    List.Forall₂ (FormatRenamed (newName front whole)) list
      ((uniqueifyFrom front (before.map fun f => prefixed front f.formatName) list).map
        purifyName) := by
  induction list generalizing before with
  | nil => exact List.Forall₂.nil
  | cons f list ih =>
    rw [FormatsSafe, ← formatNames_concat] at hsafe
    rw [purifyName_uniqueifyFrom]
    exact .cons (formatRenamed_of_safe (hsub List.mem_cons_self) hsafe.1 hsafe.2.1)
      (ih (List.subset_of_cons_subset hsub) hsafe.2.2)

theorem formatsSafe_of_renamed {front : CString} {whole before list : List FMStructDesc}
    (hfront : PlainPrefix front.bytes) (hreadable : TypesReadable list)
    (h : List.Forall₂ (FormatRenamed (newName front whole)) list
      ((uniqueifyFrom front (before.map fun f => prefixed front f.formatName) list).map
        purifyName)) :
    FormatsSafe front (formatNames whole) (formatNames before) list := by
  induction list generalizing before with
  | nil => trivial
  | cons f list ih =>
    rw [purifyName_uniqueifyFrom, List.forall₂_cons] at h
    rw [FormatsSafe, ← formatNames_concat]
    obtain ⟨hnames, hsafe⟩ := safe_of_formatRenamed hfront (hreadable f List.mem_cons_self) h.1
    exact ⟨hnames, hsafe, ih (fun g hg => hreadable g (List.mem_cons_of_mem f hg)) h.2⟩

theorem isomorphic_of_renamesSafely {front : CString} {list : List FMStructDesc}
    (h : RenamesSafely front list) :
    Isomorphic (newName front list) list (uniqueifyNames front list) := by
  refine ⟨@formatsRenamed_of_safe front list [] list (List.Subset.refl list) h.fields, ?_⟩
  intro a ha b hb heq
  rw [newName, newName, if_pos ha, if_pos hb, List.map_append, List.map_append] at heq
  exact h.names a ha b hb (List.append_cancel_left heq)

theorem renamesSafely_of_isomorphic {front : CString} {list : List FMStructDesc}
    (hfront : PlainPrefix front.bytes) (hreadable : TypesReadable list)
    (h : Isomorphic (newName front list) list (uniqueifyNames front list)) :
    RenamesSafely front list := by
  refine ⟨@formatsSafe_of_renamed front list [] list hfront hreadable h.1, ?_⟩
  intro a ha b hb heq
  apply h.2 a ha b hb
  rw [newName, newName, if_pos ha, if_pos hb, List.map_append, List.map_append, heq]

/-! ## Two lists -/

/-- Where one prefix begins like the other, no name of the second list goes on like it and ends
like a name of the first. -/
def PrefixApart (front front' : CString) (list list' : List FMStructDesc) : Prop :=
  ∀ rest, front'.bytes.map underscored = front.bytes.map underscored ++ rest →
    ∀ a ∈ formatNames list, ∀ b ∈ formatNames list',
      a.map underscored ≠ rest ++ b.map underscored

theorem formatNames_uniqueifyNames (front : CString) (list : List FMStructDesc) :
    formatNames (uniqueifyNames front list) =
      (formatNames list).map fun name => (front.bytes ++ name).map underscored := by
  have hfrom : ∀ renamed, formatNames ((uniqueifyFrom front renamed list).map purifyName) =
      (formatNames list).map fun name => (front.bytes ++ name).map underscored := by
    induction list with
    | nil => exact fun _ => rfl
    | cons f list ih => exact fun renamed => congrArg _ (ih _)
  exact hfrom []

/-- The names of two lists under different prefixes. -/
theorem names_apart_iff (front front' : CString) (list list' : List FMStructDesc) :
    (∀ a ∈ formatNames (uniqueifyNames front list),
      a ∉ formatNames (uniqueifyNames front' list')) ↔
    PrefixApart front front' list list' ∧ PrefixApart front' front list' list := by
  rw [formatNames_uniqueifyNames, formatNames_uniqueifyNames]
  constructor
  · intro h
    constructor
    · intro rest hrest a ha b hb heq
      refine h _ (List.mem_map.mpr ⟨a, ha, rfl⟩) (List.mem_map.mpr ⟨b, hb, ?_⟩)
      rw [List.map_append, List.map_append, hrest, heq, List.append_assoc]
    · intro rest hrest b hb a ha heq
      refine h _ (List.mem_map.mpr ⟨a, ha, rfl⟩) (List.mem_map.mpr ⟨b, hb, ?_⟩)
      rw [List.map_append, List.map_append, hrest, heq, List.append_assoc]
  · rintro ⟨hleft, hright⟩ name hname hname'
    obtain ⟨a, ha, rfl⟩ := List.mem_map.mp hname
    obtain ⟨b, hb, heq⟩ := List.mem_map.mp hname'
    rw [List.map_append, List.map_append] at heq
    obtain ⟨rest, hfront, hnames⟩ | ⟨rest, hfront, hnames⟩ := List.append_eq_append_iff.mp heq
    · exact hright rest hfront b hb a ha hnames
    · exact hleft rest hfront a ha b hb hnames

/-- Both lists are safe, and their prefixes keep their names apart. -/
structure SafelyApart (front front' : CString) (list list' : List FMStructDesc) : Prop where
  left : RenamesSafely front list
  right : RenamesSafely front' list'
  names : PrefixApart front front' list list'
  names' : PrefixApart front' front list' list

instance (text : List UInt8) : Decidable (NoNumber text) := inferInstanceAs (Decidable (_ = _))

instance (typ : List UInt8) : Decidable (isControl typ) := inferInstanceAs (Decidable (_ ∨ _))

instance (names : List (List UInt8)) : Decidable (NamesApart names) :=
  inferInstanceAs (Decidable (∀ a ∈ names, _))

section
variable (front : List UInt8) (names earlier : List (List UInt8)) (fields : List FMField)
  (index : Nat) (fl : FMField)

instance (text : List UInt8) : Decidable (DimensionKept earlier fields index text) :=
  decidable_of_iff (_ ∧ _ ∧ _) ⟨fun ⟨h, h', h''⟩ => ⟨h, h', h''⟩,
    fun h => ⟨h.number, h.name, h.control⟩⟩

instance (piece : List UInt8) : Decidable (DimensionsKept earlier fields index piece) :=
  inferInstanceAs (Decidable (∀ text ∈ _, _))

instance : Decidable (NamesFormat front names earlier fields index fl) :=
  decidable_of_iff (_ ∧ _ ∧ _ ∧ _ ∧ _ ∧ _) ⟨fun ⟨h₁, h₂, h₃, h₄, h₅, h₆⟩ => ⟨h₁, h₂, h₃, h₄, h₅, h₆⟩,
    fun h => ⟨h.named, h.marks, h.outside, h.outside', h.pieces, h.base⟩⟩

instance : Decidable (NamesOther names earlier fields index fl) :=
  decidable_of_iff (_ ∧ _ ∧ _ ∧ _) ⟨fun ⟨h₁, h₂, h₃, h₄⟩ => ⟨h₁, h₂, h₃, h₄⟩,
    fun h => ⟨h.other, h.outside, h.pieces, h.base⟩⟩

instance : Decidable (FieldSafe front names earlier fields index fl) :=
  inferInstanceAs (Decidable (_ ∨ _))

instance : Decidable (ReadableField fields index fl) :=
  inferInstanceAs (Decidable (∃ pieces ∈ _, _))

end

instance decidableFormatsSafe (front : CString) (names : List (List UInt8)) :
    ∀ earlier list, Decidable (FormatsSafe front names earlier list)
  | _, [] => isTrue trivial
  | earlier, f :: list =>
    have := decidableFormatsSafe front names (earlier ++ [f.formatName.bytes]) list
    inferInstanceAs (Decidable (_ ∧ _ ∧ _))

instance (front : CString) (list : List FMStructDesc) : Decidable (RenamesSafely front list) :=
  decidable_of_iff (_ ∧ _) ⟨fun ⟨h, h'⟩ => ⟨h, h'⟩, fun h => ⟨h.fields, h.names⟩⟩

instance (list : List FMStructDesc) : Decidable (TypesReadable list) :=
  inferInstanceAs (Decidable (∀ f ∈ list, _))

/-! ## Two lists of formats -/

/-- A format that is named by the other of its list. -/
def vertexFormat : FMStructDesc where
  formatName := cstr ['v', 'e', 'r', 't', 'e', 'x'] (.refl false)
  fieldList := [⟨cstr ['x'] (.refl false),
    cstr ['i', 'n', 't', 'e', 'g', 'e', 'r'] (.refl false), 4, 0⟩]
  structSize := 4
  optInfo := []

/-- A format with two fields of given types. -/
def traceFormat (first second : CString) : FMStructDesc where
  formatName := cstr ['t', 'r', 'a', 'c', 'e'] (.refl false)
  fieldList := [⟨cstr ['n'] (.refl false),
      cstr ['i', 'n', 't', 'e', 'g', 'e', 'r'] (.refl false), 4, 0⟩,
    ⟨cstr ['p'] (.refl false), first, 4, 8⟩, ⟨cstr ['q'] (.refl false), second, 4, 16⟩]
  structSize := 24
  optInfo := []

/-- The prefixes of `gen_rollback_code`. -/
def newFront : CString := cstr ['f', '0', '_'] (.refl false)

def oldFront : CString := cstr ['f', '1', '_'] (.refl false)

/-- Vertices as many as another field says. -/
def verticesType : CString := cstr ['v', 'e', 'r', 't', 'e', 'x', '[', 'n', ']'] (.refl false)

/-- Arrays of integers, with a blank in front of the outer dimension. -/
def arraysType : CString :=
  cstr ['(', 'i', 'n', 't', 'e', 'g', 'e', 'r', '[', '3', ']', ')', ' ', '[', '4', ']'] (.refl false)

/-- A pointer to a vertex. -/
def pointerToVertex : CString := cstr ['*', 'v', 'e', 'r', 't', 'e', 'x'] (.refl false)

/-- Prefixes of one length that differ share no names. -/
theorem prefixApart_of_length {front front' : CString} {list list' : List FMStructDesc}
    (hlength : front'.bytes.length = front.bytes.length)
    (hne : front'.bytes.map underscored ≠ front.bytes.map underscored) :
    PrefixApart front front' list list' := by
  intro rest hrest
  have hnil : rest = [] := by
    have hlengths := congrArg List.length hrest
    rw [List.length_append, List.length_map, List.length_map, hlength] at hlengths
    exact List.eq_nil_of_length_eq_zero (by omega)
  rw [hnil, List.append_nil] at hrest
  exact absurd hrest hne

end FFS
