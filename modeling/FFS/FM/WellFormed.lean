import FFS.FM.AcceptedFields
import FFS.FM.Pieces
import FFS.FM.SubformatOrder

/-!
# Well-formed formats

What goes on behind registration indexes with the sizes and control fields of array links and
follows the chain to its last link.  Registration makes chains that this is safe for just where
each dimension was found, and it returns just where the parentheses pair up and the formats can
be put in order.
-/

namespace FFS

open Machine Relation

/-! ## Chains -/

/-- The field can hold the size of a dimension. -/
def namesInteger (f : FMField) : Prop :=
  strToDataType f.fieldType.bytes = .integerType ∨ strToDataType f.fieldType.bytes = .unsignedType

/-- An array link has a positive size, or the index of a field that holds it. -/
def ProperNode (fields : List FMField) (node : Int × Int) : Prop :=
  0 < node.1 ∨ ∃ (i : Nat) (f : FMField), node.2 = i ∧ fields[i]? = some f ∧ namesInteger f

/-- Behind pointers and proper array links, the chain of the field ends in a known simple type, a
string, or a subformat that the field has. -/
def WellFormedField (b : FMFormatBody) (field : Nat) : Prop :=
  ∃ var sub links last, b.varList[field]? = some var ∧ b.fieldSubformats[field]? = some sub ∧
    var.typeDesc = links ++ [last] ∧
    (∀ desc ∈ links, desc.type = .pointer ∨ desc.type = .array) ∧
    (∀ node ∈ arrayNodes var.typeDesc, ProperNode b.fieldList node) ∧
    (last.type = .simple ∧ last.dataType ≠ .unknownType ∨ last.type = .string ∨
      last.type = .subformat ∧ sub.isSome)

/-- `IOget_array_size_dimen` finds a positive size or a control field. -/
def ProperDimension (dimension : Int × Int) : Prop := 0 < dimension.1 ∨ dimension.2 ≠ -1

instance (dimension : Int × Int) : Decidable (ProperDimension dimension) :=
  inferInstanceAs (Decidable (_ ∨ _))

/-- The dimensions of a type can be told, and if the type itself is a simple one, so is the piece
that gives the element. -/
def SoundType (fields : List FMField) (field : Nat) (typ : List UInt8) : Prop :=
  Compound typ → ∀ pieces, fieldPieces typ = some pieces →
    (∀ piece ∈ pieces, ∀ dimension ∈ pieceDimensions fields field piece,
      ProperDimension dimension) ∧
    ((arrayStrToDataType typ).1 = .unknownType ∨ (arrayStrToDataType typ).1 = .stringType ∨
      ∃ piece, pieces.getLast? = some piece ∧ (arrayStrToDataType piece).1 ≠ .unknownType)

/-- A control field that was found can hold a size. -/
theorem getArraySizeDimen_control {str : List UInt8} {fields : List FMField} {dimen curField : Nat}
    (h : (getArraySizeDimen str fields dimen curField).2 ≠ -1) :
    ∃ (i : Nat) (f : FMField), (getArraySizeDimen str fields dimen curField).2 = i ∧
      fields[i]? = some f ∧ namesInteger f := by
  generalize hdimension : getArraySizeDimen str fields dimen curField = dimension at h ⊢
  rw [getArraySizeDimen] at hdimension
  dsimp only at hdimension
  split at hdimension
  · exact absurd (congrArg Prod.snd hdimension).symm h
  · split at hdimension
    · split at hdimension
      · exact absurd (congrArg Prod.snd hdimension).symm h
      · next i hfound =>
        split at hdimension
        · next hcontrol =>
          cases hf : fields[i]? with
          | none =>
            rw [hf] at hcontrol
            simp at hcontrol
          | some f =>
            rw [hf] at hcontrol
            simp only [Option.map_some, Option.some.injEq] at hcontrol
            exact ⟨i, f, (congrArg Prod.snd hdimension).symm, hf, hcontrol⟩
        · exact absurd (congrArg Prod.snd hdimension).symm h
    · split at hdimension
      · exact absurd (congrArg Prod.snd hdimension).symm h
      · split at hdimension
        · exact absurd (congrArg Prod.snd hdimension).symm h
        · exact absurd (congrArg Prod.snd hdimension).symm h

theorem properNode_iff {fields : List FMField} {field : Nat} {piece : List UInt8}
    {dimension : Int × Int} (h : dimension ∈ pieceDimensions fields field piece) :
    ProperNode fields (nodeDimension dimension) ↔ ProperDimension dimension := by
  have hsize : 0 < (nodeDimension dimension).1 ↔ 0 < dimension.1 := by
    rw [nodeDimension]
    dsimp only
    split
    · omega
    · rfl
  rw [ProperNode, ProperDimension, hsize]
  refine or_congr_right ⟨?_, fun hcontrol => ?_⟩
  · rintro ⟨i, f, heq, -, -⟩
    have hcontrol : dimension.2 = i := heq
    omega
  · obtain ⟨dimen, -, rfl⟩ := List.mem_map.mp h
    exact getArraySizeDimen_control hcontrol

section
variable {formats : List FMFormatBody} {b : FMFormatBody} {field : Nat} {fmField : FMField}
  {sub : Option Nat} {recursive : Bool} {chain : List FMTypeDesc}

/-- What closing leaves to be asked of the links and of the last one. -/
theorem wellFormedField_iff_of_links
    (h : AcceptedField formats b field fmField sub recursive chain) {links : List FMTypeDesc}
    {last : FMTypeDesc} (hchain : chain = links ++ [last])
    (hlinks : ∀ desc ∈ links, desc.type = .pointer ∨ desc.type = .array)
    (hlast : last.type ≠ .array) :
    WellFormedField b field ↔ (∀ node ∈ arrayNodes chain, ProperNode b.fieldList node) ∧
      ((arrayStrToDataType fmField.fieldType.bytes).1 = .stringType ∨ sub.isSome ∨
        last.type = .simple ∧ last.dataType ≠ .unknownType ∨ last.type = .string) := by
  let typ := fmField.fieldType.bytes
  let dataType := (arrayStrToDataType typ).1
  let flag : Option Bool := sub.map fun _ => recursive
  have hflag : flag.isSome = sub.isSome := Option.isSome_map
  obtain ⟨links', hclose, hlinks', -⟩ :=
    @closeTypeDesc_links field dataType flag links last hlinks
  obtain ⟨last', hsingle, hcases⟩ := @closeTypeDesc_singleton field dataType flag last
  have hdesc : (varInfo b.fieldList field typ flag chain).typeDesc = links' ++ [last'] := by
    rw [← hsingle, ← hclose, ← hchain]
    rfl
  have hnodes : arrayNodes (links' ++ [last']) = arrayNodes chain := by
    rw [← hsingle, ← hclose, hchain]
    exact arrayNodes_closeTypeDesc hlinks hlast
  have hends : (last'.type = .simple ∧ last'.dataType ≠ .unknownType ∨ last'.type = .string ∨
      last'.type = .subformat ∧ sub.isSome) ↔ (dataType = .stringType ∨ sub.isSome ∨
        last.type = .simple ∧ last.dataType ≠ .unknownType ∨ last.type = .string) := by
    rcases hcases with ⟨hstring, heq⟩ | ⟨-, hsome, heq⟩ | ⟨hstring, hnone, rfl⟩
    · simp [hstring, heq]
    · rw [hflag] at hsome
      simp [hsome, heq]
    · have hsub : sub.isSome = false := by rw [← hflag, hnone]; rfl
      simp [hstring, hsub]
  constructor
  · rintro ⟨var, sub', links'', last'', hvar, hsub, hsplit, -, hproper, hend⟩
    rw [h.varList, Option.some.injEq] at hvar
    rw [h.fieldSubformats, Option.some.injEq] at hsub
    subst hvar hsub
    have heq : links' ++ [last'] = links'' ++ [last''] := hdesc.symm.trans hsplit
    obtain ⟨-, hlasts⟩ := List.append_inj' heq rfl
    cases hlasts
    refine ⟨?_, hends.mp hend⟩
    rw [← hnodes, ← hdesc]
    exact hproper
  · rintro ⟨hproper, hend⟩
    refine ⟨_, sub, links', last', h.varList, h.fieldSubformats, hdesc, hlinks', ?_,
      hends.mpr hend⟩
    rw [← hnodes, ← hdesc] at hproper
    exact hproper

theorem wellFormedField_iff (h : AcceptedField formats b field fmField sub recursive chain) :
    WellFormedField b field ↔ SoundType b.fieldList field fmField.fieldType.bytes := by
  by_cases hcompound : Compound fmField.fieldType.bytes
  · obtain ⟨pieces, hpieces, hdescribes⟩ := describes_of_typeChain hcompound h.chain_eq
    obtain ⟨links, piece, hpiece, hchain, hlinks⟩ := hdescribes.element
    rw [wellFormedField_iff_of_links h hchain hlinks (pieceElement_ne_array piece),
      hdescribes.nodes]
    have hproper : (∀ node ∈ pieces.flatMap fun piece =>
        (pieceDimensions b.fieldList field piece).map nodeDimension, ProperNode b.fieldList node) ↔
        ∀ piece ∈ pieces, ∀ dimension ∈ pieceDimensions b.fieldList field piece,
          ProperDimension dimension := by
      simp only [List.mem_flatMap, List.mem_map]
      constructor
      · intro hall piece hmem dimension hdimension
        exact (properNode_iff hdimension).mp (hall _ ⟨piece, hmem, dimension, hdimension, rfl⟩)
      · rintro hall node ⟨piece, hmem, dimension, hdimension, rfl⟩
        exact (properNode_iff hdimension).mpr (hall piece hmem dimension hdimension)
    have helement : ((pieceElement field piece).type = .simple ∧
        (pieceElement field piece).dataType ≠ .unknownType ∨
          (pieceElement field piece).type = .string) ↔
        (arrayStrToDataType piece).1 ≠ .unknownType := by
      have hdata : (pieceElement field piece).dataType = (arrayStrToDataType piece).1 := rfl
      rcases pieceElement_type field piece with ⟨htype, hunknown⟩ | ⟨htype | htype, hknown⟩
      · simp [htype, hunknown]
      · simp [htype, hknown]
      · simp [htype, hdata, hknown]
    rw [hproper, helement]
    constructor
    · rintro ⟨hall, hend⟩ - pieces' hpieces'
      rw [hpieces, Option.some.injEq] at hpieces'
      subst hpieces'
      refine ⟨hall, ?_⟩
      rcases hend with hstring | hsub | hknown
      · exact .inr (.inl hstring)
      · exact .inl (h.unknown.mp hsub)
      · exact .inr (.inr ⟨piece, hpiece, hknown⟩)
    · intro hsound
      obtain ⟨hall, hend⟩ := hsound hcompound pieces hpieces
      refine ⟨hall, ?_⟩
      rcases hend with hunknown | hstring | ⟨piece', hpiece', hknown⟩
      · exact .inr (.inl (h.unknown.mpr hunknown))
      · exact .inl hstring
      · rw [hpiece, Option.some.injEq] at hpiece'
        subst hpiece'
        exact .inr (.inr hknown)
  · have hchain := h.chain_eq
    rw [typeChain_of_not_compound hcompound, Option.some.injEq] at hchain
    have hbracket : chr '[' ∉ fmField.fieldType.bytes := fun hmem => hcompound (.inr hmem)
    have htype : (arrayStrToDataType fmField.fieldType.bytes).1 =
        strToDataType fmField.fieldType.bytes := by
      rw [arrayStrToDataType_fst, List.takeWhile_eq_self_iff.mpr]
      intro x hx
      simp only [ne_eq, decide_not, Bool.not_eq_true', decide_eq_false_iff_not]
      exact fun heq => hbracket (heq ▸ hx)
    refine ⟨fun _ hcompound' => absurd hcompound' hcompound, fun _ => ?_⟩
    have hsplit : chain = [] ++ [_] := hchain.symm
    refine (wellFormedField_iff_of_links h hsplit (by simp) (fun heq => by cases heq)).mpr ⟨?_, ?_⟩
    · rw [← hchain]
      simp [arrayNodes, FMTypeDesc.new]
    · by_cases hunknown : (arrayStrToDataType fmField.fieldType.bytes).1 = .unknownType
      · exact .inr (.inl (h.unknown.mpr hunknown))
      · exact .inr (.inr (.inl ⟨rfl, htype ▸ hunknown⟩))

end

/-! ## Registration -/

section
variable (columnMajor ignoreDefaultValues : Bool) (structList : List FMStructDesc)

/-- `generate_var_list` comes to a field and finds `sub` for its subformat, the formats and fields
before it being accepted. -/
def LooksUp (sub : Option (Option Nat)) (fields : List FMField) (field : Nat) (fmField : FMField) :
    Prop :=
  ∃ copied, structList.mapM (newFormat columnMajor ignoreDefaultValues) = some copied ∧
    ∃ before i behind, (List.range copied.length).reverse = before ++ i :: behind ∧
      ∃ l, pass (generateVarList (List.range copied.length)) copied before = some l ∧
        ∃ f ∈ l[i]?, f.fieldList = fields ∧ fields[field]? = some fmField ∧
          (∀ k g, k < field → fields[k]? = some g →
            (generateVar l (List.range copied.length) i fields g k).isSome) ∧
          fieldSubformat l (List.range copied.length) i fmField.fieldType.bytes = sub

/-- The formats as they are aligned and flagged when it is checked whether their fields fit. -/
def Unfit (derived : List FMFormatBody) : Prop :=
  ∃ aligned, (List.range (reorder derived (topoOrderSubformats derived)).length).reverse.foldlM
      setAlignment (reorder derived (topoOrderSubformats derived)) = some aligned ∧
    (bubbleVariants aligned aligned.length).all
      (fieldsFit (bubbleVariants aligned aligned.length)) = false

/-- What `free_format_list` frees of `count` formats that were put in order: the first with those
behind it in the order, and then the entries of the list, where the order was put as well. -/
def freedFormats (count : Nat) (order : List Nat) : List Nat :=
  order ++ (order.tail ++ (List.range count).drop order.length)

/-- Registration has a top format, no descriptor that is NULL and no assertion that fails, and
every field of a format that it returns is well formed.  A list that it rejects is freed without
reading what was never set and without freeing a format twice.  When a field list is not copied,
neither its format's `field_count` nor the formats behind it were set; when `generate_var_list`
stops, the fields behind have no entries in `var_list`. -/
structure AcceptsWellFormed : Prop where
  copies : (structList.mapM (newFormat columnMajor ignoreDefaultValues)).isSome
  top : ∀ derived, Prepared columnMajor ignoreDefaultValues structList derived → derived ≠ []
  descriptors : ∀ sub fields field fmField,
    LooksUp columnMajor ignoreDefaultValues structList (some sub) fields field fmField →
      (typeChain fields field fmField.fieldType.bytes).isSome
  stops : ∀ fields field fmField,
    LooksUp columnMajor ignoreDefaultValues structList none fields field fmField →
      ∀ k < fields.length, k ≤ field
  alignments : ∀ derived, Prepared columnMajor ignoreDefaultValues structList derived →
    (topoOrderSubformats derived).length < topoArraySize ∧ ∃ aligned,
      (List.range (reorder derived (topoOrderSubformats derived)).length).reverse.foldlM
        setAlignment (reorder derived (topoOrderSubformats derived)) = some aligned
  frees : ∀ derived, Prepared columnMajor ignoreDefaultValues structList derived → Unfit derived →
    (freedFormats derived.length (topoOrderSubformats derived)).Nodup
  formats : ∀ f, registerFormats columnMajor ignoreDefaultValues structList = some f →
    ∀ b ∈ f.bodies, ∀ field < b.fieldList.length, WellFormedField b field

/-- A field whose type fits in the buffers and whose size is positive. -/
def Validates (f : FMField) : Prop :=
  fitsBuffers f.fieldType.bytes = true ∧ (fieldExtent f).isSome

/-- The list is not empty and its fields can be stored, the parentheses pair up in every type that
is read, a type that names no format is that of a last field, the formats can be put in order, the
first of formats that do not fit refers to no other, and the dimensions and elements of accepted
types can be told. -/
structure SoundTypes : Prop where
  nonempty : structList ≠ []
  validates : ∀ s ∈ structList, ∀ f ∈ s.fieldList, Validates f
  paired : ∀ sub fields field fmField,
    LooksUp columnMajor ignoreDefaultValues structList (some sub) fields field fmField →
      Compound fmField.fieldType.bytes → (fieldPieces fmField.fieldType.bytes).isSome
  named : ∀ fields field fmField,
    LooksUp columnMajor ignoreDefaultValues structList none fields field fmField →
      field + 1 = fields.length
  orderable : ∀ derived, Prepared columnMajor ignoreDefaultValues structList derived →
    Orderable derived
  alone : ∀ derived, Prepared columnMajor ignoreDefaultValues structList derived → Unfit derived →
    ∀ i, ReflTransGen (Sees derived) 0 i → i = 0
  types : ∀ f, registerFormats columnMajor ignoreDefaultValues structList = some f →
    ∀ b ∈ f.bodies, ∀ (field : Nat) (fmField : FMField), b.fieldList[field]? = some fmField →
      SoundType b.fieldList field fmField.fieldType.bytes

end

section
variable {columnMajor ignoreDefaultValues : Bool} {structList : List FMStructDesc}

theorem typeChain_isSome_iff {fields : List FMField} {field : Nat} {typ : List UInt8} :
    (typeChain fields field typ).isSome ↔ (Compound typ → (fieldPieces typ).isSome) := by
  have hnone : typeChain fields field typ = none ↔ _ := typeChain_eq_none_iff
  rw [Option.isSome_iff_ne_none, Option.isSome_iff_ne_none, Ne, hnone, not_and]

theorem wellFormed_iff_sound {f : FMFormat}
    (h : registerFormats columnMajor ignoreDefaultValues structList = some f) {b : FMFormatBody}
    (hb : b ∈ f.bodies) : (∀ field < b.fieldList.length, WellFormedField b field) ↔
      ∀ (field : Nat) (fmField : FMField), b.fieldList[field]? = some fmField →
        SoundType b.fieldList field fmField.fieldType.bytes := by
  have haccepted := acceptedFields_of_registerFormats h hb
  constructor
  · intro hall field fmField hfield
    obtain ⟨sub, recursive, chain, hentry⟩ := haccepted.field field fmField hfield
    exact (wellFormedField_iff hentry).mp (hall field (List.getElem?_eq_some_iff.mp hfield).1)
  · intro hall field hlt
    have hfield := List.getElem?_eq_getElem hlt
    obtain ⟨sub, recursive, chain, hentry⟩ := haccepted.field field _ hfield
    exact (wellFormedField_iff hentry).mpr (hall field _ hfield)

theorem copyFields_isSome_iff {recordLength : Int32} {fields : List FMField} :
    (copyFields ignoreDefaultValues recordLength fields).isSome ↔ ∀ f ∈ fields, Validates f := by
  induction fields generalizing recordLength with
  | nil => exact iff_of_true rfl (List.forall_mem_nil _)
  | cons f fields ih =>
    rw [List.forall_mem_cons, Validates, copyFields]
    cases hbuffers : fitsBuffers f.fieldType.bytes with
    | false => exact iff_of_false (fun h => by cases h) fun h => by cases h.1.1
    | true =>
      cases hextent : fieldExtent f with
      | none => exact iff_of_false (fun h => by cases h) fun h => by cases h.1.2
      | some extent =>
        refine Iff.trans ?_ (and_iff_right ⟨rfl, rfl⟩).symm
        rw [← @ih (if recordLength < f.fieldOffset + extent.1 then f.fieldOffset + extent.1
          else recordLength)]
        simp only [guard, if_true, Option.bind_eq_bind, Option.pure_def, Option.bind_some]
        cases copyFields ignoreDefaultValues _ fields with
        | none => rfl
        | some copies => rfl

theorem newFormats_isSome_iff :
    (structList.mapM (newFormat columnMajor ignoreDefaultValues)).isSome ↔
      ∀ s ∈ structList, ∀ f ∈ s.fieldList, Validates f := by
  have hone : ∀ s : FMStructDesc, (newFormat columnMajor ignoreDefaultValues s).isSome ↔
      ∀ f ∈ s.fieldList, Validates f := by
    intro s
    rw [← @copyFields_isSome_iff ignoreDefaultValues s.structSize, newFormat,
      validateAndCopyFieldList]
    cases copyFields ignoreDefaultValues s.structSize s.fieldList with
    | none => rfl
    | some copies => rfl
  constructor
  · intro h s hs
    obtain ⟨copied, hcopied⟩ := Option.isSome_iff_exists.mp h
    obtain ⟨f, -, hf⟩ := exists_of_mapM_eq_some hcopied hs
    exact (hone s).mp (Option.isSome_iff_exists.mpr ⟨f, hf⟩)
  · intro h
    obtain ⟨copied, hcopied⟩ := exists_mapM_eq_some fun s hs =>
      Option.isSome_iff_exists.mp ((hone s).mpr (h s hs))
    exact Option.isSome_iff_exists.mpr ⟨copied, hcopied⟩

/-- A format is freed twice unless the first is alone in the order. -/
theorem nodup_freedFormats_iff {derived : List FMFormatBody}
    (hne : derived ≠ []) (hordered : SubformatsOrdered derived) :
    (freedFormats derived.length (topoOrderSubformats derived)).Nodup ↔
      ∀ i, ReflTransGen (Sees derived) 0 i → i = 0 := by
  obtain ⟨below, hbelow⟩ := topoOrderSubformats_eq_cons derived
  have hempty : (∀ i, ReflTransGen (Sees derived) 0 i → i = 0) ↔ below = [] := by
    constructor
    · intro h
      refine List.eq_nil_iff_forall_not_mem.mpr fun i hi => ?_
      have hzero := h i ((hordered.reached i).mp (by rw [hbelow]; exact List.mem_cons_of_mem _ hi))
      have hnodup := hordered.nodup
      rw [hbelow, List.nodup_cons] at hnodup
      exact hnodup.1 (hzero ▸ hi)
    · rintro rfl i hi
      have hmem := (hordered.reached i).mpr hi
      rw [hbelow] at hmem
      exact List.mem_singleton.mp hmem
  rw [hempty, freedFormats, hbelow, List.tail_cons, List.length_cons]
  constructor
  · intro h
    refine List.eq_nil_iff_forall_not_mem.mpr fun i hi => ?_
    exact (List.nodup_append.mp h).2.2 i (List.mem_cons_of_mem _ hi) i
      (List.mem_append_left _ hi) rfl
  · rintro rfl
    obtain ⟨n, hn⟩ := Nat.exists_eq_succ_of_ne_zero (mt List.length_eq_zero_iff.mp hne)
    have hrange : [0] ++ ([] ++ (List.range derived.length).drop 1) =
        List.range derived.length := by
      rw [hn, List.range_succ_eq_map]
      rfl
    exact hrange ▸ List.nodup_range

end

/-! ## Example -/

/-- An array of no elements. -/
def emptyArrayList : List FMStructDesc :=
  [{ formatName := cstr ['s'] (.refl false),
     fieldList :=
       [{ fieldName := cstr ['a'] (.refl false),
          fieldType := cstr ['i', 'n', 't', 'e', 'g', 'e', 'r', '[', '0', ']'] (.refl false),
          fieldSize := 4, fieldOffset := 0 }],
     structSize := 8, optInfo := [] }]

end FFS
