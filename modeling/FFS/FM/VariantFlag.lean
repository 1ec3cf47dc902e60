import FFS.FM.AcceptedFields
import FFS.FM.Pieces
import FFS.FM.SubformatOrder

/-!
# The variant flag

A record is copied as it lies in memory if the variant flag of its format is not set.  After
registration the flag is set on the formats that lead to a field whose base type is a string, or
which has a pointer or a dimension with a control field.  The type of a field's elements, though,
is what stands in its innermost parentheses.
-/

namespace FFS

open Machine Relation

/-- The record has an address for the field. -/
def FMVarInfo.HasAddress (var : FMVarInfo) : Prop :=
  var.varArray = true ∨ ∃ desc ∈ var.typeDesc, desc.type = .pointer ∨ desc.type = .string

/-- A format has a field with an address. -/
def AddressAt (formats : List FMFormatBody) (i : Nat) : Prop :=
  ∃ b ∈ formats[i]?, ∃ var ∈ b.varList, var.HasAddress

/-- The flag of each format tells whether an address can be reached from it. -/
def FlagsAddresses (f : FMFormat) : Prop :=
  ∀ (i : Nat) (b : FMFormatBody), f.bodies[i]? = some b →
    (b.variant = true ↔ Leads (AddressAt f.bodies) (Sees f.bodies) i)

/-- The text before the brackets names a simple type and the last piece is a string. -/
def StrayString (typ : List UInt8) : Prop :=
  Compound typ ∧ (arrayStrToDataType typ).1 ≠ .unknownType ∧
    (arrayStrToDataType typ).1 ≠ .stringType ∧ ∃ pieces piece, fieldPieces typ = some pieces ∧
      pieces.getLast? = some piece ∧ (arrayStrToDataType piece).1 ≠ .unknownType ∧
        isStringName (skipPointers piece).2 = true

/-- A format has a field that sets its flag. -/
def VariesAt (formats : List FMFormatBody) (i : Nat) : Prop :=
  ∃ b ∈ formats[i]?, ∃ (field : Nat) (fmField : FMField), b.fieldList[field]? = some fmField ∧
    fieldVaries b.fieldList fmField field = true

def StrayAt (formats : List FMFormatBody) (i : Nat) : Prop :=
  ∃ b ∈ formats[i]?, ∃ fmField ∈ b.fieldList, StrayString fmField.fieldType.bytes

/-! ## One field -/

section
variable {formats : List FMFormatBody} {b : FMFormatBody} {field : Nat} {fmField : FMField}
  {sub : Option Nat} {recursive : Bool} {chain : List FMTypeDesc}

/-- What is before the last link of a chain, and what the last link is when the chain is closed. -/
theorem closed_chain (h : AcceptedField formats b field fmField sub recursive chain) :
    ∃ links last links' last', chain = links ++ [last] ∧ last.type ≠ .pointer ∧
      (varInfo b.fieldList field fmField.fieldType.bytes (sub.map fun _ => recursive)
        chain).typeDesc = links' ++ [last'] ∧
      links'.map (·.type) = links.map (·.type) ∧
      (∀ desc ∈ links', desc.type = .pointer ∨ desc.type = .array) ∧
      ((arrayStrToDataType fmField.fieldType.bytes).1 = .stringType ∧ last'.type = .string ∨
        (arrayStrToDataType fmField.fieldType.bytes).1 ≠ .stringType ∧ sub.isSome ∧
          last'.type = .subformat ∨
        (arrayStrToDataType fmField.fieldType.bytes).1 ≠ .stringType ∧ sub = none ∧
          last' = last) := by
  obtain ⟨links, last, hchain, hlast, hlinks⟩ : ∃ links last, chain = links ++ [last] ∧
      last.type ≠ .pointer ∧ ∀ desc ∈ links, desc.type = .pointer ∨ desc.type = .array := by
    by_cases hcompound : Compound fmField.fieldType.bytes
    · obtain ⟨pieces, -, hdescribes⟩ := describes_of_typeChain hcompound h.chain_eq
      obtain ⟨links, piece, -, hchain, hlinks⟩ := hdescribes.element
      refine ⟨links, _, hchain, fun hpointer => ?_, hlinks⟩
      rcases pieceElement_type field piece with ⟨htype, -⟩ | ⟨htype | htype, -⟩
      · rw [htype] at hpointer
        cases hpointer
      · rw [htype] at hpointer
        cases hpointer
      · rw [htype] at hpointer
        cases hpointer
    · have hchain := h.chain_eq
      rw [typeChain_of_not_compound hcompound, Option.some.injEq] at hchain
      exact ⟨[], _, hchain.symm, (fun hpointer => by cases hpointer), fun _ hdesc => nomatch hdesc⟩
  subst hchain
  obtain ⟨links', hclose, hlinks', -, htypes⟩ := @closeTypeDesc_links field
    (arrayStrToDataType fmField.fieldType.bytes).1 (sub.map fun _ => recursive) links last hlinks
  obtain ⟨last', hsingle, hcases⟩ := @closeTypeDesc_singleton field
    (arrayStrToDataType fmField.fieldType.bytes).1 (sub.map fun _ => recursive) last
  rw [hsingle] at hclose
  refine ⟨links, last, links', last', rfl, hlast, hclose, htypes, hlinks', ?_⟩
  rw [Option.isSome_map, Option.map_eq_none_iff] at hcases
  exact hcases

theorem exists_pointer_iff {links links' : List FMTypeDesc}
    (h : links'.map (·.type) = links.map (·.type)) :
    (∃ desc ∈ links', desc.type = .pointer) ↔ links.any (·.type = .pointer) = true := by
  have hmem : (∃ desc ∈ links', desc.type = .pointer) ↔
      FMTypeEnum.pointer ∈ links'.map (·.type) := by simp
  rw [hmem, h, List.any_eq_true]
  simp

/-- A chain whose base type is simple ends in a string just if its last piece is one. -/
theorem last_string_iff (h : AcceptedField formats b field fmField sub recursive chain)
    (hknown : (arrayStrToDataType fmField.fieldType.bytes).1 ≠ .unknownType)
    (hstring : (arrayStrToDataType fmField.fieldType.bytes).1 ≠ .stringType)
    {links : List FMTypeDesc} {last : FMTypeDesc} (hchain : chain = links ++ [last]) :
    last.type = .string ↔ StrayString fmField.fieldType.bytes := by
  by_cases hcompound : Compound fmField.fieldType.bytes
  · obtain ⟨pieces, hpieces, hdescribes⟩ := describes_of_typeChain hcompound h.chain_eq
    obtain ⟨links', piece, hpiece, hchain', -⟩ := hdescribes.element
    obtain ⟨-, hlasts⟩ := List.append_inj' (hchain.symm.trans hchain') rfl
    have hlast := List.singleton_inj.mp hlasts
    have helement : (pieceElement field piece).type = .string ↔
        (arrayStrToDataType piece).1 ≠ .unknownType ∧
          isStringName (skipPointers piece).2 = true := by
      by_cases hunknown : (arrayStrToDataType piece).1 = .unknownType
      · simp [pieceElement, FMTypeDesc.new, hunknown]
      · by_cases hname : isStringName (skipPointers piece).2 = true
        · simp [pieceElement, FMTypeDesc.new, hunknown, hname]
        · simp [pieceElement, FMTypeDesc.new, hunknown, hname]
    rw [hlast, helement]
    constructor
    · exact fun hboth => ⟨hcompound, hknown, hstring, pieces, piece, hpieces, hpiece, hboth⟩
    · rintro ⟨-, -, -, pieces', piece', hpieces', hpiece', hboth⟩
      rw [hpieces, Option.some.injEq] at hpieces'
      subst hpieces'
      rw [hpiece, Option.some.injEq] at hpiece'
      exact hpiece' ▸ hboth
  · have hchain' := h.chain_eq
    rw [typeChain_of_not_compound hcompound, Option.some.injEq, hchain] at hchain'
    obtain ⟨-, hlasts⟩ := @List.append_inj' _ [] _ _ _ hchain' rfl
    have hlast := List.singleton_inj.mp hlasts
    refine iff_of_false (fun heq => by rw [← hlast] at heq; cases heq) ?_
    rintro ⟨hcompound', -⟩
    exact hcompound hcompound'

theorem hasAddress_iff (h : AcceptedField formats b field fmField sub recursive chain) :
    (varInfo b.fieldList field fmField.fieldType.bytes (sub.map fun _ => recursive)
      chain).HasAddress ↔
      fieldVaries b.fieldList fmField field = true ∨ StrayString fmField.fieldType.bytes := by
  obtain ⟨links, last, links', last', hchain, hpointer', htypeDesc, htypes, hlinks', hlast⟩ :=
    closed_chain h
  have hpointer := exists_pointer_iff htypes
  have hvaries : fieldVaries b.fieldList fmField field = true ↔
      (arrayStrToDataType fmField.fieldType.bytes).1 = .stringType ∨
        (genDimens b.fieldList field fmField.fieldType.bytes).any (·.controlFieldIndex ≠ -1) =
          true ∨ ∃ desc ∈ links', desc.type = .pointer := by
    rw [hpointer, fieldVaries, h.chain_eq, hchain, Option.any_some, List.dropLast_concat,
      Bool.or_eq_true, Bool.or_eq_true, decide_eq_true_eq]
  have hdescs : (∃ desc ∈ links' ++ [last'], desc.type = .pointer ∨ desc.type = .string) ↔
      (∃ desc ∈ links', desc.type = .pointer) ∨ last'.type = .pointer ∨ last'.type = .string := by
    constructor
    · rintro ⟨desc, hmem, htype⟩
      rcases List.mem_append.mp hmem with hmem | hmem
      · rcases hlinks' desc hmem with hp | ha
        · exact .inl ⟨desc, hmem, hp⟩
        · rw [ha] at htype
          rcases htype with htype | htype <;> cases htype
      · rw [List.mem_singleton.mp hmem] at htype
        exact .inr htype
    · rintro (⟨desc, hmem, htype⟩ | htype)
      · exact ⟨desc, List.mem_append_left _ hmem, .inl htype⟩
      · exact ⟨last', List.mem_append_right _ (List.mem_singleton_self _), htype⟩
  have hend : last'.type = .pointer ∨ last'.type = .string ↔
      (arrayStrToDataType fmField.fieldType.bytes).1 = .stringType ∨
        StrayString fmField.fieldType.bytes := by
    rcases hlast with ⟨hstring, htype⟩ | ⟨hstring, hsub, htype⟩ | ⟨hstring, hsub, rfl⟩
    · simp [hstring, htype]
    · have hunknown := h.unknown.mp hsub
      simp [htype, hunknown, StrayString]
    · have hknown : (arrayStrToDataType fmField.fieldType.bytes).1 ≠ .unknownType := by
        rw [Ne, ← h.unknown, hsub]
        simp
      rw [last_string_iff h hknown hstring hchain]
      simp [hpointer', hstring]
  rw [FMVarInfo.HasAddress, htypeDesc, hdescs, hend, hvaries]
  have harray : (varInfo b.fieldList field fmField.fieldType.bytes (sub.map fun _ => recursive)
      chain).varArray =
        (genDimens b.fieldList field fmField.fieldType.bytes).any (·.controlFieldIndex ≠ -1) := rfl
  rw [harray]
  constructor
  · rintro (hdimen | hlink | hstring | hstray)
    · exact .inl (.inr (.inl hdimen))
    · exact .inl (.inr (.inr hlink))
    · exact .inl (.inl hstring)
    · exact .inr hstray
  · rintro ((hstring | hdimen | hlink) | hstray)
    · exact .inr (.inr (.inl hstring))
    · exact .inl hdimen
    · exact .inr (.inl hlink)
    · exact .inr (.inr (.inr hstray))

end

/-! ## The formats of a registration -/

section
variable {columnMajor ignoreDefaultValues : Bool} {structList : List FMStructDesc} {f : FMFormat}
  {copied derived aligned : List FMFormatBody}

theorem Registration.structList_ne_nil
    (h : Registration columnMajor ignoreDefaultValues structList f copied derived aligned) :
    structList ≠ [] := by
  rintro rfl
  have hcopied := h.copied_eq
  cases hcopied
  have hpos := h.pos
  cases hpos

/-- No format lies in itself. -/
theorem Registration.not_byValue_self
    (h : Registration columnMajor ignoreDefaultValues structList f copied derived aligned)
    (k : Nat) : ¬ ByValue f.bodies k k := by
  rintro ⟨b, hb, hk⟩
  have hprepared : Prepared columnMajor ignoreDefaultValues structList derived :=
    ⟨copied, h.copied_eq, h.derived_eq⟩
  have hclosed := hprepared.closedOrder h.structList_ne_nil
  have hbubbled := congrArg (·[k]?) h.bubbled.1
  have hunaligned := congrArg (·[k]?) h.unaligned
  rw [h.topoOrderSubformats_eq] at hclosed
  simp only [List.getElem?_map, Option.mem_def.mp hb, Option.map_some] at hbubbled hunaligned
  obtain ⟨a, ha, hab⟩ := Option.map_eq_some_iff.mp hbubbled.symm
  rw [ha, Option.map_some] at hunaligned
  obtain ⟨g, hg, hga⟩ := Option.map_eq_some_iff.mp hunaligned.symm
  have hvarsa := congrArg FMFormatBody.varList hga
  have hvarsb := congrArg FMFormatBody.varList hab
  have hsubsa := congrArg FMFormatBody.fieldSubformats hga
  have hsubsb := congrArg FMFormatBody.fieldSubformats hab
  simp only [FMFormatBody.unaligned, FMFormatBody.unflagged] at hvarsa hvarsb hsubsa hsubsb
  have hself : ByValue (reorder derived (sendOrder copied)) k k :=
    ⟨g, hg, by
      rw [byValue_congr (hvarsa.trans hvarsb) (hsubsa.trans hsubsb)]
      exact hk⟩
  have haligned := h.aligned_eq
  rw [h.topoOrderSubformats_eq] at haligned
  have hlt := (List.getElem?_eq_some_iff.mp hg).1
  have hkk := byValue_lt_of_foldlM (hclosed.complete hprepared.complete) rfl
    (fun i _ => hclosed.fresh hprepared.alignment) haligned hlt hself
  omega

/-- A format that refers to itself does so by a pointer. -/
theorem Registration.variesAt_of_self
    (h : Registration columnMajor ignoreDefaultValues structList f copied derived aligned)
    {k : Nat} (hself : Sees f.bodies k k) : VariesAt f.bodies k := by
  obtain ⟨b, hb, hmem⟩ := mem_subformatsOf.mp hself
  obtain ⟨field, hsub⟩ := List.mem_iff_getElem?.mp hmem
  have haccepted := h.acceptedFields (List.mem_of_getElem? hb)
  have hlt : field < b.fieldList.length := by
    rw [← haccepted.length_fieldSubformats]
    exact (List.getElem?_eq_some_iff.mp hsub).1
  have hfield := List.getElem?_eq_getElem hlt
  obtain ⟨sub, recursive, chain, hentry⟩ := haccepted.field field _ hfield
  rw [hentry.fieldSubformats, Option.some.injEq] at hsub
  subst hsub
  refine ⟨b, hb, field, _, hfield, ?_⟩
  have hunknown := hentry.unknown.mp rfl
  have hnotStray : ¬ StrayString b.fieldList[field].fieldType.bytes := fun hstray =>
    hstray.2.1 hunknown
  refine ((hasAddress_iff hentry).mp ?_).resolve_right hnotStray
  obtain ⟨links, last, links', last', -, -, htypeDesc, -, hlinks', hlast⟩ := closed_chain hentry
  have hsubformat : last'.type = .subformat := by
    rcases hlast with ⟨hstring, -⟩ | ⟨-, -, htype⟩ | ⟨-, hnone, -⟩
    · rw [hunknown] at hstring
      cases hstring
    · exact htype
    · cases hnone
  -- Without a pointer the format would lie in itself.
  by_contra hnone
  have harrays : ∀ desc ∈ links', desc.type = .array := by
    intro desc hdesc
    refine (hlinks' desc hdesc).resolve_left fun hpointer => hnone (.inr ⟨desc, ?_, .inl hpointer⟩)
    rw [htypeDesc]
    exact List.mem_append_left _ hdesc
  refine h.not_byValue_self k ⟨b, hb, mem_byValue.mpr ⟨field, _, hentry.varList, ?_,
    hentry.fieldSubformats⟩⟩
  rw [elementType, htypeDesc, List.dropWhile_append_of_pos (by simpa using harrays)]
  simp [hsubformat]

theorem Registration.sees_iff_refers
    (h : Registration columnMajor ignoreDefaultValues structList f copied derived aligned)
    {i l : Nat} (hi : i ∈ sendOrder copied) :
    Sees f.bodies ((sendOrder copied).idxOf i) l ↔ ∃ j, j ∈ sendOrder copied ∧
      (sendOrder copied).idxOf j = l ∧ Refers copied (allOf copied) i j := by
  rw [Sees, subformatsOf_congr h.bubbled.1, h.subformatsOf]
  constructor
  · rintro ⟨i', hi', heq, hrefers⟩
    rwa [(List.idxOf_inj hi').mp heq] at hrefers
  · exact fun hrefers => ⟨i, hi, rfl, hrefers⟩

theorem Registration.variesAt_iff_ownVariant
    (h : Registration columnMajor ignoreDefaultValues structList f copied derived aligned)
    {i : Nat} (hi : i ∈ sendOrder copied) :
    VariesAt f.bodies ((sendOrder copied).idxOf i) ↔ OwnVariant copied (allOf copied) i := by
  obtain ⟨d, g, hd, hg, heq⟩ := h.body hi
  obtain ⟨base, hbase, -, hbaseList⟩ := h.derivation.exists_base hd
  have hlist : g.fieldList = base.fieldList := by
    have hfields := congrArg FMFormatBody.fieldList heq
    simp only [FMFormatBody.unflagged, FMFormatBody.unaligned, FMFormatBody.renumbered] at hfields
    rw [hfields, hbaseList]
  constructor
  · rintro ⟨b, hb, field, fmField, hfield, hvaries⟩
    rw [Option.mem_def, hg, Option.some.injEq] at hb
    subst hb
    rw [hlist] at hfield hvaries
    exact .inl ⟨base, hbase, (fmField, field), List.mk_mem_zipIdx_iff_getElem?.mpr hfield, hvaries⟩
  · rintro (⟨base', hbase', ⟨fmField, field⟩, hfield, hvaries⟩ | hself)
    · rw [Option.mem_def, hbase, Option.some.injEq] at hbase'
      subst hbase'
      refine ⟨g, hg, field, fmField, ?_, ?_⟩
      · rw [hlist]
        exact List.mk_mem_zipIdx_iff_getElem?.mp hfield
      · rw [hlist]
        exact hvaries
    · exact h.variesAt_of_self ((h.sees_iff_refers hi).mpr ⟨i, hi, rfl, hself⟩)

/-- A flag is set just on the formats that lead to a field that sets it. -/
theorem Registration.variantAt_iff
    (h : Registration columnMajor ignoreDefaultValues structList f copied derived aligned)
    {k : Nat} (hk : k < f.bodies.length) :
    variantAt f.bodies k ↔ Leads (VariesAt f.bodies) (Sees f.bodies) k := by
  have hlt : k < (sendOrder copied).length := h.length_bodies ▸ hk
  have hmem := List.getElem_mem hlt
  have hiff := h.bubbled.2 _ hmem
  have hrename := leads_rename (· ∈ sendOrder copied) (sendOrder copied).idxOf
    (fun i hi => h.variesAt_iff_ownVariant hi) (fun i l hi => h.sees_iff_refers hi)
    (fun i j hi hij => h.sent.closed i hi j hij) hmem
  rw [h.sent.nodup.idxOf_getElem k hlt] at hiff hrename
  exact hiff.trans hrename.symm

end

section
variable {columnMajor ignoreDefaultValues : Bool} {structList : List FMStructDesc} {f : FMFormat}

theorem addressAt_iff
    (h : registerFormats columnMajor ignoreDefaultValues structList = some f) {k : Nat} :
    AddressAt f.bodies k ↔ VariesAt f.bodies k ∨ StrayAt f.bodies k := by
  constructor
  · rintro ⟨b, hb, var, hvar, haddress⟩
    have haccepted := acceptedFields_of_registerFormats h (List.mem_of_getElem? hb)
    obtain ⟨field, hvar⟩ := List.mem_iff_getElem?.mp hvar
    have hlt : field < b.fieldList.length := by
      rw [← haccepted.length_varList]
      exact (List.getElem?_eq_some_iff.mp hvar).1
    have hfield := List.getElem?_eq_getElem hlt
    obtain ⟨sub, recursive, chain, hentry⟩ := haccepted.field field _ hfield
    rw [hentry.varList, Option.some.injEq] at hvar
    subst hvar
    exact ((hasAddress_iff hentry).mp haddress).imp
      (fun hvaries => ⟨b, hb, field, _, hfield, hvaries⟩)
      fun hstray => ⟨b, hb, _, List.getElem_mem hlt, hstray⟩
  · have hreason : ∀ b ∈ f.bodies[k]?, ∀ (field : Nat) (fmField : FMField),
        b.fieldList[field]? = some fmField → (fieldVaries b.fieldList fmField field = true ∨
          StrayString fmField.fieldType.bytes) → AddressAt f.bodies k := by
      intro b hb field fmField hfield hreason
      have haccepted := acceptedFields_of_registerFormats h (List.mem_of_getElem? hb)
      obtain ⟨sub, recursive, chain, hentry⟩ := haccepted.field field _ hfield
      exact ⟨b, hb, _, List.mem_of_getElem? hentry.varList, (hasAddress_iff hentry).mpr hreason⟩
    rintro (⟨b, hb, field, fmField, hfield, hvaries⟩ | ⟨b, hb, fmField, hmem, hstray⟩)
    · exact hreason b hb field fmField hfield (.inl hvaries)
    · obtain ⟨field, hfield⟩ := List.mem_iff_getElem?.mp hmem
      exact hreason b hb field fmField hfield (.inr hstray)

/-- The flags tell of the addresses just if each format with a stray string leads to a field that
sets its flag. -/
theorem flagsAddresses_iff
    (h : registerFormats columnMajor ignoreDefaultValues structList = some f) :
    FlagsAddresses f ↔ ∀ k, StrayAt f.bodies k → Leads (VariesAt f.bodies) (Sees f.bodies) k := by
  obtain ⟨copied, derived, aligned, hregistered⟩ := registration_of_some h
  constructor
  · intro hflags k hstray
    have haddress := (addressAt_iff h).mpr (.inr hstray)
    obtain ⟨b, hb, -⟩ := hstray
    have hvariant := (hflags k b hb).mpr ⟨k, .refl, haddress⟩
    exact (hregistered.variantAt_iff (List.getElem?_eq_some_iff.mp hb).1).mp
      ((variantAt_of_some hb).mpr hvariant)
  · intro hstrays k b hb
    rw [← variantAt_of_some hb, hregistered.variantAt_iff (List.getElem?_eq_some_iff.mp hb).1]
    constructor
    · rintro ⟨j, hkj, hvaries⟩
      exact ⟨j, hkj, (addressAt_iff h).mpr (.inl hvaries)⟩
    · rintro ⟨j, hkj, haddress⟩
      rcases (addressAt_iff h).mp haddress with hvaries | hstray
      · exact ⟨j, hkj, hvaries⟩
      · obtain ⟨i, hji, hvaries⟩ := hstrays j hstray
        exact ⟨i, hkj.trans hji, hvaries⟩

theorem flagsAddresses_iff_path : FlagsAddresses pathFormat := by
  refine (flagsAddresses_iff registerFormats_pathList).mpr ?_
  rintro k ⟨b, hb, fmField, hmem, hcompound, hknown, -⟩
  have hplain : ∀ b ∈ pathFormat.bodies, ∀ fmField ∈ b.fieldList,
      (chr '*' ∈ fmField.fieldType.bytes ∨ chr '[' ∈ fmField.fieldType.bytes) →
        (arrayStrToDataType fmField.fieldType.bytes).1 = .unknownType := by decide
  exact absurd (hplain b (List.mem_of_getElem? hb) fmField hmem hcompound) hknown

end

/-! ## Example -/

/-- An array of two strings by its innermost parentheses, and of integers by its name. -/
def strayList : List FMStructDesc :=
  [{ formatName := cstr ['s'] (.refl false),
     fieldList :=
       [{ fieldName := cstr ['a'] (.refl false),
          fieldType := cstr ['i', 'n', 't', 'e', 'g', 'e', 'r', '[', '2', ']',
            '(', 's', 't', 'r', 'i', 'n', 'g', ')'] (.refl false),
          fieldSize := 8, fieldOffset := 0 }],
     structSize := 16, optInfo := [] }]

/-- The list is accepted, its flag is not set, and its field is an array of strings. -/
theorem strayList_not_flagsAddresses :
    ∃ f, registerFormats false false strayList = some f ∧ ¬ FlagsAddresses f := by
  have hsome : (registerFormats false false strayList).any (fun f => f.top.variant = false ∧
      f.top.varList.any (fun var => var.typeDesc.any (·.type = .string)) = true) = true := by
    decide
  obtain ⟨f, hf, hfacts⟩ := (Option.any_eq_true _ _).mp hsome
  obtain ⟨hflag, hstring⟩ := of_decide_eq_true hfacts
  refine ⟨f, hf, fun h => ?_⟩
  obtain ⟨var, hvar, hdesc⟩ := List.any_eq_true.mp hstring
  obtain ⟨desc, hdesc, htype⟩ := List.any_eq_true.mp hdesc
  have haddress : AddressAt f.bodies 0 :=
    ⟨f.top, rfl, var, hvar, .inr ⟨desc, hdesc, .inr (of_decide_eq_true htype)⟩⟩
  have hvariant := (h 0 f.top rfl).mpr ⟨0, .refl, haddress⟩
  rw [hflag] at hvariant
  cases hvariant

end FFS
