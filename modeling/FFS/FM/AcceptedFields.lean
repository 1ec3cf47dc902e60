import FFS.FM.RegisteredForm

/-!
# The fields of an accepted format

Whatever the order of the formats and the flags, what a registered format has for a field is
what `gen_var_dimens` makes of the field's type, and a subformat just where the type is unknown.
-/

namespace FFS

open Machine

/-- What a format of a list has for its field numbered `field`, `chain` being the chain of type
descriptors before its last link is closed. -/
structure AcceptedField (formats : List FMFormatBody) (b : FMFormatBody) (field : Nat)
    (fmField : FMField) (sub : Option Nat) (recursive : Bool) (chain : List FMTypeDesc) :
    Prop where
  chain_eq : typeChain b.fieldList field fmField.fieldType.bytes = some chain
  varList : b.varList[field]? =
    some (varInfo b.fieldList field fmField.fieldType.bytes (sub.map fun _ => recursive) chain)
  fieldSubformats : b.fieldSubformats[field]? = some sub
  unknown : sub.isSome ↔ (arrayStrToDataType fmField.fieldType.bytes).1 = .unknownType
  lt : ∀ i ∈ sub, i < formats.length

/-- Every field of a format has its entries. -/
structure AcceptedFields (formats : List FMFormatBody) (b : FMFormatBody) : Prop where
  length_varList : b.varList.length = b.fieldList.length
  length_fieldSubformats : b.fieldSubformats.length = b.fieldList.length
  field : ∀ (field : Nat) (fmField : FMField), b.fieldList[field]? = some fmField →
    ∃ sub recursive chain, AcceptedField formats b field fmField sub recursive chain

section
variable {columnMajor ignoreDefaultValues : Bool} {structList : List FMStructDesc} {f : FMFormat}
  {copied derived aligned : List FMFormatBody}

/-- A type is unknown just where the search for its subformat is made. -/
theorem fieldSubformat_isSome {formats : List FMFormatBody} {candidates : List Nat} {self : Nat}
    {typ : List UInt8} {sub : Option Nat}
    (h : fieldSubformat formats candidates self typ = some sub) :
    sub.isSome ↔ (arrayStrToDataType typ).1 = .unknownType := by
  rw [fieldSubformat] at h
  split at h
  · next hunknown =>
    obtain ⟨i, -, rfl⟩ := Option.map_eq_some_iff.mp h
    simp [hunknown]
  · next hknown =>
    cases h
    simp [hknown]

theorem Registration.acceptedFields
    (h : Registration columnMajor ignoreDefaultValues structList f copied derived aligned)
    {b : FMFormatBody} (hb : b ∈ f.bodies) : AcceptedFields f.bodies b := by
  obtain ⟨k, hk⟩ := List.mem_iff_getElem?.mp hb
  have hklt : k < (sendOrder copied).length := by
    rw [← h.length_bodies]
    exact (List.getElem?_eq_some_iff.mp hk).1
  have hi := List.getElem_mem hklt
  obtain ⟨d, g, hd, hg, heq⟩ := h.body hi
  rw [h.sent.nodup.idxOf_getElem k hklt, hk] at hg
  cases hg
  obtain ⟨base, hbase, -, hfields⟩ := h.derivation.exists_base hd
  have hvars := congrArg FMFormatBody.varList heq
  have hlist := congrArg FMFormatBody.fieldList heq
  have hsubs := congrArg FMFormatBody.fieldSubformats heq
  simp only [FMFormatBody.unflagged, FMFormatBody.unaligned, FMFormatBody.renumbered]
    at hvars hlist hsubs
  rw [← hfields] at hlist
  have hreferences := h.derivation.fieldSubformats hd
  have hlength : d.fieldSubformats.length = b.fieldList.length := by
    rw [hreferences, fieldReferences, hbase, hlist]
    simp
  refine ⟨?_, ?_, fun field fmField hfield => ?_⟩
  · rw [hvars, hlist]
    exact h.derivation.length_varList hbase hd
  · rw [hsubs, List.length_map, hlength]
  · rw [hlist] at hfield
    obtain ⟨sub, chain, recursive, hsub, hchain, hvar, -⟩ :=
      h.derivation.field hbase hd hfield
    have hsubd : d.fieldSubformats[field]? = some sub := by
      rw [hreferences, fieldReferences, hbase]
      simp only [List.getElem?_map, hfield, Option.map_some, hsub, Option.join_some]
    -- The number that a reference gets is its place in the order.
    have hrenumbered : ∃ sub', sub' = sub.bind ((sendOrder copied).idxOf? ·) ∧
        sub'.isSome = sub.isSome ∧ ∀ j ∈ sub', j < f.bodies.length := by
      refine ⟨_, rfl, ?_⟩
      cases sub with
      | none => exact ⟨rfl, fun j hj => by cases hj⟩
      | some j =>
        have hmem := h.sent.closed _ hi j
          ⟨base, hbase, fmField, List.mem_of_getElem? hfield, hsub⟩
        rw [Option.bind_some, idxOf?_of_mem hmem]
        refine ⟨rfl, fun j' hj' => ?_⟩
        cases hj'
        rw [h.length_bodies]
        exact List.idxOf_lt_length_of_mem hmem
    obtain ⟨sub', rfl, hsome, hlt⟩ := hrenumbered
    have hmap : (sub.bind ((sendOrder copied).idxOf? ·)).map (fun _ => recursive) =
        sub.map fun _ => recursive := by
      cases sub with
      | none => rfl
      | some j =>
        obtain ⟨j', hj'⟩ := Option.isSome_iff_exists.mp (hsome.trans rfl)
        rw [hj']
        rfl
    refine ⟨sub.bind ((sendOrder copied).idxOf? ·), recursive, chain, ?_, ?_, ?_, ?_, hlt⟩
    · rw [hlist]
      exact hchain
    · rw [hvars, hlist, hmap]
      exact hvar
    · rw [hsubs, List.getElem?_map, hsubd]
      rfl
    · rw [hsome]
      exact fieldSubformat_isSome hsub

theorem acceptedFields_of_registerFormats
    (h : registerFormats columnMajor ignoreDefaultValues structList = some f) {b : FMFormatBody}
    (hb : b ∈ f.bodies) : AcceptedFields f.bodies b := by
  obtain ⟨copied, derived, aligned, hregistered⟩ := registration_of_some h
  exact hregistered.acceptedFields hb

end

end FFS
