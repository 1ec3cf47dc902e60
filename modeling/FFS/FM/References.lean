import FFS.FM.RegisteredForm

/-!
# References in range

A field refers to a format by its number.  The numbers that derivation and reordering leave are
those of formats of the list.
-/

namespace FFS

open Machine

/-- One format has a field of the other. -/
def Sees (formats : List FMFormatBody) (i j : Nat) : Prop := j ∈ subformatsOf formats i

theorem sees_iff {formats : List FMFormatBody} {i j : Nat} :
    Sees formats i j ↔ ∃ subs, (formats.map (·.fieldSubformats))[i]? = some subs ∧
      some j ∈ subs := by
  rw [Sees, mem_subformatsOf]
  simp

/-- The fields name formats of the list. -/
def InRange (formats : List FMFormatBody) : Prop :=
  ∀ i j, Sees formats i j → j < formats.length

theorem lt_of_lastNamed {formats : List FMFormatBody} {candidates : List Nat} {name : List UInt8}
    {j : Nat} (h : lastNamed formats candidates name = some j) : j < formats.length :=
  named_lt (List.find?_some h)

theorem generateVarList_refs {candidates : List Nat} {l : List FMFormatBody} {self : Nat}
    {f g : FMFormatBody} (h : generateVarList candidates l self f = some g) {j : Nat}
    (hj : some j ∈ g.fieldSubformats) : j < l.length := by
  simp only [generateVarList, Option.bind_eq_bind, Option.bind_eq_some_iff, Option.pure_def,
    Option.some.injEq] at h
  obtain ⟨vars, hvars, rfl⟩ := h
  obtain ⟨v, hv, hsub⟩ := List.mem_map.mp hj
  obtain ⟨⟨fmField, field⟩, -, hgen⟩ := mem_of_mapM_eq_some hvars hv
  obtain ⟨subformat, chain, hfield, -, rfl⟩ := generateVar_eq_some_iff.mp hgen
  simp only at hsub
  rw [hsub] at hfield
  exact named_lt (fieldSubformat_named hfield).2

/-- A pass over all formats leaves numbers in range. -/
theorem inRange_of_pass {gen : List FMFormatBody → Nat → FMFormatBody → Option FMFormatBody}
    (hgen : ∀ {l self f g}, gen l self f = some g → ∀ {j}, some j ∈ g.fieldSubformats →
      j < l.length)
    {formats formats' : List FMFormatBody} {order : List Nat} (hnodup : order.Nodup)
    (hall : ∀ i < formats.length, i ∈ order) (h : pass gen formats order = some formats') :
    InRange formats' := by
  intro i j hsees
  obtain ⟨g, hg, hmem⟩ := mem_subformatsOf.mp hsees
  obtain ⟨hlength, -, hpassed⟩ := pass_spec hnodup h
  have hlt : i < formats.length := hlength ▸ (List.getElem?_eq_some_iff.mp hg).1
  obtain ⟨before, behind, hsplit⟩ := List.append_of_mem (hall i hlt)
  obtain ⟨l, old, new, -, hnew, hmade, hl⟩ := (hpassed before i behind hsplit).made
  cases hg.symm.trans hnew
  have hjl := hgen hmade hmem
  have hsome := List.getElem?_eq_getElem hjl
  rw [hl j] at hsome
  split at hsome
  · exact (List.getElem?_eq_some_iff.mp hsome).1
  · rw [hlength]
    exact (List.getElem?_eq_some_iff.mp hsome).1

theorem lt_of_mem_topoOrder {formats : List FMFormatBody} (h : InRange formats)
    (hpos : 0 < formats.length) {i : Nat} (hi : i ∈ topoOrderSubformats formats) :
    i < formats.length := by
  have hsucc : ∀ i j, j ∈ formatSuccs formats i → Sees formats i j := by
    intro i j hj
    unfold formatSuccs at hj
    unfold Sees subformatsOf
    cases hf : formats[i]? with
    | none =>
      rw [hf] at hj
      cases hj
    | some f =>
      rw [hf] at hj
      exact (List.mem_insertionSort _).mp hj
  have hordered : PostOrdered (formatSuccs formats) 0
      (postOrder (formatSuccs formats) (formats.length + 1) 0) :=
    postOrdered_postOrder (fun i _ j hj => Finset.mem_range.mpr (h i j (hsucc i j hj)))
      (Finset.mem_range.mpr hpos) (by simp)
  rcases hordered.origin i (List.mem_reverse.mp hi) with rfl | ⟨j, -, -, hj⟩
  · exact hpos
  · exact h j i (hsucc j i hj)

/-- The new numbers are places in the order. -/
theorem inRange_reorder {formats : List FMFormatBody} {order : List Nat}
    (horder : ∀ i ∈ order, i < formats.length) : InRange (reorder formats order) := by
  intro i j hsees
  obtain ⟨g, hg, hmem⟩ := mem_subformatsOf.mp hsees
  rw [reorder_getElem? horder] at hg
  obtain ⟨k, -, hk⟩ := Option.bind_eq_some_iff.mp hg
  obtain ⟨f, -, rfl⟩ := Option.map_eq_some_iff.mp hk
  obtain ⟨sub, -, hsub⟩ := List.mem_map.mp hmem
  obtain ⟨k', -, hidx⟩ := Option.bind_eq_some_iff.mp hsub
  rw [length_reorder horder]
  have hk' : k' ∈ order := List.isSome_idxOf?.mp (by rw [hidx]; rfl)
  rw [idxOf?_of_mem hk', Option.some.injEq] at hidx
  rw [← hidx]
  exact List.idxOf_lt_length_of_mem hk'

theorem InRange.congr {formats formats' : List FMFormatBody} (h : InRange formats)
    (hsame : formats'.map FMFormatBody.unflagged = formats.map FMFormatBody.unflagged) :
    InRange formats' := by
  intro i j hsees
  unfold Sees at hsees
  rw [subformatsOf_congr hsame] at hsees
  have hlength := congrArg List.length hsame
  rw [List.length_map, List.length_map] at hlength
  rw [hlength]
  exact h i j hsees

end FFS
