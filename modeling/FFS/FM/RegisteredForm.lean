import FFS.FM.SentOrder

/-!
# What a registered format is

The stages behind the derivation put the formats in the order they are sent, set
alignments and let variant flags bubble up.  `Registration.body` and
`Registration.variant_iff` say what a format has in the end, in terms of the copied formats.
-/

namespace FFS

open Machine

/-! ## New numbers -/

/-- A format with its references renumbered. -/
def FMFormatBody.renumbered (order : List Nat) (f : FMFormatBody) : FMFormatBody :=
  { f with fieldSubformats := f.fieldSubformats.map fun sub => sub.bind (order.idxOf? ·) }

theorem getElem?_filterMap_of_isSome {α β : Type} {g : α → Option β} {l : List α}
    (h : ∀ a ∈ l, (g a).isSome) (k : Nat) : (l.filterMap g)[k]? = l[k]?.bind g := by
  induction l generalizing k with
  | nil => rfl
  | cons a l ih =>
    obtain ⟨b, hb⟩ := Option.isSome_iff_exists.mp (h a List.mem_cons_self)
    rw [List.filterMap_cons_some hb]
    cases k with
    | zero => exact hb.symm
    | succ k =>
      rw [List.getElem?_cons_succ, List.getElem?_cons_succ]
      exact ih (fun a ha => h a (List.mem_cons_of_mem _ ha)) k

theorem reorder_getElem? {formats : List FMFormatBody} {order : List Nat}
    (horder : ∀ i ∈ order, i < formats.length) (k : Nat) : (reorder formats order)[k]? =
      order[k]?.bind fun i => formats[i]?.map (FMFormatBody.renumbered order) := by
  refine getElem?_filterMap_of_isSome (fun i hi => ?_) k
  rw [Option.isSome_map, List.getElem?_eq_getElem (horder i hi)]
  rfl

theorem length_reorder {formats : List FMFormatBody} {order : List Nat}
    (horder : ∀ i ∈ order, i < formats.length) : (reorder formats order).length = order.length := by
  have hsome : ∀ i ∈ order, (formats[i]?.map (FMFormatBody.renumbered order)).isSome := by
    intro i hi
    rw [Option.isSome_map, List.getElem?_eq_getElem (horder i hi)]
    rfl
  exact List.filterMap_length_eq_length.mpr hsome

theorem idxOf?_of_mem {order : List Nat} {i : Nat} (hi : i ∈ order) :
    order.idxOf? i = some (order.idxOf i) := by
  obtain ⟨k, hk⟩ := Option.isSome_iff_exists.mp (List.isSome_idxOf?.mpr hi)
  rw [List.idxOf_eq_getD_idxOf?, hk, Option.getD_some]

/-! ## Alignment -/

/-- A format but for its alignment. -/
def FMFormatBody.unaligned (f : FMFormatBody) : FMFormatBody := { f with alignment := 0 }

theorem setAlignment_unaligned {formats formats' : List FMFormatBody} {i : Nat}
    (hs : setAlignment formats i = some formats') :
    formats'.map FMFormatBody.unaligned = formats.map FMFormatBody.unaligned := by
  simp only [setAlignment, Option.bind_eq_bind, Option.bind_eq_some_iff] at hs
  obtain ⟨f, hf, hs⟩ := hs
  split at hs
  · simp only [Option.pure_def, Option.some.injEq] at hs
    rw [hs]
  · simp only [Option.bind_eq_some_iff, Option.pure_def, Option.some.injEq] at hs
    obtain ⟨alignments, -, rfl⟩ := hs
    exact map_set_of_eq _ hf rfl

/-! ## Registration -/

section
variable {columnMajor ignoreDefaultValues : Bool} {structList : List FMStructDesc} {f : FMFormat}
  {copied derived aligned : List FMFormatBody}

theorem Registration.noFlags
    (h : Registration columnMajor ignoreDefaultValues structList f copied derived aligned) :
    NoFlags copied := by
  intro g hg
  obtain ⟨s, -, hs⟩ := mem_of_mapM_eq_some h.copied_eq hg
  simp only [newFormat, Option.bind_eq_bind, Option.bind_eq_some_iff, Option.pure_def,
    Option.some.injEq] at hs
  obtain ⟨_, -, rfl⟩ := hs
  exact ⟨rfl, rfl⟩

/-- The formats behind a format are derived before it. -/
theorem Registration.derivation
    (h : Registration columnMajor ignoreDefaultValues structList f copied derived aligned) :
    Derivation (allOf copied) (allOf copied).reverse copied derived := by
  have hnodup : (allOf copied).reverse.Nodup := List.nodup_reverse.mpr List.nodup_range
  obtain ⟨-, -, hpassed⟩ := pass_spec hnodup h.derived_eq
  refine derivation_of_passedAt h.noFlags
    (pass_underived (fun _ _ _ _ => generateVarList_underived) h.derived_eq) (fun i hi => ?_) hpassed
  rw [List.mem_reverse]
  exact List.mem_range.mpr hi

theorem Registration.topoOrderSubformats_eq
    (h : Registration columnMajor ignoreDefaultValues structList f copied derived aligned) :
    topoOrderSubformats derived = sendOrder copied := by
  rw [topoOrderSubformats, sendOrder, funext h.derivation.formatSuccs, h.derivation.length_eq]

theorem Registration.unaligned
    (h : Registration columnMajor ignoreDefaultValues structList f copied derived aligned) :
    aligned.map FMFormatBody.unaligned =
      (reorder derived (sendOrder copied)).map FMFormatBody.unaligned := by
  have haligned := h.aligned_eq
  rw [h.topoOrderSubformats_eq] at haligned
  exact foldlM_invariant
    (fun formats => formats.map FMFormatBody.unaligned =
      (reorder derived (sendOrder copied)).map FMFormatBody.unaligned)
    (fun hkeep hs => (setAlignment_unaligned hs).trans hkeep) rfl haligned

theorem Registration.pos
    (h : Registration columnMajor ignoreDefaultValues structList f copied derived aligned) :
    0 < copied.length := by
  rw [← h.derivation.length_eq]
  by_contra hzero
  have hnil : derived = [] := List.length_eq_zero_iff.mp (by omega)
  have haligned := congrArg List.length h.unaligned
  have hreorder : reorder derived (sendOrder copied) = [] := by
    rw [reorder, List.filterMap_eq_nil_iff]
    simp [hnil]
  rw [hreorder, List.map_nil, List.length_map, List.length_nil] at haligned
  have hbodies := congrArg List.length (bubbleVariants_underived aligned aligned.length)
  rw [List.length_map, List.length_map, ← h.bodies_eq, haligned] at hbodies
  simp [FMFormat.bodies] at hbodies

theorem Registration.sent
    (h : Registration columnMajor ignoreDefaultValues structList f copied derived aligned) :
    Sent copied (sendOrder copied) := sent_sendOrder h.pos

/-- The format that a format of the sent order becomes before the flags bubble up. -/
theorem Registration.alignedAt
    (h : Registration columnMajor ignoreDefaultValues structList f copied derived aligned) {i : Nat}
    (hi : i ∈ sendOrder copied) : ∃ d a, derived[i]? = some d ∧
      aligned[(sendOrder copied).idxOf i]? = some a ∧
      a.unaligned = (d.renumbered (sendOrder copied)).unaligned := by
  have hlt : ∀ i ∈ sendOrder copied, i < derived.length := by
    intro i hi
    rw [h.derivation.length_eq]
    exact h.sent.lt i hi
  have hd := List.getElem?_eq_getElem (hlt i hi)
  have haligned := congrArg (·[(sendOrder copied).idxOf i]?) h.unaligned
  simp only [List.getElem?_map, reorder_getElem? hlt, List.getElem?_idxOf hi, Option.bind_some, hd,
    Option.map_some, Option.map_eq_some_iff] at haligned
  obtain ⟨a, ha, heq⟩ := haligned
  exact ⟨_, a, hd, ha, heq⟩

/-- The references of a format behind the derivation. -/
theorem Registration.subformatsOf
    (h : Registration columnMajor ignoreDefaultValues structList f copied derived aligned)
    {k l : Nat} : l ∈ subformatsOf aligned k ↔ ∃ i ∈ sendOrder copied, (sendOrder copied).idxOf i = k ∧
      ∃ j ∈ sendOrder copied, (sendOrder copied).idxOf j = l ∧
        Refers copied (allOf copied) i j := by
  rw [mem_subformatsOf]
  constructor
  · rintro ⟨a, ha, hmem⟩
    have haligned := congrArg (·[k]?) h.unaligned
    have hlt : ∀ i ∈ sendOrder copied, i < derived.length := by
      intro i hi
      rw [h.derivation.length_eq]
      exact h.sent.lt i hi
    simp only [List.getElem?_map, reorder_getElem? hlt, ha, Option.map_some] at haligned
    obtain ⟨d', hd', heq⟩ := Option.map_eq_some_iff.mp haligned.symm
    obtain ⟨i, hi, hd'⟩ := Option.bind_eq_some_iff.mp hd'
    obtain ⟨d, hd, rfl⟩ := Option.map_eq_some_iff.mp hd'
    obtain ⟨hk, rfl⟩ := List.getElem?_eq_some_iff.mp hi
    have hsubs := congrArg FMFormatBody.fieldSubformats heq
    simp only [FMFormatBody.unaligned, FMFormatBody.renumbered] at hsubs
    rw [← hsubs, List.mem_map] at hmem
    obtain ⟨sub, hsub, hbind⟩ := hmem
    obtain ⟨j, rfl, hj⟩ := Option.bind_eq_some_iff.mp hbind
    have hrefers : Refers copied (allOf copied) (sendOrder copied)[k] j := by
      rw [← h.derivation.subformatsOf, mem_subformatsOf]
      exact ⟨d, hd, hsub⟩
    have hjmem := h.sent.closed _ (List.getElem_mem hk) j hrefers
    rw [idxOf?_of_mem hjmem, Option.some.injEq] at hj
    exact ⟨_, List.getElem_mem hk, h.sent.nodup.idxOf_getElem k hk, j, hjmem, hj, hrefers⟩
  · rintro ⟨i, hi, rfl, j, hj, rfl, hrefers⟩
    obtain ⟨d, a, hd, ha, heq⟩ := h.alignedAt hi
    refine ⟨a, ha, ?_⟩
    have hsubs := congrArg FMFormatBody.fieldSubformats heq
    simp only [FMFormatBody.unaligned, FMFormatBody.renumbered] at hsubs
    rw [← h.derivation.subformatsOf, mem_subformatsOf] at hrefers
    obtain ⟨d', hd', hmem⟩ := hrefers
    rw [hd, Option.some.injEq] at hd'
    subst hd'
    rw [hsubs]
    refine List.mem_map.mpr ⟨some j, hmem, ?_⟩
    rw [Option.bind_some, idxOf?_of_mem hj]

theorem Registration.aligned_variant
    (h : Registration columnMajor ignoreDefaultValues structList f copied derived aligned) {i : Nat}
    (hi : i ∈ sendOrder copied) :
    variantAt aligned ((sendOrder copied).idxOf i) ↔ (formatFlags derived i).1 = true := by
  obtain ⟨d, a, hd, ha, heq⟩ := h.alignedAt hi
  have hvariant := congrArg FMFormatBody.variant heq
  rw [variantAt_of_some ha, formatFlags, hd]
  exact Eq.congr_left hvariant

theorem Registration.length_aligned
    (h : Registration columnMajor ignoreDefaultValues structList f copied derived aligned) :
    aligned.length = (sendOrder copied).length := by
  have hlength := congrArg List.length h.unaligned
  rw [List.length_map, List.length_map, length_reorder] at hlength
  · exact hlength
  · intro i hi
    rw [h.derivation.length_eq]
    exact h.sent.lt i hi

/-- Flags aside, the bodies are the aligned formats.  A format is variant exactly if it leads
to one that is variant in itself. -/
theorem Registration.bubbled
    (h : Registration columnMajor ignoreDefaultValues structList f copied derived aligned) :
    f.bodies.map FMFormatBody.unflagged = aligned.map FMFormatBody.unflagged ∧
      ∀ i ∈ sendOrder copied, (variantAt f.bodies ((sendOrder copied).idxOf i) ↔
        Leads (OwnVariant copied (allOf copied)) (Refers copied (allOf copied)) i) := by
  let order := sendOrder copied
  let Own (k : Nat) : Prop := ∃ i ∈ order, order.idxOf i = k ∧ OwnVariant copied (allOf copied) i
  let Sees (k l : Nat) : Prop := ∃ i ∈ order, order.idxOf i = k ∧
    ∃ j ∈ order, order.idxOf j = l ∧ Refers copied (allOf copied) i j
  have hown : ∀ i ∈ order, Own (order.idxOf i) ↔ OwnVariant copied (allOf copied) i := by
    intro i hi
    constructor
    · rintro ⟨j, hj, heq, hown⟩
      rwa [(List.idxOf_inj hj).mp heq] at hown
    · exact fun hown => ⟨i, hi, rfl, hown⟩
  have hsees : ∀ i l, i ∈ order → (Sees (order.idxOf i) l ↔
      ∃ j, j ∈ order ∧ order.idxOf j = l ∧ Refers copied (allOf copied) i j) := by
    intro i l hi
    constructor
    · rintro ⟨i', hi', heq, hsees⟩
      rwa [(List.idxOf_inj hi').mp heq] at hsees
    · exact fun hsees => ⟨i, hi, rfl, hsees⟩
  have hrename : ∀ i ∈ order, Leads Own Sees (order.idxOf i) ↔
      Leads (OwnVariant copied (allOf copied)) (Refers copied (allOf copied)) i :=
    fun i hi => leads_rename (· ∈ order) order.idxOf hown hsees (fun a b ha hab => h.sent.closed a ha b hab) hi
  have hstart : ∀ k, Own k → variantAt aligned k := by
    rintro k ⟨i, hi, rfl, hown⟩
    exact (h.aligned_variant hi).mpr ((h.derivation.variant i).1 hown)
  have hleads : ∀ k, variantAt aligned k → Leads Own Sees k := by
    intro k hk
    have hlt : k < order.length := by
      rw [← h.length_aligned]
      by_contra hge
      rw [variantAt, formatFlags, List.getElem?_eq_none (Nat.not_lt.mp hge)] at hk
      cases hk
    have hk' : k = order.idxOf order[k] := (h.sent.nodup.idxOf_getElem k hlt).symm
    rw [hk'] at hk ⊢
    have hmem := List.getElem_mem hlt
    exact (hrename _ hmem).mpr ((h.derivation.variant _).2 ((h.aligned_variant hmem).mp hk))
  obtain ⟨hkept, hvariant⟩ := bubbleVariants_spec (fun k l => h.subformatsOf) hstart hleads
  rw [h.bodies_eq]
  exact ⟨hkept, fun i hi => (hvariant _).trans (hrename i hi)⟩

/-- What a format of the sent order becomes. -/
theorem Registration.body
    (h : Registration columnMajor ignoreDefaultValues structList f copied derived aligned) {i : Nat}
    (hi : i ∈ sendOrder copied) : ∃ d g, derived[i]? = some d ∧
      f.bodies[(sendOrder copied).idxOf i]? = some g ∧
      g.unflagged.unaligned = (d.renumbered (sendOrder copied)).unflagged.unaligned := by
  obtain ⟨d, a, hd, ha, heq⟩ := h.alignedAt hi
  have hkept := congrArg (·[(sendOrder copied).idxOf i]?) h.bubbled.1
  simp only [List.getElem?_map, ha, Option.map_some, Option.map_eq_some_iff] at hkept
  obtain ⟨g, hg, hga⟩ := hkept
  refine ⟨d, g, hd, hg, ?_⟩
  rw [hga]
  exact congrArg FMFormatBody.unflagged heq

theorem Registration.length_bodies
    (h : Registration columnMajor ignoreDefaultValues structList f copied derived aligned) :
    f.bodies.length = (sendOrder copied).length := by
  have hlength := congrArg List.length h.bubbled.1
  rw [List.length_map, List.length_map, h.length_aligned] at hlength
  exact hlength

end

end FFS
