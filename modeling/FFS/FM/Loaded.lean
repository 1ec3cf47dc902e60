import FFS.FM.Bubble

/-!
# What loading keeps

Like registration, loading changes the derived values and the order of formats and
nothing else, and the top format stays the first.
-/

namespace FFS

open Machine

theorem fillDerivedFormatValues_underived {candidates : List Nat} {formats : List FMFormatBody}
    {self : Nat} {f g : FMFormatBody}
    (h : fillDerivedFormatValues candidates formats self f = some g) :
    g.underived = f.underived := by
  obtain ⟨f', hf', rfl⟩ := Option.map_eq_some_iff.mp h
  have hkeep : (refillVars formats candidates self f').underived = f'.underived := rfl
  rw [hkeep, generateVarList_underived hf']
  rfl

theorem bubbleLoaded_unflagged (formats : List FMFormatBody) :
    (bubbleLoaded formats).map FMFormatBody.unflagged = formats.map FMFormatBody.unflagged := by
  let Same (formats' : List FMFormatBody) : Prop :=
    formats'.map FMFormatBody.unflagged = formats.map FMFormatBody.unflagged
  have hround : ∀ {formats'} i, Same formats' → Same (bubbleVariant formats' (i + 1)) :=
    fun i h => (bubbleVariant_unflagged _ (i + 1)).trans h
  have hrounds := foldl_invariant Same
    (fun _ h => foldl_invariant Same hround (List.range (formats.length - 1)) h)
    (List.range (formats.length - 1)) (s := formats) rfl
  exact (bubbleVariant_unflagged _ 0).trans hrounds

theorem bubbleLoaded_underived (formats : List FMFormatBody) :
    (bubbleLoaded formats).map FMFormatBody.underived = formats.map FMFormatBody.underived := by
  have hkeep := congrArg (List.map FMFormatBody.underived) (bubbleLoaded_unflagged formats)
  rw [List.map_map, List.map_map] at hkeep
  exact hkeep

/-! ## The top format -/

theorem deriveLoaded_top {f g : FMFormat} (h : deriveLoaded f = some g) :
    g.top.underived = f.top.underived := by
  simp only [deriveLoaded, Option.bind_eq_bind, Option.bind_eq_some_iff, Option.guard_eq_some',
    exists_const] at h
  obtain ⟨filled, hfilled, -, -, h⟩ := h
  have hkeep := pass_underived (fun _ _ _ _ => fillDerivedFormatValues_underived) hfilled
  obtain ⟨below, horder⟩ := topoOrderSubformats_eq_cons filled
  cases filled with
  | nil => simp [FMFormat.bodies] at hkeep
  | cons top rest =>
    have hbubble := bubbleLoaded_underived (reorder (top :: rest) (0 :: below))
    rw [horder] at h
    split at h
    · cases h
    · next top' subformats heq =>
      simp only [Option.pure_def, Option.some.injEq] at h
      rw [heq] at hbubble
      simp only [reorder, FMFormat.bodies, List.map_cons, List.filterMap_cons, List.getElem?_cons_zero,
        Option.map_some, List.cons.injEq] at hbubble hkeep
      rw [← h, hbubble.1, ← hkeep.1]
      rfl

end FFS
