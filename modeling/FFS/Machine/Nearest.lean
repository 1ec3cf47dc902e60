import Mathlib.Data.List.Induction
import Mathlib.Order.BoundedOrder.Basic
import Mathlib.Order.Lattice

/-!
# The first least of a list

A search goes through a list and keeps what has the least key so far, below a limit.  It stops at
a least key of all.  Keys are partial, and the search has no result when it meets one that is
missing.
-/

namespace Machine

variable {α δ : Type} [LinearOrder δ] [OrderBot δ]

/-- The search, from what it has kept and the key to be below. -/
def nearest (key : α → Option δ) : List α → Option α × δ → Option (Option α × δ)
  | [], best => some best
  | a :: as, best => do
    let d ← key a
    if d = ⊥ then return (some a, ⊥)
    else nearest key as (if d < best.2 then (some a, d) else best)

/-- The keys that a search looks at are there. -/
def AllKeyed (key : α → Option δ) : List α → Prop
  | [] => True
  | a :: as => ∃ d, key a = some d ∧ (d = ⊥ ∨ AllKeyed key as)

/-- The element at a position is the first with the least key. -/
def FirstLeast (key : α → Option δ) (as : List α) (i : Nat) (a : α) (d : δ) : Prop :=
  as[i]? = some a ∧ key a = some d ∧
    ∀ j b e, as[j]? = some b → key b = some e → d ≤ e ∧ (j < i → d < e)

variable {key : α → Option δ} {as bs : List α} {a b : α} {d e limit : δ}

theorem nearest_isSome_iff (best : Option α × δ) :
    (nearest key as best).isSome ↔ AllKeyed key as := by
  induction as generalizing best with
  | nil => exact iff_of_true rfl trivial
  | cons a as ih =>
    rw [nearest, AllKeyed]
    cases hkey : key a with
    | none => simp
    | some d =>
      by_cases hd : d = ⊥
      · simp [hd]
      · simp only [Option.bind_eq_bind, Option.bind_some, hd, if_false, ih, Option.some.injEq,
          exists_eq_left', false_or]

/-- A search goes on where it did not stop. -/
theorem nearest_append (best : Option α × δ) : nearest key (as ++ bs) best =
    (nearest key as best).bind fun r =>
      if ∃ a ∈ as, key a = some ⊥ then some r else nearest key bs r := by
  induction as generalizing best with
  | nil => simp [nearest]
  | cons a as ih =>
    rw [List.cons_append, nearest, nearest]
    cases hkey : key a with
    | none => rfl
    | some d =>
      by_cases hd : d = ⊥
      · subst hd
        simp [hkey]
      · simp only [Option.bind_eq_bind, Option.bind_some, hd, if_false, ih, List.mem_cons,
          exists_eq_or_imp, hkey, Option.some.injEq, false_or]

/-- A search that stops has come to a least key of all. -/
theorem nearest_stops {best r : Option α × δ} (hbest : best.2 ≠ ⊥)
    (h : nearest key as best = some r) : r.2 = ⊥ ↔ ∃ a ∈ as, key a = some ⊥ := by
  induction as generalizing best with
  | nil =>
    cases h
    simp [hbest]
  | cons a as ih =>
    obtain ⟨d, hd, hrest⟩ := Option.bind_eq_some_iff.mp h
    by_cases hbot : d = ⊥
    · rw [if_pos hbot] at hrest
      cases hrest
      exact iff_of_true rfl ⟨a, List.mem_cons_self, hbot ▸ hd⟩
    · rw [if_neg hbot] at hrest
      have hnext : (if d < best.2 then (some a, d) else best).2 ≠ ⊥ := by
        split
        · exact hbot
        · exact hbest
      rw [ih hnext hrest]
      simp [hd, hbot]

/-- A search that has a result has it with more keys. -/
theorem nearest_mono {key' : α → Option δ} (h : ∀ a d, key a = some d → key' a = some d)
    {best r : Option α × δ} (hr : nearest key as best = some r) :
    nearest key' as best = some r := by
  induction as generalizing best with
  | nil => exact hr
  | cons a as ih =>
    obtain ⟨d, hd, hrest⟩ := Option.bind_eq_some_iff.mp hr
    rw [nearest, h a d hd, Option.bind_eq_bind, Option.bind_some]
    by_cases hbot : d = ⊥
    · rw [if_pos hbot] at hrest ⊢
      exact hrest
    · rw [if_neg hbot] at hrest ⊢
      exact ih hrest

/-- The keys up to a least of all are there. -/
theorem allKeyed_iff : AllKeyed key as ↔ ∀ i a, as[i]? = some a →
    (∀ (j : Nat) b, as[j]? = some b → j < i → key b ≠ some ⊥) → ∃ d, key a = some d := by
  induction as with
  | nil => exact iff_of_true trivial fun i a h => by cases h
  | cons c as ih =>
    constructor
    · rintro ⟨d, hd, hrest⟩ i a ha hbefore
      cases i with
      | zero =>
        cases ha
        exact ⟨d, hd⟩
      | succ i =>
        have hne : d ≠ ⊥ := fun heq => hbefore 0 c rfl (Nat.succ_pos i) (heq ▸ hd)
        exact ih.mp (hrest.resolve_left hne) i a ha
          fun j b hb hj => hbefore (j + 1) b hb (Nat.succ_lt_succ hj)
    · intro h
      obtain ⟨d, hd⟩ := h 0 c rfl fun j b _ hj => absurd hj (Nat.not_lt_zero j)
      refine ⟨d, hd, or_iff_not_imp_left.mpr fun hne => ih.mpr fun i a ha hbefore => ?_⟩
      refine h (i + 1) a ha fun j b hb hj => ?_
      cases j with
      | zero =>
        cases hb
        rw [hd]
        exact fun heq => hne (Option.some.inj heq)
      | succ j => exact hbefore j b hb (Nat.lt_of_succ_lt_succ hj)

omit [OrderBot δ] in
theorem FirstLeast.unique {i j : Nat} (h : FirstLeast key as i a d)
    (h' : FirstLeast key as j b e) : i = j ∧ a = b ∧ d = e := by
  obtain ⟨hi, hd, hleast⟩ := h
  obtain ⟨hj, he, hleast'⟩ := h'
  have hij : i = j := by
    rcases Nat.lt_trichotomy i j with hlt | heq | hlt
    · exact absurd ((hleast' i a d hi hd).2 hlt) (not_lt.mpr (hleast j b e hj he).1)
    · exact heq
    · exact absurd ((hleast j b e hj he).2 hlt) (not_lt.mpr (hleast' i a d hi hd).1)
  subst hij
  have hab : a = b := Option.some.inj (hi.symm.trans hj)
  subst hab
  exact ⟨rfl, rfl, Option.some.inj (hd.symm.trans he)⟩

omit [OrderBot δ] in
/-- Nothing behind it is less. -/
theorem FirstLeast.append {i : Nat} (h : FirstLeast key as i a d)
    (hbs : ∀ b ∈ bs, ∀ e, key b = some e → d ≤ e) : FirstLeast key (as ++ bs) i a d := by
  obtain ⟨ha, hd, hleast⟩ := h
  have hi := (List.getElem?_eq_some_iff.mp ha).1
  refine ⟨(List.getElem?_append_left hi).trans ha, hd, fun j b e hb he => ?_⟩
  rcases Nat.lt_or_ge j as.length with hlt | hge
  · rw [List.getElem?_append_left hlt] at hb
    exact hleast j b e hb he
  · rw [List.getElem?_append_right hge] at hb
    exact ⟨hbs b (List.mem_of_getElem? hb) e he, fun hlt => absurd hlt (by omega)⟩

/-- What a search has kept behind a list. -/
inductive Kept (key : α → Option δ) (limit : δ) (as : List α) : Option α × δ → Prop
  | nothing (h : ∀ a ∈ as, ∀ d, key a = some d → limit ≤ d) : Kept key limit as (none, limit)
  | element {i a d} (h : FirstLeast key as i a d) (hd : d < limit) : Kept key limit as (some a, d)

theorem getElem?_append_singleton {i : Nat} (h : (as ++ [a])[i]? = some b) :
    as[i]? = some b ∨ i = as.length ∧ b = a := by
  rcases Nat.lt_or_ge i as.length with hlt | hge
  · rw [List.getElem?_append_left hlt] at h
    exact .inl h
  · rw [List.getElem?_append_right hge] at h
    obtain ⟨hlt, hb⟩ := List.getElem?_eq_some_iff.mp h
    rw [List.length_singleton] at hlt
    refine .inr ⟨by omega, ?_⟩
    rw [← hb, List.getElem_singleton]

omit [OrderBot δ] in
/-- One more element. -/
theorem Kept.step {best : Option α × δ} (h : Kept key limit as best) (hd : key a = some d) :
    Kept key limit (as ++ [a]) (if d < best.2 then (some a, d) else best) := by
  have hold : (as ++ [a])[as.length]? = some a := List.getElem?_concat_length
  cases h with
  | nothing h =>
    by_cases hlt : d < limit
    · rw [if_pos hlt]
      refine .element (i := as.length) ⟨hold, hd, fun j b e hb he => ?_⟩ hlt
      rcases getElem?_append_singleton hb with hb | ⟨rfl, rfl⟩
      · have hle := h b (List.mem_of_getElem? hb) e he
        exact ⟨(hlt.trans_le hle).le, fun _ => hlt.trans_le hle⟩
      · cases hd.symm.trans he
        exact ⟨le_rfl, fun hlt => absurd hlt (Nat.lt_irrefl _)⟩
    · rw [if_neg hlt]
      refine .nothing fun b hb e he => ?_
      rcases List.mem_append.mp hb with hb | hb
      · exact h b hb e he
      · cases List.mem_singleton.mp hb
        cases hd.symm.trans he
        exact not_lt.mp hlt
  | @element i c f h hf =>
    by_cases hlt : d < f
    · rw [if_pos hlt]
      refine .element (i := as.length) ⟨hold, hd, fun j b e hb he => ?_⟩ (hlt.trans hf)
      rcases getElem?_append_singleton hb with hb | ⟨rfl, rfl⟩
      · have hle := (h.2.2 j b e hb he).1
        exact ⟨(hlt.trans_le hle).le, fun _ => hlt.trans_le hle⟩
      · cases hd.symm.trans he
        exact ⟨le_rfl, fun hlt => absurd hlt (Nat.lt_irrefl _)⟩
    · rw [if_neg hlt]
      have hi := (List.getElem?_eq_some_iff.mp h.1).1
      refine .element ⟨(List.getElem?_append_left hi).trans h.1, h.2.1, fun j b e hb he => ?_⟩ hf
      rcases getElem?_append_singleton hb with hb | ⟨rfl, rfl⟩
      · exact h.2.2 j b e hb he
      · cases hd.symm.trans he
        exact ⟨not_lt.mp hlt, fun hlt => absurd hlt (by omega)⟩

omit [OrderBot δ] in
theorem Kept.skip {best : Option α × δ} (h : Kept key limit as best) (ha : key a = none) :
    Kept key limit (as ++ [a]) best := by
  have hnone : ∀ b ∈ [a], ∀ e, key b = some e → False := by
    intro b hb e he
    rw [List.mem_singleton.mp hb, ha] at he
    cases he
  cases h with
  | nothing h =>
    refine .nothing fun b hb e he => ?_
    rcases List.mem_append.mp hb with hb | hb
    · exact h b hb e he
    · exact (hnone b hb e he).elim
  | element h hd => exact .element (h.append fun b hb e he => (hnone b hb e he).elim) hd

omit [OrderBot δ] in
/-- Every list has something to keep. -/
theorem exists_kept (key : α → Option δ) (limit : δ) (as : List α) :
    ∃ best, Kept key limit as best := by
  induction as using List.reverseRecOn with
  | nil => exact ⟨_, .nothing fun _ h => absurd h List.not_mem_nil⟩
  | append_singleton as a ih =>
    obtain ⟨best, hbest⟩ := ih
    cases hkey : key a with
    | none => exact ⟨best, hbest.skip hkey⟩
    | some d => exact ⟨_, hbest.step hkey⟩

/-- The first with the least key of all is kept. -/
theorem Kept.stop {pre : List α} (hpre : ∀ b ∈ pre, key b ≠ some ⊥) (ha : key a = some ⊥)
    (hlimit : ⊥ < limit) (as : List α) : Kept key limit (pre ++ a :: as) (some a, ⊥) := by
  refine .element (i := pre.length) ⟨by simp, ha, fun j b e hb he => ⟨bot_le, fun hlt => ?_⟩⟩ hlimit
  rw [List.getElem?_append_left hlt] at hb
  refine bot_lt_iff_ne_bot.mpr fun hbot => hpre b (List.mem_of_getElem? hb) ?_
  rw [he, hbot]

theorem kept_of_nearest_from {pre : List α} {best r : Option α × δ}
    (hkept : Kept key limit pre best) (hpre : ∀ b ∈ pre, key b ≠ some ⊥) (hlimit : ⊥ < limit)
    (h : nearest key as best = some r) : Kept key limit (pre ++ as) r := by
  induction as generalizing pre best with
  | nil =>
    cases h
    rwa [List.append_nil]
  | cons a as ih =>
    obtain ⟨d, hd, hrest⟩ := Option.bind_eq_some_iff.mp h
    by_cases hbot : d = ⊥
    · rw [if_pos hbot] at hrest
      cases hrest
      exact .stop hpre (hbot ▸ hd) hlimit as
    · rw [if_neg hbot] at hrest
      have hnext := ih (hkept.step hd) (fun b hb => ?_) hrest
      · rwa [List.append_assoc] at hnext
      · rcases List.mem_append.mp hb with hb | hb
        · exact hpre b hb
        · rw [List.mem_singleton.mp hb, hd]
          exact fun heq => hbot (Option.some.inj heq)

/-- A search keeps the first of the least key that is below the limit. -/
theorem kept_of_nearest {r : Option α × δ} (hlimit : ⊥ < limit)
    (h : nearest key as (none, limit) = some r) : Kept key limit as r :=
  kept_of_nearest_from (.nothing fun _ h => absurd h List.not_mem_nil)
    (fun _ h => absurd h List.not_mem_nil) hlimit h

end Machine
