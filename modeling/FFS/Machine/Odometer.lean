import Mathlib.Logic.Function.Basic
import Mathlib.Data.List.Basic

/-!
# An index vector as nested loops

A single loop can visit every vector of indices by itself.  It goes down one level at a time, does
its work below the last level, and comes back up with a carry.  `odometer` is such a loop and
`nested` is the nest of loops that it stands for.  An index vector is a function, so that the
digits of other levels stay what they were.
-/

namespace Machine

variable {σ ε : Type*}

/-- Adds one to a digit. -/
def bump (index : Nat → Nat) (k : Nat) : Nat → Nat := Function.update index k (index k + 1)

/-- The loop with `n` digits, whose radices are `dims`, at the level `cur`.  The work is done at
the level `n`.  `stuck` says that the rounds do not suffice. -/
def odometer (stuck : ε) (dims : Nat → Nat) (n : Nat) (body : (Nat → Nat) → σ → Except ε σ) :
    Nat → (Nat → Nat) → Nat → σ → Except ε σ
  | 0, _, _, _ => .error stuck
  | fuel + 1, index, cur, s =>
    if index 0 < dims 0 then
      if cur = n then do
        let s ← body index s
        odometer stuck dims n body fuel (bump index (cur - 1)) (cur - 1) s
      else if index cur = dims cur then
        if cur = 0 then .ok s
        else
          odometer stuck dims n body fuel (bump (Function.update index cur 0) (cur - 1))
            (cur - 1) s
      else odometer stuck dims n body fuel index (cur + 1) s
    else .ok s

/-- The nest of loops over the digits `cur, …, cur + r - 1`. -/
def nested (dims : Nat → Nat) (body : (Nat → Nat) → σ → Except ε σ) :
    Nat → Nat → (Nat → Nat) → σ → Except ε σ
  | 0, _, index, s => body index s
  | r + 1, cur, index, s =>
    (List.range (dims cur)).foldlM
      (fun s i => nested dims body r (cur + 1) (Function.update index cur i) s) s

section

variable {stuck : ε} {dims : Nat → Nat} {n : Nat} {body : (Nat → Nat) → σ → Except ε σ}

/-- More rounds do not change a result. -/
theorem odometer_mono {fuel : Nat} {index : Nat → Nat} {cur : Nat} {s : σ} {r : Except ε σ}
    (hr : r ≠ .error stuck) (h : odometer stuck dims n body fuel index cur s = r) :
    odometer stuck dims n body (fuel + 1) index cur s = r := by
  induction fuel generalizing index cur s with
  | zero => exact absurd h.symm hr
  | succ fuel ih =>
    rw [odometer] at h ⊢
    by_cases hguard : index 0 < dims 0
    · rw [if_pos hguard] at h ⊢
      by_cases hbody : cur = n
      · rw [if_pos hbody] at h ⊢
        cases hrun : body index s with
        | error e =>
          rw [hrun] at h
          exact h
        | ok s' =>
          rw [hrun] at h
          exact ih h
      · rw [if_neg hbody] at h ⊢
        by_cases hcarry : index cur = dims cur
        · rw [if_pos hcarry] at h ⊢
          by_cases hfirst : cur = 0
          · rw [if_pos hfirst] at h ⊢
            exact h
          · rw [if_neg hfirst] at h ⊢
            exact ih h
        · rw [if_neg hcarry] at h ⊢
          exact ih h
    · rw [if_neg hguard] at h ⊢
      exact h

theorem odometer_add {fuel : Nat} {index : Nat → Nat} {cur : Nat} {s : σ} {r : Except ε σ}
    (hr : r ≠ .error stuck) (h : odometer stuck dims n body fuel index cur s = r) (k : Nat) :
    odometer stuck dims n body (fuel + k) index cur s = r := by
  induction k with
  | zero => exact h
  | succ k ih => exact odometer_mono hr ih

/-- After some rounds the loop is where `finish` goes on. -/
def Comes (stuck : ε) (dims : Nat → Nat) (n : Nat) (body : (Nat → Nat) → σ → Except ε σ)
    (index : Nat → Nat) (cur : Nat) (s : σ) (finish : Nat → Except ε σ) : Prop :=
  ∃ k, ∀ fuel, odometer stuck dims n body (fuel + k) index cur s = finish fuel

/-- A level from one of its digits on, if each digit does what it does in the nest and the level
ends as `finish` says. -/
theorem comes_level {r cur : Nat} {index : Nat → Nat} {finish : Nat → σ → Except ε σ}
    (hcur : cur < n) (hguard : ∀ i < dims cur, Function.update index cur i 0 < dims 0)
    (hdigit : ∀ i < dims cur, ∀ s,
      Comes stuck dims n body (Function.update index cur i) (cur + 1) s fun fuel =>
        nested dims body r (cur + 1) (Function.update index cur i) s >>=
          odometer stuck dims n body fuel (Function.update index cur (i + 1)) cur)
    (hfinish : ∀ s, Comes stuck dims n body (Function.update index cur (dims cur)) cur s
      fun fuel => finish fuel s)
    {c i : Nat} (hi : i + c = dims cur) (s : σ) :
    Comes stuck dims n body (Function.update index cur i) cur s fun fuel =>
      (List.range' i c).foldlM
        (fun s i => nested dims body r (cur + 1) (Function.update index cur i) s) s >>=
        finish fuel := by
  induction c generalizing i s with
  | zero =>
    obtain rfl : i = dims cur := hi
    exact hfinish s
  | succ c ih =>
    obtain ⟨k, hk⟩ := hdigit i (by omega) s
    have hdown : ∀ fuel, odometer stuck dims n body (fuel + k + 1)
        (Function.update index cur i) cur s =
          nested dims body r (cur + 1) (Function.update index cur i) s >>=
            odometer stuck dims n body fuel (Function.update index cur (i + 1)) cur := by
      intro fuel
      rw [odometer, if_pos (hguard i (by omega)), if_neg (by omega), Function.update_self,
        if_neg (by omega), hk]
    rw [List.range'_succ]
    simp only [List.foldlM_cons]
    cases hrun : nested dims body r (cur + 1) (Function.update index cur i) s with
    | error e =>
      refine ⟨k + 1, fun fuel => ?_⟩
      rw [← Nat.add_assoc, hdown, hrun]
      rfl
    | ok s' =>
      obtain ⟨k', hk'⟩ := ih (i := i + 1) (by omega) s'
      refine ⟨k' + (k + 1), fun fuel => ?_⟩
      rw [← Nat.add_assoc, ← Nat.add_assoc, hdown, hrun]
      exact hk' fuel

/-- A level below the first: the nest is done and the level above counts on. -/
theorem comes_nested {r cur : Nat} (hn : cur + r = n) (hcur : 0 < cur) {index : Nat → Nat}
    (hguard : index 0 < dims 0) (hzero : ∀ k, cur ≤ k → k < n → index k = 0) (s : σ) :
    Comes stuck dims n body index cur s fun fuel =>
      nested dims body r cur index s >>=
        odometer stuck dims n body fuel (bump index (cur - 1)) (cur - 1) := by
  induction r generalizing cur index s with
  | zero =>
    refine ⟨1, fun fuel => ?_⟩
    rw [odometer, if_pos hguard, if_pos (by omega)]
    rfl
  | succ r ih =>
    have hstart : index = Function.update index cur 0 := by
      rw [Function.eq_update_self_iff]
      exact hzero cur (Nat.le_refl _) (by omega)
    have hfirst : ∀ i, Function.update index cur i 0 = index 0 :=
      fun i => Function.update_of_ne (by omega) i index
    rw [nested, List.range_eq_range', hstart]
    simp only [Function.update_idem]
    refine comes_level (by omega) (fun i _ => by rw [hfirst]; exact hguard) ?_ ?_ (by omega) s
    · intro i hi s
      have hih := @ih (cur + 1) (by omega) (by omega) (Function.update index cur i)
        (by rw [hfirst]; exact hguard)
        (fun k hk hkn => by rw [Function.update_of_ne (by omega)]; exact hzero k (by omega) hkn) s
      have hnext : bump (Function.update index cur i) cur = Function.update index cur (i + 1) := by
        rw [bump, Function.update_self, Function.update_idem]
      rwa [Nat.add_sub_cancel, hnext] at hih
    · intro s
      refine ⟨1, fun fuel => ?_⟩
      rw [odometer, if_pos (by rw [hfirst]; exact hguard), if_neg (by omega),
        Function.update_self, if_pos rfl, if_neg (by omega), Function.update_idem, ← hstart]

/-- The loop over all digits. -/
theorem comes_all (hn : 0 < n) (s : σ) :
    Comes stuck dims n body (fun _ => 0) 0 s fun _ => nested dims body n 0 (fun _ => 0) s := by
  obtain ⟨r, rfl⟩ : ∃ r, n = r + 1 := ⟨n - 1, by omega⟩
  have hstart : (fun _ => 0 : Nat → Nat) = Function.update (fun _ => 0) 0 0 := by
    rw [Function.eq_update_self_iff]
  have hlevel := @comes_level _ _ stuck dims (r + 1) body r 0 (fun _ => 0) (fun _ s => .ok s)
    (by omega) (fun i hi => by rwa [Function.update_self]) ?_ ?_ (dims 0) 0 (by omega) s
  · obtain ⟨k, hk⟩ := hlevel
    rw [← hstart] at hk
    rw [nested, List.range_eq_range']
    exact ⟨k, fun fuel => (hk fuel).trans (bind_pure _)⟩
  · intro i hi s
    have hnested := @comes_nested _ _ stuck dims (r + 1) body r 1 (by omega) (by omega)
      (Function.update (fun _ => 0) 0 i) (by rwa [Function.update_self])
      (fun k hk _ => by rw [Function.update_of_ne (by omega)]) s
    have hnext : bump (Function.update (fun _ => 0) 0 i) 0 =
        Function.update (fun _ => 0) 0 (i + 1) := by
      rw [bump, Function.update_self, Function.update_idem]
    rwa [Nat.sub_self, hnext] at hnested
  · intro s
    refine ⟨1, fun fuel => ?_⟩
    rw [odometer, Function.update_self, if_neg (Nat.lt_irrefl _)]

/-- The loop ends with what the nest of loops gives. -/
theorem exists_odometer (hn : 0 < n) (s : σ) :
    ∃ fuel, odometer stuck dims n body fuel (fun _ => 0) 0 s =
      nested dims body n 0 (fun _ => 0) s := by
  obtain ⟨k, hk⟩ : Comes stuck dims n body _ 0 s _ := comes_all hn s
  exact ⟨0 + k, hk 0⟩

/-- What the loop ends with is what the nest of loops gives. -/
theorem nested_of_odometer (hn : 0 < n) {fuel : Nat} {s : σ} {r : Except ε σ}
    (hr : r ≠ .error stuck) (h : odometer stuck dims n body fuel (fun _ => 0) 0 s = r) :
    nested dims body n 0 (fun _ => 0) s = r := by
  obtain ⟨k, hk⟩ : Comes stuck dims n body _ 0 s _ := comes_all hn s
  exact (hk fuel).symm.trans (odometer_add hr h k)

end

end Machine
