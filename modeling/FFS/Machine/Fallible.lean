import Mathlib.Data.List.Forall2

/-!
# Runs of fallible steps

A step that can fail returns an `Option`.  The rules here take a run apart that succeeded:
over the elements of a list, each on its own (`mapM`) or one state after another
(`foldlM`), where an invariant of the steps is one of the run.

A computation that stops for a reason returns an `Except`.  `Outcome Q P` is its weakest
precondition: `P` of the result, or `Q` of the reason.
-/

namespace Machine

variable {α β σ ε : Type}

/-- One step of a chain that succeeds. -/
theorem bind_eq_of_eq_some {x : Option α} {a : α} {f : α → Option β} {r : Option β}
    (h : x = some a) (hf : f a = r) : x >>= f = r := by
  rw [h]
  exact hf

theorem mapM_eq_some_iff {f : α → Option β} {as : List α} {bs : List β} :
    as.mapM f = some bs ↔ List.Forall₂ (fun a b => f a = some b) as bs := by
  induction as generalizing bs with
  | nil =>
    rw [List.mapM_nil, List.forall₂_nil_left_iff]
    simp [eq_comm]
  | cons a as ih =>
    simp only [List.mapM_cons, Option.bind_eq_bind, Option.bind_eq_some_iff, Option.pure_def,
      Option.some.injEq, ih, List.forall₂_cons_left_iff]
    constructor
    · rintro ⟨b, hb, bs', hbs, rfl⟩
      exact ⟨b, bs', hb, hbs, rfl⟩
    · rintro ⟨b, bs', hb, hbs, rfl⟩
      exact ⟨b, hb, bs', hbs, rfl⟩

theorem mem_of_mapM_eq_some {f : α → Option β} {as : List α} {bs : List β}
    (h : as.mapM f = some bs) {b : β} (hb : b ∈ bs) : ∃ a ∈ as, f a = some b := by
  rw [mapM_eq_some_iff] at h
  induction h with
  | nil => cases hb
  | cons hab _ ih =>
    rcases List.mem_cons.mp hb with rfl | hb
    · exact ⟨_, List.mem_cons_self, hab⟩
    · obtain ⟨a, ha, hfa⟩ := ih hb
      exact ⟨a, List.mem_cons_of_mem _ ha, hfa⟩

theorem exists_of_mapM_eq_some {f : α → Option β} {as : List α} {bs : List β}
    (h : as.mapM f = some bs) {a : α} (ha : a ∈ as) : ∃ b ∈ bs, f a = some b := by
  rw [mapM_eq_some_iff] at h
  induction h with
  | nil => cases ha
  | cons hab _ ih =>
    rcases List.mem_cons.mp ha with rfl | ha
    · exact ⟨_, List.mem_cons_self, hab⟩
    · obtain ⟨b, hb, hfa⟩ := ih ha
      exact ⟨b, List.mem_cons_of_mem _ hb, hfa⟩

theorem length_of_mapM_eq_some {f : α → Option β} {as : List α} {bs : List β}
    (h : as.mapM f = some bs) : bs.length = as.length :=
  ((mapM_eq_some_iff.mp h).length_eq).symm

theorem getElem?_of_mapM_eq_some {f : α → Option β} {as : List α} {bs : List β}
    (h : as.mapM f = some bs) (i : Nat) : bs[i]? = as[i]?.bind f := by
  rw [mapM_eq_some_iff] at h
  induction h generalizing i with
  | nil => rfl
  | cons hab _ ih =>
    cases i with
    | zero => simp [hab]
    | succ i => simpa using ih i

theorem exists_mapM_eq_some {f : α → Option β} {as : List α}
    (h : ∀ a ∈ as, ∃ b, f a = some b) : ∃ bs, as.mapM f = some bs := by
  induction as with
  | nil => exact ⟨[], rfl⟩
  | cons a as ih =>
    obtain ⟨b, hb⟩ := h a List.mem_cons_self
    obtain ⟨bs, hbs⟩ := ih fun c hc => h c (List.mem_cons_of_mem _ hc)
    refine ⟨b :: bs, ?_⟩
    rw [mapM_eq_some_iff] at hbs ⊢
    exact List.Forall₂.cons hb hbs

theorem mapM_congr {f g : α → Option β} {as : List α} (h : ∀ a ∈ as, f a = g a) :
    as.mapM f = as.mapM g := by
  induction as with
  | nil => rfl
  | cons a as ih =>
    rw [List.mapM_cons, List.mapM_cons, h a List.mem_cons_self,
      ih fun b hb => h b (List.mem_cons_of_mem _ hb)]

theorem mapM_mono {f g : α → Option β} (h : ∀ a b, f a = some b → g a = some b) {as : List α}
    {bs : List β} (hbs : as.mapM f = some bs) : as.mapM g = some bs := by
  rw [mapM_eq_some_iff] at hbs ⊢
  exact hbs.imp h

theorem foldlM_mono {f g : σ → α → Option σ}
    (h : ∀ s a r, f s a = some r → g s a = some r) {as : List α} {s r : σ}
    (hr : as.foldlM f s = some r) : as.foldlM g s = some r := by
  induction as generalizing s with
  | nil => exact hr
  | cons a as ih =>
    rw [List.foldlM_cons] at hr ⊢
    obtain ⟨s', hs', hrest⟩ := Option.bind_eq_some_iff.mp hr
    exact bind_eq_of_eq_some (h s a s' hs') (ih hrest)

/-- Putting back an element that looks the same. -/
theorem map_set_of_eq (look : α → β) {l : List α} {i : Nat} {a b : α} (ha : l[i]? = some a)
    (hb : look b = look a) : (l.set i b).map look = l.map look := by
  refine List.ext_getElem? fun j => ?_
  rw [List.map_set, List.getElem?_set]
  split
  · next hij =>
    subst hij
    have hlt : i < l.length := (List.getElem?_eq_some_iff.mp ha).1
    rw [List.length_map, if_pos hlt, List.getElem?_map, ha, Option.map_some, hb]
  · rfl

/-- What every step keeps, a run keeps. -/
theorem foldlM_invariant {step : σ → α → Option σ} (P : σ → Prop)
    (hstep : ∀ {s a s'}, P s → step s a = some s' → P s') {as : List α} {s s' : σ} (hs : P s)
    (h : as.foldlM step s = some s') : P s' := by
  induction as generalizing s with
  | nil =>
    simp only [List.foldlM_nil, Option.pure_def, Option.some.injEq] at h
    exact h ▸ hs
  | cons a as ih =>
    simp only [List.foldlM_cons, Option.bind_eq_bind, Option.bind_eq_some_iff] at h
    obtain ⟨next, hnext, h⟩ := h
    exact ih (hstep hs hnext) h

/-- Two runs side by side: they fail together, or what relates them behind the steps done so
far is kept. -/
theorem rel_foldlM_done {τ : Type} {R : List α → σ → τ → Prop} {step : σ → α → Option σ}
    {step' : τ → α → Option τ} {as : List α}
    (hstep : ∀ done a rest, as = done ++ a :: rest → ∀ s t, R done s t →
      Option.Rel (R (done ++ [a])) (step s a) (step' t a)) {s : σ} {t : τ} (h : R [] s t) :
    Option.Rel (R as) (as.foldlM step s) (as.foldlM step' t) := by
  have hrun : ∀ rest done s t, as = done ++ rest → R done s t →
      Option.Rel (R as) (rest.foldlM step s) (rest.foldlM step' t) := by
    intro rest
    induction rest with
    | nil =>
      intro done s t has h
      rw [List.append_nil] at has
      exact .some (has ▸ h)
    | cons a rest ih =>
      intro done s t has h
      rw [List.foldlM_cons, List.foldlM_cons]
      have hfirst := hstep done a rest has s t h
      generalize step s a = next at hfirst
      generalize step' t a = next' at hfirst
      cases hfirst with
      | some hnext => exact ih (done ++ [a]) _ _ (by rw [has, List.append_assoc]; rfl) hnext
      | none => exact .none
  exact hrun as [] s t rfl h

/-- The rule for a relation that does not depend on the steps done so far. -/
theorem rel_foldlM {τ : Type} {R : σ → τ → Prop} {step : σ → α → Option σ}
    {step' : τ → α → Option τ} {as : List α}
    (hstep : ∀ a ∈ as, ∀ s t, R s t → Option.Rel R (step s a) (step' t a)) {s : σ} {t : τ}
    (h : R s t) : Option.Rel R (as.foldlM step s) (as.foldlM step' t) := by
  refine rel_foldlM_done (R := fun _ => R) (fun done a rest has => ?_) h
  exact hstep a (by rw [has]; exact List.mem_append_right done List.mem_cons_self)

/-- A run whose steps all have an image has one. -/
theorem foldlM_image {τ : Type} {step : σ → α → Option σ} {step' : τ → α → Option τ} {g : σ → τ}
    (P : σ → Prop)
    (hstep : ∀ {s a s'}, P s → step s a = some s' → step' (g s) a = some (g s') ∧ P s')
    {as : List α} {s s' : σ} (hs : P s) (h : as.foldlM step s = some s') :
    as.foldlM step' (g s) = some (g s') ∧ P s' := by
  induction as generalizing s with
  | nil =>
    simp only [List.foldlM_nil, Option.pure_def, Option.some.injEq] at h
    subst h
    exact ⟨rfl, hs⟩
  | cons a as ih =>
    simp only [List.foldlM_cons, Option.bind_eq_bind, Option.bind_eq_some_iff] at h
    obtain ⟨next, hnext, h⟩ := h
    obtain ⟨himage, hnext⟩ := hstep hs hnext
    obtain ⟨hrest, hs'⟩ := ih hnext h
    exact ⟨bind_eq_of_eq_some himage hrest, hs'⟩

theorem foldl_invariant {step : σ → α → σ} (P : σ → Prop) (hstep : ∀ {s} a, P s → P (step s a))
    (as : List α) {s : σ} (hs : P s) : P (as.foldl step s) := by
  induction as generalizing s with
  | nil => exact hs
  | cons a as ih => exact ih (hstep a hs)

/-- The search of a list that has one element with the property. -/
theorem find?_eq_some_of_unique {p : α → Bool} {l : List α} {a : α} (ha : a ∈ l)
    (hp : p a = true) (hunique : ∀ b ∈ l, p b = true → b = a) : l.find? p = some a := by
  cases h : l.find? p with
  | none => exact absurd hp (by simpa using List.find?_eq_none.mp h a ha)
  | some b => rw [hunique b (List.mem_of_find?_eq_some h) (List.find?_some h)]

/-! ## Weakest preconditions -/

def Outcome (Q : ε → Prop) (P : α → Prop) : Except ε α → Prop
  | .ok a => P a
  | .error e => Q e

variable {Q : ε → Prop} {P : α → Prop}

@[simp] theorem outcome_ok {a : α} : Outcome Q P (.ok a) ↔ P a := Iff.rfl

@[simp] theorem outcome_pure {a : α} : Outcome Q P (pure a) ↔ P a := Iff.rfl

@[simp] theorem outcome_error {e : ε} : Outcome Q P (.error e) ↔ Q e := Iff.rfl

@[simp] theorem outcome_bind {P : β → Prop} {x : Except ε α} {f : α → Except ε β} :
    Outcome Q P (x >>= f) ↔ Outcome Q (fun a => Outcome Q P (f a)) x := by
  cases x <;> rfl

@[simp] theorem outcome_ite {p : Prop} [Decidable p] {x y : Except ε α} :
    Outcome Q P (if p then x else y) ↔ (p → Outcome Q P x) ∧ (¬ p → Outcome Q P y) := by
  by_cases h : p <;> simp [h]

theorem Outcome.mono {P' : α → Prop} {x : Except ε α} (h : Outcome Q P x)
    (hP : ∀ a, P a → P' a) : Outcome Q P' x := by
  cases x with
  | error e => exact h
  | ok a => exact hP a h

theorem bind_eq_ok_iff {x : Except ε α} {f : α → Except ε β} {b : β} :
    x >>= f = .ok b ↔ ∃ a, x = .ok a ∧ f a = .ok b := by
  cases x with
  | error e =>
    constructor
    · intro h
      cases h
    · intro h
      obtain ⟨a, h, -⟩ := h
      cases h
  | ok a =>
    constructor
    · exact fun h => ⟨a, rfl, h⟩
    · intro h
      obtain ⟨a', h, hf⟩ := h
      cases h
      exact hf

theorem bind_eq_of_eq_ok {x : Except ε α} {a : α} {f : α → Except ε β} {r : Except ε β}
    (h : x = .ok a) (hf : f a = r) : x >>= f = r := by
  rw [h]
  exact hf

/-- What is proved of the result alone. -/
theorem outcome_bind_of_ok {P : β → Prop} {x : Except ε α} {f : α → Except ε β}
    (h : ∀ a, x = .ok a → Outcome (fun _ => True) P (f a)) :
    Outcome (fun _ => True) P (x >>= f) := by
  cases x with
  | error e => trivial
  | ok a => exact h a rfl

end Machine
