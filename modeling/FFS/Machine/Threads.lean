import Mathlib.Data.List.Forall2

/-!
# Lists worked through with a state

A step takes an element and a state to a result and the next state, or fails.  Where two steps
with enough fuel agree on related states, two runs over the same list do.
-/

namespace Machine

variable {α β γ σ τ : Type}

/-- The results of a list of steps, each from the state that the one before left. -/
def threaded (f : α → σ → Option (β × σ)) : List α → σ → Option (List β × σ)
  | [], s => some ([], s)
  | a :: as, s => do
    let (b, s) ← f a s
    let (bs, s) ← threaded f as s
    return (b :: bs, s)

theorem threaded_cons_eq {f : α → σ → Option (β × σ)} {a : α} {as : List α} {s s₁ s₂ : σ} {b : β}
    {bs : List β} (h : f a s = some (b, s₁)) (hs : threaded f as s₁ = some (bs, s₂)) :
    threaded f (a :: as) s = some (b :: bs, s₂) := by
  simp only [threaded, h, hs, Option.bind_eq_bind, Option.bind_some, Option.pure_def]

theorem threaded_cons_inv {f : α → σ → Option (β × σ)} {a : α} {as : List α} {s s₂ : σ}
    {results : List β} (h : threaded f (a :: as) s = some (results, s₂)) :
    ∃ b s₁ bs, f a s = some (b, s₁) ∧ threaded f as s₁ = some (bs, s₂) ∧ results = b :: bs := by
  simp only [threaded, Option.bind_eq_bind, Option.bind_eq_some_iff, Option.pure_def,
    Option.some.injEq] at h
  obtain ⟨⟨b, s₁⟩, hb, ⟨bs, s₂⟩, hbs, heq⟩ := h
  cases heq
  exact ⟨b, s₁, bs, hb, hbs, rfl⟩

theorem threaded_congr {f g : α → σ → Option (β × σ)} {as : List α}
    (h : ∀ a ∈ as, ∀ s, f a s = g a s) (s : σ) : threaded f as s = threaded g as s := by
  induction as generalizing s with
  | nil => rfl
  | cons a as ih =>
    simp only [threaded, h a List.mem_cons_self s,
      fun s => ih (fun a ha => h a (List.mem_cons_of_mem _ ha)) s]

/-- Steps that have the same results on related states make a run with the same results. -/
theorem threaded_related {f : α → σ → Option (β × σ)} {g : α → τ → Option (β × τ)}
    {R : σ → τ → Prop} {as : List α}
    (h : ∀ a ∈ as, ∀ s t b s', R s t → f a s = some (b, s') → ∃ t', g a t = some (b, t') ∧ R s' t')
    {s s' : σ} {t : τ} {bs : List β} (hst : R s t) (hrun : threaded f as s = some (bs, s')) :
    ∃ t', threaded g as t = some (bs, t') ∧ R s' t' := by
  induction as generalizing s t bs with
  | nil =>
    cases hrun
    exact ⟨t, rfl, hst⟩
  | cons a as ih =>
    obtain ⟨b, s₁, bs, hb, hbs, rfl⟩ := threaded_cons_inv hrun
    obtain ⟨t₁, hb', hst₁⟩ := h a List.mem_cons_self s t b s₁ hst hb
    obtain ⟨t₂, hbs', hst₂⟩ := ih (fun a ha => h a (List.mem_cons_of_mem _ ha)) hst₁ hbs
    exact ⟨t₂, threaded_cons_eq hb' hbs', hst₂⟩

/-- A step that has a result more often makes a run that has. -/
theorem threaded_mono {f g : α → σ → Option (β × σ)}
    (h : ∀ a s r, f a s = some r → g a s = some r) {as : List α} {s : σ} {r : List β × σ}
    (hr : threaded f as s = some r) : threaded g as s = some r := by
  induction as generalizing s r with
  | nil => exact hr
  | cons a as ih =>
    simp only [threaded, Option.bind_eq_bind, Option.bind_eq_some_iff, Option.pure_def,
      Option.some.injEq] at hr
    obtain ⟨⟨b, s₁⟩, hb, ⟨bs, s₂⟩, hbs, rfl⟩ := hr
    exact threaded_cons_eq (h a s _ hb) (ih hbs)

/-- An element of the left list is related to one of the right. -/
theorem forall₂_left {R : α → β → Prop} {as : List α} {bs : List β}
    (h : List.Forall₂ R as bs) : ∀ a ∈ as, ∃ b ∈ bs, R a b := by
  induction h with
  | nil => exact fun a ha => absurd ha List.not_mem_nil
  | cons hab _ ih =>
    intro a ha
    rcases List.mem_cons.mp ha with rfl | ha
    · exact ⟨_, List.mem_cons_self, hab⟩
    · obtain ⟨b, hb, hr⟩ := ih a ha
      exact ⟨b, List.mem_cons_of_mem _ hb, hr⟩

/-! ### Steps with fuel -/

/-- More fuel does not change a result. -/
def Steady (f : Nat → α → σ → Option (β × σ)) : Prop :=
  ∀ n a s r, f n a s = some r → f (n + 1) a s = some r

theorem Steady.le {f : Nat → α → σ → Option (β × σ)} (h : Steady f) {n k : Nat} (hle : n ≤ k)
    {a : α} {s : σ} {r : β × σ} (hr : f n a s = some r) : f k a s = some r := by
  induction hle with
  | refl => exact hr
  | step _ ih => exact h _ a s r ih

theorem Steady.at {f : Nat → α → σ → Option (β × σ)} (h : Steady f) (place : γ → α) :
    Steady fun n c => f n (place c) :=
  fun n c => h n (place c)

variable {f : Nat → α → σ → Option (β × σ)} {g : Nat → α → τ → Option (γ × τ)}
  {R : σ → τ → Prop} {Q : β → γ → Prop}

/-- From two states, both steps have related results and leave related states. -/
def AgreeFrom (f : Nat → α → σ → Option (β × σ)) (g : Nat → α → τ → Option (γ × τ))
    (R : σ → τ → Prop) (Q : β → γ → Prop) (a : α) (s : σ) (t : τ) : Prop :=
  ∃ n b s' c t', f n a s = some (b, s') ∧ g n a t = some (c, t') ∧ Q b c ∧ R s' t'

/-- Two runs over a list agree when the steps on its elements do, each from the state to which the
second run has come in front of the element. -/
theorem agreeFrom_threaded (hf : Steady f) (hg : Steady g) {as : List α} {s : σ} {t : τ}
    (hst : R s t)
    (h : ∀ before a after, as = before ++ a :: after → ∀ n cs s₁ t₁, R s₁ t₁ →
      threaded (g n) before t = some (cs, t₁) → AgreeFrom f g R Q a s₁ t₁) :
    AgreeFrom (fun n => threaded (f n)) (fun n => threaded (g n)) R (List.Forall₂ Q) as s t := by
  induction as generalizing s t with
  | nil => exact ⟨0, [], s, [], t, rfl, rfl, .nil, hst⟩
  | cons a as ih =>
    obtain ⟨n, b, s₁, c, t₁, hb, hc, hbc, hst₁⟩ := h [] a as rfl 0 [] s t hst rfl
    obtain ⟨k, bs, s₂, cs, t₂, hbs, hcs, hbcs, hst₂⟩ := ih hst₁ fun before a' after heq m ds s₂ t₂
        hst₂ hrun => by
      refine h (a :: before) a' after (by rw [heq]; rfl) (max n m) (c :: ds) s₂ t₂ hst₂ ?_
      exact threaded_cons_eq (hg.le (Nat.le_max_left n m) hc)
        (threaded_mono (fun _ _ _ => hg.le (Nat.le_max_right n m)) hrun)
    refine ⟨max n k, b :: bs, s₂, c :: cs, t₂, ?_, ?_, .cons hbc hbcs, hst₂⟩
    · exact threaded_cons_eq (hf.le (Nat.le_max_left n k) hb)
        (threaded_mono (fun _ _ _ => hf.le (Nat.le_max_right n k)) hbs)
    · exact threaded_cons_eq (hg.le (Nat.le_max_left n k) hc)
        (threaded_mono (fun _ _ _ => hg.le (Nat.le_max_right n k)) hcs)

end Machine
