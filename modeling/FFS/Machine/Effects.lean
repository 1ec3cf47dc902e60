import Mathlib.Order.Defs.Unbundled

/-!
# Effects of fallible steps

A step goes from a state to a state and a result, or fails.  Where every step leads upwards in some
order, a run has no effect just when none of its steps has one.  `Effect` says both of a step: that
it leads upwards, and when it leads back to where it began.
-/

namespace Machine

variable {σ β γ : Type}

def Effect (r : σ → σ → Prop) (s : σ) (x : Option (σ × β)) (Q : Prop) : Prop :=
  ∀ s' b, x = some (s', b) → r s s' ∧ (r s' s ↔ Q)

section

variable {r : σ → σ → Prop} {s s₁ : σ} {x : Option (σ × β)} {Q Q' : Prop}

theorem effect_none (Q : Prop) : Effect r s (none : Option (σ × β)) Q := by
  intro s' b h
  cases h

theorem effect_some (h : r s s₁) (b : β) : Effect r s (some (s₁, b)) (r s₁ s) := by
  intro s' b' heq
  obtain ⟨rfl, rfl⟩ := Prod.mk.inj (Option.some.inj heq)
  exact ⟨h, Iff.rfl⟩

theorem Effect.congr (h : Effect r s x Q) (hQ : Q ↔ Q') : Effect r s x Q' := fun s' b hx =>
  ⟨(h s' b hx).1, (h s' b hx).2.trans hQ⟩

theorem effect_pure [Std.Refl r] (s : σ) (b : β) : Effect r s (some (s, b)) True :=
  (effect_some (Std.Refl.refl s) b).congr (iff_true_intro (Std.Refl.refl s))

variable [IsTrans σ r]

/-- A step in front of another one. -/
theorem Effect.after (h : Effect r s₁ x Q) (hs : r s s₁) : Effect r s x (r s₁ s ∧ Q) := by
  intro s' b hx
  obtain ⟨hup, hback⟩ := h s' b hx
  refine ⟨IsTrans.trans _ _ _ hs hup, ?_⟩
  rw [← hback]
  constructor
  · intro hdown
    exact ⟨IsTrans.trans _ _ _ hup hdown, IsTrans.trans _ _ _ hdown hs⟩
  · rintro ⟨hfirst, hsecond⟩
    exact IsTrans.trans _ _ _ hsecond hfirst

theorem Effect.bind {k : σ × β → Option (σ × γ)} {P : σ → β → Prop} (h : Effect r s x Q)
    (hk : ∀ s₁ b, x = some (s₁, b) → Effect r s₁ (k (s₁, b)) (P s₁ b)) :
    Effect r s (x >>= k) (Q ∧ ∀ s₁ b, x = some (s₁, b) → P s₁ b) := by
  intro s' c hc
  obtain ⟨⟨s₁, b⟩, hx, hkx⟩ := Option.bind_eq_some_iff.1 hc
  obtain ⟨hup, hback⟩ := h s₁ b hx
  obtain ⟨hup', hback'⟩ := ((hk s₁ b hx).after hup) s' c hkx
  refine ⟨hup', ?_⟩
  rw [hback', hback]
  refine and_congr_right fun _ => ⟨fun hP s₂ b' hx' => ?_, fun hP => hP s₁ b hx⟩
  obtain ⟨rfl, rfl⟩ := Prod.mk.inj (Option.some.inj (hx.symm.trans hx'))
  exact hP

end

end Machine
