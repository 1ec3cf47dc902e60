import FFS.Machine.Fallible

/-!
# Runs of a system

A system takes a step for each event, and a step that has no result ends the run for good.
The conditions on a run are conditions on each event in the state that it meets.
-/

namespace Machine

variable {σ ε : Type}

/-- The state behind a list of events. -/
def run (step : σ → ε → Option σ) (s : σ) (events : List ε) : Option σ := events.foldlM step s

@[simp] theorem run_nil (step : σ → ε → Option σ) (s : σ) : run step s [] = some s := rfl

theorem run_cons {step : σ → ε → Option σ} {s s' : σ} {e : ε} (events : List ε)
    (h : step s e = some s') : run step s (e :: events) = run step s' events := by
  rw [run, List.foldlM_cons, h]
  rfl

/-- Every event of a run meets a condition in the state in which it happens. -/
def RunMeets (step : σ → ε → Option σ) (condition : σ → ε → Prop) : σ → List ε → Prop
  | _, [] => True
  | s, e :: events => condition s e ∧ ∀ s', step s e = some s' → RunMeets step condition s' events

instance decidableRunMeets (step : σ → ε → Option σ) (condition : σ → ε → Prop)
    [∀ s e, Decidable (condition s e)] :
    (s : σ) → (events : List ε) → Decidable (RunMeets step condition s events)
  | _, [] => isTrue trivial
  | s, e :: events =>
    have := fun s' => decidableRunMeets step condition s' events
    decidable_of_iff (condition s e ∧ ∀ s' ∈ step s e, RunMeets step condition s' events) Iff.rfl

theorem runMeets_of_forall {step : σ → ε → Option σ} {condition : ε → Prop} {s : σ}
    {events : List ε} (h : ∀ e ∈ events, condition e) :
    RunMeets step (fun _ e => condition e) s events := by
  induction events generalizing s with
  | nil => trivial
  | cons e events ih =>
    exact ⟨h e List.mem_cons_self, fun s' _ => ih fun a ha => h a (List.mem_cons_of_mem _ ha)⟩

theorem runMeets_left {step : σ → ε → Option σ} {condition : σ → ε → Prop} {s : σ}
    {events events' : List ε} (h : RunMeets step condition s (events ++ events')) :
    RunMeets step condition s events := by
  induction events generalizing s with
  | nil => trivial
  | cons e events ih => exact ⟨h.1, fun s' hs' => ih (h.2 s' hs')⟩

theorem runMeets_append {step : σ → ε → Option σ} {condition : σ → ε → Prop} {s s' : σ}
    {events events' : List ε} (h : RunMeets step condition s (events ++ events'))
    (hrun : run step s events = some s') :
    RunMeets step condition s events ∧ RunMeets step condition s' events' := by
  induction events generalizing s with
  | nil =>
    cases hrun
    exact ⟨trivial, h⟩
  | cons e events ih =>
    obtain ⟨hcondition, hrest⟩ := h
    rw [run, List.foldlM_cons, Option.bind_eq_bind, Option.bind_eq_some_iff] at hrun
    obtain ⟨next, hnext, hrun⟩ := hrun
    obtain ⟨hbefore, hbehind⟩ := ih (hrest next hnext) hrun
    refine ⟨⟨hcondition, fun s' hs' => ?_⟩, hbehind⟩
    cases hs'.symm.trans hnext
    exact hbefore

/-- A run whose events meet the condition goes through and keeps what each step keeps. -/
theorem run_invariant {step : σ → ε → Option σ} {condition : σ → ε → Prop} (Inv : σ → Prop)
    (hstep : ∀ s e, Inv s → condition s e → ∃ s', step s e = some s' ∧ Inv s') {s : σ}
    {events : List ε} (hs : Inv s) (hevents : RunMeets step condition s events) :
    ∃ s', run step s events = some s' ∧ Inv s' := by
  induction events generalizing s with
  | nil => exact ⟨s, rfl, hs⟩
  | cons e events ih =>
    obtain ⟨hcondition, hrest⟩ := hevents
    obtain ⟨s', hs', hinv⟩ := hstep s e hs hcondition
    rw [run_cons events hs']
    exact ih hinv (hrest s' hs')

/-- A condition that says exactly which steps go well says exactly which runs do. -/
theorem runMeets_iff {step : σ → ε → Option σ} {condition : σ → ε → Prop} {good : σ → Prop}
    (Inv : σ → Prop)
    (hcondition : ∀ s e, Inv s → (condition s e ↔ ∃ s', step s e = some s' ∧ good s'))
    (hstep : ∀ {s e s'}, Inv s → step s e = some s' → good s' → Inv s')
    (hgood : ∀ {s}, Inv s → good s) {s : σ} {events : List ε} (hs : Inv s) :
    (∀ front, front <+: events → ∃ s', run step s front = some s' ∧ good s') ↔
      RunMeets step condition s events := by
  induction events generalizing s with
  | nil =>
    constructor
    · intro _
      trivial
    · intro _ front hfront
      rw [List.prefix_nil.mp hfront]
      exact ⟨s, rfl, hgood hs⟩
  | cons e events ih =>
    constructor
    · intro h
      have hfirst : ∃ s', step s e = some s' ∧ good s' := by
        obtain ⟨s', hs', hgood'⟩ := h [e] ⟨events, rfl⟩
        rw [run, List.foldlM_cons, Option.bind_eq_bind, Option.bind_eq_some_iff] at hs'
        obtain ⟨s'', hs'', hrest⟩ := hs'
        cases hrest
        exact ⟨_, hs'', hgood'⟩
      refine ⟨(hcondition s e hs).mpr hfirst, fun s' hs' => ?_⟩
      obtain ⟨s'', hs'', hgood'⟩ := hfirst
      cases hs'.symm.trans hs''
      refine (ih (hstep hs hs' hgood')).mp fun front hfront => ?_
      rw [← run_cons front hs']
      exact h (e :: front) (List.cons_prefix_cons.mpr ⟨rfl, hfront⟩)
    · intro hmeets front hfront
      obtain ⟨hfirst, hrest⟩ := hmeets
      obtain ⟨s', hs', hgood'⟩ := (hcondition s e hs).mp hfirst
      cases front with
      | nil => exact ⟨s, rfl, hgood hs⟩
      | cons e' front =>
        obtain ⟨rfl, hshared⟩ := List.cons_prefix_cons.mp hfront
        rw [run_cons front hs']
        exact (ih (hstep hs hs' hgood')).mpr (hrest s' hs') front hshared

/-- Two conditions that agree in every state of a run. -/
theorem runMeets_congr {step : σ → ε → Option σ} {condition condition' : σ → ε → Prop}
    (Inv : σ → Prop) (hcondition : ∀ s e, Inv s → (condition s e ↔ condition' s e))
    (hstep : ∀ s e s', Inv s → condition' s e → step s e = some s' → Inv s') {s : σ}
    {events : List ε} (hs : Inv s) :
    RunMeets step condition s events ↔ RunMeets step condition' s events := by
  induction events generalizing s with
  | nil => exact Iff.rfl
  | cons e events ih =>
    constructor
    · rintro ⟨hfirst, hrest⟩
      have hfirst' := (hcondition s e hs).mp hfirst
      exact ⟨hfirst', fun s' hs' => (ih (hstep s e s' hs hfirst' hs')).mp (hrest s' hs')⟩
    · rintro ⟨hfirst, hrest⟩
      refine ⟨(hcondition s e hs).mpr hfirst, fun s' hs' => ?_⟩
      exact (ih (hstep s e s' hs hfirst hs')).mpr (hrest s' hs')

/-! ## Counting loops -/

/-- `for (; more(i); i++) step(i)`, with the count it ends at. -/
def forWhile (more : σ → Nat → Bool) (step : σ → Nat → σ) : Nat → σ → Nat → Option (σ × Nat)
  | 0, _, _ => none
  | fuel + 1, s, i => if more s i then forWhile more step fuel (step s i) (i + 1) else some (s, i)

/-- A loop that ends at `n` has there what each round keeps. -/
theorem forWhile_spec {more : σ → Nat → Bool} {step : σ → Nat → σ} {n : Nat}
    (Inv : Nat → σ → Prop) (hmore : ∀ i < n, ∀ s, Inv i s → more s i = true)
    (hstep : ∀ i < n, ∀ s, Inv i s → Inv (i + 1) (step s i))
    (hlast : ∀ s, Inv n s → more s n = false) {fuel i : Nat} {s : σ} (hi : i ≤ n)
    (hfuel : n - i < fuel) (h : Inv i s) :
    ∃ s', forWhile more step fuel s i = some (s', n) ∧ Inv n s' := by
  induction fuel generalizing i s with
  | zero => omega
  | succ fuel ih =>
    rw [forWhile]
    by_cases hin : i < n
    · rw [if_pos (hmore i hin s h)]
      exact ih hin (by omega) (hstep i hin s h)
    · have hend : i = n := by omega
      subst hend
      rw [hlast s h]
      exact ⟨s, rfl, h⟩

end Machine
