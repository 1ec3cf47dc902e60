import Mathlib.Data.List.Basic
import Mathlib.Logic.Relation
import Mathlib.Logic.Function.Iterate
import FFS.Machine.Fallible

/-!
# Flags on the nodes of a graph

A node is flagged when it is flagged on its own account or sees a flagged node.  `Leads`
says which nodes these are in the end.  A pass gives every node its flag once, in some
order; rounds repeat until nothing changes.
-/

namespace Machine

variable {α β σ : Type}

/-- The nodes that lead to one with `own`, along what they see. -/
def Leads (own : α → Prop) (sees : α → α → Prop) (a : α) : Prop :=
  ∃ b, Relation.ReflTransGen sees a b ∧ own b

theorem leads_iff {own : α → Prop} {sees : α → α → Prop} {a : α} :
    Leads own sees a ↔ own a ∨ ∃ b, sees a b ∧ Leads own sees b := by
  constructor
  · rintro ⟨c, hac, hc⟩
    rcases Relation.ReflTransGen.cases_head hac with rfl | ⟨b, hab, hbc⟩
    · exact Or.inl hc
    · exact Or.inr ⟨b, hab, c, hbc, hc⟩
  · rintro (ha | ⟨b, hab, c, hbc, hc⟩)
    · exact ⟨a, Relation.ReflTransGen.refl, ha⟩
    · exact ⟨c, Relation.ReflTransGen.head hab hbc, hc⟩

/-- Any flags that hold where they must and spread hold on all that leads there. -/
theorem Leads.flagged {own flagged : α → Prop} {sees : α → α → Prop}
    (hown : ∀ a, own a → flagged a) (hsees : ∀ a b, sees a b → flagged b → flagged a) {a : α}
    (h : Leads own sees a) : flagged a := by
  obtain ⟨b, hab, hb⟩ := h
  induction hab using Relation.ReflTransGen.head_induction_on with
  | refl => exact hown b hb
  | head hac _ ih => exact hsees _ _ hac ih

/-- Flags that have a reason each hold only on what leads to one of their own, when no node
sees itself through others. -/
theorem leads_of_flagged {own flagged : α → Prop} {sees : α → α → Prop} (rank : α → Nat)
    (hrank : ∀ a b, sees a b → rank b < rank a)
    (hreason : ∀ a, flagged a → own a ∨ ∃ b, sees a b ∧ flagged b) {a : α} (h : flagged a) :
    Leads own sees a := by
  induction hr : rank a using Nat.strongRecOn generalizing a with
  | ind r ih =>
    rw [leads_iff]
    rcases hreason a h with hown | ⟨b, hab, hb⟩
    · exact Or.inl hown
    · exact Or.inr ⟨b, hab, ih (rank b) (hr ▸ hrank a b hab) hb rfl⟩

theorem Leads.mono {own : α → Prop} {sees sees' : α → α → Prop}
    (h : ∀ a b, sees a b → sees' a b) {a : α} (ha : Leads own sees a) : Leads own sees' a := by
  obtain ⟨b, hab, hb⟩ := ha
  exact ⟨b, Relation.ReflTransGen.mono h _ _ hab, hb⟩

/-- Nodes under other names lead to what they lead to under their own. -/
theorem leads_rename {own : α → Prop} {sees : α → α → Prop} {own' : β → Prop}
    {sees' : β → β → Prop} (P : α → Prop) (rename : α → β) (hown : ∀ a, P a → (own' (rename a) ↔ own a))
    (hsees : ∀ a b, P a → (sees' (rename a) b ↔ ∃ a', P a' ∧ rename a' = b ∧ sees a a'))
    (hclosed : ∀ a a', P a → sees a a' → P a') {a : α} (ha : P a) :
    Leads own' sees' (rename a) ↔ Leads own sees a := by
  constructor
  · intro h
    have hflagged : ∀ b, Leads own' sees' b → ∀ a, P a → rename a = b → Leads own sees a := by
      intro b hb
      have hbase : ∀ b, own' b → ∀ a, P a → rename a = b → Leads own sees a := by
        rintro b hb a ha rfl
        exact ⟨a, Relation.ReflTransGen.refl, (hown a ha).mp hb⟩
      refine hb.flagged hbase ?_
      rintro b c hbc hc a ha rfl
      obtain ⟨a', ha', rfl, haa'⟩ := (hsees a c ha).mp hbc
      exact leads_iff.mpr (Or.inr ⟨a', haa', hc a' ha' rfl⟩)
    exact hflagged _ h a ha rfl
  · intro h
    have hbase : ∀ a, own a → P a → Leads own' sees' (rename a) :=
      fun a hown' ha => ⟨rename a, Relation.ReflTransGen.refl, (hown a ha).mpr hown'⟩
    refine h.flagged hbase (fun a a' haa' hleads ha => ?_) ha
    have ha' := hclosed a a' ha haa'
    exact leads_iff.mpr (Or.inr ⟨rename a', (hsees a _ ha).mpr ⟨a', ha', rfl, haa'⟩, hleads ha'⟩)

/-! ## Passes -/

/-- A pass puts in the place of each element what it makes of the list and the element. -/
def pass (gen : List β → Nat → β → Option β) (list : List β) (order : List Nat) :
    Option (List β) :=
  order.foldlM (fun l i => (l[i]?).bind fun b => (gen l i b).map (l.set i ·)) list

/-- An element was made when the elements before it in the order had their new values and the
others the old ones. -/
structure PassedAt (gen : List β → Nat → β → Option β) (list list' : List β) (before : List Nat)
    (i : Nat) : Prop where
  made : ∃ l b b', list[i]? = some b ∧ list'[i]? = some b' ∧ gen l i b = some b' ∧
    ∀ j, l[j]? = if j ∈ before then list'[j]? else list[j]?

theorem pass_spec {gen : List β → Nat → β → Option β} {list list' : List β} {order : List Nat}
    (hnodup : order.Nodup) (h : pass gen list order = some list') :
    list'.length = list.length ∧ (∀ i, i ∉ order → list'[i]? = list[i]?) ∧
      ∀ before i behind, order = before ++ i :: behind → PassedAt gen list list' before i := by
  induction order generalizing list with
  | nil =>
    simp only [pass, List.foldlM_nil, Option.pure_def, Option.some.injEq] at h
    subst h
    exact ⟨rfl, fun _ _ => rfl, fun before i behind heq => by simp at heq⟩
  | cons a order ih =>
    simp only [pass, List.foldlM_cons, Option.bind_eq_bind, Option.bind_eq_some_iff,
      Option.map_eq_some_iff] at h
    obtain ⟨next, ⟨b, hb, b', hb', rfl⟩, h⟩ := h
    obtain ⟨hnotMem, hnodup⟩ := List.nodup_cons.mp hnodup
    obtain ⟨hlength, hkept, hmade⟩ := ih hnodup h
    have hlt : a < list.length := (List.getElem?_eq_some_iff.mp hb).1
    have ha : list'[a]? = some b' := by
      rw [hkept a hnotMem, List.getElem?_set_self hlt]
    refine ⟨by rw [hlength, List.length_set], ?_, ?_⟩
    · intro i hi
      rw [List.mem_cons, not_or] at hi
      rw [hkept i hi.2, List.getElem?_set_ne (Ne.symm hi.1)]
    · intro before i behind heq
      cases before with
      | nil =>
        obtain ⟨rfl, rfl⟩ := List.cons.inj heq
        exact ⟨list, b, b', hb, ha, hb', fun j => by simp⟩
      | cons c before =>
        obtain ⟨rfl, rfl⟩ := List.cons.inj heq
        obtain ⟨l, x, x', hx, hx', hgen, hl⟩ := (hmade before i behind rfl).made
        have hne : a ≠ i := by
          rintro rfl
          exact hnotMem (by simp)
        rw [List.getElem?_set_ne hne] at hx
        refine ⟨l, x, x', hx, hx', hgen, fun j => ?_⟩
        rw [hl j]
        by_cases hj : j = a
        · subst hj
          rw [List.getElem?_set_self hlt, ha]
          simp
        · rw [List.getElem?_set_ne (Ne.symm hj)]
          simp [hj]

/-- A pass succeeds when each of its steps does, from any list that keeps an invariant. -/
theorem exists_pass {gen : List β → Nat → β → Option β} (P : List β → Prop) {order : List Nat}
    (hstep : ∀ l, P l → ∀ i ∈ order, ∃ b b', l[i]? = some b ∧ gen l i b = some b' ∧ P (l.set i b'))
    {list : List β} (hlist : P list) : ∃ list', pass gen list order = some list' ∧ P list' := by
  induction order generalizing list with
  | nil => exact ⟨list, rfl, hlist⟩
  | cons a order ih =>
    obtain ⟨b, b', hb, hb', hP⟩ := hstep list hlist a List.mem_cons_self
    obtain ⟨list', hpass, hP'⟩ :=
      ih (fun l hl i hi => hstep l hl i (List.mem_cons_of_mem _ hi)) hP
    refine ⟨list', ?_, hP'⟩
    rw [pass, List.foldlM_cons]
    refine bind_eq_of_eq_some ?_ hpass
    rw [hb, Option.bind_some, hb', Option.map_some]

/-! ## Rounds -/

/-- A step changes nothing or raises a measure. -/
def Inflates (measure : σ → Nat) (step : σ → α → σ) : Prop :=
  ∀ s a, step s a = s ∨ measure s < measure (step s a)

theorem foldl_inflates {measure : σ → Nat} {step : σ → α → σ} (h : Inflates measure step)
    (as : List α) (s : σ) :
    (as.foldl step s = s ∧ ∀ a ∈ as, step s a = s) ∨ measure s < measure (as.foldl step s) := by
  induction as generalizing s with
  | nil => exact Or.inl ⟨rfl, by simp⟩
  | cons a as ih =>
    rw [List.foldl_cons]
    rcases h s a with heq | hlt
    · rw [heq]
      rcases ih s with ⟨hfold, hall⟩ | hlt
      · exact Or.inl ⟨hfold, List.forall_mem_cons.mpr ⟨heq, hall⟩⟩
      · exact Or.inr hlt
    · rcases ih (step s a) with ⟨hfold, -⟩ | hlt'
      · exact Or.inr (by rw [hfold]; exact hlt)
      · exact Or.inr (Nat.lt_trans hlt hlt')

/-- As many rounds as the measure can rise end where nothing changes any more. -/
theorem iterate_saturated {measure : σ → Nat} {round : σ → σ} {bound : Nat}
    (hround : ∀ s, round s = s ∨ measure s < measure (round s)) {s : σ}
    (hbound : ∀ n, measure (round^[n] s) ≤ bound) : round (round^[bound] s) = round^[bound] s := by
  have hrise : ∀ n, round (round^[n] s) = round^[n] s ∨ n < measure (round^[n + 1] s) := by
    intro n
    induction n with
    | zero =>
      rcases hround s with h | h
      · exact Or.inl h
      · exact Or.inr (by simpa using Nat.zero_lt_of_lt h)
    | succ n ih =>
      rcases ih with hfix | hlt
      · refine Or.inl ?_
        rw [Function.iterate_succ_apply', hfix, hfix]
      · rcases hround (round^[n + 1] s) with hfix | hmore
        · exact Or.inl hfix
        · rw [Function.iterate_succ_apply' round (n + 1)]
          exact Or.inr (by omega)
  rcases hrise bound with hfix | hlt
  · exact hfix
  · exact absurd (hbound (bound + 1)) (by omega)

end Machine
