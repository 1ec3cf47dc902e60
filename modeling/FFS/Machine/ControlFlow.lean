import Mathlib.Data.List.Infix
import Mathlib.Logic.Relation

/-!
# Control flow through labelled code

Code is a list of instructions and a place in it is the code that remains, a suffix.  An
instruction goes on to the rest, or to the code behind one of its targets, or to neither.
-/

namespace Machine

/-- What control flow sees of an instruction. -/
structure Flow (I L : Type) where
  mark : I → Option L
  falls : I → Bool
  targets : I → List L

namespace Flow

variable {I L : Type} {flow : Flow I L}

/-- The labels that code refers to. -/
def refs (flow : Flow I L) (code : List I) : List L := code.flatMap flow.targets

theorem refs_append (xs ys : List I) : flow.refs (xs ++ ys) = flow.refs xs ++ flow.refs ys :=
  List.flatMap_append

theorem refs_cons (i : I) (rest : List I) :
    flow.refs (i :: rest) = flow.targets i ++ flow.refs rest := rfl

variable [DecidableEq L]

/-- The code behind a label. -/
def behind (flow : Flow I L) (l : L) : List I → Option (List I)
  | [] => none
  | i :: rest => if flow.mark i = some l then some rest else flow.behind l rest

inductive Goes (flow : Flow I L) (prog : List I) : List I → List I → Prop where
  | fall {i : I} {rest : List I} (h : flow.falls i = true) : Goes flow prog (i :: rest) rest
  | jump {i : I} {rest code : List I} {l : L} (h : l ∈ flow.targets i)
      (hl : flow.behind l prog = some code) : Goes flow prog (i :: rest) code

/-- The places that control flow comes to from the start. -/
def Reaches (flow : Flow I L) (prog : List I) : List I → Prop :=
  Relation.ReflTransGen (flow.Goes prog) prog

theorem behind_suffix {l : L} {prog code : List I} (h : flow.behind l prog = some code) :
    ∃ i, flow.mark i = some l ∧ i :: code <:+ prog := by
  induction prog with
  | nil => cases h
  | cons i rest ih =>
    rw [behind] at h
    split at h
    · next hmark =>
      cases h
      exact ⟨i, hmark, List.suffix_refl _⟩
    · obtain ⟨j, hmark, hsuffix⟩ := ih h
      exact ⟨j, hmark, hsuffix.trans (List.suffix_cons i rest)⟩

theorem suffix_of_reaches {prog place : List I} (h : flow.Reaches prog place) :
    place <:+ prog := by
  induction h with
  | refl => exact List.suffix_refl _
  | tail _ hgoes ih =>
    cases hgoes with
    | fall => exact (List.suffix_cons _ _).trans ih
    | jump _ hl =>
      obtain ⟨i, -, hsuffix⟩ := behind_suffix hl
      exact (List.suffix_cons i _).trans hsuffix

/-- What stands before a place is determined. -/
theorem eq_of_suffix {i j : I} {place prog : List I} (hi : i :: place <:+ prog)
    (hj : j :: place <:+ prog) : i = j := by
  have hsuffix : i :: place <:+ j :: place :=
    List.suffix_of_suffix_length_le hi hj (Nat.le_refl _)
  have heq := hsuffix.eq_of_length rfl
  exact (List.cons.inj heq).1

/-- A place behind an instruction is reached through it or through a label that stands there. -/
theorem reaches_behind {before place : List I} {i : I}
    (h : flow.Reaches (before ++ i :: place) place) :
    flow.Reaches (before ++ i :: place) (i :: place) ∧ flow.falls i = true ∨
      ∃ l j rest, flow.mark i = some l ∧ l ∈ flow.targets j ∧
        flow.Reaches (before ++ i :: place) (j :: rest) := by
  have hi : i :: place <:+ before ++ i :: place := List.suffix_append _ _
  cases h.cases_tail with
  | inl heq =>
    exfalso
    have hlength := congrArg List.length heq
    rw [List.length_append, List.length_cons] at hlength
    omega
  | inr hlast =>
    obtain ⟨q, hq, hgoes⟩ := hlast
    cases hgoes with
    | fall hfalls =>
      have heq := eq_of_suffix hi (suffix_of_reaches hq)
      subst heq
      exact .inl ⟨hq, hfalls⟩
    | jump htarget hl =>
      obtain ⟨m, hmark, hsuffix⟩ := behind_suffix hl
      have heq := eq_of_suffix hi hsuffix
      subst heq
      exact .inr ⟨_, _, _, hmark, htarget, hq⟩

omit [DecidableEq L] in
/-- Where a label is referred to once. -/
theorem eq_of_ref {before place : List I} {i j : I} {rest : List I} {l : L}
    (hbefore : l ∉ flow.refs before) (hplace : l ∉ flow.refs place)
    (hsuffix : j :: rest <:+ before ++ i :: place) (hl : l ∈ flow.targets j) :
    j :: rest = i :: place := by
  have hmem : ∀ {code : List I}, j ∈ code → l ∈ flow.refs code :=
    fun hj => List.mem_flatMap.mpr ⟨j, hj, hl⟩
  obtain ⟨front, heq⟩ := hsuffix
  induction before generalizing front with
  | nil =>
    cases front with
    | nil => exact heq
    | cons a front =>
      exfalso
      have htail : front ++ j :: rest = place := (List.cons.inj heq).2
      exact hplace (hmem (htail ▸ List.mem_append_right front List.mem_cons_self))
  | cons b before ih =>
    rw [refs_cons, List.mem_append, not_or] at hbefore
    cases front with
    | nil => exact absurd hl ((List.cons.inj heq).1 ▸ hbefore.1)
    | cons a front => exact ih hbefore.2 front (List.cons.inj heq).2

end Flow
end Machine
