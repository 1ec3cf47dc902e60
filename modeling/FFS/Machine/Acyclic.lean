import Mathlib.Data.Finset.Basic
import Mathlib.Data.Fintype.EquivFin
import Mathlib.Logic.Relation
import Mathlib.Order.WellFounded

/-!
# Recursion over a graph

A function that calls itself for every node that a node sees ends just when no node it comes to
leads back to itself.  `Acyclic` says so, and in a finite graph it gives the induction that a
proof about such a function needs.
-/

namespace Machine

open Relation

variable {α : Type*} {sees : α → α → Prop} {a b : α}

/-- No node that `a` leads to leads back to itself. -/
def Acyclic (sees : α → α → Prop) (a : α) : Prop :=
  ∀ b, ReflTransGen sees a b → ¬ TransGen sees b b

/-- The induction along what a node sees. -/
theorem acc_of_acyclic {nodes : Finset α} (hclosed : ∀ x ∈ nodes, ∀ y, sees x y → y ∈ nodes)
    (ha : a ∈ nodes) (h : Acyclic sees a) : Acc (fun x y => sees y x) a := by
  have hreached : ∀ b, ReflTransGen sees a b → b ∈ nodes := by
    intro b hb
    induction hb with
    | refl => exact ha
    | tail _ hstep ih => exact hclosed _ ih _ hstep
  let Below := {b : α // ReflTransGen sees a b}
  have hfinite : Finite Below :=
    Finite.of_injective (fun b : Below => (⟨b.1, hreached b.1 b.2⟩ : nodes))
      fun x y hxy => Subtype.ext (congrArg (fun z : nodes => z.1) hxy)
  let Before (x y : Below) : Prop := TransGen sees y.1 x.1
  have htrans : IsTrans Below Before := ⟨fun x y z hxy hyz => TransGen.trans hyz hxy⟩
  have hirrefl : Std.Irrefl Before := ⟨fun x => h x.1 x.2⟩
  have hwf : WellFounded Before := Finite.wellFounded_of_trans_of_irrefl Before
  have hall : ∀ x : Below, Acc (fun x y => sees y x) x.1 := by
    intro x
    induction x using hwf.induction with
    | _ x ih =>
      refine ⟨x.1, fun y hy => ?_⟩
      exact ih ⟨y, x.2.tail hy⟩ (TransGen.single hy)
  exact hall ⟨a, ReflTransGen.refl⟩

theorem acyclic_of_acc (h : Acc (fun x y => sees y x) a) : Acyclic sees a := by
  induction h with
  | intro a _ ih =>
    intro b hab hcycle
    cases hab.cases_head with
    | inl heq =>
      -- A cycle through `a` is one through what `a` sees.
      subst heq
      obtain ⟨c, hac, hca⟩ := TransGen.head'_iff.mp hcycle
      exact ih c hac c ReflTransGen.refl (TransGen.tail' hca hac)
    | inr hstep =>
      obtain ⟨c, hac, hcb⟩ := hstep
      exact ih c hac b hcb hcycle

/-- A bound for each element gives one for all. -/
theorem exists_bound {P : α → Nat → Prop} {l : List α}
    (h : ∀ a ∈ l, ∃ n, ∀ m, n ≤ m → P a m) : ∃ n, ∀ a ∈ l, ∀ m, n ≤ m → P a m := by
  induction l with
  | nil => exact ⟨0, fun a ha => by cases ha⟩
  | cons a l ih =>
    obtain ⟨n, hn⟩ := h a List.mem_cons_self
    obtain ⟨k, hk⟩ := ih fun b hb => h b (List.mem_cons_of_mem _ hb)
    refine ⟨max n k, fun b hb m hm => ?_⟩
    cases List.mem_cons.mp hb with
    | inl heq => exact heq ▸ hn m (by omega)
    | inr hmem => exact hk b hmem m (by omega)

end Machine
