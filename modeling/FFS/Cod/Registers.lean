import FFS.Cod.Meaning
import FFS.Cod.Generate
import FFS.Machine.CodeRules

/-!
# Registers and variables

The register of a declaration has the value of the variable.  Code for an expression leaves
alone what earlier code may still need: the registers given out before it, and the variables
that the expression does not write.
-/

namespace FFS
namespace Cod

open Machine

abbrev Regs := Reg → Int

/-- A variable that has a value has it in its register. -/
def Agree (σ : Store) (regs : Regs) : Prop := ∀ d v, σ.value d = some v → regs (.oprnd d) = v

theorem Agree.temp {σ : Store} {regs : Regs} (h : Agree σ regs) (n : Nat) (v : Int) :
    Agree σ (Function.update regs (.temp n) v) := by
  intro d v' hd
  rw [Function.update_of_ne (by simp)]
  exact h d v' hd

theorem Agree.set {σ : Store} {regs : Regs} (h : Agree σ regs) (d : Decl) (v : Int) :
    Agree (σ.set d v) (Function.update regs (.oprnd d) (d.cgType.wrap v)) := by
  intro d' v' hd
  by_cases heq : d' = d
  · subst heq
    have hv : Function.update σ.value d' (some (d'.cgType.wrap v)) d' = some v' := hd
    rw [Function.update_self] at hv ⊢
    exact Option.some.inj hv
  · have hv : Function.update σ.value d (some (d.cgType.wrap v)) d' = some v' := hd
    rw [Function.update_of_ne heq] at hv
    have hne : Reg.oprnd d' ≠ .oprnd d := fun h => heq (Reg.oprnd.inj h)
    rw [Function.update_of_ne hne]
    exact h d' v' hv

theorem Agree.unset {σ : Store} {regs : Regs} (h : Agree σ regs) (d : Decl) :
    Agree (σ.unset d) regs := by
  intro d' v' hd
  by_cases heq : d' = d
  · subst heq
    have hv : Function.update σ.value d' none d' = some v' := hd
    rw [Function.update_self] at hv
    cases hv
  · have hv : Function.update σ.value d none d' = some v' := hd
    rw [Function.update_of_ne heq] at hv
    exact h d' v' hv

/-- The variables have the values of `σ`, and only new registers and the variables in `writes`
were written. -/
structure Kept (c : Counts) (σ : Store) (writes : List Decl) (regs regs' : Regs) : Prop where
  agree : Agree σ regs'
  temps : ∀ n < c.regs, regs' (.temp n) = regs (.temp n)
  oprnds : ∀ d ∉ writes, regs' (.oprnd d) = regs (.oprnd d)

namespace Kept

variable {c c' : Counts} {σ σ' : Store} {writes writes' : List Decl} {regs regs' regs'' : Regs}

theorem start (h : Agree σ regs) : Kept c σ [] regs regs where
  agree := h
  temps _ _ := rfl
  oprnds _ _ := rfl

theorem temp (h : Kept c σ writes regs regs') {n : Nat} (hn : c.regs ≤ n) (v : Int) :
    Kept c σ writes regs (Function.update regs' (.temp n) v) where
  agree := h.agree.temp n v
  temps m hm := by
    have hne : Reg.temp m ≠ .temp n := fun heq => absurd (Reg.temp.inj heq) (by omega)
    rw [Function.update_of_ne hne]
    exact h.temps m hm
  oprnds d hd := by
    rw [Function.update_of_ne (by simp)]
    exact h.oprnds d hd

theorem set (h : Kept c σ writes regs regs') (d : Decl) (v : Int) :
    Kept c (σ.set d v) (d :: writes) regs
      (Function.update regs' (.oprnd d) (d.cgType.wrap v)) where
  agree := h.agree.set d v
  temps m hm := by
    rw [Function.update_of_ne (by simp)]
    exact h.temps m hm
  oprnds d' hd' := by
    have hne : Reg.oprnd d' ≠ .oprnd d := by
      intro heq
      exact hd' (Reg.oprnd.inj heq ▸ List.mem_cons_self)
    rw [Function.update_of_ne hne]
    exact h.oprnds d' fun hmem => hd' (List.mem_cons_of_mem d hmem)

theorem trans (h : Kept c σ writes regs regs') (h' : Kept c' σ' writes' regs' regs'')
    (hle : c.regs ≤ c'.regs) : Kept c σ' (writes ++ writes') regs regs'' where
  agree := h'.agree
  temps n hn := (h'.temps n (by omega)).trans (h.temps n hn)
  oprnds d hd := by
    rw [List.mem_append, not_or] at hd
    exact (h'.oprnds d hd.2).trans (h.oprnds d hd.1)

theorem weaken (h : Kept c' σ writes regs regs') (hle : c.regs ≤ c'.regs) :
    Kept c σ writes regs regs' where
  agree := h.agree
  temps n hn := h.temps n (by omega)
  oprnds := h.oprnds

end Kept

/-- Where a value may be: in a new register, or left in a variable. -/
def Held (c : Counts) (left : List Decl) (next : Counts) : Reg → Prop
  | .temp n => c.regs ≤ n ∧ n < next.regs
  | .oprnd d => d ∈ left

namespace Held

variable {c next : Counts} {left : List Decl} {reg : Reg} {n : Nat}

theorem ne_new (h : Held c left next reg) (hn : next.regs ≤ n) : reg ≠ .temp n := by
  rintro rfl
  have hlt : n < next.regs := h.2
  omega

theorem ne_old (h : Held c left next reg) (hn : n < c.regs) : reg ≠ .temp n := by
  rintro rfl
  have hle : c.regs ≤ n := h.1
  omega

theorem mono {c' next' : Counts} (h : Held c left next reg) (hc : c'.regs ≤ c.regs)
    (hnext : next.regs ≤ next'.regs) : Held c' left next' reg := by
  cases reg with
  | temp n => exact ⟨hc.trans h.1, h.2.trans_le hnext⟩
  | oprnd d => exact h

end Held

/-- What code for a value comes to: `reg` has the value, and it is a register that later code
keeps. -/
structure Computed (c : Counts) (σ : Store) (left writes : List Decl) (next : Counts)
    (reg : Reg) (v : Int) (regs regs' : Regs) : Prop extends Kept c σ writes regs regs' where
  grows : c.regs ≤ next.regs
  held : Held c left next reg
  value : regs' reg = v

/-- The value goes to a register that was got before the operands. -/
theorem Kept.result {c next : Counts} {σ : Store} {left writes : List Decl} {regs regs' : Regs}
    (h : Kept c.getReg σ writes regs regs') (hgrows : c.getReg.regs ≤ next.regs) (v : Int) :
    Computed c σ left writes next (.temp c.regs) v regs
      (Function.update regs' (.temp c.regs) v) where
  toKept := (h.weaken (Nat.le_succ _)).temp (Nat.le_refl _) v
  grows := (Nat.le_succ _).trans hgrows
  held := ⟨Nat.le_refl _, hgrows⟩
  value := Function.update_self _ _ _

/-- The code that `cg` generates computes the value `v`, with the result `a` apart from it, and
leaves the value in a new register or in one of the variables `left`. -/
def Evaluates (prog : Code) (cg : Counts → Option Operand) (left : List Decl) (σ : Store)
    (a : Result) (v : Int) : Prop :=
  ∀ c o regs, cg c = some o → Agree σ regs →
    Runs prog o.code regs (Computed c a.store left a.writes o.next o.reg v regs)

end Cod
end FFS
