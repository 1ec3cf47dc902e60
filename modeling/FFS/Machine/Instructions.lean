import FFS.Machine.Integers
import Mathlib.Logic.Relation
import Mathlib.Logic.Function.Basic

/-!
# A register machine

Instructions on typed integer registers, with labels.  An instruction reads a register at its
type, that is, the low bits, and writes a value of its type.  A configuration has the code that
remains, which is a suffix of the program, and a jump goes to the code behind its label.
-/

namespace Machine

inductive Compare where
  | eq | ne | lt | le | gt | ge
  deriving DecidableEq, Repr

def Compare.holds : Compare → Int → Int → Bool
  | eq, x, y => x == y
  | ne, x, y => x != y
  | lt, x, y => decide (x < y)
  | le, x, y => decide (x ≤ y)
  | gt, x, y => decide (y < x)
  | ge, x, y => decide (y ≤ x)

variable {R L : Type}

inductive Insn (R L : Type) where
  | set (t : IntType) (dest : R) (imm : Int)
  | mov (t : IntType) (dest src : R)
  | arith (op : ArithOp) (t : IntType) (dest left right : R)
  | arithi (op : ArithOp) (t : IntType) (dest left : R) (imm : Int)
  | cv (source target : IntType) (dest src : R)
  | br (op : Compare) (t : IntType) (left right : R) (target : L)
  | bri (op : Compare) (t : IntType) (left : R) (imm : Int) (target : L)
  | jump (target : L)
  | mark (label : L)
  | ret (t : IntType) (src : R)
  | reti (imm : Int)

inductive Config (R L : Type) where
  | at (rest : List (Insn R L)) (regs : R → Int)
  | returned (value : Int) (regs : R → Int)

/-! ## Labels -/

variable [DecidableEq L]

/-- The code behind a label. -/
def findLabel (l : L) : List (Insn R L) → Option (List (Insn R L))
  | [] => none
  | .mark l' :: rest => if l' = l then some rest else findLabel l rest
  | _ :: rest => findLabel l rest

/-- The number of marks of a label. -/
def marks (l : L) : List (Insn R L) → Nat
  | [] => 0
  | .mark l' :: rest => (if l' = l then 1 else 0) + marks l rest
  | _ :: rest => marks l rest

theorem marks_append (l : L) (code rest : List (Insn R L)) :
    marks l (code ++ rest) = marks l code + marks l rest := by
  induction code with
  | nil => exact (Nat.zero_add _).symm
  | cons i code ih =>
    cases i with
    | mark l' =>
      show (if l' = l then 1 else 0) + marks l (code ++ rest) = _
      rw [ih, ← Nat.add_assoc]
      rfl
    | _ => exact ih

theorem findLabel_append {l : L} {code : List (Insn R L)} (h : marks l code = 0)
    (rest : List (Insn R L)) : findLabel l (code ++ rest) = findLabel l rest := by
  induction code with
  | nil => rfl
  | cons i code ih =>
    cases i with
    | mark l' =>
      by_cases heq : l' = l
      · exfalso
        have hone : (if l' = l then 1 else 0) + marks l code = 0 := h
        rw [if_pos heq] at hone
        omega
      · have htail : (if l' = l then 1 else 0) + marks l code = 0 := h
        rw [if_neg heq, Nat.zero_add] at htail
        show (if l' = l then some (code ++ rest) else findLabel l (code ++ rest)) = _
        rw [if_neg heq]
        exact ih htail
    | _ => exact ih h

/-- A label that is marked once is where the mark is. -/
theorem findLabel_of_suffix {l : L} {rest prog : List (Insn R L)}
    (h : .mark l :: rest <:+ prog) (hone : marks l prog ≤ 1) : findLabel l prog = some rest := by
  obtain ⟨before, rfl⟩ := h
  have hmark : marks l (.mark l :: rest) = 1 + marks l rest := by
    show (if l = l then 1 else 0) + marks l rest = _
    rw [if_pos rfl]
  rw [marks_append, hmark] at hone
  rw [findLabel_append (by omega)]
  show (if l = l then some rest else _) = _
  rw [if_pos rfl]

/-! ## Steps -/

variable [DecidableEq R]

/-- A branch. -/
def goOn (prog : List (Insn R L)) (taken : Bool) (target : L) (rest : List (Insn R L))
    (regs : R → Int) : Option (Config R L) :=
  if taken then (findLabel target prog).map fun code => .at code regs else some (.at rest regs)

def step (prog : List (Insn R L)) : Config R L → Option (Config R L)
  | .at [] _ => none
  | .at (.set t dest imm :: rest) regs =>
    some (.at rest (Function.update regs dest (t.wrap imm)))
  | .at (.mov t dest src :: rest) regs =>
    some (.at rest (Function.update regs dest (t.wrap (regs src))))
  | .at (.arith op t dest left right :: rest) regs =>
    (op.machine t (t.wrap (regs left)) (t.wrap (regs right))).map fun v =>
      .at rest (Function.update regs dest v)
  | .at (.arithi op t dest left imm :: rest) regs =>
    (op.machine t (t.wrap (regs left)) (t.wrap imm)).map fun v =>
      .at rest (Function.update regs dest v)
  | .at (.cv source target dest src :: rest) regs =>
    some (.at rest (Function.update regs dest (target.wrap (source.wrap (regs src)))))
  | .at (.br op t left right target :: rest) regs =>
    goOn prog (op.holds (t.wrap (regs left)) (t.wrap (regs right))) target rest regs
  | .at (.bri op t left imm target :: rest) regs =>
    goOn prog (op.holds (t.wrap (regs left)) (t.wrap imm)) target rest regs
  | .at (.jump target :: _) regs => (findLabel target prog).map fun code => .at code regs
  | .at (.mark _ :: rest) regs => some (.at rest regs)
  | .at (.ret t src :: _) regs => some (.returned (t.wrap (regs src)) regs)
  | .at (.reti imm :: _) regs => some (.returned imm regs)
  | .returned _ _ => none

/-- Zero or more steps. -/
def Steps (prog : List (Insn R L)) : Config R L → Config R L → Prop :=
  Relation.ReflTransGen fun a b => step prog a = some b

/-- A run from `a` comes by a configuration with `P`. -/
def Reaches (prog : List (Insn R L)) (a : Config R L) (P : Config R L → Prop) : Prop :=
  ∃ b, Steps prog a b ∧ P b

/-- A number of steps. -/
def stepsFor {α : Type} (next : α → Option α) : Nat → α → Option α
  | 0, a => some a
  | n + 1, a => (next a).bind (stepsFor next n)

theorem reflTransGen_of_stepsFor {α : Type} {next : α → Option α} {n : Nat} {a b : α}
    (h : stepsFor next n a = some b) : Relation.ReflTransGen (fun a b => next a = some b) a b := by
  induction n generalizing a with
  | zero => exact Option.some.inj h ▸ .refl
  | succ n ih =>
    obtain ⟨c, hnext, hrest⟩ := Option.bind_eq_some_iff.mp h
    exact .head hnext (ih hrest)

/-- The machine returns once. -/
theorem eq_of_returned {prog : List (Insn R L)} {a b : Config R L} {v : Int} {regs : R → Int}
    (h : Steps prog a (.returned v regs)) (h' : Steps prog a b)
    (hb : ∃ w regs', b = .returned w regs') : b = .returned v regs := by
  have hunique : Relator.RightUnique fun a b : Config R L => step prog a = some b := by
    intro x y z hy hz
    exact Option.some.inj (hy.symm.trans hz)
  have hstuck : ∀ w regs' c, Steps prog (.returned w regs') c → c = .returned w regs' := by
    intro w regs' c hsteps
    cases hsteps.cases_head with
    | inl heq => exact heq.symm
    | inr hnext =>
      obtain ⟨d, hd, -⟩ := hnext
      cases hd
  obtain ⟨w, regs', rfl⟩ := hb
  cases Relation.ReflTransGen.total_of_right_unique hunique h h' with
  | inl hsteps => exact hstuck _ _ _ hsteps
  | inr hsteps => exact (hstuck _ _ _ hsteps).symm

section Rules

variable {prog : List (Insn R L)} {a b : Config R L} {P Q : Config R L → Prop}

theorem Reaches.here (h : P a) : Reaches prog a P := ⟨a, .refl, h⟩

theorem Reaches.step (hstep : Machine.step prog a = some b) (h : Reaches prog b P) :
    Reaches prog a P := by
  obtain ⟨c, hsteps, hc⟩ := h
  exact ⟨c, .head hstep hsteps, hc⟩

theorem Reaches.bind (h : Reaches prog a P) (hnext : ∀ b, P b → Reaches prog b Q) :
    Reaches prog a Q := by
  obtain ⟨b, hsteps, hb⟩ := h
  obtain ⟨c, hsteps', hc⟩ := hnext b hb
  exact ⟨c, hsteps.trans hsteps', hc⟩

theorem Reaches.mono (h : Reaches prog a P) (himp : ∀ b, P b → Q b) : Reaches prog a Q := by
  obtain ⟨b, hsteps, hb⟩ := h
  exact ⟨b, hsteps, himp b hb⟩

end Rules

end Machine
