import Mathlib.Data.Int.Bitwise
import Mathlib.Tactic.Ring

/-!
# C integers

The integer types of a C implementation with 32 bit `int` and 64 bit `long`, and their
arithmetic.  A value is an integer within the range of its type.  `ArithOp.c` is C's operation,
which has no result where C leaves the behaviour undefined, and `ArithOp.machine` is that of a
machine with two's complement registers.
-/

namespace Machine

inductive IntType where
  | c | uc | s | us | i | u | l | ul
  deriving DecidableEq, Repr

namespace IntType

def width : IntType → Nat
  | c | uc => 8
  | s | us => 16
  | i | u => 32
  | l | ul => 64

def signed : IntType → Bool
  | c | s | i | l => true
  | uc | us | u | ul => false

/-- The value of the low bits of `x`. -/
def wrap (t : IntType) (x : Int) : Int :=
  if t.signed then x.bmod (2 ^ t.width) else x % 2 ^ t.width

def low (t : IntType) : Int := if t.signed then -2 ^ (t.width - 1) else 0

def high (t : IntType) : Int := if t.signed then 2 ^ (t.width - 1) else 2 ^ t.width

def InRange (t : IntType) (x : Int) : Prop := t.low ≤ x ∧ x < t.high

instance (t : IntType) (x : Int) : Decidable (t.InRange x) := inferInstanceAs (Decidable (_ ∧ _))

theorem inRange_wrap (t : IntType) (x : Int) : t.InRange (t.wrap x) := by
  cases t <;> simp only [InRange, wrap, low, high, signed, width, if_true, Bool.false_eq_true,
    if_false, Int.bmod_def] <;> omega

theorem wrap_of_inRange {t : IntType} {x : Int} (h : t.InRange x) : t.wrap x = x := by
  revert h
  cases t <;> simp only [InRange, wrap, low, high, signed, width, if_true, Bool.false_eq_true,
    if_false, Int.bmod_def] <;> omega

@[simp] theorem wrap_wrap (t : IntType) (x : Int) : t.wrap (t.wrap x) = t.wrap x :=
  wrap_of_inRange (t.inRange_wrap x)

theorem wrap_emod (t : IntType) (x : Int) : t.wrap x % 2 ^ t.width = x % 2 ^ t.width := by
  cases t <;> simp only [wrap, signed, width, if_true, Bool.false_eq_true, if_false,
    Int.bmod_def] <;> omega

/-- `wrap` only looks at the low bits. -/
theorem wrap_congr {t : IntType} {x y : Int} (h : x % 2 ^ t.width = y % 2 ^ t.width) :
    t.wrap x = t.wrap y := by
  revert h
  cases t <;> simp only [wrap, signed, width, if_true, Bool.false_eq_true, if_false,
    Int.bmod_def] <;> omega

/-- A wider type keeps the low bits. -/
theorem wrap_wrap_of_le {t t' : IntType} (h : t.width ≤ t'.width) (x : Int) :
    t.wrap (t'.wrap x) = t.wrap x := by
  refine wrap_congr ?_
  have hdvd : (2 : Int) ^ t.width ∣ 2 ^ t'.width := pow_dvd_pow 2 h
  have hwide := t'.wrap_emod x
  calc t'.wrap x % 2 ^ t.width
      = t'.wrap x % 2 ^ t'.width % 2 ^ t.width := (Int.emod_emod_of_dvd _ hdvd).symm
    _ = x % 2 ^ t'.width % 2 ^ t.width := by rw [hwide]
    _ = x % 2 ^ t.width := Int.emod_emod_of_dvd _ hdvd

theorem wrap_add (t : IntType) (x y : Int) : t.wrap (t.wrap x + t.wrap y) = t.wrap (x + y) := by
  refine wrap_congr ?_
  rw [Int.add_emod, wrap_emod, wrap_emod, ← Int.add_emod]

theorem wrap_sub (t : IntType) (x y : Int) : t.wrap (t.wrap x - t.wrap y) = t.wrap (x - y) := by
  refine wrap_congr ?_
  rw [Int.sub_emod, wrap_emod, wrap_emod, ← Int.sub_emod]

theorem wrap_mul (t : IntType) (x y : Int) : t.wrap (t.wrap x * t.wrap y) = t.wrap (x * y) := by
  refine wrap_congr ?_
  rw [Int.mul_emod, wrap_emod, wrap_emod, ← Int.mul_emod]

/-- The integer promotions. -/
def promote (t : IntType) : IntType := if t.width < 32 then i else t

/-- The usual arithmetic conversions: the type that an operation is done in. -/
def usual (t t' : IntType) : IntType :=
  if t.promote.signed = t'.promote.signed then
    if t.promote.width ≤ t'.promote.width then t'.promote else t.promote
  else
    let unsigned := if t.promote.signed then t'.promote else t.promote
    let signed := if t.promote.signed then t.promote else t'.promote
    if signed.width ≤ unsigned.width then unsigned else signed

theorem width_le_promote (t : IntType) : t.width ≤ t.promote.width := by cases t <;> decide

theorem width_le_usual (t t' : IntType) : t.width ≤ (t.usual t').width := by
  cases t <;> cases t' <;> decide

@[simp] theorem promote_promote (t : IntType) : t.promote.promote = t.promote := by
  cases t <;> rfl

theorem promote_usual (t t' : IntType) : (t.usual t').promote = t.usual t' := by
  cases t <;> cases t' <;> rfl

/-- A promoted type holds what the type holds. -/
theorem inRange_promote {t : IntType} {x : Int} (h : t.InRange x) : t.promote.InRange x := by
  revert h
  cases t <;> simp only [InRange, promote, low, high, signed, width, if_true, Bool.false_eq_true,
    if_false, Nat.reduceLT] <;> omega

end IntType

/-- The operations that have a result in the type of their operands. -/
inductive ArithOp where
  | add | sub | mul | div | mod | and | or | xor | lsh | rsh
  deriving DecidableEq, Repr

namespace ArithOp

/-- Operations on bits. -/
def bits {w : Nat} (op : ArithOp) (x y : BitVec w) : BitVec w :=
  match op with
  | and => x &&& y
  | or => x ||| y
  | _ => x ^^^ y

def bitwise (op : ArithOp) (t : IntType) (x y : Int) : Int :=
  t.wrap (op.bits (BitVec.ofInt t.width x) (BitVec.ofInt t.width y)).toNat

/-- A register machine: what does not fit is cut off, a division that has no result in the type
traps, and the amount of a shift is less than the width. -/
def machine (op : ArithOp) (t : IntType) (x y : Int) : Option Int :=
  match op with
  | add => some (t.wrap (x + y))
  | sub => some (t.wrap (x - y))
  | mul => some (t.wrap (x * y))
  | div => if y = 0 ∨ ¬ t.InRange (x.tdiv y) then none else some (t.wrap (x.tdiv y))
  | mod => if y = 0 ∨ ¬ t.InRange (x.tdiv y) then none else some (t.wrap (x.tmod y))
  | and | or | xor => some (op.bitwise t x y)
  | lsh => if 0 ≤ y ∧ y < t.width then some (t.wrap (x * 2 ^ y.toNat)) else none
  | rsh => if 0 ≤ y ∧ y < t.width then some (t.wrap (x / 2 ^ y.toNat)) else none

/-- The value of a result: a signed type must hold it. -/
def exact (t : IntType) (x : Int) : Option Int :=
  if t.signed = true ∧ ¬ t.InRange x then none else some (t.wrap x)

/-- C's operation on values of a promoted type. -/
def c (op : ArithOp) (t : IntType) (x y : Int) : Option Int :=
  match op with
  | add => exact t (x + y)
  | sub => exact t (x - y)
  | mul => exact t (x * y)
  | lsh =>
    if 0 ≤ y ∧ y < t.width ∧ (t.signed = true → 0 ≤ x) then exact t (x * 2 ^ y.toNat) else none
  | _ => op.machine t x y

theorem eq_wrap_of_exact {t : IntType} {x v : Int} (h : exact t x = some v) : v = t.wrap x := by
  unfold exact at h
  split at h
  · cases h
  · exact (Option.some.inj h).symm

/-- Where C has a result, the machine has it too. -/
theorem machine_of_c {op : ArithOp} {t : IntType} {x y v : Int} (h : op.c t x y = some v) :
    op.machine t x y = some v := by
  cases op with
  | add => exact congrArg some (eq_wrap_of_exact h).symm
  | sub => exact congrArg some (eq_wrap_of_exact h).symm
  | mul => exact congrArg some (eq_wrap_of_exact h).symm
  | lsh =>
    simp only [c] at h
    split at h
    · next hamount => rw [machine, if_pos ⟨hamount.1, hamount.2.1⟩, eq_wrap_of_exact h]
    · cases h
  | div => exact h
  | mod => exact h
  | and => exact h
  | or => exact h
  | xor => exact h
  | rsh => exact h

theorem inRange_machine {op : ArithOp} {t : IntType} {x y v : Int}
    (h : op.machine t x y = some v) : t.InRange v := by
  cases op with
  | add | sub | mul | and | or | xor =>
    cases h
    exact t.inRange_wrap _
  | div | mod | lsh | rsh =>
    simp only [machine] at h
    split at h
    all_goals cases h
    all_goals exact t.inRange_wrap _

theorem inRange_c {op : ArithOp} {t : IntType} {x y v : Int} (h : op.c t x y = some v) :
    t.InRange v := inRange_machine (machine_of_c h)

end ArithOp

end Machine
