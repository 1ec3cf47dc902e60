import FFS.Cod.Plain
import FFS.Cod.Generate

/-!
# The values that operators compute

Where C gives a value to an operator, the instructions of the operator give the same value.
-/

namespace Machine

namespace IntType

theorem inRange_of_width_lt {t : IntType} {y : Int} (h0 : 0 ≤ y) (h : y < t.width) :
    t.InRange y := by
  revert h
  cases t <;> simp only [InRange, low, high, signed, width, if_true, Bool.false_eq_true,
    if_false] <;> omega

@[simp] theorem wrap_zero (t : IntType) : t.wrap 0 = 0 := by cases t <;> rfl

@[simp] theorem wrap_one (t : IntType) : t.wrap 1 = 1 := by cases t <;> rfl

/-- A conversion to a type that is not narrower makes no value zero. -/
theorem wrap_eq_zero {t t' : IntType} {x : Int} (h : t.width ≤ t'.width) (hx : t.InRange x) :
    t'.wrap x = 0 ↔ x = 0 := by
  constructor
  · intro hzero
    have hback := wrap_wrap_of_le h x
    rw [hzero, wrap_zero, wrap_of_inRange hx] at hback
    exact hback.symm
  · rintro rfl
    exact t'.wrap_zero

theorem usual_i (t : IntType) : t.usual .i = t.promote := by cases t <;> rfl

/-- The operand types of a usual conversion to another type: a value that both types hold is
not changed by it. -/
theorem wrap_usual {t t' : IntType} {y : Int} (h : t.InRange y) (h' : t'.InRange y) :
    (t.usual t').wrap y = y := by
  refine wrap_of_inRange ?_
  revert h h'
  cases t <;> cases t' <;> simp only [InRange, usual, promote, low, high, signed, width, if_true,
    Bool.false_eq_true, if_false, Nat.reduceLT, Nat.reduceLeDiff, reduceCtorEq] <;> omega

end IntType

namespace ArithOp

/-- The low bits of an integer are the low bits of more of them. -/
theorem setWidth_ofInt {w w' : Nat} (h : w ≤ w') (x : Int) :
    (BitVec.ofInt w' x).setWidth w = BitVec.ofInt w x := by
  have hpos : ((2 ^ w : Nat) : Int) ≠ 0 := Int.natCast_ne_zero.mpr (Nat.two_pow_pos w).ne'
  have hpos' : ((2 ^ w' : Nat) : Int) ≠ 0 :=
    Int.natCast_ne_zero.mpr (Nat.two_pow_pos w').ne'
  have hdvd : ((2 ^ w : Nat) : Int) ∣ ((2 ^ w' : Nat) : Int) :=
    Int.natCast_dvd_natCast.mpr (Nat.pow_dvd_pow 2 h)
  refine BitVec.eq_of_toNat_eq ?_
  rw [BitVec.toNat_setWidth, BitVec.toNat_ofInt, BitVec.toNat_ofInt]
  refine Int.ofNat.inj ?_
  show (((x % (2 ^ w' : Nat)).toNat % 2 ^ w : Nat) : Int) = ((x % (2 ^ w : Nat)).toNat : Int)
  rw [Int.natCast_emod, Int.toNat_of_nonneg (Int.emod_nonneg x hpos'),
    Int.toNat_of_nonneg (Int.emod_nonneg x hpos), Int.emod_emod_of_dvd x hdvd]

theorem ofInt_wrap (t : IntType) (x : Int) :
    BitVec.ofInt t.width (t.wrap x) = BitVec.ofInt t.width x := by
  refine BitVec.eq_of_toNat_eq ?_
  have hpow : ((2 ^ t.width : Nat) : Int) = 2 ^ t.width := by push_cast; rfl
  rw [BitVec.toNat_ofInt, BitVec.toNat_ofInt, hpow, t.wrap_emod]

theorem setWidth_bits {w w' : Nat} (op : ArithOp) (x y : BitVec w') :
    (op.bits x y).setWidth w = op.bits (x.setWidth w) (y.setWidth w) := by
  cases op with
  | and => exact BitVec.setWidth_and
  | or => exact BitVec.setWidth_or
  | _ => exact BitVec.setWidth_xor

/-- An operation on bits may be done in the narrower type. -/
theorem wrap_bitwise {t t' : IntType} (op : ArithOp) (h : t.width ≤ t'.width) (x y : Int) :
    t.wrap (op.bitwise t' (t'.wrap x) (t'.wrap y)) = op.bitwise t x (t.wrap y) := by
  have hpow : ((2 ^ t.width : Nat) : Int) = 2 ^ t.width := by push_cast; rfl
  have hbits := @setWidth_bits t.width _ op (BitVec.ofInt t'.width x) (BitVec.ofInt t'.width y)
  rw [setWidth_ofInt h, setWidth_ofInt h] at hbits
  rw [bitwise, bitwise, ofInt_wrap, ofInt_wrap, ofInt_wrap, IntType.wrap_wrap_of_le h, ← hbits]
  refine IntType.wrap_congr ?_
  rw [BitVec.toNat_setWidth, Int.natCast_emod, hpow, Int.emod_emod]

end ArithOp

end Machine

namespace FFS
namespace Cod

open Machine

/-! ## Operands -/

theorem determineUnaryType_eq {op : UnaryOp} {e : Expr} (h : (Expr.unary op e).SameType)
    (hop : op ≠ .logNeg) : determineUnaryType op e.codSmGetType = e.cType.promote := by
  have hcode : (Expr.unary op e).codSmGetType = determineUnaryType op e.codSmGetType := by
    cases op with
    | logNeg => exact absurd rfl hop
    | _ => rfl
  have hc : (Expr.unary op e).cType = e.cType.promote := by
    cases op with
    | logNeg => exact absurd rfl hop
    | _ => rfl
  have hsame : (Expr.unary op e).codSmGetType.promote = (Expr.unary op e).cType.promote := h
  rw [hcode, hc, promote_determineUnaryType, IntType.promote_promote] at hsame
  exact hsame

/-- The code of an operator on one operand. -/
theorem machine_unary {op : UnaryOp} {t : IntType} {x v : Int} (h : cUnary op t x = some v) :
    match op with
    | .plus => v = t.wrap x
    | .minus => ArithOp.machine .sub t (t.wrap 0) (t.wrap (t.wrap x)) = some v
    | .not => ArithOp.machine .xor t (t.wrap (-1)) (t.wrap (t.wrap x)) = some v
    | .logNeg => v = truth (decide (x = 0)) := by
  cases op with
  | plus => exact (Option.some.inj h).symm
  | minus =>
    rw [IntType.wrap_zero, IntType.wrap_wrap]
    exact ArithOp.machine_of_c h
  | not =>
    rw [IntType.wrap_wrap]
    exact ArithOp.machine_of_c h
  | logNeg => exact (Option.some.inj h).symm

/-- The amount of a shift that has a result. -/
theorem shift_amount {op : ArithOp} {t : IntType} {x y v : Int} (hop : isShift op = true)
    (h : op.machine t x y = some v) : 0 ≤ y ∧ y < t.width := by
  cases op with
  | lsh | rsh =>
    simp only [ArithOp.machine] at h
    split at h
    · assumption
    · cases h
  | _ => cases hop

/-- An operator on two operands: both are converted to the type of the operation, also the
amount of a shift. -/
theorem machine_arith {op : ArithOp} {t t' : IntType} {x y v : Int} (hy : t'.InRange y)
    (h : cArith op t t' x y = some v) :
    op.machine (if isShift op then t.promote else t.usual t')
      ((if isShift op then t.promote else t.usual t').wrap x)
      ((if isShift op then t.promote else t.usual t').wrap y) = some v := by
  unfold cArith at h
  cases hshift : isShift op with
  | false =>
    rw [hshift] at h
    exact ArithOp.machine_of_c h
  | true =>
    rw [hshift, if_pos rfl, IntType.wrap_of_inRange (IntType.inRange_promote hy)] at h
    have hmachine := ArithOp.machine_of_c h
    obtain ⟨hlow, hhigh⟩ := shift_amount hshift hmachine
    rw [if_pos rfl, IntType.wrap_of_inRange (IntType.inRange_of_width_lt hlow hhigh)]
    exact hmachine

/-! ## Compound assignment -/

section OpAssignment

variable {t t' : IntType} {x y v : Int}

theorem shift_in_variable {op : ArithOp} (hop : isShift op = true) (hx : t.InRange x)
    (hy : t'.InRange y) (hover : y < t.width) (h : cArith op t t' x y = some v) :
    op.machine t x y = some (t.wrap v) := by
  rw [cArith, if_pos hop, IntType.wrap_of_inRange (IntType.inRange_promote hx),
    IntType.wrap_of_inRange (IntType.inRange_promote hy)] at h
  have hmachine := ArithOp.machine_of_c h
  have hamount := shift_amount hop hmachine
  have hamount' : 0 ≤ y ∧ y < t.width := ⟨hamount.1, hover⟩
  cases op with
  | lsh | rsh =>
    simp only [ArithOp.machine, if_pos hamount, Option.some.injEq] at hmachine
    simp only [ArithOp.machine, if_pos hamount', ← hmachine,
      IntType.wrap_wrap_of_le t.width_le_promote]
  | _ => cases hop

theorem division_in_variable {op : ArithOp} (hop : op = .div ∨ op = .mod) (hx : t.InRange x)
    (hy : t'.InRange y)
    (hover : t.usual t' = t ∨ t.InRange y ∧ (t.usual t').InRange x ∧ t.InRange (x.tdiv y))
    (h : cArith op t t' x y = some v) : op.machine t x (t.wrap y) = some (t.wrap v) := by
  have hshift : ¬ isShift op = true := by
    obtain rfl | rfl := hop
    all_goals exact Bool.false_ne_true
  rw [cArith, if_neg hshift] at h
  have hmachine := ArithOp.machine_of_c h
  obtain heq | ⟨hy', hx', hquot⟩ := hover
  · rw [heq, IntType.wrap_of_inRange hx] at hmachine
    rw [IntType.wrap_of_inRange (ArithOp.inRange_machine hmachine)]
    exact hmachine
  · rw [IntType.wrap_of_inRange hx', IntType.wrap_usual hy' hy] at hmachine
    rw [IntType.wrap_of_inRange hy']
    obtain rfl | rfl := hop
    all_goals
      simp only [ArithOp.machine] at hmachine ⊢
      split at hmachine
      · cases hmachine
      · next hok =>
        have hok' : ¬ (y = 0 ∨ ¬ t.InRange (x.tdiv y)) := by
          intro hbad
          cases hbad with
          | inl hzero => exact hok (.inl hzero)
          | inr hout => exact hout hquot
        rw [if_neg hok', ← Option.some.inj hmachine,
          IntType.wrap_wrap_of_le (t.width_le_usual t')]

/-- A compound assignment that carries over to the type of the variable. -/
theorem machine_opAssignment {op : ArithOp} (hx : t.InRange x) (hy : t'.InRange y)
    (hover : carriesOver op t t' x y = true) (h : cArith op t t' x y = some v) :
    op.machine t (t.wrap x) (t.wrap (t.wrap y)) = some (t.wrap v) := by
  have hle := t.width_le_usual t'
  rw [IntType.wrap_of_inRange hx, IntType.wrap_wrap]
  cases op with
  | add =>
    rw [ArithOp.eq_wrap_of_exact h, IntType.wrap_add, IntType.wrap_wrap_of_le hle,
      ← IntType.wrap_add, IntType.wrap_of_inRange hx]
    rfl
  | sub =>
    rw [ArithOp.eq_wrap_of_exact h, IntType.wrap_sub, IntType.wrap_wrap_of_le hle,
      ← IntType.wrap_sub, IntType.wrap_of_inRange hx]
    rfl
  | mul =>
    rw [ArithOp.eq_wrap_of_exact h, IntType.wrap_mul, IntType.wrap_wrap_of_le hle,
      ← IntType.wrap_mul, IntType.wrap_of_inRange hx]
    rfl
  | and | or | xor =>
    cases h
    exact congrArg some (ArithOp.wrap_bitwise _ hle x y).symm
  | div => exact division_in_variable (.inl rfl) hx hy (of_decide_eq_true hover) h
  | mod => exact division_in_variable (.inr rfl) hx hy (of_decide_eq_true hover) h
  | lsh | rsh =>
    have hwidth : y < t.width := of_decide_eq_true hover
    have hmachine := shift_in_variable rfl hx hy hwidth h
    have hamount := shift_amount rfl hmachine
    rw [IntType.wrap_of_inRange (IntType.inRange_of_width_lt hamount.1 hamount.2)]
    exact hmachine

end OpAssignment

end Cod
end FFS
