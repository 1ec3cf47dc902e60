import FFS.Cod.Conversions
import FFS.Cod.FreshLabels

/-!
# The code of expressions

Where C gives a value to an expression and the evaluation keeps to what `plain` says, the code of
the expression computes that value and leaves the variables as C does; and a branch on the
expression is taken as C takes it.
-/

namespace FFS
namespace Cod

open Machine

variable {prog : Code}

/-- The code that `cg` generates goes to `target` if `taken`. -/
def BranchesOn (prog : Code) (cg : Counts → Option Piece) (target : Label) (σ : Store)
    (a : Result) (taken : Bool) : Prop :=
  ∀ c p regs, cg c = some p → Agree σ regs →
    Branches prog p.code target taken regs (Kept c a.store a.writes regs)

/-- An expression computes its value, and branches on it. -/
structure ComputesExpr (prog : Code) (e : Expr) : Prop where
  value : ∀ σ a, meaning e σ = some a → plain e σ = true →
    Evaluates prog (cgExpr e) e.left σ a a.value
  branch : ∀ target reverse σ a, meaning e σ = some a → plain e σ = true →
    (reverse = true → branchesBack e σ = true) →
      BranchesOn prog (cgBranchIfFalse e target reverse) target σ a
        (decide (a.value ≠ 0) == reverse)

/-! ## Comparisons -/

theorem decide_truth (b : Bool) : decide (truth b ≠ 0) = b := by cases b <;> rfl

theorem holds_reverseOperator (op : CompareOp) (x y : Int) :
    (reverseOperator op).holds x y = !op.holds x y := by
  cases op with
  | eq =>
    show (x != y) = !decide (x = y)
    rw [bne, Bool.beq_eq_decide_eq]
  | neq =>
    show (x == y) = !decide (x ≠ y)
    rw [Bool.beq_eq_decide_eq, decide_not, Bool.not_not]
  | lt | leq | gt | geq =>
    simp only [reverseOperator, Compare.holds, CompareOp.holds, ← decide_not, not_lt, not_le]

/-- `operator_to_dill_op`: for `>=` the operands must differ. -/
theorem holds_operatorToDillOp {op : CompareOp} {x y : Int} (h : op = .geq → x ≠ y) :
    (operatorToDillOp op).holds x y = op.holds x y := by
  cases op with
  | eq => exact Bool.beq_eq_decide_eq x y
  | neq =>
    show (x != y) = decide (x ≠ y)
    rw [bne, Bool.beq_eq_decide_eq, decide_not]
  | geq =>
    have hne := h rfl
    show decide (y < x) = decide (y ≤ x)
    rw [decide_eq_decide]
    omega
  | lt | leq | gt => rfl

theorem plain_both {l r : Expr} {σ : Store} {a b : Result}
    (h : (plain l σ && after l σ fun a => plain r a.store) = true) (ha : meaning l σ = some a)
    (hb : meaning r a.store = some b) :
    (plain l σ = true ∧ l.SameType) ∧ plain r a.store = true ∧ r.SameType := by
  rw [Bool.and_eq_true] at h
  have hr : plain r a.store = true := after_of h.2 ha
  exact ⟨⟨h.1, sameType_of_plain h.1 ha⟩, hr, sameType_of_plain hr hb⟩

/-- The type that the code compares in is C's. -/
theorem determineOpType_of_same {l r : Expr} (hl : l.SameType) (hr : r.SameType) :
    determineOpType false l.codSmGetType r.codSmGetType = l.cType.usual r.cType := by
  rw [determineOpType_eq, usual_congr hl hr]

/-- The operands of an operation in the type `t`. -/
theorem plain_operands {t : IntType} {l r : Expr} {σ : Store} {a b : Result}
    (h : (plain l σ && after l σ fun a => plain r a.store && after r a.store
      (leavesOperand l t)) = true) (ha : meaning l σ = some a)
    (hb : meaning r a.store = some b) :
    (plain l σ = true ∧ l.SameType) ∧ (plain r a.store = true ∧ r.SameType) ∧
      ∀ d ∈ leftBehind l.codSmGetType t l.left, d ∉ b.writes := by
  rw [Bool.and_eq_true] at h
  have hr := after_of h.2 ha
  rw [Bool.and_eq_true] at hr
  have hleaves := List.all_eq_true.mp (after_of hr.2 hb)
  exact ⟨⟨h.1, sameType_of_plain h.1 ha⟩, ⟨hr.1, sameType_of_plain hr.1 hb⟩,
    fun d hd => of_decide_eq_true (hleaves d hd)⟩

theorem branches_compare {op : CompareOp} {l r : Expr} (hl : ComputesExpr prog l)
    (hr : ComputesExpr prog r) {target : Label} {reverse : Bool} {σ : Store} {a : Result}
    (ha : meaning (.compare op l r) σ = some a) (hplain : plain (.compare op l r) σ = true)
    (hback : reverse = true → branchesBack (.compare op l r) σ = true) :
    BranchesOn prog (cgBranchIfFalse (.compare op l r) target reverse) target σ a
      (decide (a.value ≠ 0) == reverse) := by
  intro c p regs hp hagree
  obtain ⟨b, b', hb, hb', -, rfl⟩ := meaning_compare ha
  rw [plain] at hplain
  obtain ⟨⟨hpl, hsl⟩, ⟨hpr, hsr⟩, hleaves⟩ := plain_operands hplain hb hb'
  obtain ⟨left, right, hleft, hright, rfl⟩ := branchOnCompare_some hp
  have htype := determineOpType_of_same hsl hsr
  rw [htype] at hleft hright hleaves ⊢
  have hevall : Evaluates prog (prepOperand (cgExpr l) l.codSmGetType (l.cType.usual r.cType))
      (leftBehind l.codSmGetType (l.cType.usual r.cType) l.left) σ b
      ((l.cType.usual r.cType).wrap b.value) :=
    (hl.value σ b hb hpl).prepOperand (inRange_code hsl (inRange_meaning hb))
  have hevalr : Evaluates prog (prepOperand (cgExpr r) r.codSmGetType (l.cType.usual r.cType))
      (leftBehind r.codSmGetType (l.cType.usual r.cType) r.left) b.store b' ((l.cType.usual r.cType).wrap b'.value) :=
    (hr.value b.store b' hb' hpr).prepOperand (inRange_code hsr (inRange_meaning hb'))
  refine .after (hevall.both hevalr hleaves hleft hright hagree) fun regs' h => ?_
  refine .br ?_ h.1.toKept
  rw [h.1.value, h.2.value, IntType.wrap_wrap, IntType.wrap_wrap]
  show _ = (decide (truth _ ≠ 0) == reverse)
  rw [decide_truth]
  cases reverse with
  | false =>
    rw [if_neg Bool.false_ne_true, holds_reverseOperator]
    cases op.holds _ _ <;> rfl
  | true =>
    rw [if_pos rfl, holds_operatorToDillOp]
    · cases op.holds _ _ <;> rfl
    · rintro rfl
      have hdiffer := after_of (after_of (hback rfl) hb) hb'
      exact of_decide_eq_true hdiffer

theorem ComputesExpr.of_value {e : Expr}
    (hbranch : ∀ target reverse, cgBranchIfFalse e target reverse =
      branchOnValue (cgExpr e) e.codSmGetType target reverse)
    (hback : ∀ σ, branchesBack e σ =
      (decide (32 ≤ e.codSmGetType.width) || after e σ fun a => decide (a.value = 0)))
    (h : ∀ σ a, meaning e σ = some a → plain e σ = true →
      Evaluates prog (cgExpr e) e.left σ a a.value) : ComputesExpr prog e where
  value := h
  branch target reverse σ a ha hplain hrev := by
    intro c p regs hp hagree
    rw [hbranch] at hp
    obtain ⟨o, ho, rfl⟩ := branchOnValue_some hp
    have hrange := inRange_code (sameType_of_plain hplain ha) (inRange_meaning ha)
    refine .after (h σ a ha hplain c o regs ho hagree) fun regs' hregs' => ?_
    cases reverse with
    | false =>
      have hdecide : (decide (a.value ≠ 0) == false) = decide (a.value = 0) := by
        rw [decide_not]
        cases decide (a.value = 0) <;> rfl
      rw [hdecide]
      exact branches_genBz hregs'.value hrange hregs'.toKept
    | true =>
      have hshort : 32 ≤ e.codSmGetType.width ∨ a.value = 0 := by
        have hor := hrev rfl
        rw [hback, Bool.or_eq_true] at hor
        exact hor.imp of_decide_eq_true fun hafter => of_decide_eq_true (after_of hafter ha)
      rw [beq_true]
      exact branches_genBnz hregs'.value hrange hshort hregs'.toKept

/-! ## Values -/

section Values

variable {σ : Store} {a : Result} {e e1 e2 l r : Expr}

/-- The initialiser of a constant variable, evaluated anew, gives the variable's value and leaves
the variables as they were. -/
theorem evaluates_constIdentifier {d : ConstDecl} (h : ComputesExpr prog e)
    (ha : meaning (.constIdentifier d e) σ = some a)
    (hplain : plain (.constIdentifier d e) σ = true) :
    Evaluates prog (cgExpr (.constIdentifier d e)) e.left σ a a.value := by
  intro c o regs ho hagree
  obtain ⟨v, hv, rfl⟩ := Option.map_eq_some_iff.mp ha
  rw [plain, Bool.and_eq_true, Option.any_eq_true] at hplain
  obtain ⟨hpe, b, hb, hsame⟩ := hplain
  rw [Bool.and_eq_true] at hsame
  obtain ⟨hvalue, hrestores⟩ := hsame
  have heq : b.value = v :=
    Option.some.inj ((of_decide_eq_true hvalue).symm.trans hv)
  refine (h.value σ b hb hpe c o regs ho hagree).mono fun regs' h' => ?_
  have hagree' : Agree σ regs' := fun d' v' hd' =>
    h'.agree d' v' ((value_of_restores hb hrestores d').trans hd')
  refine ⟨⟨hagree', h'.temps, fun d' _ => ?_⟩, h'.grows, h'.held, h'.value.trans heq⟩
  by_cases hd' : d' ∈ b.writes
  · obtain ⟨v', hv', hwritten⟩ := value_of_written hrestores hd'
    exact (h'.agree d' v' hwritten).trans (hagree d' v' hv').symm
  · exact h'.oprnds d' hd'

theorem evaluates_cast {t : IntType} (h : ComputesExpr prog e)
    (ha : meaning (.cast t e) σ = some a) (hplain : plain (.cast t e) σ = true) :
    Evaluates prog (cgExpr (.cast t e)) (Expr.left (.cast t e)) σ a a.value := by
  intro c o regs ho hagree
  obtain ⟨b, hb, rfl⟩ := meaning_cast ha
  rw [plain, Bool.and_eq_true] at hplain
  obtain ⟨right, coerced, hright, hcoerced, rfl⟩ := castCode_some ho
  have hrange := inRange_code (sameType_of_plain hplain.1 hb) (inRange_meaning hb)
  exact (h.value σ b hb hplain.1 c right regs hright hagree).append fun regs' h' =>
    h'.coerce hcoerced hplain.2 hrange

/-- The code behind the operand of `!`: `1` unless the operand differs from zero. -/
theorem runs_logNeg {t : IntType} {left right result : Reg} {n : Nat} {x : Int} {regs : Regs}
    {P : Regs → Prop} (hone : marks (.alloc n) prog ≤ 1) (hleft : regs left = 0)
    (hright : regs right = x) (hx : t.InRange x) (hresult : left ≠ result ∧ right ≠ result)
    (h : P (Function.update (Function.update regs result 0) result (truth (decide (x = 0))))) :
    Runs prog [.set .i result 0, .br .ne t left right (.alloc n), .set .i result 1,
      .mark (.alloc n)] regs P := by
  refine .set ?_
  have htest : Compare.holds .ne (t.wrap (Function.update regs result 0 left))
      (t.wrap (Function.update regs result 0 right)) = decide (x ≠ 0) := by
    rw [Function.update_of_ne hresult.1, Function.update_of_ne hresult.2, hleft, hright,
      IntType.wrap_zero, IntType.wrap_of_inRange hx]
    show (0 != x) = decide (x ≠ 0)
    rw [bne, Bool.beq_eq_decide_eq, decide_not, decide_eq_decide.mpr eq_comm]
  have hbr : Branches prog [.br .ne t left right (.alloc n)] (.alloc n) (decide (x ≠ 0))
      (Function.update regs result (IntType.wrap .i 0))
      fun regs' => regs' = Function.update regs result 0 := .br htest rfl
  by_cases hzero : x = 0
  · rw [decide_eq_false (not_not.mpr hzero)] at hbr
    refine hbr.through fun regs' hregs' => ?_
    rw [decide_eq_true hzero] at h
    subst hregs'
    exact .set (.mark (.nil h))
  · rw [decide_eq_true hzero] at hbr
    have hskip : Runs prog ([.br .ne t left right (.alloc n)] ++
        ([.set .i result 1] ++ .mark (.alloc n) :: [])) (Function.update regs result 0) P := by
      refine hbr.skip hone fun regs' hregs' => .nil ?_
      rw [decide_eq_false hzero, Function.update_idem] at h
      subst hregs'
      exact h
    exact hskip

/-- The code of `-` and `~`: an operation with a constant on the left. -/
theorem runs_unaryArith {op : ArithOp} {t : IntType} {k x v : Int} {c next : Counts}
    {left writes : List Decl} {right : Reg} {regs regs' : Regs}
    (h : Computed c.getReg σ left writes next right (t.wrap x) regs regs')
    (hv : op.machine t (t.wrap k) (t.wrap (t.wrap x)) = some v) :
    Runs prog [.set t (.temp next.regs) k, .arith op t (.temp c.regs) (.temp next.regs) right]
      regs' (Computed c σ [] writes next.getReg (.temp c.regs) v regs) := by
  have hright : right ≠ .temp next.regs := h.held.ne_new (Nat.le_refl _)
  have hkept := h.toKept.temp h.grows (t.wrap k)
  refine .set (.arith ?_ (.nil (hkept.result (h.grows.trans (Nat.le_succ _)) v)))
  rw [Function.update_self, Function.update_of_ne hright, h.value, IntType.wrap_wrap]
  exact hv

/-- All of the code behind the operand of `!`. -/
theorem runs_logNegCode (hlabels : ∀ n, marks (.alloc n) prog ≤ 1) {t : IntType} {x : Int}
    {c : Counts} {left writes : List Decl} {operand : Operand} {regs regs' : Regs}
    (h : Computed c.getReg σ left writes operand.next operand.reg x regs regs')
    (hx : t.InRange x) :
    Runs prog [.set t (.temp operand.next.regs) 0, .set .i (.temp c.regs) 0,
      .br .ne t (.temp operand.next.regs) operand.reg (.alloc operand.next.labels),
      .set .i (.temp c.regs) 1, .mark (.alloc operand.next.labels)] regs'
      (Computed c σ [] writes operand.next.getReg.allocLabel (.temp c.regs)
        (truth (decide (x = 0))) regs) := by
  have hne : operand.reg ≠ .temp operand.next.regs := h.held.ne_new (Nat.le_refl _)
  have hold : operand.reg ≠ .temp c.regs := h.held.ne_old (Nat.lt_succ_self _)
  have hdistinct : Reg.temp operand.next.regs ≠ .temp c.regs := by
    intro heq
    have hgrows : c.regs + 1 ≤ operand.next.regs := h.grows
    have hregs := Reg.temp.inj heq
    omega
  have hleft : Function.update regs' (.temp operand.next.regs) (t.wrap 0)
      (.temp operand.next.regs) = 0 := by
    rw [Function.update_self, IntType.wrap_zero]
  refine .set (runs_logNeg (hlabels _) hleft ?_ hx ⟨hdistinct, hold⟩ ?_)
  · rw [Function.update_of_ne hne, h.value]
  · have hkept := h.toKept.temp h.grows (t.wrap 0)
    rw [Function.update_idem]
    exact hkept.result (h.grows.trans (Nat.le_succ _)) _

theorem evaluates_unary (hlabels : ∀ n, marks (.alloc n) prog ≤ 1) {op : UnaryOp}
    (h : ComputesExpr prog e) (ha : meaning (.unary op e) σ = some a)
    (hplain : plain (.unary op e) σ = true) :
    Evaluates prog (cgExpr (.unary op e)) (Expr.left (.unary op e)) σ a a.value := by
  intro c o regs ho hagree
  obtain ⟨b, v, hb, hv, rfl⟩ := meaning_unary ha
  rw [plain, Bool.and_eq_true] at hplain
  have hsame := of_decide_eq_true hplain.1
  have hsameE := sameType_of_plain hplain.2 hb
  have hrange := inRange_meaning hb
  obtain ⟨operand, hoperand, rfl⟩ := operatorCode_some ho
  have htype : determineUnaryType op e.codSmGetType = e.cType.promote := by
    by_cases hop : op = .logNeg
    · subst hop
      exact (promotion_eq _).trans hsameE
    · exact determineUnaryType_eq hsame hop
  rw [htype] at hoperand ⊢
  have heval : Evaluates prog (prepOperand (cgExpr e) e.codSmGetType e.cType.promote)
      (leftBehind e.codSmGetType e.cType.promote e.left) σ b (e.cType.promote.wrap b.value) :=
    (h.value σ b hb hplain.2).prepOperand (inRange_code hsameE hrange)
  have hright := heval c.getReg operand regs hoperand hagree
  have hcode := machine_unary hv
  cases op with
  | plus =>
    have hvalue : v = e.cType.promote.wrap b.value := hcode
    subst hvalue
    refine hright.mono fun regs' h' => ?_
    refine ⟨h'.toKept.weaken (Nat.le_succ _), (Nat.le_succ _).trans h'.grows, ?_, h'.value⟩
    have hheld := h'.held.mono (Nat.le_succ _) (Nat.le_refl _)
    rw [← htype] at hheld
    exact hheld
  | minus => exact hright.append fun regs' h' => runs_unaryArith h' hcode
  | not => exact hright.append fun regs' h' => runs_unaryArith h' hcode
  | logNeg =>
    have hvalue : v = truth (decide (b.value = 0)) := hcode
    subst hvalue
    have hrangeP := IntType.inRange_promote hrange
    rw [IntType.wrap_of_inRange hrangeP] at hright
    exact hright.append fun regs' h' => runs_logNegCode hlabels h' hrangeP

/-- Both operands of an operator, in the type of the operation. -/
theorem evaluates_arith {op : ArithOp} (hl : ComputesExpr prog l) (hr : ComputesExpr prog r)
    (ha : meaning (.arith op l r) σ = some a) (hplain : plain (.arith op l r) σ = true) :
    Evaluates prog (cgExpr (.arith op l r)) (Expr.left (.arith op l r)) σ a a.value := by
  intro c o regs ho hagree
  obtain ⟨b, b', v, hb, hb', -, hv, rfl⟩ := meaning_arith ha
  rw [plain] at hplain
  obtain ⟨⟨hpl, hsl⟩, ⟨hpr, hsr⟩, hleaves⟩ := plain_operands hplain hb hb'
  obtain ⟨left, right, hleft, hright, rfl⟩ := arithCode_some ho
  have hmachine := machine_arith (inRange_meaning hb') hv
  have htype : determineOpType (isShift op) l.codSmGetType r.codSmGetType =
      if isShift op then l.cType.promote else l.cType.usual r.cType := by
    cases isShift op with
    | false => exact determineOpType_of_same hsl hsr
    | true => exact (determineOpType_shift _ _).trans hsl
  rw [htype] at hleft hright hleaves ⊢
  revert hmachine hleft hright hleaves
  generalize (if isShift op then l.cType.promote else l.cType.usual r.cType) = t
  intro hleaves hleft hright hmachine
  have hevall : Evaluates prog (prepOperand (cgExpr l) l.codSmGetType t)
      (leftBehind l.codSmGetType t l.left) σ b (t.wrap b.value) :=
    (hl.value σ b hb hpl).prepOperand (inRange_code hsl (inRange_meaning hb))
  have hevalr : Evaluates prog (prepOperand (cgExpr r) r.codSmGetType t)
      (leftBehind r.codSmGetType t r.left) b.store b' (t.wrap b'.value) :=
    (hr.value b.store b' hb' hpr).prepOperand (inRange_code hsr (inRange_meaning hb'))
  refine (hevall.both hevalr hleaves hleft hright hagree).append fun regs' h' => ?_
  refine .arith ?_ (.nil (h'.1.toKept.result h'.1.grows v))
  rw [h'.1.value, h'.2.value, IntType.wrap_wrap, IntType.wrap_wrap]
  exact hmachine

/-- The value of a test: `0`, and `1` unless the branch is taken. -/
theorem runs_flag {c : Counts} {branch : Piece} {test : Bool} {regs : Regs}
    (hone : marks (.alloc c.labels) prog ≤ 1) (hgrows : c.getReg.regs ≤ branch.next.regs)
    (hagree : Agree σ regs)
    (hrun : Branches prog branch.code (.alloc c.labels) (!test)
      (Function.update regs (.temp c.regs) (IntType.wrap .i 0))
      (Kept c.getReg.allocLabel a.store a.writes
        (Function.update regs (.temp c.regs) (IntType.wrap .i 0)))) :
    Runs prog (.set .i (.temp c.regs) 0 :: (branch.code ++ [.set .i (.temp c.regs) 1,
      .mark (.alloc c.labels)])) regs
      (Computed c a.store [] a.writes branch.next (.temp c.regs) (truth test) regs) := by
  have hstart : Kept c σ [] regs (Function.update regs (.temp c.regs) (IntType.wrap .i 0)) :=
    (Kept.start hagree).temp (Nat.le_refl _) _
  refine .set ?_
  cases test with
  | false =>
    have hskip : Runs prog (branch.code ++ ([.set .i (.temp c.regs) 1] ++
        .mark (.alloc c.labels) :: []))
        (Function.update regs (.temp c.regs) (IntType.wrap .i 0))
        (Computed c a.store [] a.writes branch.next (.temp c.regs) 0 regs) := by
      refine hrun.skip hone fun regs' h' => .nil ?_
      have hkept : Kept c a.store a.writes regs regs' := hstart.trans h' (Nat.le_succ _)
      have hreg : regs' (.temp c.regs) = 0 := by
        rw [h'.temps c.regs (Nat.lt_succ_self _), Function.update_self]
        rfl
      exact ⟨hkept, (Nat.le_succ _).trans hgrows, ⟨Nat.le_refl _, hgrows⟩, hreg⟩
    exact hskip
  | true =>
    refine hrun.through fun regs' h' => .set (.mark (.nil ?_))
    have hkept : Kept c a.store a.writes regs regs' := hstart.trans h' (Nat.le_succ _)
    exact ⟨hkept.temp (Nat.le_refl _) _, (Nat.le_succ _).trans hgrows, ⟨Nat.le_refl _, hgrows⟩,
      Function.update_self _ _ _⟩

theorem evaluates_compare (hlabels : ∀ n, marks (.alloc n) prog ≤ 1) {op : CompareOp}
    (hl : ComputesExpr prog l) (hr : ComputesExpr prog r)
    (ha : meaning (.compare op l r) σ = some a) (hplain : plain (.compare op l r) σ = true) :
    Evaluates prog (cgExpr (.compare op l r)) (Expr.left (.compare op l r)) σ a a.value := by
  intro c o regs ho hagree
  obtain ⟨branch, hbranch, rfl⟩ := compareCode_some ho
  have hgrows : c.getReg.regs ≤ branch.next.regs :=
    ((freshExpr (.compare op l r)).branch _ _ _ _ hbranch).regs
  obtain ⟨test, htest⟩ : ∃ test, a.value = truth test := by
    obtain ⟨b, b', -, -, -, rfl⟩ := meaning_compare ha
    exact ⟨_, rfl⟩
  have hback : false = true → branchesBack (.compare op l r) σ = true := fun h => nomatch h
  have hrun := branches_compare hl hr ha hplain hback _ _ _ hbranch
    (hagree.temp c.regs (IntType.wrap .i 0))
  rw [htest, decide_truth, beq_false] at hrun
  rw [htest]
  exact runs_flag (hlabels _) hgrows hagree hrun

theorem evaluates_comma (hl : ComputesExpr prog l) (hr : ComputesExpr prog r)
    (ha : meaning (.comma l r) σ = some a) (hplain : plain (.comma l r) σ = true) :
    Evaluates prog (cgExpr (.comma l r)) (Expr.left (.comma l r)) σ a a.value := by
  intro c o regs ho hagree
  obtain ⟨b, b', hb, hb', rfl⟩ := meaning_comma ha
  obtain ⟨⟨hpl, -⟩, hpr, -⟩ := plain_both hplain hb hb'
  obtain ⟨left, right, hleft, hright, rfl⟩ := cgExpr_comma ho
  refine (hl.value σ b hb hpl c left regs hleft hagree).append fun regs₁ h₁ => ?_
  refine (hr.value b.store b' hb' hpr left.next right regs₁ hright h₁.agree).mono
    fun regs₂ h₂ => ?_
  have hheld := h₂.held.mono h₁.grows (Nat.le_refl _)
  exact ⟨h₁.toKept.trans h₂.toKept h₁.grows, h₁.grows.trans h₂.grows, hheld, h₂.value⟩

theorem evaluates_assignment {d : Decl} (h : ComputesExpr prog e)
    (ha : meaning (.assignment d e) σ = some a) (hplain : plain (.assignment d e) σ = true) :
    Evaluates prog (cgExpr (.assignment d e)) (Expr.left (.assignment d e)) σ a a.value := by
  intro c o regs ho hagree
  obtain ⟨b, hb, -, rfl⟩ := meaning_assignment ha
  rw [plain, Bool.and_eq_true] at hplain
  obtain ⟨value, coerced, hvalue, hcoerced, rfl⟩ := cgExpr_assignment ho
  have hrange := inRange_code (sameType_of_plain hplain.1 hb) (inRange_meaning hb)
  refine (h.value σ b hb hplain.1 c value regs hvalue hagree).append fun regs₁ h₁ => ?_
  refine (h₁.coerce hcoerced hplain.2 hrange).append fun regs₂ h₂ => .mov (.nil ?_)
  rw [h₂.value, IntType.wrap_wrap]
  exact ⟨h₂.toKept.set d b.value, h₂.grows, List.mem_cons_self, Function.update_self _ _ _⟩

theorem evaluates_opAssignment {op : ArithOp} {d : Decl} (h : ComputesExpr prog e)
    (ha : meaning (.opAssignment op d e) σ = some a)
    (hplain : plain (.opAssignment op d e) σ = true) :
    Evaluates prog (cgExpr (.opAssignment op d e)) (Expr.left (.opAssignment op d e)) σ a a.value := by
  intro c o regs ho hagree
  obtain ⟨x, b, v, hx, hb, hnot, hv, rfl⟩ := meaning_opAssignment ha
  rw [plain, Bool.and_eq_true, Bool.and_eq_true] at hplain
  obtain ⟨⟨hpe, hconv⟩, hover⟩ := hplain
  have hover' : carriesOver op d.cgType e.cType x b.value = true := by
    have hall := after_of hover hb
    rw [hx] at hall
    exact hall
  obtain ⟨value, coerced, hvalue, hcoerced, rfl⟩ := cgExpr_opAssignment ho
  have hrange := inRange_code (sameType_of_plain hpe hb) (inRange_meaning hb)
  have hmachine := machine_opAssignment (σ.inRange d x hx) (inRange_meaning hb) hover' hv
  refine (h.value σ b hb hpe c value regs hvalue hagree).append fun regs₁ h₁ => ?_
  refine (h₁.coerce hcoerced hconv hrange).append fun regs₂ h₂ => ?_
  -- The right side does not write the variable.
  have hvar : regs₂ (.oprnd d) = x := (h₂.oprnds d hnot).trans (hagree d x hx)
  have hop : op.machine d.cgType (d.cgType.wrap (regs₂ (.oprnd d)))
      (d.cgType.wrap (regs₂ coerced.reg)) = some (d.cgType.wrap v) := by
    rw [hvar, h₂.value]
    exact hmachine
  refine .arith hop (.mov (.nil ?_))
  rw [Function.update_self, IntType.wrap_wrap]
  have hkept := (h₂.toKept.temp h₂.grows (d.cgType.wrap v)).set d v
  have hgrows : c.regs ≤ coerced.next.getReg.regs := h₂.grows.trans (Nat.le_succ _)
  exact ⟨hkept, hgrows, List.mem_cons_self, Function.update_self _ _ _⟩

/-! ### `&&` and `||` -/

theorem decide_eq_or (op : LogicalOp) (x : Int) :
    (decide (x ≠ 0) = decide (op = .or)) ↔ (if op = .or then x ≠ 0 else x = 0) := by
  cases op with
  | or =>
    rw [if_pos rfl, decide_eq_decide]
    exact iff_true_right rfl
  | and =>
    rw [if_neg (by decide), decide_eq_decide]
    have hnot : ¬ LogicalOp.and = .or := by decide
    rw [iff_false_right hnot, not_not]

/-- The branch of `generate_short_circuit`. -/
def operandTest (op : LogicalOp) (t : IntType) (operand : Reg) (target : Label) : Code :=
  match op with
  | .or => genBnz operand target t
  | .and => genBz operand target t

theorem shortCircuitLeft_eq (op : LogicalOp) (t : IntType) (result operand : Reg)
    (target : Label) : shortCircuitLeft op t result operand target =
      .set t result (truth (decide (op = .or))) :: operandTest op t operand target := by
  cases op <;> rfl

theorem shortCircuitRight_eq (op : LogicalOp) (t : IntType) (result operand : Reg)
    (target : Label) : shortCircuitRight op t result operand target =
      operandTest op t operand target ++ [.set t result (truth !decide (op = .or))] := by
  cases op <;> rfl

theorem wrap_truth (t : IntType) (b : Bool) : t.wrap (truth b) = truth b :=
  IntType.wrap_of_inRange (inRange_truth b t)

/-- The test of an operand: forward to the end if the operand decides the result. -/
theorem branches_operandTest {op : LogicalOp} {t t' : IntType} {reg : Reg} {target : Label}
    {x : Int} {regs : Regs} {post : Regs → Prop} (ht : 32 ≤ t.width) (hreg : regs reg = t.wrap x)
    (hle : t'.width ≤ t.width) (hx : t'.InRange x) (h : post regs) :
    Branches prog (operandTest op t reg target) target
      (decide (decide (x ≠ 0) = decide (op = .or))) regs post := by
  have hzero := IntType.wrap_eq_zero hle hx
  cases op with
  | or =>
    have htaken : decide (decide (x ≠ 0) = decide (LogicalOp.or = .or)) =
        decide (t.wrap x ≠ 0) := by
      rw [decide_eq_decide, decide_eq_or, if_pos rfl, ne_eq, ne_eq, hzero]
    rw [htaken]
    exact branches_genBnz hreg (t.inRange_wrap x) (.inl ht) h
  | and =>
    have htaken : decide (decide (x ≠ 0) = decide (LogicalOp.and = .or)) =
        decide (t.wrap x = 0) := by
      rw [decide_eq_decide, decide_eq_or, if_neg (by decide), hzero]
    rw [htaken]
    exact branches_genBz hreg (t.inRange_wrap x) h

theorem width_le_usual_right (t t' : IntType) : t'.width ≤ (t.usual t').width := by
  cases t <;> cases t' <;> decide

theorem width_usual (t t' : IntType) : 32 ≤ (t.usual t').width := by
  cases t <;> cases t' <;> decide

/-- The second operand of `&&` or `||`, when the first does not decide. -/
theorem runs_shortCircuitRight (hlabels : ∀ n, marks (.alloc n) prog ≤ 1) {op : LogicalOp}
    {t t' : IntType} {result reg : Reg} {n : Nat} {x : Int} {regs : Regs} {post : Regs → Prop}
    (ht : 32 ≤ t.width) (hreg : regs reg = t.wrap x) (hle : t'.width ≤ t.width)
    (hx : t'.InRange x) (hresult : regs result = truth (decide (op = .or)))
    (h : post (Function.update regs result (truth (decide (x ≠ 0))))) :
    Runs prog (shortCircuitRight op t result reg (.alloc n) ++ [.mark (.alloc n)]) regs post := by
  rw [shortCircuitRight_eq, List.append_assoc]
  have htest : Branches prog (operandTest op t reg (.alloc n)) (.alloc n)
      (decide (decide (x ≠ 0) = decide (op = .or))) regs fun regs' => regs' = regs :=
    branches_operandTest ht hreg hle hx rfl
  by_cases hdecides : decide (x ≠ 0) = decide (op = .or)
  · rw [decide_eq_true hdecides] at htest
    refine htest.skip (hlabels n) fun regs' hregs' => .nil ?_
    rw [hdecides, ← hresult, Function.update_eq_self] at h
    subst hregs'
    exact h
  · rw [decide_eq_false hdecides] at htest
    refine htest.through fun regs' hregs' => .set (.mark (.nil ?_))
    have hother : decide (x ≠ 0) = !decide (op = .or) := Bool.eq_not.mpr hdecides
    rw [wrap_truth, ← hother]
    subst hregs'
    exact h

theorem plain_logical {op : LogicalOp} {b : Result} (h : plain (.logical op l r) σ = true)
    (hb : meaning l σ = some b) : plain l σ = true ∧
      (decide (b.value ≠ 0) ≠ decide (op = .or) → plain r b.store = true) := by
  rw [plain, Bool.and_eq_true] at h
  have hr := after_of h.2 hb
  rw [Bool.or_eq_true, decide_eq_true_eq] at hr
  exact ⟨h.1, fun hne => hr.resolve_left hne⟩

/-- The code of `&&` or `||`: the first operand decides, or the second has the value. -/
theorem runs_logical (hlabels : ∀ n, marks (.alloc n) prog ≤ 1) (lr : List Decl) {op : LogicalOp}
    {t tl tr : IntType} {cgl cgr : Counts → Option Operand} {ll : List Decl} {b : Result}
    {c : Counts}
    {left right : Operand} {regs : Regs} (hwide : 32 ≤ t.width) (hlel : tl.width ≤ t.width)
    (hler : tr.width ≤ t.width) (hevall : Evaluates prog cgl ll σ b (t.wrap b.value))
    (hrangel : tl.InRange b.value) (hleft : cgl c.getReg = some left)
    (hright : cgr left.next.getReg.allocLabel = some right)
    (hgrows : left.next.getReg.regs ≤ right.next.regs) (hagree : Agree σ regs)
    (hcases : (decide (b.value ≠ 0) = decide (op = .or) ∧
        a = ⟨truth (decide (op = .or)), b.store, b.reads, b.writes, []⟩) ∨
      (decide (b.value ≠ 0) ≠ decide (op = .or) ∧ ∃ b', tr.InRange b'.value ∧
        Evaluates prog cgr lr b.store b' (t.wrap b'.value) ∧
        a = ⟨truth (decide (b'.value ≠ 0)), b'.store, b.reads ++ b'.reads, b.writes ++ b'.writes,
          b'.pending⟩)) :
    Runs prog (left.code ++ (shortCircuitLeft op t (.temp left.next.regs) left.reg
        (.alloc left.next.labels) ++ (right.code ++ (shortCircuitRight op t
        (.temp left.next.regs) right.reg (.alloc left.next.labels) ++
        [.mark (.alloc left.next.labels)])))) regs
      (Computed c a.store [] a.writes right.next (.temp left.next.regs) a.value regs) := by
  refine (hevall c.getReg left regs hleft hagree).append fun regs₁ h₁ => ?_
  have hc : c.regs ≤ left.next.regs := (Nat.le_succ _).trans h₁.grows
  have hkept₁ := (h₁.toKept.weaken (Nat.le_succ _)).temp hc (truth (decide (op = .or)))
  have hne : left.reg ≠ .temp left.next.regs := h₁.held.ne_new (Nat.le_refl _)
  rw [shortCircuitLeft_eq, List.cons_append]
  refine .set ?_
  rw [wrap_truth]
  have hreg : Function.update regs₁ (.temp left.next.regs) (truth (decide (op = .or))) left.reg =
      t.wrap b.value := by
    rw [Function.update_of_ne hne, h₁.value]
  have htest : Branches prog (operandTest op t left.reg (.alloc left.next.labels))
      (.alloc left.next.labels) (decide (decide (b.value ≠ 0) = decide (op = .or)))
      (Function.update regs₁ (.temp left.next.regs) (truth (decide (op = .or))))
      fun regs' => regs' = Function.update regs₁ (.temp left.next.regs)
        (truth (decide (op = .or))) := branches_operandTest hwide hreg hlel hrangel rfl
  obtain ⟨hshort, rfl⟩ | ⟨hlong, b', hrange, hevalr, rfl⟩ := hcases
  · rw [decide_eq_true hshort] at htest
    have hskip : Runs prog (operandTest op t left.reg (.alloc left.next.labels) ++
        ((right.code ++ shortCircuitRight op t (.temp left.next.regs) right.reg
          (.alloc left.next.labels)) ++ .mark (.alloc left.next.labels) :: []))
        (Function.update regs₁ (.temp left.next.regs) (truth (decide (op = .or))))
        (Computed c b.store [] b.writes right.next (.temp left.next.regs)
          (truth (decide (op = .or))) regs) := by
      refine htest.skip (hlabels _) fun regs' hregs' => .nil ?_
      subst hregs'
      exact ⟨hkept₁, hc.trans ((Nat.le_succ _).trans hgrows), ⟨hc, hgrows⟩,
        Function.update_self _ _ _⟩
    rw [List.append_assoc] at hskip
    exact hskip
  · rw [decide_eq_false hlong] at htest
    refine htest.through fun regs' hregs' => ?_
    subst hregs'
    refine (hevalr _ right _ hright hkept₁.agree).append fun regs₂ h₂ => ?_
    have hresult : regs₂ (.temp left.next.regs) = truth (decide (op = .or)) :=
      (h₂.temps _ (Nat.lt_succ_self _)).trans (Function.update_self _ _ _)
    have hkept₂ := (hkept₁.trans h₂.toKept (hc.trans (Nat.le_succ _))).temp hc
      (truth (decide (b'.value ≠ 0)))
    refine runs_shortCircuitRight hlabels hwide h₂.value hler hrange hresult ?_
    exact ⟨hkept₂, hc.trans ((Nat.le_succ _).trans hgrows), ⟨hc, hgrows⟩,
      Function.update_self _ _ _⟩

theorem evaluates_logical (hlabels : ∀ n, marks (.alloc n) prog ≤ 1) {op : LogicalOp}
    (hl : ComputesExpr prog l) (hr : ComputesExpr prog r)
    (ha : meaning (.logical op l r) σ = some a) (hplain : plain (.logical op l r) σ = true) :
    Evaluates prog (cgExpr (.logical op l r)) (Expr.left (.logical op l r)) σ a a.value := by
  intro c o regs ho hagree
  obtain ⟨b, hb, hcases⟩ := meaning_logical ha
  obtain ⟨hpl, hpr⟩ := plain_logical hplain hb
  obtain ⟨left, right, hleft, hright, rfl⟩ := logicalCode_some ho
  have hgrows : left.next.getReg.regs ≤ right.next.regs :=
    (fresh_prepOperand (freshExpr r).value hright).regs
  rw [determineOpType_eq] at hleft hright ⊢
  have hrangel := inRange_code (sameType_of_plain hpl hb) (inRange_meaning hb)
  refine runs_logical hlabels
    (leftBehind r.codSmGetType (l.codSmGetType.usual r.codSmGetType) r.left)
    (width_usual l.codSmGetType r.codSmGetType)
    (l.codSmGetType.width_le_usual r.codSmGetType)
    (width_le_usual_right l.codSmGetType r.codSmGetType)
    ((hl.value σ b hb hpl).prepOperand hrangel) hrangel hleft hright hgrows hagree ?_
  refine hcases.imp_right fun hlong => ?_
  obtain ⟨hne, b', hb', rfl⟩ := hlong
  have hrange := inRange_code (sameType_of_plain (hpr hne) hb') (inRange_meaning hb')
  exact ⟨hne, b', hrange, (hr.value b.store b' hb' (hpr hne)).prepOperand hrange, rfl⟩

/-! ### `++`, `--` and the conditional operator -/

theorem evaluates_incdec {dec post : Bool} {d : Decl}
    (ha : meaning (.incdec dec post d) σ = some a) (hplain : plain (.incdec dec post d) σ = true) :
    Evaluates prog (cgExpr (.incdec dec post d)) (Expr.left (.incdec dec post d)) σ a a.value := by
  intro c o regs ho hagree
  obtain ⟨x, v, hx, hv, rfl⟩ := meaning_incdec ha
  have hrange : d.cgType.InRange v := by
    rw [plain, hx, Option.bind_some, hv] at hplain
    exact of_decide_eq_true hplain
  have hvar := hagree d x hx
  have hxr : d.cgType.promote.wrap x = x :=
    IntType.wrap_of_inRange (IntType.inRange_promote (σ.inRange d x hx))
  have hmachine : ∀ regs' : Regs, regs' (.oprnd d) = x →
      ArithOp.machine (if dec then .sub else .add) d.cgType.promote
        (d.cgType.promote.wrap (regs' (.oprnd d))) (d.cgType.promote.wrap 1) = some v := by
    intro regs' hregs'
    have hc : ArithOp.c (if dec then .sub else .add) (d.cgType.usual .i)
        ((d.cgType.usual .i).wrap x) ((d.cgType.usual .i).wrap 1) = some v := by
      cases dec <;> exact hv
    rw [IntType.usual_i] at hc
    rw [hregs']
    exact ArithOp.machine_of_c hc
  have hwrap : d.cgType.wrap v = v := IntType.wrap_of_inRange hrange
  have htype : determineUnaryType .plus d.cgType = d.cgType.promote := promotion_eq _
  cases ho
  rw [htype]
  cases post with
  | true =>
    refine .mov (.arithi (hmachine _ ?_) (.nil ?_))
    · rw [Function.update_of_ne (by simp), hvar]
    · have hkept := ((Kept.start hagree).temp (Nat.le_refl c.regs)
        (d.cgType.promote.wrap (regs (.oprnd d)))).set d v
      rw [hwrap] at hkept
      refine ⟨hkept, Nat.le_succ _, ⟨Nat.le_refl _, Nat.lt_succ_self _⟩, ?_⟩
      rw [Function.update_of_ne (by simp), Function.update_self, hvar, hxr]
      rfl
  | false =>
    refine .arithi (hmachine regs hvar) (.mov (.nil ?_))
    have hkept := ((Kept.start hagree).set d v).temp (Nat.le_refl c.regs)
      (d.cgType.promote.wrap v)
    rw [hwrap] at hkept
    rw [Function.update_self]
    refine ⟨hkept, Nat.le_succ _, ⟨Nat.le_refl _, Nat.lt_succ_self _⟩, ?_⟩
    rw [Function.update_self, IntType.wrap_of_inRange (IntType.inRange_promote hrange)]
    exact hwrap.symm

/-- The first operand is chosen. -/
theorem runs_first (hlabels : ∀ n, marks (.alloc n) prog ≤ 1) {branch first : Code}
    {between : Code} {t : IntType} {result reg : Reg} {n n' : Nat} {regs : Regs}
    {P Q R : Regs → Prop} (hbranch : Branches prog branch (.alloc n) false regs P)
    (hfirst : ∀ regs', P regs' → Runs prog first regs' Q)
    (h : ∀ regs', Q regs' → R (Function.update regs' result (t.wrap (regs' reg)))) :
    Runs prog (branch ++ (first ++ (.mov t result reg :: .jump (.alloc n') ::
      (between ++ [.mark (.alloc n')])))) regs R := by
  refine hbranch.through fun regs₁ h₁ => (hfirst regs₁ h₁).append fun regs₂ h₂ => .mov ?_
  have hjump : Branches prog [.jump (.alloc n')] (.alloc n') true
      (Function.update regs₂ result (t.wrap (regs₂ reg))) R := .jump (h regs₂ h₂)
  exact hjump.skip (hlabels n') fun regs₃ h₃ => .nil h₃

/-- The second operand is chosen. -/
theorem runs_second (hlabels : ∀ n, marks (.alloc n) prog ≤ 1) {branch between second : Code}
    {t : IntType} {result reg : Reg} {n n' : Nat} {regs : Regs} {P Q R : Regs → Prop}
    (hbranch : Branches prog branch (.alloc n) true regs P)
    (hsecond : ∀ regs', P regs' → Runs prog second regs' Q)
    (h : ∀ regs', Q regs' → R (Function.update regs' result (t.wrap (regs' reg)))) :
    Runs prog (branch ++ (between ++ .mark (.alloc n) :: (second ++
      [.mov t result reg, .mark (.alloc n')]))) regs R :=
  hbranch.skip (hlabels n) fun regs₁ h₁ => (hsecond regs₁ h₁).append fun regs₂ h₂ =>
    .mov (.mark (.nil (h regs₂ h₂)))

theorem evaluates_conditional (hlabels : ∀ n, marks (.alloc n) prog ≤ 1)
    (h : ComputesExpr prog e) (h1 : ComputesExpr prog e1) (h2 : ComputesExpr prog e2)
    (ha : meaning (.conditional e e1 e2) σ = some a)
    (hplain : plain (.conditional e e1 e2) σ = true) :
    Evaluates prog (cgExpr (.conditional e e1 e2)) (Expr.left (.conditional e e1 e2)) σ a a.value := by
  intro c o regs ho hagree
  obtain ⟨b, b', hb, hchosen, rfl⟩ := meaning_conditional ha
  rw [plain, Bool.and_eq_true, Bool.and_eq_true] at hplain
  obtain ⟨⟨hsame, hpe⟩, hafter⟩ := hplain
  have hpchosen := after_of hafter hb
  have htype : determineUnaryType .plus e1.codSmGetType = e1.cType.usual e2.cType := by
    have hpromote : (determineUnaryType .plus e1.codSmGetType).promote =
      (e1.cType.usual e2.cType).promote := of_decide_eq_true hsame
    rw [promote_determineUnaryType, IntType.promote_usual] at hpromote
    exact hpromote
  obtain ⟨branch, first, second, coerced, hbranch, hfirst, hsecond, hcoerced, rfl⟩ :=
    cgExpr_conditional_some ho
  have hgrows : c.getReg.regs ≤ branch.next.regs :=
    ((freshExpr e).branch _ _ _ _ hbranch).regs
  have hgrows1 : branch.next.regs ≤ first.next.regs := ((freshExpr e1).value _ _ hfirst).regs
  have hgrows2 : first.next.regs ≤ second.next.regs := ((freshExpr e2).value _ _ hsecond).regs
  have hgrows3 : second.next.regs ≤ coerced.next.regs := (fresh_coerceType hcoerced).regs
  have hc : c.regs < coerced.next.regs :=
    ((hgrows.trans hgrows1).trans hgrows2).trans hgrows3
  rw [htype] at hcoerced ⊢
  have hpromoted : (e1.cType.usual e2.cType).promote = e1.cType.usual e2.cType :=
    IntType.promote_usual _ _
  revert hcoerced hpromoted
  generalize e1.cType.usual e2.cType = t
  intro hcoerced hpromoted
  have hback : false = true → branchesBack e σ = true := fun h => absurd h Bool.false_ne_true
  have hrun := h.branch (.alloc c.labels) false σ b hb hpe hback _ _ regs hbranch hagree
  -- What both ways end in: the value in the type of the result, moved to its register.
  have hend : ∀ (reg : Reg) (regs' : Regs),
      Kept c b'.store (b.writes ++ b'.writes) regs regs' ∧ regs' reg = b'.value ∨
        Kept c b'.store (b.writes ++ b'.writes) regs regs' ∧ regs' reg = t.wrap b'.value →
      Computed c b'.store [] (b.writes ++ b'.writes) coerced.next (.temp c.regs)
        (t.wrap b'.value) regs
        (Function.update regs' (.temp c.regs) (t.wrap (regs' reg))) := by
    intro reg regs' hcases
    have hvalue : t.wrap (regs' reg) = t.wrap b'.value := by
      obtain ⟨-, hv⟩ | ⟨-, hv⟩ := hcases
      · rw [hv]
      · rw [hv, IntType.wrap_wrap]
    have hkept : Kept c b'.store (b.writes ++ b'.writes) regs regs' :=
      hcases.elim And.left And.left
    rw [hvalue]
    exact ⟨hkept.temp (Nat.le_refl _) _, Nat.le_of_lt hc, ⟨Nat.le_refl _, hc⟩,
      Function.update_self _ _ _⟩
  by_cases hne : b.value ≠ 0
  · rw [if_pos hne] at hchosen hpchosen
    have hdecide : (decide (b.value ≠ 0) == false) = false := by
      rw [decide_eq_true hne]
      rfl
    rw [hdecide] at hrun
    have hvalue : ∀ regs₁, Kept c.getReg.allocLabel.allocLabel b.store b.writes regs regs₁ →
        Runs prog first.code regs₁ fun regs₂ =>
          Kept c b'.store (b.writes ++ b'.writes) regs regs₂ ∧ regs₂ first.reg = b'.value := by
      intro regs₁ hk
      refine (h1.value b.store b' hchosen hpchosen branch.next first regs₁ hfirst
        hk.agree).mono fun regs₂ h₂ => ?_
      exact ⟨(hk.weaken (Nat.le_succ _)).trans h₂.toKept ((Nat.le_succ _).trans hgrows),
        h₂.value⟩
    have hcode : Runs prog (branch.code ++ (first.code ++ (.mov t (.temp c.regs) first.reg ::
        .jump (.alloc (c.labels + 1)) :: (.mark (.alloc c.labels) :: (second.code ++
          (coerced.code ++ [.mov t (.temp c.regs) coerced.reg])) ++
          [.mark (.alloc (c.labels + 1))])))) regs
        (Computed c b'.store [] (b.writes ++ b'.writes) coerced.next (.temp c.regs)
          (t.wrap b'.value) regs) :=
      runs_first hlabels hrun hvalue fun regs₂ h₂ => hend first.reg regs₂ (.inl h₂)
    simp only [List.cons_append, List.append_assoc, List.nil_append] at hcode
    exact hcode
  · rw [if_neg hne] at hchosen hpchosen
    have hdecide : (decide (b.value ≠ 0) == false) = true := by
      rw [decide_eq_false hne]
      rfl
    rw [hdecide] at hrun
    have hrange := inRange_code (sameType_of_plain hpchosen hchosen) (inRange_meaning hchosen)
    have hvalue : ∀ regs₁, Kept c.getReg.allocLabel.allocLabel b.store b.writes regs regs₁ →
        Runs prog (second.code ++ coerced.code) regs₁ fun regs₂ =>
          Kept c b'.store (b.writes ++ b'.writes) regs regs₂ ∧
            regs₂ coerced.reg = t.wrap b'.value := by
      intro regs₁ hk
      refine (h2.value b.store b' hchosen hpchosen first.next second regs₁ hsecond
        hk.agree).append fun regs₂ h₂ => ?_
      refine (h₂.coerce hcoerced (convertsAs_of_promoted hpromoted) hrange).mono
        fun regs₃ h₃ => ?_
      exact ⟨(hk.weaken (Nat.le_succ _)).trans h₃.toKept ((Nat.le_succ _).trans
        (hgrows.trans hgrows1)), h₃.value⟩
    have hcode : Runs prog (branch.code ++ ((first.code ++ [.mov t (.temp c.regs) first.reg,
        .jump (.alloc (c.labels + 1))]) ++ .mark (.alloc c.labels) :: ((second.code ++
          coerced.code) ++ [.mov t (.temp c.regs) coerced.reg,
          .mark (.alloc (c.labels + 1))]))) regs
        (Computed c b'.store [] (b.writes ++ b'.writes) coerced.next (.temp c.regs)
          (t.wrap b'.value) regs) :=
      runs_second hlabels hrun hvalue fun regs₂ h₂ => hend coerced.reg regs₂ (.inr h₂)
    simp only [List.cons_append, List.append_assoc, List.nil_append] at hcode
    exact hcode

end Values

/-- The code of an expression computes what C says, where the evaluation is plain. -/
theorem computesExpr (hlabels : ∀ n, marks (.alloc n) prog ≤ 1) (e : Expr) :
    ComputesExpr prog e := by
  induction e with
  | identifier d =>
    refine .of_value (fun _ _ => rfl) (fun _ => rfl) fun σ a ha _ c o regs ho hagree => ?_
    cases ho
    obtain ⟨v, hv, rfl⟩ := Option.map_eq_some_iff.mp ha
    exact .nil ⟨.start hagree, Nat.le_refl _, List.mem_cons_self, hagree d v hv⟩
  | constIdentifier d e ih =>
    exact .of_value (fun _ _ => rfl) (fun _ => rfl) fun _ _ => evaluates_constIdentifier ih
  | constant v =>
    refine .of_value (fun _ _ => rfl) (fun _ => rfl) fun σ a ha hplain c o regs ho hagree => ?_
    have hrange := inRange_meaning ha
    cases ho
    cases ha
    refine .set (.nil ?_)
    have hkept := (Kept.start hagree).temp (Nat.le_refl c.regs) (IntType.wrap .i v)
    refine ⟨hkept, Nat.le_succ _, ⟨Nat.le_refl _, Nat.lt_succ_self _⟩, ?_⟩
    rw [Function.update_self]
    exact IntType.wrap_of_inRange hrange
  | cast t e ih => exact .of_value (fun _ _ => rfl) (fun _ => rfl) fun _ _ => evaluates_cast ih
  | unary op e ih =>
    exact .of_value (fun _ _ => rfl) (fun _ => rfl) fun _ _ => evaluates_unary hlabels ih
  | arith op l r ihl ihr =>
    exact .of_value (fun _ _ => rfl) (fun _ => rfl) fun _ _ => evaluates_arith ihl ihr
  | compare op l r ihl ihr =>
    refine ⟨fun _ _ => evaluates_compare hlabels ihl ihr, fun target reverse σ a ha hplain hback =>
      branches_compare ihl ihr ha hplain hback⟩
  | logical op l r ihl ihr =>
    exact .of_value (fun _ _ => rfl) (fun _ => rfl) fun _ _ => evaluates_logical hlabels ihl ihr
  | incdec dec post d =>
    exact .of_value (fun _ _ => rfl) (fun _ => rfl) fun _ _ => evaluates_incdec
  | conditional e e1 e2 ih ih1 ih2 =>
    exact .of_value (fun _ _ => rfl) (fun _ => rfl) fun _ _ =>
      evaluates_conditional hlabels ih ih1 ih2
  | comma l r ihl ihr =>
    exact .of_value (fun _ _ => rfl) (fun _ => rfl) fun _ _ => evaluates_comma ihl ihr
  | assignment d e ih =>
    exact .of_value (fun _ _ => rfl) (fun _ => rfl) fun _ _ => evaluates_assignment ih
  | opAssignment op d e ih =>
    exact .of_value (fun _ _ => rfl) (fun _ => rfl) fun _ _ => evaluates_opAssignment ih

end Cod
end FFS
