import FFS.Cod.Tree
import FFS.Machine.Instructions

/-!
# The code generator

`cg_expr`, `cg_statement` and what they call, on trees of integer programs.  A generator gets the
counts of the registers and labels that dill has given out and returns the instructions that it
adds to the stream.  It has no result where the source fails an assertion.
-/

namespace FFS
namespace Cod

open Machine

/-- A register: the `cg_oprnd` of a declaration, or one got for a value on the way. -/
inductive Reg where
  | oprnd (decl : Decl)
  | temp (n : Nat)
  deriving DecidableEq

/-- A label: the `cg_label` of a label statement, or one allocated by a generator. -/
inductive Label where
  | named (name : Nat)
  | alloc (n : Nat)
  deriving DecidableEq

abbrev Code := List (Insn Reg Label)

structure Counts where
  regs : Nat
  labels : Nat

/-- `dill_getreg`. -/
def Counts.getReg (c : Counts) : Counts := { c with regs := c.regs + 1 }

/-- `dill_alloc_label`. -/
def Counts.allocLabel (c : Counts) : Counts := { c with labels := c.labels + 1 }

/-- What a generator adds to the stream, and the counts after it. -/
structure Piece where
  code : Code
  next : Counts

/-- The same with the register of an operand. -/
structure Operand extends Piece where
  reg : Reg

/-! ## Conversions -/

/-- The instructions of `coerce_type` for two types that differ. -/
def coercion (ret obj : Reg) : IntType → IntType → Option Code
  | .c, .uc | .uc, .uc => some [.arithi .or .i ret obj 0xff]
  | .c, .c | .uc, .c => some [.cv .uc .i ret obj]
  | .c, .s | .c, .us | .uc, .s | .uc, .us => none
  | .s, .c => some [.cv .c .i ret obj, .cv .i .s ret ret]
  | .us, .c => some [.cv .c .i ret obj, .cv .i .us ret ret]
  | .s, .s => some [.mov .s ret obj]
  | .us, .s => some [.cv .s .i ret obj, .cv .i .us ret ret]
  | .s, .uc | .s, .us | .us, .uc | .us, .us => none
  | .i, .uc | .u, .uc | .l, .uc | .ul, .uc => some [.arithi .and .i ret obj 0xff]
  | target, objType => some [.cv objType target ret obj]

/-- `coerce_type`. -/
def coerceType (c : Counts) (obj : Reg) (target objType : IntType) : Option Operand :=
  if target = objType then some ⟨⟨[], c⟩, obj⟩
  else (coercion (.temp c.regs) obj target objType).map fun code =>
    ⟨⟨code, c.getReg⟩, .temp c.regs⟩

/-- An operand in `operator_prep`: the value, its promotion and the type of the operation. -/
def prepOperand (cg : Counts → Option Operand) (cgType opType : IntType) (c : Counts) :
    Option Operand := do
  let value ← cg c
  let promoted ← coerceType value.next value.reg (promotion cgType) cgType
  let coerced ← coerceType promoted.next promoted.reg opType (promotion cgType)
  some ⟨⟨value.code ++ promoted.code ++ coerced.code, coerced.next⟩, coerced.reg⟩

/-! ## Branches -/

/-- `gen_bz`. -/
def genBz (reg : Reg) (target : Label) : IntType → Code
  | .c | .s | .i => [.bri .eq .i reg 0 target]
  | .uc | .us | .u => [.bri .eq .u reg 0 target]
  | .l => [.bri .eq .l reg 0 target]
  | .ul => [.bri .eq .ul reg 0 target]

/-- `gen_bnz`, which emits nothing for the short types. -/
def genBnz (reg : Reg) (target : Label) : IntType → Code
  | .i => [.bri .ne .i reg 0 target]
  | .u => [.bri .ne .u reg 0 target]
  | .l => [.bri .ne .l reg 0 target]
  | .ul => [.bri .ne .ul reg 0 target]
  | .c | .uc | .s | .us => []

/-- `reverse_operator`. -/
def reverseOperator : CompareOp → Compare
  | .neq => .eq
  | .eq => .ne
  | .gt => .le
  | .geq => .lt
  | .lt => .ge
  | .leq => .gt

/-- `operator_to_dill_op`. -/
def operatorToDillOp : CompareOp → Compare
  | .neq => .ne
  | .eq => .eq
  | .gt => .gt
  | .geq => .gt
  | .lt => .lt
  | .leq => .le

/-- `cg_branch_if_false` on a comparison. -/
def branchOnCompare (op : CompareOp) (left right : Counts → Option Operand)
    (leftType rightType : IntType) (target : Label) (reverse : Bool) (c : Counts) :
    Option Piece := do
  let opType := determineOpType false leftType rightType
  let left ← prepOperand left leftType opType c
  let right ← prepOperand right rightType opType left.next
  let branch := if reverse then operatorToDillOp op else reverseOperator op
  some ⟨left.code ++ right.code ++ [.br branch opType left.reg right.reg target], right.next⟩

/-- `cg_branch_if_false` on another expression. -/
def branchOnValue (value : Counts → Option Operand) (cgType : IntType) (target : Label)
    (reverse : Bool) (c : Counts) : Option Piece := do
  let value ← value c
  let branch := if reverse then genBnz value.reg target cgType else genBz value.reg target cgType
  some ⟨value.code ++ branch, value.next⟩

/-! ## Expressions -/

/-- `generate_short_circuit` for the first operand. -/
def shortCircuitLeft (op : LogicalOp) (opType : IntType) (result operand : Reg) (target : Label) :
    Code :=
  match op with
  | .or => .set opType result 1 :: genBnz operand target opType
  | .and => .set opType result 0 :: genBz operand target opType

/-- `generate_short_circuit` for the second operand. -/
def shortCircuitRight (op : LogicalOp) (opType : IntType) (result operand : Reg)
    (target : Label) : Code :=
  match op with
  | .or => genBnz operand target opType ++ [.set opType result 0]
  | .and => genBz operand target opType ++ [.set opType result 1]

/-- `cg_operator` with one operand. -/
def unaryCode (op : UnaryOp) (opType : IntType) (result : Reg) (right : Operand) : Operand :=
  let left := Reg.temp right.next.regs
  match op with
  | .plus => right
  | .minus =>
    ⟨⟨right.code ++ [.set opType left 0, .arith .sub opType result left right.reg],
      right.next.getReg⟩, result⟩
  | .not =>
    ⟨⟨right.code ++ [.set opType left (-1), .arith .xor opType result left right.reg],
      right.next.getReg⟩, result⟩
  | .logNeg =>
    let trueLabel := Label.alloc right.next.labels
    ⟨⟨right.code ++ [.set opType left 0, .set .i result 0,
        .br .ne opType left right.reg trueLabel, .set .i result 1, .mark trueLabel],
      right.next.getReg.allocLabel⟩, result⟩

/-- `cg_expr` on a cast. -/
def castCode (e : Counts → Option Operand) (cgType eType : IntType) (c : Counts) :
    Option Operand := do
  let right ← e c
  let coerced ← coerceType right.next right.reg cgType eType
  some ⟨⟨right.code ++ coerced.code, coerced.next⟩, coerced.reg⟩

/-- `cg_operator` with one operand. -/
def operatorCode (op : UnaryOp) (right : Counts → Option Operand) (rightType : IntType)
    (c : Counts) : Option Operand := do
  let opType := determineUnaryType op rightType
  let operand ← prepOperand right rightType opType c.getReg
  some (unaryCode op opType (.temp c.regs) operand)

/-- `cg_operator` on numbers. -/
def arithCode (op : ArithOp) (left right : Counts → Option Operand)
    (leftType rightType : IntType) (c : Counts) : Option Operand := do
  let opType := determineOpType (isShift op) leftType rightType
  let leftOp ← prepOperand left leftType opType c.getReg
  let rightOp ← prepOperand right rightType opType leftOp.next
  some ⟨⟨leftOp.code ++ rightOp.code ++
    [.arith op opType (.temp c.regs) leftOp.reg rightOp.reg], rightOp.next⟩, .temp c.regs⟩

/-- `cg_operator` on a comparison. -/
def compareCode (op : CompareOp) (left right : Counts → Option Operand)
    (leftType rightType : IntType) (c : Counts) : Option Operand := do
  let falseLabel := Label.alloc c.labels
  let branch ← branchOnCompare op left right leftType rightType falseLabel false
    c.getReg.allocLabel
  some ⟨⟨.set .i (.temp c.regs) 0 :: (branch.code ++
    [.set .i (.temp c.regs) 1, .mark falseLabel]), branch.next⟩, .temp c.regs⟩

/-- `cg_operator` on `&&` and `||`. -/
def logicalCode (op : LogicalOp) (left right : Counts → Option Operand)
    (leftType rightType : IntType) (c : Counts) : Option Operand := do
  let opType := determineOpType false leftType rightType
  let leftOp ← prepOperand left leftType opType c.getReg
  let result := Reg.temp leftOp.next.regs
  let target := Label.alloc leftOp.next.labels
  let rightOp ← prepOperand right rightType opType leftOp.next.getReg.allocLabel
  some ⟨⟨leftOp.code ++ (shortCircuitLeft op opType result leftOp.reg target ++ (rightOp.code ++
    (shortCircuitRight op opType result rightOp.reg target ++ [.mark target]))),
    rightOp.next⟩, result⟩

/-- `cg_expr` on a conditional operator, with the branch to the second operand. -/
def conditionalCode (branch : Label → Counts → Option Piece) (e1 e2 : Counts → Option Operand)
    (resultType e2Type : IntType) (c : Counts) : Option Operand := do
  let result := Reg.temp c.regs
  let falseLabel := Label.alloc c.labels
  let endLabel := Label.alloc (c.labels + 1)
  let branch ← branch falseLabel c.getReg.allocLabel.allocLabel
  let e1 ← e1 branch.next
  let e2 ← e2 e1.next
  let coerced ← coerceType e2.next e2.reg resultType e2Type
  some ⟨⟨branch.code ++ (e1.code ++ (.mov resultType result e1.reg :: .jump endLabel ::
    .mark falseLabel :: (e2.code ++ (coerced.code ++
      [.mov resultType result coerced.reg, .mark endLabel])))), coerced.next⟩, result⟩

/-- `cg_expr`. -/
def cgExpr : Expr → Counts → Option Operand
  | .identifier decl, c => some ⟨⟨[], c⟩, .oprnd decl⟩
  -- A simple constant variable is its initialiser, generated again at each use.
  | .constIdentifier _ initValue, c => cgExpr initValue c
  | .constant value, c => some ⟨⟨[.set .i (.temp c.regs) value.val], c.getReg⟩, .temp c.regs⟩
  | .cast cgType e, c => castCode (cgExpr e) cgType e.codSmGetType c
  | .unary op right, c => operatorCode op (cgExpr right) right.codSmGetType c
  | .arith op left right, c =>
    arithCode op (cgExpr left) (cgExpr right) left.codSmGetType right.codSmGetType c
  | .compare op left right, c =>
    compareCode op (cgExpr left) (cgExpr right) left.codSmGetType right.codSmGetType c
  | .logical op left right, c =>
    logicalCode op (cgExpr left) (cgExpr right) left.codSmGetType right.codSmGetType c
  | .incdec dec post decl, c =>
    let opType := determineUnaryType .plus decl.cgType
    let result := Reg.temp c.regs
    let change := Insn.arithi (if dec then .sub else .add) opType (.oprnd decl) (.oprnd decl) 1
    let fetch := Insn.mov opType result (.oprnd decl)
    some ⟨⟨if post then [fetch, change] else [change, fetch], c.getReg⟩, result⟩
  | .conditional (.compare op left right) e1 e2, c =>
    conditionalCode (fun target => branchOnCompare op (cgExpr left) (cgExpr right)
      left.codSmGetType right.codSmGetType target false) (cgExpr e1) (cgExpr e2)
      (determineUnaryType .plus e1.codSmGetType) e2.codSmGetType c
  | .conditional condition e1 e2, c =>
    conditionalCode (fun target => branchOnValue (cgExpr condition) condition.codSmGetType target
      false) (cgExpr e1) (cgExpr e2) (determineUnaryType .plus e1.codSmGetType) e2.codSmGetType c
  | .comma left right, c => do
    let left ← cgExpr left c
    let right ← cgExpr right left.next
    some ⟨⟨left.code ++ right.code, right.next⟩, right.reg⟩
  | .assignment left right, c => do
    let value ← cgExpr right c
    let coerced ← coerceType value.next value.reg left.cgType right.codSmGetType
    some ⟨⟨value.code ++ (coerced.code ++ [.mov left.cgType (.oprnd left) coerced.reg]),
      coerced.next⟩, .oprnd left⟩
  | .opAssignment op left right, c => do
    let value ← cgExpr right c
    let coerced ← coerceType value.next value.reg left.cgType right.codSmGetType
    let result := Reg.temp coerced.next.regs
    some ⟨⟨value.code ++ (coerced.code ++ [.arith op left.cgType result (.oprnd left) coerced.reg,
      .mov left.cgType (.oprnd left) result]), coerced.next.getReg⟩, .oprnd left⟩

/-- `cg_branch_if_false`; with `reverse` it branches if true. -/
def cgBranchIfFalse (pred : Expr) (target : Label) (reverse : Bool) (c : Counts) :
    Option Piece :=
  match pred with
  | .compare op left right =>
    branchOnCompare op (cgExpr left) (cgExpr right) left.codSmGetType right.codSmGetType target
      reverse c
  | pred => branchOnValue (cgExpr pred) pred.codSmGetType target reverse c

theorem cgExpr_conditional (condition e1 e2 : Expr) (c : Counts) :
    cgExpr (.conditional condition e1 e2) c =
      conditionalCode (fun target => cgBranchIfFalse condition target false) (cgExpr e1)
        (cgExpr e2) (determineUnaryType .plus e1.codSmGetType) e2.codSmGetType c := by
  cases condition <;> rfl

/-! ## What a generator was made from -/

section Inversion

variable {c : Counts} {o : Operand} {p : Piece} {e l r e1 e2 : Expr}

theorem coerceType_some {obj : Reg} {target objType : IntType}
    (h : coerceType c obj target objType = some o) :
    target = objType ∧ o = ⟨⟨[], c⟩, obj⟩ ∨ target ≠ objType ∧ ∃ code,
      coercion (.temp c.regs) obj target objType = some code ∧
        o = ⟨⟨code, c.getReg⟩, .temp c.regs⟩ := by
  unfold coerceType at h
  split at h
  · next heq => exact .inl ⟨heq, (Option.some.inj h).symm⟩
  · next hne =>
    obtain ⟨code, hcode, ho⟩ := Option.map_eq_some_iff.mp h
    exact .inr ⟨hne, code, hcode, ho.symm⟩

theorem prepOperand_some {cg : Counts → Option Operand} {cgType opType : IntType}
    (h : prepOperand cg cgType opType c = some o) :
    ∃ value promoted coerced, cg c = some value ∧
      coerceType value.next value.reg (promotion cgType) cgType = some promoted ∧
      coerceType promoted.next promoted.reg opType (promotion cgType) = some coerced ∧
      o = ⟨⟨value.code ++ promoted.code ++ coerced.code, coerced.next⟩, coerced.reg⟩ := by
  simp only [prepOperand, Option.bind_eq_bind, Option.bind_eq_some_iff, Option.some.injEq] at h
  obtain ⟨value, hvalue, promoted, hpromoted, coerced, hcoerced, ho⟩ := h
  exact ⟨value, promoted, coerced, hvalue, hpromoted, hcoerced, ho.symm⟩

theorem branchOnCompare_some {op : CompareOp} {left right : Counts → Option Operand}
    {leftType rightType : IntType} {target : Label} {reverse : Bool}
    (h : branchOnCompare op left right leftType rightType target reverse c = some p) :
    ∃ leftOp rightOp, prepOperand left leftType (determineOpType false leftType rightType) c =
        some leftOp ∧
      prepOperand right rightType (determineOpType false leftType rightType) leftOp.next =
        some rightOp ∧
      p = ⟨leftOp.code ++ rightOp.code ++ [.br
        (if reverse then operatorToDillOp op else reverseOperator op)
        (determineOpType false leftType rightType) leftOp.reg rightOp.reg target],
        rightOp.next⟩ := by
  simp only [branchOnCompare, Option.bind_eq_bind, Option.bind_eq_some_iff,
    Option.some.injEq] at h
  obtain ⟨leftOp, hleft, rightOp, hright, hp⟩ := h
  exact ⟨leftOp, rightOp, hleft, hright, hp.symm⟩

theorem branchOnValue_some {value : Counts → Option Operand} {cgType : IntType} {target : Label}
    {reverse : Bool} (h : branchOnValue value cgType target reverse c = some p) :
    ∃ valueOp, value c = some valueOp ∧
      p = ⟨valueOp.code ++ (if reverse then genBnz valueOp.reg target cgType
        else genBz valueOp.reg target cgType), valueOp.next⟩ := by
  simp only [branchOnValue, Option.bind_eq_bind, Option.bind_eq_some_iff, Option.some.injEq] at h
  obtain ⟨valueOp, hvalue, hp⟩ := h
  exact ⟨valueOp, hvalue, hp.symm⟩

theorem castCode_some {cg : Counts → Option Operand} {t eType : IntType}
    (h : castCode cg t eType c = some o) :
    ∃ right coerced, cg c = some right ∧ coerceType right.next right.reg t eType = some coerced ∧
      o = ⟨⟨right.code ++ coerced.code, coerced.next⟩, coerced.reg⟩ := by
  simp only [castCode, Option.bind_eq_bind, Option.bind_eq_some_iff, Option.some.injEq] at h
  obtain ⟨right, hright, coerced, hcoerced, ho⟩ := h
  exact ⟨right, coerced, hright, hcoerced, ho.symm⟩

theorem operatorCode_some {op : UnaryOp} {cg : Counts → Option Operand} {t : IntType}
    (h : operatorCode op cg t c = some o) :
    ∃ operand, prepOperand cg t (determineUnaryType op t) c.getReg = some operand ∧
      o = unaryCode op (determineUnaryType op t) (.temp c.regs) operand := by
  simp only [operatorCode, Option.bind_eq_bind, Option.bind_eq_some_iff, Option.some.injEq] at h
  obtain ⟨operand, hoperand, ho⟩ := h
  exact ⟨operand, hoperand, ho.symm⟩

section

variable {left right : Counts → Option Operand} {leftType rightType : IntType}

theorem arithCode_some {op : ArithOp} (h : arithCode op left right leftType rightType c = some o) :
    ∃ leftOp rightOp, prepOperand left leftType
        (determineOpType (isShift op) leftType rightType) c.getReg = some leftOp ∧
      prepOperand right rightType (determineOpType (isShift op) leftType rightType) leftOp.next =
        some rightOp ∧
      o = ⟨⟨leftOp.code ++ rightOp.code ++ [.arith op
        (determineOpType (isShift op) leftType rightType) (.temp c.regs) leftOp.reg
        rightOp.reg], rightOp.next⟩, .temp c.regs⟩ := by
  simp only [arithCode, Option.bind_eq_bind, Option.bind_eq_some_iff, Option.some.injEq] at h
  obtain ⟨leftOp, hleft, rightOp, hright, ho⟩ := h
  exact ⟨leftOp, rightOp, hleft, hright, ho.symm⟩

theorem compareCode_some {op : CompareOp}
    (h : compareCode op left right leftType rightType c = some o) :
    ∃ branch, branchOnCompare op left right leftType rightType (.alloc c.labels) false
        c.getReg.allocLabel = some branch ∧
      o = ⟨⟨.set .i (.temp c.regs) 0 :: (branch.code ++ [.set .i (.temp c.regs) 1,
        .mark (.alloc c.labels)]), branch.next⟩, .temp c.regs⟩ := by
  simp only [compareCode, Option.bind_eq_bind, Option.bind_eq_some_iff, Option.some.injEq] at h
  obtain ⟨branch, hbranch, ho⟩ := h
  exact ⟨branch, hbranch, ho.symm⟩

theorem logicalCode_some {op : LogicalOp}
    (h : logicalCode op left right leftType rightType c = some o) :
    ∃ leftOp rightOp, prepOperand left leftType (determineOpType false leftType rightType)
        c.getReg = some leftOp ∧
      prepOperand right rightType (determineOpType false leftType rightType)
        leftOp.next.getReg.allocLabel = some rightOp ∧
      o = ⟨⟨leftOp.code ++ (shortCircuitLeft op
          (determineOpType false leftType rightType) (.temp leftOp.next.regs) leftOp.reg
          (.alloc leftOp.next.labels) ++ (rightOp.code ++ (shortCircuitRight op
          (determineOpType false leftType rightType) (.temp leftOp.next.regs) rightOp.reg
          (.alloc leftOp.next.labels) ++ [.mark (.alloc leftOp.next.labels)]))), rightOp.next⟩,
        .temp leftOp.next.regs⟩ := by
  simp only [logicalCode, Option.bind_eq_bind, Option.bind_eq_some_iff, Option.some.injEq] at h
  obtain ⟨leftOp, hleft, rightOp, hright, ho⟩ := h
  exact ⟨leftOp, rightOp, hleft, hright, ho.symm⟩

end

theorem cgExpr_conditional_some (h : cgExpr (.conditional e e1 e2) c = some o) :
    ∃ branch first second coerced,
      cgBranchIfFalse e (.alloc c.labels) false c.getReg.allocLabel.allocLabel = some branch ∧
      cgExpr e1 branch.next = some first ∧ cgExpr e2 first.next = some second ∧
      coerceType second.next second.reg (determineUnaryType .plus e1.codSmGetType)
        e2.codSmGetType = some coerced ∧
      o = ⟨⟨branch.code ++ (first.code ++ (.mov (determineUnaryType .plus e1.codSmGetType)
          (.temp c.regs) first.reg :: .jump (.alloc (c.labels + 1)) :: .mark (.alloc c.labels) ::
          (second.code ++ (coerced.code ++ [.mov (determineUnaryType .plus e1.codSmGetType)
          (.temp c.regs) coerced.reg, .mark (.alloc (c.labels + 1))])))), coerced.next⟩,
        .temp c.regs⟩ := by
  rw [cgExpr_conditional] at h
  simp only [conditionalCode, Option.bind_eq_bind, Option.bind_eq_some_iff,
    Option.some.injEq] at h
  obtain ⟨branch, hbranch, first, hfirst, second, hsecond, coerced, hcoerced, ho⟩ := h
  exact ⟨branch, first, second, coerced, hbranch, hfirst, hsecond, hcoerced, ho.symm⟩

theorem cgExpr_comma (h : cgExpr (.comma l r) c = some o) :
    ∃ left right, cgExpr l c = some left ∧ cgExpr r left.next = some right ∧
      o = ⟨⟨left.code ++ right.code, right.next⟩, right.reg⟩ := by
  simp only [cgExpr, Option.bind_eq_bind, Option.bind_eq_some_iff, Option.some.injEq] at h
  obtain ⟨left, hleft, right, hright, ho⟩ := h
  exact ⟨left, right, hleft, hright, ho.symm⟩

theorem cgExpr_assignment {d : Decl} (h : cgExpr (.assignment d e) c = some o) :
    ∃ value coerced, cgExpr e c = some value ∧
      coerceType value.next value.reg d.cgType e.codSmGetType = some coerced ∧
      o = ⟨⟨value.code ++ (coerced.code ++ [.mov d.cgType (.oprnd d) coerced.reg]),
        coerced.next⟩, .oprnd d⟩ := by
  simp only [cgExpr, Option.bind_eq_bind, Option.bind_eq_some_iff, Option.some.injEq] at h
  obtain ⟨value, hvalue, coerced, hcoerced, ho⟩ := h
  exact ⟨value, coerced, hvalue, hcoerced, ho.symm⟩

theorem cgExpr_opAssignment {op : ArithOp} {d : Decl}
    (h : cgExpr (.opAssignment op d e) c = some o) :
    ∃ value coerced, cgExpr e c = some value ∧
      coerceType value.next value.reg d.cgType e.codSmGetType = some coerced ∧
      o = ⟨⟨value.code ++ (coerced.code ++ [.arith op d.cgType (.temp coerced.next.regs)
        (.oprnd d) coerced.reg, .mov d.cgType (.oprnd d) (.temp coerced.next.regs)]),
        coerced.next.getReg⟩, .oprnd d⟩ := by
  simp only [cgExpr, Option.bind_eq_bind, Option.bind_eq_some_iff, Option.some.injEq] at h
  obtain ⟨value, hvalue, coerced, hcoerced, ho⟩ := h
  exact ⟨value, coerced, hvalue, hcoerced, ho.symm⟩

end Inversion

/-! ## Statements -/

/-- The labels of the iteration statement that a `continue` or `break` has as its target. -/
structure Loop where
  iterLabel : Label
  endLabel : Label

/-- An expression that may be NULL, for its effects. -/
def cgOptional (e : Option Expr) (c : Counts) : Option Piece :=
  match e with
  | none => some ⟨[], c⟩
  | some e => (cgExpr e c).map Operand.toPiece

/-- A branch on an expression that may be NULL. -/
def branchOptional (pred : Option Expr) (target : Label) (reverse : Bool) (c : Counts) :
    Option Piece :=
  match pred with
  | none => some ⟨[], c⟩
  | some pred => cgBranchIfFalse pred target reverse c

/-- The end of `cg_iteration_statement`: back to the beginning, on a condition behind the
statement if there is one. -/
def cgBack (postTestExpr : Option Expr) (begin : Label) (c : Counts) : Option Piece :=
  match postTestExpr with
  | none => some ⟨[.jump begin], c⟩
  | some pred => cgBranchIfFalse pred begin true c

/-- `cg_return_statement`. -/
def cgReturn (returnCgType : Option IntType) (e : Option Expr) (c : Counts) : Option Piece :=
  match returnCgType, e with
  | none, _ => some ⟨[.reti 0], c⟩
  | some _, none => none
  | some cgType, some e => do
    let value ← cgExpr e c
    let coerced ← coerceType value.next value.reg cgType e.codSmGetType
    some ⟨value.code ++ (coerced.code ++ [.ret cgType coerced.reg]), coerced.next⟩

/-- `cg_statement`, `cg_decls_stmts` and, for local variables, `cg_decl`. -/
def cgStatement (returnCgType : Option IntType) : Stmt → Option Loop → Counts → Option Piece
  | .empty, _, c => some ⟨[], c⟩
  | .seq item rest, loop, c => do
    let item ← cgStatement returnCgType item loop c
    let rest ← cgStatement returnCgType rest loop item.next
    some ⟨item.code ++ rest.code, rest.next⟩
  | .compound list, loop, c => cgStatement returnCgType list loop c
  | .declaration _ none, _, c => some ⟨[], c⟩
  | .declaration decl (some e), _, c => do
    let value ← cgExpr e c
    let coerced ← coerceType value.next value.reg decl.cgType e.codSmGetType
    some ⟨value.code ++ (coerced.code ++ [.mov decl.cgType (.oprnd decl) coerced.reg]),
      coerced.next⟩
  | .constDeclaration _ _, _, c => some ⟨[], c⟩
  | .expression e, _, c => (cgExpr e c).map Operand.toPiece
  | .selection conditional thenPart .empty, loop, c => do
    let elseLabel := Label.alloc c.labels
    let branch ← cgBranchIfFalse conditional elseLabel false c.allocLabel
    let thenPart ← cgStatement returnCgType thenPart loop branch.next
    some ⟨branch.code ++ (thenPart.code ++ [.mark elseLabel]), thenPart.next⟩
  | .selection conditional thenPart elsePart, loop, c => do
    let elseLabel := Label.alloc c.labels
    let branch ← cgBranchIfFalse conditional elseLabel false c.allocLabel
    let thenPart ← cgStatement returnCgType thenPart loop branch.next
    let endLabel := Label.alloc thenPart.next.labels
    let elsePart ← cgStatement returnCgType elsePart loop thenPart.next.allocLabel
    some ⟨branch.code ++ (thenPart.code ++ (.jump endLabel :: .mark elseLabel ::
      (elsePart.code ++ [.mark endLabel]))), elsePart.next⟩
  | .iteration initExpr testExpr postTestExpr iterExpr statement, _, c => do
    let beginLabel := Label.alloc c.labels
    let endLabel := Label.alloc (c.labels + 1)
    let iterLabel := Label.alloc (c.labels + 2)
    let init ← cgOptional initExpr c.allocLabel.allocLabel.allocLabel
    let test ← branchOptional testExpr endLabel false init.next
    let body ← cgStatement returnCgType statement (some ⟨iterLabel, endLabel⟩) test.next
    let iter ← cgOptional iterExpr body.next
    let back ← cgBack postTestExpr beginLabel iter.next
    some ⟨init.code ++ (.mark beginLabel :: (test.code ++ (body.code ++ (.mark iterLabel ::
      (iter.code ++ (back.code ++ [.mark endLabel])))))), back.next⟩
  | .label name statement, loop, c => do
    let statement ← cgStatement returnCgType statement loop c
    some ⟨.mark (.named name) :: statement.code, statement.next⟩
  | .goto target, _, c => some ⟨[.jump (.named target)], c⟩
  | .continue, loop, c => loop.map fun loop => ⟨[.jump loop.iterLabel], c⟩
  | .break, loop, c => loop.map fun loop => ⟨[.jump loop.endLabel], c⟩
  | .return e, _, c => cgReturn returnCgType e c

/-- `cod_cg_net`. -/
def codCgNet (p : Program) : Option Code :=
  (cgStatement p.returnCgType (.compound p.body) none ⟨0, 0⟩).map Piece.code

end Cod
end FFS
