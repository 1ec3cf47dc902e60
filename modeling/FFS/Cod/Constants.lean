import FFS.Cod.Characters
import FFS.Cod.Coercion
import FFS.Cod.FreshLabels
import FFS.Cod.Meaning

/-!
# Constant expressions

Two functions fold the expressions that `is_constant_expr` accepts, `evaluate_constant_return_expr`
to a constant node and `evaluate_constant_expr` to a `long`, and `cg_expr` generates code for them.
All three read the constants again from their spelling.  The trees are those behind semantic
analysis: an identifier has its declaration, and a cast its type.
-/

namespace FFS
namespace Cod

open Machine

inductive ConstExpr where
  | integer (constVal : IntLiteral)
  | character (start : CharPrefix) (item : CharItem)
  /-- An identifier with its declaration, whether it is `const`, and its initial value. -/
  | identifier (decl : Decl) (constVar : Bool) (initValue : ConstExpr)
  | cast (cgType : IntType) (expression : ConstExpr)
  /-- `sizeof` of a type, which is in a cast without an expression. -/
  | sizeofType (cgType : IntType)
  | sizeofExpr (right : ConstExpr)
  | unary (op : UnaryOp) (right : ConstExpr)
  | arith (op : ArithOp) (left right : ConstExpr)
  | compare (op : CompareOp) (left right : ConstExpr)
  | logical (op : LogicalOp) (left right : ConstExpr)

/-- `dill_type_size` -/
def dillTypeSize (t : IntType) : Nat := t.width / 8

namespace ConstExpr

/-- `cod_sm_get_type` -/
def codSmGetType : ConstExpr → IntType
  | integer lit => (typeOfIntConstString lit.text).getD .i
  | character _ _ => .c
  | identifier decl _ _ => decl.cgType
  | cast cgType _ => cgType
  | sizeofType _ | sizeofExpr _ => .i
  | unary .logNeg _ => .i
  | unary op right => determineUnaryType op right.codSmGetType
  | arith op left right => determineOpType (isShift op) left.codSmGetType right.codSmGetType
  | compare _ _ _ | logical _ _ _ => .i

/-- `cg_get_size`, which fails an assertion on a constant. -/
def cgGetSize : ConstExpr → Option Nat
  | integer _ | character _ _ => none
  | e => some (dillTypeSize e.codSmGetType)

end ConstExpr

/-! ## Folding -/

/-- How an evaluation ends: with a value, with a report of failure, with a failed assertion or a
trap, or with the value of a variable that was not set. -/
inductive Folded (α : Type) where
  | value (a : α)
  | failure
  | crash
  | unset
deriving DecidableEq

namespace Folded

def bind {α β : Type} (x : Folded α) (f : α → Folded β) : Folded β :=
  match x with
  | value a => f a
  | failure => failure
  | crash => crash
  | unset => unset

instance : Monad Folded where
  pure := value
  bind := bind

theorem of_bind {α β : Type} {x : Folded α} {f : α → Folded β} {b : β}
    (h : (x >>= f) = .value b) : ∃ a, x = .value a ∧ f a = .value b := by
  cases x with
  | value a => exact ⟨a, rfl, h⟩
  | _ => cases h

/-- What `sscanf` leaves in a variable. -/
def scanned {α : Type} : Option α → Folded α
  | some a => value a
  | none => unset

end Folded

/-- An arithmetic operator on two `long`s.  A division traps. -/
def foldArith (op : ArithOp) (left right : Int) : Folded Int :=
  match op.machine .l left right with
  | some v => .value v
  | none => if op = .div ∨ op = .mod then .crash else .unset

/-- A comparison of two `long`s.  `==` is written as an assignment. -/
def foldCompare (op : CompareOp) (left right : Int) : Int :=
  if op = .eq then right else truth (op.holds left right)

def foldLogical (op : LogicalOp) (left right : Int) : Int :=
  match op with
  | .or => truth (decide (left ≠ 0) || decide (right ≠ 0))
  | .and => truth (decide (left ≠ 0) && decide (right ≠ 0))

/-- An operator without a left operand, where `left` has what the source's variable has. -/
def foldUnary (op : UnaryOp) (left : Folded Int) (right : Int) : Folded Int :=
  match op with
  | .plus => do foldArith .add (← left) right
  | .minus => do foldArith .sub (← left) right
  | .not => .value (-right - 1)
  | .logNeg => .value (truth (decide (right = 0)))

inductive ConstantToken where
  | integerConstant
  | characterConstant
deriving DecidableEq

/-- A constant node. -/
structure ConstantNode where
  token : ConstantToken
  constVal : List UInt8
deriving DecidableEq

/-- `get_constant_long_value` -/
def getConstantLongValue (node : ConstantNode) : Folded Int :=
  match node.token with
  | .integerConstant => .scanned (sscanfLd node.constVal)
  | .characterConstant => .value (node.constVal.headD 0).toNat

/-- The constant node of a result. -/
def newConstant (value : Int) : ConstantNode := ⟨.integerConstant, decimal value⟩

namespace ConstExpr

/-- `evaluate_constant_return_expr`.  In the declaration of an identifier it takes another field,
which is NULL for a scalar, for the declaration of an identifier. -/
def evaluateConstantReturnExpr : ConstExpr → Folded ConstantNode
  | integer lit => .value ⟨.integerConstant, lit.text⟩
  | character start item => .value ⟨.characterConstant, characterText start item⟩
  | identifier _ constVar _ => if constVar then .crash else .failure
  | cast _ e => e.evaluateConstantReturnExpr
  | sizeofType cgType | sizeofExpr (cast cgType _) => .value (newConstant (dillTypeSize cgType))
  | sizeofExpr _ => .crash
  | unary op r => do
    let right ← r.evaluateConstantReturnExpr
    let rightVal ← getConstantLongValue right
    let value ← foldUnary op (.value 0) rightVal
    .value (newConstant value)
  | arith op l r => do
    let left ← l.evaluateConstantReturnExpr
    let right ← r.evaluateConstantReturnExpr
    let leftVal ← getConstantLongValue left
    let rightVal ← getConstantLongValue right
    if op = .mod ∧ rightVal = 0 then .failure
    else do
      let value ← foldArith op leftVal rightVal
      .value (newConstant value)
  | compare op l r => do
    let left ← l.evaluateConstantReturnExpr
    let right ← r.evaluateConstantReturnExpr
    let leftVal ← getConstantLongValue left
    let rightVal ← getConstantLongValue right
    .value (newConstant (foldCompare op leftVal rightVal))
  | logical op l r => do
    let left ← l.evaluateConstantReturnExpr
    let right ← r.evaluateConstantReturnExpr
    let leftVal ← getConstantLongValue left
    let rightVal ← getConstantLongValue right
    .value (newConstant (foldLogical op leftVal rightVal))

/-- `evaluate_constant_expr` on a constant.  It knows no binary and no character constants. -/
def evaluateConstant (val : List UInt8) : Folded Int :=
  if val.head? = some (chr '0') then
    if val.tail.head? = some (chr 'x') then .scanned (sscanfUnsigned 16 (val.drop 2))
    else .scanned (sscanfUnsigned 8 val)
  else .scanned (sscanfLd val)

/-- `evaluate_constant_expr` -/
def evaluateConstantExpr : ConstExpr → Folded Int
  | integer lit => evaluateConstant lit.text
  | character start item => evaluateConstant (characterText start item)
  | identifier _ constVar initValue =>
    if constVar then initValue.evaluateConstantExpr else .failure
  | cast _ e => e.evaluateConstantExpr
  | sizeofType cgType => .value (dillTypeSize cgType)
  | sizeofExpr right =>
    match right.cgGetSize with
    | some size => .value size
    | none => .crash
  | unary op r => do
    let right ← r.evaluateConstantExpr
    foldUnary op .unset right
  | arith op l r => do
    let left ← l.evaluateConstantExpr
    let right ← r.evaluateConstantExpr
    foldArith op left right
  | compare op l r => do
    let left ← l.evaluateConstantExpr
    let right ← r.evaluateConstantExpr
    .value (foldCompare op left right)
  | logical op l r => do
    let left ← l.evaluateConstantExpr
    let right ← r.evaluateConstantExpr
    .value (foldLogical op left right)

/-! ## Code -/

/-- `cg_expr`.  `wide` is what `dill_setu` makes of a large immediate. -/
def cgExpr (wide : Bool) : ConstExpr → Counts → Option Operand
  | integer lit, c => (loadInteger wide lit.text).map fun constant =>
    ⟨⟨[.set constant.1 (.temp c.regs) constant.2], c.getReg⟩, .temp c.regs⟩
  | character start item, c => (loadCharacter (characterText start item)).map fun l =>
    ⟨⟨[.set .i (.temp c.regs) l], c.getReg⟩, .temp c.regs⟩
  | identifier decl constVar initValue, c =>
    if constVar then initValue.cgExpr wide c else some ⟨⟨[], c⟩, .oprnd decl⟩
  | cast cgType e, c => castCode (e.cgExpr wide) cgType e.codSmGetType c
  | sizeofType cgType, c =>
    some ⟨⟨[.set .i (.temp c.regs) (dillTypeSize cgType)], c.getReg⟩, .temp c.regs⟩
  | sizeofExpr right, c => right.cgGetSize.map fun size =>
    ⟨⟨[.set .i (.temp c.regs) size], c.getReg⟩, .temp c.regs⟩
  | unary op right, c => operatorCode op (right.cgExpr wide) right.codSmGetType c
  | arith op left right, c => arithCode op (left.cgExpr wide) (right.cgExpr wide)
    left.codSmGetType right.codSmGetType c
  | compare op left right, c => compareCode op (left.cgExpr wide) (right.cgExpr wide)
    left.codSmGetType right.codSmGetType c
  | logical op left right, c => logicalCode op (left.cgExpr wide) (right.cgExpr wide)
    left.codSmGetType right.codSmGetType c

/-! ## What C says -/

def cType : ConstExpr → IntType
  | integer lit => lit.cType.getD .i
  | character .char16 _ => .us
  | character .char32 _ => .u
  | character _ _ => .i
  | identifier decl _ _ => decl.cgType
  | cast cgType _ => cgType
  | sizeofType _ | sizeofExpr _ => .ul
  | unary .logNeg _ => .i
  | unary _ right => right.cType.promote
  | arith op left right =>
    if isShift op then left.cType.promote else left.cType.usual right.cType
  | compare _ _ _ | logical _ _ _ => .i

/-- C's value, none where the behaviour is undefined. -/
def cValue : ConstExpr → Option Int
  | integer lit => lit.cType.map fun _ => (lit.value : Int)
  | character start item => item.cValue start
  | identifier decl constVar initValue =>
    if constVar then initValue.cValue.map decl.cgType.wrap else none
  | cast cgType e => e.cValue.map cgType.wrap
  | sizeofType cgType => some (dillTypeSize cgType)
  | sizeofExpr right => some (dillTypeSize right.cType)
  | unary op right => do cUnary op right.cType.promote (← right.cValue)
  | arith op left right => do cArith op left.cType right.cType (← left.cValue) (← right.cValue)
  | compare op left right => do
    let t := left.cType.usual right.cType
    some (truth (op.holds (t.wrap (← left.cValue)) (t.wrap (← right.cValue))))
  | logical op left right => do
    let x ← left.cValue
    if decide (x ≠ 0) = decide (op = .or) then some (truth (decide (op = .or)))
    else some (truth (decide ((← right.cValue) ≠ 0)))

end ConstExpr

end Cod
end FFS
