import FFS.Machine.Integers

/-!
# COD parse trees

The trees of programs on local variables of the integer types, after names are bound: an
identifier has the declaration that it stands for.  A program that writes a constant variable is
none of C's, so only expressions read these.  A NULL statement, as the parser makes of a lone
semicolon, is `empty`.
-/

namespace FFS
namespace Cod

open Machine

/-- A declaration node. -/
structure Decl where
  node : Nat
  cgType : IntType
  deriving DecidableEq

/-- A declaration node with `const_var` set.  It has no register. -/
structure ConstDecl where
  node : Nat
  cgType : IntType
  deriving DecidableEq

/-- `op_plus`, `op_minus`, `op_not` and `op_log_neg` with one operand. -/
inductive UnaryOp where
  | plus | minus | not | logNeg
  deriving DecidableEq

inductive CompareOp where
  | leq | lt | geq | gt | eq | neq
  deriving DecidableEq

inductive LogicalOp where
  | or | and
  deriving DecidableEq

inductive Expr where
  | identifier (decl : Decl)
  /-- A constant variable, with the initialiser that its declaration has. -/
  | constIdentifier (decl : ConstDecl) (initValue : Expr)
  | constant (value : Fin (2 ^ 31))
  | cast (cgType : IntType) (expression : Expr)
  | unary (op : UnaryOp) (right : Expr)
  | arith (op : ArithOp) (left right : Expr)
  | compare (op : CompareOp) (left right : Expr)
  | logical (op : LogicalOp) (left right : Expr)
  /-- `op_inc` and `op_dec`, before or behind a variable. -/
  | incdec (dec : Bool) (post : Bool) (decl : Decl)
  | conditional (condition e1 e2 : Expr)
  | comma (left right : Expr)
  | assignment (left : Decl) (right : Expr)
  | opAssignment (op : ArithOp) (left : Decl) (right : Expr)

inductive Stmt where
  | empty
  /-- A list: a statement or declaration and the rest. -/
  | seq (item rest : Stmt)
  | compound (list : Stmt)
  | declaration (decl : Decl) (initValue : Option Expr)
  | constDeclaration (decl : ConstDecl) (initValue : Option Expr)
  | expression (expression : Expr)
  | selection (conditional : Expr) (thenPart elsePart : Stmt)
  | iteration (initExpr testExpr postTestExpr iterExpr : Option Expr) (statement : Stmt)
  | label (name : Nat) (statement : Stmt)
  | goto (target : Nat)
  | continue
  | break
  | return (expression : Option Expr)

/-- A program, and the type that the context has for what it returns. -/
structure Program where
  body : Stmt
  returnCgType : Option IntType

/-! ## Types -/

/-- The integer promotion of the operand types. -/
def promotion : IntType → IntType
  | .c | .uc | .s | .us => .i
  | t => t

/-- `determine_unary_type`. -/
def determineUnaryType (op : UnaryOp) (right : IntType) : IntType :=
  if op = .minus then
    match promotion right with
    | .u => .i
    | .ul => .l
    | t => t
  else promotion right

/-- `determine_op_type`. -/
def determineOpType (shift : Bool) (left right : IntType) : IntType :=
  let left := promotion left
  let right := promotion right
  if shift then left
  else if left = .ul ∨ right = .ul then .ul
  else if left = .l ∨ right = .l then .l
  else if left = .u ∨ right = .u then .u
  else .i

def isShift : ArithOp → Bool
  | .lsh | .rsh => true
  | _ => false

namespace Expr

/-- `cod_sm_get_type`. -/
def codSmGetType : Expr → IntType
  | identifier decl => decl.cgType
  | constIdentifier decl _ => decl.cgType
  | constant _ => .i
  | cast cgType _ => cgType
  | unary .logNeg _ => .i
  | unary op right => determineUnaryType op right.codSmGetType
  | arith op left right => determineOpType (isShift op) left.codSmGetType right.codSmGetType
  | compare _ _ _ => .i
  | logical _ _ _ => .i
  | incdec _ _ decl => determineUnaryType .plus decl.cgType
  -- The first operand alone decides.
  | conditional _ e1 _ => determineUnaryType .plus e1.codSmGetType
  | comma _ right => right.codSmGetType
  | assignment left _ => left.cgType
  | opAssignment _ left _ => left.cgType

end Expr

end Cod
end FFS
