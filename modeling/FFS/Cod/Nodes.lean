import FFS.Machine.CString

/-!
# Statement nodes

The nodes of a function body as the parser leaves them: declarations and statements of every
kind.  Of an expression only the function that it calls matters here.  A NULL node is `null`; it
is what the parser makes of a lone semicolon.  Lists of nodes are nodes here, too.
-/

namespace FFS
namespace Cod

open Machine

/-- An expression node, and the function's name if it is a `cod_subroutine_call`. -/
structure Expression where
  node : Nat
  called : Option CString
  deriving DecidableEq

inductive Node where
  | null
  /-- `cod_declaration`, and whether it has an `init_value`. -/
  | declaration (node : Nat) (initValue : Bool)
  /-- `cod_array_type_decl`, and whether the declaration of its elements has an `init_value`. -/
  | arrayTypeDecl (node : Nat) (initValue : Bool)
  /-- A struct, reference or enum type declaration, or a constant. -/
  | typeDecl
  | selection (conditional : Expression) (thenPart elsePart : Node)
  | iteration (initExpr testExpr postTestExpr iterExpr : Option Expression) (statement : Node)
  | compound (decls statements : Node)
  | returnStatement (expression : Option Expression)
  | labelStatement (node : Nat) (name : CString) (statement : Node)
  /-- `goto`, or `continue` and `break` where there is no target. -/
  | jump (node : Nat) (continueFlag : Bool) (gotoTarget : Option CString)
  | expressionStatement (expression : Expression)
  | nil
  | cons (node next : Node)
  deriving DecidableEq

namespace Node

/-- `cod_code_gen` puts the body behind the declarations of the context. -/
def function (contextDecls body : Node) : Node := compound contextDecls (cons body nil)

end Node

end Cod
end FFS
