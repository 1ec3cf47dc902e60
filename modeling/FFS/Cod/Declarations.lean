import FFS.Machine.Effects
import FFS.Cod.Specifiers

/-!
# Declarations of a context

`cod_parse_for_context` links the declarations of a text into the context before it checks them,
and undoes that where one of them is rejected.
-/

namespace FFS
namespace Cod

open Machine

/-! ## Nodes -/

/-- What `gen_FMTypeDesc` and `build_subtype_nodes` make of the type string of a field. -/
inductive FieldType where
  | none
  | unknown
  | known (err : Bool)
deriving DecidableEq

structure Enumerator where
  node : Nat
  id : CString
  constant : Bool

/-- What `semanticize_expr` does about a part of an expression that it refuses: an operator goes on
with its other operand, as do a conditional, an assignment and an initialiser list; a comma, a cast
and an index stop there; and a call passes over a refused argument. -/
inductive Parts where
  | every
  | first
  | passedOver

/-- The nodes of declarations.  Those that a scope can hold are numbered.  Of an expression the
parts matter that the analysis comes to, down to casts, and a NULL node is `null`.  A cast is the
expression of what it is put before and of `cast`. -/
inductive DeclNode where
  | null
  | typeSpecifier (token : Token)
  | identifier (id : CString)
  | structTypeDecl (node : Nat) (id : CString) (fields : List DeclNode)
  | field (fieldType : FieldType) (typeSpec : List DeclNode)
  | enumTypeDecl (node : Nat) (id : CString) (enums : List Enumerator)
  | declaration (node : Nat) (id : CString) (typeSpec : List DeclNode) (initValue : DeclNode)
      (isSubroutine : Bool) (params : List DeclNode)
  | arrayTypeDecl (node : Nat) (typeSpec : List DeclNode) (sizeExpr elementRef : DeclNode)
  | referenceTypeDecl (node : Nat) (name : Option CString)
  | constant
  | expression (isConstant : Bool) (parts : List DeclNode) (mode : Parts) (accepted : Bool)
  | cast (typeSpec : List DeclNode)

/-! ## Scopes -/

structure ScopeEntry where
  id : CString
  node : Nat
deriving DecidableEq

/-- The scope of the context, the scopes of parameter lists in it, and the flag that is set on the
way. -/
structure Scopes where
  locals : List (List ScopeEntry)
  entries : List ScopeEntry
  hasExecContext : Bool

namespace Scopes

def addDecl (s : Scopes) (id : CString) (node : Nat) : Scopes :=
  match s.locals with
  | [] => { s with entries := ⟨id, node⟩ :: s.entries }
  | l :: ls => { s with locals := (⟨id, node⟩ :: l) :: ls }

/-- `add_decl` to the scope of the context, from wherever it is called. -/
def addToContext (s : Scopes) (id : CString) (node : Nat) : Scopes :=
  { s with entries := ⟨id, node⟩ :: s.entries }

def find (l : List ScopeEntry) (id : CString) : Option Nat :=
  (l.find? (·.id = id)).map ScopeEntry.node

def resolveLocal (s : Scopes) (id : CString) : Option Nat := find (s.locals.headD s.entries) id

def resolve (s : Scopes) (id : CString) : Option Nat := find (s.locals.flatten ++ s.entries) id

/-- `push_scope` and `pop_scope` around a step. -/
def inScope (f : Scopes → Option (Scopes × Bool)) (s : Scopes) : Option (Scopes × Bool) :=
  (f { s with locals := [] :: s.locals }).map fun (s', ok) =>
    ({ s' with locals := s'.locals.tail }, ok)

end Scopes

/-! ## The analysis -/

def codTypeSpec : CString :=
  cstr ['c', 'o', 'd', '_', 't', 'y', 'p', 'e', '_', 's', 'p', 'e', 'c'] (.refl false)

def codClosureContext : CString :=
  cstr ['c', 'o', 'd', '_', 'c', 'l', 'o', 's', 'u', 'r', 'e', '_', 'c', 'o', 'n', 't', 'e', 'x',
    't'] (.refl false)

def codExecContext : CString :=
  cstr ['c', 'o', 'd', '_', 'e', 'x', 'e', 'c', '_', 'c', 'o', 'n', 't', 'e', 'x', 't']
    (.refl false)

/-- The keywords in front of a type list. -/
def leading : List DeclNode → List Token
  | .typeSpecifier t :: l => if t.pointer then [] else t :: leading l
  | _ => []

/-- `reduce_type_list`, with its second loop as an argument. -/
def reduced (l : List DeclNode) (rest : Bool → Scopes → Option (Scopes × Bool)) (s : Scopes) :
    Option (Scopes × Bool) :=
  match specifiedType (leading l) ((leading l).length < l.length) with
  | none => some (s, false)
  | some cgType => rest (cgType ≠ .err) s

/-- The next step, where this one is not the end. -/
def andThen (x : Option (Scopes × Bool)) (next : Scopes → Option (Scopes × Bool)) :
    Option (Scopes × Bool) :=
  x >>= fun (s, ok) => if ok then next s else some (s, false)

def semanticizeEnumerators : List Enumerator → Scopes → Scopes × Bool
  | [], s => (s, true)
  | e :: es, s =>
    if e.constant then semanticizeEnumerators es (s.addToContext e.id e.node) else (s, false)

def semanticizeEnumTypeNode (node : Nat) (id : CString) (enums : List Enumerator) (s : Scopes) :
    Scopes × Bool :=
  if (semanticizeEnumerators enums s).2 then
    ((semanticizeEnumerators enums s).1.addDecl id node, true)
  else semanticizeEnumerators enums s

namespace Parts

def goesOn : Parts → Bool → Bool
  | first, ok => ok
  | every, _ | passedOver, _ => true

def verdict : Parts → Bool → Bool → Bool
  | passedOver, ok, _ => ok
  | every, ok, ok' | first, ok, ok' => ok && ok'

end Parts

def firstIsStatic : List DeclNode → Bool
  | .typeSpecifier .static :: _ => true
  | _ => false

namespace DeclNode

def isNull : DeclNode → Bool
  | null => true
  | _ => false

def isDeclaration : DeclNode → Bool
  | declaration .. => true
  | _ => false

/-- A node that is not a field of a struct type has no type string either. -/
def fieldType : DeclNode → FieldType
  | field fieldType _ => fieldType
  | _ => .none

def isConstantExpr : DeclNode → Bool
  | expression isConstant .. => isConstant
  | _ => false

end DeclNode

/-- The start of `semanticize_decl` on a declaration: the name is entered, and a name of the
context is to have an address. -/
def declared (addressed : CString → Bool) (node : Nat) (id : CString)
    (rest : Scopes → Option (Scopes × Bool)) (s : Scopes) : Option (Scopes × Bool) :=
  match s.resolveLocal id with
  | some n => some (s, n = node)
  | none =>
    if s.locals = [] ∧ addressed id = false then some (s.addDecl id node, false)
    else rest (s.addDecl id node)

/-- The end of `semanticize_decl` on a declaration. -/
def finished (initValue : DeclNode) (expr : Scopes → Option (Scopes × Bool))
    (isSubroutine : Bool) (params : Scopes → Option (Scopes × Bool)) (s : Scopes) :
    Option (Scopes × Bool) :=
  if initValue.isNull = false then expr s
  else if isSubroutine then Scopes.inScope params s
  else some (s, true)

/-- The size of an array, before its elements. -/
def sized (sizeExpr elementRef : DeclNode) (expr : Scopes → Option (Scopes × Bool))
    (rest : Scopes → Option (Scopes × Bool)) (s : Scopes) : Option (Scopes × Bool) :=
  if sizeExpr.isNull then
    if elementRef.isDeclaration then rest s else some (s, false)
  else if sizeExpr.isConstantExpr then andThen (expr s) rest
  else some (s, false)

section

/-! `addressed` says which names have an address, or get one; `typed` says of the node of a type
name whether the code generator has a type for it. -/

variable (addressed : CString → Bool) (typed : Nat → Bool → Bool)

mutual

/-- The second loop of `reduce_type_list`, on a list with the keywords in front still in it.  It
keeps whether a type was found, whether there is a complex type, and whether there is another. -/
def reduceRest (inFront typeFound typ cg : Bool) :
    List DeclNode → Scopes → Option (Scopes × Bool)
  | [], s => some (s, typ || cg)
  | d :: l, s =>
    match d with
    | .typeSpecifier t =>
      if t.pointer then reduceRest false typeFound true true l s
      else if inFront then reduceRest true typeFound typ cg l s
      else if typeFound then some (s, false)
      else reduceRest false typeFound typ cg l s
    | .identifier id =>
      if typeFound then some (s, false)
      else match s.resolve id with
        | some n => reduceRest false true true (typed n cg) l s
        | none =>
          if id = codExecContext then
            reduceRest false true true true l { s with hasExecContext := true }
          else if id = codTypeSpec ∨ id = codClosureContext then
            reduceRest false true true true l s
          else if cg then reduceRest false true false true l s
          else none
    | .structTypeDecl _ id fields =>
      if fields.isEmpty && (s.resolve id).isNone then some (s, cg)
      else if fields.isEmpty then reduceRest false typeFound true true l s
      else semanticizeDecl d s >>= fun x => reduceRest false typeFound true true l x.1
    | .enumTypeDecl _ id enums =>
      if enums.isEmpty && (s.resolve id).isNone then some (s, cg)
      else if enums.isEmpty then reduceRest false typeFound true true l s
      else semanticizeDecl d s >>= fun x => reduceRest false typeFound true true l x.1
    | _ => some (s, cg)
termination_by structural l => l

/-- The type list of a field. -/
def reduceSpec : DeclNode → Scopes → Option (Scopes × Bool)
  | .field _ typeSpec, s =>
    reduced typeSpec (fun cg => reduceRest true cg false cg typeSpec) s
  | _, s => some (s, true)
termination_by structural d => d

/-- The loop of `semanticize_struct_type_node` over the fields. -/
def semanticizeFields (ret : Bool) : List DeclNode → Scopes → Option (Scopes × Bool)
  | [], s => some (s, ret)
  | d :: l, s =>
    match d.fieldType with
    | .none => reduceSpec d s >>= fun x => semanticizeFields ret l x.1
    | .unknown => none
    | .known err => semanticizeFields (ret && !err) l s
termination_by structural l => l

/-- The parts of an expression, `ok` being the verdict so far. -/
def semanticizeParts (mode : Parts) (ok : Bool) : List DeclNode → Scopes → Option (Scopes × Bool)
  | [], s => some (s, ok)
  | d :: l, s => semanticizeExpr d s >>= fun x =>
    if mode.goesOn x.2 then semanticizeParts mode (mode.verdict ok x.2) l x.1
    else some (x.1, false)
termination_by structural l => l

/-- `semanticize_expr`.  Of a constant and a variable it declares nothing. -/
def semanticizeExpr : DeclNode → Scopes → Option (Scopes × Bool)
  | .expression _ parts mode accepted, s => semanticizeParts mode accepted parts s
  | .cast typeSpec, s => reduced typeSpec (fun cg => reduceRest true cg false cg typeSpec) s
  | _, s => some (s, true)
termination_by structural d => d

/-- `semanticize_array_element_node`, from the element on.  `super` is the type list of the type
that the innermost elements are given, and `this` that of the array around the element. -/
def semanticizeElement (static : Bool) (super this : Scopes → Option (Scopes × Bool)) :
    DeclNode → Scopes → Option (Scopes × Bool)
  | .declaration node id typeSpec initValue isSubroutine params, s =>
    andThen
      (declared addressed node id (fun s =>
        if static && !initValue.isNull && !initValue.isConstantExpr then some (s, false)
        else finished initValue (semanticizeExpr initValue) isSubroutine
          (semanticizeDeclsList true params) s) s)
      (if typeSpec.isEmpty then super
        else reduced typeSpec (fun cg => reduceRest true cg false cg typeSpec))
  | .arrayTypeDecl _ typeSpec sizeExpr elementRef, s =>
    sized sizeExpr elementRef (semanticizeExpr sizeExpr)
      (semanticizeElement false this
        (reduced typeSpec fun cg => reduceRest true cg false cg typeSpec) elementRef) s
  | _, _ => none
termination_by structural d => d

def semanticizeDecl : DeclNode → Scopes → Option (Scopes × Bool)
  | .declaration node id typeSpec initValue isSubroutine params, s =>
    -- a `static` or `const` in front is taken off, where it is not counted either
    declared addressed node id (fun s =>
      if firstIsStatic typeSpec && !isSubroutine && !initValue.isNull &&
          !initValue.isConstantExpr then some (s, false)
      else andThen (reduced typeSpec (fun cg => reduceRest true cg false cg typeSpec) s)
        (finished initValue (semanticizeExpr initValue) isSubroutine
          (semanticizeDeclsList true params))) s
  | .structTypeDecl node id fields, s => semanticizeFields true fields (s.addDecl id node)
  | .arrayTypeDecl _ typeSpec sizeExpr elementRef, s =>
    sized sizeExpr elementRef (semanticizeExpr sizeExpr)
      (semanticizeElement (firstIsStatic typeSpec)
        (reduced typeSpec fun cg => reduceRest true cg false cg typeSpec)
        (reduced typeSpec fun cg => reduceRest true cg false cg typeSpec) elementRef) s
  | .referenceTypeDecl node name, s =>
    some (name.elim s fun id => s.addDecl id node, true)
  | .constant, s => some (s, true)
  | .enumTypeDecl node id enums, s => some (semanticizeEnumTypeNode node id enums s)
  | _, s => some (s, false)
termination_by structural d => d

def semanticizeDeclsList (ret : Bool) : List DeclNode → Scopes → Option (Scopes × Bool)
  | [], s => some (s, ret)
  | d :: l, s =>
    semanticizeDecl d s >>= fun x => semanticizeDeclsList (ret && x.2) l x.1
termination_by structural l => l

end

end

/-! ## The context -/

structure ParseContext where
  decls : List DeclNode
  entries : List ScopeEntry
  /-- The names with an address. -/
  externs : List CString
  definedTypes : List CString
  hasExecContext : Bool
  allocGlobals : Bool

/-- What the parser makes of a text: the type names that it records on the way, and the list of
declarations, if there is no error. -/
structure ParsedText where
  definedTypes : List CString
  decls : Option (List DeclNode)

/-- A header that `cod_process_include` knows. -/
structure Header where
  externs : List CString
  text : ParsedText

structure Text where
  includes : List Header
  allWhitespace : Bool
  parsed : ParsedText

/-- The number under which a node of the list can stand in a scope. -/
def DeclNode.number : DeclNode → Option Nat
  | .structTypeDecl node .. => some node
  | .enumTypeDecl node .. => some node
  | .declaration node .. => some node
  | .arrayTypeDecl node .. => some node
  | .referenceTypeDecl node _ => some node
  | _ => none

/-- The loop that takes the first entry of every node of the list out of the scope. -/
def removeDecls (decls : List DeclNode) (entries : List ScopeEntry) : List ScopeEntry :=
  decls.foldl (fun entries d => entries.eraseP fun e => d.number = some e.node) entries

namespace ParseContext

def scopes (ctx : ParseContext) : Scopes := ⟨[], ctx.entries, ctx.hasExecContext⟩

def addressed (ctx : ParseContext) (id : CString) : Bool :=
  ctx.allocGlobals || ctx.externs.contains id

/-- The end of `cod_parse_for_context`. -/
def addDecls (typed : Nat → Bool → Bool) (ctx : ParseContext) (decls : List DeclNode) :
    Option (ParseContext × Bool) :=
  semanticizeDeclsList ctx.addressed typed true decls ctx.scopes >>= fun x =>
    if x.2 then
      some ({ ctx with
        decls := ctx.decls ++ decls, entries := x.1.entries,
        hasExecContext := x.1.hasExecContext }, true)
    else
      some ({ ctx with
        decls := [], entries := removeDecls decls x.1.entries,
        hasExecContext := x.1.hasExecContext }, false)

/-- `cod_parse_for_context` behind the preprocessor. -/
def parseText (typed : Nat → Bool → Bool) (ctx : ParseContext) (text : ParsedText) :
    Option (ParseContext × Bool) :=
  let ctx := { ctx with definedTypes := ctx.definedTypes ++ text.definedTypes }
  match text.decls with
  | none => some (ctx, false)
  | some decls => ctx.addDecls typed decls

/-- `cod_process_include` -/
def processInclude (typed : Nat → Bool → Bool) (ctx : ParseContext) (header : Header) :
    Option ParseContext :=
  (parseText typed { ctx with externs := header.externs ++ ctx.externs } header.text).map Prod.fst

def codParseForContext (typed : Nat → Bool → Bool) (ctx : ParseContext) (text : Text) :
    Option (ParseContext × Bool) :=
  text.includes.foldlM (processInclude typed) ctx >>= fun ctx =>
    if text.allWhitespace then some (ctx, true) else ctx.parseText typed text.parsed

def codParseForGlobals (typed : Nat → Bool → Bool) (ctx : ParseContext) (text : Text) :
    Option (ParseContext × Bool) :=
  (codParseForContext typed { ctx with allocGlobals := true } text).map fun x =>
    ({ x.1 with allocGlobals := false }, x.2)

end ParseContext

end Cod
end FFS
