import FFS.Cod.Constants
import FFS.Cod.Declarations
import FFS.Cod.Rollback

/-!
# Fields of struct types

The parser turns the type of a field into an FFS type string where `type_list_to_string` knows one,
and `semanticize_struct_type_node` makes type nodes from the descriptors of that string.  The other
fields go through `reduce_type_list`, like variables.
-/

namespace FFS
namespace Cod

open Machine

/-! ## Types -/

/-- A dimension of an array type, its size or the number of the field that controls it. -/
inductive Dimension where
  | static (size : Int)
  | control (field : Nat)
deriving DecidableEq

/-- `sm_complex_type` -/
inductive ComplexType where
  | null
  /-- A type of the scope. -/
  | node (n : Nat)
  /-- A reference type by one of the names that `reduce_type_list` knows itself. -/
  | special (id : CString)
  | reference (cgType : CgType) (referenced : ComplexType) (kernelRef : Bool)
  | array (cgType : CgType) (element : ComplexType) (dimension : Dimension)
deriving DecidableEq

/-- What the number of a node in a scope stands for.  The complex type of a declaration is another
node. -/
inductive ScopeType where
  | declaration (cgType : CgType) (complexType : Option Nat)
  | reference
  | struct
  | enum
  | other

/-- A scalar type and a complex one. -/
abbrev TypePair := CgType × ComplexType

section

variable (types : Nat → ScopeType) (addressed : CString → Bool)

/-- The scalar type that goes with a node. -/
def nodeCgType (cg : CgType) (n : Nat) : CgType :=
  match types n with
  | .reference => .p
  | .struct => .b
  | .enum => .i
  | _ => cg

/-- What `reduce_type_list` takes from the node of a type name. -/
def named (n : Nat) (cg : CgType) : TypePair :=
  match types n with
  | .declaration cgType none => (cgType, .node n)
  | .declaration _ (some m) => (nodeCgType types cg m, .node m)
  | _ => (nodeCgType types cg n, .node n)

/-! ## `reduce_type_list` -/

/-- What the second loop of `reduce_type_list` keeps. -/
structure Found where
  typeFound : Bool
  cgType : CgType
  complexType : ComplexType

/-- A round of that loop goes on or returns. -/
inductive Round where
  | next (found : Found) (s : Scopes)
  | done (type : TypePair)

/-- The scope behind a type that is defined in a type list. -/
def definedScope (d : DeclNode) (s : Scopes) : Option Scopes :=
  (semanticizeDecl addressed (fun n cg => (named types n (if cg then .i else .err)).1 ≠ .err) d
    s).map Prod.fst

/-- A struct type or an enumeration in a type list. -/
def taggedRound (node : Nat) (id : CString) (defined : Bool) (d : DeclNode) (cgType : CgType)
    (st : Found) (s : Scopes) : Option Round :=
  if defined then
    (definedScope types addressed d s).map fun s' =>
      .next { st with cgType, complexType := .node node } s'
  else
    match s.resolve id with
    | some n => some (.next { st with cgType, complexType := .node n } s)
    | none => some (.done (st.cgType, .null))

/-- `none` where an assertion fails. -/
def reduceRound (st : Found) (d : DeclNode) (s : Scopes) : Option Round :=
  match d with
  | .typeSpecifier t =>
    if t.pointer then
      some (.next ⟨st.typeFound, .p, .reference st.cgType st.complexType (t == .atSign)⟩ s)
    else if st.typeFound then some (.done (.err, .null))
    else some (.next st s)
  | .identifier id =>
    if st.typeFound then some (.done (.err, .null))
    else match s.resolve id with
      | some n => some (.next ⟨true, (named types n st.cgType).1, (named types n st.cgType).2⟩ s)
      | none =>
        if id = codExecContext then
          some (.next ⟨true, .p, .special id⟩ { s with hasExecContext := true })
        else if id = codTypeSpec ∨ id = codClosureContext then
          some (.next ⟨true, .p, .special id⟩ s)
        else if st.cgType = .err then none
        else some (.next ⟨true, st.cgType, .null⟩ s)
  | .structTypeDecl node id fields =>
    taggedRound types addressed node id (!fields.isEmpty) d .b st s
  | .enumTypeDecl node id enums => taggedRound types addressed node id (!enums.isEmpty) d .i st s
  | _ => some (.done (st.cgType, .null))

def reduceBehind (st : Found) : List DeclNode → Scopes → Option TypePair
  | [], _ => some (st.cgType, st.complexType)
  | d :: l, s =>
    match reduceRound types addressed st d s with
    | some (.next st' s') => reduceBehind st' l s'
    | some (.done type) => some type
    | none => none

/-- The list behind the keywords in front. -/
def behind (l : List DeclNode) : List DeclNode := l.drop (leading l).length

/-- `reduce_type_list` -/
def reduceTypeList (l : List DeclNode) (s : Scopes) : Option TypePair :=
  match specifiedType (leading l) (!(behind l).isEmpty) with
  | none => some (.err, .null)
  | some cg => reduceBehind types addressed ⟨cg ≠ .err, cg, .null⟩ (behind l) s

end

/-! ## `type_list_to_string` -/

/-- The type that `type_list_to_string` comes to at `finalize`.  `none` where it returns with an
error before. -/
def finalType : List Token → Bool → Option CgType := keywordType .i

def integerString : CString := cstr ['i', 'n', 't', 'e', 'g', 'e', 'r'] (.refl false)

def unsignedString : CString :=
  cstr ['u', 'n', 's', 'i', 'g', 'n', 'e', 'd', ' ', 'i', 'n', 't', 'e', 'g', 'e', 'r']
    (.refl false)

def floatString : CString := cstr ['f', 'l', 'o', 'a', 't'] (.refl false)

/-- The string and the size at `finalize`. -/
def CgType.asString : CgType → Option (CString × Int32)
  | c => some (integerString, 1)
  | uc => some (unsignedString, 1)
  | i => some (integerString, 4)
  | l => some (integerString, 8)
  | s => some (integerString, 2)
  | u => some (unsignedString, 4)
  | ul => some (unsignedString, 8)
  | us => some (unsignedString, 2)
  | f => some (floatString, 4)
  | d => some (floatString, 8)
  | _ => none

/-- The type whose string `type_list_to_string` returns, where it returns one.  The pointer that
ends the keywords is taken off the list with them. -/
def stringType (l : List DeclNode) : Option CgType :=
  match behind l with
  | .identifier _ :: _ | .structTypeDecl .. :: _ => none
  | .typeSpecifier _ :: rest => finalType (leading l) (!rest.isEmpty)
  | rest => finalType (leading l) (!rest.isEmpty)

def typeListToString (l : List DeclNode) : Option (CString × Int32) :=
  (stringType l).bind CgType.asString

/-! ## `cod_build_parsed_type_node` -/

/-- How the analysis of a field ends: with something, with a refusal of its struct type, with a
failed assertion in `reduce_type_list`, or with a pointer that is NULL, such as the one that
`cod_build_parsed_type_node` returns, which the grammar follows. -/
inductive Outcome (α : Type) where
  | given (a : α)
  | refused
  | aborted
  | fault
deriving DecidableEq

namespace Outcome

def bind {α β : Type} (x : Outcome α) (f : α → Outcome β) : Outcome β :=
  match x with
  | given a => f a
  | refused => refused
  | aborted => aborted
  | fault => fault

end Outcome

/-- A name as the lexer takes it. -/
def isNameByte (b : UInt8) : Bool :=
  chr 'a' ≤ b ∧ b ≤ chr 'z' ∨ chr 'A' ≤ b ∧ b ≤ chr 'Z' ∨ chr '0' ≤ b ∧ b ≤ chr '9' ∨ b = chr '_'

structure Name where
  text : CString
  plain : ∀ b ∈ text.bytes, isNameByte b = true
  first : ∀ b ∈ text.bytes.head?, isDigitOf 10 b = false
deriving DecidableEq

/-- `size_expr` -/
inductive SizeExpr where
  | null
  | identifier (name : Name)
  | constant (e : ConstExpr)
  /-- A constant, but not an integer. -/
  | otherConstant
  /-- An expression with a call, an assignment or a reference to an object in it. -/
  | otherExpr

/-- The type list of a declarator: pointers with `const` between them. -/
structure PointerSpec where
  tokens : List Token
  pointers : ∀ t ∈ tokens, t.pointer = true ∨ t = .const
  first : ∀ t ∈ tokens.head?, t.pointer = true

def PointerSpec.nodes (spec : PointerSpec) : List DeclNode := spec.tokens.map .typeSpecifier

/-- A declaration in a struct type, as the parser has it.  The element of an array has pointers of
its own where there are parentheses in the declarator. -/
inductive Declarator where
  | declaration
  | array (sizeExpr : SizeExpr) (elementSpec : PointerSpec)
  /-- An array of arrays. -/
  | arrays

/-- A declarator, with the pointers in front of it. -/
structure StructDeclarator where
  id : Name
  pointers : PointerSpec
  declarator : Declarator

/-- `struct_declaration`: specifiers, and the declarators that share them. -/
structure StructDeclaration where
  specifiers : List DeclNode
  declarators : List StructDeclarator

/-- A field with the type list that the grammar leaves it, and the one that it is declared with. -/
structure FieldDecl where
  id : Name
  typeSpec : List DeclNode
  declared : List DeclNode
  declarator : Declarator

/-- The pointers behind the specifiers in the lists of all declarators but the first, whose list is
`$1`, and those that are put at the end of `$1`.  Each list begins as a copy of the one before. -/
def laterLists (pointers : List Token) :
    List StructDeclarator → List (StructDeclarator × List Token) × List Token
  | [] => ([], [])
  | d :: ds =>
    match d.declarator with
    | .declaration =>
      let later := laterLists pointers ds
      ((d, pointers) :: later.1, d.pointers.tokens ++ later.2)
    | _ =>
      let later := laterLists (pointers ++ d.pointers.tokens) ds
      ((d, pointers ++ d.pointers.tokens) :: later.1, later.2)

/-- The fields of a declaration. -/
def structDeclaration (decl : StructDeclaration) : List FieldDecl :=
  match decl.declarators with
  | [] => []
  | d :: ds =>
    let later := laterLists d.pointers.tokens ds
    ((d, d.pointers.tokens ++ later.2) :: later.1).map fun p =>
      { id := p.1.id, typeSpec := decl.specifiers ++ p.2.map .typeSpecifier,
        declared := decl.specifiers ++ p.1.pointers.nodes, declarator := p.1.declarator }

/-- `struct_declaration_list` -/
def structDeclarationList (decls : List StructDeclaration) : List FieldDecl :=
  decls.flatMap structDeclaration

structure ParsedField where
  name : Name
  stringType : Option CString
  cgSize : Int32
  typeSpec : List DeclNode

theorem noNul_takeWhile (text : List UInt8) : 0 ∉ text.takeWhile (· ≠ 0) := by
  intro h
  have hne := List.mem_takeWhile_imp h
  exact of_decide_eq_true hne rfl

/-- The string that `const_val` points to. -/
def constVal (text : List UInt8) : CString where
  bytes := text.takeWhile (· ≠ 0)
  noNul := noNul_takeWhile text

/-- `size_str`.  The size is looked at before semantic analysis, when no identifier in it has a
declaration. -/
def SizeExpr.sizeStr : SizeExpr → Outcome CString
  | null => .fault
  | identifier name => .given name.text
  | constant e =>
    match e.evaluateConstantReturnExpr with
    | .value ⟨.integerConstant, text⟩ => .given (constVal text)
    | _ => .fault
  | otherConstant | otherExpr => .fault

/-- `"%s[%s]"` -/
def bracketed (base size : CString) : CString where
  bytes := base.bytes ++ chr '[' :: (size.bytes ++ [chr ']'])
  noNul h := by
    have hbrackets : (0 : UInt8) ≠ chr '[' ∧ (0 : UInt8) ≠ chr ']' := by decide
    rcases List.mem_append.mp h with h | h
    · exact base.noNul h
    · rcases List.mem_cons.mp h with h | h
      · exact hbrackets.1 h
      · rcases List.mem_append.mp h with h | h
        · exact size.noNul h
        · exact hbrackets.2 (List.mem_singleton.mp h)

namespace FieldDecl

/-- The type string of a field and its size. -/
def string (decl : FieldDecl) : Outcome (Option (CString × Int32)) :=
  match decl.declarator with
  | .declaration => .given (typeListToString decl.typeSpec)
  | .arrays => .fault
  | .array sizeExpr _ =>
    sizeExpr.sizeStr.bind fun size =>
      .given ((typeListToString decl.typeSpec).map fun base => (bracketed base.1 size, base.2))

def parsed (decl : FieldDecl) : Outcome ParsedField :=
  decl.string.bind fun string =>
    .given ⟨decl.id, string.map Prod.fst, (string.map Prod.snd).getD 0, decl.typeSpec⟩

end FieldDecl

/-- `cod_build_parsed_type_node` -/
def codBuildParsedTypeNode : List FieldDecl → Outcome (List ParsedField)
  | [] => .given []
  | decl :: decls =>
    decl.parsed.bind fun field =>
      (codBuildParsedTypeNode decls).bind fun fields => .given (field :: fields)

/-! ## `semanticize_struct_type_node` -/

def emptyString : CString := ⟨[], List.not_mem_nil⟩

/-- The field list that `gen_FMTypeDesc` gets, with something where a type is NULL. -/
def fmFields (fields : List ParsedField) : List FMField :=
  fields.map fun f => ⟨f.name.text, f.stringType.getD emptyString, 0, 0⟩

/-- The text of a dimension names a field, and the type of that is NULL. -/
def namesUntyped (fields : List ParsedField) (index : Nat) (text : List UInt8) : Bool :=
  (strtol 0 text).2.length = text.length &&
    (findField (text.takeWhile (· ≠ chr ']')) (fmFields fields) index).any fun i =>
      fields[i]?.any (·.stringType.isNone)

def dillCgType : DillType → CgType
  | .c => .c
  | .uc => .uc
  | .s => .s
  | .us => .us
  | .i => .i
  | .u => .u
  | .l => .l
  | .ul => .ul
  | .f => .f
  | .d => .d
  | .p => .p
  | .err => .err

/-- `str_to_data_type` -/
def strCgType (str : List UInt8) (size : Int32) : CgType :=
  ((codStrToDataType str size).map dillCgType).getD .err

def CgType.isInteger : CgType → Bool
  | c | uc | s | us | i | u | l | ul => true
  | _ => false

/-- The dimension that a field controls, if it is an integer. -/
def controlled (fields : List ParsedField) (index : Nat) : Outcome Dimension :=
  match fields[index]? with
  | none => .fault
  | some cf =>
    match cf.stringType with
    | none => .fault
    | some str => if (strCgType str.bytes 4).isInteger then .given (.control index) else .refused

/-- `build_subtype_nodes`.  The loop to the control field does nothing for a negative index. -/
def buildSubtypeNodes (fields : List ParsedField) (f : ParsedField) (str : CString) (s : Scopes) :
    List FMTypeDesc → Outcome ComplexType
  | [] => .given .null
  | desc :: descs =>
    (buildSubtypeNodes fields f str s descs).bind fun subtype =>
      match desc.type with
      | .array =>
        let elementType :=
          match subtype with
          | .null => strCgType (str.bytes.takeWhile (· ≠ chr '[')) f.cgSize
          | .reference .. => .p
          | _ => .b
        (if desc.staticSize = 0 ∨ desc.staticSize = -1 then
            controlled fields desc.controlFieldIndex.toNat
          else .given (.static desc.staticSize)).bind fun dimension =>
            .given (.array elementType subtype dimension)
      | .pointer => .given (.reference .err subtype false)
      | .subformat =>
        match s.resolve (constVal (baseDataType str.bytes)) with
        | some n => .given (.node n)
        | none => .refused
      | .simple | .string => .given .null

section

variable (types : Nat → ScopeType) (addressed : CString → Bool)

/-- What an analysis by `reduce_type_list` comes to. -/
def reducedPair (l : List DeclNode) (s : Scopes) : Outcome TypePair :=
  match reduceTypeList types addressed l s with
  | some type => .given type
  | none => .aborted

/-- A round of the loop of `semanticize_struct_type_node`: `cg_type` and `sm_complex_type` of a
field. -/
def semanticizeField (fields : List ParsedField) (index : Nat) (f : ParsedField) (s : Scopes) :
    Outcome TypePair :=
  match f.stringType with
  | none => reducedPair types addressed f.typeSpec s
  | some str =>
    if ((strchr str.bytes (chr '[')).map List.tail).any (namesUntyped fields index) then .fault
    else match fieldDesc (fmFields fields) index str.bytes with
      | none => .fault
      | some desc =>
        (buildSubtypeNodes fields f str s desc).bind fun complexType =>
          .given (strCgType str.bytes f.cgSize, complexType)

/-! ## Variables -/

/-- The type list of a variable behind a `static` or `const` that `semanticize_decl` takes off. -/
def withoutFirst (tokens : List Token) : List DeclNode → List DeclNode
  | .typeSpecifier t :: l => if t ∈ tokens then l else .typeSpecifier t :: l
  | l => l

/-- `reduce_type_list` as it is called for a variable, which is refused without a type. -/
def variablePair (l : List DeclNode) (s : Scopes) : Outcome TypePair :=
  (reducedPair types addressed l s).bind fun type =>
    if type = (.err, .null) then .refused else .given type

/-- The `int` that a `long` is put into. -/
def asInt (v : Int) : Int := signed 4 (unsigned 4 v)

/-- An identifier in an expression that is looked at before semantic analysis. -/
def ConstExpr.hasIdentifier : ConstExpr → Bool
  | integer _ | character _ _ | sizeofType _ | sizeofExpr _ => false
  | identifier .. => true
  | cast _ e | unary _ e => e.hasIdentifier
  | arith _ l r | compare _ l r | logical _ l r => l.hasIdentifier || r.hasIdentifier

/-- The number of elements of an array variable, as `set_dimen_values` has it.  A size that is not
constant is refused; no size and one that has no value leave no dimension. -/
def SizeExpr.staticSize : SizeExpr → Outcome Int
  | null => .fault
  | identifier _ => .refused
  | constant e =>
    if e.hasIdentifier then .refused
    else match e.evaluateConstantExpr with
      | .value v => .given (asInt v)
      | .failure => .given (-1)
      | _ => .fault
  | otherConstant => .fault
  | otherExpr => .refused

/-- The elements of the array that `semanticize_array_type_node` makes. -/
def elementPair (typeSpec elementSpec : List DeclNode) (s : Scopes) : Outcome TypePair :=
  variablePair types addressed
    (if elementSpec.isEmpty then withoutFirst [.static] typeSpec else elementSpec) s

/-- The field of integer type that a name in brackets stands for. -/
def controlField (fields : List ParsedField) (index : Nat) (name : Name) : Option Nat :=
  (findField name.text.bytes (fmFields fields) index).filter fun i =>
    fields[i]?.any fun f => f.stringType.any fun str =>
      strToDataType str.bytes = .integerType ∨ strToDataType str.bytes = .unsignedType

/-- The type of a variable with the declaration of a field.  The name of a field of integer type
for a size, which a variable cannot have, makes a reference to an array that the field controls. -/
def declaredPair (fields : List ParsedField) (index : Nat) (decl : FieldDecl) (s : Scopes) :
    Outcome TypePair :=
  match decl.declarator with
  | .declaration =>
    variablePair types addressed (withoutFirst [.static, .const] decl.declared) s
  | .arrays => .refused
  | .array sizeExpr elementSpec =>
    let element := elementPair types addressed decl.declared elementSpec.nodes s
    match sizeExpr with
    | .identifier name =>
      match controlField fields index name with
      | none => .refused
      | some i => element.bind fun element =>
        .given (.p, .reference .err (.array element.1 element.2 (.control i)) false)
    | _ => sizeExpr.staticSize.bind fun size => element.bind fun element =>
        .given (.b, .array element.1 element.2 (.static size))

/-! ## What the types should be -/

/-- A scalar type, or a complex type whatever goes with it. -/
inductive DeclaredType where
  | scalar (cgType : CgType)
  | complex (complexType : ComplexType)
deriving DecidableEq

/-- What a pair of types says.  One without a type says no more than a refusal. -/
def described : TypePair → Outcome DeclaredType
  | (.err, .null) => .refused
  | (cgType, .null) => .given (.scalar cgType)
  | (_, complexType) => .given (.complex complexType)

/-- A field that is given a type has that of the variable. -/
def DeclaredAlike (field declared : Outcome TypePair) : Prop :=
  match field.bind described with
  | .given type => declared.bind described = .given type
  | .refused | .aborted => True
  | .fault => False

/-- A field of a struct type has the type of a variable with the same declaration, or none. -/
def FieldTypeRight (decls : List StructDeclaration) (index : Nat) (s : Scopes) : Prop :=
  match codBuildParsedTypeNode (structDeclarationList decls) with
  | .given fields =>
    ∀ decl ∈ (structDeclarationList decls)[index]?, ∀ f ∈ fields[index]?,
      DeclaredAlike (semanticizeField types addressed fields index f s)
        (declaredPair types addressed fields index decl s)
  | _ => False

end

end Cod
end FFS
