import FFS.Cod.TypeLists
import FFS.Cod.TypeStrings

/-!
# Types of fields

A field without a type string goes through `reduce_type_list` and has the type of a variable, but an
array then has the type of its elements.  One with a type string is kept where its type list is, and
an array also where the text of its size says what the size is.  The type list is the one that the
field is declared with where no pointers of other declarators come into it.
-/

namespace FFS
namespace Cod

open Machine

/-! ## Where the types are kept -/

namespace FieldDecl

/-- A size that `cod_build_parsed_type_node` takes: a name, or a constant that is an integer. -/
def Reads (decl : FieldDecl) : Prop :=
  match decl.declarator with
  | .declaration => True
  | .array (.identifier _) _ => True
  | .array (.constant e) _ => ∃ text, e.evaluateConstantReturnExpr = .value ⟨.integerConstant, text⟩
  | _ => False

end FieldDecl

/-- The fields of declarations that are read. -/
def readFields (decls : List FieldDecl) : List ParsedField :=
  decls.filterMap fun decl =>
    match decl.parsed with
    | .given field => some field
    | _ => none

/-- The text of a size says what the size is: the name of a field of integer type, or the number of
elements that the code generator has. -/
def Dimensioned (fields : List ParsedField) (index : Nat) (sizeExpr : SizeExpr) (text : CString) :
    Prop :=
  match sizeExpr with
  | .identifier _ => (readDimension fields index text).2 ≠ -1
  | _ => (readDimension fields index text).2 = -1 ∧ (readDimension fields index text).1 ≠ 0 ∧
      (readDimension fields index text).1 ≠ -1 ∧
      sizeExpr.staticSize = .given (readDimension fields index text).1

/-- The text of a size says nothing, and the first field, which is taken for the one that controls
the array, is not an integer, so that the struct type is refused. -/
def RefusedSize (fields : List ParsedField) (index : Nat) (text : CString) : Prop :=
  (readDimension fields index text).2 = -1 ∧
    ((readDimension fields index text).1 = 0 ∨ (readDimension fields index text).1 = -1) ∧
    namesUntyped fields index (sizeText text) = false ∧
    ∃ f ∈ fields.head?, ∃ str ∈ f.stringType, (strCgType str.bytes 4).isInteger = false

section

variable (types : Nat → ScopeType) (addressed : CString → Bool)

/-- A variable has the scalar type of the type string.  Where the grammar leaves the field its own
list, that is where the list keeps it. -/
def FieldDecl.Keeps (cg : CgType) (decl : FieldDecl) (s : Scopes) : Prop :=
  (decl.typeSpec = decl.declared → KeepsScalar types addressed cg decl.typeSpec s) ∧
    (decl.typeSpec ≠ decl.declared →
      reduceTypeList types addressed decl.declared s = some (cg, .null))

/-- The list that the grammar leaves a field is its own, or it comes to the same type, or to
none. -/
def FieldDecl.Left (decl : FieldDecl) (s : Scopes) : Prop :=
  decl.typeSpec = decl.declared ∨
    ∀ type ∈ reduceTypeList types addressed decl.typeSpec s, type ≠ (.err, .null) →
      ∃ type' ∈ reduceTypeList types addressed decl.declared s, described type' = described type

def FieldKept (fields : List ParsedField) (index : Nat) (decl : FieldDecl) (s : Scopes) : Prop :=
  match decl.declarator, stringScalar decl.typeSpec with
  | .declaration, none => decl.Left types addressed s
  | .declaration, some cg => decl.Keeps types addressed cg s
  | .arrays, _ => True
  | .array _ _, none => Typeless types addressed decl.typeSpec s
  | .array sizeExpr elementSpec, some cg =>
    ∃ text, sizeExpr.sizeStr = .given text ∧
      (elementSpec.tokens = [] ∧ decl.Keeps types addressed cg s ∧
          Dimensioned fields index sizeExpr text ∨
        RefusedSize fields index text)

end

theorem FieldDecl.keeps_iff {types : Nat → ScopeType} {addressed : CString → Bool}
    {decl : FieldDecl} {cg : CgType} (hcg : stringScalar decl.typeSpec = some cg) (s : Scopes) :
    decl.Keeps types addressed cg s ↔
      reduceTypeList types addressed decl.declared s = some (cg, .null) := by
  by_cases hown : decl.typeSpec = decl.declared
  · rw [Keeps, ← hown, ← keepsScalar_iff hcg]
    exact ⟨fun h => h.1 rfl, fun h => ⟨fun _ => h, fun hne => absurd rfl hne⟩⟩
  · exact ⟨fun h => h.2 hown, fun h => ⟨fun heq => absurd heq hown, fun _ => h⟩⟩

/-! ## Arrays -/

section

variable {types : Nat → ScopeType} {addressed : CString → Bool} {fields : List ParsedField}
  {index : Nat} {f : ParsedField} {decl : FieldDecl} {cg : CgType}

/-- The elements of a declared array, under the node that it has. -/
theorem element_eq_iff (element : Outcome TypePair) (t : CgType) (node : TypePair → ComplexType)
    (hnode : ∀ e, node e ≠ .null) (hinj : ∀ e e', node e = node e' → e = e') (pair : TypePair) :
    (element.bind fun e => .given (t, node e)).bind described = .given (.complex (node pair)) ↔
      element = .given pair := by
  cases element with
  | given e =>
    show described (t, node e) = _ ↔ _
    rw [described_of_ne (hnode e), Outcome.given.injEq, DeclaredType.complex.injEq,
      Outcome.given.injEq]
    exact ⟨hinj e pair, congrArg node⟩
  | _ => exact iff_of_false (fun h => by cases h) fun h => by cases h

/-- An array of a constant size. -/
def staticNode (size : Int) (e : TypePair) : ComplexType := .array e.1 e.2 (.static size)

/-- An array that a field controls. -/
def controlNode (i : Nat) (e : TypePair) : ComplexType :=
  .reference .err (.array e.1 e.2 (.control i)) false

theorem declaredPair_name {name : Name} {spec : PointerSpec}
    (hdecl : decl.declarator = .array (.identifier name) spec) (s : Scopes) :
    declaredPair types addressed fields index decl s =
      match controlField fields index name with
      | none => .refused
      | some i => (elementPair types addressed decl.declared spec.nodes s).bind fun e =>
        .given (.p, controlNode i e) := by
  rw [declaredPair, hdecl]
  rfl

theorem declaredPair_constant {e : ConstExpr} {spec : PointerSpec}
    (hdecl : decl.declarator = .array (.constant e) spec) (s : Scopes) :
    declaredPair types addressed fields index decl s =
      (SizeExpr.constant e).staticSize.bind fun size =>
        (elementPair types addressed decl.declared spec.nodes s).bind fun element =>
          .given (.b, staticNode size element) := by
  rw [declaredPair, hdecl]
  rfl

/-- A variable has arrays of constant size only. -/
theorem declaredPair_constant_eq_iff {e : ConstExpr} {spec : PointerSpec}
    (hdecl : decl.declarator = .array (.constant e) spec) (s : Scopes) (complexType : ComplexType) :
    (declaredPair types addressed fields index decl s).bind described =
        .given (.complex complexType) ↔
      ∃ size element, (SizeExpr.constant e).staticSize = .given size ∧
        elementPair types addressed decl.declared spec.nodes s = .given element ∧
        complexType = staticNode size element := by
  rw [declaredPair_constant hdecl]
  cases (SizeExpr.constant e).staticSize with
  | given size =>
    cases elementPair types addressed decl.declared spec.nodes s with
    | given element =>
      show described (.b, staticNode size element) = _ ↔ _
      rw [described_of_ne (by rw [staticNode]; exact fun h => by cases h), Outcome.given.injEq,
        DeclaredType.complex.injEq]
      constructor
      · rintro rfl
        exact ⟨size, element, rfl, rfl, rfl⟩
      · rintro ⟨size', element', hsize, helement, rfl⟩
        rw [Outcome.given.inj hsize, Outcome.given.inj helement]
    | _ =>
      refine iff_of_false (fun h => by cases h) ?_
      rintro ⟨size', element', -, helement, -⟩
      cases helement
  | _ =>
    refine iff_of_false (fun h => by cases h) ?_
    rintro ⟨size', element', hsize, -, -⟩
    cases hsize

theorem readDimension_of_namesUntyped {size : CString}
    (h : namesUntyped fields index (sizeText size) = true) :
    readDimension fields index size = (0, -1) := by
  rw [namesUntyped, Bool.and_eq_true, decide_eq_true_eq] at h
  obtain ⟨hlength, hany⟩ := h
  rw [Option.any_eq_true] at hany
  obtain ⟨i, hfind, huntyped⟩ := hany
  rw [Option.any_eq_true] at huntyped
  obtain ⟨f, hf, hnone⟩ := huntyped
  rw [readDimension, textDimension]
  dsimp only
  rw [if_pos hlength, hfind]
  refine if_neg fun hcontrols => ?_
  obtain ⟨f', str, hf', hstring, -⟩ := controls_iff.mp hcontrols
  rw [hf] at hf'
  cases hf'
  rw [hstring] at hnone
  cases hnone

theorem arrayNode_ne_null (size : Int) (dimension : Dimension) :
    arrayNode size cg dimension ≠ .null := by
  rw [arrayNode]
  split <;> exact fun h => by cases h

/-- A field that is given an array. -/
theorem declaredAlike_arrayNode {t : CgType} {size : Int} {dimension : Dimension}
    {declared : Outcome TypePair} :
    DeclaredAlike (.given (t, arrayNode size cg dimension)) declared ↔
      declared.bind described = .given (.complex (arrayNode size cg dimension)) :=
  declaredAlike_given (described_of_ne (arrayNode_ne_null size dimension))

/-- What the theorems about an array share: its element has a type string, and its size a text. -/
structure ArrayField (fields : List ParsedField) (index : Nat) (decl : FieldDecl) (f : ParsedField)
    (cg : CgType) (sizeExpr : SizeExpr) (spec : PointerSpec) (size : CString) : Prop where
  array : decl.declarator = .array sizeExpr spec
  scalar : stringScalar decl.typeSpec = some cg
  text : sizeExpr.sizeStr = .given size
  string : ∃ base, cg.asString = some base ∧ f.stringType = some (bracketed base.1 size) ∧
    f.cgSize = base.2
  produced : Produced fields

variable {sizeExpr : SizeExpr} {spec : PointerSpec} {size : CString}

theorem ArrayField.semanticize (types : Nat → ScopeType) (addressed : CString → Bool)
    (h : ArrayField fields index decl f cg sizeExpr spec size) (s : Scopes) :
    ∃ t, semanticizeField types addressed fields index f s =
      if namesUntyped fields index (sizeText size) then .fault
      else (nodeDimension fields (readDimension fields index size)).bind fun dimension =>
        .given (t, arrayNode (readDimension fields index size).1 cg dimension) := by
  obtain ⟨base, hbase, hstring, hsize⟩ := h.string
  exact ⟨_, semanticizeField_array hbase hstring hsize (unbracketed_sizeStr h.text) s⟩

theorem ArrayField.cases (h : ArrayField fields index decl f cg sizeExpr spec size) :
    (∃ name, sizeExpr = .identifier name ∧ size = name.text) ∨ ∃ e, sizeExpr = .constant e := by
  have htext := h.text
  cases sizeExpr with
  | identifier name =>
    cases htext
    exact .inl ⟨name, rfl, rfl⟩
  | constant e => exact .inr ⟨e, rfl⟩
  | _ => cases htext

/-- The size is the name of a field. -/
theorem ArrayField.control_iff (h : ArrayField fields index decl f cg sizeExpr spec size) {i : Nat}
    (hread : readDimension fields index size = (-1, (i : Int)))
    (hcontrolled : controlled fields i = .given (.control i))
    (huntyped : namesUntyped fields index (sizeText size) = false) (s : Scopes) :
    DeclaredAlike (semanticizeField types addressed fields index f s)
        (declaredPair types addressed fields index decl s) ↔
      spec.tokens = [] ∧ decl.Keeps types addressed cg s ∧
        ∃ name, sizeExpr = .identifier name := by
  have hdimension : nodeDimension fields (-1, (i : Int)) = .given (.control i) := by
    rw [nodeDimension, if_pos (.inr rfl)]
    exact hcontrolled
  obtain ⟨t, hfield⟩ := h.semanticize types addressed s
  rw [hfield, huntyped, if_neg Bool.false_ne_true, hread, hdimension]
  show DeclaredAlike (.given (t, arrayNode (-1) cg (.control i))) _ ↔ _
  rw [declaredAlike_arrayNode]
  rcases h.cases with ⟨name, rfl, rfl⟩ | ⟨e, rfl⟩
  · have hcontrol : controlField fields index name = some i := by
      rw [controlField_eq, hread, if_neg (show ¬ (i : Int) = -1 by omega)]
      rfl
    rw [declaredPair_name h.array, hcontrol]
    have hinj : ∀ e e', controlNode i e = controlNode i e' → e = e' := by
      rintro ⟨cg, c⟩ ⟨cg', c'⟩ heq
      cases heq
      rfl
    have hnode : ∀ e, controlNode i e ≠ .null := fun e heq => by cases heq
    have helement := element_eq_iff (elementPair types addressed decl.declared spec.nodes s) .p
      (controlNode i) hnode hinj (cg, .null)
    refine helement.trans ((elementPair_eq_iff (ne_err_of_stringScalar h.scalar) spec s).trans ?_)
    rw [← FieldDecl.keeps_iff h.scalar]
    exact and_congr_right fun _ => (and_iff_left ⟨name, rfl⟩).symm
  · rw [declaredPair_constant_eq_iff h.array]
    refine iff_of_false ?_ fun hname => by obtain ⟨-, -, name, hname⟩ := hname; cases hname
    rintro ⟨n, element, -, -, heq⟩
    cases heq

/-- What is declared has no array that the first field controls. -/
theorem ArrayField.declared_ne (h : ArrayField fields index decl f cg sizeExpr spec size)
    (hcontrol : (readDimension fields index size).2 = -1) (s : Scopes) (n : Int) :
    (declaredPair types addressed fields index decl s).bind described ≠
      .given (.complex (arrayNode n cg (.control 0))) := by
  rcases h.cases with ⟨name, rfl, rfl⟩ | ⟨e, rfl⟩
  · rw [declaredPair_name h.array, controlField_eq, if_pos hcontrol]
    exact fun heq => by cases heq
  · rw [Ne, declaredPair_constant_eq_iff h.array, arrayNode]
    rintro ⟨m, ⟨cg', c'⟩, -, -, heq⟩
    split at heq <;> cases heq

/-- The size is neither a name nor a number, and the first field stands in. -/
theorem ArrayField.unread_iff (h : ArrayField fields index decl f cg sizeExpr spec size)
    (hcontrol : (readDimension fields index size).2 = -1)
    (hread : (readDimension fields index size).1 = 0 ∨ (readDimension fields index size).1 = -1)
    (huntyped : namesUntyped fields index (sizeText size) = false) (s : Scopes) :
    DeclaredAlike (semanticizeField types addressed fields index f s)
        (declaredPair types addressed fields index decl s) ↔
      ∃ f ∈ fields.head?, ∃ str ∈ f.stringType, (strCgType str.bytes 4).isInteger = false := by
  obtain ⟨t, hfield⟩ := h.semanticize types addressed s
  have hdimension : nodeDimension fields (readDimension fields index size) =
      controlled fields 0 := by
    rw [nodeDimension, if_pos hread, hcontrol]
    rfl
  rw [hfield, huntyped, if_neg Bool.false_ne_true, hdimension, controlled, ← List.head?_eq_getElem?]
  cases hfirst : fields.head? with
  | none =>
    refine iff_of_false (fun hfault => hfault) fun hexists => ?_
    obtain ⟨f, hf, -⟩ := hexists
    cases hf
  | some first =>
    cases hstring : first.stringType with
    | none =>
      refine iff_of_false (fun hfault => ?_) ?_
      · dsimp only at hfault
        rw [hstring] at hfault
        exact hfault
      · rintro ⟨f', hf', str, hstr, -⟩
        cases hf'
        rw [hstring] at hstr
        cases hstr
    | some str =>
      dsimp only
      rw [hstring]
      dsimp only
      cases hinteger : (strCgType str.bytes 4).isInteger with
      | true =>
        rw [if_pos rfl]
        refine iff_of_false (fun halike => ?_) ?_
        · exact h.declared_ne hcontrol s _ (declaredAlike_arrayNode.mp halike)
        · rintro ⟨f', hf', str', hstr', hnot⟩
          cases hf'
          rw [hstring] at hstr'
          cases hstr'
          rw [hinteger] at hnot
          cases hnot
      | false => exact iff_of_true trivial ⟨first, rfl, str, hstring, hinteger⟩

/-- The size is a number. -/
theorem ArrayField.static_iff (h : ArrayField fields index decl f cg sizeExpr spec size)
    (hcontrol : (readDimension fields index size).2 = -1)
    (hread : ¬ ((readDimension fields index size).1 = 0 ∨
      (readDimension fields index size).1 = -1))
    (huntyped : namesUntyped fields index (sizeText size) = false) (s : Scopes) :
    DeclaredAlike (semanticizeField types addressed fields index f s)
        (declaredPair types addressed fields index decl s) ↔
      spec.tokens = [] ∧ decl.Keeps types addressed cg s ∧
        (∃ e, sizeExpr = .constant e) ∧
          sizeExpr.staticSize = .given (readDimension fields index size).1 := by
  obtain ⟨t, hfield⟩ := h.semanticize types addressed s
  have hnode : arrayNode (readDimension fields index size).1 cg
      (.static (readDimension fields index size).1) =
        staticNode (readDimension fields index size).1 (cg, .null) :=
    if_neg fun heq => hread (.inr heq)
  rw [hfield, huntyped, if_neg Bool.false_ne_true, nodeDimension, if_neg hread]
  refine (declaredAlike_arrayNode (t := t)).trans ?_
  rw [hnode]
  rcases h.cases with ⟨name, rfl, rfl⟩ | ⟨e, rfl⟩
  · rw [declaredPair_name h.array, controlField_eq, if_pos hcontrol]
    refine iff_of_false (fun heq => by cases heq) ?_
    rintro ⟨-, -, ⟨e, heq⟩, -⟩
    cases heq
  · rw [declaredPair_constant_eq_iff h.array, ← and_assoc, FieldDecl.keeps_iff h.scalar,
      ← elementPair_eq_iff (ne_err_of_stringScalar h.scalar) spec s]
    constructor
    · rintro ⟨n, ⟨cg', c'⟩, hsize, helement, heq⟩
      cases heq
      exact ⟨helement, ⟨e, rfl⟩, hsize⟩
    · rintro ⟨helement, -, hsize⟩
      exact ⟨_, _, hsize, helement, rfl⟩

theorem ArrayField.alike_iff (h : ArrayField fields index decl f cg sizeExpr spec size)
    (s : Scopes) :
    DeclaredAlike (semanticizeField types addressed fields index f s)
        (declaredPair types addressed fields index decl s) ↔
      spec.tokens = [] ∧ decl.Keeps types addressed cg s ∧
          Dimensioned fields index sizeExpr size ∨
        RefusedSize fields index size := by
  rcases readDimension_cases h.produced index size with hcontrol | ⟨i, hread, hcontrolled, huntyped⟩
  · cases huntyped : namesUntyped fields index (sizeText size) with
    | true =>
      have hread := readDimension_of_namesUntyped huntyped
      obtain ⟨t, hfield⟩ := h.semanticize types addressed s
      rw [hfield, huntyped, if_pos rfl]
      refine iff_of_false (fun hfault => hfault) ?_
      rintro (⟨-, -, hdimensioned⟩ | hrefused)
      · rcases h.cases with ⟨name, rfl, rfl⟩ | ⟨e, rfl⟩
        · exact hdimensioned hcontrol
        · exact hdimensioned.2.1 (by rw [hread])
      · rw [hrefused.2.2.1] at huntyped
        cases huntyped
    | false =>
      by_cases hread : (readDimension fields index size).1 = 0 ∨
        (readDimension fields index size).1 = -1
      · rw [h.unread_iff hcontrol hread huntyped s]
        constructor
        · exact fun hfirst => .inr ⟨hcontrol, hread, huntyped, hfirst⟩
        · rintro (⟨-, -, hdimensioned⟩ | hrefused)
          · rcases h.cases with ⟨name, rfl, rfl⟩ | ⟨e, rfl⟩
            · exact absurd hcontrol hdimensioned
            · exact (hread.elim hdimensioned.2.1 hdimensioned.2.2.1).elim
          · exact hrefused.2.2.2
      · rw [h.static_iff hcontrol hread huntyped s]
        rw [not_or] at hread
        constructor
        · rintro ⟨htokens, hscalar, ⟨e, rfl⟩, hsize⟩
          exact .inl ⟨htokens, hscalar, hcontrol, hread.1, hread.2, hsize⟩
        · rintro (⟨htokens, hscalar, hdimensioned⟩ | hrefused)
          · rcases h.cases with ⟨name, rfl, rfl⟩ | ⟨e, rfl⟩
            · exact absurd hcontrol hdimensioned
            · exact ⟨htokens, hscalar, ⟨e, rfl⟩, hdimensioned.2.2.2⟩
          · exact (hrefused.2.1.elim hread.1 hread.2).elim
  · have hne : (readDimension fields index size).2 ≠ -1 := by
      rw [hread]
      show (i : Int) ≠ -1
      omega
    rw [h.control_iff hread hcontrolled huntyped s]
    constructor
    · rintro ⟨htokens, hscalar, name, rfl⟩
      exact .inl ⟨htokens, hscalar, hne⟩
    · rintro (⟨htokens, hscalar, hdimensioned⟩ | hrefused)
      · rcases h.cases with ⟨name, rfl, rfl⟩ | ⟨e, rfl⟩
        · exact ⟨htokens, hscalar, name, rfl⟩
        · exact absurd hdimensioned.1 hne
      · exact absurd hrefused.1 hne

/-- What is declared as an array is no type that `reduce_type_list` comes to. -/
theorem not_found_of_array (harray : decl.declarator = .array sizeExpr spec)
    (htext : sizeExpr.sizeStr = .given size) {s : Scopes} {type : DeclaredType}
    (h : (declaredPair types addressed fields index decl s).bind described = .given type) :
    ∃ c, type = .complex c ∧ c.found = false := by
  cases sizeExpr with
  | identifier name =>
    rw [declaredPair_name harray] at h
    split at h
    · cases h
    · next i _ =>
      cases helement : elementPair types addressed decl.declared spec.nodes s with
      | given element =>
        rw [helement] at h
        have hnode : controlNode i element ≠ .null := fun heq => by cases heq
        change described (.p, controlNode i element) = _ at h
        rw [described_of_ne hnode] at h
        cases h
        exact ⟨_, rfl, rfl⟩
      | _ =>
        rw [helement] at h
        cases h
  | constant e =>
    rw [declaredPair_constant harray] at h
    cases hsize : (SizeExpr.constant e).staticSize with
    | given n =>
      cases helement : elementPair types addressed decl.declared spec.nodes s with
      | given element =>
        rw [hsize, helement] at h
        have hnode : staticNode n element ≠ .null := fun heq => by cases heq
        change described (.b, staticNode n element) = _ at h
        rw [described_of_ne hnode] at h
        cases h
        exact ⟨_, rfl, rfl⟩
      | _ =>
        rw [hsize, helement] at h
        cases h
    | _ =>
      rw [hsize] at h
      cases h
  | _ => cases htext

/-- Without a type string a field has the type of the list that the grammar leaves it. -/
theorem declaredAlike_left (s : Scopes) :
    DeclaredAlike (reducedPair types addressed decl.typeSpec s)
        (variablePair types addressed decl.declared s) ↔ decl.Left types addressed s := by
  by_cases hown : decl.typeSpec = decl.declared
  · rw [hown]
    exact iff_of_true (declaredAlike_reducedPair _ _) (.inl hown)
  · rw [FieldDecl.Left, or_iff_right hown, reducedPair]
    cases hreduce : reduceTypeList types addressed decl.typeSpec s with
    | none => exact iff_of_true trivial fun type htype => by cases htype
    | some type =>
      by_cases herr : type = (.err, .null)
      · refine iff_of_true (by rw [herr]; trivial) fun type' htype hne => ?_
        exact absurd ((Option.some.inj htype).symm.trans herr) hne
      · obtain ⟨d, hd⟩ := described_given herr
        have hfield : (Outcome.given type).bind described = .given d := hd
        show DeclaredAlike (.given type) _ ↔ _
        rw [declaredAlike_given hfield, variablePair_described_iff]
        constructor
        · rintro ⟨type', htype', heq⟩ found hfound -
          cases hfound
          exact ⟨type', htype', heq.trans hd.symm⟩
        · intro hall
          obtain ⟨type', htype', heq⟩ := hall type rfl herr
          exact ⟨type', htype', heq.trans hd⟩

/-- Without a type string an array is given the type of its elements. -/
theorem declaredAlike_typeless (harray : decl.declarator = .array sizeExpr spec)
    (htext : sizeExpr.sizeStr = .given size) (s : Scopes) :
    DeclaredAlike (reducedPair types addressed decl.typeSpec s)
        (declaredPair types addressed fields index decl s) ↔
      Typeless types addressed decl.typeSpec s := by
  rw [Typeless, reducedPair]
  cases hreduce : reduceTypeList types addressed decl.typeSpec s with
  | none => exact iff_of_true trivial fun type htype => by cases htype
  | some type =>
    obtain ⟨t, c⟩ := type
    have hfound := reduceTypeList_found hreduce
    by_cases hc : c = .null
    · subst hc
      by_cases ht : t = .err
      · subst ht
        refine iff_of_true trivial fun type htype => (Option.some.inj htype).symm
      · refine iff_of_false (fun halike => ?_) fun hall => ht (Prod.mk.inj (hall _ rfl)).1
        have hfield : (Outcome.given (t, ComplexType.null)).bind described =
            .given (.scalar t) := described_scalar ht
        obtain ⟨c, heq, -⟩ := not_found_of_array harray htext
          ((declaredAlike_given hfield).mp halike)
        cases heq
    · refine iff_of_false (fun halike => ?_) fun hall => hc (Prod.mk.inj (hall _ rfl)).2
      have hfield : (Outcome.given (t, c)).bind described = .given (.complex c) :=
        described_of_ne hc
      obtain ⟨c', heq, hnot⟩ := not_found_of_array harray htext
        ((declaredAlike_given hfield).mp halike)
      cases heq
      rw [hnot] at hfound
      cases hfound

end

/-! ## The parser -/

theorem typeListToString_of_none {l : List DeclNode} (h : stringScalar l = none) :
    typeListToString l = none := by
  rw [typeListToString]
  cases hstring : stringType l with
  | none => rfl
  | some cg =>
    rw [stringScalar, hstring, Option.filter_some] at h
    rw [Option.bind_some]
    cases hbase : cg.asString with
    | none => rfl
    | some base =>
      rw [hbase, Option.isSome_some, if_pos rfl] at h
      cases h

theorem typeListToString_of_some {l : List DeclNode} {cg : CgType} (h : stringScalar l = some cg) :
    ∃ base, cg.asString = some base ∧ typeListToString l = some base := by
  obtain ⟨hstring, hsome⟩ := Option.filter_eq_some_iff.mp h
  obtain ⟨base, hbase⟩ := Option.isSome_iff_exists.mp hsome
  exact ⟨base, hbase, by rw [typeListToString, hstring, Option.bind_some, hbase]⟩

theorem mem_baseStrings_of_string {l : List DeclNode} {base : CString × Int32}
    (h : typeListToString l = some base) : base.1 ∈ baseStrings := by
  obtain ⟨cg, -, hbase⟩ := Option.bind_eq_some_iff.mp h
  exact mem_baseStrings hbase

namespace FieldDecl

variable {decl : FieldDecl} {f : ParsedField}

/-- A size that is taken has a text. -/
theorem sizeStr_of_reads {sizeExpr : SizeExpr} {spec : PointerSpec}
    (hdecl : decl.declarator = .array sizeExpr spec) :
    (∃ size, sizeExpr.sizeStr = .given size) ↔ decl.Reads := by
  rw [Reads, hdecl]
  cases sizeExpr with
  | identifier name => exact iff_of_true ⟨_, rfl⟩ trivial
  | constant e =>
    show (∃ size, (SizeExpr.constant e).sizeStr = .given size) ↔
      ∃ text, e.evaluateConstantReturnExpr = .value ⟨.integerConstant, text⟩
    rw [SizeExpr.sizeStr]
    constructor
    · rintro ⟨size, hsize⟩
      split at hsize
      · next text htext => exact ⟨text, htext⟩
      · cases hsize
    · rintro ⟨text, htext⟩
      rw [htext]
      exact ⟨_, rfl⟩
  | _ =>
    refine iff_of_false (fun hgiven => ?_) fun h => h
    obtain ⟨size, hsize⟩ := hgiven
    cases hsize

/-- The field of a declaration that is read. -/
inductive ParsesTo (decl : FieldDecl) (f : ParsedField) : Prop where
  | declaration (declarator : decl.declarator = .declaration)
      (string : f.stringType = (typeListToString decl.typeSpec).map Prod.fst)
      (size : f.cgSize = ((typeListToString decl.typeSpec).map Prod.snd).getD 0)
      (typeSpec : f.typeSpec = decl.typeSpec)
  | array (sizeExpr : SizeExpr) (spec : PointerSpec) (text : CString)
      (declarator : decl.declarator = .array sizeExpr spec)
      (sizeStr : sizeExpr.sizeStr = .given text)
      (string : f.stringType = (typeListToString decl.typeSpec).map fun base =>
        bracketed base.1 text)
      (size : f.cgSize = ((typeListToString decl.typeSpec).map Prod.snd).getD 0)
      (typeSpec : f.typeSpec = decl.typeSpec)

theorem parsesTo_of_parsed (h : decl.parsed = .given f) : decl.ParsesTo f ∧ decl.Reads := by
  cases hdecl : decl.declarator with
  | declaration =>
    rw [parsed, string, hdecl] at h
    cases h
    exact ⟨.declaration hdecl rfl rfl rfl, by rw [Reads, hdecl]; trivial⟩
  | arrays =>
    rw [parsed, string, hdecl] at h
    cases h
  | array sizeExpr spec =>
    rw [parsed, string, hdecl] at h
    cases hsize : sizeExpr.sizeStr with
    | given text =>
      refine ⟨.array sizeExpr spec text hdecl hsize ?_ ?_ ?_,
        (sizeStr_of_reads hdecl).mp ⟨text, hsize⟩⟩
      all_goals
        dsimp only at h
        rw [hsize] at h
        cases h
        cases typeListToString decl.typeSpec <;> rfl
    | _ =>
      dsimp only at h
      rw [hsize] at h
      cases h

theorem exists_parsed (h : decl.Reads) : ∃ f, decl.parsed = .given f := by
  cases hdecl : decl.declarator with
  | declaration =>
    rw [parsed, string, hdecl]
    exact ⟨_, rfl⟩
  | arrays =>
    rw [Reads, hdecl] at h
    cases h
  | array sizeExpr spec =>
    obtain ⟨text, htext⟩ := (sizeStr_of_reads hdecl).mpr h
    rw [parsed, string, hdecl]
    dsimp only
    rw [htext]
    exact ⟨_, rfl⟩

end FieldDecl

section

variable {decls : List FieldDecl} {fields : List ParsedField}

theorem codBuildParsedTypeNode_given (h : codBuildParsedTypeNode decls = .given fields) :
    List.Forall₂ (fun decl f => decl.parsed = .given f) decls fields := by
  induction decls generalizing fields with
  | nil =>
    cases h
    exact .nil
  | cons decl decls ih =>
    rw [codBuildParsedTypeNode] at h
    cases hparsed : decl.parsed with
    | given f =>
      cases hrest : codBuildParsedTypeNode decls with
      | given rest =>
        rw [hparsed, hrest] at h
        cases h
        exact .cons hparsed (ih hrest)
      | _ =>
        rw [hparsed, hrest] at h
        cases h
    | _ =>
      rw [hparsed] at h
      cases h

theorem exists_codBuildParsedTypeNode (h : ∀ decl ∈ decls, decl.Reads) :
    ∃ fields, codBuildParsedTypeNode decls = .given fields := by
  induction decls with
  | nil => exact ⟨[], rfl⟩
  | cons decl decls ih =>
    rw [List.forall_mem_cons] at h
    obtain ⟨f, hf⟩ := FieldDecl.exists_parsed h.1
    obtain ⟨fields, hfields⟩ := ih h.2
    rw [codBuildParsedTypeNode, hf, hfields]
    exact ⟨_, rfl⟩

theorem readFields_of_forall₂
    (h : List.Forall₂ (fun decl f => FieldDecl.parsed decl = .given f) decls fields) :
    readFields decls = fields := by
  induction h with
  | nil => rfl
  | @cons decl f decls fields hparsed _ ih =>
    rw [readFields, List.filterMap_cons, hparsed]
    exact congrArg (f :: ·) ih

theorem produced_of_forall₂
    (h : List.Forall₂ (fun decl f => FieldDecl.parsed decl = .given f) decls fields) :
    Produced fields := by
  induction h with
  | nil => exact fun f hf => by cases hf
  | @cons decl f decls fields hparsed _ ih =>
    refine List.forall_mem_cons.mpr ⟨fun str hstr => ?_, ih⟩
    cases (FieldDecl.parsesTo_of_parsed hparsed).1 with
    | declaration _ hstring _ _ =>
      rw [hstring] at hstr
      obtain ⟨base, hbase, rfl⟩ := Option.map_eq_some_iff.mp hstr
      exact .inl (mem_baseStrings_of_string hbase)
    | array _ _ text _ _ hstring _ _ =>
      rw [hstring] at hstr
      obtain ⟨base, hbase, rfl⟩ := Option.map_eq_some_iff.mp hstr
      exact .inr ⟨base.1, mem_baseStrings_of_string hbase, text, rfl⟩

end

/-! ## The types of the fields -/

section

variable {fields : List ParsedField} {f : ParsedField} {decl : FieldDecl}

/-- What a round of the loop over the fields makes of a declaration. -/
theorem declaredAlike_iff (types : Nat → ScopeType) (addressed : CString → Bool) (index : Nat)
    (hparsed : decl.parsed = .given f) (hproduced : Produced fields) (s : Scopes) :
    DeclaredAlike (semanticizeField types addressed fields index f s)
        (declaredPair types addressed fields index decl s) ↔
      FieldKept types addressed fields index decl s := by
  cases (FieldDecl.parsesTo_of_parsed hparsed).1 with
  | declaration hdecl hstring hsize hspec =>
    have hdeclared : declaredPair types addressed fields index decl s =
        variablePair types addressed decl.declared s := by
      rw [declaredPair, hdecl]
      exact variablePair_withoutFirst (by decide) _ _
    rw [hdeclared, FieldKept, hdecl]
    cases hscalar : stringScalar decl.typeSpec with
    | none =>
      rw [typeListToString_of_none hscalar] at hstring
      rw [semanticizeField, hstring, hspec]
      exact declaredAlike_left s
    | some cg =>
      obtain ⟨base, hbase, hlist⟩ := typeListToString_of_some hscalar
      rw [hlist] at hstring hsize
      rw [semanticizeField_scalar hbase hstring hsize]
      show _ ↔ decl.Keeps types addressed cg s
      rw [FieldDecl.keeps_iff hscalar]
      exact declaredAlike_scalar (ne_err_of_stringScalar hscalar) s
  | array sizeExpr spec text hdecl htext hstring hsize hspec =>
    rw [FieldKept, hdecl]
    cases hscalar : stringScalar decl.typeSpec with
    | none =>
      rw [typeListToString_of_none hscalar] at hstring
      have hfield : semanticizeField types addressed fields index f s =
          reducedPair types addressed decl.typeSpec s := by
        rw [semanticizeField, hstring, hspec]
        rfl
      rw [hfield]
      exact declaredAlike_typeless hdecl htext s
    | some cg =>
      obtain ⟨base, hbase, hlist⟩ := typeListToString_of_some hscalar
      rw [hlist] at hstring hsize
      have harray : ArrayField fields index decl f cg sizeExpr spec text :=
        ⟨hdecl, hscalar, htext, ⟨base, hbase, hstring, hsize⟩, hproduced⟩
      rw [harray.alike_iff s]
      constructor
      · exact fun hkept => ⟨text, htext, hkept⟩
      · rintro ⟨text', htext', hkept⟩
        rw [htext] at htext'
        cases htext'
        exact hkept

end

theorem exists_getElem?_of_forall₂ {α β : Type} {R : α → β → Prop} {xs : List α} {ys : List β}
    (h : List.Forall₂ R xs ys) {i : Nat} {x : α} (hx : xs[i]? = some x) :
    ∃ y, ys[i]? = some y ∧ R x y := by
  induction h generalizing i with
  | nil => cases hx
  | @cons a b xs ys hab _ ih =>
    cases i with
    | zero =>
      cases hx
      exact ⟨b, rfl, hab⟩
    | succ i => exact ih hx

def pointerName : Name where
  text := cstr ['p'] (.refl false)
  plain := List.all_eq_true.mp (.refl true)
  first _ hb := Option.some.inj hb ▸ .refl false

/-- `int *p;` in a struct type. -/
def intPointer : StructDeclaration where
  specifiers := [.typeSpecifier .int]
  declarators := [{ id := pointerName, pointers := ⟨[.star], by decide, by decide⟩,
                    declarator := .declaration }]

end Cod
end FFS
