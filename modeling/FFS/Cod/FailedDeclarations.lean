import FFS.Cod.Declarations

/-!
# Failed declarations

Undoing the declarations of a text takes those scope entries away that were made for the nodes of
its list.  What else the analysis enters in the scope of the context stays there.
-/

namespace FFS
namespace Cod

open Machine

/-! ## What is entered

The analysis only adds to the scope of the context, and sets the flag at most.  It is quiet where
it does neither. -/

mutual

/-- The nodes that a scope can be given. -/
def nodes : DeclNode → List Nat
  | .structTypeDecl node _ fields => node :: nodesOf fields
  | .field _ typeSpec => nodesOf typeSpec
  | .enumTypeDecl node _ enums => node :: enums.map Enumerator.node
  | .declaration node _ typeSpec initValue _ params =>
    node :: (nodesOf typeSpec ++ nodes initValue ++ nodesOf params)
  | .arrayTypeDecl node typeSpec sizeExpr elementRef =>
    node :: (nodesOf typeSpec ++ nodes sizeExpr ++ nodes elementRef)
  | .referenceTypeDecl node _ => [node]
  | .expression _ parts _ _ => nodesOf parts
  | .cast typeSpec => nodesOf typeSpec
  | _ => []

def nodesOf : List DeclNode → List Nat
  | [] => []
  | d :: l => nodes d ++ nodesOf l

end

/-- The scope of the context has more entries, for nodes of some kind. -/
def Grows (P : Nat → Prop) (s s' : Scopes) : Prop :=
  (∃ new, s'.entries = new ++ s.entries ∧ ∀ e ∈ new, P e.node) ∧
    (s.hasExecContext = true → s'.hasExecContext = true) ∧ s'.locals.length = s.locals.length

instance (P : Nat → Prop) : Std.Refl (Grows P) where
  refl s := ⟨⟨[], rfl, by simp⟩, id, rfl⟩

instance (P : Nat → Prop) : IsTrans Scopes (Grows P) where
  trans s s₁ s₂ h h₁ := by
    obtain ⟨⟨new, hnew, hP⟩, hflag, hlength⟩ := h
    obtain ⟨⟨new₁, hnew₁, hP₁⟩, hflag₁, hlength₁⟩ := h₁
    refine ⟨⟨new₁ ++ new, by rw [hnew₁, hnew, List.append_assoc], fun e he => ?_⟩,
      fun h => hflag₁ (hflag h), hlength₁.trans hlength⟩
    rcases List.mem_append.1 he with he | he
    · exact hP₁ e he
    · exact hP e he

namespace Scopes

/-- Where a name is entered is not the scope of the context. -/
def Inner (s : Scopes) : Prop := s.locals ≠ []

end Scopes

def QuietEnum (own : Prop) (enums : List Enumerator) (s : Scopes) : Prop :=
  match enums with
  | [] => own ∨ s.Inner
  | e :: _ => e.constant = false

def QuietReduced (l : List DeclNode) (rest : Bool → Scopes → Prop) (s : Scopes) : Prop :=
  match specifiedType (leading l) ((leading l).length < l.length) with
  | none => True
  | some cgType => rest (cgType ≠ .err) s

/-- One quiet step and then another one. -/
def QuietThen (x : Option (Scopes × Bool)) (Q : Prop) (next : Scopes → Prop) : Prop :=
  Q ∧ ∀ s ok, x = some (s, ok) → ok = true → next s

/-- `own` says that the name itself does not count. -/
def QuietDeclared (own : Prop) (addressed : CString → Bool) (id : CString) (node : Nat)
    (rest : Scopes → Prop) (s : Scopes) : Prop :=
  s.resolveLocal id = none →
    (own ∨ s.Inner) ∧ (s.Inner ∨ addressed id = true → rest (s.addDecl id node))

def QuietFinished (initValue : DeclNode) (expr : Scopes → Prop) (isSubroutine : Bool)
    (params : Scopes → Prop) (s : Scopes) : Prop :=
  if initValue.isNull = false then expr s
  else isSubroutine = true → params { s with locals := [] :: s.locals }

def QuietSized (sizeExpr elementRef : DeclNode) (expr : Scopes → Prop)
    (value : Scopes → Option (Scopes × Bool)) (rest : Scopes → Prop) (s : Scopes) : Prop :=
  if sizeExpr.isNull then elementRef.isDeclaration = true → rest s
  else sizeExpr.isConstantExpr = true → QuietThen (value s) (expr s) rest

section

variable (addressed : CString → Bool) (typed : Nat → Bool → Bool)

mutual

def QuietRest (inFront typeFound typ cg : Bool) : List DeclNode → Scopes → Prop
  | [], _ => True
  | d :: l, s =>
    match d with
    | .typeSpecifier t =>
      if t.pointer then QuietRest false typeFound true true l s
      else if inFront then QuietRest true typeFound typ cg l s
      else if typeFound then True
      else QuietRest false typeFound typ cg l s
    | .identifier id =>
      if typeFound then True
      else match s.resolve id with
        | some n => QuietRest false true true (typed n cg) l s
        | none =>
          if id = codExecContext then
            s.hasExecContext = true ∧ QuietRest false true true true l s
          else if id = codTypeSpec ∨ id = codClosureContext then QuietRest false true true true l s
          else cg = true → QuietRest false true false true l s
    | .structTypeDecl _ id fields =>
      if fields.isEmpty && (s.resolve id).isNone then True
      else if fields.isEmpty then QuietRest false typeFound true true l s
      else QuietDecl False d s ∧ ∀ s' ok, semanticizeDecl addressed typed d s = some (s', ok) →
        QuietRest false typeFound true true l s'
    | .enumTypeDecl _ id enums =>
      if enums.isEmpty && (s.resolve id).isNone then True
      else if enums.isEmpty then QuietRest false typeFound true true l s
      else QuietDecl False d s ∧ ∀ s' ok, semanticizeDecl addressed typed d s = some (s', ok) →
        QuietRest false typeFound true true l s'
    | _ => True
termination_by structural l => l

def QuietSpec : DeclNode → Scopes → Prop
  | .field _ typeSpec, s =>
    QuietReduced typeSpec (fun cg => QuietRest true cg false cg typeSpec) s
  | _, _ => True
termination_by structural d => d

def QuietFields (ret : Bool) : List DeclNode → Scopes → Prop
  | [], _ => True
  | d :: l, s =>
    match d.fieldType with
    | .none => QuietSpec d s ∧ ∀ s' ok, reduceSpec addressed typed d s = some (s', ok) →
      QuietFields ret l s'
    | .unknown => True
    | .known err => QuietFields (ret && !err) l s
termination_by structural l => l

def QuietParts (mode : Parts) : List DeclNode → Scopes → Prop
  | [], _ => True
  | d :: l, s => QuietExpr d s ∧ ∀ s' ok, semanticizeExpr addressed typed d s = some (s', ok) →
    mode.goesOn ok = true → QuietParts mode l s'
termination_by structural l => l

def QuietExpr : DeclNode → Scopes → Prop
  | .expression _ parts mode _, s => QuietParts mode parts s
  | .cast typeSpec, s => QuietReduced typeSpec (fun cg => QuietRest true cg false cg typeSpec) s
  | _, _ => True
termination_by structural d => d

def QuietElement (static : Bool) (super this : Scopes → Prop) : DeclNode → Scopes → Prop
  | .declaration node id typeSpec initValue isSubroutine params, s =>
    QuietThen
      (declared addressed node id (fun s =>
        if static && !initValue.isNull && !initValue.isConstantExpr then some (s, false)
        else finished initValue (semanticizeExpr addressed typed initValue) isSubroutine
          (semanticizeDeclsList addressed typed true params) s) s)
      (QuietDeclared False addressed id node (fun s =>
        if static && !initValue.isNull && !initValue.isConstantExpr then True
        else QuietFinished initValue (QuietExpr initValue) isSubroutine
          (QuietDeclsList False true params) s) s)
      (if typeSpec.isEmpty then super
        else QuietReduced typeSpec (fun cg => QuietRest true cg false cg typeSpec))
  | .arrayTypeDecl _ typeSpec sizeExpr elementRef, s =>
    QuietSized sizeExpr elementRef (QuietExpr sizeExpr) (semanticizeExpr addressed typed sizeExpr)
      (QuietElement false this
        (QuietReduced typeSpec fun cg => QuietRest true cg false cg typeSpec) elementRef) s
  | _, _ => True
termination_by structural d => d

def QuietDecl (own : Prop) : DeclNode → Scopes → Prop
  | .declaration node id typeSpec initValue isSubroutine params, s =>
    QuietDeclared own addressed id node (fun s =>
      if firstIsStatic typeSpec && !isSubroutine && !initValue.isNull &&
          !initValue.isConstantExpr then True
      else QuietThen
        (reduced typeSpec (fun cg => reduceRest addressed typed true cg false cg typeSpec) s)
        (QuietReduced typeSpec (fun cg => QuietRest true cg false cg typeSpec) s)
        (QuietFinished initValue (QuietExpr initValue) isSubroutine
          (QuietDeclsList False true params))) s
  | .structTypeDecl node id fields, s =>
    (own ∨ s.Inner) ∧ QuietFields true fields (s.addDecl id node)
  | .arrayTypeDecl _ typeSpec sizeExpr elementRef, s =>
    QuietSized sizeExpr elementRef (QuietExpr sizeExpr) (semanticizeExpr addressed typed sizeExpr)
      (QuietElement (firstIsStatic typeSpec)
        (QuietReduced typeSpec fun cg => QuietRest true cg false cg typeSpec)
        (QuietReduced typeSpec fun cg => QuietRest true cg false cg typeSpec) elementRef) s
  | .referenceTypeDecl _ name, s => name ≠ none → own ∨ s.Inner
  | .enumTypeDecl _ _ enums, s => QuietEnum own enums s
  | _, _ => True
termination_by structural d => d

def QuietDeclsList (own : Prop) (ret : Bool) : List DeclNode → Scopes → Prop
  | [], _ => True
  | d :: l, s => QuietDecl own d s ∧
    ∀ s' ok, semanticizeDecl addressed typed d s = some (s', ok) →
      QuietDeclsList own (ret && ok) l s'
termination_by structural l => l

end

end

/-! ## Steps -/

section

variable {P : Nat → Prop} {s : Scopes}

theorem grows_addToContext (id : CString) {node : Nat} (h : P node) :
    Grows P s (s.addToContext id node) := by
  refine ⟨⟨[⟨id, node⟩], rfl, fun e he => ?_⟩, fun hflag => hflag, rfl⟩
  rw [List.mem_singleton.1 he]
  exact h

/-- Entries are not taken away again. -/
theorem not_grows_of_length {s s' : Scopes} (h : s.entries.length < s'.entries.length) :
    ¬ Grows P s' s := by
  rintro ⟨⟨new, hnew, -⟩, -, -⟩
  have hlength := congrArg List.length hnew
  rw [List.length_append] at hlength
  omega

theorem addDecl_of_inner (h : s.Inner) (id : CString) (node : Nat) :
    (s.addDecl id node).entries = s.entries ∧
      (s.addDecl id node).hasExecContext = s.hasExecContext ∧
      (s.addDecl id node).locals.length = s.locals.length := by
  obtain ⟨locals, entries, flag⟩ := s
  cases locals with
  | nil => exact absurd rfl h
  | cons l ls => exact ⟨rfl, rfl, rfl⟩

theorem addDecl_of_not_inner (h : ¬ s.Inner) (id : CString) (node : Nat) :
    s.addDecl id node = s.addToContext id node := by
  obtain ⟨locals, entries, flag⟩ := s
  cases locals with
  | nil => rfl
  | cons l ls => exact absurd (List.cons_ne_nil l ls) h

theorem grows_of_eq {s s' : Scopes} (h : s'.entries = s.entries ∧
    s'.hasExecContext = s.hasExecContext ∧ s'.locals.length = s.locals.length) : Grows P s s' :=
  ⟨⟨[], h.1, by simp⟩, fun hflag => h.2.1.trans hflag, h.2.2⟩

theorem grows_addDecl (id : CString) {node : Nat} (h : P node) : Grows P s (s.addDecl id node) := by
  by_cases hinner : s.Inner
  · exact grows_of_eq (addDecl_of_inner hinner id node)
  · rw [addDecl_of_not_inner hinner]
    exact grows_addToContext id h

theorem addDecl_grows_iff (id : CString) (node : Nat) :
    Grows P (s.addDecl id node) s ↔ s.Inner := by
  constructor
  · intro h
    by_contra hinner
    rw [addDecl_of_not_inner hinner] at h
    exact not_grows_of_length (Nat.lt_succ_self _) h
  · intro hinner
    obtain ⟨hentries, hflag, hlength⟩ := addDecl_of_inner hinner id node
    exact grows_of_eq ⟨hentries.symm, hflag.symm, hlength.symm⟩

theorem effect_reduced {l : List DeclNode} {rest : Bool → Scopes → Option (Scopes × Bool)}
    {Q : Bool → Scopes → Prop} (h : ∀ cg, Effect (Grows P) s (rest cg s) (Q cg s)) :
    Effect (Grows P) s (reduced l rest s) (QuietReduced l Q s) := by
  rw [reduced, QuietReduced]
  cases specifiedType (leading l) ((leading l).length < l.length) with
  | none => exact effect_pure s false
  | some cgType => exact h _

theorem effect_andThen {x : Option (Scopes × Bool)} {Q : Prop}
    {next : Scopes → Option (Scopes × Bool)} {R : Scopes → Prop} (h : Effect (Grows P) s x Q)
    (hnext : ∀ s₁, Effect (Grows P) s₁ (next s₁) (R s₁)) :
    Effect (Grows P) s (andThen x next) (QuietThen x Q R) := by
  refine h.bind (P := fun s₁ ok => ok = true → R s₁) fun s₁ ok hx => ?_
  cases ok with
  | false => exact (effect_pure s₁ false).congr (iff_of_true trivial fun h => by cases h)
  | true => exact (hnext s₁).congr ⟨fun hR _ => hR, fun hR => hR rfl⟩

theorem effect_declared {addressed : CString → Bool} {node : Nat} {id : CString}
    {rest : Scopes → Option (Scopes × Bool)} {Q : Scopes → Prop} (hnode : P node)
    (h : ∀ s₁, Effect (Grows P) s₁ (rest s₁) (Q s₁)) (s : Scopes) :
    Effect (Grows P) s (declared addressed node id rest s)
      (QuietDeclared False addressed id node Q s) := by
  rw [declared, QuietDeclared]
  cases s.resolveLocal id with
  | some n => exact (effect_pure s _).congr (iff_of_true trivial fun h => by cases h)
  | none =>
    have hgrows : Grows P s (s.addDecl id node) := grows_addDecl id hnode
    by_cases hinner : s.Inner
    · rw [if_neg fun hcond => hinner hcond.1]
      refine ((h _).after hgrows).congr ?_
      rw [addDecl_grows_iff]
      simp [hinner]
    · by_cases hcond : s.locals = [] ∧ addressed id = false
      · rw [if_pos hcond]
        refine (effect_some hgrows false).congr ?_
        rw [addDecl_grows_iff]
        simp [hinner]
      · rw [if_neg hcond]
        refine ((h _).after hgrows).congr ?_
        rw [addDecl_grows_iff]
        simp [hinner]

theorem effect_inScope {f : Scopes → Option (Scopes × Bool)} {Q : Scopes → Prop}
    (h : ∀ s₁, Effect (Grows P) s₁ (f s₁) (Q s₁)) (s : Scopes) :
    Effect (Grows P) s (Scopes.inScope f s) (Q { s with locals := [] :: s.locals }) := by
  intro s' ok hx
  obtain ⟨⟨s₁, ok₁⟩, hf, heq⟩ := Option.map_eq_some_iff.1 hx
  obtain ⟨rfl, rfl⟩ := Prod.mk.inj heq
  obtain ⟨⟨⟨new, hnew, hP⟩, hflag, hlength⟩, hback⟩ := h _ s₁ ok₁ hf
  have hlength' : s₁.locals.tail.length = s.locals.length := by
    rw [List.length_tail, hlength]
    rfl
  refine ⟨⟨⟨new, hnew, hP⟩, hflag, hlength'⟩, ?_⟩
  rw [← hback]
  exact ⟨fun hdown => ⟨hdown.1, hdown.2.1, hlength.symm⟩,
    fun hdown => ⟨hdown.1, hdown.2.1, hlength'.symm⟩⟩

theorem effect_finished {initValue : DeclNode} {expr params : Scopes → Option (Scopes × Bool)}
    {isSubroutine : Bool} {Q R : Scopes → Prop}
    (hexpr : ∀ s₁, Effect (Grows P) s₁ (expr s₁) (Q s₁))
    (hparams : ∀ s₁, Effect (Grows P) s₁ (params s₁) (R s₁)) (s : Scopes) :
    Effect (Grows P) s (finished initValue expr isSubroutine params s)
      (QuietFinished initValue Q isSubroutine R s) := by
  rw [finished, QuietFinished]
  split
  · exact hexpr s
  · cases isSubroutine with
    | false => exact (effect_pure s true).congr (iff_of_true trivial fun h => by cases h)
    | true => exact (effect_inScope hparams s).congr ⟨fun hR _ => hR, fun hR => hR rfl⟩

theorem effect_sized {sizeExpr elementRef : DeclNode}
    {expr rest : Scopes → Option (Scopes × Bool)} {Q R : Scopes → Prop}
    (hexpr : ∀ s₁, Effect (Grows P) s₁ (expr s₁) (Q s₁))
    (hrest : ∀ s₁, Effect (Grows P) s₁ (rest s₁) (R s₁)) (s : Scopes) :
    Effect (Grows P) s (sized sizeExpr elementRef expr rest s)
      (QuietSized sizeExpr elementRef Q expr R s) := by
  rw [sized, QuietSized]
  split
  · cases elementRef.isDeclaration with
    | false => exact (effect_pure s false).congr (iff_of_true trivial fun h => by cases h)
    | true => exact (hrest s).congr ⟨fun hR _ => hR, fun hR => hR rfl⟩
  · cases sizeExpr.isConstantExpr with
    | false => exact (effect_pure s false).congr (iff_of_true trivial fun h => by cases h)
    | true => exact (effect_andThen (hexpr s) hrest).congr ⟨fun hR _ => hR, fun hR => hR rfl⟩

theorem grows_enumerators {enums : List Enumerator} (h : ∀ e ∈ enums, P e.node) (s : Scopes) :
    Grows P s (semanticizeEnumerators enums s).1 := by
  induction enums generalizing s with
  | nil => exact Std.Refl.refl s
  | cons e es ih =>
    rw [semanticizeEnumerators]
    split
    · exact IsTrans.trans _ _ _ (grows_addToContext e.id (h e List.mem_cons_self))
        (ih (fun e' he' => h e' (List.mem_cons_of_mem e he')) _)
    · exact Std.Refl.refl s

theorem enumerators_length {e : Enumerator} (es : List Enumerator) (s : Scopes)
    (h : e.constant = true) :
    s.entries.length < (semanticizeEnumerators (e :: es) s).1.entries.length := by
  have hgrows : Grows (fun _ => True) (s.addToContext e.id e.node)
      (semanticizeEnumerators es (s.addToContext e.id e.node)).1 :=
    grows_enumerators (fun _ _ => trivial) _
  obtain ⟨⟨new, hnew, -⟩, -⟩ := hgrows
  rw [semanticizeEnumerators, if_pos h, hnew, List.length_append]
  exact Nat.lt_of_lt_of_le (Nat.lt_succ_self _) (Nat.le_add_left _ _)

theorem enumTypeNode_of_not_constant {e : Enumerator} (es : List Enumerator) (s : Scopes)
    (h : e.constant = false) (node : Nat) (id : CString) :
    semanticizeEnumTypeNode node id (e :: es) s = (s, false) := by
  have henumerators : semanticizeEnumerators (e :: es) s = (s, false) := by
    rw [semanticizeEnumerators, h]
    rfl
  rw [semanticizeEnumTypeNode, henumerators]
  rfl

theorem grows_enumTypeNode {enums : List Enumerator} {node : Nat} (hnode : P node)
    (h : ∀ e ∈ enums, P e.node) (id : CString) (s : Scopes) :
    Grows P s (semanticizeEnumTypeNode node id enums s).1 := by
  rw [semanticizeEnumTypeNode]
  split
  · exact IsTrans.trans _ _ _ (grows_enumerators h s) (grows_addDecl id hnode)
  · exact grows_enumerators h s

theorem enumTypeNode_length {e : Enumerator} (es : List Enumerator) (s : Scopes)
    (h : e.constant = true) (node : Nat) (id : CString) :
    s.entries.length < (semanticizeEnumTypeNode node id (e :: es) s).1.entries.length := by
  rw [semanticizeEnumTypeNode]
  split
  · have hgrows : Grows (fun _ => True) (semanticizeEnumerators (e :: es) s).1
        ((semanticizeEnumerators (e :: es) s).1.addDecl id node) := grows_addDecl id trivial
    obtain ⟨⟨new, hnew, -⟩, -⟩ := hgrows
    rw [hnew, List.length_append]
    exact Nat.lt_of_lt_of_le (enumerators_length es s h) (Nat.le_add_left _ _)
  · exact enumerators_length es s h

theorem effect_enum {enums : List Enumerator} {node : Nat} (hnode : P node)
    (h : ∀ e ∈ enums, P e.node) (id : CString) (s : Scopes) :
    Effect (Grows P) s (some (semanticizeEnumTypeNode node id enums s))
      (QuietEnum False enums s) := by
  refine (effect_some (grows_enumTypeNode hnode h id s) _).congr ?_
  cases enums with
  | nil => exact (addDecl_grows_iff id node).trans (false_or _).symm.to_iff
  | cons e es =>
    show _ ↔ e.constant = false
    cases hconstant : e.constant with
    | false =>
      rw [enumTypeNode_of_not_constant es s hconstant]
      exact iff_of_true (Std.Refl.refl s) rfl
    | true =>
      exact iff_of_false (not_grows_of_length (enumTypeNode_length es s hconstant node id))
        Bool.false_ne_true.symm

end

/-! ## The analysis -/

section

variable (addressed : CString → Bool) (typed : Nat → Bool → Bool) (P : Nat → Prop)

/-- What the steps over a list of nodes do. -/
structure ListEffects (l : List DeclNode) : Prop where
  rest : ∀ inFront typeFound typ cg s, Effect (Grows P) s
    (reduceRest addressed typed inFront typeFound typ cg l s)
    (QuietRest addressed typed inFront typeFound typ cg l s)
  fields : ∀ ret s, Effect (Grows P) s (semanticizeFields addressed typed ret l s)
    (QuietFields addressed typed ret l s)
  parts : ∀ mode ok s, Effect (Grows P) s (semanticizeParts addressed typed mode ok l s)
    (QuietParts addressed typed mode l s)
  decls : ∀ ret s, Effect (Grows P) s (semanticizeDeclsList addressed typed ret l s)
    (QuietDeclsList addressed typed False ret l s)

/-- What the steps over a node do. -/
structure NodeEffects (d : DeclNode) : Prop where
  decl : ∀ s, Effect (Grows P) s (semanticizeDecl addressed typed d s)
    (QuietDecl addressed typed False d s)
  expr : ∀ s, Effect (Grows P) s (semanticizeExpr addressed typed d s)
    (QuietExpr addressed typed d s)
  spec : ∀ s, Effect (Grows P) s (reduceSpec addressed typed d s) (QuietSpec addressed typed d s)
  element : ∀ static super this Super This,
    (∀ s, Effect (Grows P) s (super s) (Super s)) → (∀ s, Effect (Grows P) s (this s) (This s)) →
    ∀ s, Effect (Grows P) s (semanticizeElement addressed typed static super this d s)
      (QuietElement addressed typed static Super This d s)

variable {addressed : CString → Bool} {typed : Nat → Bool → Bool} {P : Nat → Prop}

theorem listEffects_nil : ListEffects addressed typed P [] where
  rest _ _ _ _ s := effect_pure s _
  fields _ s := effect_pure s _
  parts _ _ s := effect_pure s _
  decls _ s := effect_pure s _

theorem ListEffects.reduced {l : List DeclNode} (hl : ListEffects addressed typed P l)
    (s : Scopes) : Effect (Grows P) s
      (reduced l (fun cg => reduceRest addressed typed true cg false cg l) s)
      (QuietReduced l (fun cg => QuietRest addressed typed true cg false cg l) s) :=
  effect_reduced fun cg => hl.rest true cg false cg s

theorem grows_execContext (s : Scopes) : Grows P s { s with hasExecContext := true } :=
  ⟨⟨[], rfl, by simp⟩, fun _ => rfl, rfl⟩

theorem execContext_grows_iff (s : Scopes) :
    Grows P { s with hasExecContext := true } s ↔ s.hasExecContext = true := by
  constructor
  · intro h
    exact h.2.1 rfl
  · intro h
    exact ⟨⟨[], rfl, by simp⟩, fun _ => h, rfl⟩

theorem rest_cons {d : DeclNode} {l : List DeclNode} (hd : NodeEffects addressed typed P d)
    (hl : ListEffects addressed typed P l) (inFront typeFound typ cg : Bool) (s : Scopes) :
    Effect (Grows P) s (reduceRest addressed typed inFront typeFound typ cg (d :: l) s)
      (QuietRest addressed typed inFront typeFound typ cg (d :: l) s) := by
  cases d with
  | typeSpecifier t =>
    rw [reduceRest, QuietRest]
    split
    · exact hl.rest false typeFound true true s
    · split
      · exact hl.rest true typeFound typ cg s
      · split
        · exact effect_pure s false
        · exact hl.rest false typeFound typ cg s
  | identifier id =>
    rw [reduceRest, QuietRest]
    split
    · exact effect_pure s false
    · cases s.resolve id with
      | some n => exact hl.rest false true true (typed n cg) s
      | none =>
        dsimp only
        split
        · refine ((hl.rest false true true true _).after (grows_execContext s)).congr ?_
          rw [execContext_grows_iff]
          refine and_congr_right fun hflag => ?_
          obtain ⟨locals, entries, flag⟩ := s
          obtain rfl : flag = true := hflag
          exact Iff.rfl
        · split
          · exact hl.rest false true true true s
          · cases cg with
            | false => exact effect_none _
            | true =>
              exact (hl.rest false true false true s).congr ⟨fun hQ _ => hQ, fun hQ => hQ rfl⟩
  | structTypeDecl node id fields =>
    rw [reduceRest, QuietRest]
    split
    · exact effect_pure s cg
    · split
      · exact hl.rest false typeFound true true s
      · exact (hd.decl s).bind fun s₁ _ _ => hl.rest false typeFound true true s₁
  | enumTypeDecl node id enums =>
    rw [reduceRest, QuietRest]
    split
    · exact effect_pure s cg
    · split
      · exact hl.rest false typeFound true true s
      · exact (hd.decl s).bind fun s₁ _ _ => hl.rest false typeFound true true s₁
  | _ => exact effect_pure s cg

theorem fields_cons {d : DeclNode} {l : List DeclNode} (hd : NodeEffects addressed typed P d)
    (hl : ListEffects addressed typed P l) (ret : Bool) (s : Scopes) :
    Effect (Grows P) s (semanticizeFields addressed typed ret (d :: l) s)
      (QuietFields addressed typed ret (d :: l) s) := by
  rw [semanticizeFields, QuietFields]
  cases d.fieldType with
  | none => exact (hd.spec s).bind fun s₁ _ _ => hl.fields ret s₁
  | unknown => exact effect_none _
  | known err => exact hl.fields (ret && !err) s

theorem parts_cons {d : DeclNode} {l : List DeclNode} (hd : NodeEffects addressed typed P d)
    (hl : ListEffects addressed typed P l) (mode : Parts) (ok : Bool) (s : Scopes) :
    Effect (Grows P) s (semanticizeParts addressed typed mode ok (d :: l) s)
      (QuietParts addressed typed mode (d :: l) s) := by
  refine (hd.expr s).bind fun s₁ ok' _ => ?_
  dsimp only
  cases hgoes : mode.goesOn ok' with
  | false => exact (effect_pure s₁ false).congr (iff_of_true trivial fun h => by cases h)
  | true => exact (hl.parts mode _ s₁).congr ⟨fun h _ => h, fun h => h rfl⟩

theorem listEffects_cons {d : DeclNode} {l : List DeclNode}
    (hd : NodeEffects addressed typed P d) (hl : ListEffects addressed typed P l) :
    ListEffects addressed typed P (d :: l) where
  rest := rest_cons hd hl
  fields := fields_cons hd hl
  parts := parts_cons hd hl
  decls ret s := (hd.decl s).bind fun s₁ ok _ => hl.decls (ret && ok) s₁

/-- A node that nothing is done with. -/
theorem nodeEffects_other {d : DeclNode} (ok : Bool)
    (hdecl : ∀ s, semanticizeDecl addressed typed d s = some (s, ok))
    (hquiet : ∀ s, QuietDecl addressed typed False d s)
    (hexpr : ∀ s, semanticizeExpr addressed typed d s = some (s, true))
    (hquiet' : ∀ s, QuietExpr addressed typed d s)
    (hspec : ∀ s, reduceSpec addressed typed d s = some (s, true))
    (hquiet'' : ∀ s, QuietSpec addressed typed d s)
    (helement : ∀ static super this s,
      semanticizeElement addressed typed static super this d s = none) :
    NodeEffects addressed typed P d where
  decl s := by
    rw [hdecl]
    exact (effect_pure s ok).congr (iff_of_true trivial (hquiet s))
  expr s := by
    rw [hexpr]
    exact (effect_pure s true).congr (iff_of_true trivial (hquiet' s))
  spec s := by
    rw [hspec]
    exact (effect_pure s true).congr (iff_of_true trivial (hquiet'' s))
  element _ _ _ _ _ _ _ _ := by
    rw [helement]
    exact effect_none _

theorem nodeEffects_struct {node : Nat} {id : CString} {fields : List DeclNode} (hnode : P node)
    (hl : ListEffects addressed typed P fields) :
    NodeEffects addressed typed P (.structTypeDecl node id fields) where
  decl _ := ((hl.fields true _).after (grows_addDecl id hnode)).congr
    (and_congr_left fun _ => (addDecl_grows_iff id node).trans (false_or _).symm.to_iff)
  expr s := effect_pure s true
  spec s := effect_pure s true
  element _ _ _ _ _ _ _ _ := effect_none _

theorem nodeEffects_enum {node : Nat} {id : CString} {enums : List Enumerator} (hnode : P node)
    (h : ∀ e ∈ enums, P e.node) : NodeEffects addressed typed P (.enumTypeDecl node id enums) where
  decl s := effect_enum hnode h id s
  expr s := effect_pure s true
  spec s := effect_pure s true
  element _ _ _ _ _ _ _ _ := effect_none _

theorem nodeEffects_field {fieldType : FieldType} {typeSpec : List DeclNode}
    (hl : ListEffects addressed typed P typeSpec) :
    NodeEffects addressed typed P (.field fieldType typeSpec) where
  decl s := effect_pure s false
  expr s := effect_pure s true
  spec s := hl.reduced s
  element _ _ _ _ _ _ _ _ := effect_none _

theorem nodeEffects_cast {typeSpec : List DeclNode}
    (hl : ListEffects addressed typed P typeSpec) :
    NodeEffects addressed typed P (.cast typeSpec) where
  decl s := effect_pure s false
  expr s := hl.reduced s
  spec s := effect_pure s true
  element _ _ _ _ _ _ _ _ := effect_none _

theorem nodeEffects_expression {isConstant accepted : Bool} {mode : Parts}
    {parts : List DeclNode} (hl : ListEffects addressed typed P parts) :
    NodeEffects addressed typed P (.expression isConstant parts mode accepted) where
  decl s := effect_pure s false
  expr s := hl.parts mode accepted s
  spec s := effect_pure s true
  element _ _ _ _ _ _ _ _ := effect_none _

theorem nodeEffects_reference {node : Nat} (name : Option CString) (hnode : P node) :
    NodeEffects addressed typed P (.referenceTypeDecl node name) where
  decl s := by
    cases name with
    | none => exact (effect_pure s true).congr (iff_of_true trivial fun h => absurd rfl h)
    | some id =>
      refine (effect_some (grows_addDecl id hnode) true).congr ?_
      rw [addDecl_grows_iff]
      exact ⟨fun h _ => .inr h, fun h => (h (Option.some_ne_none id)).resolve_left fun h => h⟩
  expr s := effect_pure s true
  spec s := effect_pure s true
  element _ _ _ _ _ _ _ _ := effect_none _

theorem nodeEffects_declaration {node : Nat} {id : CString} {typeSpec params : List DeclNode}
    {initValue : DeclNode} {isSubroutine : Bool} (hnode : P node)
    (htype : ListEffects addressed typed P typeSpec)
    (hinit : NodeEffects addressed typed P initValue)
    (hparams : ListEffects addressed typed P params) :
    NodeEffects addressed typed P
      (.declaration node id typeSpec initValue isSubroutine params) where
  decl s := by
    rw [semanticizeDecl, QuietDecl]
    refine effect_declared hnode (fun s₁ => ?_) s
    split
    · exact effect_pure s₁ false
    · exact effect_andThen (htype.reduced s₁)
        fun s₂ => effect_finished hinit.expr (hparams.decls true) s₂
  expr s := effect_pure s true
  spec s := effect_pure s true
  element static super this Super This hsuper _ s := by
    rw [semanticizeElement, QuietElement]
    refine effect_andThen (effect_declared hnode (fun s₁ => ?_) s) fun s₂ => ?_
    · split
      · exact effect_pure s₁ false
      · exact effect_finished hinit.expr (hparams.decls true) s₁
    · split
      · exact hsuper s₂
      · exact htype.reduced s₂

theorem nodeEffects_array (node : Nat) {typeSpec : List DeclNode} {sizeExpr elementRef : DeclNode}
    (htype : ListEffects addressed typed P typeSpec)
    (hsize : NodeEffects addressed typed P sizeExpr)
    (helement : NodeEffects addressed typed P elementRef) :
    NodeEffects addressed typed P (.arrayTypeDecl node typeSpec sizeExpr elementRef) where
  decl s := effect_sized hsize.expr
    (helement.element (firstIsStatic typeSpec) _ _ _ _ htype.reduced htype.reduced) s
  expr s := effect_pure s true
  spec s := effect_pure s true
  element _ _ _ _ _ _ hthis s := effect_sized hsize.expr
    (helement.element false _ _ _ _ hthis htype.reduced) s

/-- Induction over nodes and their lists. -/
theorem DeclNode.induct {M : DeclNode → Prop} {L : List DeclNode → Prop} (null : M .null)
    (typeSpecifier : ∀ t, M (.typeSpecifier t)) (identifier : ∀ id, M (.identifier id))
    (structTypeDecl : ∀ node id fields, L fields → M (.structTypeDecl node id fields))
    (field : ∀ fieldType typeSpec, L typeSpec → M (.field fieldType typeSpec))
    (enumTypeDecl : ∀ node id enums, M (.enumTypeDecl node id enums))
    (declaration : ∀ node id typeSpec initValue isSubroutine params, L typeSpec → M initValue →
      L params → M (.declaration node id typeSpec initValue isSubroutine params))
    (arrayTypeDecl : ∀ node typeSpec sizeExpr elementRef, L typeSpec → M sizeExpr →
      M elementRef → M (.arrayTypeDecl node typeSpec sizeExpr elementRef))
    (referenceTypeDecl : ∀ node name, M (.referenceTypeDecl node name)) (constant : M .constant)
    (expression : ∀ isConstant parts mode accepted, L parts →
      M (.expression isConstant parts mode accepted))
    (cast : ∀ typeSpec, L typeSpec → M (.cast typeSpec)) (nil : L [])
    (cons : ∀ d l, M d → L l → L (d :: l)) : (∀ d, M d) ∧ ∀ l, L l :=
  ⟨@DeclNode.rec M L null typeSpecifier identifier structTypeDecl field enumTypeDecl declaration
      arrayTypeDecl referenceTypeDecl constant expression cast nil cons,
    @DeclNode.rec_1 M L null typeSpecifier identifier structTypeDecl field enumTypeDecl declaration
      arrayTypeDecl referenceTypeDecl constant expression cast nil cons⟩

/-- The effects of every node, by the structure of the nodes. -/
theorem nodeEffects : (∀ d : DeclNode, (∀ n ∈ nodes d, P n) → NodeEffects addressed typed P d) ∧
    ∀ l : List DeclNode, (∀ n ∈ nodesOf l, P n) → ListEffects addressed typed P l := by
  apply DeclNode.induct
  case null =>
    exact fun _ => nodeEffects_other false (fun _ => rfl) (fun _ => trivial) (fun _ => rfl)
      (fun _ => trivial) (fun _ => rfl) (fun _ => trivial) fun _ _ _ _ => rfl
  case typeSpecifier =>
    exact fun t _ => nodeEffects_other false (fun _ => rfl) (fun _ => trivial) (fun _ => rfl)
      (fun _ => trivial) (fun _ => rfl) (fun _ => trivial) fun _ _ _ _ => rfl
  case identifier =>
    exact fun id _ => nodeEffects_other false (fun _ => rfl) (fun _ => trivial) (fun _ => rfl)
      (fun _ => trivial) (fun _ => rfl) (fun _ => trivial) fun _ _ _ _ => rfl
  case constant =>
    exact fun _ => nodeEffects_other true (fun _ => rfl) (fun _ => trivial) (fun _ => rfl)
      (fun _ => trivial) (fun _ => rfl) (fun _ => trivial) fun _ _ _ _ => rfl
  case structTypeDecl =>
    intro node id fields ih h
    rw [nodes, List.forall_mem_cons] at h
    exact nodeEffects_struct h.1 (ih h.2)
  case field =>
    intro fieldType typeSpec ih h
    exact nodeEffects_field (ih h)
  case enumTypeDecl =>
    intro node id enums h
    rw [nodes, List.forall_mem_cons] at h
    exact nodeEffects_enum h.1 fun e he => h.2 _ (List.mem_map_of_mem he)
  case declaration =>
    intro node id typeSpec initValue isSubroutine params htype hinit hparams h
    rw [nodes, List.forall_mem_cons, List.forall_mem_append, List.forall_mem_append] at h
    exact nodeEffects_declaration h.1 (htype h.2.1.1) (hinit h.2.1.2) (hparams h.2.2)
  case arrayTypeDecl =>
    intro node typeSpec sizeExpr elementRef htype hsize helement h
    rw [nodes, List.forall_mem_cons, List.forall_mem_append, List.forall_mem_append] at h
    exact nodeEffects_array node (htype h.2.1.1) (hsize h.2.1.2) (helement h.2.2)
  case referenceTypeDecl =>
    intro node name h
    exact nodeEffects_reference name (h node List.mem_cons_self)
  case expression =>
    intro isConstant parts mode accepted ih h
    exact nodeEffects_expression (ih h)
  case cast =>
    intro typeSpec ih h
    exact nodeEffects_cast (ih h)
  case nil => exact fun _ => listEffects_nil
  case cons =>
    intro d l hd hl h
    rw [nodesOf, List.forall_mem_append] at h
    exact listEffects_cons (hd h.1) (hl h.2)

end

/-! ## The list of a text -/

/-- What one declaration of the list, or all of them, do to the scope of the context: entries for
numbers of the list, each once, and others.  `Q` says that there are no others. -/
structure Entered (own : Nat → Prop) (P : Nat → Prop) (s s' : Scopes) (Q : Prop) : Prop where
  top : s'.locals = []
  flag : s.hasExecContext = true → s'.hasExecContext = true
  entries : ∃ new, s'.entries = new ++ s.entries ∧ (∀ e ∈ new, own e.node ∨ P e.node) ∧
    (∀ n, ¬ P n → new.countP (·.node = n) ≤ 1) ∧
    ((∀ e ∈ new, own e.node) ∧ (s'.hasExecContext = true → s.hasExecContext = true) ↔ Q)

section

variable {P own : Nat → Prop} {s s' : Scopes} {Q : Prop} {x : Option (Scopes × Bool)} {ok : Bool}

theorem countP_eq_zero_of_all {new : List ScopeEntry} (h : ∀ e ∈ new, P e.node) {n : Nat}
    (hn : ¬ P n) : new.countP (·.node = n) = 0 := by
  rw [List.countP_eq_zero]
  intro e he heq
  exact hn (of_decide_eq_true heq ▸ h e he)

/-- `pre` is what was entered for the list before. -/
theorem entered_of_effect (s₁ : Scopes) (pre : List ScopeEntry)
    (hentries : s₁.entries = pre ++ s.entries) (hflag : s₁.hasExecContext = s.hasExecContext)
    (htop : s₁.locals = []) (hpre : ∀ e ∈ pre, own e.node) (hlength : pre.length ≤ 1)
    (hown : ∀ n, own n → ¬ P n) (h : Effect (Grows P) s₁ x Q) (hx : x = some (s', ok)) :
    Entered own P s s' Q := by
  obtain ⟨⟨⟨new, hnew, hP⟩, hflag', hlocals⟩, hback⟩ := h s' ok hx
  have htop' : s'.locals = [] := by
    rw [htop] at hlocals
    exact List.eq_nil_of_length_eq_zero hlocals
  have hsame : Grows P s' s₁ ↔
      new = [] ∧ (s'.hasExecContext = true → s₁.hasExecContext = true) := by
    constructor
    · rintro ⟨⟨back, hback', -⟩, hdown, -⟩
      have hcount := congrArg List.length (hback'.trans (congrArg (back ++ ·) hnew))
      simp only [List.length_append] at hcount
      exact ⟨List.eq_nil_of_length_eq_zero (by omega), hdown⟩
    · rintro ⟨rfl, hdown⟩
      exact ⟨⟨[], hnew.symm, by simp⟩, hdown, by rw [htop, htop']⟩
  have hall : (∀ e ∈ new ++ pre, own e.node) ↔ new = [] := by
    constructor
    · intro hnew'
      rw [List.eq_nil_iff_forall_not_mem]
      intro e he
      exact hown _ (hnew' e (List.mem_append_left pre he)) (hP e he)
    · rintro rfl
      exact hpre
  refine ⟨htop', fun hs => hflag' (hflag.trans hs), new ++ pre, ?_, fun e he => ?_,
    fun n hn => ?_, ?_⟩
  · rw [hnew, hentries, List.append_assoc]
  · exact (List.mem_append.1 he).symm.imp (hpre e) (hP e)
  · rw [List.countP_append, countP_eq_zero_of_all hP hn, Nat.zero_add]
    exact Nat.le_trans List.countP_le_length hlength
  · rw [hall, ← hback, hsame, hflag]

/-- A name is entered for the list, and then there is the rest. -/
theorem entered_of_addDecl (id : CString) {node : Nat} (htop : s.locals = []) (hnode : own node)
    (hown : ∀ n, own n → ¬ P n) (h : Effect (Grows P) (s.addDecl id node) x Q)
    (hx : x = some (s', ok)) : Entered own P s s' Q := by
  have hadd : s.addDecl id node = s.addToContext id node :=
    addDecl_of_not_inner (fun hinner => hinner htop) id node
  rw [hadd] at h
  refine entered_of_effect (s.addToContext id node) [⟨id, node⟩] rfl rfl htop (fun e he => ?_)
    (Nat.le_refl 1) hown h hx
  rw [List.mem_singleton.1 he]
  exact hnode

theorem entered_of_top (htop : s.locals = []) (hown : ∀ n, own n → ¬ P n)
    (h : Effect (Grows P) s x Q) (hx : x = some (s', ok)) : Entered own P s s' Q :=
  entered_of_effect s [] rfl rfl htop (by simp) (Nat.zero_le 1) hown h hx

end

section

variable {addressed : CString → Bool} {typed : Nat → Bool → Bool} {P own : Nat → Prop}
  {s s' : Scopes} {ok : Bool}

/-- The nodes inside of a node of the list. -/
def inside (d : DeclNode) : List Nat :=
  match d.number with
  | none => nodes d
  | some _ => (nodes d).tail

theorem entered_of_declaration {node : Nat} {id : CString} {typeSpec params : List DeclNode}
    {initValue : DeclNode} {isSubroutine : Bool} (htop : s.locals = []) (hnode : own node)
    (hown : ∀ n, own n → ¬ P n) (htype : ListEffects addressed typed P typeSpec)
    (hinit : NodeEffects addressed typed P initValue)
    (hparams : ListEffects addressed typed P params)
    (hx : semanticizeDecl addressed typed
      (.declaration node id typeSpec initValue isSubroutine params) s = some (s', ok)) :
    Entered own P s s' (QuietDecl addressed typed True
      (.declaration node id typeSpec initValue isSubroutine params) s) := by
  rw [semanticizeDecl, declared] at hx
  rw [QuietDecl, QuietDeclared]
  cases hresolve : s.resolveLocal id with
  | some n =>
    rw [hresolve] at hx
    exact entered_of_top htop hown ((effect_pure s _).congr
      (iff_of_true trivial fun h => absurd h (Option.some_ne_none n))) hx
  | none =>
    rw [hresolve] at hx
    dsimp only at hx
    have hinner : ¬ s.Inner := fun hinner => hinner htop
    cases haddressed : addressed id with
    | false =>
      rw [haddressed, if_pos ⟨htop, rfl⟩] at hx
      exact entered_of_addDecl id htop hnode hown ((effect_pure _ _).congr
        (iff_of_true trivial (by simp [hinner]))) hx
    | true =>
      rw [haddressed, if_neg (by simp)] at hx
      simp only [true_or, or_true, true_and, forall_const]
      refine entered_of_addDecl id htop hnode hown ?_ hx
      split
      · exact effect_pure _ false
      · exact effect_andThen (htype.reduced _)
          fun s₂ => effect_finished hinit.expr (hparams.decls true) s₂

/-- Enumerators are entered in front of the type that they are of. -/
theorem entered_of_enumerators {e : Enumerator} {es : List Enumerator} {id : CString} {node : Nat}
    (htop : s.locals = []) (hnode : own node) (hown : ∀ n, own n → ¬ P n)
    (henums : ∀ e' ∈ e :: es, P e'.node) (hconstant : e.constant = true) :
    Entered own P s (semanticizeEnumTypeNode node id (e :: es) s).1 False := by
  have hlength := enumerators_length es s hconstant
  obtain ⟨⟨new, hnew, hP⟩, hflag, hlocals⟩ := grows_enumerators henums s
  have htop' : (semanticizeEnumerators (e :: es) s).1.locals = [] := by
    rw [htop] at hlocals
    exact List.eq_nil_of_length_eq_zero hlocals
  have hne : ∃ e' ∈ new, ¬ own e'.node := by
    cases new with
    | nil =>
      rw [hnew] at hlength
      exact absurd hlength (Nat.lt_irrefl _)
    | cons e' new => exact ⟨e', List.mem_cons_self, fun h => hown _ h (hP e' List.mem_cons_self)⟩
  obtain ⟨e', he', hnot⟩ := hne
  rw [semanticizeEnumTypeNode]
  split
  · rw [addDecl_of_not_inner fun hinner => hinner htop']
    refine ⟨htop', hflag, ⟨id, node⟩ :: new, ?_, fun e'' he'' => ?_, fun n hn => ?_, ?_⟩
    · rw [Scopes.addToContext, hnew]
      rfl
    · rcases List.mem_cons.1 he'' with rfl | he''
      · exact .inl hnode
      · exact .inr (hP e'' he'')
    · rw [List.countP_cons, countP_eq_zero_of_all hP hn]
      split <;> simp
    · exact iff_of_false (fun h => hnot (h.1 e' (List.mem_cons_of_mem _ he'))) not_false
  · refine ⟨htop', hflag, new, hnew, fun e'' he'' => .inr (hP e'' he''), fun n hn => ?_, ?_⟩
    · rw [countP_eq_zero_of_all hP hn]
      exact Nat.zero_le 1
    · exact iff_of_false (fun h => hnot (h.1 e' he')) not_false

theorem entered_of_enum {node : Nat} {id : CString} {enums : List Enumerator}
    (htop : s.locals = []) (hnode : own node) (hown : ∀ n, own n → ¬ P n)
    (henums : ∀ e ∈ enums, P e.node)
    (hx : semanticizeDecl addressed typed (.enumTypeDecl node id enums) s = some (s', ok)) :
    Entered own P s s' (QuietDecl addressed typed True (.enumTypeDecl node id enums) s) := by
  cases enums with
  | nil =>
    exact entered_of_addDecl id htop hnode hown
      ((effect_pure _ true).congr (iff_of_true trivial (.inl trivial))) hx
  | cons e es =>
    obtain rfl : (semanticizeEnumTypeNode node id (e :: es) s).1 = s' :=
      congrArg Prod.fst (Option.some.inj hx)
    cases hconstant : e.constant with
    | false =>
      rw [enumTypeNode_of_not_constant es s hconstant]
      exact entered_of_top htop hown
        ((effect_pure s false).congr (iff_of_true trivial hconstant)) rfl
    | true =>
      have hnot : QuietDecl addressed typed True (.enumTypeDecl node id (e :: es)) s ↔ False :=
        iff_of_false (fun h => Bool.false_ne_true (h.symm.trans hconstant)) not_false
      rw [hnot]
      exact entered_of_enumerators htop hnode hown henums hconstant

/-- One declaration of the list. -/
theorem entered_of_decl {d : DeclNode} (htop : s.locals = [])
    (hnode : ∀ n, d.number = some n → own n) (hown : ∀ n, own n → ¬ P n)
    (hinside : ∀ n ∈ inside d, P n)
    (hx : semanticizeDecl addressed typed d s = some (s', ok)) :
    Entered own P s s' (QuietDecl addressed typed True d s) := by
  have hnodes : ∀ d : DeclNode, (∀ n ∈ nodes d, P n) → NodeEffects addressed typed P d :=
    nodeEffects.1
  have hlists : ∀ l : List DeclNode, (∀ n ∈ nodesOf l, P n) → ListEffects addressed typed P l :=
    nodeEffects.2
  cases d with
  | declaration node id typeSpec initValue isSubroutine params =>
    change ∀ n ∈ nodesOf typeSpec ++ nodes initValue ++ nodesOf params, P n at hinside
    rw [List.forall_mem_append, List.forall_mem_append] at hinside
    exact entered_of_declaration htop (hnode node rfl) hown (hlists _ hinside.1.1)
      (hnodes _ hinside.1.2) (hlists _ hinside.2) hx
  | structTypeDecl node id fields =>
    exact entered_of_addDecl id htop (hnode node rfl) hown
      (((hlists fields hinside).fields true _).congr (and_iff_right (.inl trivial)).symm) hx
  | enumTypeDecl node id enums =>
    exact entered_of_enum htop (hnode node rfl) hown
      (fun e he => hinside _ (List.mem_map_of_mem he)) hx
  | arrayTypeDecl node typeSpec sizeExpr elementRef =>
    change ∀ n ∈ nodesOf typeSpec ++ nodes sizeExpr ++ nodes elementRef, P n at hinside
    rw [List.forall_mem_append, List.forall_mem_append] at hinside
    exact entered_of_top htop hown ((nodeEffects_array node (hlists _ hinside.1.1)
      (hnodes _ hinside.1.2) (hnodes _ hinside.2)).decl s) hx
  | referenceTypeDecl node name =>
    cases name with
    | none =>
      exact entered_of_top htop hown
        ((effect_pure s true).congr (iff_of_true trivial fun h => absurd rfl h)) hx
    | some id =>
      exact entered_of_addDecl id htop (hnode node rfl) hown
        ((effect_pure _ true).congr (iff_of_true trivial fun _ => .inl trivial)) hx
  | constant => exact entered_of_top htop hown (effect_pure s true) hx
  | _ => exact entered_of_top htop hown (effect_pure s false) hx

/-- The numbers of the nodes of a list. -/
def numbers (decls : List DeclNode) : List Nat := decls.filterMap DeclNode.number

theorem mem_numbers_cons {d : DeclNode} {decls : List DeclNode} {n : Nat} :
    n ∈ numbers (d :: decls) ↔ d.number = some n ∨ n ∈ numbers decls := by
  rw [numbers, numbers, List.filterMap_cons]
  cases d.number <;> simp [eq_comm]

theorem countP_eq_zero_of_none {new : List ScopeEntry}
    (h : ∀ e ∈ new, own e.node ∨ P e.node) {n : Nat} (hn : ¬ P n) (hn' : ¬ own n) :
    new.countP (·.node = n) = 0 := by
  rw [List.countP_eq_zero]
  intro e he heq
  obtain rfl : e.node = n := of_decide_eq_true heq
  exact (h e he).elim hn' hn

theorem Entered.trans {own₁ own₂ : Nat → Prop} {s₁ s₂ : Scopes} {Q₁ Q₂ : Prop}
    (h₁ : Entered own₁ P s s₁ Q₁) (h₂ : Entered own₂ P s₁ s₂ Q₂) (hown₁ : ∀ n, own₁ n → ¬ P n)
    (hown₂ : ∀ n, own₂ n → ¬ P n) (hdisjoint : ∀ n, own₁ n → ¬ own₂ n) :
    Entered (fun n => own₁ n ∨ own₂ n) P s s₂ (Q₁ ∧ Q₂) := by
  obtain ⟨htop₁, hflag₁, new₁, hnew₁, hall₁, hcount₁, hiff₁⟩ := h₁
  obtain ⟨htop₂, hflag₂, new₂, hnew₂, hall₂, hcount₂, hiff₂⟩ := h₂
  refine ⟨htop₂, fun h => hflag₂ (hflag₁ h), new₂ ++ new₁, ?_, fun e he => ?_, fun n hn => ?_, ?_⟩
  · rw [hnew₂, hnew₁, List.append_assoc]
  · rcases List.mem_append.1 he with he | he
    · exact (hall₂ e he).imp .inr fun h => h
    · exact (hall₁ e he).imp .inl fun h => h
  · rw [List.countP_append]
    by_cases hn₁ : own₁ n
    · rw [countP_eq_zero_of_none hall₂ hn (hdisjoint n hn₁), Nat.zero_add]
      exact hcount₁ n hn
    · rw [countP_eq_zero_of_none hall₁ hn hn₁, Nat.add_zero]
      exact hcount₂ n hn
  · rw [← hiff₁, ← hiff₂]
    constructor
    · rintro ⟨hall, hdown⟩
      refine ⟨⟨fun e he => ?_, fun h => hdown (hflag₂ h)⟩, fun e he => ?_,
        fun h => hflag₁ (hdown h)⟩
      · refine (hall₁ e he).resolve_right fun hP => ?_
        exact (hall e (List.mem_append_right new₂ he)).elim (fun h => hown₁ _ h hP)
          fun h => hown₂ _ h hP
      · refine (hall₂ e he).resolve_right fun hP => ?_
        exact (hall e (List.mem_append_left new₁ he)).elim (fun h => hown₁ _ h hP)
          fun h => hown₂ _ h hP
    · rintro ⟨⟨hall, hdown⟩, hall', hdown'⟩
      refine ⟨fun e he => ?_, fun h => hdown (hdown' h)⟩
      rcases List.mem_append.1 he with he | he
      · exact .inr (hall' e he)
      · exact .inl (hall e he)

/-- The declarations of the list, one after the other. -/
theorem entered_of_list {decls : List DeclNode} {ret : Bool} (htop : s.locals = [])
    (hnodup : (numbers decls).Nodup) (hnumbers : ∀ n ∈ numbers decls, ¬ P n)
    (hinside : ∀ d ∈ decls, ∀ n ∈ inside d, P n)
    (hx : semanticizeDeclsList addressed typed ret decls s = some (s', ok)) :
    Entered (· ∈ numbers decls) P s s' (QuietDeclsList addressed typed True ret decls s) := by
  induction decls generalizing ret s with
  | nil => exact entered_of_top htop hnumbers (effect_pure s ret) hx
  | cons d decls ih =>
    obtain ⟨⟨s₁, ok₁⟩, hd, hrest⟩ := Option.bind_eq_some_iff.1 hx
    have hnodup' : (numbers decls).Nodup ∧ ∀ n, d.number = some n → n ∉ numbers decls := by
      rw [numbers, List.filterMap_cons] at hnodup
      cases hnumber : d.number with
      | none =>
        rw [hnumber] at hnodup
        exact ⟨hnodup, by simp⟩
      | some m =>
        rw [hnumber] at hnodup
        refine ⟨(List.nodup_cons.1 hnodup).2, fun n hn => ?_⟩
        obtain rfl := Option.some.inj hn
        exact (List.nodup_cons.1 hnodup).1
    have hfirst : Entered (d.number = some ·) P s s₁ (QuietDecl addressed typed True d s) :=
      entered_of_decl htop (fun n hn => hn) (fun n hn => hnumbers n (mem_numbers_cons.2 (.inl hn)))
        (hinside d List.mem_cons_self) hd
    have hsecond := ih hfirst.top hnodup'.1 (fun n hn => hnumbers n (mem_numbers_cons.2 (.inr hn)))
      (fun d' hd' => hinside d' (List.mem_cons_of_mem d hd')) hrest
    have hboth := hfirst.trans hsecond (fun n hn => hnumbers n (mem_numbers_cons.2 (.inl hn)))
      (fun n hn => hnumbers n (mem_numbers_cons.2 (.inr hn))) hnodup'.2
    have hown : (fun n => d.number = some n ∨ n ∈ numbers decls) = (· ∈ numbers (d :: decls)) :=
      funext fun n => propext mem_numbers_cons.symm
    rw [hown] at hboth
    have hquiet : QuietDeclsList addressed typed True ret (d :: decls) s ↔
        QuietDecl addressed typed True d s ∧
          QuietDeclsList addressed typed True (ret && ok₁) decls s₁ := by
      refine and_congr_right fun _ => ⟨fun h => h s₁ ok₁ hd, fun h s₂ ok₂ hd' => ?_⟩
      obtain ⟨rfl, rfl⟩ := Prod.mk.inj (Option.some.inj (hd.symm.trans hd'))
      exact h
    rw [hquiet]
    exact hboth

end

/-! ## Taking the entries away -/

theorem eraseP_append {α : Type} {p : α → Bool} {new old : List α} (hnew : new.countP p ≤ 1)
    (hold : ∀ a ∈ old, p a = false) :
    (new ++ old).eraseP p = new.filter (!p ·) ++ old := by
  induction new with
  | nil =>
    rw [List.nil_append, List.eraseP_of_forall_not fun a ha => by simp [hold a ha]]
    rfl
  | cons a new ih =>
    rw [List.countP_cons] at hnew
    cases hp : p a with
    | true =>
      rw [hp] at hnew
      have hzero : new.countP p = 0 := Nat.le_zero.1 (Nat.le_of_succ_le_succ hnew)
      have hrest : new.filter (!p ·) = new := by
        rw [List.filter_eq_self]
        intro b hb
        simp [List.countP_eq_zero.1 hzero b hb]
      rw [List.cons_append, List.eraseP_cons_of_pos hp, List.filter_cons_of_neg (by simp [hp]),
        hrest]
    | false =>
      rw [hp] at hnew
      rw [List.cons_append, List.eraseP_cons_of_neg (by simp [hp]),
        List.filter_cons_of_pos (by simp [hp]), List.cons_append, ih hnew]

/-- What is left is what was not entered for the list. -/
theorem removeDecls_append {decls : List DeclNode} {new old : List ScopeEntry}
    (hnew : ∀ n ∈ numbers decls, new.countP (·.node = n) ≤ 1)
    (hold : ∀ e ∈ old, e.node ∉ numbers decls) :
    removeDecls decls (new ++ old) = new.filter (·.node ∉ numbers decls) ++ old := by
  induction decls generalizing new with
  | nil => simp [removeDecls, numbers]
  | cons d decls ih =>
    have hfirst : new.countP (fun e => d.number = some e.node) ≤ 1 := by
      cases hnumber : d.number with
      | none => simp
      | some n =>
        refine Nat.le_trans (Nat.le_of_eq ?_) (hnew n (mem_numbers_cons.2 (.inl hnumber)))
        exact List.countP_congr fun e _ => by simp [eq_comm]
    have hold' : ∀ e ∈ old, decide (d.number = some e.node) = false := fun e he =>
      decide_eq_false fun h => hold e he (mem_numbers_cons.2 (.inl h))
    rw [removeDecls, List.foldl_cons, eraseP_append hfirst hold']
    rw [← removeDecls, ih (fun n hn => ?_) fun e he h => hold e he (mem_numbers_cons.2 (.inr h))]
    · rw [List.filter_filter]
      congr 1
      refine List.filter_congr fun e _ => ?_
      simp [mem_numbers_cons, and_comm]
    · exact Nat.le_trans (List.Sublist.countP_le List.filter_sublist)
        (hnew n (mem_numbers_cons.2 (.inr hn)))

/-! ## The context -/

/-- The nodes that the parser makes are new, and each is made once. -/
def Allocated (entries : List ScopeEntry) (text : ParsedText) : Prop :=
  ∀ decls ∈ text.decls, (nodesOf decls).Nodup ∧ ∀ e ∈ entries, e.node ∉ nodesOf decls

/-- That holds of a text and the headers that it includes. -/
def AllocatedText (typed : Nat → Bool → Bool) : List Header → ParsedText → ParseContext → Prop
  | [], text, ctx => Allocated ctx.entries text
  | header :: includes, text, ctx =>
    Allocated ctx.entries header.text ∧
      ∀ ctx', ctx.processInclude typed header = some ctx' → AllocatedText typed includes text ctx'

structure Unchanged (ctx ctx' : ParseContext) : Prop where
  decls : ctx'.decls = ctx.decls
  entries : ctx'.entries = ctx.entries
  definedTypes : ctx'.definedTypes = ctx.definedTypes
  hasExecContext : ctx'.hasExecContext = ctx.hasExecContext
  allocGlobals : ctx'.allocGlobals = ctx.allocGlobals

/-- What calls do to a context apart from its declarations. -/
structure Extends (ctx ctx' : ParseContext) : Prop where
  entries : ctx.entries <:+ ctx'.entries
  definedTypes : ctx.definedTypes <+: ctx'.definedTypes
  hasExecContext : ctx.hasExecContext = true → ctx'.hasExecContext = true
  allocGlobals : ctx'.allocGlobals = ctx.allocGlobals

theorem Extends.refl (ctx : ParseContext) : Extends ctx ctx :=
  ⟨List.suffix_refl _, List.prefix_refl _, fun h => h, rfl⟩

theorem Extends.trans {ctx ctx₁ ctx₂ : ParseContext} (h : Extends ctx ctx₁)
    (h₁ : Extends ctx₁ ctx₂) : Extends ctx ctx₂ :=
  ⟨h.entries.trans h₁.entries, h.definedTypes.trans h₁.definedTypes,
    fun hflag => h₁.hasExecContext (h.hasExecContext hflag),
    h₁.allocGlobals.trans h.allocGlobals⟩

theorem nodes_eq (d : DeclNode) : nodes d = d.number.toList ++ inside d := by
  cases d <;> rfl

theorem numbers_sublist (decls : List DeclNode) : (numbers decls).Sublist (nodesOf decls) := by
  induction decls with
  | nil => exact List.nil_sublist _
  | cons d decls ih =>
    rw [nodesOf, nodes_eq, numbers, List.filterMap_cons]
    cases d.number with
    | none => exact ih.trans (List.sublist_append_right _ _)
    | some n => exact (ih.trans (List.sublist_append_right _ _)).cons_cons n

theorem mem_nodesOf {decls : List DeclNode} {d : DeclNode} {n : Nat} (hd : d ∈ decls)
    (hn : n ∈ inside d) : n ∈ nodesOf decls := by
  induction decls with
  | nil => exact absurd hd List.not_mem_nil
  | cons d' decls ih =>
    rw [nodesOf, List.mem_append]
    rcases List.mem_cons.1 hd with rfl | hd
    · rw [nodes_eq]
      exact .inl (List.mem_append_right _ hn)
    · exact .inr (ih hd)

theorem inside_not_mem_numbers {decls : List DeclNode} (h : (nodesOf decls).Nodup) :
    ∀ d ∈ decls, ∀ n ∈ inside d, n ∉ numbers decls := by
  induction decls with
  | nil => exact fun d hd => absurd hd List.not_mem_nil
  | cons d decls ih =>
    rw [nodesOf, List.nodup_append] at h
    obtain ⟨hhead, htail, hdisjoint⟩ := h
    intro d' hd' n hn hmem
    rcases List.mem_cons.1 hd' with rfl | hd'
    · have hn' : n ∈ nodes d' := by
        rw [nodes_eq]
        exact List.mem_append_right _ hn
      rcases mem_numbers_cons.1 hmem with hnumber | hmem
      · rw [nodes_eq, hnumber] at hhead
        exact (List.nodup_cons.1 hhead).1 hn
      · exact hdisjoint n hn' n ((numbers_sublist decls).subset hmem) rfl
    · rcases mem_numbers_cons.1 hmem with hnumber | hmem
      · refine hdisjoint n ?_ n (mem_nodesOf hd' hn) rfl
        rw [nodes_eq, hnumber]
        exact List.mem_cons_self
      · exact ih htail d' hd' n hn hmem

theorem entered_of_decls {typed : Nat → Bool → Bool} {ctx : ParseContext}
    {decls : List DeclNode} (hnodup : (nodesOf decls).Nodup) {s : Scopes} {ok : Bool}
    (hx : semanticizeDeclsList ctx.addressed typed true decls ctx.scopes = some (s, ok)) :
    Entered (· ∈ numbers decls) (· ∉ numbers decls) ctx.scopes s
      (QuietDeclsList ctx.addressed typed True true decls ctx.scopes) :=
  entered_of_list rfl ((numbers_sublist decls).nodup hnodup) (fun _ hn h => h hn)
    (inside_not_mem_numbers hnodup) hx

theorem addDecls_extends {typed : Nat → Bool → Bool} {ctx ctx' : ParseContext}
    {decls : List DeclNode} {ok : Bool} (hnodup : (nodesOf decls).Nodup)
    (hnew : ∀ e ∈ ctx.entries, e.node ∉ nodesOf decls)
    (hx : ctx.addDecls typed decls = some (ctx', ok)) : Extends ctx ctx' := by
  obtain ⟨⟨s, ok'⟩, hs, hx⟩ := Option.bind_eq_some_iff.1 hx
  obtain ⟨-, hflag, new, hentries, -, hcount, -⟩ := entered_of_decls hnodup hs
  cases ok' with
  | true =>
    obtain ⟨rfl, -⟩ := Prod.mk.inj (Option.some.inj hx)
    exact ⟨⟨new, hentries.symm⟩, List.prefix_refl _, hflag, rfl⟩
  | false =>
    obtain ⟨rfl, -⟩ := Prod.mk.inj (Option.some.inj hx)
    refine ⟨?_, List.prefix_refl _, hflag, rfl⟩
    show ctx.entries <:+ removeDecls decls s.entries
    have hremove := removeDecls_append (fun n hn => hcount n fun h => h hn)
      fun e he h => hnew e he ((numbers_sublist decls).subset h)
    rw [hentries]
    exact ⟨_, hremove.symm⟩

/-- The declarations of a text are undone just when the analysis is quiet. -/
theorem addDecls_failed {typed : Nat → Bool → Bool} (ctx : ParseContext) {ctx' : ParseContext}
    {decls : List DeclNode} (hnodup : (nodesOf decls).Nodup)
    (hnew : ∀ e ∈ ctx.entries, e.node ∉ nodesOf decls)
    (hx : ctx.addDecls typed decls = some (ctx', false)) :
    ctx'.decls = [] ∧ ctx'.definedTypes = ctx.definedTypes ∧
      (ctx'.entries = ctx.entries ∧ ctx'.hasExecContext = ctx.hasExecContext ↔
        QuietDeclsList ctx.addressed typed True true decls ctx.scopes) := by
  obtain ⟨⟨s, ok'⟩, hs, hx⟩ := Option.bind_eq_some_iff.1 hx
  obtain ⟨-, hflag, new, hentries, -, hcount, hiff⟩ := entered_of_decls hnodup hs
  cases ok' with
  | true => cases (Prod.mk.inj (Option.some.inj hx)).2
  | false =>
    obtain ⟨rfl, -⟩ := Prod.mk.inj (Option.some.inj hx)
    refine ⟨rfl, rfl, ?_⟩
    rw [← hiff]
    show removeDecls decls s.entries = ctx.entries ∧ s.hasExecContext = ctx.hasExecContext ↔ _
    have hremove := removeDecls_append (fun n hn => hcount n fun h => h hn)
      fun e he h => hnew e he ((numbers_sublist decls).subset h)
    rw [hentries]
    refine and_congr ?_ ?_
    · refine (congrArg (· = ctx.entries) hremove).to_iff.trans ?_
      simp
    · rw [Bool.eq_iff_iff]
      exact ⟨Iff.mp, fun h => ⟨h, hflag⟩⟩

section

variable {typed : Nat → Bool → Bool} {ctx ctx₁ ctx' : ParseContext} {text : ParsedText}
  {includes : List Header}

theorem parseText_extends {ok : Bool} (hnew : Allocated ctx.entries text)
    (hx : ctx.parseText typed text = some (ctx', ok)) : Extends ctx ctx' := by
  have htypes : Extends ctx { ctx with definedTypes := ctx.definedTypes ++ text.definedTypes } :=
    ⟨List.suffix_refl _, List.prefix_append _ _, fun h => h, rfl⟩
  rw [ParseContext.parseText] at hx
  cases hdecls : text.decls with
  | none =>
    rw [hdecls] at hx
    obtain ⟨rfl, -⟩ := Prod.mk.inj (Option.some.inj hx)
    exact htypes
  | some decls =>
    rw [hdecls] at hx
    obtain ⟨hnodup, hentries⟩ := hnew decls hdecls
    exact htypes.trans (addDecls_extends hnodup hentries hx)

/-- Headers extend the context that a text is read in. -/
theorem includes_extend (hnew : AllocatedText typed includes text ctx)
    (hx : includes.foldlM (ParseContext.processInclude typed) ctx = some ctx₁) :
    Extends ctx ctx₁ ∧ Allocated ctx₁.entries text := by
  induction includes generalizing ctx with
  | nil =>
    obtain rfl := Option.some.inj hx
    exact ⟨.refl ctx, hnew⟩
  | cons header includes ih =>
    rw [List.foldlM_cons] at hx
    obtain ⟨ctx₂, hheader, hrest⟩ := Option.bind_eq_some_iff.1 hx
    obtain ⟨hextends, hallocated⟩ := ih (hnew.2 ctx₂ hheader) hrest
    obtain ⟨x, hparse, rfl⟩ := Option.map_eq_some_iff.1 hheader
    have hexterns : Extends ctx { ctx with externs := header.externs ++ ctx.externs } :=
      ⟨List.suffix_refl _, List.prefix_refl _, fun h => h, rfl⟩
    have hfirst : Extends ctx x.1 :=
      hexterns.trans (parseText_extends hnew.1 hparse)
    exact ⟨hfirst.trans hextends, hallocated⟩

/-- The context before a text is as it was, and the text leaves it so: it records no type names,
and where it can be parsed there were no declarations before and its own enter no other names than
those of the list. -/
structure Harmless (typed : Nat → Bool → Bool) (ctx ctx₁ : ParseContext) (text : ParsedText) :
    Prop where
  entries : ctx₁.entries = ctx.entries
  definedTypes : ctx₁.definedTypes = ctx.definedTypes
  hasExecContext : ctx₁.hasExecContext = ctx.hasExecContext
  noTypes : text.definedTypes = []
  unparsed : text.decls = none → ctx₁.decls = ctx.decls
  parsed : ∀ decls ∈ text.decls, ctx.decls = [] ∧
    QuietDeclsList ctx₁.addressed typed True true decls ctx₁.scopes

theorem entries_eq_iff (h : Extends ctx ctx₁) (h₁ : Extends ctx₁ ctx') :
    ctx'.entries = ctx.entries ↔ ctx₁.entries = ctx.entries ∧ ctx'.entries = ctx₁.entries := by
  constructor
  · intro heq
    have hle := h.entries.length_le
    have hle' := h₁.entries.length_le
    have hlength := congrArg List.length heq
    have hfirst := h.entries.eq_of_length (by omega)
    exact ⟨hfirst.symm, heq.trans hfirst⟩
  · rintro ⟨hfirst, hsecond⟩
    exact hsecond.trans hfirst

theorem hasExecContext_eq_iff (h : Extends ctx ctx₁) (h₁ : Extends ctx₁ ctx') :
    ctx'.hasExecContext = ctx.hasExecContext ↔
      ctx₁.hasExecContext = ctx.hasExecContext ∧ ctx'.hasExecContext = ctx₁.hasExecContext := by
  have hup := h.hasExecContext
  have hup₁ := h₁.hasExecContext
  revert hup hup₁
  generalize ctx.hasExecContext = flag
  generalize ctx₁.hasExecContext = flag₁
  generalize ctx'.hasExecContext = flag'
  revert flag flag₁ flag'
  decide

theorem definedTypes_eq_iff (h : Extends ctx ctx₁) (types : List CString) :
    ctx₁.definedTypes ++ types = ctx.definedTypes ↔
      ctx₁.definedTypes = ctx.definedTypes ∧ types = [] := by
  constructor
  · intro heq
    have hle := h.definedTypes.length_le
    have hlength := congrArg List.length heq
    rw [List.length_append] at hlength
    have hnil : types = [] := List.eq_nil_of_length_eq_zero (by omega)
    rw [hnil, List.append_nil] at heq
    exact ⟨heq, hnil⟩
  · rintro ⟨heq, rfl⟩
    rw [List.append_nil, heq]

theorem parseText_unchanged_iff (hextends : Extends ctx ctx₁)
    (hnew : Allocated ctx₁.entries text)
    (hx : ctx₁.parseText typed text = some (ctx', false)) :
    Unchanged ctx ctx' ↔ Harmless typed ctx ctx₁ text := by
  have hafter := parseText_extends hnew hx
  have hglobals : ctx'.allocGlobals = ctx.allocGlobals :=
    hafter.allocGlobals.trans hextends.allocGlobals
  have htypes := definedTypes_eq_iff hextends text.definedTypes
  rw [ParseContext.parseText] at hx
  cases hdecls : text.decls with
  | none =>
    rw [hdecls] at hx
    obtain ⟨rfl, -⟩ := Prod.mk.inj (Option.some.inj hx)
    constructor
    · rintro ⟨hlist, hentries, hdefined, hflag, -⟩
      obtain ⟨hdefined, hnone⟩ := htypes.1 hdefined
      exact ⟨hentries, hdefined, hflag, hnone, fun _ => hlist,
        fun decls h => by rw [hdecls] at h; cases h⟩
    · rintro ⟨hentries, hdefined, hflag, hnone, hlist, -⟩
      exact ⟨hlist hdecls, hentries, htypes.2 ⟨hdefined, hnone⟩, hflag, hglobals⟩
  | some decls =>
    rw [hdecls] at hx
    obtain ⟨hnodup, hfresh⟩ := hnew decls hdecls
    obtain ⟨hempty, hdefined', hquiet⟩ := addDecls_failed
      { ctx₁ with definedTypes := ctx₁.definedTypes ++ text.definedTypes } hnodup hfresh hx
    constructor
    · rintro ⟨hlist, hentries, hdefined, hflag, -⟩
      obtain ⟨hdefined, hnone⟩ := htypes.1 (hdefined'.symm.trans hdefined)
      obtain ⟨hentries₁, hentries₂⟩ := (entries_eq_iff hextends hafter).1 hentries
      obtain ⟨hflag₁, hflag₂⟩ := (hasExecContext_eq_iff hextends hafter).1 hflag
      refine ⟨hentries₁, hdefined, hflag₁, hnone, fun h => ?_, fun decls' h => ?_⟩
      · rw [hdecls] at h
        cases h
      · obtain rfl := Option.some.inj (hdecls.symm.trans h)
        exact ⟨hlist.symm.trans hempty, hquiet.1 ⟨hentries₂, hflag₂⟩⟩
    · rintro ⟨hentries, hdefined, hflag, hnone, -, hparsed⟩
      obtain ⟨hlist, hquiet'⟩ := hparsed decls hdecls
      obtain ⟨hentries₂, hflag₂⟩ := hquiet.2 hquiet'
      exact ⟨hempty.trans hlist.symm, hentries₂.trans hentries,
        hdefined'.trans (htypes.2 ⟨hdefined, hnone⟩), hflag₂.trans hflag, hglobals⟩

end

/-! ## Calls -/

namespace ParseContext

/-- The context in which a text is read. -/
def entering (globals : Bool) (ctx : ParseContext) : ParseContext :=
  if globals then { ctx with allocGlobals := true } else ctx

/-- A call of `cod_parse_for_globals`, or of `cod_parse_for_context`. -/
def parse (typed : Nat → Bool → Bool) (globals : Bool) (ctx : ParseContext) (text : Text) :
    Option (ParseContext × Bool) :=
  if globals then ctx.codParseForGlobals typed text else ctx.codParseForContext typed text

end ParseContext

theorem codParseForContext_unchanged_iff {typed : Nat → Bool → Bool} {ctx ctx' : ParseContext}
    {text : Text} (hnew : AllocatedText typed text.includes text.parsed ctx)
    (hx : ctx.codParseForContext typed text = some (ctx', false)) :
    Unchanged ctx ctx' ↔
      ∃ ctx₁, text.includes.foldlM (ParseContext.processInclude typed) ctx = some ctx₁ ∧
        Harmless typed ctx ctx₁ text.parsed := by
  obtain ⟨ctx₁, hincludes, hx⟩ := Option.bind_eq_some_iff.1 hx
  obtain ⟨hextends, hallocated⟩ := includes_extend hnew hincludes
  cases hwhite : text.allWhitespace with
  | true =>
    rw [hwhite] at hx
    cases (Prod.mk.inj (Option.some.inj hx)).2
  | false =>
    rw [hwhite] at hx
    rw [parseText_unchanged_iff hextends hallocated hx]
    constructor
    · intro h
      exact ⟨ctx₁, hincludes, h⟩
    · rintro ⟨ctx₂, hincludes', h⟩
      obtain rfl := Option.some.inj (hincludes.symm.trans hincludes')
      exact h

theorem codParseForContext_allocGlobals {typed : Nat → Bool → Bool} {ctx ctx' : ParseContext}
    {text : Text} {ok : Bool} (hnew : AllocatedText typed text.includes text.parsed ctx)
    (hx : ctx.codParseForContext typed text = some (ctx', ok)) :
    ctx'.allocGlobals = ctx.allocGlobals := by
  obtain ⟨ctx₁, hincludes, hx⟩ := Option.bind_eq_some_iff.1 hx
  obtain ⟨hextends, hallocated⟩ := includes_extend hnew hincludes
  cases hwhite : text.allWhitespace with
  | true =>
    rw [hwhite] at hx
    obtain ⟨rfl, -⟩ := Prod.mk.inj (Option.some.inj hx)
    exact hextends.allocGlobals
  | false =>
    rw [hwhite] at hx
    exact (parseText_extends hallocated hx).allocGlobals.trans hextends.allocGlobals

/-- A rejected text leaves the context as it was just when nothing of it was entered that is not
in its list, no name of a type was recorded, and the context had no declarations. -/
theorem failed_declarations {typed : Nat → Bool → Bool} (globals : Bool) {ctx ctx' : ParseContext}
    {text : Text}
    (hnew : AllocatedText typed text.includes text.parsed (ctx.entering globals))
    (hx : ctx.parse typed globals text = some (ctx', false)) :
    Unchanged ctx ctx' ↔ (globals = true → ctx.allocGlobals = false) ∧
      ∃ ctx₁, text.includes.foldlM (ParseContext.processInclude typed) (ctx.entering globals) =
          some ctx₁ ∧
        Harmless typed ctx ctx₁ text.parsed := by
  cases globals with
  | false =>
    rw [and_iff_right fun h => absurd h Bool.false_ne_true]
    exact codParseForContext_unchanged_iff hnew hx
  | true =>
    obtain ⟨⟨ctx₂, ok⟩, hparse, heq⟩ := Option.map_eq_some_iff.1 hx
    obtain ⟨rfl, rfl⟩ := Prod.mk.inj heq
    have hiff := codParseForContext_unchanged_iff hnew hparse
    have hglobals := codParseForContext_allocGlobals hnew hparse
    have hharmless : ∀ ctx₁, Harmless typed { ctx with allocGlobals := true } ctx₁ text.parsed ↔
        Harmless typed ctx ctx₁ text.parsed := fun ctx₁ =>
      ⟨fun h => ⟨h.1, h.2, h.3, h.4, h.5, h.6⟩, fun h => ⟨h.1, h.2, h.3, h.4, h.5, h.6⟩⟩
    have hiff' := hiff.trans (exists_congr fun ctx₁ => and_congr_right fun _ => hharmless ctx₁)
    constructor
    · intro h
      exact ⟨fun _ => h.allocGlobals.symm,
        hiff'.1 ⟨h.decls, h.entries, h.definedTypes, h.hasExecContext, hglobals⟩⟩
    · rintro ⟨hfalse, hctx₁⟩
      have h := hiff'.2 hctx₁
      exact ⟨h.decls, h.entries, h.definedTypes, h.hasExecContext, (hfalse rfl).symm⟩

/-! ## Three texts -/

/-- `int x;`, where `x` has no address. -/
def withoutAddress : Text where
  includes := []
  allWhitespace := false
  parsed :=
    { definedTypes := [],
      decls := some
        [.declaration 1 (cstr ['x'] (.refl false)) [.typeSpecifier .int] .null false []] }

/-- The context behind `int f();` -/
def contextOfF : ParseContext :=
  ⟨[.declaration 0 (cstr ['f'] (.refl false)) [.typeSpecifier .int] .null true []],
    [⟨cstr ['f'] (.refl false), 0⟩], [cstr ['f'] (.refl false)], [], false, false⟩

/-- The declarations that were there are dropped with those that are rejected. -/
theorem contextOfF_changed : ∃ ctx',
    contextOfF.parse (fun _ typed => typed) false withoutAddress = some (ctx', false) ∧
      ¬ Unchanged contextOfF ctx' := by
  refine ⟨{ contextOfF with decls := [] }, rfl, fun h => ?_⟩
  exact absurd h.decls (List.cons_ne_nil _ _).symm

/-- `t x = (long short)1 + (t)2;` -/
def castOfTwoSizes : Text where
  includes := []
  allWhitespace := false
  parsed :=
    { definedTypes := [],
      decls := some
        [.declaration 1 (cstr ['x'] (.refl false)) [.identifier (cstr ['t'] (.refl false))]
          (.expression false
            [.expression false [.constant, .cast [.typeSpecifier .long, .typeSpecifier .short]]
              .first true,
            .expression false [.constant, .cast [.identifier (cstr ['t'] (.refl false))]]
              .first true]
            .every true)
          false []] }

/-- A context with a struct type `t` and an address of `x`. -/
def contextOfT : ParseContext :=
  ⟨[], [⟨cstr ['t'] (.refl false), 0⟩], [cstr ['x'] (.refl false)], [cstr ['t'] (.refl false)],
    false, false⟩

theorem failed_declarations_castOfTwoSizes :
    Unchanged contextOfT contextOfT ↔ (true = true → contextOfT.allocGlobals = false) ∧
      ∃ ctx₁, castOfTwoSizes.includes.foldlM
          (ParseContext.processInclude fun _ _ => true) (contextOfT.entering true) =
          some ctx₁ ∧
        Harmless (fun _ _ => true) contextOfT ctx₁ castOfTwoSizes.parsed :=
  failed_declarations true
    (by
      intro decls hdecls
      obtain rfl := Option.some.inj hdecls
      exact ⟨by decide, by simp [contextOfT, ParseContext.entering, nodesOf, nodes]⟩)
    rfl

end Cod
end FFS
