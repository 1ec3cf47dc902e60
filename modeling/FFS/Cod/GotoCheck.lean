import FFS.Cod.Nodes
import Mathlib.Data.List.Nodup
import Mathlib.Data.List.Basic

/-!
# The goto check

For each goto `semanticize_gotos` walks the whole function and looks for the label.  A label may
not occur twice, and a goto may not go forward into the scope of an initialised declaration.  That
a label is there at all is for `semanticize_statement` to see, which looks at the target that was
left in the node.
-/

namespace FFS
namespace Cod

open Machine

/-! ## The walk -/

/-- `goto_semantic_state`, and `sm_target_stmt` of the goto. -/
structure GotoState where
  backwardJump : Bool
  passedInitDecl : Bool
  alreadyFound : Bool
  smTargetStmt : Option Nat

/-- `semanticize_goto` for the goto `thisGoto` to `gotoTarget`.  The lists of a compound statement
are `semanticize_goto_l`. -/
def semanticizeGoto (thisGoto : Nat) (gotoTarget : CString) : Node → GotoState → Bool × GotoState
  | .declaration _ initValue, gs =>
    (true, if !gs.backwardJump && initValue then { gs with passedInitDecl := true } else gs)
  | .selection _ thenPart elsePart, gs =>
    let (ret, gs) := semanticizeGoto thisGoto gotoTarget thenPart gs
    let (ret', gs) := semanticizeGoto thisGoto gotoTarget elsePart gs
    (ret && ret', gs)
  | .iteration _ _ _ _ statement, gs => semanticizeGoto thisGoto gotoTarget statement gs
  | .compound decls statements, gs =>
    let saved := gs.passedInitDecl
    let (ret, gs) := semanticizeGoto thisGoto gotoTarget decls gs
    let (ret', gs) := semanticizeGoto thisGoto gotoTarget statements
      { gs with passedInitDecl := saved }
    (ret && ret', { gs with passedInitDecl := saved })
  | .labelStatement node name statement, gs =>
    let (ret, gs) :=
      if gotoTarget = name then
        if !gs.backwardJump && gs.passedInitDecl then (false, gs)
        else if gs.alreadyFound then (false, gs)
        else (true, { gs with smTargetStmt := some node, alreadyFound := true })
      else (true, gs)
    let (ret', gs) := semanticizeGoto thisGoto gotoTarget statement gs
    (ret && ret', gs)
  | .jump node _ _, gs => (true, if node = thisGoto then { gs with backwardJump := false } else gs)
  | .cons node next, gs =>
    let (ret, gs) := semanticizeGoto thisGoto gotoTarget node gs
    let (ret', gs) := semanticizeGoto thisGoto gotoTarget next gs
    (ret && ret', gs)
  | .null, gs | .arrayTypeDecl _ _, gs | .typeDecl, gs | .returnStatement _, gs
  | .expressionStatement _, gs | .nil, gs => (true, gs)

/-- `semanticize_gotos`, and each goto with the target that it is given. -/
def semanticizeGotos (functionContext : Node) : Node → Bool × List (Nat × Option Nat)
  | .selection _ thenPart elsePart =>
    let (ret, targets) := semanticizeGotos functionContext thenPart
    let (ret', targets') := semanticizeGotos functionContext elsePart
    (ret && ret', targets ++ targets')
  | .iteration _ _ _ _ statement => semanticizeGotos functionContext statement
  | .compound decls statements =>
    let (ret, targets) := semanticizeGotos functionContext decls
    let (ret', targets') := semanticizeGotos functionContext statements
    (ret && ret', targets ++ targets')
  | .labelStatement _ _ statement => semanticizeGotos functionContext statement
  | .jump node _ (some gotoTarget) =>
    let (ret, gs) := semanticizeGoto node gotoTarget functionContext ⟨true, false, false, none⟩
    (ret, [(node, gs.smTargetStmt)])
  | .cons node next =>
    let (ret, targets) := semanticizeGotos functionContext node
    let (ret', targets') := semanticizeGotos functionContext next
    (ret && ret', targets ++ targets')
  | .null | .declaration _ _ | .arrayTypeDecl _ _ | .typeDecl | .returnStatement _
  | .jump _ _ none | .expressionStatement _ | .nil => (true, [])

/-! ## Places and scopes -/

/-- An initialised declaration. -/
structure Declared where
  node : Nat
  array : Bool
  deriving DecidableEq

/-- A goto, a `continue` or `break`, or a label, with the initialised declarations in whose scope
it is. -/
inductive Place where
  | goto (node : Nat) (name : CString) (scope : List Declared)
  | leave (node : Nat) (scope : List Declared)
  | label (node : Nat) (name : CString) (scope : List Declared)

def Place.node : Place → Nat
  | goto node _ _ | leave node _ | label node _ _ => node

def Place.scope : Place → List Declared
  | goto _ _ scope | leave _ scope | label _ _ scope => scope

namespace Node

/-- The scope behind a node in a list. -/
def extend : Node → List Declared → List Declared
  | declaration node true, scope => ⟨node, false⟩ :: scope
  | arrayTypeDecl node true, scope => ⟨node, true⟩ :: scope
  | cons node next, scope => next.extend (node.extend scope)
  | _, scope => scope

/-- The gotos and labels of a node in the order of the text.  A declaration is in scope to the
end of its block. -/
def places : Node → List Declared → List Place
  | selection _ thenPart elsePart, scope => thenPart.places scope ++ elsePart.places scope
  | iteration _ _ _ _ statement, scope => statement.places scope
  | compound decls statements, scope =>
    decls.places scope ++ statements.places (decls.extend scope)
  | labelStatement node name statement, scope => .label node name scope :: statement.places scope
  | jump node _ (some gotoTarget), scope => [.goto node gotoTarget scope]
  | jump node _ none, scope => [.leave node scope]
  | cons node next, scope => node.places scope ++ next.places (node.extend scope)
  | _, _ => []

/-- The initialised declarations of a node. -/
def declareds : Node → List Declared
  | declaration node true => [⟨node, false⟩]
  | arrayTypeDecl node true => [⟨node, true⟩]
  | selection _ thenPart elsePart => thenPart.declareds ++ elsePart.declareds
  | iteration _ _ _ _ statement => statement.declareds
  | compound decls statements => decls.declareds ++ statements.declareds
  | labelStatement _ _ statement => statement.declareds
  | cons node next => node.declareds ++ next.declareds
  | _ => []

def isStatement : Node → Bool
  | declaration _ _ | arrayTypeDecl _ _ | typeDecl | nil | cons _ _ => false
  | _ => true

/-- What the grammar makes: it puts a whole block into `decls` and leaves `statements` NULL, and
the parts of statements are statements. -/
def parsed : Node → Bool
  | selection _ thenPart elsePart =>
    thenPart.isStatement && elsePart.isStatement && thenPart.parsed && elsePart.parsed
  | iteration _ _ _ _ statement => statement.isStatement && statement.parsed
  | compound decls statements => statements = .nil && decls.parsed
  | labelStatement _ _ statement => statement.isStatement && statement.parsed
  | cons node next => node.parsed && next.parsed
  | _ => true

def isDecl : Node → Bool
  | declaration _ _ | arrayTypeDecl _ _ | typeDecl => true
  | _ => false

/-- A list of declarations. -/
def onlyDecls : Node → Bool
  | nil => true
  | cons node next => node.isDecl && next.onlyDecls
  | _ => false

end Node

/-- What `cod_code_gen` checks: the declarations of the context and the parsed body, whose nodes
are distinct. -/
structure ParsedFunction where
  contextDecls : Node
  body : Node
  onlyDecls : contextDecls.onlyDecls = true
  parsed : body.parsed = true
  distinctPlaces : ((body.places []).map Place.node).Nodup
  distinctDecls : (body.declareds.map Declared.node).Nodup

namespace ParsedFunction

def semanticizeGotos (f : ParsedFunction) : Bool × List (Nat × Option Nat) :=
  let function := Node.function f.contextDecls f.body
  Cod.semanticizeGotos (.cons function .nil) function

/-- `semanticize_gotos` is content, and `semanticize_statement` finds a target in each goto. -/
def gotosAccepted (f : ParsedFunction) : Bool :=
  f.semanticizeGotos.1 && f.semanticizeGotos.2.all fun goto => goto.2.isSome

end ParsedFunction

/-! ## Scopes -/

theorem append_subset_left {a b : List Declared} (h : a ⊆ b) (c : List Declared) :
    c ++ a ⊆ c ++ b :=
  List.append_subset.mpr
    ⟨List.subset_append_left c b, List.subset_append_of_subset_right c h⟩

theorem append_subset_right {a b : List Declared} (h : a ⊆ b) (c : List Declared) :
    a ++ c ⊆ b ++ c :=
  List.append_subset.mpr
    ⟨List.subset_append_of_subset_left c h, List.subset_append_right b c⟩

theorem subset_extend (node : Node) (scope : List Declared) : scope ⊆ node.extend scope := by
  induction node generalizing scope with
  | declaration n init =>
    cases init with
    | true => exact List.subset_cons_self _ _
    | false => exact List.Subset.refl _
  | arrayTypeDecl n init =>
    cases init with
    | true => exact List.subset_cons_self _ _
    | false => exact List.Subset.refl _
  | cons node next ih ihNext => exact List.Subset.trans (ih scope) (ihNext _)
  | _ => exact List.Subset.refl _

theorem extend_subset (node : Node) (scope : List Declared) :
    node.extend scope ⊆ scope ++ node.declareds := by
  induction node generalizing scope with
  | declaration n init =>
    cases init with
    | true => exact List.cons_subset.mpr ⟨by simp [Node.declareds], List.subset_append_left _ _⟩
    | false => exact List.subset_append_left _ _
  | arrayTypeDecl n init =>
    cases init with
    | true => exact List.cons_subset.mpr ⟨by simp [Node.declareds], List.subset_append_left _ _⟩
    | false => exact List.subset_append_left _ _
  | cons node next ih ihNext =>
    refine List.Subset.trans (ihNext _) ?_
    rw [Node.declareds, ← List.append_assoc]
    exact append_subset_right (ih scope) _
  | _ => exact List.subset_append_left _ _

/-- A place is in the scope around it and in that of declarations that stand beside it. -/
theorem scope_places {node : Node} {scope : List Declared} {place : Place}
    (h : place ∈ node.places scope) :
    scope ⊆ place.scope ∧ place.scope ⊆ scope ++ node.declareds := by
  induction node generalizing scope with
  | selection e thenPart elsePart ihThen ihElse =>
    rw [Node.places, List.mem_append] at h
    rw [Node.declareds]
    cases h with
    | inl h =>
      refine ⟨(ihThen h).1, List.Subset.trans (ihThen h).2 ?_⟩
      exact append_subset_left (List.subset_append_left _ _) _
    | inr h =>
      refine ⟨(ihElse h).1, List.Subset.trans (ihElse h).2 ?_⟩
      exact append_subset_left (List.subset_append_right _ _) _
  | iteration _ _ _ _ statement ih => exact ih h
  | labelStatement n name statement ih =>
    rw [Node.places, List.mem_cons] at h
    cases h with
    | inl h =>
      subst h
      exact ⟨List.Subset.refl _, List.subset_append_left _ _⟩
    | inr h => exact ih h
  | jump n flag target =>
    cases target with
    | none =>
      cases List.mem_singleton.mp h
      exact ⟨List.Subset.refl _, List.subset_append_left _ _⟩
    | some target =>
      cases List.mem_singleton.mp h
      exact ⟨List.Subset.refl _, List.subset_append_left _ _⟩
  | compound decls statements ih ihNext | cons decls statements ih ihNext =>
    rw [Node.places, List.mem_append] at h
    rw [Node.declareds, ← List.append_assoc]
    cases h with
    | inl h => exact ⟨(ih h).1, List.Subset.trans (ih h).2 (List.subset_append_left _ _)⟩
    | inr h =>
      refine ⟨List.Subset.trans (subset_extend _ _) (ihNext h).1,
        List.Subset.trans (ihNext h).2 ?_⟩
      exact append_subset_right (extend_subset _ _) _
  | _ => cases h

theorem declareds_block (decls : Node) :
    (Node.compound decls .nil).declareds = decls.declareds := List.append_nil _

theorem places_block (decls : Node) (scope : List Declared) :
    (Node.compound decls .nil).places scope = decls.places scope := List.append_nil _

theorem extend_of_isStatement {node : Node} (h : node.isStatement = true) (scope : List Declared) :
    node.extend scope = scope := by
  cases node with
  | declaration | arrayTypeDecl | typeDecl | nil | cons => cases h
  | _ => rfl

/-! ## What the walk finds -/

/-- The initialised declarations that a goto with the scope `γ` has not executed, arrays left
out. -/
def entered (γ scope : List Declared) : Bool := scope.any fun d => !d.array && decide (d ∉ γ)

theorem entered_of_subset {γ scope : List Declared} (h : scope ⊆ γ) : entered γ scope = false := by
  refine List.any_eq_false.mpr fun d hd => ?_
  simp [h hd]

namespace Place

/-- The goto itself is there. -/
def isThis (thisGoto : Nat) : Place → Bool
  | goto node _ _ | leave node _ => node = thisGoto
  | label _ _ _ => false

/-- The node, if it is a label of that name. -/
def named (gotoTarget : CString) : Place → Option Nat
  | label node name _ => if gotoTarget = name then some node else none
  | _ => none

end Place

section Walk

variable (thisGoto : Nat) (gotoTarget : CString) (γ : List Declared)

def labelsNamed (places : List Place) : List Nat := places.filterMap (Place.named gotoTarget)

/-- The goto has not been met yet. -/
def stillBackward (backward : Bool) (places : List Place) : Bool :=
  backward && places.all fun place => !place.isThis thisGoto

/-- No label behind the goto is in a scope that the goto enters. -/
def ForwardOk : Bool → List Place → Prop
  | _, [] => True
  | backward, place :: rest =>
    ((place.named gotoTarget).isSome = true → backward = false → entered γ place.scope = false) ∧
      ForwardOk (backward && !place.isThis thisGoto) rest

/-- The state behind the places. -/
def GotoState.behind (gs : GotoState) (places : List Place) (scope : List Declared) : GotoState :=
  let backward := stillBackward thisGoto gs.backwardJump places
  { backwardJump := backward
    passedInitDecl := !backward && entered γ scope
    alreadyFound := gs.alreadyFound || !(labelsNamed gotoTarget places).isEmpty
    smTargetStmt := (labelsNamed gotoTarget places).getLast?.or gs.smTargetStmt }

/-- The walk is content with the places. -/
structure Passes (gs : GotoState) (places : List Place) : Prop where
  forward : ForwardOk thisGoto gotoTarget γ gs.backwardJump places
  once : gs.alreadyFound.toNat + (labelsNamed gotoTarget places).length ≤ 1

/-- The walk over a node with these places. -/
structure Walked (gs : GotoState) (places : List Place) (scope : List Declared)
    (result : Bool × GotoState) : Prop where
  ret : result.1 = true ↔ Passes thisGoto gotoTarget γ gs places
  state : result.1 = true → result.2 = gs.behind thisGoto gotoTarget γ places scope

variable {thisGoto gotoTarget γ} {gs : GotoState} {ps qs : List Place}
  {scope scope' : List Declared}

theorem stillBackward_append (backward : Bool) : stillBackward thisGoto backward (ps ++ qs) =
    stillBackward thisGoto (stillBackward thisGoto backward ps) qs := by
  rw [stillBackward, List.all_append, ← Bool.and_assoc]
  rfl

theorem forwardOk_append (backward : Bool) : ForwardOk thisGoto gotoTarget γ backward (ps ++ qs) ↔
    ForwardOk thisGoto gotoTarget γ backward ps ∧
      ForwardOk thisGoto gotoTarget γ (stillBackward thisGoto backward ps) qs := by
  induction ps generalizing backward with
  | nil =>
    rw [stillBackward, List.all_nil, Bool.and_true]
    exact ⟨fun h => ⟨trivial, h⟩, And.right⟩
  | cons place ps ih =>
    rw [stillBackward, List.all_cons, ← Bool.and_assoc]
    exact (and_congr_right fun _ => ih _).trans and_assoc.symm

theorem labelsNamed_append : labelsNamed gotoTarget (ps ++ qs) =
    labelsNamed gotoTarget ps ++ labelsNamed gotoTarget qs := List.filterMap_append

theorem behind_behind : (gs.behind thisGoto gotoTarget γ ps scope).behind thisGoto gotoTarget γ qs
    scope' = gs.behind thisGoto gotoTarget γ (ps ++ qs) scope' := by
  have hempty : (labelsNamed gotoTarget ps ++ labelsNamed gotoTarget qs).isEmpty =
      ((labelsNamed gotoTarget ps).isEmpty && (labelsNamed gotoTarget qs).isEmpty) := by
    cases labelsNamed gotoTarget ps <;> rfl
  simp only [GotoState.behind, stillBackward_append, labelsNamed_append, List.getLast?_append,
    Option.or_assoc, Bool.or_assoc, hempty, Bool.not_and]

theorem passes_append (scope : List Declared) : Passes thisGoto gotoTarget γ gs (ps ++ qs) ↔
    Passes thisGoto gotoTarget γ gs ps ∧
      Passes thisGoto gotoTarget γ (gs.behind thisGoto gotoTarget γ ps scope) qs := by
  have hfound : gs.alreadyFound.toNat + (labelsNamed gotoTarget ps).length ≤ 1 →
      (gs.behind thisGoto gotoTarget γ ps scope).alreadyFound.toNat =
        gs.alreadyFound.toNat + (labelsNamed gotoTarget ps).length := by
    intro h
    rw [GotoState.behind]
    cases hlabels : labelsNamed gotoTarget ps with
    | nil => simp
    | cons l ls =>
      rw [hlabels, List.length_cons] at h
      cases hf : gs.alreadyFound with
      | true =>
        rw [hf, Bool.toNat_true] at h
        omega
      | false =>
        rw [hf, Bool.toNat_false] at h
        have hls : ls = [] := List.eq_nil_of_length_eq_zero (by omega)
        subst hls
        rfl
  constructor
  · rintro ⟨hforward, honce⟩
    rw [labelsNamed_append, List.length_append] at honce
    have hps : gs.alreadyFound.toNat + (labelsNamed gotoTarget ps).length ≤ 1 := by omega
    have hforward := (forwardOk_append _).mp hforward
    refine ⟨⟨hforward.1, hps⟩, hforward.2, ?_⟩
    rw [hfound hps]
    omega
  · rintro ⟨hps, hqs⟩
    refine ⟨(forwardOk_append _).mpr ⟨hps.forward, hqs.forward⟩, ?_⟩
    have honce := hqs.once
    rw [hfound hps.once] at honce
    rw [labelsNamed_append, List.length_append]
    omega

/-- One walk after another. -/
theorem Walked.seq {result : Bool × GotoState} {next : GotoState → Bool × GotoState}
    (h : Walked thisGoto gotoTarget γ gs ps scope result)
    (hnext : Walked thisGoto gotoTarget γ (gs.behind thisGoto gotoTarget γ ps scope) qs scope'
      (next (gs.behind thisGoto gotoTarget γ ps scope))) :
    Walked thisGoto gotoTarget γ gs (ps ++ qs) scope'
      (result.1 && (next result.2).1, (next result.2).2) := by
  have hret := h.ret
  have hstate := h.state
  cases hresult : result.1 with
  | false =>
    rw [hresult] at hret
    refine ⟨iff_of_false Bool.false_ne_true fun hpasses => ?_, fun h => by cases h⟩
    exact Bool.false_ne_true (hret.mpr ((passes_append scope).mp hpasses).1)
  | true =>
    rw [hstate hresult]
    rw [hresult] at hret
    refine ⟨?_, fun hnext' => (hnext.state hnext').trans behind_behind⟩
    rw [passes_append scope, Bool.true_and]
    exact hnext.ret.trans (and_iff_right (hret.mp rfl)).symm

/-- A node without places. -/
theorem Walked.none {gs' : GotoState}
    (hgs : gs' = { gs with passedInitDecl := !gs.backwardJump && entered γ scope }) :
    Walked thisGoto gotoTarget γ gs [] scope (true, gs') := by
  refine ⟨iff_of_true rfl ⟨trivial, Bool.toNat_le _⟩, fun _ => hgs.trans ?_⟩
  show _ = GotoState.mk (gs.backwardJump && true) (!(gs.backwardJump && true) && entered γ scope)
    (gs.alreadyFound || false) gs.smTargetStmt
  rw [Bool.and_true, Bool.or_false]

/-- The label of a label statement. -/
theorem walked_label (node : Nat) (name : CString)
    (hpassed : gs.passedInitDecl = (!gs.backwardJump && entered γ scope)) :
    Walked thisGoto gotoTarget γ gs [.label node name scope] scope
      (if gotoTarget = name then
        if !gs.backwardJump && gs.passedInitDecl then (false, gs)
        else if gs.alreadyFound then (false, gs)
        else (true, { gs with smTargetStmt := some node, alreadyFound := true })
      else (true, gs)) := by
  by_cases hname : gotoTarget = name
  · have hlabels : labelsNamed gotoTarget [.label node name scope] = [node] := by
      simp [labelsNamed, Place.named, hname]
    rw [if_pos hname]
    by_cases hforward : (!gs.backwardJump && gs.passedInitDecl) = true
    · rw [if_pos hforward]
      refine ⟨iff_of_false Bool.false_ne_true fun hpasses => ?_, fun h => by cases h⟩
      rw [Bool.and_eq_true, Bool.not_eq_true', hpassed, Bool.and_eq_true] at hforward
      have hok := hpasses.forward.1 (by simp [Place.named, hname]) hforward.1
      exact Bool.false_ne_true (hok.symm.trans hforward.2.2)
    · rw [if_neg hforward]
      have hok : ForwardOk thisGoto gotoTarget γ gs.backwardJump [.label node name scope] := by
        refine ⟨fun _ hbackward => ?_, trivial⟩
        rw [hpassed, hbackward, Bool.not_false, Bool.true_and, Bool.true_and,
          Bool.not_eq_true] at hforward
        exact hforward
      by_cases hfound : gs.alreadyFound = true
      · rw [if_pos hfound]
        refine ⟨iff_of_false Bool.false_ne_true fun hpasses => ?_, fun h => by cases h⟩
        have honce := hpasses.once
        rw [hfound, hlabels, Bool.toNat_true, List.length_singleton] at honce
        omega
      · rw [if_neg hfound]
        refine ⟨iff_of_true rfl ⟨hok, ?_⟩, fun _ => ?_⟩
        · rw [hlabels, Bool.eq_false_iff.mpr hfound]
          exact Nat.le_refl _
        · rw [GotoState.behind, hlabels]
          show _ = GotoState.mk (gs.backwardJump && true) _ (gs.alreadyFound || true) (some node)
          rw [Bool.or_true]
          simp [stillBackward, Place.isThis, hpassed]
  · have hlabels : labelsNamed gotoTarget [.label node name scope] = [] := by
      simp [labelsNamed, Place.named, hname]
    rw [if_neg hname]
    refine ⟨iff_of_true rfl ⟨⟨fun h => ?_, trivial⟩, ?_⟩, fun _ => ?_⟩
    · simp [Place.named, hname] at h
    · rw [hlabels]
      exact Bool.toNat_le _
    · rw [GotoState.behind, hlabels]
      simp [stillBackward, Place.isThis, ← hpassed]

/-- A jump, which may be the goto itself. -/
theorem walked_jump {place : Place} (hnamed : place.named gotoTarget = Option.none)
    (hthis : place.isThis thisGoto = true → scope = γ)
    (hpassed : gs.passedInitDecl = (!gs.backwardJump && entered γ scope)) :
    Walked thisGoto gotoTarget γ gs [place] scope
      (true, if place.isThis thisGoto then { gs with backwardJump := false } else gs) := by
  have hlabels : labelsNamed gotoTarget [place] = [] := by
    simp [labelsNamed, hnamed]
  refine ⟨iff_of_true rfl ⟨⟨fun h => ?_, trivial⟩, ?_⟩, fun _ => ?_⟩
  · rw [hnamed] at h
    cases h
  · rw [hlabels]
    exact Bool.toNat_le _
  · rw [GotoState.behind, hlabels]
    cases h : place.isThis thisGoto with
    | true =>
      have hentered : entered γ scope = false :=
        entered_of_subset (hthis h ▸ List.Subset.refl _)
      rw [hentered, Bool.and_false] at hpassed
      simp [stillBackward, h, hentered, hpassed]
    | false => simp [stillBackward, h, ← hpassed]

theorem same_state (hpassed : gs.passedInitDecl = (!gs.backwardJump && entered γ scope)) :
    gs = { gs with passedInitDecl := !gs.backwardJump && entered γ scope } := by
  rw [← hpassed]

/-- At the end of a block the flag is what it was before. -/
theorem passed_behind {node : Node}
    (hthis : ∀ p ∈ node.places scope, p.isThis thisGoto = true → p.scope = γ)
    (hpassed : gs.passedInitDecl = (!gs.backwardJump && entered γ scope)) :
    gs.passedInitDecl =
      (!stillBackward thisGoto gs.backwardJump (node.places scope) && entered γ scope) := by
  rw [hpassed, stillBackward]
  cases hmet : (node.places scope).all fun p => !p.isThis thisGoto with
  | true => rw [Bool.and_true]
  | false =>
    obtain ⟨p, hp, hp'⟩ := List.all_eq_false.mp hmet
    rw [Bool.not_eq_true', Bool.not_eq_false] at hp'
    have hsubset : scope ⊆ γ := hthis p hp hp' ▸ (scope_places hp).1
    rw [entered_of_subset hsubset, Bool.and_false, Bool.and_false]

/-- Declarations behind the places are none of those that the goto has executed. -/
theorem new_behind {node next : Node}
    (hthis : ∀ p ∈ node.places scope, p.isThis thisGoto = true → p.scope = γ)
    (hnew : gs.backwardJump = false → ∀ d ∈ next.declareds, d ∉ γ)
    (hscope : ∀ d ∈ next.declareds, d ∉ scope)
    (hapart : ∀ d ∈ next.declareds, d ∉ node.declareds)
    (h : stillBackward thisGoto gs.backwardJump (node.places scope) = false) :
    ∀ d ∈ next.declareds, d ∉ γ := by
  rw [stillBackward, Bool.and_eq_false_iff] at h
  cases h with
  | inl h => exact hnew h
  | inr h =>
    obtain ⟨p, hp, hmet⟩ := List.all_eq_false.mp h
    rw [Bool.not_eq_true', Bool.not_eq_false] at hmet
    intro d hd hγ
    rw [← hthis p hp hmet] at hγ
    cases List.mem_append.mp ((scope_places hp).2 hγ) with
    | inl hin => exact hscope d hd hin
    | inr hin => exact hapart d hd hin

theorem walked_places {node : Node} (hparsed : node.parsed = true)
    (hthis : ∀ p ∈ node.places scope, p.isThis thisGoto = true → p.scope = γ)
    (hnew : gs.backwardJump = false → ∀ d ∈ node.declareds, d ∉ γ)
    (hdistinct : node.declareds.Nodup) (hscope : ∀ d ∈ node.declareds, d ∉ scope)
    (hpassed : gs.passedInitDecl = (!gs.backwardJump && entered γ scope)) :
    Walked thisGoto gotoTarget γ gs (node.places scope) (node.extend scope)
      (semanticizeGoto thisGoto gotoTarget node gs) := by
  induction node generalizing gs scope with
  | null | typeDecl | returnStatement | expressionStatement | nil =>
    exact .none (same_state hpassed)
  | declaration n init =>
    cases init with
    | false =>
      refine .none ?_
      rw [Bool.and_false, if_neg Bool.false_ne_true]
      exact same_state hpassed
    | true =>
      refine .none ?_
      obtain ⟨backward, passed, found, target⟩ := gs
      cases backward with
      | true =>
        have hfalse : passed = false := hpassed
        subst hfalse
        rfl
      | false =>
        have hn : (⟨n, false⟩ : Declared) ∉ γ := hnew rfl _ List.mem_cons_self
        simp [entered, Node.extend, hn]
  | arrayTypeDecl n init =>
    -- An array does not count.
    cases init with
    | false => exact .none (same_state hpassed)
    | true => exact .none (same_state hpassed)
  | selection e thenPart elsePart ihThen ihElse =>
    rw [Node.parsed, Bool.and_eq_true, Bool.and_eq_true, Bool.and_eq_true] at hparsed
    obtain ⟨⟨⟨hthen, helse⟩, hparsedThen⟩, hparsedElse⟩ := hparsed
    rw [Node.declareds] at hnew hdistinct hscope
    have hapart := List.disjoint_of_nodup_append hdistinct
    have hfirst := ihThen hparsedThen
      (fun p hp => hthis p (List.mem_append_left _ hp))
      (fun h d hd => hnew h d (List.mem_append_left _ hd)) hdistinct.of_append_left
      (fun d hd => hscope d (List.mem_append_left _ hd)) hpassed
    rw [extend_of_isStatement hthen] at hfirst
    have hsecond : Walked thisGoto gotoTarget γ
        (gs.behind thisGoto gotoTarget γ (thenPart.places scope) scope) (elsePart.places scope)
        (elsePart.extend scope) (semanticizeGoto thisGoto gotoTarget elsePart _) :=
      ihElse hparsedElse (fun p hp => hthis p (List.mem_append_right _ hp))
        (new_behind (fun p hp => hthis p (List.mem_append_left _ hp))
          (fun h d hd => hnew h d (List.mem_append_right _ hd))
          (fun d hd => hscope d (List.mem_append_right _ hd)) (fun d hd hd' => hapart hd' hd))
        hdistinct.of_append_right (fun d hd => hscope d (List.mem_append_right _ hd)) rfl
    rw [extend_of_isStatement helse] at hsecond
    exact hfirst.seq hsecond
  | iteration init test post iter statement ih =>
    rw [Node.parsed, Bool.and_eq_true] at hparsed
    have hwalked := ih hparsed.2 hthis hnew hdistinct hscope hpassed
    rw [extend_of_isStatement hparsed.1] at hwalked
    exact hwalked
  | labelStatement n name statement ih =>
    rw [Node.parsed, Bool.and_eq_true] at hparsed
    have hfirst : Walked thisGoto gotoTarget γ gs [.label n name scope] scope _ :=
      walked_label n name hpassed
    have hbackward : (gs.behind thisGoto gotoTarget γ [.label n name scope] scope).backwardJump =
        gs.backwardJump := by
      simp [GotoState.behind, stillBackward, Place.isThis]
    have hsecond : Walked thisGoto gotoTarget γ
        (gs.behind thisGoto gotoTarget γ [.label n name scope] scope) (statement.places scope)
        (statement.extend scope) (semanticizeGoto thisGoto gotoTarget statement _) :=
      ih hparsed.2 (fun p hp => hthis p (List.mem_cons_of_mem _ hp))
        (fun h => hnew (hbackward ▸ h)) hdistinct hscope rfl
    rw [extend_of_isStatement hparsed.1] at hsecond
    exact hfirst.seq hsecond
  | jump n flag target =>
    cases target with
    | some target =>
      have hwalked : Walked thisGoto gotoTarget γ gs [.goto n target scope] scope _ :=
        walked_jump rfl (hthis _ List.mem_cons_self) hpassed
      simp only [Place.isThis, decide_eq_true_eq] at hwalked
      exact hwalked
    | none =>
      have hwalked : Walked thisGoto gotoTarget γ gs [.leave n scope] scope _ :=
        walked_jump rfl (hthis _ List.mem_cons_self) hpassed
      simp only [Place.isThis, decide_eq_true_eq] at hwalked
      exact hwalked
  | compound decls statements ihDecls ihStatements =>
    rw [Node.parsed, Bool.and_eq_true, decide_eq_true_eq] at hparsed
    obtain ⟨rfl, hparsed⟩ := hparsed
    rw [declareds_block] at hnew hdistinct hscope
    rw [places_block] at hthis ⊢
    have hwalked := ihDecls hparsed hthis hnew hdistinct hscope hpassed
    have hret : (semanticizeGoto thisGoto gotoTarget (.compound decls .nil) gs).1 =
        (semanticizeGoto thisGoto gotoTarget decls gs).1 := Bool.and_true _
    refine ⟨by rw [hret]; exact hwalked.ret, fun h => ?_⟩
    have hstate := hwalked.state (hret ▸ h)
    show { (semanticizeGoto thisGoto gotoTarget decls gs).2 with
      passedInitDecl := gs.passedInitDecl } = _
    rw [hstate, passed_behind hthis hpassed]
    rfl
  | cons node next ih ihNext =>
    rw [Node.parsed, Bool.and_eq_true] at hparsed
    rw [Node.declareds] at hnew hdistinct hscope
    have hapart := List.disjoint_of_nodup_append hdistinct
    have hfirst := ih hparsed.1
      (fun p hp => hthis p (List.mem_append_left _ hp))
      (fun h d hd => hnew h d (List.mem_append_left _ hd)) hdistinct.of_append_left
      (fun d hd => hscope d (List.mem_append_left _ hd)) hpassed
    have hsecond : Walked thisGoto gotoTarget γ
        (gs.behind thisGoto gotoTarget γ (node.places scope) (node.extend scope))
        (next.places (node.extend scope)) (next.extend (node.extend scope))
        (semanticizeGoto thisGoto gotoTarget next _) :=
      ihNext hparsed.2 (fun p hp => hthis p (List.mem_append_right _ hp))
        (new_behind (fun p hp => hthis p (List.mem_append_left _ hp))
          (fun h d hd => hnew h d (List.mem_append_right _ hd))
          (fun d hd => hscope d (List.mem_append_right _ hd)) (fun d hd hd' => hapart hd' hd))
        hdistinct.of_append_right
        (fun d hd hd' => (List.mem_append.mp (extend_subset node scope hd')).elim
          (hscope d (List.mem_append_right _ hd)) fun hin => hapart hin hd) rfl
    exact hfirst.seq hsecond

/-- Whether the labels behind the goto are in its reach. -/
theorem forwardOk_split {node : Nat} {front behind : List Place} {backward : Bool}
    (hfront : ∀ p ∈ front, p.node ≠ node) (hbackward : backward = true) :
    ForwardOk node gotoTarget γ backward (front ++ .goto node gotoTarget γ :: behind) ↔
      ∀ p ∈ behind, (p.named gotoTarget).isSome = true → entered γ p.scope = false := by
  have hmet : ∀ p ∈ front, p.isThis node = false := by
    intro p hp
    have hne := hfront p hp
    cases p with
    | goto n _ _ => exact decide_eq_false hne
    | leave n _ => exact decide_eq_false hne
    | label => rfl
  have hbehind : ∀ ps, ForwardOk node gotoTarget γ false ps ↔
      ∀ p ∈ ps, (p.named gotoTarget).isSome = true → entered γ p.scope = false := by
    intro ps
    induction ps with
    | nil => exact iff_of_true trivial fun p hp => absurd hp List.not_mem_nil
    | cons p ps ih =>
      rw [List.forall_mem_cons]
      exact and_congr ⟨fun h hnamed => h hnamed rfl, fun h hnamed _ => h hnamed⟩ ih
  subst hbackward
  rw [forwardOk_append]
  have hall : stillBackward node true front = true := by
    rw [stillBackward, Bool.true_and, List.all_eq_true]
    intro p hp
    rw [hmet p hp]
    rfl
  have hfrontOk : ForwardOk node gotoTarget γ true front := by
    clear hfront hall
    induction front with
    | nil => trivial
    | cons p front ih =>
      refine ⟨fun _ h => (by cases h), ?_⟩
      rw [hmet p List.mem_cons_self]
      exact ih fun q hq => hmet q (List.mem_cons_of_mem _ hq)
  have hthis : (Place.goto node gotoTarget γ).isThis node = true := decide_eq_true rfl
  rw [hall, and_iff_right hfrontOk, ForwardOk, hthis, ← hbehind behind]
  exact ⟨And.right, fun h => ⟨fun h' => (by cases h'), h⟩⟩

end Walk

/-! ## All gotos -/

def GotoState.start : GotoState := ⟨true, false, false, none⟩

section Gotos

variable {functionContext : Node}

def gotoRet (functionContext : Node) : Place → Bool
  | .goto node name _ => (semanticizeGoto node name functionContext .start).1
  | _ => true

def gotoTargetOf (functionContext : Node) : Place → Option (Nat × Option Nat)
  | .goto node name _ =>
    some (node, (semanticizeGoto node name functionContext .start).2.smTargetStmt)
  | _ => none

theorem semanticizeGotos_eq (node : Node) (scope : List Declared) :
    semanticizeGotos functionContext node =
      ((node.places scope).all (gotoRet functionContext),
        (node.places scope).filterMap (gotoTargetOf functionContext)) := by
  induction node generalizing scope with
  | null | declaration | arrayTypeDecl | typeDecl | returnStatement | expressionStatement | nil =>
    rfl
  | jump n flag target =>
    cases target with
    | none => rfl
    | some target =>
      show (_, _) = (_ && true, _)
      rw [Bool.and_true]
      rfl
  | iteration _ _ _ _ statement ih => exact ih scope
  | labelStatement n name statement ih => exact ih scope
  | selection e thenPart elsePart ihThen ihElse =>
    rw [semanticizeGotos, ihThen scope, ihElse scope, Node.places, List.all_append,
      List.filterMap_append]
  | compound decls statements ih ihNext | cons decls statements ih ihNext =>
    rw [semanticizeGotos, ih scope, ihNext (decls.extend scope), Node.places, List.all_append,
      List.filterMap_append]

theorem places_onlyDecls {node : Node} (h : node.onlyDecls = true) (scope : List Declared) :
    node.places scope = [] := by
  induction node generalizing scope with
  | nil => rfl
  | cons node next ih ihNext =>
    rw [Node.onlyDecls, Bool.and_eq_true] at h
    rw [Node.places, ihNext h.2, List.append_nil]
    cases node with
    | declaration | arrayTypeDecl | typeDecl => rfl
    | _ => cases h.1
  | _ => cases h

/-- Before the goto is met declarations change nothing. -/
theorem semanticizeGoto_onlyDecls {node : Node} (h : node.onlyDecls = true) (thisGoto : Nat)
    (gotoTarget : CString) {gs : GotoState} (hbackward : gs.backwardJump = true) :
    semanticizeGoto thisGoto gotoTarget node gs = (true, gs) := by
  induction node with
  | nil => rfl
  | cons node next ih ihNext =>
    rw [Node.onlyDecls, Bool.and_eq_true] at h
    have hnode : semanticizeGoto thisGoto gotoTarget node gs = (true, gs) := by
      cases node with
      | arrayTypeDecl | typeDecl => rfl
      | declaration n init => rw [semanticizeGoto, hbackward, Bool.not_true, Bool.false_and,
          if_neg Bool.false_ne_true]
      | _ => cases h.1
    rw [semanticizeGoto, hnode]
    dsimp only
    rw [ihNext h.2]
    rfl
  | _ => cases h

theorem semanticizeGoto_function {contextDecls body : Node} (h : contextDecls.onlyDecls = true)
    (thisGoto : Nat) (gotoTarget : CString) :
    let result := semanticizeGoto thisGoto gotoTarget (.cons (.function contextDecls body) .nil)
      .start
    result.1 = (semanticizeGoto thisGoto gotoTarget body .start).1 ∧
      result.2.smTargetStmt = (semanticizeGoto thisGoto gotoTarget body .start).2.smTargetStmt := by
  have hdecls : semanticizeGoto thisGoto gotoTarget contextDecls .start = (true, .start) :=
    semanticizeGoto_onlyDecls h thisGoto gotoTarget rfl
  simp only [semanticizeGoto, Node.function, hdecls, Bool.true_and, Bool.and_true]
  exact ⟨trivial, trivial⟩

end Gotos

namespace ParsedFunction

variable (f : ParsedFunction)

/-- The gotos and labels of the body.  What the context declares is in scope everywhere. -/
def places : List Place := f.body.places []

/-- Each goto has its label once, and the label is in the scope of no initialised declaration that
the goto jumps over. -/
def GotosAllowed : Prop :=
  ∀ front node name scope behind, f.places = front ++ .goto node name scope :: behind →
    (∃ l, labelsNamed name f.places = [l]) ∧
      ∀ l (scope' : List Declared), .label l name scope' ∈ behind → scope' ⊆ scope

/-- A goto that jumps forward into the scope of an initialised array jumps into the scope of
another initialised declaration, too. -/
def EntersNoArrayAlone : Prop :=
  ∀ front node name scope behind, f.places = front ++ .goto node name scope :: behind →
    ∀ l scope', .label l name scope' ∈ behind → (∃ d ∈ scope', d.array = true ∧ d ∉ scope) →
      ∃ d ∈ scope', d.array = false ∧ d ∉ scope

/-- Each goto is left with the node of the label. -/
def TargetsSet : Prop :=
  ∀ front node name scope behind, f.places = front ++ .goto node name scope :: behind →
    ∃ l, labelsNamed name f.places = [l] ∧ (node, some l) ∈ f.semanticizeGotos.2

variable {f} {front behind : List Place} {node : Nat} {name : CString} {scope : List Declared}

theorem walked (hsplit : f.places = front ++ .goto node name scope :: behind) :
    Walked node name scope .start f.places (f.body.extend [])
      (semanticizeGoto node name f.body .start) := by
  have hgoto : Place.goto node name scope ∈ f.places := by
    rw [hsplit]
    exact List.mem_append_right _ List.mem_cons_self
  refine walked_places f.parsed (fun p hp hthis => ?_) (fun h => by cases h)
    f.distinctDecls.of_map (fun d _ => List.not_mem_nil) rfl
  have hnode : p.node = node := by
    cases p with
    | goto n _ _ => exact of_decide_eq_true hthis
    | leave n _ => exact of_decide_eq_true hthis
    | label => cases hthis
  have heq := List.inj_on_of_nodup_map f.distinctPlaces hp hgoto hnode
  rw [heq]
  rfl

theorem forward_iff : (∀ p ∈ behind, (p.named name).isSome = true → entered scope p.scope = false) ↔
    ∀ l scope', .label l name scope' ∈ behind → entered scope scope' = false := by
  constructor
  · intro h l scope' hl
    exact h _ hl (by simp [Place.named])
  · intro h p hp hnamed
    cases p with
    | goto | leave => cases hnamed
    | label l name' scope' =>
      rw [Place.named] at hnamed
      split at hnamed
      · next heq =>
        subst heq
        exact h l scope' hp
      · cases hnamed

/-- When a goto passes the walk. -/
theorem walk_iff (hsplit : f.places = front ++ .goto node name scope :: behind) :
    (semanticizeGoto node name f.body .start).1 = true ↔
      (labelsNamed name f.places).length ≤ 1 ∧
        ∀ l scope', .label l name scope' ∈ behind → entered scope scope' = false := by
  have hdistinct : ((front ++ .goto node name scope :: behind).map Place.node).Nodup :=
    hsplit ▸ f.distinctPlaces
  rw [List.map_append, List.map_cons] at hdistinct
  have hfront : ∀ p ∈ front, p.node ≠ node := by
    intro p hp heq
    exact List.disjoint_of_nodup_append hdistinct (List.mem_map_of_mem hp)
      (heq ▸ List.mem_cons_self)
  have hforward : ForwardOk node name scope true f.places ↔ _ :=
    hsplit ▸ forwardOk_split hfront rfl
  rw [forward_iff] at hforward
  refine (walked hsplit).ret.trans ⟨fun h => ⟨?_, hforward.mp h.forward⟩, fun h => ?_⟩
  · have honce := h.once
    rw [GotoState.start, Bool.toNat_false, Nat.zero_add] at honce
    exact honce
  · refine ⟨hforward.mpr h.2, ?_⟩
    rw [GotoState.start, Bool.toNat_false, Nat.zero_add]
    exact h.1

theorem target_of_walk (hsplit : f.places = front ++ .goto node name scope :: behind)
    (h : (semanticizeGoto node name f.body .start).1 = true) :
    (semanticizeGoto node name f.body .start).2.smTargetStmt =
      (labelsNamed name f.places).getLast? := by
  rw [(walked hsplit).state h]
  exact Option.or_none

theorem semanticizeGotos_body (f : ParsedFunction) :
    let context := Node.cons (.function f.contextDecls f.body) .nil
    f.semanticizeGotos =
      (f.places.all (gotoRet context), f.places.filterMap (gotoTargetOf context)) := by
  intro context
  have hdecls : Cod.semanticizeGotos context f.contextDecls = _ := semanticizeGotos_eq _ []
  rw [places_onlyDecls f.onlyDecls] at hdecls
  have hbody : Cod.semanticizeGotos context f.body = _ := semanticizeGotos_eq _ []
  show Cod.semanticizeGotos context (.compound f.contextDecls (.cons f.body .nil)) = _
  rw [Cod.semanticizeGotos, hdecls, Cod.semanticizeGotos, hbody]
  show (true && (_ && true), [] ++ (_ ++ [])) = _
  rw [Bool.true_and, Bool.and_true, List.nil_append, List.append_nil]
  rfl

/-- What `semanticize_gotos` accepts. -/
theorem semanticizeGotos_iff : f.semanticizeGotos.1 = true ↔
    ∀ front node name scope behind, f.places = front ++ .goto node name scope :: behind →
      (labelsNamed name f.places).length ≤ 1 ∧
        ∀ l scope', .label l name scope' ∈ behind → entered scope scope' = false := by
  rw [semanticizeGotos_body]
  dsimp only
  rw [List.all_eq_true]
  constructor
  · intro h front node name scope behind hsplit
    have hret := h (.goto node name scope) (by rw [hsplit]; simp)
    rw [gotoRet, (semanticizeGoto_function f.onlyDecls node name).1] at hret
    exact (walk_iff hsplit).mp hret
  · intro h p hp
    cases p with
    | leave | label => rfl
    | goto node name scope =>
      obtain ⟨front, behind, hsplit⟩ := List.append_of_mem hp
      rw [gotoRet, (semanticizeGoto_function f.onlyDecls node name).1]
      exact (walk_iff hsplit).mpr (h front node name scope behind hsplit)

theorem targets_of_semanticizeGotos (h : f.semanticizeGotos.1 = true)
    (hsplit : f.places = front ++ .goto node name scope :: behind) :
    (node, (labelsNamed name f.places).getLast?) ∈ f.semanticizeGotos.2 := by
  have hwalk := (walk_iff hsplit).mpr (semanticizeGotos_iff.mp h _ _ _ _ _ hsplit)
  rw [semanticizeGotos_body]
  refine List.mem_filterMap.mpr ⟨.goto node name scope, by rw [hsplit]; simp, ?_⟩
  rw [gotoTargetOf, (semanticizeGoto_function f.onlyDecls node name).2, target_of_walk hsplit hwalk]

theorem entered_eq_false {scope' : List Declared} : entered scope scope' = false ↔
    ∀ d ∈ scope', d.array = false → d ∈ scope := by
  rw [entered, List.any_eq_false]
  refine forall₂_congr fun d _ => ?_
  cases d.array <;> simp

end ParsedFunction

/-- A body whose gotos do not jump forward into the scopes of initialised arrays alone is accepted
when its gotos are as they should be, and then each is left with its label. -/
theorem goto_check (f : ParsedFunction) (harray : f.EntersNoArrayAlone) :
    (f.gotosAccepted = true ↔ f.GotosAllowed) ∧ (f.gotosAccepted = true → f.TargetsSet) := by
  have hsubset : ∀ {front node name scope behind},
      f.places = front ++ .goto node name scope :: behind → ∀ l (scope' : List Declared),
        .label l name scope' ∈ behind → (entered scope scope' = false ↔ scope' ⊆ scope) := by
    intro front node name scope behind hsplit l scope' hl
    rw [ParsedFunction.entered_eq_false]
    refine ⟨fun h d hd => ?_, fun h d hd _ => h hd⟩
    by_contra hnot
    cases hd' : d.array with
    | true =>
      obtain ⟨d', hmem, hother, hnot'⟩ :=
        harray front node name scope behind hsplit l scope' hl ⟨d, hd, hd', hnot⟩
      exact hnot' (h d' hmem hother)
    | false => exact hnot (h d hd hd')
  have hone : ∀ {ls : List Nat}, ls.length ≤ 1 → ls.getLast?.isSome = true → ∃ l, ls = [l] := by
    intro ls hlength hsome
    cases ls with
    | nil => cases hsome
    | cons l ls =>
      rw [List.length_cons] at hlength
      have hnil : ls = [] := List.eq_nil_of_length_eq_zero (by omega)
      exact ⟨l, by rw [hnil]⟩
  have hlabel : f.gotosAccepted = true → ∀ {front node name scope behind},
      f.places = front ++ .goto node name scope :: behind →
        ∃ l, labelsNamed name f.places = [l] ∧ (node, some l) ∈ f.semanticizeGotos.2 := by
    intro h front node name scope behind hsplit
    rw [ParsedFunction.gotosAccepted, Bool.and_eq_true] at h
    have htarget := ParsedFunction.targets_of_semanticizeGotos h.1 hsplit
    have hsome := List.all_eq_true.mp h.2 _ htarget
    obtain ⟨l, hl⟩ := hone (ParsedFunction.semanticizeGotos_iff.mp h.1 _ _ _ _ _ hsplit).1 hsome
    rw [hl] at htarget
    exact ⟨l, hl, htarget⟩
  refine ⟨⟨fun h front node name scope behind hsplit => ?_, fun h => ?_⟩,
    fun h front node name scope behind hsplit => hlabel h hsplit⟩
  · obtain ⟨l, hl, -⟩ := hlabel h hsplit
    rw [ParsedFunction.gotosAccepted, Bool.and_eq_true] at h
    have hwalk := ParsedFunction.semanticizeGotos_iff.mp h.1 _ _ _ _ _ hsplit
    exact ⟨⟨l, hl⟩, fun l' scope' hl' => (hsubset hsplit l' scope' hl').mp (hwalk.2 l' scope' hl')⟩
  · have hwalk : f.semanticizeGotos.1 = true := by
      refine ParsedFunction.semanticizeGotos_iff.mpr fun front node name scope behind hsplit => ?_
      obtain ⟨⟨l, hl⟩, hforward⟩ := h front node name scope behind hsplit
      refine ⟨by rw [hl]; exact Nat.le_refl _, fun l' scope' hl' => ?_⟩
      exact (hsubset hsplit l' scope' hl').mpr (hforward l' scope' hl')
    rw [ParsedFunction.gotosAccepted, hwalk, Bool.true_and, List.all_eq_true]
    intro goto hgoto
    rw [ParsedFunction.semanticizeGotos_body] at hgoto
    obtain ⟨p, hp, htarget⟩ := List.mem_filterMap.mp hgoto
    cases p with
    | leave | label => cases htarget
    | goto node name scope =>
      obtain ⟨front, behind, hsplit⟩ := List.append_of_mem hp
      obtain ⟨⟨l, hl⟩, -⟩ := h front node name scope behind hsplit
      have hret := (ParsedFunction.walk_iff hsplit).mpr
        (ParsedFunction.semanticizeGotos_iff.mp hwalk _ _ _ _ _ hsplit)
      cases htarget
      dsimp only
      rw [(semanticizeGoto_function f.onlyDecls node name).2,
        ParsedFunction.target_of_walk hsplit hret, hl]
      rfl

theorem entersNoArray_of_declareds {f : ParsedFunction}
    (h : ∀ d ∈ f.body.declareds, d.array = false) : f.EntersNoArrayAlone := by
  intro front node name scope behind hsplit l scope' hl ⟨d, hd, harray, _⟩
  have hmem : Place.label l name scope' ∈ f.places := by
    rw [hsplit]
    exact List.mem_append_right _ (List.mem_cons_of_mem _ hl)
  have hdeclared : d ∈ f.body.declareds := (scope_places hmem).2 hd
  exact absurd harray (h d hdeclared ▸ Bool.false_ne_true)

def labelL : CString := cstr ['l'] (.refl false)

/-- `{ goto l; { int x = 1; } l: ; }` -/
def overBlock : ParsedFunction where
  contextDecls := .nil
  body := .compound (.cons (.jump 0 false (some labelL)) (.cons (.compound
    (.cons (.declaration 1 true) .nil) .nil) (.cons (.labelStatement 2 labelL .null) .nil))) .nil
  onlyDecls := rfl
  parsed := by decide
  distinctPlaces := by decide
  distinctDecls := by decide

theorem goto_check_overBlock :
    (overBlock.gotosAccepted = true ↔ overBlock.GotosAllowed) ∧
      (overBlock.gotosAccepted = true → overBlock.TargetsSet) :=
  goto_check overBlock (entersNoArray_of_declareds (by decide))

/-- `{ goto l; }` -/
def noLabel : ParsedFunction where
  contextDecls := .nil
  body := .compound (.cons (.jump 0 false (some labelL)) .nil) .nil
  onlyDecls := rfl
  parsed := by decide
  distinctPlaces := by decide
  distinctDecls := by decide

/-- `{ goto l; int a[1] = {1}; l: ; }` -/
def overArray : ParsedFunction where
  contextDecls := .nil
  body := .compound (.cons (.jump 0 false (some labelL)) (.cons (.arrayTypeDecl 1 true)
    (.cons (.labelStatement 2 labelL .null) .nil))) .nil
  onlyDecls := rfl
  parsed := by decide
  distinctPlaces := by decide
  distinctDecls := by decide

/-- `semanticize_gotos` accepts a goto without a label and one over an initialised array. -/
theorem noLabel_semanticizeGotos :
    noLabel.semanticizeGotos.1 = true ∧ ¬ noLabel.GotosAllowed ∧
      overArray.semanticizeGotos.1 = true ∧ ¬ overArray.GotosAllowed := by
  refine ⟨by decide, fun h => ?_, by decide, fun h => ?_⟩
  · obtain ⟨l, hl⟩ := (h [] 0 labelL [] [] rfl).1
    cases hl
  · have hsubset : [⟨1, true⟩] ⊆ ([] : List Declared) :=
      (h [] 0 labelL [] _ rfl).2 2 [⟨1, true⟩] List.mem_cons_self
    exact List.not_mem_nil (hsubset List.mem_cons_self)

end Cod
end FFS
