import FFS.Cod.Nodes
import FFS.Machine.ControlFlow

/-!
# The return check

A function with a result must end in a return statement.  `check_last_statement_return` looks at
the last statement only.  What it is for is that no execution of the code that `cg_statement`
emits comes to the end of that code.
-/

namespace FFS
namespace Cod

open Machine

/-! ## The check -/

def exitName : CString := cstr ['e', 'x', 'i', 't'] (.refl false)

def abortName : CString := cstr ['a', 'b', 'o', 'r', 't'] (.refl false)

/-- A call of `exit` or `abort`. -/
def Expression.exits (e : Expression) : Bool :=
  decide (e.called = some exitName ∨ e.called = some abortName)

/-- `check_last_statement_return`, and on a list `check_last_statement_return_list`.  Nothing comes
of it where a NULL statement is followed or the unset variable read. -/
def checkLastStatementReturn : Node → Option Bool
  | .null => none
  | .selection _ thenPart elsePart => do
    if !(← checkLastStatementReturn thenPart) then return false
    if elsePart = .null then return true
    checkLastStatementReturn elsePart
  | .compound decls statements =>
    if statements ≠ .nil then checkLastStatementReturn statements
    else if decls ≠ .nil then checkLastStatementReturn decls
    else some true
  | .returnStatement _ => some true
  | .expressionStatement e => some e.exits
  | .labelStatement _ _ statement => checkLastStatementReturn statement
  | .nil => none
  | .cons node next =>
    if next ≠ .nil then checkLastStatementReturn next
    else if node = .null then some false
    else checkLastStatementReturn node
  | .declaration _ _ | .arrayTypeDecl _ _ | .typeDecl | .iteration _ _ _ _ _ | .jump _ _ _ =>
    some false

/-- What `semanticize_compound_statement` answers for a function with a result; `ret` is what its
other checks have found. -/
def requireLastReturn (ret : Bool) : Node → Option Bool
  | .compound _ statements => if ret then checkLastStatementReturn statements else some false
  | _ => none

/-! ## The code -/

inductive NodeLabel where
  /-- The label of a `cod_label_statement`. -/
  | statement (name : CString)
  /-- From `dill_alloc_label`. -/
  | alloc (number : Nat)
  deriving DecidableEq

/-- What the code does, in order.  The code of one expression is one step. -/
inductive Action where
  | decl (node : Node)
  | eval (e : Expression)
  /-- To the label if the expression is as said. -/
  | branch (e : Expression) (sense : Bool) (target : NodeLabel)
  | jump (target : NodeLabel)
  | mark (label : NodeLabel)
  | ret (e : Option Expression)

/-- `cg_statement`, `cg_decl` and `cg_decls_stmts`.  `loop` has the labels of the loop around it, at
which it goes on and ends; `labels` counts the allocated ones. -/
def Node.cgStatement (loop : Option (Nat × Nat)) : Node → Nat → Option (List Action × Nat)
  | .null, labels => some ([], labels)
  | .declaration node init, labels => some ([.decl (.declaration node init)], labels)
  | .arrayTypeDecl node init, labels => some ([.decl (.arrayTypeDecl node init)], labels)
  | .typeDecl, labels => some ([], labels)
  | .selection e thenPart elsePart, labels => do
    let (thenCode, labels') ← Node.cgStatement loop thenPart (labels + 1)
    if elsePart = .null then
      return (.branch e false (.alloc labels) :: thenCode ++ [.mark (.alloc labels)], labels')
    let (elseCode, labels'') ← Node.cgStatement loop elsePart (labels' + 1)
    return (.branch e false (.alloc labels) :: thenCode ++
      .jump (.alloc labels') :: .mark (.alloc labels) :: elseCode ++ [.mark (.alloc labels')],
      labels'')
  | .iteration init test postTest iter statement, labels => do
    let (code, labels') ← Node.cgStatement (some (labels + 2, labels + 1)) statement (labels + 3)
    let back := match postTest with
      | none => Action.jump (.alloc labels)
      | some e => .branch e true (.alloc labels)
    return (init.toList.map .eval ++ .mark (.alloc labels) ::
      test.toList.map (.branch · false (.alloc (labels + 1))) ++ code ++
      .mark (.alloc (labels + 2)) :: iter.toList.map .eval ++
      [back, .mark (.alloc (labels + 1))], labels')
  | .compound decls statements, labels => do
    let (declCode, labels') ← Node.cgStatement loop decls labels
    let (code, labels'') ← Node.cgStatement loop statements labels'
    return (declCode ++ code, labels'')
  | .returnStatement e, labels => some ([.ret e], labels)
  | .labelStatement _ name statement, labels => do
    let (code, labels') ← Node.cgStatement loop statement labels
    return (.mark (.statement name) :: code, labels')
  | .jump _ _ (some target), labels => some ([.jump (.statement target)], labels)
  | .jump _ continueFlag none, labels => do
    let (iterLabel, endLabel) ← loop
    return ([.jump (.alloc (if continueFlag then iterLabel else endLabel))], labels)
  | .expressionStatement e, labels => some ([.eval e], labels)
  | .nil, labels => some ([], labels)
  | .cons node next, labels => do
    if node = .null then none
    let (code, labels') ← Node.cgStatement loop node labels
    let (rest, labels'') ← Node.cgStatement loop next labels'
    return (code ++ rest, labels'')

/-- What expressions and declarations do. -/
structure Meanings (S : Type) where
  decl : Node → S → S
  eval : Expression → S → S
  test : Expression → S → Bool × S

/-- An execution stands before the code that remains, or it has passed a return statement or a
call of `exit` or `abort`. -/
inductive Execution (S : Type) where
  | at (rest : List Action) (s : S)
  | ended (s : S)

def actionMark : Action → Option NodeLabel
  | .mark l => some l
  | _ => none

def actionFalls : Action → Bool
  | .eval e => !e.exits
  | .jump _ | .ret _ => false
  | _ => true

def actionTargets : Action → List NodeLabel
  | .branch _ _ l | .jump l => [l]
  | _ => []

def actionFlow : Flow Action NodeLabel := ⟨actionMark, actionFalls, actionTargets⟩

variable {S : Type}

def executeStep (meanings : Meanings S) (prog : List Action) : Execution S → Option (Execution S)
  | .at [] _ => none
  | .at (.decl node :: rest) s => some (.at rest (meanings.decl node s))
  | .at (.eval e :: rest) s =>
    some (if e.exits then .ended s else .at rest (meanings.eval e s))
  | .at (.branch e sense target :: rest) s =>
    let (value, s') := meanings.test e s
    if value = sense then (actionFlow.behind target prog).map (.at · s') else some (.at rest s')
  | .at (.jump target :: _) s => (actionFlow.behind target prog).map (.at · s)
  | .at (.mark _ :: rest) s => some (.at rest s)
  | .at (.ret e :: _) s => some (.ended (e.elim s fun e => meanings.eval e s))
  | .ended _ => none

/-- An execution of the code comes to its end. -/
def ReachesEnd (meanings : Meanings S) (prog : List Action) (s : S) : Prop :=
  ∃ s', Relation.ReflTransGen (fun a b => executeStep meanings prog a = some b)
    (.at prog s) (.at [] s')

/-! ## Labels -/

section Refs

variable (rest : List Action) (l : NodeLabel)

@[simp]
theorem refs_nil : actionFlow.refs [] = [] := rfl

@[simp]
theorem refs_eval (e : Expression) : actionFlow.refs (.eval e :: rest) = actionFlow.refs rest := rfl

@[simp]
theorem refs_branch (e : Expression) (sense : Bool) :
    actionFlow.refs (.branch e sense l :: rest) = l :: actionFlow.refs rest := rfl

@[simp]
theorem refs_jump : actionFlow.refs (.jump l :: rest) = l :: actionFlow.refs rest := rfl

@[simp]
theorem refs_mark : actionFlow.refs (.mark l :: rest) = actionFlow.refs rest := rfl

theorem refs_evals (es : Option Expression) : actionFlow.refs (es.toList.map .eval) = [] := by
  cases es <;> rfl

theorem refs_tests (es : Option Expression) :
    ∀ l' ∈ actionFlow.refs (es.toList.map (.branch · false l)), l' = l := by
  cases es with
  | none => exact fun l' h => absurd h List.not_mem_nil
  | some e => exact fun l' h => List.mem_singleton.mp h

end Refs

/-- The code refers to labels that were allocated for it and to those of the loop around it. -/
structure OwnLabels (loop : Option (Nat × Nat)) (labels labels' : Nat) (code : List Action) :
    Prop where
  le : labels ≤ labels'
  refs : ∀ k, .alloc k ∈ actionFlow.refs code →
    labels ≤ k ∧ k < labels' ∨ ∃ p, loop = some p ∧ (k = p.1 ∨ k = p.2)

section Labels

variable {loop : Option (Nat × Nat)} {labels labels' labels'' : Nat} {code rest : List Action}

theorem OwnLabels.none (h : ∀ k, .alloc k ∉ actionFlow.refs code) :
    OwnLabels loop labels labels code := ⟨Nat.le_refl _, fun k hk => absurd hk (h k)⟩

theorem OwnLabels.append (h : OwnLabels loop labels labels' code)
    (hrest : OwnLabels loop labels' labels'' rest) :
    OwnLabels loop labels labels'' (code ++ rest) := by
  refine ⟨h.le.trans hrest.le, fun k hk => ?_⟩
  rw [Flow.refs_append, List.mem_append] at hk
  cases hk with
  | inl hk =>
    refine (h.refs k hk).imp_left fun hin => ?_
    exact ⟨hin.1, hin.2.trans_le hrest.le⟩
  | inr hk =>
    refine (hrest.refs k hk).imp_left fun hin => ?_
    exact ⟨h.le.trans hin.1, hin.2⟩

theorem ownLabels_cgStatement {node : Node}
    (h : Node.cgStatement loop node labels = some (code, labels')) :
    OwnLabels loop labels labels' code := by
  induction node generalizing loop labels labels' code with
  | null | typeDecl | nil | declaration | arrayTypeDecl | returnStatement | expressionStatement =>
    cases h
    exact .none fun k hk => absurd hk List.not_mem_nil
  | selection e thenPart elsePart ihThen ihElse =>
    obtain ⟨⟨thenCode, m⟩, hthen, h⟩ := Option.bind_eq_some_iff.mp h
    have hown := ihThen hthen
    have hle := hown.le
    dsimp only at h
    split at h
    · cases h
      refine ⟨by omega, fun k hk => ?_⟩
      simp only [List.cons_append, Flow.refs_append, refs_branch, refs_mark, refs_nil,
        List.append_nil, List.mem_cons, NodeLabel.alloc.injEq] at hk
      cases hk with
      | inl hk => exact .inl ⟨by omega, by omega⟩
      | inr hk => exact (hown.refs k hk).imp_left fun hin => ⟨by omega, hin.2⟩
    · obtain ⟨⟨elseCode, m'⟩, helse, h⟩ := Option.bind_eq_some_iff.mp h
      have hown' := ihElse helse
      have hle' := hown'.le
      cases h
      refine ⟨by omega, fun k hk => ?_⟩
      simp only [List.cons_append, List.append_assoc, Flow.refs_append, refs_branch, refs_jump,
        refs_mark, refs_nil, List.append_nil, List.mem_cons, List.mem_append,
        NodeLabel.alloc.injEq] at hk
      obtain hk | hk | hk | hk := hk
      · exact .inl ⟨by omega, by omega⟩
      · exact (hown.refs k hk).imp_left fun hin => ⟨by omega, by omega⟩
      · exact .inl ⟨by omega, by omega⟩
      · exact (hown'.refs k hk).imp_left fun hin => ⟨by omega, by omega⟩
  | iteration init test postTest iter statement ih =>
    obtain ⟨⟨body, m⟩, hbody, h⟩ := Option.bind_eq_some_iff.mp h
    have hown := ih hbody
    have hle := hown.le
    cases h
    refine ⟨by omega, fun k hk => .inl ?_⟩
    simp only [List.cons_append, List.append_assoc, Flow.refs_append, refs_mark, refs_evals,
      List.nil_append, List.mem_append] at hk
    obtain hk | hk | hk := hk
    · cases refs_tests _ test _ hk
      exact ⟨by omega, by omega⟩
    · cases hown.refs k hk with
      | inl hin => exact ⟨by omega, hin.2⟩
      | inr hloop =>
        obtain ⟨p, hp, hk⟩ := hloop
        cases hp
        exact ⟨by omega, by omega⟩
    · have heq : k = labels := by
        cases postTest with
        | none => exact NodeLabel.alloc.inj (List.mem_singleton.mp hk)
        | some e => exact NodeLabel.alloc.inj (List.mem_singleton.mp hk)
      exact ⟨by omega, by omega⟩
  | compound decls statements ihDecls ihStatements =>
    obtain ⟨⟨declCode, m⟩, hdecls, h⟩ := Option.bind_eq_some_iff.mp h
    obtain ⟨⟨body, m'⟩, hbody, h⟩ := Option.bind_eq_some_iff.mp h
    cases h
    exact (ihDecls hdecls).append (ihStatements hbody)
  | labelStatement node name statement ih =>
    obtain ⟨⟨body, m⟩, hbody, h⟩ := Option.bind_eq_some_iff.mp h
    cases h
    exact ⟨(ih hbody).le, (ih hbody).refs⟩
  | jump node continueFlag target =>
    cases target with
    | some target =>
      cases h
      refine .none fun k hk => ?_
      cases List.mem_singleton.mp hk
    | none =>
      obtain ⟨p, rfl, h⟩ := Option.bind_eq_some_iff.mp h
      cases h
      refine ⟨Nat.le_refl _, fun k hk => .inr ⟨p, rfl, ?_⟩⟩
      have heq := NodeLabel.alloc.inj (List.mem_singleton.mp hk)
      cases continueFlag with
      | true => exact .inl heq
      | false => exact .inr heq
  | cons node next ih ihNext =>
    rw [Node.cgStatement] at h
    split at h
    · cases h
    · obtain ⟨⟨body, m⟩, hbody, h⟩ := Option.bind_eq_some_iff.mp h
      obtain ⟨⟨more, m'⟩, hmore, h⟩ := Option.bind_eq_some_iff.mp h
      cases h
      exact (ih hbody).append (ihNext hmore)

end Labels

/-! ## The end of the code -/

/-- No selection without an `else` and no empty block stands where the last statement is looked
for. -/
def Node.noGap : Node → Bool
  | .selection _ thenPart elsePart => elsePart ≠ .null && thenPart.noGap && elsePart.noGap
  | .compound decls statements =>
    if statements ≠ .nil then statements.noGap else decls ≠ .nil && decls.noGap
  | .labelStatement _ _ statement => statement.noGap
  | .cons node next => if next ≠ .nil then next.noGap else node.noGap
  | _ => true

section End

variable {before place code : List Action} {i : Action}

theorem not_reaches_behind (hfalls : actionFalls i = false) (hmark : actionMark i = none) :
    ¬ actionFlow.Reaches (before ++ i :: place) place := by
  intro h
  cases Flow.reaches_behind h with
  | inl hfall => exact Bool.false_ne_true (hfalls.symm.trans hfall.2)
  | inr hjump =>
    obtain ⟨l, j, rest, hl, -⟩ := hjump
    cases hmark.symm.trans hl

variable {loop : Option (Nat × Nat)} {labels labels' : Nat}

/-- The end of a selection is reached from its two parts only. -/
theorem not_reaches_selection {e : Expression} {thenCode elseCode : List Action} {m : Nat}
    {prog : List Action}
    (hprog : prog = before ++ .branch e false (.alloc labels) :: thenCode ++ .jump (.alloc m) ::
      .mark (.alloc labels) :: (elseCode ++ .mark (.alloc m) :: place))
    (hthen : ¬ actionFlow.Reaches prog
      (.jump (.alloc m) :: .mark (.alloc labels) :: (elseCode ++ .mark (.alloc m) :: place)))
    (helse : ¬ actionFlow.Reaches prog (.mark (.alloc m) :: place))
    (hm : m ≠ labels) (hbefore : .alloc m ∉ actionFlow.refs before)
    (hplace : .alloc m ∉ actionFlow.refs place) (hthenRefs : .alloc m ∉ actionFlow.refs thenCode)
    (helseRefs : .alloc m ∉ actionFlow.refs elseCode) : ¬ actionFlow.Reaches prog place := by
  intro h
  have hend : prog = (before ++ .branch e false (.alloc labels) :: thenCode ++ .jump (.alloc m) ::
      .mark (.alloc labels) :: elseCode) ++ .mark (.alloc m) :: place := by
    simp [hprog]
  have hbehind := Flow.reaches_behind (hend ▸ h)
  rw [← hend] at hbehind
  cases hbehind with
  | inl hfall => exact helse hfall.1
  | inr hjump =>
    obtain ⟨l, j, rest, hl, htarget, hreaches⟩ := hjump
    cases hl
    have hfront : .alloc m ∉ actionFlow.refs
        (before ++ .branch e false (.alloc labels) :: thenCode) := by
      simp [Flow.refs_append, hbefore, hthenRefs, hm]
    have hback : .alloc m ∉ actionFlow.refs
        (.mark (.alloc labels) :: (elseCode ++ .mark (.alloc m) :: place)) := by
      simp [Flow.refs_append, helseRefs, hplace]
    have hsuffix := Flow.suffix_of_reaches hreaches
    rw [hprog] at hsuffix
    rw [Flow.eq_of_ref hfront hback hsuffix htarget] at hreaches
    exact hthen hreaches

/-- Code that refers to none of the labels from `labels` on. -/
def Unnamed (labels labels' : Nat) (code : List Action) : Prop :=
  ∀ k, labels ≤ k → k < labels' → .alloc k ∉ actionFlow.refs code

/-- The labels of the loop around are older. -/
def OlderLoop (loop : Option (Nat × Nat)) (labels : Nat) : Prop :=
  ∀ p, loop = some p → p.1 < labels ∧ p.2 < labels

theorem OlderLoop.mono (h : OlderLoop loop labels) (hle : labels ≤ labels') :
    OlderLoop loop labels' :=
  fun p hp => ⟨(h p hp).1.trans_le hle, (h p hp).2.trans_le hle⟩

theorem Unnamed.mono {l l' : Nat} (h : Unnamed l l' code) (hle : l ≤ labels) (hle' : labels' ≤ l') :
    Unnamed labels labels' code :=
  fun k hk hk' => h k (hle.trans hk) (hk'.trans_le hle')

theorem Unnamed.append {rest : List Action} (h : Unnamed labels labels' code)
    (hrest : Unnamed labels labels' rest) : Unnamed labels labels' (code ++ rest) := by
  intro k hk hk'
  rw [Flow.refs_append, List.mem_append, not_or]
  exact ⟨h k hk hk', hrest k hk hk'⟩

/-- Code refers to no labels that were allocated for other code. -/
theorem OwnLabels.fresh {l l' : Nat} (h : OwnLabels loop l l' code) (hloop : OlderLoop loop labels)
    (hapart : labels' ≤ l ∨ l' ≤ labels) : Unnamed labels labels' code := by
  intro k hk hk' hmem
  cases h.refs k hmem with
  | inl hin => omega
  | inr hloop' =>
    obtain ⟨p, hp, hpk⟩ := hloop'
    have hlt := hloop p hp
    omega

/-- What the check lets pass, without a gap, does not go on to what stands behind it. -/
theorem not_reaches_place {node : Node} (hcheck : checkLastStatementReturn node = some true)
    (hgap : node.noGap = true) (hcg : Node.cgStatement loop node labels = some (code, labels'))
    (hloop : OlderLoop loop labels) (hbefore : Unnamed labels labels' before)
    (hplace : Unnamed labels labels' place) :
    ¬ actionFlow.Reaches (before ++ code ++ place) place := by
  induction node generalizing loop labels labels' code before place with
  | null | declaration | arrayTypeDecl | typeDecl | iteration | jump | nil => cases hcheck
  | returnStatement e =>
    cases hcg
    rw [List.append_assoc]
    exact not_reaches_behind rfl rfl
  | expressionStatement e =>
    have hexits : e.exits = true := Option.some.inj hcheck
    cases hcg
    rw [List.append_assoc]
    refine not_reaches_behind ?_ rfl
    show (!e.exits) = false
    rw [hexits]
    rfl
  | labelStatement n name statement ih =>
    obtain ⟨⟨body, m⟩, hbody, hcg⟩ := Option.bind_eq_some_iff.mp hcg
    cases hcg
    have hmark : Unnamed labels labels' [.mark (.statement name)] := fun k _ _ => List.not_mem_nil
    have hbody := ih hcheck hgap hbody hloop (hbefore.append hmark) hplace
    rw [List.append_assoc before] at hbody
    exact hbody
  | selection e thenPart elsePart ihThen ihElse =>
    rw [Node.noGap, Bool.and_eq_true, Bool.and_eq_true, decide_eq_true_eq] at hgap
    obtain ⟨⟨hne, hgapThen⟩, hgapElse⟩ := hgap
    obtain ⟨b, hb, hcheck⟩ := Option.bind_eq_some_iff.mp hcheck
    obtain ⟨⟨thenCode, m⟩, hthen, hcg⟩ := Option.bind_eq_some_iff.mp hcg
    dsimp only at hcg
    rw [if_neg hne] at hcg
    obtain ⟨⟨elseCode, m'⟩, helse, hcg⟩ := Option.bind_eq_some_iff.mp hcg
    cases hcg
    cases b with
    | false => cases hcheck
    | true =>
      have hcheckElse : checkLastStatementReturn elsePart = some true := by
        simpa [hne] using hcheck
      have hown := ownLabels_cgStatement hthen
      have hown' := ownLabels_cgStatement helse
      have hle := hown.le
      have hle' := hown'.le
      have hfreshBefore : ∀ {l l'}, labels ≤ l → l' ≤ m' → Unnamed l l' before :=
        fun hl hl' => hbefore.mono hl hl'
      have hfreshPlace : ∀ {l l'}, labels ≤ l → l' ≤ m' → Unnamed l l' place :=
        fun hl hl' => hplace.mono hl hl'
      have hrefsThen : Unnamed m m' thenCode := hown.fresh (hloop.mono (by omega)) (.inr (by omega))
      have hrefsElse : Unnamed (labels + 1) (m + 1) elseCode :=
        hown'.fresh (hloop.mono (by omega)) (.inl (by omega))
      have hbranch : ∀ {l l'}, labels < l → Unnamed l l' [.branch e false (.alloc labels)] := by
        intro l l' hl k hk _ hmem
        cases List.mem_singleton.mp hmem
        omega
      have hjump : ∀ {l l'}, (m < l ∨ l' ≤ m) →
          Unnamed l l' [.jump (.alloc m), .mark (.alloc labels)] := by
        intro l l' hl k hk hk' hmem
        cases List.mem_singleton.mp hmem
        omega
      have hend : ∀ {l l'}, Unnamed l l' [.mark (.alloc m)] := fun k _ _ => List.not_mem_nil
      have hprog : before ++ (.branch e false (.alloc labels) :: thenCode ++ .jump (.alloc m) ::
          .mark (.alloc labels) :: elseCode ++ [.mark (.alloc m)]) ++ place =
          before ++ .branch e false (.alloc labels) :: thenCode ++ .jump (.alloc m) ::
            .mark (.alloc labels) :: (elseCode ++ .mark (.alloc m) :: place) := by
        simp
      refine not_reaches_selection hprog ?_ ?_ (by omega) ?_ ?_ ?_ ?_
      · have hreach := ihThen hb hgapThen hthen (hloop.mono (Nat.le_succ _))
          ((hfreshBefore (Nat.le_succ _) (by omega)).append (hbranch (Nat.lt_succ_self _)))
          ((hjump (.inr (Nat.le_refl _))).append
            (((hrefsElse.mono (Nat.le_refl _) (Nat.le_succ _)).append hend).append
              (hfreshPlace (Nat.le_succ _) (by omega))))
        simpa using hreach
      · have hreach := ihElse hcheckElse hgapElse helse (hloop.mono (by omega))
          (((hfreshBefore (by omega) (Nat.le_refl _)).append (hbranch (by omega))).append
            ((hrefsThen.mono (Nat.le_succ _) (Nat.le_refl _)).append (hjump (.inl (by omega)))))
          (hend.append (hfreshPlace (by omega) (Nat.le_refl _)))
        simpa using hreach
      · exact hbefore m (by omega) (by omega)
      · exact hplace m (by omega) (by omega)
      · exact hrefsThen m (Nat.le_refl _) (by omega)
      · exact hrefsElse m (by omega) (Nat.lt_succ_self _)
  | compound decls statements ihDecls ihStatements =>
    obtain ⟨⟨declCode, m⟩, hdecls, hcg⟩ := Option.bind_eq_some_iff.mp hcg
    obtain ⟨⟨body, m'⟩, hbody, hcg⟩ := Option.bind_eq_some_iff.mp hcg
    cases hcg
    have hle := (ownLabels_cgStatement hdecls).le
    have hle' := (ownLabels_cgStatement hbody).le
    by_cases hnil : statements = .nil
    · subst hnil
      cases hbody
      rw [List.append_nil]
      rw [Node.noGap, if_neg (not_not_intro rfl), Bool.and_eq_true, decide_eq_true_eq] at hgap
      rw [checkLastStatementReturn, if_neg (not_not_intro rfl), if_pos hgap.1] at hcheck
      exact ihDecls hcheck hgap.2 hdecls hloop hbefore hplace
    · rw [Node.noGap, if_pos hnil] at hgap
      rw [checkLastStatementReturn, if_pos hnil] at hcheck
      have hdeclCode : Unnamed m labels' declCode :=
        (ownLabels_cgStatement hdecls).fresh (hloop.mono hle) (.inr (Nat.le_refl _))
      have hreach := ihStatements hcheck hgap hbody (hloop.mono hle)
        ((hbefore.mono hle (Nat.le_refl _)).append hdeclCode) (hplace.mono hle (Nat.le_refl _))
      rw [List.append_assoc before] at hreach
      exact hreach
  | cons node next ih ihNext =>
    rw [Node.cgStatement] at hcg
    split at hcg
    · cases hcg
    · next hnull =>
      obtain ⟨⟨body, m⟩, hbody, hcg⟩ := Option.bind_eq_some_iff.mp hcg
      obtain ⟨⟨more, m'⟩, hmore, hcg⟩ := Option.bind_eq_some_iff.mp hcg
      cases hcg
      have hle := (ownLabels_cgStatement hbody).le
      by_cases hnil : next = .nil
      · subst hnil
        cases hmore
        rw [List.append_nil]
        rw [Node.noGap, if_neg (not_not_intro rfl)] at hgap
        rw [checkLastStatementReturn, if_neg (not_not_intro rfl), if_neg hnull] at hcheck
        exact ih hcheck hgap hbody hloop hbefore hplace
      · rw [Node.noGap, if_pos hnil] at hgap
        rw [checkLastStatementReturn, if_pos hnil] at hcheck
        have hbodyCode : Unnamed m labels' body :=
          (ownLabels_cgStatement hbody).fresh (hloop.mono hle) (.inr (Nat.le_refl _))
        have hreach := ihNext hcheck hgap hmore (hloop.mono hle)
          ((hbefore.mono hle (Nat.le_refl _)).append hbodyCode) (hplace.mono hle (Nat.le_refl _))
        rw [List.append_assoc before] at hreach
        exact hreach

end End

/-- Where an execution goes. -/
theorem reaches_of_steps {meanings : Meanings S} {prog rest : List Action} {s s' : S}
    (h : Relation.ReflTransGen (fun a b => executeStep meanings prog a = some b)
      (.at prog s) (.at rest s')) : actionFlow.Reaches prog rest := by
  generalize hplace : Execution.at rest s' = place at h
  induction h generalizing rest s' with
  | refl =>
    cases hplace
    exact .refl
  | tail _ hstep ih =>
    cases hplace
    rename_i b _
    cases b with
    | ended s => cases hstep
    | «at» code s =>
      refine (ih rfl).tail ?_
      cases code with
      | nil => cases hstep
      | cons i code =>
        cases i with
        | decl node =>
          cases hstep
          exact .fall rfl
        | eval e =>
          rw [executeStep] at hstep
          split at hstep
          · cases hstep
          · next hexits =>
            cases hstep
            exact .fall (Bool.not_eq_true' _ ▸ Bool.eq_false_iff.mpr hexits)
        | branch e sense target =>
          rw [executeStep] at hstep
          dsimp only at hstep
          split at hstep
          · obtain ⟨code', hbehind, heq⟩ := Option.map_eq_some_iff.mp hstep
            cases heq
            exact .jump List.mem_cons_self hbehind
          · cases hstep
            exact .fall rfl
        | jump target =>
          obtain ⟨code', hbehind, heq⟩ := Option.map_eq_some_iff.mp hstep
          cases heq
          exact .jump List.mem_cons_self hbehind
        | mark l =>
          cases hstep
          exact .fall rfl
        | ret e => cases hstep

/-! ## NULL statements -/

/-- What the check takes for an end in a return statement. -/
def Node.endsInReturn : Node → Bool
  | .selection _ thenPart elsePart =>
    thenPart.endsInReturn && (elsePart = .null || elsePart.endsInReturn)
  | .compound decls statements =>
    if statements ≠ .nil then statements.endsInReturn else decls = .nil || decls.endsInReturn
  | .returnStatement _ => true
  | .expressionStatement e => e.exits
  | .labelStatement _ _ statement => statement.endsInReturn
  | .cons node next => if next ≠ .nil then next.endsInReturn else node.endsInReturn
  | _ => false

/-- No NULL statement is a part of a selection or behind a label where the check looks.  A missing
`else` is none, and it is not looked for behind a part that does not end in a return. -/
def Node.nonNull : Node → Bool
  | .null | .nil => false
  | .selection _ thenPart elsePart =>
    thenPart.nonNull && (!thenPart.endsInReturn || elsePart = .null || elsePart.nonNull)
  | .compound decls statements =>
    if statements ≠ .nil then statements.nonNull else decls = .nil || decls.nonNull
  | .labelStatement _ _ statement => statement.nonNull
  | .cons node next => if next ≠ .nil then next.nonNull else node = .null || node.nonNull
  | _ => true

theorem checkLastStatementReturn_eq (node : Node) :
    checkLastStatementReturn node = if node.nonNull then some node.endsInReturn else none := by
  induction node with
  | null | declaration | arrayTypeDecl | typeDecl | iteration | jump | nil | returnStatement
  | expressionStatement => rfl
  | labelStatement n name statement ih => exact ih
  | selection e thenPart elsePart ihThen ihElse =>
    rw [checkLastStatementReturn, ihThen, ihElse, Node.nonNull, Node.endsInReturn]
    cases thenPart.nonNull with
    | false => rfl
    | true =>
      cases thenPart.endsInReturn with
      | false => rfl
      | true => by_cases hnull : elsePart = .null <;> simp [hnull]
  | compound decls statements ihDecls ihStatements =>
    rw [checkLastStatementReturn, ihDecls, ihStatements, Node.nonNull, Node.endsInReturn]
    by_cases hnil : statements = .nil
    · by_cases hdecls : decls = .nil <;> simp [hnil, hdecls]
    · simp [hnil]
  | cons node next ih ihNext =>
    rw [checkLastStatementReturn, ih, ihNext, Node.nonNull, Node.endsInReturn]
    by_cases hnil : next = .nil
    · by_cases hnull : node = .null
      · subst hnull
        simp [hnil, Node.endsInReturn]
      · simp [hnil, hnull]
    · simp [hnil]

/-! ## The check is right without gaps -/

theorem not_reachesEnd {contextDecls body : Node} {ret : Bool} {code : List Action} {labels : Nat}
    (hgap : body.noGap = true)
    (hcheck : requireLastReturn ret (.function contextDecls body) = some true)
    (hcg : Node.cgStatement none (.function contextDecls body) 0 = some (code, labels))
    (meanings : Meanings S) (s : S) : ¬ ReachesEnd meanings code s := by
  rintro ⟨s', hsteps⟩
  have hreaches : actionFlow.Reaches ([] ++ code ++ []) [] := by
    rw [List.nil_append, List.append_nil]
    exact reaches_of_steps hsteps
  refine not_reaches_place ?_ ?_ hcg (fun p hp => by cases hp) (fun k _ _ => List.not_mem_nil)
    (fun k _ _ => List.not_mem_nil) hreaches
  · change (if ret then checkLastStatementReturn (.cons body .nil) else some false) = some true
      at hcheck
    rw [Node.function, checkLastStatementReturn, if_pos (by simp)]
    cases ret with
    | true => exact hcheck
    | false => cases hcheck
  · rw [Node.function, Node.noGap, if_pos (by simp), Node.noGap, if_neg (not_not_intro rfl)]
    exact hgap

/-- Behind a body that is accepted and has no gap no execution goes on, and the check comes to an
answer unless it meets a NULL statement. -/
theorem return_check (contextDecls body : Node) (ret : Bool) :
    (body.noGap = true → requireLastReturn ret (.function contextDecls body) = some true →
      ∀ code labels, Node.cgStatement none (.function contextDecls body) 0 = some (code, labels) →
        ∀ (meanings : Meanings S) (s : S), ¬ ReachesEnd meanings code s) ∧
    ((checkLastStatementReturn body).isSome = true ↔ body.nonNull = true) := by
  refine ⟨fun hgap hcheck code labels hcg => not_reachesEnd hgap hcheck hcg, ?_⟩
  rw [checkLastStatementReturn_eq]
  split
  · next h => exact iff_of_true rfl h
  · next h => exact iff_of_false (fun h' => by cases h') h

def flag : Expression := ⟨0, none⟩

/-- `{ if (flag) return flag; else abort(); }` -/
def bothParts : Node :=
  .compound (.cons (.selection flag (.returnStatement (some flag))
    (.expressionStatement ⟨1, some abortName⟩)) .nil) .nil

theorem return_check_bothParts (meanings : Meanings S) (s : S) : ∃ code labels,
    Node.cgStatement none (.function .nil bothParts) 0 = some (code, labels) ∧
      ¬ ReachesEnd meanings code s :=
  ⟨_, _, rfl, (return_check .nil bothParts true).1 rfl rfl _ _ rfl meanings s⟩

/-- `{ if (flag) return flag; }` -/
def noElse : Node :=
  .compound (.cons (.selection flag (.returnStatement (some flag)) .null) .nil) .nil

/-- A flag that is zero. -/
def clearFlag : Meanings Unit := ⟨fun _ _ => (), fun _ _ => (), fun _ _ => (false, ())⟩

/-- `{ if (flag) return flag; }` is accepted and its code runs to its end, and the check follows
the NULL statement of `if (flag) ; else return flag;`. -/
theorem noElse_passes :
    requireLastReturn true (.function .nil noElse) = some true ∧
    (∃ code labels, Node.cgStatement none (.function .nil noElse) 0 = some (code, labels) ∧
      ReachesEnd clearFlag code ()) ∧
    checkLastStatementReturn (.selection flag .null (.returnStatement (some flag))) = none := by
  refine ⟨rfl, ⟨_, _, rfl, (), ?_⟩, rfl⟩
  exact .single rfl

end Cod
end FFS
