import FFS.Cod.Follows

/-!
# Runs of a program

Every step of C on the plain way is followed by the code, and so is every run.
-/

namespace FFS
namespace Cod

open Machine

section Steps

variable {prog : Code} {ret : Option IntType} {k : Cont} {σ : Store} {code : Code} {regs : Regs}
  {st' : State}

/-- Behind a statement, control goes on with what comes behind. -/
theorem follows_behind {p : Program} (hlabels : ∀ n, marks (.alloc n) prog ≤ 1)
    (hat : AtStatement prog p.returnCgType .empty k code) (hagree : Agree σ regs)
    (hstep : cStep p (.run .empty k σ) = some st')
    (hplain : plainStep p (.run .empty k σ) = true) :
    Reaches prog (.at code regs) (Follows prog p.returnCgType st') := by
  obtain ⟨loop, c, q, rest, hq, hleads, hbehind⟩ := hat
  cases hq
  cases hbehind with
  | done => cases hstep
  | next hcode hnext hbehind =>
    cases hstep
    have hat : AtStatement prog p.returnCgType _ _ code :=
      ⟨_, _, _, _, hcode, hleads.trans hnext, hbehind⟩
    exact .here (.run hat.atRun hagree)
  | @loop test post iter s k l loop rest hloop hnext hbehind =>
    simp only [cStep, Option.bind_eq_bind, Option.bind_eq_some_iff] at hstep
    obtain ⟨σ₁, hσ₁, ⟨again, σ₂⟩, hcondition, hst'⟩ := hstep
    rw [plainStep, hσ₁, Option.all_some, Bool.and_eq_true] at hplain
    obtain ⟨c₃, hiter⟩ := hloop.iter
    obtain ⟨c₄, hback⟩ := hloop.back
    refine (runs_optional hlabels hiter hσ₁ hplain.1 hagree).reaches (hleads.trans hnext)
      fun regs₁ h₁ => ?_
    have hsuffix := suffix_of_append (hleads.trans hnext).suffix
    refine (branches_back hlabels hback hcondition hplain.2 h₁).reaches (.refl hsuffix)
      (fun _ => hloop.atBegin) fun regs₂ h₂ => .here ?_
    cases hst'
    have hend := suffix_of_append hsuffix
    cases again with
    | true => exact .test hloop hbehind (.refl (findLabel_suffix hloop.atBegin)) h₂
    | false => exact follows_empty (hbehind.of_goesTo (.mark hend)) hend h₂

theorem follows_declaration {p : Program} (hlabels : ∀ n, marks (.alloc n) prog ≤ 1) {d : Decl}
    {e : Option Expr} (hat : AtStatement prog p.returnCgType (.declaration d e) k code)
    (hagree : Agree σ regs) (hstep : cStep p (.run (.declaration d e) k σ) = some st')
    (hplain : plainStep p (.run (.declaration d e) k σ) = true) :
    Reaches prog (.at code regs) (Follows prog p.returnCgType st') := by
  obtain ⟨loop, c, q, rest, hq, hleads, hbehind⟩ := hat
  cases e with
  | none =>
    cases hq
    cases hstep
    have hat : AtStatement prog p.returnCgType .empty k code :=
      ⟨loop, c, ⟨[], c⟩, rest, rfl, hleads, hbehind⟩
    exact .here (.run hat (hagree.unset d))
  | some e =>
    obtain ⟨value, coerced, hvalue, hcoerced, rfl⟩ := cgStatement_declaration hq
    obtain ⟨a, ha, rfl⟩ := Option.map_eq_some_iff.mp hstep
    rw [plainStep, Bool.and_eq_true] at hplain
    have hrange := inRange_code (sameType_of_plain hplain.1 ha) (inRange_meaning ha)
    have hrun : Runs prog (value.code ++ (coerced.code ++
        [.mov d.cgType (.oprnd d) coerced.reg])) regs (Agree (a.store.set d a.value)) := by
      refine ((computesExpr hlabels e).value σ a ha hplain.1 c value regs hvalue hagree).append
        fun regs₁ h₁ => ?_
      refine (h₁.coerce hcoerced hplain.2 hrange).append fun regs₂ h₂ => .mov (.nil ?_)
      rw [h₂.value, IntType.wrap_wrap]
      exact h₂.agree.set d a.value
    exact hrun.reaches hleads fun regs' h' =>
      .here (follows_empty hbehind (suffix_of_append hleads.suffix) h')

/-- The code has nothing for a constant variable. -/
theorem follows_constDeclaration {p : Program} {d : ConstDecl} {e : Option Expr}
    (hat : AtStatement prog p.returnCgType (.constDeclaration d e) k code)
    (hagree : Agree σ regs) (hstep : cStep p (.run (.constDeclaration d e) k σ) = some st')
    (hplain : plainStep p (.run (.constDeclaration d e) k σ) = true) :
    Reaches prog (.at code regs) (Follows prog p.returnCgType st') := by
  obtain ⟨loop, c, q, rest, hq, hleads, hbehind⟩ := hat
  cases hq
  have hat : AtStatement prog p.returnCgType .empty k code :=
    ⟨loop, c, ⟨[], c⟩, rest, rfl, hleads, hbehind⟩
  cases e with
  | none =>
    cases hstep
    exact .here (.run hat hagree)
  | some e =>
    obtain ⟨a, ha, rfl⟩ := Option.map_eq_some_iff.mp hstep
    have hrestores : a.restores σ = true := after_of hplain ha
    exact .here (.run hat fun d' v hd' =>
      hagree d' v ((value_of_restores ha hrestores d').symm.trans hd'))

theorem follows_expression {p : Program} (hlabels : ∀ n, marks (.alloc n) prog ≤ 1) {e : Expr}
    (hat : AtStatement prog p.returnCgType (.expression e) k code) (hagree : Agree σ regs)
    (hstep : cStep p (.run (.expression e) k σ) = some st')
    (hplain : plainStep p (.run (.expression e) k σ) = true) :
    Reaches prog (.at code regs) (Follows prog p.returnCgType st') := by
  obtain ⟨loop, c, q, rest, hq, hleads, hbehind⟩ := hat
  obtain ⟨value, hvalue, rfl⟩ := cgStatement_expression hq
  obtain ⟨a, ha, rfl⟩ := Option.map_eq_some_iff.mp hstep
  have hrun := (computesExpr hlabels e).value σ a ha hplain c value regs hvalue hagree
  exact hrun.reaches hleads fun regs' h' =>
    .here (follows_empty hbehind (suffix_of_append hleads.suffix) h'.agree)

theorem follows_return {p : Program} (hlabels : ∀ n, marks (.alloc n) prog ≤ 1)
    {e : Option Expr} (hat : AtStatement prog p.returnCgType (.return e) k code)
    (hagree : Agree σ regs) (hstep : cStep p (.run (.return e) k σ) = some st')
    (hplain : plainStep p (.run (.return e) k σ) = true) :
    Reaches prog (.at code regs) (Follows prog p.returnCgType st') := by
  obtain ⟨loop, c, q, rest, hq, hleads, hbehind⟩ := hat
  have hq' : cgReturn p.returnCgType e c = some q := hq
  have hreturn : returnMeaning p.returnCgType e σ = some st' := hstep
  rw [plainStep] at hplain
  cases hret : p.returnCgType with
  | none =>
    rw [hret] at hq' hreturn
    cases e with
    | none =>
      cases hq'
      cases hreturn
      have hstep : step prog (.at (.reti 0 :: rest) regs) = some (.returned 0 regs) := rfl
      exact ⟨_, (hleads.steps regs).tail hstep, .returned (fun _ h => nomatch h) hagree⟩
    | some e => cases hreturn
  | some t =>
    rw [hret] at hq' hreturn hplain
    cases e with
    | none => cases hreturn
    | some e =>
      obtain ⟨value, coerced, hvalue, hcoerced, rfl⟩ := cgReturn_some hq'
      obtain ⟨a, ha, rfl⟩ := Option.map_eq_some_iff.mp hreturn
      rw [Option.all_some, Option.all_some, Bool.and_eq_true] at hplain
      have hrange := inRange_code (sameType_of_plain hplain.1 ha) (inRange_meaning ha)
      have hrun : Runs prog (value.code ++ coerced.code) regs fun regs' =>
          Agree a.store regs' ∧ regs' coerced.reg = t.wrap a.value := by
        refine ((computesExpr hlabels e).value σ a ha hplain.1 c value regs hvalue
          hagree).append fun regs₁ h₁ => ?_
        exact (h₁.coerce hcoerced hplain.2 hrange).mono fun regs₂ h₂ => ⟨h₂.agree, h₂.value⟩
      have hcode : GoesTo prog code ((value.code ++ coerced.code) ++
          .ret t coerced.reg :: rest) := by
        have hleads' := hleads
        simp only [List.append_assoc, List.cons_append, List.nil_append] at hleads' ⊢
        exact hleads'
      refine hrun.reaches hcode fun regs' h' => .step rfl (.here ?_)
      rw [h'.2, IntType.wrap_wrap]
      exact .returned (fun w hw => Option.some.inj hw) h'.1

theorem follows_selection {p : Program} (hlabels : ∀ n, marks (.alloc n) prog ≤ 1) {e : Expr}
    {thenPart elsePart : Stmt}
    (hat : AtStatement prog p.returnCgType (.selection e thenPart elsePart) k code)
    (hagree : Agree σ regs) (hstep : cStep p (.run (.selection e thenPart elsePart) k σ) = some st')
    (hplain : plainStep p (.run (.selection e thenPart elsePart) k σ) = true) :
    Reaches prog (.at code regs) (Follows prog p.returnCgType st') := by
  obtain ⟨loop, c, q, rest, hq, hleads, hbehind⟩ := hat
  obtain ⟨a, ha, rfl⟩ := Option.map_eq_some_iff.mp hstep
  have hback : false = true → branchesBack e σ = true := fun h => nomatch h
  have hcond := (computesExpr hlabels e).branch (.alloc c.labels) false σ a ha hplain hback
  rw [beq_false] at hcond
  by_cases hempty : elsePart = .empty
  · subst hempty
    obtain ⟨branch, p₁, hbranch, h₁, rfl⟩ := cgStatement_selection_empty hq
    simp only [List.append_assoc, List.cons_append, List.nil_append] at hleads
    have hthen := suffix_of_append hleads.suffix
    have hend := suffix_of_append hthen
    refine (hcond _ branch regs hbranch hagree).reaches hleads
      (fun _ => findLabel_alloc hlabels hend) fun regs' h' => .here ?_
    by_cases hne : a.value ≠ 0
    · have hat : AtStatement prog p.returnCgType thenPart k _ :=
        ⟨loop, _, p₁, _, h₁, .refl hthen, hbehind.of_goesTo (.mark hend)⟩
      rw [decide_eq_true hne, if_pos hne]
      exact .run hat.atRun h'.agree
    · rw [decide_eq_false hne, if_neg hne]
      exact follows_empty hbehind (GoesTo.mark hend).suffix h'.agree
  · obtain ⟨branch, p₁, p₂, hbranch, h₁, h₂, rfl⟩ := cgStatement_selection hempty hq
    simp only [List.append_assoc, List.cons_append, List.nil_append] at hleads
    have hthen := suffix_of_append hleads.suffix
    have hjump := suffix_of_append hthen
    have hmark := (List.suffix_cons _ _).trans hjump
    have helse := (List.suffix_cons _ _).trans hmark
    have hend := suffix_of_append helse
    refine (hcond _ branch regs hbranch hagree).reaches hleads
      (fun _ => findLabel_alloc hlabels hmark) fun regs' h' => .here ?_
    by_cases hne : a.value ≠ 0
    · have hat : AtStatement prog p.returnCgType thenPart k _ :=
        ⟨loop, _, p₁, _, h₁, .refl hthen,
          hbehind.of_goesTo (.jump (findLabel_alloc hlabels hend))⟩
      rw [decide_eq_true hne, if_pos hne]
      exact .run hat.atRun h'.agree
    · have hat : AtStatement prog p.returnCgType elsePart k _ :=
        ⟨loop, _, p₂, _, h₂, .refl helse, hbehind.of_goesTo (.mark hend)⟩
      rw [decide_eq_false hne, if_neg hne]
      exact .run hat.atRun h'.agree

theorem follows_iteration {p : Program} (hlabels : ∀ n, marks (.alloc n) prog ≤ 1)
    {init test post iter : Option Expr} {s : Stmt}
    (hat : AtStatement prog p.returnCgType (.iteration init test post iter s) k code)
    (hagree : Agree σ regs) (hstep : cStep p (.run (.iteration init test post iter s) k σ) =
      some st')
    (hplain : plainStep p (.run (.iteration init test post iter s) k σ) = true) :
    Reaches prog (.at code regs) (Follows prog p.returnCgType st') := by
  obtain ⟨loop, c, q, rest, hq, hleads, hbehind⟩ := hat
  obtain ⟨σ₁, hσ₁, rfl⟩ := Option.map_eq_some_iff.mp hstep
  obtain ⟨p₀, p₁, p₂, p₃, p₄, h₀, h₁, h₂, h₃, h₄, rfl⟩ := cgStatement_iteration hq
  simp only [List.append_assoc, List.cons_append, List.nil_append] at hleads
  have hbegin := suffix_of_append hleads.suffix
  have hloop := loopAt_of_code hlabels h₁ h₂ h₃ h₄ hbegin
  refine (runs_optional hlabels h₀ hσ₁ hplain hagree).reaches hleads fun regs' h' => ?_
  exact .here (.test hloop hbehind (.mark hbegin) h')

/-- A loop at its test. -/
theorem follows_test {p : Program} (hlabels : ∀ n, marks (.alloc n) prog ≤ 1)
    {test post iter : Option Expr} {s : Stmt} {l : LoopCode} {loop : Option Loop}
    (hloop : LoopAt prog p.returnCgType test post iter s l)
    (hbehind : Behind prog p.returnCgType k loop l.rest) (hleads : GoesTo prog code l.beginCode)
    (hagree : Agree σ regs) (hstep : cStep p (.test test post iter s k σ) = some st')
    (hplain : plainStep p (.test test post iter s k σ) = true) :
    Reaches prog (.at code regs) (Follows prog p.returnCgType st') := by
  obtain ⟨⟨again, σ₁⟩, hcondition, rfl⟩ := Option.map_eq_some_iff.mp hstep
  obtain ⟨c₁, htest⟩ := hloop.test
  obtain ⟨c₂, hbody⟩ := hloop.body
  have hsuffix := suffix_of_append hleads.suffix
  have hiter := suffix_of_append hsuffix
  refine (branches_test hlabels htest hcondition hplain hagree).reaches hleads
    (fun _ => hloop.atEnd) fun regs' h' => .here ?_
  cases again with
  | true =>
    have hat : AtStatement prog p.returnCgType s (.loop test post iter s k) _ :=
      ⟨some l.labels, c₂, l.body, _, hbody, .refl hsuffix, .loop hloop (.mark hiter) hbehind⟩
    exact .run hat.atRun h'
  | false => exact follows_empty hbehind (findLabel_suffix hloop.atEnd) h'

theorem follows_goto {p : Program} (hlabels : ∀ n, marks (.alloc n) prog ≤ 1)
    (hprog : codCgNet p = some prog) {name : Nat}
    (hat : AtStatement prog p.returnCgType (.goto name) k code) (hagree : Agree σ regs)
    (hstep : cStep p (.run (.goto name) k σ) = some st') :
    Reaches prog (.at code regs) (Follows prog p.returnCgType st') := by
  obtain ⟨loop, c, q, rest, hq, hleads, -⟩ := hat
  cases hq
  obtain ⟨⟨s, k'⟩, hfound, rfl⟩ := Option.map_eq_some_iff.mp hstep
  obtain ⟨body, hbody, rfl⟩ := Option.map_eq_some_iff.mp hprog
  have hdone : Behind body.code p.returnCgType .done none [] :=
    .done (.refl List.nil_suffix)
  have hall : body.code ++ [] <:+ body.code := by simp only [List.append_nil, List.suffix_rfl]
  obtain ⟨target, htarget, hat⟩ := findLabel_named hlabels hbody hall hdone hfound
  rw [List.append_nil] at htarget
  have hjump := hleads.trans (.jump htarget)
  exact ⟨_, hjump.steps regs, .run hat.atRun hagree⟩

/-- `continue` goes out to the innermost loop. -/
theorem follows_continue {p : Program}
    (hat : AtExit prog p.returnCgType Loop.iterLabel k code) (hagree : Agree σ regs)
    (hstep : cStep p (.run .continue k σ) = some st') :
    Reaches prog (.at code regs) (Follows prog p.returnCgType st') := by
  obtain ⟨labels, rest, behind, hbehind, hfind, hleads⟩ := hat
  cases k with
  | done => cases hstep
  | next s k =>
    cases hstep
    cases hbehind with
    | next _ _ hbehind =>
      have hat : AtExit prog p.returnCgType Loop.iterLabel k code :=
        ⟨labels, _, behind, hbehind, hfind, hleads⟩
      exact .here (.run hat hagree)
  | loop test post iter s k =>
    cases hstep
    cases hbehind with
    | @loop _ _ _ _ _ l _ _ hloop _ hbehind =>
      cases hfind.symm.trans hloop.atIter
      exact ⟨_, hleads.steps regs, follows_empty (.loop hloop (.refl hleads.suffix) hbehind)
        hleads.suffix hagree⟩

/-- `break` goes out behind the innermost loop. -/
theorem follows_break {p : Program}
    (hat : AtExit prog p.returnCgType Loop.endLabel k code) (hagree : Agree σ regs)
    (hstep : cStep p (.run .break k σ) = some st') :
    Reaches prog (.at code regs) (Follows prog p.returnCgType st') := by
  obtain ⟨labels, rest, behind, hbehind, hfind, hleads⟩ := hat
  cases k with
  | done => cases hstep
  | next s k =>
    cases hstep
    cases hbehind with
    | next _ _ hbehind =>
      have hat : AtExit prog p.returnCgType Loop.endLabel k code :=
        ⟨labels, _, behind, hbehind, hfind, hleads⟩
      exact .here (.run hat hagree)
  | loop test post iter s k =>
    cases hstep
    cases hbehind with
    | @loop _ _ _ _ _ l _ _ hloop _ hbehind =>
      cases hfind.symm.trans hloop.atEnd
      exact ⟨_, hleads.steps regs, follows_empty hbehind hleads.suffix hagree⟩

/-- A step of C on the plain way is followed by the code. -/
theorem follows_step {p : Program} (hprog : codCgNet p = some prog)
    (hlabels : ∀ n, marks (.alloc n) prog ≤ 1) {st : State} {m : Config Reg Label}
    (h : Follows prog p.returnCgType st m) (hstep : cStep p st = some st')
    (hplain : plainStep p st = true) : Reaches prog m (Follows prog p.returnCgType st') := by
  cases h with
  | returned => cases hstep
  | test hloop hbehind hleads hagree =>
    exact follows_test hlabels hloop hbehind hleads hagree hstep hplain
  | @run s k σ code regs hat hagree =>
    cases s with
    | empty => exact follows_behind hlabels hat hagree hstep hplain
    | seq item next =>
      obtain ⟨loop, c, q, rest, hq, hleads, hbehind⟩ := hat
      obtain ⟨p₁, p₂, h₁, h₂, rfl⟩ := cgStatement_seq hq
      cases hstep
      rw [List.append_assoc] at hleads
      have hrest := suffix_of_append hleads.suffix
      have hat : AtStatement prog p.returnCgType item (.next next k) code :=
        ⟨loop, c, p₁, _, h₁, hleads, .next h₂ (.refl hrest) hbehind⟩
      exact .here (.run hat.atRun hagree)
    | compound list =>
      obtain ⟨loop, c, q, rest, hq, hleads, hbehind⟩ := hat
      cases hstep
      have hat : AtStatement prog p.returnCgType list k code :=
        ⟨loop, c, q, rest, hq, hleads, hbehind⟩
      exact .here (.run hat.atRun hagree)
    | declaration d e => exact follows_declaration hlabels hat hagree hstep hplain
    | constDeclaration d e => exact follows_constDeclaration hat hagree hstep hplain
    | expression e => exact follows_expression hlabels hat hagree hstep hplain
    | selection e thenPart elsePart =>
      exact follows_selection hlabels hat hagree hstep hplain
    | iteration init test post iter s => exact follows_iteration hlabels hat hagree hstep hplain
    | label name s =>
      obtain ⟨loop, c, q, rest, hq, hleads, hbehind⟩ := hat
      obtain ⟨p₁, h₁, rfl⟩ := cgStatement_label hq
      cases hstep
      have hat : AtStatement prog p.returnCgType s k code :=
        ⟨loop, c, p₁, rest, h₁, hleads.trans (.mark hleads.suffix), hbehind⟩
      exact .here (.run hat.atRun hagree)
    | goto name => exact follows_goto hlabels hprog hat hagree hstep
    | «continue» => exact follows_continue hat hagree hstep
    | «break» => exact follows_break hat hagree hstep
    | «return» e => exact follows_return hlabels hat hagree hstep hplain

end Steps

end Cod
end FFS
