import FFS.Cod.Evaluated
import FFS.Cod.Statements

/-!
# The code follows the program

A simulation: each step that C takes is followed by the code, as long as the steps are plain.
The machine is where the code of the statement is, or on the way to it without a change of the
registers, and behind that code is the code of what comes behind the statement.
-/

namespace FFS
namespace Cod

open Machine

/-! ## Where control is -/

/-- The parts of an iteration statement's code, from its beginning on. -/
structure LoopCode where
  labels : Loop
  begin : Label
  test : Piece
  body : Piece
  iter : Piece
  back : Piece
  rest : Code

namespace LoopCode

def iterCode (l : LoopCode) : Code :=
  l.iter.code ++ (l.back.code ++ .mark l.labels.endLabel :: l.rest)

def beginCode (l : LoopCode) : Code :=
  l.test.code ++ (l.body.code ++ .mark l.labels.iterLabel :: l.iterCode)

end LoopCode

/-- The loop has this code, at its labels. -/
structure LoopAt (prog : Code) (ret : Option IntType) (test post iter : Option Expr) (s : Stmt)
    (l : LoopCode) : Prop where
  test : ∃ c, branchOptional test l.labels.endLabel false c = some l.test
  body : ∃ c, cgStatement ret s (some l.labels) c = some l.body
  iter : ∃ c, cgOptional iter c = some l.iter
  back : ∃ c, cgBack post l.begin c = some l.back
  atBegin : findLabel l.begin prog = some l.beginCode
  atIter : findLabel l.labels.iterLabel prog = some l.iterCode
  atEnd : findLabel l.labels.endLabel prog = some l.rest

/-- What comes behind a statement is the code `rest`, in a loop with the labels `loop`. -/
inductive Behind (prog : Code) (ret : Option IntType) : Cont → Option Loop → Code → Prop where
  | done {rest : Code} (hleads : GoesTo prog rest []) : Behind prog ret .done none rest
  | next {s : Stmt} {k : Cont} {loop : Option Loop} {c : Counts} {p : Piece} {rest rest' : Code}
      (hcode : cgStatement ret s loop c = some p) (hleads : GoesTo prog rest (p.code ++ rest'))
      (hbehind : Behind prog ret k loop rest') : Behind prog ret (.next s k) loop rest
  | loop {test post iter : Option Expr} {s : Stmt} {k : Cont} {l : LoopCode}
      {loop : Option Loop} {rest : Code} (hloop : LoopAt prog ret test post iter s l)
      (hleads : GoesTo prog rest l.iterCode) (hbehind : Behind prog ret k loop l.rest) :
      Behind prog ret (.loop test post iter s k) (some l.labels) rest

/-- Control is at the code of a statement. -/
def AtStatement (prog : Code) (ret : Option IntType) (s : Stmt) (k : Cont) (code : Code) : Prop :=
  ∃ loop c p rest, cgStatement ret s loop c = some p ∧ GoesTo prog code (p.code ++ rest) ∧
    Behind prog ret k loop rest

/-- Control is on the way to a label of the innermost loop. -/
def AtExit (prog : Code) (ret : Option IntType) (label : Loop → Label) (k : Cont)
    (code : Code) : Prop :=
  ∃ loop rest behind, Behind prog ret k (some loop) rest ∧
    findLabel (label loop) prog = some behind ∧ GoesTo prog code behind

def AtRun (prog : Code) (ret : Option IntType) (s : Stmt) (k : Cont) (code : Code) : Prop :=
  match s with
  | .continue => AtExit prog ret Loop.iterLabel k code
  | .break => AtExit prog ret Loop.endLabel k code
  | s => AtStatement prog ret s k code

/-- The machine is where the program is, and the variables have the same values. -/
inductive Follows (prog : Code) (ret : Option IntType) : State → Config Reg Label → Prop where
  | run {s : Stmt} {k : Cont} {σ : Store} {code : Code} {regs : Regs}
      (hat : AtRun prog ret s k code) (hagree : Agree σ regs) :
      Follows prog ret (.run s k σ) (.at code regs)
  | test {test post iter : Option Expr} {s : Stmt} {k : Cont} {l : LoopCode}
      {loop : Option Loop} {σ : Store} {code : Code} {regs : Regs}
      (hloop : LoopAt prog ret test post iter s l) (hbehind : Behind prog ret k loop l.rest)
      (hleads : GoesTo prog code l.beginCode) (hagree : Agree σ regs) :
      Follows prog ret (.test test post iter s k σ) (.at code regs)
  | returned {value : Option Int} {σ : Store} {v : Int} {regs : Regs}
      (hvalue : ∀ w, value = some w → v = w) (hagree : Agree σ regs) :
      Follows prog ret (.returned value σ) (.returned v regs)

section Places

variable {prog : Code} {ret : Option IntType} {k : Cont} {loop : Option Loop} {s : Stmt}
  {rest rest' code : Code}

theorem Behind.of_goesTo (h : Behind prog ret k loop rest') (hleads : GoesTo prog rest rest') :
    Behind prog ret k loop rest := by
  cases h with
  | done hleads' => exact .done (hleads.trans hleads')
  | next hcode hleads' hbehind => exact .next hcode (hleads.trans hleads') hbehind
  | loop hloop hleads' hbehind => exact .loop hloop (hleads.trans hleads') hbehind

/-- The labels of the innermost loop are in the program. -/
theorem Behind.labels {labels : Loop} (h : Behind prog ret k loop rest)
    (hlabels : loop = some labels) :
    (∃ code, findLabel labels.iterLabel prog = some code) ∧
      ∃ code, findLabel labels.endLabel prog = some code := by
  induction h with
  | done => cases hlabels
  | next _ _ _ ih => exact ih hlabels
  | loop hloop =>
    cases hlabels
    exact ⟨⟨_, hloop.atIter⟩, _, hloop.atEnd⟩

theorem AtStatement.atRun (h : AtStatement prog ret s k code) : AtRun prog ret s k code := by
  cases s with
  | «continue» =>
    obtain ⟨loop, c, p, rest, hp, hleads, hbehind⟩ := h
    obtain ⟨labels, hloop, rfl⟩ := Option.map_eq_some_iff.mp hp
    subst hloop
    obtain ⟨⟨behind, hfind⟩, -⟩ := hbehind.labels rfl
    exact ⟨labels, rest, behind, hbehind, hfind, hleads.trans (.jump hfind)⟩
  | «break» =>
    obtain ⟨loop, c, p, rest, hp, hleads, hbehind⟩ := h
    obtain ⟨labels, hloop, rfl⟩ := Option.map_eq_some_iff.mp hp
    subst hloop
    obtain ⟨-, behind, hfind⟩ := hbehind.labels rfl
    exact ⟨labels, rest, behind, hbehind, hfind, hleads.trans (.jump hfind)⟩
  | _ => exact h

/-- Nothing is left of the statement. -/
theorem atStatement_empty (hbehind : Behind prog ret k loop rest) (h : rest <:+ prog) :
    AtStatement prog ret .empty k rest := ⟨loop, ⟨0, 0⟩, ⟨[], ⟨0, 0⟩⟩, rest, rfl, .refl h, hbehind⟩

theorem follows_empty {σ : Store} {regs : Regs} (hbehind : Behind prog ret k loop rest)
    (h : rest <:+ prog) (hagree : Agree σ regs) :
    Follows prog ret (.run .empty k σ) (.at rest regs) := .run (atStatement_empty hbehind h) hagree

/-- A label that a generator allocated is where it was marked. -/
theorem findLabel_alloc (hlabels : ∀ n, marks (.alloc n) prog ≤ 1) {n : Nat}
    (h : .mark (.alloc n) :: rest <:+ prog) : findLabel (.alloc n) prog = some rest :=
  findLabel_of_suffix h (hlabels n)

end Places

/-! ## Loops -/

/-- The code of an iteration statement behind its first expression. -/
theorem loopAt_of_code {prog : Code} {ret : Option IntType}
    (hlabels : ∀ n, marks (.alloc n) prog ≤ 1) {test post iter : Option Expr} {s : Stmt}
    {n n' n'' : Nat} {c₁ c₂ c₃ c₄ : Counts} {p₁ p₂ p₃ p₄ : Piece} {rest : Code}
    (h₁ : branchOptional test (.alloc n') false c₁ = some p₁)
    (h₂ : cgStatement ret s (some ⟨.alloc n'', .alloc n'⟩) c₂ = some p₂)
    (h₃ : cgOptional iter c₃ = some p₃) (h₄ : cgBack post (.alloc n) c₄ = some p₄)
    (hsuffix : .mark (.alloc n) :: (p₁.code ++ (p₂.code ++ (.mark (.alloc n'') ::
      (p₃.code ++ (p₄.code ++ .mark (.alloc n') :: rest))))) <:+ prog) :
    LoopAt prog ret test post iter s ⟨⟨.alloc n'', .alloc n'⟩, .alloc n, p₁, p₂, p₃, p₄, rest⟩ := by
  have htest : p₁.code ++ (p₂.code ++ (.mark (.alloc n'') :: (p₃.code ++ (p₄.code ++
      .mark (.alloc n') :: rest)))) <:+ prog := (List.suffix_cons _ _).trans hsuffix
  have hiter : .mark (.alloc n'') :: (p₃.code ++ (p₄.code ++ .mark (.alloc n') :: rest)) <:+
      prog := suffix_of_append (suffix_of_append htest)
  have hend : .mark (.alloc n') :: rest <:+ prog :=
    suffix_of_append (suffix_of_append ((List.suffix_cons _ _).trans hiter))
  exact ⟨⟨c₁, h₁⟩, ⟨c₂, h₂⟩, ⟨c₃, h₃⟩, ⟨c₄, h₄⟩, findLabel_alloc hlabels hsuffix,
    findLabel_alloc hlabels hiter, findLabel_alloc hlabels hend⟩

section Conditions

variable {prog : Code} {σ σ' : Store} {e : Option Expr} {c : Counts} {p : Piece} {regs : Regs}

theorem runs_optional (hlabels : ∀ n, marks (.alloc n) prog ≤ 1) (hp : cgOptional e c = some p)
    (h : effects e σ = some σ') (hplain : plainOptional e σ = true) (hagree : Agree σ regs) :
    Runs prog p.code regs (Agree σ') := by
  cases e with
  | none =>
    cases hp
    cases h
    exact .nil hagree
  | some e =>
    obtain ⟨o, ho, rfl⟩ := Option.map_eq_some_iff.mp hp
    obtain ⟨a, ha, rfl⟩ := Option.map_eq_some_iff.mp h
    exact ((computesExpr hlabels e).value σ a ha hplain c o regs ho hagree).mono
      fun regs' h' => h'.agree

/-- The test of a loop leaves it when the condition is false. -/
theorem branches_test (hlabels : ∀ n, marks (.alloc n) prog ≤ 1) {target : Label} {again : Bool}
    (hp : branchOptional e target false c = some p) (h : condition e σ = some (again, σ'))
    (hplain : plainOptional e σ = true) (hagree : Agree σ regs) :
    Branches prog p.code target (!again) regs (Agree σ') := by
  cases e with
  | none =>
    cases hp
    cases h
    exact .nil hagree
  | some e =>
    obtain ⟨a, ha, heq⟩ := Option.map_eq_some_iff.mp h
    cases heq
    have hback : false = true → branchesBack e σ = true := fun h => nomatch h
    have hbranch := (computesExpr hlabels e).branch target false σ a ha hplain hback c p regs hp
      hagree
    rw [beq_false] at hbranch
    exact hbranch.mono fun regs' h' => h'.agree

/-- The end of a loop goes back when the condition behind is true. -/
theorem branches_back (hlabels : ∀ n, marks (.alloc n) prog ≤ 1) {begin : Label} {again : Bool}
    (hp : cgBack e begin c = some p) (h : condition e σ = some (again, σ'))
    (hplain : (e.all fun e => plain e σ && branchesBack e σ) = true) (hagree : Agree σ regs) :
    Branches prog p.code begin again regs (Agree σ') := by
  cases e with
  | none =>
    cases hp
    cases h
    exact .jump hagree
  | some e =>
    obtain ⟨a, ha, heq⟩ := Option.map_eq_some_iff.mp h
    cases heq
    rw [Option.all_some, Bool.and_eq_true] at hplain
    have hbranch := (computesExpr hlabels e).branch begin true σ a ha hplain.1 (fun _ => hplain.2)
      c p regs hp hagree
    rw [beq_true] at hbranch
    exact hbranch.mono fun regs' h' => h'.agree

end Conditions

/-! ## Labels of the program -/

theorem labelCount_of_findStatement {name : Nat} {s : Stmt} {k : Cont}
    (h : findStatement name s k = none) : s.labelCount name = 0 := by
  induction s generalizing k with
  | seq item rest ih ih' =>
    rw [findStatement] at h
    split at h
    · cases h
    · next hitem => rw [Stmt.labelCount, ih hitem, ih' h]
  | compound list ih => exact ih h
  | selection e thenPart elsePart ih ih' =>
    rw [findStatement] at h
    split at h
    · cases h
    · next hthen => rw [Stmt.labelCount, ih hthen, ih' h]
  | iteration init test post iter s ih => exact ih h
  | label name' s ih =>
    rw [findStatement] at h
    split at h
    · cases h
    · next hne => rw [Stmt.labelCount, if_neg hne, ih h]
  | _ => rfl

/-- A label is where C finds it. -/
theorem findLabel_named {prog : Code} {ret : Option IntType}
    (hlabels : ∀ n, marks (.alloc n) prog ≤ 1) {name : Nat} {s s' : Stmt} {k k' : Cont}
    {loop : Option Loop} {c : Counts} {p : Piece} {rest : Code}
    (hp : cgStatement ret s loop c = some p) (hsuffix : p.code ++ rest <:+ prog)
    (hbehind : Behind prog ret k loop rest) (h : findStatement name s k = some (s', k')) :
    ∃ code, findLabel (.named name) (p.code ++ rest) = some code ∧
      AtStatement prog ret s' k' code := by
  induction s generalizing k loop c p rest with
  | seq item next ih ih' =>
    obtain ⟨p₁, p₂, h₁, h₂, rfl⟩ := cgStatement_seq hp
    rw [List.append_assoc] at hsuffix ⊢
    have hrest : p₂.code ++ rest <:+ prog := suffix_of_append hsuffix
    rw [findStatement] at h
    split at h
    · next found hitem =>
      cases h
      exact ih h₁ hsuffix (.next h₂ (.refl hrest) hbehind) hitem
    · next hitem =>
      have hnone : marks (.named name) p₁.code = 0 :=
        ((fresh_cgStatement h₁).named name).trans (labelCount_of_findStatement hitem)
      rw [findLabel_append hnone]
      exact ih' h₂ hrest hbehind h
  | compound list ih => exact ih hp hsuffix hbehind h
  | selection e thenPart elsePart ih ih' =>
    by_cases hempty : elsePart = .empty
    · subst hempty
      obtain ⟨branch, p₁, hbranch, h₁, rfl⟩ := cgStatement_selection_empty hp
      have hnone : marks (.named name) branch.code = 0 :=
        ((freshExpr e).branch _ _ _ _ hbranch).named name
      simp only [List.append_assoc] at hsuffix ⊢
      rw [findLabel_append hnone]
      have hthen := suffix_of_append hsuffix
      rw [findStatement] at h
      split at h
      · next found hfound =>
        cases h
        exact ih h₁ hthen (hbehind.of_goesTo (.mark (suffix_of_append hthen))) hfound
      · cases h
    · obtain ⟨branch, p₁, p₂, hbranch, h₁, h₂, rfl⟩ := cgStatement_selection hempty hp
      have hnone : marks (.named name) branch.code = 0 :=
        ((freshExpr e).branch _ _ _ _ hbranch).named name
      simp only [List.append_assoc, List.cons_append] at hsuffix ⊢
      rw [findLabel_append hnone]
      have hthen := suffix_of_append hsuffix
      have hjump := suffix_of_append hthen
      have helse := (List.suffix_cons _ _).trans ((List.suffix_cons _ _).trans hjump)
      have hend := suffix_of_append helse
      have hleads := GoesTo.mark hend
      rw [findStatement] at h
      split at h
      · next found hfound =>
        cases h
        exact ih h₁ hthen (hbehind.of_goesTo (.jump (findLabel_alloc hlabels hend))) hfound
      · next hthenPart =>
        have hskip : marks (.named name) p₁.code = 0 :=
          ((fresh_cgStatement h₁).named name).trans (labelCount_of_findStatement hthenPart)
        rw [findLabel_append hskip]
        exact ih' h₂ helse (hbehind.of_goesTo hleads) h
  | iteration init test post iter s ih =>
    obtain ⟨p₀, p₁, p₂, p₃, p₄, h₀, h₁, h₂, h₃, h₄, rfl⟩ := cgStatement_iteration hp
    have hinit : marks (.named name) p₀.code = 0 := (fresh_cgOptional h₀).named name
    have htest : marks (.named name) p₁.code = 0 := (fresh_branchOptional h₁).named name
    simp only [List.append_assoc, List.cons_append] at hsuffix ⊢
    rw [findLabel_append hinit]
    have hbegin := suffix_of_append hsuffix
    have hloop := loopAt_of_code hlabels h₁ h₂ h₃ h₄ hbegin
    have hbody := suffix_of_append ((List.suffix_cons _ _).trans hbegin)
    have hiter := suffix_of_append hbody
    have hfound := ih h₂ hbody (.loop hloop (.mark hiter) hbehind) h
    show ∃ code, findLabel (.named name) (p₁.code ++ _) = some code ∧ _
    rw [findLabel_append htest]
    exact hfound
  | label name' s ih =>
    obtain ⟨p₁, h₁, rfl⟩ := cgStatement_label hp
    have hstatement : p₁.code ++ rest <:+ prog := (List.suffix_cons _ _).trans hsuffix
    show ∃ code, (if Label.named name' = .named name then some (p₁.code ++ rest) else
      findLabel (.named name) (p₁.code ++ rest)) = some code ∧ _
    rw [findStatement] at h
    split at h
    · next heq =>
      cases h
      rw [if_pos (congrArg Label.named heq)]
      exact ⟨_, rfl, loop, c, p₁, rest, h₁, .refl hstatement, hbehind⟩
    · next hne =>
      rw [if_neg fun heq => hne (Label.named.inj heq)]
      exact ih h₁ hstatement hbehind h
  | _ => cases h

end Cod
end FFS
