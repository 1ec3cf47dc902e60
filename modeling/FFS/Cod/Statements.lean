import FFS.Cod.FreshLabels
import FFS.Cod.Meaning

/-!
# The code of statements

What the code of each statement is made of, and that the labels in it are marked once.
-/

namespace FFS
namespace Cod

open Machine

section Inversion

variable {ret : Option IntType} {loop : Option Loop} {c : Counts} {p : Piece}

theorem cgStatement_seq {item rest : Stmt} (h : cgStatement ret (.seq item rest) loop c = some p) :
    ∃ p₁ p₂, cgStatement ret item loop c = some p₁ ∧
      cgStatement ret rest loop p₁.next = some p₂ ∧ p = ⟨p₁.code ++ p₂.code, p₂.next⟩ := by
  simp only [cgStatement, Option.bind_eq_bind, Option.bind_eq_some_iff, Option.some.injEq] at h
  obtain ⟨p₁, h₁, p₂, h₂, hp⟩ := h
  exact ⟨p₁, p₂, h₁, h₂, hp.symm⟩

theorem cgStatement_declaration {d : Decl} {e : Expr}
    (h : cgStatement ret (.declaration d (some e)) loop c = some p) :
    ∃ value coerced, cgExpr e c = some value ∧
      coerceType value.next value.reg d.cgType e.codSmGetType = some coerced ∧
      p = ⟨value.code ++ (coerced.code ++ [.mov d.cgType (.oprnd d) coerced.reg]),
        coerced.next⟩ := by
  simp only [cgStatement, Option.bind_eq_bind, Option.bind_eq_some_iff, Option.some.injEq] at h
  obtain ⟨value, hvalue, coerced, hcoerced, hp⟩ := h
  exact ⟨value, coerced, hvalue, hcoerced, hp.symm⟩

theorem cgStatement_expression {e : Expr} (h : cgStatement ret (.expression e) loop c = some p) :
    ∃ value, cgExpr e c = some value ∧ p = value.toPiece := by
  obtain ⟨value, hvalue, hp⟩ := Option.map_eq_some_iff.mp h
  exact ⟨value, hvalue, hp.symm⟩

/-- Without an else part. -/
theorem cgStatement_selection_empty {e : Expr} {thenPart : Stmt}
    (h : cgStatement ret (.selection e thenPart .empty) loop c = some p) :
    ∃ branch p₁, cgBranchIfFalse e (.alloc c.labels) false c.allocLabel = some branch ∧
      cgStatement ret thenPart loop branch.next = some p₁ ∧
      p = ⟨branch.code ++ (p₁.code ++ [.mark (.alloc c.labels)]), p₁.next⟩ := by
  simp only [cgStatement, Option.bind_eq_bind, Option.bind_eq_some_iff, Option.some.injEq] at h
  obtain ⟨branch, hbranch, p₁, h₁, hp⟩ := h
  exact ⟨branch, p₁, hbranch, h₁, hp.symm⟩

theorem cgStatement_selection {e : Expr} {thenPart elsePart : Stmt} (hne : elsePart ≠ .empty)
    (h : cgStatement ret (.selection e thenPart elsePart) loop c = some p) :
    ∃ branch p₁ p₂, cgBranchIfFalse e (.alloc c.labels) false c.allocLabel = some branch ∧
      cgStatement ret thenPart loop branch.next = some p₁ ∧
      cgStatement ret elsePart loop p₁.next.allocLabel = some p₂ ∧
      p = ⟨branch.code ++ (p₁.code ++ (.jump (.alloc p₁.next.labels) ::
        .mark (.alloc c.labels) :: (p₂.code ++ [.mark (.alloc p₁.next.labels)]))), p₂.next⟩ := by
  rw [cgStatement] at h
  · simp only [Option.bind_eq_bind, Option.bind_eq_some_iff, Option.some.injEq] at h
    obtain ⟨branch, hbranch, p₁, h₁, p₂, h₂, hp⟩ := h
    exact ⟨branch, p₁, p₂, hbranch, h₁, h₂, hp.symm⟩
  · exact hne

theorem cgStatement_iteration {init test post iter : Option Expr} {s : Stmt}
    (h : cgStatement ret (.iteration init test post iter s) loop c = some p) :
    ∃ p₀ p₁ p₂ p₃ p₄, cgOptional init c.allocLabel.allocLabel.allocLabel = some p₀ ∧
      branchOptional test (.alloc (c.labels + 1)) false p₀.next = some p₁ ∧
      cgStatement ret s (some ⟨.alloc (c.labels + 2), .alloc (c.labels + 1)⟩) p₁.next = some p₂ ∧
      cgOptional iter p₂.next = some p₃ ∧ cgBack post (.alloc c.labels) p₃.next = some p₄ ∧
      p = ⟨p₀.code ++ (.mark (.alloc c.labels) :: (p₁.code ++ (p₂.code ++
        (.mark (.alloc (c.labels + 2)) :: (p₃.code ++ (p₄.code ++
          [.mark (.alloc (c.labels + 1))])))))), p₄.next⟩ := by
  simp only [cgStatement, Option.bind_eq_bind, Option.bind_eq_some_iff, Option.some.injEq] at h
  obtain ⟨p₀, h₀, p₁, h₁, p₂, h₂, p₃, h₃, p₄, h₄, hp⟩ := h
  exact ⟨p₀, p₁, p₂, p₃, p₄, h₀, h₁, h₂, h₃, h₄, hp.symm⟩

theorem cgStatement_label {name : Nat} {s : Stmt}
    (h : cgStatement ret (.label name s) loop c = some p) :
    ∃ p₁, cgStatement ret s loop c = some p₁ ∧
      p = ⟨.mark (.named name) :: p₁.code, p₁.next⟩ := by
  simp only [cgStatement, Option.bind_eq_bind, Option.bind_eq_some_iff, Option.some.injEq] at h
  obtain ⟨p₁, h₁, hp⟩ := h
  exact ⟨p₁, h₁, hp.symm⟩

theorem cgReturn_some {t : IntType} {e : Expr} (h : cgReturn (some t) (some e) c = some p) :
    ∃ value coerced, cgExpr e c = some value ∧
      coerceType value.next value.reg t e.codSmGetType = some coerced ∧
      p = ⟨value.code ++ (coerced.code ++ [.ret t coerced.reg]), coerced.next⟩ := by
  simp only [cgReturn, Option.bind_eq_bind, Option.bind_eq_some_iff, Option.some.injEq] at h
  obtain ⟨value, hvalue, coerced, hcoerced, hp⟩ := h
  exact ⟨value, coerced, hvalue, hcoerced, hp.symm⟩

end Inversion

/-! ## Labels -/

/-- The number of label statements with a name. -/
def Stmt.labelCount (name : Nat) : Stmt → Nat
  | .seq item rest => item.labelCount name + rest.labelCount name
  | .compound list => list.labelCount name
  | .selection _ thenPart elsePart => thenPart.labelCount name + elsePart.labelCount name
  | .iteration _ _ _ _ s => s.labelCount name
  | .label name' s => (if name' = name then 1 else 0) + s.labelCount name
  | .empty | .declaration _ _ | .constDeclaration _ _ | .expression _ | .goto _ | .continue
  | .break | .return _ => 0

theorem fresh_cgOptional {e : Option Expr} {c : Counts} {p : Piece}
    (h : cgOptional e c = some p) : Fresh noNames c p := by
  cases e with
  | none =>
    cases h
    exact .unmarked (fun _ => rfl) (Nat.le_refl _) (Nat.le_refl _)
  | some e =>
    obtain ⟨o, ho, rfl⟩ := Option.map_eq_some_iff.mp h
    exact (freshExpr e).value c o ho

theorem fresh_branchOptional {e : Option Expr} {target : Label} {reverse : Bool} {c : Counts}
    {p : Piece} (h : branchOptional e target reverse c = some p) : Fresh noNames c p := by
  cases e with
  | none =>
    cases h
    exact .unmarked (fun _ => rfl) (Nat.le_refl _) (Nat.le_refl _)
  | some e => exact (freshExpr e).branch target reverse c p h

theorem fresh_cgBack {e : Option Expr} {begin : Label} {c : Counts} {p : Piece}
    (h : cgBack e begin c = some p) : Fresh noNames c p := by
  cases e with
  | none =>
    cases h
    exact .unmarked (fun _ => rfl) (Nat.le_refl _) (Nat.le_refl _)
  | some e => exact (freshExpr e).branch begin true c p h

theorem fresh_cgReturn {ret : Option IntType} {e : Option Expr} {c : Counts} {p : Piece}
    (h : cgReturn ret e c = some p) : Fresh noNames c p := by
  cases ret with
  | none =>
    cases h
    exact .unmarked (fun _ => rfl) (Nat.le_refl _) (Nat.le_refl _)
  | some t =>
    cases e with
    | none => cases h
    | some e =>
      obtain ⟨value, coerced, hvalue, hcoerced, rfl⟩ := cgReturn_some h
      exact ((freshExpr e).value c value hvalue).seq ((fresh_coerceType hcoerced).seq
        (.unmarked (fun _ => rfl) (Nat.le_refl _) (Nat.le_refl _)))

theorem fresh_cgStatement {ret : Option IntType} {s : Stmt} {loop : Option Loop} {c : Counts}
    {p : Piece} (h : cgStatement ret s loop c = some p) :
    Fresh (fun name => s.labelCount name) c p := by
  induction s generalizing loop c p with
  | empty =>
    cases h
    exact .unmarked (fun _ => rfl) (Nat.le_refl _) (Nat.le_refl _)
  | seq item rest ih ih' =>
    obtain ⟨p₁, p₂, h₁, h₂, rfl⟩ := cgStatement_seq h
    exact (ih h₁).append (ih' h₂)
  | compound list ih => exact ih h
  | declaration d e =>
    cases e with
    | none =>
      cases h
      exact .unmarked (fun _ => rfl) (Nat.le_refl _) (Nat.le_refl _)
    | some e =>
      obtain ⟨value, coerced, hvalue, hcoerced, rfl⟩ := cgStatement_declaration h
      exact ((freshExpr e).value c value hvalue).seq ((fresh_coerceType hcoerced).seq
        (.unmarked (fun _ => rfl) (Nat.le_refl _) (Nat.le_refl _)))
  | constDeclaration d e =>
    cases h
    exact .unmarked (fun _ => rfl) (Nat.le_refl _) (Nat.le_refl _)
  | expression e =>
    obtain ⟨value, hvalue, rfl⟩ := cgStatement_expression h
    exact (freshExpr e).value c value hvalue
  | selection e thenPart elsePart ih ih' =>
    by_cases hempty : elsePart = .empty
    · subst hempty
      obtain ⟨branch, p₁, hbranch, h₁, rfl⟩ := cgStatement_selection_empty h
      have hcode : Fresh (fun name => thenPart.labelCount name) c.allocLabel
          ⟨branch.code ++ p₁.code, p₁.next⟩ :=
        ((freshExpr e).branch _ _ _ _ hbranch).front (ih h₁)
      refine hcode.labelled (k := 1) fun l => ?_
      simp only [marks, marks_append, newLabels, once, Nat.add_zero]
      omega
    · obtain ⟨branch, p₁, p₂, hbranch, h₁, h₂, rfl⟩ := cgStatement_selection hempty h
      have helse : Fresh (fun name => elsePart.labelCount name) p₁.next
          ⟨p₂.code ++ [.mark (.alloc p₁.next.labels)], p₂.next⟩ := by
        refine (ih' h₂).labelled (k := 1) fun l => ?_
        simp only [marks, marks_append, newLabels, once, Nat.add_zero]
        omega
      have hcode : Fresh (fun name => thenPart.labelCount name + elsePart.labelCount name)
          c.allocLabel ⟨branch.code ++ (p₁.code ++ (p₂.code ++ [.mark (.alloc p₁.next.labels)])),
            p₂.next⟩ :=
        ((freshExpr e).branch _ _ _ _ hbranch).front ((ih h₁).append helse)
      refine hcode.labelled (k := 1) fun l => ?_
      simp only [marks, marks_append, newLabels, once, Nat.add_zero]
      omega
  | iteration init test post iter s ih =>
    obtain ⟨p₀, p₁, p₂, p₃, p₄, h₀, h₁, h₂, h₃, h₄, rfl⟩ := cgStatement_iteration h
    have hcode : Fresh (fun name => s.labelCount name) c.allocLabel.allocLabel.allocLabel
        ⟨p₀.code ++ (p₁.code ++ (p₂.code ++ (p₃.code ++ p₄.code))), p₄.next⟩ :=
      (fresh_cgOptional h₀).front ((fresh_branchOptional h₁).front ((ih h₂).append
        ((fresh_cgOptional h₃).seq (fresh_cgBack h₄))))
    refine hcode.labelled (k := 3) fun l => ?_
    simp only [marks, marks_append, newLabels, once, Nat.add_zero]
    omega
  | label name s ih =>
    obtain ⟨p₁, h₁, rfl⟩ := cgStatement_label h
    have hfresh : Fresh (fun name => s.labelCount name) c ⟨p₁.code, p₁.next⟩ := ih h₁
    have hmark : Fresh (fun name' => if name = name' then 1 else 0) c
        ⟨[.mark (.named name)], c⟩ := by
      refine ⟨Nat.le_refl _, Nat.le_refl _, fun n => Nat.zero_le _, fun name' => ?_⟩
      show (if Label.named name = .named name' then 1 else 0) + 0 = if name = name' then 1 else 0
      simp only [Label.named.injEq, Nat.add_zero]
    exact hmark.append hfresh
  | goto target =>
    cases h
    exact .unmarked (fun _ => rfl) (Nat.le_refl _) (Nat.le_refl _)
  | «continue» =>
    obtain ⟨loop, -, rfl⟩ := Option.map_eq_some_iff.mp h
    exact .unmarked (fun _ => rfl) (Nat.le_refl _) (Nat.le_refl _)
  | «break» =>
    obtain ⟨loop, -, rfl⟩ := Option.map_eq_some_iff.mp h
    exact .unmarked (fun _ => rfl) (Nat.le_refl _) (Nat.le_refl _)
  | «return» e => exact fresh_cgReturn h

end Cod
end FFS
