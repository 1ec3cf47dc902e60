import FFS.Cod.Generate

/-!
# The labels of generated code

A generator marks every label that it allocates at most once, and no label that was there
before.  An expression marks no label of the program text.
-/

namespace FFS
namespace Cod

open Machine

/-- The registers and labels only get more, a label that is marked is one of the new ones, and
`names` counts the marks of the labels of the text. -/
structure Fresh (names : Nat → Nat) (c : Counts) (p : Piece) : Prop where
  regs : c.regs ≤ p.next.regs
  labels : c.labels ≤ p.next.labels
  marks : ∀ n, marks (.alloc n) p.code ≤ if c.labels ≤ n ∧ n < p.next.labels then 1 else 0
  named : ∀ name, Machine.marks (.named name) p.code = names name

/-- The number of marks of `l` in a mark of `l'`. -/
def once (l' l : Label) : Nat := if l' = l then 1 else 0

/-- How often `l` is marked if each of the next `k` labels is marked once. -/
def newLabels (c : Counts) : Nat → Label → Nat
  | 0, _ => 0
  | k + 1, l => newLabels c k l + once (.alloc (c.labels + k)) l

theorem newLabels_alloc (c : Counts) (k n : Nat) :
    newLabels c k (.alloc n) = if c.labels ≤ n ∧ n < c.labels + k then 1 else 0 := by
  induction k with
  | zero => exact (if_neg (by omega)).symm
  | succ k ih =>
    show newLabels c k (.alloc n) + (if Label.alloc (c.labels + k) = .alloc n then 1 else 0) = _
    rw [ih]
    simp only [Label.alloc.injEq]
    split <;> split <;> split <;> omega

theorem newLabels_named (c : Counts) (k name : Nat) : newLabels c k (.named name) = 0 := by
  induction k with
  | zero => rfl
  | succ k ih =>
    show newLabels c k (.named name) + 0 = 0
    rw [ih]

/-- The text has no label here. -/
def noNames : Nat → Nat := fun _ => 0

namespace Fresh

variable {names names' : Nat → Nat} {c c' c'' : Counts} {code code' : Code}

theorem append (h : Fresh names c ⟨code, c'⟩) (h' : Fresh names' c' ⟨code', c''⟩) :
    Fresh (fun name => names name + names' name) c ⟨code ++ code', c''⟩ where
  regs := h.regs.trans h'.regs
  labels := h.labels.trans h'.labels
  marks n := by
    have hl : c.labels ≤ c'.labels := h.labels
    have hl' : c'.labels ≤ c''.labels := h'.labels
    have hm : Machine.marks (.alloc n) code ≤ if c.labels ≤ n ∧ n < c'.labels then 1 else 0 :=
      h.marks n
    have hm' : Machine.marks (.alloc n) code' ≤
        if c'.labels ≤ n ∧ n < c''.labels then 1 else 0 := h'.marks n
    show Machine.marks (.alloc n) (code ++ code') ≤ if c.labels ≤ n ∧ n < c''.labels then 1 else 0
    rw [marks_append]
    split at hm <;> split at hm' <;> split <;> omega
  named name := by
    have hm : Machine.marks (.named name) code = names name := h.named name
    have hm' : Machine.marks (.named name) code' = names' name := h'.named name
    show Machine.marks (.named name) (code ++ code') = _
    rw [marks_append, hm, hm']

theorem seq (h : Fresh names c ⟨code, c'⟩) (h' : Fresh noNames c' ⟨code', c''⟩) :
    Fresh names c ⟨code ++ code', c''⟩ := h.append h'

theorem front (h : Fresh noNames c ⟨code, c'⟩) (h' : Fresh names c' ⟨code', c''⟩) :
    Fresh names c ⟨code ++ code', c''⟩ := by
  have hboth := h.append h'
  have hnames : (fun name => noNames name + names name) = names :=
    funext fun name => Nat.zero_add (names name)
  rw [hnames] at hboth
  exact hboth

/-- Code without marks. -/
theorem unmarked (h : ∀ l, Machine.marks l code = 0) (hregs : c.regs ≤ c'.regs)
    (hlabels : c.labels ≤ c'.labels) : Fresh noNames c ⟨code, c'⟩ where
  regs := hregs
  labels := hlabels
  marks n := by
    show Machine.marks (.alloc n) code ≤ _
    rw [h]
    exact Nat.zero_le _
  named name := h (.named name)

/-- New labels that are marked in between. -/
theorem labelled {k : Nat} (h : Fresh names ⟨c.regs, c.labels + k⟩ ⟨code, c'⟩)
    (hmarks : ∀ l, Machine.marks l code' = Machine.marks l code + newLabels c k l) :
    Fresh names c ⟨code', c'⟩ where
  regs := h.regs
  labels := (Nat.le_add_right _ _).trans h.labels
  marks n := by
    have hl : c.labels + k ≤ c'.labels := h.labels
    have hm : Machine.marks (.alloc n) code ≤
        if c.labels + k ≤ n ∧ n < c'.labels then 1 else 0 := h.marks n
    show Machine.marks (.alloc n) code' ≤ if c.labels ≤ n ∧ n < c'.labels then 1 else 0
    rw [hmarks, newLabels_alloc]
    split at hm <;> split <;> split <;> omega
  named name := by
    have hm : Machine.marks (.named name) code = names name := h.named name
    show Machine.marks (.named name) code' = _
    rw [hmarks, hm, newLabels_named]
    rfl

theorem getReg (h : Fresh names c.getReg ⟨code, c'⟩) : Fresh names c ⟨code, c'⟩ where
  regs := (Nat.le_succ _).trans h.regs
  labels := h.labels
  marks := h.marks
  named := h.named

end Fresh

/-! ## Expressions -/

theorem marks_coercion {ret obj : Reg} {target objType : IntType} {code : Code}
    (h : coercion ret obj target objType = some code) (l : Label) : marks l code = 0 := by
  cases target <;> cases objType <;> cases h <;> rfl

theorem marks_genBz (reg : Reg) (target l : Label) (t : IntType) :
    marks l (genBz reg target t) = 0 := by cases t <;> rfl

theorem marks_genBnz (reg : Reg) (target l : Label) (t : IntType) :
    marks l (genBnz reg target t) = 0 := by cases t <;> rfl

theorem fresh_coerceType {c : Counts} {obj : Reg} {target objType : IntType} {o : Operand}
    (h : coerceType c obj target objType = some o) : Fresh noNames c o.toPiece := by
  obtain ⟨-, rfl⟩ | ⟨-, code, hcode, rfl⟩ := coerceType_some h
  · exact .unmarked (fun _ => rfl) (Nat.le_refl _) (Nat.le_refl _)
  · exact .unmarked (marks_coercion hcode) (Nat.le_succ _) (Nat.le_refl _)

theorem fresh_prepOperand {cg : Counts → Option Operand} {cgType opType : IntType} {c : Counts}
    {o : Operand} (hcg : ∀ c o, cg c = some o → Fresh noNames c o.toPiece)
    (h : prepOperand cg cgType opType c = some o) : Fresh noNames c o.toPiece := by
  obtain ⟨value, promoted, coerced, hvalue, hpromoted, hcoerced, rfl⟩ := prepOperand_some h
  exact ((hcg _ _ hvalue).seq (fresh_coerceType hpromoted)).seq (fresh_coerceType hcoerced)

theorem fresh_branchOnCompare {op : CompareOp} {left right : Counts → Option Operand}
    {leftType rightType : IntType} {target : Label} {reverse : Bool} {c : Counts} {p : Piece}
    (hleft : ∀ c o, left c = some o → Fresh noNames c o.toPiece)
    (hright : ∀ c o, right c = some o → Fresh noNames c o.toPiece)
    (h : branchOnCompare op left right leftType rightType target reverse c = some p) :
    Fresh noNames c p := by
  obtain ⟨leftOp, rightOp, hl, hr, rfl⟩ := branchOnCompare_some h
  exact ((fresh_prepOperand hleft hl).seq (fresh_prepOperand hright hr)).seq
    (.unmarked (fun _ => rfl) (Nat.le_refl _) (Nat.le_refl _))

theorem fresh_branchOnValue {value : Counts → Option Operand} {cgType : IntType} {target : Label}
    {reverse : Bool} {c : Counts} {p : Piece}
    (hvalue : ∀ c o, value c = some o → Fresh noNames c o.toPiece)
    (h : branchOnValue value cgType target reverse c = some p) : Fresh noNames c p := by
  obtain ⟨valueOp, hv, rfl⟩ := branchOnValue_some h
  refine (hvalue _ _ hv).seq (.unmarked (fun l => ?_) (Nat.le_refl _) (Nat.le_refl _))
  cases reverse with
  | true => exact marks_genBnz _ _ _ _
  | false => exact marks_genBz _ _ _ _

theorem fresh_unaryCode {op : UnaryOp} {t : IntType} {result : Reg} {c : Counts} {right : Operand}
    (h : Fresh noNames c right.toPiece) :
    Fresh noNames c (unaryCode op t result right).toPiece := by
  cases op with
  | plus => exact h
  | minus => exact h.seq (.unmarked (fun _ => rfl) (Nat.le_succ _) (Nat.le_refl _))
  | not => exact h.seq (.unmarked (fun _ => rfl) (Nat.le_succ _) (Nat.le_refl _))
  | logNeg =>
    have hnone : Fresh noNames right.next.allocLabel ⟨[], right.next.getReg.allocLabel⟩ :=
      .unmarked (fun _ => rfl) (Nat.le_succ _) (Nat.le_refl _)
    have hright : Fresh noNames c ⟨right.code, right.next⟩ := h
    refine hright.seq (hnone.labelled (k := 1) fun l => ?_)
    simp only [marks, newLabels, once, Nat.add_zero]
    omega

theorem marks_shortCircuitLeft (op : LogicalOp) (t : IntType) (result operand : Reg)
    (target l : Label) : marks l (shortCircuitLeft op t result operand target) = 0 := by
  cases op with
  | or => exact marks_genBnz _ _ _ _
  | and => exact marks_genBz _ _ _ _

theorem marks_shortCircuitRight (op : LogicalOp) (t : IntType) (result operand : Reg)
    (target l : Label) : marks l (shortCircuitRight op t result operand target) = 0 := by
  cases op with
  | or =>
    rw [shortCircuitRight, marks_append, marks_genBnz]
    rfl
  | and =>
    rw [shortCircuitRight, marks_append, marks_genBz]
    rfl

section

variable {left right : Counts → Option Operand} {leftType rightType : IntType} {c : Counts}
  {o : Operand}

theorem fresh_castCode {t : IntType} (hleft : ∀ c o, left c = some o → Fresh noNames c o.toPiece)
    (h : castCode left t leftType c = some o) : Fresh noNames c o.toPiece := by
  obtain ⟨value, coerced, hvalue, hcoerced, rfl⟩ := castCode_some h
  exact (hleft _ _ hvalue).seq (fresh_coerceType hcoerced)

theorem fresh_operatorCode {op : UnaryOp}
    (hleft : ∀ c o, left c = some o → Fresh noNames c o.toPiece)
    (h : operatorCode op left leftType c = some o) : Fresh noNames c o.toPiece := by
  obtain ⟨operand, hoperand, rfl⟩ := operatorCode_some h
  exact (fresh_unaryCode (fresh_prepOperand hleft hoperand)).getReg

theorem fresh_arithCode {op : ArithOp}
    (hleft : ∀ c o, left c = some o → Fresh noNames c o.toPiece)
    (hright : ∀ c o, right c = some o → Fresh noNames c o.toPiece)
    (h : arithCode op left right leftType rightType c = some o) : Fresh noNames c o.toPiece := by
  obtain ⟨leftOp, rightOp, hl, hr, rfl⟩ := arithCode_some h
  have hboth := (fresh_prepOperand hleft hl).seq (fresh_prepOperand hright hr)
  exact (hboth.seq (.unmarked (fun _ => rfl) (Nat.le_refl _) (Nat.le_refl _))).getReg

theorem fresh_compareCode {op : CompareOp}
    (hleft : ∀ c o, left c = some o → Fresh noNames c o.toPiece)
    (hright : ∀ c o, right c = some o → Fresh noNames c o.toPiece)
    (h : compareCode op left right leftType rightType c = some o) : Fresh noNames c o.toPiece := by
  obtain ⟨branch, hb, rfl⟩ := compareCode_some h
  refine (fresh_branchOnCompare hleft hright hb).getReg.labelled (k := 1) fun l => ?_
  simp only [marks, marks_append, newLabels, once, Nat.add_zero]
  omega

theorem fresh_logicalCode {op : LogicalOp}
    (hleft : ∀ c o, left c = some o → Fresh noNames c o.toPiece)
    (hright : ∀ c o, right c = some o → Fresh noNames c o.toPiece)
    (h : logicalCode op left right leftType rightType c = some o) : Fresh noNames c o.toPiece := by
  obtain ⟨leftOp, rightOp, hl, hr, rfl⟩ := logicalCode_some h
  have hleft' : Fresh noNames c.getReg ⟨leftOp.code, leftOp.next⟩ := fresh_prepOperand hleft hl
  have hright' : Fresh noNames leftOp.next.allocLabel ⟨rightOp.code, rightOp.next⟩ :=
    (fresh_prepOperand hright hr).getReg
  refine Fresh.getReg (hleft'.seq (hright'.labelled (k := 1) fun l => ?_))
  simp only [marks, marks_append, newLabels, once, Nat.add_zero, marks_shortCircuitLeft,
    marks_shortCircuitRight]
  omega

end

/-- The value and the branch of an expression. -/
structure FreshExpr (e : Expr) : Prop where
  value : ∀ c o, cgExpr e c = some o → Fresh noNames c o.toPiece
  branch : ∀ target reverse c p, cgBranchIfFalse e target reverse c = some p →
    Fresh noNames c p

/-- All expressions but comparisons branch on their value. -/
theorem FreshExpr.of_value {e : Expr}
    (hbranch : ∀ target reverse, cgBranchIfFalse e target reverse =
      branchOnValue (cgExpr e) e.codSmGetType target reverse)
    (h : ∀ c o, cgExpr e c = some o → Fresh noNames c o.toPiece) : FreshExpr e where
  value := h
  branch target reverse c p hp := by
    rw [hbranch] at hp
    exact fresh_branchOnValue h hp

theorem freshExpr (e : Expr) : FreshExpr e := by
  induction e with
  | identifier d =>
    refine .of_value (fun _ _ => rfl) fun c o h => ?_
    cases h
    exact .unmarked (fun _ => rfl) (Nat.le_refl _) (Nat.le_refl _)
  | constIdentifier d e ih => exact .of_value (fun _ _ => rfl) ih.value
  | constant v =>
    refine .of_value (fun _ _ => rfl) fun c o h => ?_
    cases h
    exact .unmarked (fun _ => rfl) (Nat.le_succ _) (Nat.le_refl _)
  | cast t e ih => exact .of_value (fun _ _ => rfl) fun _ _ => fresh_castCode ih.value
  | unary op e ih => exact .of_value (fun _ _ => rfl) fun _ _ => fresh_operatorCode ih.value
  | arith op l r ihl ihr =>
    exact .of_value (fun _ _ => rfl) fun _ _ => fresh_arithCode ihl.value ihr.value
  | compare op l r ihl ihr =>
    exact ⟨fun _ _ => fresh_compareCode ihl.value ihr.value,
      fun _ _ _ _ => fresh_branchOnCompare ihl.value ihr.value⟩
  | logical op l r ihl ihr =>
    exact .of_value (fun _ _ => rfl) fun _ _ => fresh_logicalCode ihl.value ihr.value
  | incdec dec post d =>
    refine .of_value (fun _ _ => rfl) fun c o h => ?_
    cases h
    refine .unmarked (fun _ => ?_) (Nat.le_succ _) (Nat.le_refl _)
    cases post <;> rfl
  | conditional e e1 e2 ih ih1 ih2 =>
    refine .of_value (fun _ _ => rfl) fun c o h => ?_
    obtain ⟨branch, first, second, coerced, hb, h1, h2, hcoerced, rfl⟩ := cgExpr_conditional_some h
    have hcode : Fresh noNames c.getReg.allocLabel.allocLabel
        ⟨branch.code ++ first.code ++ second.code ++ coerced.code, coerced.next⟩ :=
      (((ih.branch _ _ _ _ hb).seq (ih1.value _ _ h1)).seq (ih2.value _ _ h2)).seq
        (fresh_coerceType hcoerced)
    refine hcode.getReg.labelled (k := 2) fun l => ?_
    simp only [marks, marks_append, newLabels, once, Nat.add_zero]
    omega
  | comma l r ihl ihr =>
    refine .of_value (fun _ _ => rfl) fun c o h => ?_
    obtain ⟨left, right, hleft, hright, rfl⟩ := cgExpr_comma h
    exact (ihl.value _ _ hleft).seq (ihr.value _ _ hright)
  | assignment d e ih =>
    refine .of_value (fun _ _ => rfl) fun c o h => ?_
    obtain ⟨value, coerced, hvalue, hcoerced, rfl⟩ := cgExpr_assignment h
    exact (ih.value _ _ hvalue).seq ((fresh_coerceType hcoerced).seq
      (.unmarked (fun _ => rfl) (Nat.le_refl _) (Nat.le_refl _)))
  | opAssignment op d e ih =>
    refine .of_value (fun _ _ => rfl) fun c o h => ?_
    obtain ⟨value, coerced, hvalue, hcoerced, rfl⟩ := cgExpr_opAssignment h
    exact (ih.value _ _ hvalue).seq ((fresh_coerceType hcoerced).seq
      (.unmarked (fun _ => rfl) (Nat.le_succ _) (Nat.le_refl _)))

end Cod
end FFS
