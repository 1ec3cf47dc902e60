import FFS.Cod.Meaning

/-!
# Where the code keeps C's meaning

The conditions on an evaluation under which the code of an expression computes C's value: the
code's type of each part is C's up to promotion, and where the code takes a short cut (`++` in
the promoted type, compound assignment in the type of the variable, the conversion from unsigned
to signed char, a constant variable as its initialiser) the values at hand do not show it.
-/

namespace FFS
namespace Cod

open Machine

theorem promotion_eq (t : IntType) : promotion t = t.promote := by cases t <;> rfl

theorem determineOpType_eq (t t' : IntType) : determineOpType false t t' = t.usual t' := by
  cases t <;> cases t' <;> rfl

theorem determineOpType_shift (t t' : IntType) : determineOpType true t t' = t.promote := by
  cases t <;> cases t' <;> rfl

/-- The code's type is C's, up to promotion. -/
def Expr.SameType (e : Expr) : Prop := e.codSmGetType.promote = e.cType.promote

instance (e : Expr) : Decidable e.SameType := inferInstanceAs (Decidable (_ = _))

/-- `coerce_type` sets the low bits of every unsigned char that becomes a signed one. -/
def convertsAs (objType target : IntType) : Bool := decide (objType = .uc → target ≠ .c)

/-- The operation of a compound assignment may be done in the type of the variable. -/
def carriesOver (op : ArithOp) (t t' : IntType) (x y : Int) : Bool :=
  match op with
  | .add | .sub | .mul | .and | .or | .xor => true
  | .lsh | .rsh => decide (y < t.width)
  | .div | .mod => decide (t.usual t' = t ∨
      t.InRange y ∧ (t.usual t').InRange x ∧ t.InRange (x.tdiv y))

/-- A conversion to its own type leaves a value in the variable that it is in. -/
def leftBehind (objType target : IntType) (left : List Decl) : List Decl :=
  if objType = target then left else []

/-- The variable in whose register the code leaves the value, if it is not in a new one. -/
def Expr.left : Expr → List Decl
  | identifier d => [d]
  | constIdentifier _ e => e.left
  | cast t e => leftBehind e.codSmGetType t e.left
  | unary .plus e => leftBehind e.codSmGetType (determineUnaryType .plus e.codSmGetType) e.left
  | comma _ r => r.left
  | assignment d _ | opAssignment _ d _ => [d]
  | unary .. | constant _ | arith .. | compare .. | logical .. | incdec .. | conditional .. => []

/-- The second operand does not write the variable that the first one is left in.  C orders the
two itself if that is the first operand; a constant variable can be left in another one. -/
def leavesOperand (l : Expr) (opType : IntType) (b : Result) : Bool :=
  (leftBehind l.codSmGetType opType l.left).all fun d => decide (d ∉ b.writes)

/-- The variables that the evaluation writes had the values that they have behind it. -/
def Result.restores (a : Result) (σ : Store) : Bool :=
  a.writes.all fun d => (σ.value d).any fun v => decide (a.store.value d = some v)

/-- A condition on the result of an expression. -/
def after (e : Expr) (σ : Store) (condition : Result → Bool) : Bool :=
  match meaning e σ with
  | some a => condition a
  | none => true

def plain : Expr → Store → Bool
  | .identifier _, _ => true
  -- The initialiser is evaluated anew.
  | .constIdentifier d e, σ => plain e σ &&
    (meaning e σ).any fun a => decide (σ.consts d = some a.value) && a.restores σ
  | .constant _, _ => true
  | .cast t e, σ => plain e σ && convertsAs e.codSmGetType t
  | .unary op e, σ => decide (Expr.unary op e).SameType && plain e σ
  | .arith op l r, σ => plain l σ && after l σ fun a => plain r a.store && after r a.store
    (leavesOperand l (determineOpType (isShift op) l.codSmGetType r.codSmGetType))
  | .compare _ l r, σ => plain l σ && after l σ fun a => plain r a.store && after r a.store
    (leavesOperand l (determineOpType false l.codSmGetType r.codSmGetType))
  | .logical op l r, σ => plain l σ && after l σ fun a =>
    decide (decide (a.value ≠ 0) = decide (op = .or)) || plain r a.store
  | .incdec dec _ d, σ =>
    ((σ.value d).bind (cIncdec dec d.cgType)).all fun v => decide (d.cgType.InRange v)
  | .conditional condition e1 e2, σ =>
    decide (Expr.conditional condition e1 e2).SameType && plain condition σ &&
      after condition σ fun a => if a.value ≠ 0 then plain e1 a.store else plain e2 a.store
  | .comma l r, σ => plain l σ && after l σ fun a => plain r a.store
  | .assignment d e, σ => plain e σ && convertsAs e.codSmGetType d.cgType
  | .opAssignment op d e, σ => plain e σ && convertsAs e.codSmGetType d.cgType &&
    after e σ fun a => (σ.value d).all fun x => carriesOver op d.cgType e.cType x a.value

/-- The branch back of a loop with its test behind: the code branches on `>` for `>=`, and not
at all on a value of a short type. -/
def branchesBack : Expr → Store → Bool
  | .compare .geq l r, σ => after l σ fun a => after r a.store fun b =>
    let t := l.cType.usual r.cType
    decide (t.wrap a.value ≠ t.wrap b.value)
  | e, σ => decide (32 ≤ e.codSmGetType.width) || after e σ fun a => decide (a.value = 0)

def plainOptional (e : Option Expr) (σ : Store) : Bool := e.all fun e => plain e σ

/-- The condition on a step. -/
def plainStep (p : Program) : State → Bool
  | .run .empty (.loop _ post iter _ _) σ => plainOptional iter σ &&
    (effects iter σ).all fun σ => post.all fun e => plain e σ && branchesBack e σ
  | .run (.declaration d (some e)) _ σ => plain e σ && convertsAs e.codSmGetType d.cgType
  | .run (.constDeclaration _ (some e)) _ σ => after e σ fun a => a.restores σ
  | .run (.expression e) _ σ => plain e σ
  | .run (.selection e _ _) _ σ => plain e σ
  | .run (.iteration init _ _ _ _) _ σ => plainOptional init σ
  | .run (.return e) _ σ => e.all fun e => plain e σ &&
    p.returnCgType.all fun t => convertsAs e.codSmGetType t
  | .test test _ _ _ _ σ => plainOptional test σ
  | _ => true

/-! ## Values -/

theorem inRange_truth (b : Bool) (t : IntType) : t.InRange (truth b) := by
  cases b <;> cases t <;> decide

theorem inRange_cArith {op : ArithOp} {t t' : IntType} {x y v : Int}
    (h : cArith op t t' x y = some v) :
    (if isShift op then t.promote else t.usual t').InRange v := by
  unfold cArith at h
  split at h
  · next hshift =>
    rw [if_pos hshift]
    exact ArithOp.inRange_c h
  · next hshift =>
    rw [if_neg hshift]
    exact ArithOp.inRange_c h

/-- A value is within the range of its type. -/
theorem inRange_meaning {e : Expr} {σ : Store} {a : Result} (h : meaning e σ = some a) :
    e.cType.InRange a.value := by
  induction e generalizing σ a with
  | identifier d =>
    obtain ⟨v, hv, rfl⟩ := Option.map_eq_some_iff.mp h
    exact σ.inRange d v hv
  | constIdentifier d e =>
    obtain ⟨v, hv, rfl⟩ := Option.map_eq_some_iff.mp h
    exact σ.inRangeConsts d v hv
  | constant v =>
    cases h
    have hv := v.isLt
    show -2 ^ 31 ≤ ((v : Nat) : Int) ∧ ((v : Nat) : Int) < 2 ^ 31
    omega
  | cast t e ih =>
    obtain ⟨b, -, rfl⟩ := meaning_cast h
    exact t.inRange_wrap _
  | unary op e ih =>
    obtain ⟨b, v, -, hv, rfl⟩ := meaning_unary h
    cases op with
    | plus =>
      cases hv
      exact IntType.inRange_wrap _ _
    | minus => exact @ArithOp.inRange_c .sub _ _ _ _ hv
    | not => exact @ArithOp.inRange_c .xor _ _ _ _ hv
    | logNeg =>
      cases hv
      exact inRange_truth _ _
  | arith op l r ihl ihr =>
    obtain ⟨b, b', v, -, -, -, hv, rfl⟩ := meaning_arith h
    exact inRange_cArith hv
  | compare op l r ihl ihr =>
    obtain ⟨b, b', -, -, -, rfl⟩ := meaning_compare h
    exact inRange_truth _ _
  | logical op l r ihl ihr =>
    obtain ⟨b, -, ⟨-, rfl⟩ | ⟨-, b', -, rfl⟩⟩ := meaning_logical h
    · exact inRange_truth _ _
    · exact inRange_truth _ _
  | incdec dec post d =>
    obtain ⟨x, v, hx, -, rfl⟩ := meaning_incdec h
    show d.cgType.InRange (if post then x else _)
    split
    · exact σ.inRange d x hx
    · exact IntType.inRange_wrap _ _
  | conditional condition e1 e2 ihc ih1 ih2 =>
    obtain ⟨b, b', -, -, rfl⟩ := meaning_conditional h
    exact IntType.inRange_wrap _ _
  | comma l r ihl ihr =>
    obtain ⟨b, b', -, hb', rfl⟩ := meaning_comma h
    have hvalue : r.cType.InRange b'.value := ihr hb'
    exact hvalue
  | assignment d e ih =>
    obtain ⟨b, -, -, rfl⟩ := meaning_assignment h
    exact IntType.inRange_wrap _ _
  | opAssignment op d e ih =>
    obtain ⟨x, b, v, -, -, -, -, rfl⟩ := meaning_opAssignment h
    exact IntType.inRange_wrap _ _

/-- An evaluation changes what it writes. -/
theorem value_of_unwritten {e : Expr} {σ : Store} {a : Result} (h : meaning e σ = some a)
    {d : Decl} (hd : d ∉ a.writes) : a.store.value d = σ.value d := by
  have hset : ∀ {σ : Store} {d' : Decl} {v : Int} {writes : List Decl}, d ∉ d' :: writes →
      (σ.set d' v).value d = σ.value d := fun hd =>
    Function.update_of_ne (List.ne_of_not_mem_cons hd) _ _
  induction e generalizing σ a with
  | identifier | constIdentifier =>
    obtain ⟨v, -, rfl⟩ := Option.map_eq_some_iff.mp h
    rfl
  | constant v =>
    cases h
    rfl
  | cast t e ih =>
    obtain ⟨b, hb, rfl⟩ := meaning_cast h
    exact @ih σ b hb hd
  | unary op e ih =>
    obtain ⟨b, v, hb, -, rfl⟩ := meaning_unary h
    exact @ih σ b hb hd
  | arith op l r ihl ihr =>
    obtain ⟨b, b', v, hb, hb', -, -, rfl⟩ := meaning_arith h
    rw [List.mem_append, not_or] at hd
    exact (ihr hb' hd.2).trans (ihl hb hd.1)
  | compare op l r ihl ihr =>
    obtain ⟨b, b', hb, hb', -, rfl⟩ := meaning_compare h
    rw [List.mem_append, not_or] at hd
    exact (ihr hb' hd.2).trans (ihl hb hd.1)
  | logical op l r ihl ihr =>
    obtain ⟨b, hb, ⟨-, rfl⟩ | ⟨-, b', hb', rfl⟩⟩ := meaning_logical h
    · exact @ihl σ b hb hd
    · rw [List.mem_append, not_or] at hd
      exact (ihr hb' hd.2).trans (ihl hb hd.1)
  | incdec dec post d' =>
    obtain ⟨x, v, -, -, rfl⟩ := meaning_incdec h
    exact hset hd
  | conditional e e1 e2 ih ih1 ih2 =>
    obtain ⟨b, b', hb, hb', rfl⟩ := meaning_conditional h
    rw [List.mem_append, not_or] at hd
    refine Eq.trans ?_ (ih hb hd.1)
    split at hb'
    · exact @ih1 b.store b' hb' hd.2
    · exact @ih2 b.store b' hb' hd.2
  | comma l r ihl ihr =>
    obtain ⟨b, b', hb, hb', rfl⟩ := meaning_comma h
    rw [List.mem_append, not_or] at hd
    exact (ihr hb' hd.2).trans (ihl hb hd.1)
  | assignment d' e ih =>
    obtain ⟨b, hb, -, rfl⟩ := meaning_assignment h
    exact (hset hd).trans (ih hb (List.not_mem_of_not_mem_cons hd))
  | opAssignment op d' e ih =>
    obtain ⟨x, b, v, -, hb, -, -, rfl⟩ := meaning_opAssignment h
    exact (hset hd).trans (ih hb (List.not_mem_of_not_mem_cons hd))

theorem value_of_written {σ : Store} {a : Result} (hrestores : a.restores σ = true) {d : Decl}
    (hd : d ∈ a.writes) : ∃ v, σ.value d = some v ∧ a.store.value d = some v := by
  obtain ⟨v, hv, hsame⟩ := (Option.any_eq_true _ _).mp (List.all_eq_true.mp hrestores d hd)
  exact ⟨v, hv, of_decide_eq_true hsame⟩

/-- An evaluation that restores what it writes changes no variable. -/
theorem value_of_restores {e : Expr} {σ : Store} {a : Result} (h : meaning e σ = some a)
    (hrestores : a.restores σ = true) (d : Decl) : a.store.value d = σ.value d := by
  by_cases hd : d ∈ a.writes
  · obtain ⟨v, hv, hsame⟩ := value_of_written hrestores hd
    exact hsame.trans hv.symm
  · exact value_of_unwritten h hd

/-! ## Types -/

theorem usual_congr {t₁ t₂ t₁' t₂' : IntType} (h : t₁.promote = t₂.promote)
    (h' : t₁'.promote = t₂'.promote) : t₁.usual t₁' = t₂.usual t₂' := by
  simp only [IntType.usual, h, h']

theorem after_of {e : Expr} {σ : Store} {a : Result} {condition : Result → Bool}
    (h : after e σ condition = true) (ha : meaning e σ = some a) : condition a = true := by
  rw [after, ha] at h
  exact h

/-- What is evaluated on the plain way has the same type in the code. -/
theorem sameType_of_plain {e : Expr} {σ : Store} {a : Result} (h : plain e σ = true)
    (ha : meaning e σ = some a) : e.SameType := by
  induction e generalizing σ a with
  | identifier | constIdentifier | constant | cast | compare | logical | assignment
  | opAssignment => rfl
  | unary op e ih =>
    rw [plain, Bool.and_eq_true] at h
    exact of_decide_eq_true h.1
  | arith op l r ihl ihr =>
    obtain ⟨b, b', v, hb, hb', -⟩ := meaning_arith ha
    rw [plain, Bool.and_eq_true] at h
    have hl : l.SameType := ihl h.1 hb
    have hr : r.SameType := ihr ((Bool.and_eq_true _ _).mp (after_of h.2 hb)).1 hb'
    show (determineOpType (isShift op) _ _).promote =
      (if isShift op then _ else _ : IntType).promote
    cases hshift : isShift op with
    | true =>
      rw [determineOpType_shift, if_pos rfl, hl]
    | false =>
      rw [determineOpType_eq, if_neg Bool.false_ne_true, usual_congr hl hr]
  | incdec dec post d =>
    show (promotion d.cgType).promote = _
    rw [promotion_eq, IntType.promote_promote]
    rfl
  | conditional condition e1 e2 ihc ih1 ih2 =>
    rw [plain, Bool.and_eq_true, Bool.and_eq_true] at h
    exact of_decide_eq_true h.1.1
  | comma l r ihl ihr =>
    obtain ⟨b, b', hb, hb', -⟩ := meaning_comma ha
    rw [plain, Bool.and_eq_true] at h
    exact ihr (after_of h.2 hb) hb'

theorem promote_determineUnaryType (op : UnaryOp) (t : IntType) :
    (determineUnaryType op t).promote = determineUnaryType op t := by
  cases op <;> cases t <;> rfl

theorem promote_determineOpType (shift : Bool) (t t' : IntType) :
    (determineOpType shift t t').promote = determineOpType shift t t' := by
  cases shift <;> cases t <;> cases t' <;> rfl

/-- Same up to promotion: the code's type is C's or the promotion of C's. -/
theorem codSmGetType_eq {e : Expr} (h : e.SameType) :
    e.codSmGetType = e.cType ∨ e.codSmGetType = e.cType.promote := by
  induction e with
  | identifier | constIdentifier | constant | cast | compare | logical | assignment
  | opAssignment => exact .inl rfl
  | unary op e ih =>
    cases op with
    | logNeg => exact .inl rfl
    | plus => exact .inr ((promote_determineUnaryType _ _).symm.trans h)
    | minus => exact .inr ((promote_determineUnaryType _ _).symm.trans h)
    | not => exact .inr ((promote_determineUnaryType _ _).symm.trans h)
  | arith op l r => exact .inr ((promote_determineOpType _ _ _).symm.trans h)
  | incdec dec post d => exact .inr ((promote_determineUnaryType _ _).symm.trans h)
  | conditional condition e1 e2 => exact .inr ((promote_determineUnaryType _ _).symm.trans h)
  | comma l r ihl ihr => exact ihr h

/-- The code's type holds what C's type holds. -/
theorem inRange_code {e : Expr} {v : Int} (h : e.SameType) (hv : e.cType.InRange v) :
    e.codSmGetType.InRange v := by
  cases codSmGetType_eq h with
  | inl heq =>
    rw [heq]
    exact hv
  | inr heq =>
    rw [heq]
    exact IntType.inRange_promote hv

end Cod
end FFS
