import FFS.Cod.Folding
import FFS.Cod.KeepsMeaning

/-!
# The code of constant expressions

Code is generated for every expression on which the folders come to an end, and it computes C's
value wherever the type of the code carries that of each part.
-/

namespace FFS
namespace Cod

open Machine

/-! ## Conversions -/

theorem coerceType_of_converts {target objType : IntType} (h : converts target objType = true)
    (c : Counts) (obj : Reg) :
    convertsAs objType target = true ∧ ∃ o, coerceType c obj target objType = some o := by
  rcases of_decide_eq_true h with heq | hmissing
  · subst heq
    refine ⟨by cases target <;> rfl, ?_⟩
    rw [coerceType, if_pos rfl]
    exact ⟨_, rfl⟩
  · by_cases hne : target = objType
    · subst hne
      refine ⟨by cases target <;> rfl, ?_⟩
      rw [coerceType, if_pos rfl]
      exact ⟨_, rfl⟩
    · obtain ⟨hconv, code, hcode⟩ := coercion_of_not_missing hne hmissing (.temp c.regs) obj
      refine ⟨hconv, ?_⟩
      rw [coerceType, if_neg hne, hcode]
      exact ⟨_, rfl⟩

theorem converts_promotion (t : IntType) : converts (promotion t) t = true := by
  cases t <;> decide

theorem converts_promoted {t target : IntType} (h : 32 ≤ target.width) :
    converts target (promotion t) = true := by
  revert h
  cases t <;> cases target <;> decide

/-- An operand is prepared wherever there is code for it. -/
theorem prepOperand_exists {cg : Counts → Option Operand} {t opType : IntType}
    (hop : 32 ≤ opType.width) (h : ∀ c, ∃ o, cg c = some o) (c : Counts) :
    ∃ o, prepOperand cg t opType c = some o := by
  obtain ⟨value, hvalue⟩ := h c
  obtain ⟨-, promoted, hpromoted⟩ :=
    coerceType_of_converts (converts_promotion t) value.next value.reg
  obtain ⟨-, coerced, hcoerced⟩ :=
    coerceType_of_converts (converts_promoted (t := t) hop) promoted.next promoted.reg
  rw [prepOperand, hvalue]
  simp only [Option.bind_eq_bind, Option.bind_some, hpromoted, hcoerced]
  exact ⟨_, rfl⟩

theorem width_determineUnaryType (op : UnaryOp) (t : IntType) :
    32 ≤ (determineUnaryType op t).width := by
  cases op <;> cases t <;> decide

theorem width_determineOpType (shift : Bool) (t t' : IntType) :
    32 ≤ (determineOpType shift t t').width := by
  cases shift <;> cases t <;> cases t' <;> decide

namespace ConstExpr

/-- The folders come to an end wherever they and the code have C's value. -/
theorem ends_of_kept {wide : Bool} {e : ConstExpr} {v : Int} (h : e.kept wide = some v) :
    e.ends wide = true := by
  induction e generalizing v with
  | integer lit => exact decide_eq_true (kept_integer h).1
  | character start item => cases h
  | identifier decl constVar initValue ih => cases h
  | cast t e ih =>
    obtain ⟨x, hx, -, -, hconverts⟩ := kept_cast h
    rw [ends, ih hx, hconverts]
    rfl
  | sizeofType t => rfl
  | sizeofExpr right ih =>
    obtain ⟨t, e, rfl, -⟩ := kept_sizeofExpr h
    rfl
  | unary op right ih =>
    cases op with
    | plus | minus => cases h
    | not =>
      obtain ⟨x, hx, -⟩ := kept_not h
      exact ih hx
    | logNeg =>
      obtain ⟨x, hx, -⟩ := kept_logNeg h
      exact ih hx
  | arith op l r ihl ihr =>
    obtain ⟨x, y, hx, hy, -, hreads, hlong, -⟩ := kept_arith h
    rw [ends]
    split
    · rw [hx, hy, Option.bind_some, Option.bind_some, hlong.machine.1, hreads.1, hreads.2]
      rfl
    · rw [ihl hx, ihr hy]
      rfl
  | compare op l r ihl ihr =>
    obtain ⟨x, y, hx, hy, -⟩ := kept_compare h
    rw [ends, ihl hx, ihr hy]
    rfl
  | logical op l r ihl ihr =>
    obtain ⟨x, hx, -, ⟨-, hends, -⟩ | ⟨-, y, hy, -⟩⟩ := kept_logical h
    · rw [ends, ihl hx, hends]
      rfl
    · rw [ends, ihl hx, ihr hy]
      rfl

/-- There is code for every expression on which the folders come to an end. -/
theorem cgExpr_exists {wide : Bool} {e : ConstExpr} (h : e.ends wide = true)
    (c : Counts) : ∃ o, e.cgExpr wide c = some o := by
  induction e generalizing c with
  | integer lit =>
    rw [cgExpr, (IntLiteral.load_of_exact (of_decide_eq_true h)).2]
    exact ⟨_, rfl⟩
  | character start item => cases h
  | identifier decl constVar initValue ih => cases h
  | cast t e ih =>
    rw [ends, Bool.and_eq_true] at h
    obtain ⟨right, hright⟩ := ih h.1 c
    obtain ⟨-, coerced, hcoerced⟩ := coerceType_of_converts h.2 right.next right.reg
    rw [cgExpr, castCode, hright]
    simp only [Option.bind_eq_bind, Option.bind_some, hcoerced]
    exact ⟨_, rfl⟩
  | sizeofType t => exact ⟨_, rfl⟩
  | sizeofExpr right ih =>
    obtain ⟨t, e, rfl⟩ := ends_sizeofExpr h
    exact ⟨_, rfl⟩
  | unary op right ih =>
    obtain ⟨operand, hoperand⟩ := prepOperand_exists (t := right.codSmGetType)
      (width_determineUnaryType op right.codSmGetType) (ih (ends_unary h).2) c.getReg
    rw [cgExpr, operatorCode]
    simp only [Option.bind_eq_bind, Option.bind_some, hoperand]
    exact ⟨_, rfl⟩
  | arith op l r ihl ihr =>
    have hends : l.ends wide = true ∧ r.ends wide = true := by
      obtain ⟨-, x, y, -, hx, hy, -⟩ | ⟨-, hboth⟩ := ends_arith h
      · exact ⟨ends_of_kept hx, ends_of_kept hy⟩
      · exact hboth
    have hwide := width_determineOpType (isShift op) l.codSmGetType r.codSmGetType
    obtain ⟨left, hleft⟩ := prepOperand_exists (t := l.codSmGetType) hwide (ihl hends.1) c.getReg
    obtain ⟨right, hright⟩ :=
      prepOperand_exists (t := r.codSmGetType) hwide (ihr hends.2) left.next
    rw [cgExpr, arithCode]
    simp only [Option.bind_eq_bind, Option.bind_some, hleft, hright]
    exact ⟨_, rfl⟩
  | compare op l r ihl ihr =>
    rw [ends, Bool.and_eq_true] at h
    have hwide := width_determineOpType false l.codSmGetType r.codSmGetType
    obtain ⟨left, hleft⟩ :=
      prepOperand_exists (t := l.codSmGetType) hwide (ihl h.1) c.getReg.allocLabel
    obtain ⟨right, hright⟩ := prepOperand_exists (t := r.codSmGetType) hwide (ihr h.2) left.next
    rw [cgExpr, compareCode]
    simp only [branchOnCompare, Option.bind_eq_bind, Option.bind_some, hleft, hright]
    exact ⟨_, rfl⟩
  | logical op l r ihl ihr =>
    rw [ends, Bool.and_eq_true] at h
    have hwide := width_determineOpType false l.codSmGetType r.codSmGetType
    obtain ⟨left, hleft⟩ := prepOperand_exists (t := l.codSmGetType) hwide (ihl h.1) c.getReg
    obtain ⟨right, hright⟩ :=
      prepOperand_exists (t := r.codSmGetType) hwide (ihr h.2) left.next.getReg.allocLabel
    rw [cgExpr, logicalCode]
    simp only [Option.bind_eq_bind, Option.bind_some, hleft, hright]
    exact ⟨_, rfl⟩

/-- The labels in the code are new and marked once. -/
theorem fresh_cgExpr {wide : Bool} (e : ConstExpr) :
    ∀ c o, e.cgExpr wide c = some o → Fresh noNames c o.toPiece := by
  have hset : ∀ (c : Counts) (i : Insn Reg Label) (l : ∀ l, marks l [i] = 0),
      Fresh noNames c ⟨[i], c.getReg⟩ := fun c i hi =>
    .unmarked hi (Nat.le_succ _) (Nat.le_refl _)
  induction e with
  | integer lit =>
    intro c o h
    obtain ⟨constant, -, rfl⟩ := Option.map_eq_some_iff.mp h
    exact hset c _ fun _ => rfl
  | character start item =>
    intro c o h
    obtain ⟨l, -, rfl⟩ := Option.map_eq_some_iff.mp h
    exact hset c _ fun _ => rfl
  | identifier decl constVar initValue ih =>
    intro c o h
    cases constVar with
    | true => exact ih c o h
    | false =>
      cases h
      exact .unmarked (fun _ => rfl) (Nat.le_refl _) (Nat.le_refl _)
  | cast t e ih => exact fun _ _ => fresh_castCode ih
  | sizeofType t =>
    intro c o h
    cases h
    exact hset c _ fun _ => rfl
  | sizeofExpr right ih =>
    intro c o h
    obtain ⟨size, -, rfl⟩ := Option.map_eq_some_iff.mp h
    exact hset c _ fun _ => rfl
  | unary op right ih => exact fun _ _ => fresh_operatorCode ih
  | arith op l r ihl ihr => exact fun _ _ => fresh_arithCode ihl ihr
  | compare op l r ihl ihr => exact fun _ _ => fresh_compareCode ihl ihr
  | logical op l r ihl ihr => exact fun _ _ => fresh_logicalCode ihl ihr

/-! ## What the code computes -/

section Values

variable {prog : Code} {wide : Bool} {σ : Store} {e l r : ConstExpr} {x y v : Int}

/-- A value without effects. -/
def pureResult (σ : Store) (v : Int) : Result := ⟨v, σ, [], [], []⟩

/-- A constant that is set in a new register. -/
theorem evaluates_set {cg : Counts → Option Operand} {t : IntType} (hv : t.InRange v)
    (h : ∀ c, cg c = some ⟨⟨[.set t (.temp c.regs) v], c.getReg⟩, .temp c.regs⟩) :
    Evaluates prog cg [] σ (pureResult σ v) v := by
  intro c o regs ho hagree
  rw [h, Option.some_inj] at ho
  subst ho
  refine .set (.nil ?_)
  have hkept := (Kept.start hagree).temp (Nat.le_refl c.regs) (t.wrap v)
  refine ⟨hkept, Nat.le_succ _, ⟨Nat.le_refl _, Nat.lt_succ_self _⟩, ?_⟩
  rw [Function.update_self]
  exact IntType.wrap_of_inRange hv

/-- What the code has for C's value. -/
def Emits (prog : Code) (wide : Bool) (σ : Store) (e : ConstExpr) (v : Int) : Prop :=
  Evaluates prog (e.cgExpr wide) [] σ (pureResult σ (e.codSmGetType.wrap v))
    (e.codSmGetType.wrap v)

theorem emits_of_inRange (hv : e.codSmGetType.InRange v)
    (h : Evaluates prog (e.cgExpr wide) [] σ (pureResult σ v) v) : Emits prog wide σ e v := by
  unfold Emits
  rwa [IntType.wrap_of_inRange hv]

/-- An operand is what its conversion in C gives, where the type of the code carries it. -/
theorem evaluates_operand (t : IntType) (hx : e.kept wide = some x) (h : Emits prog wide σ e x) :
    Evaluates prog (prepOperand (e.cgExpr wide) e.codSmGetType t) [] σ
      (pureResult σ (e.codSmGetType.wrap x)) (t.wrap x) := by
  have hprep : Evaluates prog (prepOperand (e.cgExpr wide) e.codSmGetType t)
      (leftBehind e.codSmGetType t []) σ _ _ := h.prepOperand (e.codSmGetType.inRange_wrap x)
  rwa [(inRange_kept hx).2.wrap, leftBehind_nil] at hprep

theorem emits_not (hx : r.kept wide = some x) (h : Emits prog wide σ r x) :
    Emits prog wide σ (unary .not r) (-x - 1) := by
  intro c o regs ho hagree
  obtain ⟨operand, hoperand, rfl⟩ := operatorCode_some ho
  have hright := evaluates_operand (determineUnaryType .not r.codSmGetType) hx h c.getReg operand
    regs hoperand hagree
  refine hright.append fun regs' h' => runs_unaryArith h' ?_
  rw [IntType.wrap_wrap]
  refine congrArg some ((bitwise_not _ _).trans (IntType.wrap_congr ?_))
  generalize determineUnaryType .not r.codSmGetType = t
  rw [← neg_add', ← neg_add', ← zero_sub, ← zero_sub, Int.sub_emod, Int.add_emod,
    IntType.wrap_emod, ← Int.add_emod, ← Int.sub_emod]

theorem emits_logNeg (hlabels : ∀ n, marks (.alloc n) prog ≤ 1) (hx : r.kept wide = some x)
    (h : Emits prog wide σ r x) :
    Emits prog wide σ (unary .logNeg r) (truth (decide (x = 0))) := by
  refine emits_of_inRange (inRange_truth _ _) ?_
  intro c o regs ho hagree
  obtain ⟨operand, hoperand, rfl⟩ := operatorCode_some ho
  obtain ⟨hrange, hcarries⟩ := inRange_kept hx
  have hpromoted : (promotion r.codSmGetType).wrap x = r.codSmGetType.wrap x :=
    (hcarries.wrap _).symm.trans
      (IntType.wrap_of_inRange (inRange_promotion (r.codSmGetType.inRange_wrap x)))
  have hright : Evaluates prog (prepOperand (r.cgExpr wide) r.codSmGetType
      (promotion r.codSmGetType)) [] σ _ _ := evaluates_operand _ hx h
  have htruth : decide (x = 0) = decide ((promotion r.codSmGetType).wrap x = 0) := by
    rw [decide_eq_decide, hpromoted, hcarries.eq_zero hrange]
  rw [htruth]
  exact (hright c.getReg operand regs hoperand hagree).append fun regs' h' =>
    runs_logNegCode hlabels h' (IntType.inRange_wrap _ x)

theorem emits_arith {op : ArithOp} (hx : l.kept wide = some x) (hy : r.kept wide = some y)
    (hv : Gives op (opType op l r) x y v) (hl : Emits prog wide σ l x)
    (hr : Emits prog wide σ r y) : Emits prog wide σ (arith op l r) v := by
  intro c o regs ho hagree
  obtain ⟨left, right, hleft, hright, rfl⟩ := arithCode_some ho
  have hevall := evaluates_operand (opType op l r) hx hl
  have hevalr := evaluates_operand (opType op l r) hy hr
  rw [show determineOpType (isShift op) l.codSmGetType r.codSmGetType = opType op l r from rfl]
    at hleft hright ⊢
  refine (hevall.both hevalr (fun _ h => (List.not_mem_nil h).elim) hleft hright hagree).append fun regs' h' => ?_
  refine .arith ?_ (.nil (h'.1.toKept.result h'.1.grows _))
  rw [h'.1.value, h'.2.value, IntType.wrap_wrap, IntType.wrap_wrap]
  exact hv.machine.1

theorem emits_compare (hlabels : ∀ n, marks (.alloc n) prog ≤ 1) {op : CompareOp} {b : Bool}
    (hx : l.kept wide = some x) (hy : r.kept wide = some y)
    (hholds : op.holds ((opType .add l r).wrap x) ((opType .add l r).wrap y) = b)
    (hl : Emits prog wide σ l x) (hr : Emits prog wide σ r y) :
    Emits prog wide σ (compare op l r) (truth b) := by
  refine emits_of_inRange (inRange_truth b .i) ?_
  intro c o regs ho hagree
  obtain ⟨branch, hbranch, rfl⟩ := compareCode_some ho
  have hgrows : c.getReg.regs ≤ branch.next.regs :=
    (fresh_branchOnCompare (fresh_cgExpr l) (fresh_cgExpr r) hbranch).regs
  refine runs_flag (a := pureResult σ (truth b)) (hlabels _) hgrows hagree ?_
  obtain ⟨leftOp, rightOp, hl', hr', rfl⟩ := branchOnCompare_some hbranch
  have hevall := evaluates_operand (opType .add l r) hx hl
  have hevalr := evaluates_operand (opType .add l r) hy hr
  refine .after (hevall.both hevalr (fun _ h => (List.not_mem_nil h).elim) hl' hr'
    (hagree.temp c.regs (IntType.wrap .i 0))) fun regs' h => ?_
  refine .br ?_ h.1.toKept
  rw [h.1.value, h.2.value, if_neg Bool.false_ne_true, holds_reverseOperator]
  rw [show determineOpType false l.codSmGetType r.codSmGetType = opType .add l r from rfl,
    IntType.wrap_wrap, IntType.wrap_wrap, hholds]

theorem emits_logical (hlabels : ∀ n, marks (.alloc n) prog ≤ 1) {op : LogicalOp}
    (hx : l.kept wide = some x) (hl : Emits prog wide σ l x)
    (hcases : decide (x ≠ 0) = decide (op = .or) ∧ v = truth (decide (op = .or)) ∨
      decide (x ≠ 0) ≠ decide (op = .or) ∧ ∃ y, r.kept wide = some y ∧ Emits prog wide σ r y ∧
        v = truth (decide (y ≠ 0))) :
    Emits prog wide σ (logical op l r) v := by
  have hrange : IntType.InRange .i v := by
    obtain ⟨-, rfl⟩ | ⟨-, y, -, -, rfl⟩ := hcases <;> exact inRange_truth _ _
  refine emits_of_inRange hrange ?_
  intro c o regs ho hagree
  obtain ⟨left, right, hleft, hright, rfl⟩ := logicalCode_some ho
  have hgrows : left.next.getReg.regs ≤ right.next.regs :=
    (fresh_prepOperand (fresh_cgExpr r) hright).regs
  rw [determineOpType_eq] at hleft hright ⊢
  have hzero : ∀ {e : ConstExpr} {x : Int}, e.kept wide = some x →
      decide (e.codSmGetType.wrap x ≠ 0) = decide (x ≠ 0) := fun hx =>
    decide_eq_decide.mpr (not_congr ((inRange_kept hx).2.eq_zero (inRange_kept hx).1))
  refine runs_logical hlabels [] (a := pureResult σ v)
    (b := pureResult σ (l.codSmGetType.wrap x))
    (width_usual l.codSmGetType r.codSmGetType)
    (l.codSmGetType.width_le_usual r.codSmGetType)
    (width_le_usual_right l.codSmGetType r.codSmGetType)
    (hl.prepOperand (l.codSmGetType.inRange_wrap x)) (l.codSmGetType.inRange_wrap x) hleft hright
    hgrows hagree ?_
  rw [show (pureResult σ (l.codSmGetType.wrap x)).value = l.codSmGetType.wrap x from rfl, hzero hx]
  obtain ⟨hshort, rfl⟩ | ⟨hlong, y, hy, hr, rfl⟩ := hcases
  · exact .inl ⟨hshort, rfl⟩
  · have hright : Evaluates prog (prepOperand (r.cgExpr wide) r.codSmGetType
        (l.codSmGetType.usual r.codSmGetType)) (leftBehind r.codSmGetType _ []) σ _ _ :=
      hr.prepOperand (r.codSmGetType.inRange_wrap y)
    rw [leftBehind_nil] at hright
    refine .inr ⟨hlong, pureResult σ (r.codSmGetType.wrap y), r.codSmGetType.inRange_wrap y,
      hright, ?_⟩
    rw [← hzero hy]
    rfl

/-- The code has C's value at every part. -/
theorem emits_kept (hlabels : ∀ n, marks (.alloc n) prog ≤ 1) (h : e.kept wide = some v) :
    Emits prog wide σ e v := by
  induction e generalizing v with
  | integer lit =>
    obtain ⟨hlit, rfl⟩ := kept_integer h
    obtain ⟨hrange, hload⟩ := IntLiteral.load_of_exact hlit
    refine emits_of_inRange hrange (evaluates_set hrange fun c => ?_)
    rw [cgExpr, hload]
    rfl
  | character start item => cases h
  | identifier decl constVar initValue ih => cases h
  | cast t e ih =>
    obtain ⟨x, hx, rfl, -, hconverts⟩ := kept_cast h
    intro c o regs ho hagree
    obtain ⟨right, coerced, hright, hcoerced, rfl⟩ := castCode_some ho
    refine (ih hx c right regs hright hagree).append fun regs' h' => ?_
    have hconv := (coerceType_of_converts hconverts right.next right.reg).1
    have hcoerce : Runs prog coerced.code regs' _ :=
      h'.coerce hcoerced hconv (e.codSmGetType.inRange_wrap x)
    rw [(inRange_kept hx).2.wrap, ← t.wrap_wrap, leftBehind_nil] at hcoerce
    exact hcoerce
  | sizeofType t =>
    cases h
    exact emits_of_inRange (inRange_dillTypeSize t .i)
      (evaluates_set (inRange_dillTypeSize t .i) fun c => rfl)
  | sizeofExpr right ih =>
    obtain ⟨t, e, rfl, rfl⟩ := kept_sizeofExpr h
    exact emits_of_inRange (inRange_dillTypeSize t .i)
      (evaluates_set (inRange_dillTypeSize t .i) fun c => rfl)
  | unary op right ih =>
    cases op with
    | plus | minus => cases h
    | not =>
      obtain ⟨x, hx, -, rfl, hc, -⟩ := kept_not h
      unfold Emits
      rw [hc.wrap]
      exact emits_not hx (ih hx)
    | logNeg =>
      obtain ⟨x, hx, -, rfl⟩ := kept_logNeg h
      exact emits_logNeg hlabels hx (ih hx)
  | arith op l r ihl ihr =>
    obtain ⟨x, y, hx, hy, -, -, -, hcode⟩ := kept_arith h
    exact emits_arith hx hy hcode (ihl hx) (ihr hy)
  | compare op l r ihl ihr =>
    obtain ⟨x, y, hx, hy, rfl, -, -, hholds⟩ := kept_compare h
    exact emits_compare hlabels hx hy hholds (ihl hx) (ihr hy)
  | logical op l r ihl ihr =>
    obtain ⟨x, hx, -, hcases⟩ := kept_logical h
    refine emits_logical hlabels hx (ihl hx) ?_
    obtain ⟨hshort, -, hv⟩ | ⟨hlong, y, hy, -, hv⟩ := hcases
    · exact .inl ⟨hshort, hv⟩
    · exact .inr ⟨hlong, y, hy, ihr hy, hv⟩

end Values

/-! ## Folding -/

/-- C has the value, both folders give it, and so does the code. -/
structure FoldsAsC (wide : Bool) (e : ConstExpr) (v : Int) : Prop where
  meaning : e.cValue = some v
  returned : ∃ node, e.evaluateConstantReturnExpr = .value node ∧ node.value = some v
  evaluated : e.evaluateConstantExpr = .value v
  emitted : ∃ o, e.cgExpr wide ⟨0, 0⟩ = some o ∧ ∀ regs, Reaches o.code (.at o.code regs) fun m =>
    ∃ regs', m = .at [] regs' ∧ regs' o.reg = v

theorem foldsAsC_of_exact {wide : Bool} {e : ConstExpr} {v : Int} (h : e.exact wide = some v) :
    FoldsAsC wide e v where
  meaning := cValue_kept (exact_eq_some_iff.mp h).1
  returned := by
    obtain ⟨hkept, -, hlong⟩ := exact_eq_some_iff.mp h
    obtain ⟨node, hnode, hvalue, -⟩ := (evaluateConstantReturnExpr_kept e).1 v hkept
    exact ⟨node, hnode, hvalue.trans (congrArg some (IntType.wrap_of_inRange hlong))⟩
  evaluated := by
    obtain ⟨hkept, -, hlong⟩ := exact_eq_some_iff.mp h
    rw [(evaluateConstantExpr_kept e).1 v hkept, IntType.wrap_of_inRange hlong]
  emitted := by
    obtain ⟨hkept, hcode, -⟩ := exact_eq_some_iff.mp h
    obtain ⟨o, ho⟩ := cgExpr_exists (ends_of_kept hkept) ⟨0, 0⟩
    refine ⟨o, ho, fun regs => ?_⟩
    have hfresh := fresh_cgExpr e _ _ ho
    have hlabels : ∀ n, marks (.alloc n) o.code ≤ 1 := by
      intro n
      refine (hfresh.marks n).trans ?_
      split <;> decide
    have hagree : Agree .none regs := fun _ _ hv => nomatch hv
    have hrun := emits_kept hlabels hkept _ o regs ho hagree
    rw [IntType.wrap_of_inRange hcode] at hrun
    have hall : o.code ++ [] <:+ o.code := ⟨[], by rw [List.nil_append, List.append_nil]⟩
    have hreaches := hrun [] hall
    rw [List.append_nil] at hreaches
    refine hreaches.mono ?_
    rintro m ⟨regs', hm, hcomputed⟩
    exact ⟨regs', hm, hcomputed.value⟩

/-- No character constant, no variable, no `+` or `-` with one operand, and `sizeof` only of
types and casts. -/
def Foldable : ConstExpr → Prop
  | integer _ | sizeofType _ | sizeofExpr (cast _ _) => True
  | character _ _ | identifier _ _ _ | sizeofExpr _ => False
  | cast _ e => e.Foldable
  | unary op r => op ≠ .plus ∧ op ≠ .minus ∧ r.Foldable
  | arith _ l r | compare _ l r | logical _ l r => l.Foldable ∧ r.Foldable

/-- A character constant is not read as a number. -/
theorem evaluateConstant_character (start : CharPrefix) (item : CharItem) :
    evaluateConstant (characterText start item) = .unset := by
  have hscan : ∀ b ∈ [chr '\'', chr 'L', chr 'u', chr 'U'], ∀ s : List UInt8,
      evaluateConstant (b :: s) = .unset := by
    intro b hb s
    have hfacts : ∀ b ∈ [chr '\'', chr 'L', chr 'u', chr 'U'], b ≠ chr '0' ∧ isSpace b = false ∧
        b ≠ chr '-' ∧ b ≠ chr '+' ∧ isDigitOf 10 b = false := by
      decide +kernel
    obtain ⟨hzero, hspace, hminus, hplus, hdigit⟩ := hfacts b hb
    have hrest : ∀ c ∈ (b :: s).head?, isDigitOf 10 c = false := by
      intro c hc
      rw [← Option.some.inj hc]
      exact hdigit
    have hstrtol : strtol 10 (b :: s) = (0, b :: s) := by
      have hstart : (b :: s).dropWhile isSpace = b :: s :=
        List.dropWhile_cons_of_neg (by rw [hspace]; exact Bool.false_ne_true)
      have hscan : scanDigits 10 0 (b :: s) = (0, b :: s) := scanDigits_of_ends hrest 0
      have hsign : ¬ (some b = some (chr '-') ∨ some b = some (chr '+')) := by
        rw [Option.some_inj, Option.some_inj]
        exact not_or.mpr ⟨hminus, hplus⟩
      unfold strtol
      rw [hstart]
      dsimp only
      rw [List.head?_cons, if_neg hsign, if_neg (show ¬ (10 : Nat) = 0 by decide)]
      dsimp only
      rw [hscan]
      exact if_pos rfl
    have hhead : ¬ (b :: s).head? = some (chr '0') := fun h => hzero (Option.some.inj h)
    rw [evaluateConstant, if_neg hhead, sscanfLd, hstrtol]
    exact congrArg Folded.scanned (if_pos rfl)
  cases start with
  | none => exact hscan (chr '\'') (by decide) _
  | wide => exact hscan (chr 'L') (by decide) _
  | char16 => exact hscan (chr 'u') (by decide) _
  | char32 => exact hscan (chr 'U') (by decide) _

/-- What both folders give a value to is foldable. -/
theorem foldable_of_values {e : ConstExpr} {node : ConstantNode} {v : Int}
    (h : e.evaluateConstantReturnExpr = .value node) (h' : e.evaluateConstantExpr = .value v) :
    e.Foldable := by
  induction e generalizing node v with
  | integer lit => trivial
  | character start item => cases (evaluateConstant_character start item).symm.trans h'
  | identifier decl constVar initValue ih => cases constVar <;> cases h
  | cast t e ih => exact ih h h'
  | sizeofType t => trivial
  | sizeofExpr right ih =>
    cases right with
    | cast t e => trivial
    | _ => cases h
  | unary op right ih =>
    obtain ⟨left, hleft, -⟩ := Folded.of_bind h
    obtain ⟨x, hx, hop⟩ := Folded.of_bind h'
    refine ⟨?_, ?_, ih hleft hx⟩
    · rintro rfl
      cases hop
    · rintro rfl
      cases hop
  | arith op l r ihl ihr | compare op l r ihl ihr | logical op l r ihl ihr =>
    obtain ⟨left, hleft, hrest⟩ := Folded.of_bind h
    obtain ⟨right, hright, -⟩ := Folded.of_bind hrest
    obtain ⟨x, hx, hrest'⟩ := Folded.of_bind h'
    obtain ⟨y, hy, -⟩ := Folded.of_bind hrest'
    exact ⟨ihl hleft hx, ihr hright hy⟩

/-- A decimal constant of one digit. -/
def oneDigit (d : Fin 9) : ConstExpr := integer
  { base := .decimal
    digits := [digitByte (d + 1)]
    suffix := []
    allDigits := by revert d; decide +kernel
    nonempty := fun _ => List.cons_ne_nil _ _
    leading := by revert d; decide
    hasSuffix := noSuffix }

/-- `010` -/
def octalEight : ConstExpr := integer
  { base := .octal
    digits := [chr '1', chr '0']
    suffix := []
    allDigits := by decide +kernel
    nonempty := fun h => absurd rfl h
    leading := nofun
    hasSuffix := noSuffix }

end ConstExpr

end Cod
end FFS
