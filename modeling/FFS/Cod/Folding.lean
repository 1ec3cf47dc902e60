import FFS.Cod.Constants
import FFS.Cod.Evaluated

/-!
# Folded constants

The folders ignore the types of an expression and do every operator on `long`s.  Where that gives
C's value at each operator, up to what 64 bits hold, and the constants are read right, both folders
give C's value, and so does the code.
-/

namespace FFS
namespace Cod

open Machine

/-! ## Values of 64 bits -/

theorem width_le (t : IntType) : t.width ≤ IntType.width .l := by cases t <;> decide

/-- What 64 bits hold of an integer settles what a type holds of it. -/
theorem wrap_of_long {x y : Int} (h : IntType.wrap .l x = IntType.wrap .l y) (t : IntType) :
    t.wrap x = t.wrap y := by
  rw [← IntType.wrap_wrap_of_le (width_le t) x, h, IntType.wrap_wrap_of_le (width_le t)]

/-- A type keeps an integer, up to what 64 bits hold. -/
def Carries (t : IntType) (x : Int) : Prop := IntType.wrap .l (t.wrap x) = IntType.wrap .l x

instance (t : IntType) (x : Int) : Decidable (Carries t x) := inferInstanceAs (Decidable (_ = _))

theorem carries_of_inRange {t : IntType} {x : Int} (h : t.InRange x) : Carries t x :=
  congrArg _ (IntType.wrap_of_inRange h)

theorem Carries.wrap {t : IntType} {x : Int} (h : Carries t x) (t' : IntType) :
    t'.wrap (t.wrap x) = t'.wrap x := wrap_of_long h t'

/-- Only zero is zero in 64 bits. -/
theorem long_eq_zero {t : IntType} {x : Int} (h : t.InRange x) : IntType.wrap .l x = 0 ↔ x = 0 :=
  IntType.wrap_eq_zero (width_le t) h

theorem Carries.eq_zero {t t' : IntType} {x : Int} (h : Carries t x) (hx : t'.InRange x) :
    t.wrap x = 0 ↔ x = 0 := by
  constructor
  · intro hzero
    unfold Carries at h
    rw [hzero, IntType.wrap_zero] at h
    exact (long_eq_zero hx).mp h.symm
  · rintro rfl
    exact t.wrap_zero

/-- In a type the operator gives an integer, up to what 64 bits hold. -/
def Gives (op : ArithOp) (t : IntType) (x y v : Int) : Prop :=
  (op.machine t (t.wrap x) (t.wrap y)).map (IntType.wrap .l) = some (IntType.wrap .l v)

instance (op : ArithOp) (t : IntType) (x y v : Int) : Decidable (Gives op t x y v) :=
  inferInstanceAs (Decidable (_ = _))

theorem Gives.machine {op : ArithOp} {t : IntType} {x y v : Int} (h : Gives op t x y v) :
    op.machine t (t.wrap x) (t.wrap y) = some (t.wrap v) ∧ Carries t v := by
  obtain ⟨g, hg, hlong⟩ := Option.map_eq_some_iff.mp h
  have hvalue : g = t.wrap v :=
    (IntType.wrap_of_inRange (ArithOp.inRange_machine hg)).symm.trans (wrap_of_long hlong t)
  subst hvalue
  exact ⟨hg, hlong⟩

/-! ## Exact expressions -/

/-- A constant that is read as its value: C gives it a type, a `long` holds it, `cg_expr` loads it,
and a binary one is zero. -/
def IntLiteral.Exact (lit : IntLiteral) (wide : Bool) : Prop :=
  lit.cType.isSome = true ∧ lit.value < 2 ^ 63 ∧ (lit.base = .binary → lit.value = 0) ∧
    (lit.hasU = true → lit.hasL = true → lit.value < 2 ^ 32 ∨ wide = true)

instance (lit : IntLiteral) (wide : Bool) : Decidable (lit.Exact wide) :=
  inferInstanceAs (Decidable (_ ∧ _))

/-- The table of `coerce_type` has the conversion. -/
def converts (target objType : IntType) : Bool :=
  target = objType ∨ missing (.int target) (.int objType) = false

namespace ConstExpr

/-- An operand that is no constant, or one with the same value as a decimal one. -/
def readsDecimal : ConstExpr → Bool
  | integer lit => lit.base = .decimal ∨ lit.value = 0 ∨ (lit.base = .octal ∧ lit.value < 8)
  | cast _ e => e.readsDecimal
  | _ => true

/-- The type that the code has for an operator. -/
def opType (op : ArithOp) (left right : ConstExpr) : IntType :=
  determineOpType (isShift op) left.codSmGetType right.codSmGetType

/-- An operator on `long`s that has no result for some operands. -/
def isPartial : ArithOp → Bool
  | .div | .mod | .lsh | .rsh => true
  | _ => false

mutual

/-- C's value of an expression that the folders and the code have at each of its parts, up to what
64 bits hold. -/
@[simp] def kept (wide : Bool) : ConstExpr → Option Int
  | integer lit => if lit.Exact wide then some (lit.value : Int) else none
  | character _ _ | identifier _ _ _ => none
  | cast t e => do
    let x ← e.kept wide
    if Carries t x ∧ converts t e.codSmGetType then some (t.wrap x) else none
  | sizeofType t | sizeofExpr (cast t _) => some (dillTypeSize t)
  | sizeofExpr _ => none
  | unary .not r => do
    let x ← r.kept wide
    if r.readsDecimal ∧ Carries r.cType.promote (-x - 1) ∧
      Carries (promotion r.codSmGetType) (-x - 1) then some (r.cType.promote.wrap (-x - 1)) else none
  | unary .logNeg r => do
    let x ← r.kept wide
    if r.readsDecimal then some (truth (decide (x = 0))) else none
  | unary _ _ => none
  | arith op l r => do
    let x ← l.kept wide
    let y ← r.kept wide
    let v ← cArith op l.cType r.cType x y
    if (l.readsDecimal ∧ r.readsDecimal) ∧ Gives op .l x y v ∧ Gives op (opType op l r) x y v
    then some v else none
  | compare op l r => do
    let x ← l.kept wide
    let y ← r.kept wide
    let t := l.cType.usual r.cType
    let b := op.holds (t.wrap x) (t.wrap y)
    if (l.readsDecimal ∧ r.readsDecimal) ∧
      foldCompare op (IntType.wrap .l x) (IntType.wrap .l y) = truth b ∧
      op.holds ((opType .add l r).wrap x) ((opType .add l r).wrap y) = b
    then some (truth b) else none
  | logical op l r => do
    let x ← l.kept wide
    if l.readsDecimal = false then none
    else if decide (x ≠ 0) = decide (op = .or) then
      if r.ends wide then some (truth (decide (op = .or))) else none
    else do
      let y ← r.kept wide
      if r.readsDecimal then some (truth (decide (y ≠ 0))) else none
termination_by structural e => e

/-- An expression that C does not evaluate: the folders come to an end on it. -/
def ends (wide : Bool) : ConstExpr → Bool
  | integer lit => lit.Exact wide
  | character _ _ | identifier _ _ _ => false
  | cast t e => e.ends wide && converts t e.codSmGetType
  | sizeofType _ | sizeofExpr (cast _ _) => true
  | sizeofExpr _ => false
  | unary .not r | unary .logNeg r => r.ends wide
  | unary _ _ => false
  | arith op l r =>
    if isPartial op then
      (l.readsDecimal && r.readsDecimal) && ((l.kept wide).bind fun x => (r.kept wide).bind fun y =>
        op.machine .l (IntType.wrap .l x) (IntType.wrap .l y)).isSome
    else l.ends wide && r.ends wide
  | compare _ l r | logical _ l r => l.ends wide && r.ends wide
termination_by structural e => e

end

/-- The value of an exact expression, which the type of the code and `long` have. -/
def exact (wide : Bool) (e : ConstExpr) : Option Int :=
  (e.kept wide).filter fun v => e.codSmGetType.InRange v ∧ IntType.InRange .l v

section Inversion

variable {wide : Bool} {e l r : ConstExpr} {v : Int}

theorem kept_integer {lit : IntLiteral} (h : (integer lit).kept wide = some v) :
    lit.Exact wide ∧ v = lit.value := by
  rw [kept] at h
  split at h
  · next hlit => exact ⟨hlit, (Option.some.inj h).symm⟩
  · cases h

theorem kept_cast {t : IntType} (h : (cast t e).kept wide = some v) :
    ∃ x, e.kept wide = some x ∧ v = t.wrap x ∧ Carries t x ∧ converts t e.codSmGetType = true := by
  simp only [kept, Option.bind_eq_bind, Option.bind_eq_some_iff, Option.ite_none_right_eq_some,
    Option.some.injEq] at h
  obtain ⟨x, hx, hcond, rfl⟩ := h
  exact ⟨x, hx, rfl, hcond⟩

theorem kept_not (h : (unary .not r).kept wide = some v) :
    ∃ x, r.kept wide = some x ∧ r.readsDecimal = true ∧ v = r.cType.promote.wrap (-x - 1) ∧
      Carries r.cType.promote (-x - 1) ∧ Carries (promotion r.codSmGetType) (-x - 1) := by
  simp only [kept, Option.bind_eq_bind, Option.bind_eq_some_iff, Option.ite_none_right_eq_some,
    Option.some.injEq] at h
  obtain ⟨x, hx, ⟨hreads, hc, hcode⟩, rfl⟩ := h
  exact ⟨x, hx, hreads, rfl, hc, hcode⟩

theorem kept_logNeg (h : (unary .logNeg r).kept wide = some v) :
    ∃ x, r.kept wide = some x ∧ r.readsDecimal = true ∧ v = truth (decide (x = 0)) := by
  simp only [kept, Option.bind_eq_bind, Option.bind_eq_some_iff, Option.ite_none_right_eq_some,
    Option.some.injEq] at h
  obtain ⟨x, hx, hreads, rfl⟩ := h
  exact ⟨x, hx, hreads, rfl⟩

theorem kept_arith {op : ArithOp} (h : (arith op l r).kept wide = some v) :
    ∃ x y, l.kept wide = some x ∧ r.kept wide = some y ∧
      cArith op l.cType r.cType x y = some v ∧
      (l.readsDecimal = true ∧ r.readsDecimal = true) ∧ Gives op .l x y v ∧
      Gives op (opType op l r) x y v := by
  simp only [kept, Option.bind_eq_bind, Option.bind_eq_some_iff, Option.ite_none_right_eq_some,
    Option.some.injEq] at h
  obtain ⟨x, hx, y, hy, z, hz, hcond, rfl⟩ := h
  exact ⟨x, y, hx, hy, hz, hcond⟩

/-- What C compares. -/
def cHolds (op : CompareOp) (l r : ConstExpr) (x y : Int) : Bool :=
  op.holds ((l.cType.usual r.cType).wrap x) ((l.cType.usual r.cType).wrap y)

theorem kept_compare {op : CompareOp} (h : (compare op l r).kept wide = some v) :
    ∃ x y, l.kept wide = some x ∧ r.kept wide = some y ∧ v = truth (cHolds op l r x y) ∧
      (l.readsDecimal = true ∧ r.readsDecimal = true) ∧
      foldCompare op (IntType.wrap .l x) (IntType.wrap .l y) = truth (cHolds op l r x y) ∧
      op.holds ((opType .add l r).wrap x) ((opType .add l r).wrap y) = cHolds op l r x y := by
  simp only [kept, Option.bind_eq_bind, Option.bind_eq_some_iff, Option.ite_none_right_eq_some,
    Option.some.injEq] at h
  obtain ⟨x, hx, y, hy, hcond, rfl⟩ := h
  exact ⟨x, y, hx, hy, rfl, hcond⟩

theorem kept_logical {op : LogicalOp} (h : (logical op l r).kept wide = some v) :
    ∃ x, l.kept wide = some x ∧ l.readsDecimal = true ∧
      (decide (x ≠ 0) = decide (op = .or) ∧ r.ends wide = true ∧ v = truth (decide (op = .or)) ∨
        decide (x ≠ 0) ≠ decide (op = .or) ∧ ∃ y, r.kept wide = some y ∧ r.readsDecimal = true ∧
          v = truth (decide (y ≠ 0))) := by
  rw [kept] at h
  obtain ⟨x, hx, h⟩ := Option.bind_eq_some_iff.mp h
  refine ⟨x, hx, ?_⟩
  split at h
  · cases h
  · next hreads =>
    refine ⟨Bool.eq_true_of_not_eq_false hreads, ?_⟩
    split at h
    · next hshort =>
      split at h
      · next hends => exact .inl ⟨hshort, hends, (Option.some.inj h).symm⟩
      · cases h
    · next hlong =>
      obtain ⟨y, hy, h⟩ := Option.bind_eq_some_iff.mp h
      split at h
      · next hreads' => exact .inr ⟨hlong, y, hy, hreads', (Option.some.inj h).symm⟩
      · cases h

/-- An operand of `sizeof` is a cast. -/
theorem kept_sizeofExpr (h : (sizeofExpr r).kept wide = some v) :
    ∃ t e, r = cast t e ∧ v = dillTypeSize t := by
  cases r with
  | cast t e => exact ⟨t, e, rfl, (Option.some.inj h).symm⟩
  | _ => cases h

theorem ends_sizeofExpr (h : (sizeofExpr r).ends wide = true) : ∃ t e, r = cast t e := by
  cases r with
  | cast t e => exact ⟨t, e, rfl⟩
  | _ => cases h

theorem ends_unary {op : UnaryOp} (h : (unary op r).ends wide = true) :
    (op = .not ∨ op = .logNeg) ∧ r.ends wide = true := by
  cases op with
  | plus | minus => cases h
  | not => exact ⟨.inl rfl, h⟩
  | logNeg => exact ⟨.inr rfl, h⟩

theorem ends_arith {op : ArithOp} (h : (arith op l r).ends wide = true) :
    isPartial op = true ∧ (∃ x y v, l.kept wide = some x ∧ r.kept wide = some y ∧
        (l.readsDecimal = true ∧ r.readsDecimal = true) ∧
        op.machine .l (IntType.wrap .l x) (IntType.wrap .l y) = some v) ∨
      isPartial op = false ∧ l.ends wide = true ∧ r.ends wide = true := by
  rw [ends] at h
  split at h
  · next hshort =>
    rw [Bool.and_eq_true, Bool.and_eq_true, Option.isSome_iff_exists] at h
    obtain ⟨hreads, v, hv⟩ := h
    obtain ⟨x, hx, hv⟩ := Option.bind_eq_some_iff.mp hv
    obtain ⟨y, hy, hv⟩ := Option.bind_eq_some_iff.mp hv
    exact .inl ⟨hshort, x, y, v, hx, hy, hreads, hv⟩
  · next htotal =>
    rw [Bool.and_eq_true] at h
    exact .inr ⟨Bool.eq_false_iff.mpr htotal, h⟩

theorem exact_eq_some_iff : e.exact wide = some v ↔
    e.kept wide = some v ∧ e.codSmGetType.InRange v ∧ IntType.InRange .l v := by
  rw [exact, Option.filter_eq_some_iff, decide_eq_true_iff]

end Inversion

end ConstExpr

/-! ## Constants -/

/-- Below 8 the digits of an octal number are those of a decimal one. -/
theorem scanDigits_octal_small {ds : List UInt8} (hds : ∀ b ∈ ds, isDigitOf 8 b = true)
    (h : (scanDigits 8 0 ds).1 < 8) : (scanDigits 10 0 ds).1 = (scanDigits 8 0 ds).1 := by
  have hgrows : ∀ (ds : List UInt8) (a : Nat), (∀ b ∈ ds, isDigitOf 8 b = true) →
      a ≤ (scanDigits 8 a ds).1 ∧ (ds ≠ [] → 8 * a ≤ (scanDigits 8 a ds).1) := by
    intro ds
    induction ds with
    | nil => exact fun a _ => ⟨le_rfl, fun hne => absurd rfl hne⟩
    | cons b ds ih =>
      intro a hds
      obtain ⟨d, hd, hlt⟩ := isDigitOf_some (hds b List.mem_cons_self)
      obtain ⟨hle, -⟩ := ih (a * 8 + d) fun c hc => hds c (List.mem_cons_of_mem b hc)
      rw [scanDigits, hd]
      dsimp only
      rw [if_pos hlt]
      omega
  induction ds with
  | nil => rfl
  | cons b ds ih =>
    obtain ⟨d, hd, hlt⟩ := isDigitOf_some (hds b List.mem_cons_self)
    have hds' : ∀ c ∈ ds, isDigitOf 8 c = true := fun c hc => hds c (List.mem_cons_of_mem b hc)
    rw [scanDigits, hd] at h ⊢
    dsimp only at h ⊢
    rw [if_pos hlt] at h
    rw [if_pos (by omega), scanDigits, hd]
    dsimp only
    rw [if_pos hlt]
    cases ds with
    | nil => rw [scanDigits, scanDigits, Nat.zero_mul]
    | cons c cs =>
      have hzero : d = 0 := by
        have hle := (hgrows (c :: cs) (0 * 8 + d) hds').2 (List.cons_ne_nil c cs)
        omega
      subst hzero
      exact ih hds' h

namespace IntLiteral

variable {lit : IntLiteral} {wide : Bool}

theorem readLong_of_exact (h : lit.Exact wide) : lit.readLong = lit.value := by
  obtain ⟨-, hlong, hbinary, -⟩ := h
  unfold readLong
  cases hbase : lit.base with
  | decimal => exact congrArg Int.ofNat (by omega)
  | octal | hex => exact wrap_small hlong
  | binary =>
    dsimp only
    rw [hbinary hbase, Nat.zero_mul]
    rfl

theorem constantLong_of_exact (h : lit.Exact wide) :
    constantLong lit.text = some (lit.value : Int) := by
  rw [lit.constantLong_text, readLong_of_exact h]

/-- C's type has the value. -/
theorem inRange_cType (h : lit.Exact wide) : (lit.cType.getD .i).InRange lit.value := by
  obtain ⟨t, ht⟩ := Option.isSome_iff_exists.mp h.1
  rw [ht, Option.getD_some]
  have hfound := List.find?_some (p := fun t : IntType => decide (t.InRange lit.value)) ht
  exact of_decide_eq_true hfound

theorem inRange_typeFor (decimal hasU hasL : Bool) {v : Nat} (hv : v < 2 ^ 63) :
    (typeFor decimal hasU hasL v).InRange v := by
  rw [typeFor_nat]
  split_ifs with hl h31 h32 hu
  · exact (inRange_i v).mpr h31
  · exact (inRange_u v).mpr h32.2
  · exact (inRange_l v).mpr hv
  · exact (inRange_ul v).mpr (by omega)
  · exact (inRange_l v).mpr hv

/-- The type of the code has it, and it is what is loaded. -/
theorem load_of_exact (h : lit.Exact wide) :
    ((typeOfIntConstString lit.text).getD .i).InRange lit.value ∧
      loadInteger wide lit.text =
        some ((typeOfIntConstString lit.text).getD .i, (lit.value : Int)) := by
  rw [lit.typeOfIntConstString_text, Option.getD_some, lit.loadInteger_text, readLong_of_exact h]
  have hrange := inRange_typeFor (lit.base = .decimal) lit.hasU lit.hasL h.2.1
  refine ⟨hrange, ?_⟩
  dsimp only
  congr 2
  have hul : typeFor (lit.base = .decimal) lit.hasU lit.hasL lit.value = .ul →
      lit.hasU = true ∧ lit.hasL = true := by
    rw [typeFor_nat]
    split_ifs with hl h31 h32 hu <;> intro heq
    · cases heq
    · cases heq
    · cases heq
    · exact ⟨hu, Bool.eq_true_of_not_eq_false hl⟩
    · cases heq
  revert hrange hul
  generalize typeFor (lit.base = .decimal) lit.hasU lit.hasL lit.value = t
  intro hrange hul
  cases t with
  | u => exact (setu_nat wide _).mpr (.inl ((inRange_u _).mp hrange))
  | ul =>
    obtain ⟨hu, hl⟩ := hul rfl
    refine (setu_nat wide _).mpr ((h.2.2.2 hu hl).imp_right fun hwide => ⟨hwide, ?_⟩)
    have hlong := h.2.1
    omega
  | i => exact IntType.wrap_of_inRange hrange
  | _ => exact IntType.wrap_of_inRange ((inRange_l _).mpr h.2.1)

theorem octal_second (hbase : lit.base = .octal) {c : UInt8} (hc : isDigitOf 8 c = false)
    (hsuffix : ∀ suffix ∈ integerSuffixes, c ∉ suffix) :
    (lit.digits ++ lit.suffix).head? ≠ some c := by
  intro hhead
  have hdigits := lit.allDigits
  rw [hbase] at hdigits
  rcases List.mem_append.mp (List.mem_of_mem_head? hhead) with hmem | hmem
  · exact Bool.false_ne_true (hc.symm.trans (hdigits c hmem))
  · exact hsuffix lit.suffix lit.hasSuffix hmem

theorem zero_is_digit {base : Nat} (h : 2 ≤ base) : ∀ c ∈ [chr '0'], isDigitOf base c = true := by
  intro c hc
  rw [List.mem_singleton.mp hc]
  exact isDigitOf_mono h (by decide)

/-- `%ld` on a `0` and a letter. -/
theorem sscanfLd_zero {b : UInt8} (hb : isDigitOf 10 b = false) (s : List UInt8) :
    sscanfLd (chr '0' :: b :: s) = some 0 := by
  have hdigits : ∀ c ∈ [chr '0'], isDigitOf 10 c = true := zero_is_digit (by decide)
  have hrest : ∀ c ∈ (b :: s).head?, isDigitOf 10 c = false := by
    intro c hc
    rw [← Option.some.inj hc]
    exact hb
  have hscan := sscanfLd_digits (List.cons_ne_nil _ _) hdigits hrest
  exact hscan.trans (by decide)

/-- `evaluate_constant_expr` reads it. -/
theorem evaluateConstant_of_exact (h : lit.Exact wide) :
    ConstExpr.evaluateConstant lit.text = .value (lit.value : Int) := by
  have hlong := constantLong_of_exact h
  cases hbase : lit.base with
  | decimal =>
    have hhead := (lit.head_text).not.mpr (not_not_intro hbase)
    rw [constantLong, if_neg hhead] at hlong
    rw [ConstExpr.evaluateConstant, if_neg hhead, hlong]
    rfl
  | hex =>
    have htext : lit.text = chr '0' :: chr 'x' :: (lit.digits ++ lit.suffix) := by
      rw [text, hbase]
      rfl
    rw [htext] at hlong ⊢
    rw [constantLong_hex] at hlong
    have hread : ConstExpr.evaluateConstant (chr '0' :: chr 'x' :: (lit.digits ++ lit.suffix)) =
        .scanned (sscanfUnsigned 16 (lit.digits ++ lit.suffix)) := (if_pos rfl).trans (if_pos rfl)
    rw [hread, hlong]
    rfl
  | octal =>
    have htext : lit.text = chr '0' :: (lit.digits ++ lit.suffix) := by
      rw [text, hbase]
      rfl
    have hx := octal_second hbase (c := chr 'x') (by decide) (by decide)
    have hb := octal_second hbase (c := chr 'b') (by decide) (by decide)
    rw [htext] at hlong ⊢
    rw [constantLong_octal hx hb] at hlong
    have hread : ConstExpr.evaluateConstant (chr '0' :: (lit.digits ++ lit.suffix)) =
        .scanned (sscanfUnsigned 8 (chr '0' :: (lit.digits ++ lit.suffix))) :=
      (if_pos rfl).trans (if_neg hx)
    rw [hread, hlong]
    rfl
  | binary =>
    have htext : lit.text = chr '0' :: chr 'b' :: (lit.digits ++ lit.suffix) := by
      rw [text, hbase]
      rfl
    have hb : ∀ b ∈ (chr 'b' :: (lit.digits ++ lit.suffix)).head?, isDigitOf 8 b = false := by
      intro b hb
      rw [← Option.some.inj hb]
      decide
    have hscan := @sscanfUnsigned_digits 8 _ (chr 'b' :: (lit.digits ++ lit.suffix))
      (List.cons_ne_nil (chr '0') []) (zero_is_digit (by decide)) hb
      fun h => absurd h (by decide)
    have hzero : (scanDigits 8 0 [chr '0']).1 = 0 := by decide
    have hread : ConstExpr.evaluateConstant (chr '0' :: chr 'b' :: (lit.digits ++ lit.suffix)) =
        .scanned (sscanfUnsigned 8 ([chr '0'] ++ chr 'b' :: (lit.digits ++ lit.suffix))) :=
      (if_pos rfl).trans (if_neg (show ¬ some (chr 'b') = some (chr 'x') by decide))
    rw [htext, hread, hscan, hzero, Nat.zero_min, h.2.2.1 hbase]
    exact congrArg Folded.value (IntType.wrap_zero .l)

/-- `get_constant_long_value` reads it. -/
theorem sscanfLd_of_exact (h : lit.Exact wide)
    (hreads : (ConstExpr.integer lit).readsDecimal = true) :
    sscanfLd lit.text = some (lit.value : Int) := by
  have hreads : lit.base = .decimal ∨ lit.value = 0 ∨ (lit.base = .octal ∧ lit.value < 8) :=
    of_decide_eq_true hreads
  have hdigits := lit.allDigits
  have hletters := suffix_letters lit.hasSuffix
  have hlong := h.2.1
  cases hbase : lit.base with
  | decimal =>
    have hhead := (lit.head_text).not.mpr (not_not_intro hbase)
    have hread := constantLong_of_exact h
    rw [constantLong, if_neg hhead] at hread
    exact hread
  | octal =>
    have hsmall : lit.value < 8 := by
      rcases hreads with hdecimal | hzero | hoctal
      · rw [hbase] at hdecimal
        cases hdecimal
      · omega
      · exact hoctal.2
    have hvalue : lit.value = (scanDigits 8 0 lit.digits).1 := by
      rw [value, hbase]
      rfl
    have htext : lit.text = (chr '0' :: lit.digits) ++ lit.suffix := by
      rw [text, hbase]
      rfl
    rw [hbase] at hdigits
    have hall : ∀ b ∈ chr '0' :: lit.digits, isDigitOf 10 b = true := by
      intro b hb
      rcases List.mem_cons.mp hb with rfl | hb
      · decide
      · exact isDigitOf_mono (by decide) (hdigits b hb)
    have hzero : scanDigits 10 0 (chr '0' :: lit.digits) = scanDigits 10 0 lit.digits := rfl
    rw [hvalue] at hsmall
    rw [htext, sscanfLd_digits (List.cons_ne_nil _ _) hall fun b hb =>
      (hletters b (List.mem_of_mem_head? hb)).2.1, hzero, scanDigits_octal_small hdigits hsmall, hvalue]
    congr 2
    omega
  | hex =>
    have hzero : lit.value = 0 := by
      rcases hreads with hdecimal | hzero | hoctal
      · rw [hbase] at hdecimal
        cases hdecimal
      · exact hzero
      · rw [hbase] at hoctal
        cases hoctal.1
    have htext : lit.text = chr '0' :: chr 'x' :: (lit.digits ++ lit.suffix) := by
      rw [text, hbase]
      rfl
    rw [htext, sscanfLd_zero (by decide), hzero]
    rfl
  | binary =>
    have htext : lit.text = chr '0' :: chr 'b' :: (lit.digits ++ lit.suffix) := by
      rw [text, hbase]
      rfl
    rw [htext, sscanfLd_zero (by decide), h.2.2.1 hbase]
    rfl

/-- `get_constant_long_value` reads a number, if another one for another base. -/
theorem exists_sscanfLd (h : lit.Exact wide) : ∃ x, sscanfLd lit.text = some x := by
  cases hbase : lit.base with
  | decimal => exact ⟨_, sscanfLd_of_exact h (decide_eq_true (.inl hbase))⟩
  | octal =>
    have htext : lit.text = (chr '0' :: lit.digits) ++ lit.suffix := by
      rw [text, hbase]
      rfl
    have hdigits := lit.allDigits
    rw [hbase] at hdigits
    have hall : ∀ b ∈ chr '0' :: lit.digits, isDigitOf 10 b = true := by
      intro b hb
      rcases List.mem_cons.mp hb with rfl | hb
      · decide
      · exact isDigitOf_mono (by decide) (hdigits b hb)
    rw [htext]
    exact ⟨_, sscanfLd_digits (List.cons_ne_nil _ _) hall fun b hb =>
      (suffix_letters lit.hasSuffix b (List.mem_of_mem_head? hb)).2.1⟩
  | hex =>
    have htext : lit.text = chr '0' :: chr 'x' :: (lit.digits ++ lit.suffix) := by
      rw [text, hbase]
      rfl
    rw [htext]
    exact ⟨_, sscanfLd_zero (by decide) _⟩
  | binary =>
    have htext : lit.text = chr '0' :: chr 'b' :: (lit.digits ++ lit.suffix) := by
      rw [text, hbase]
      rfl
    rw [htext]
    exact ⟨_, sscanfLd_zero (by decide) _⟩

end IntLiteral

/-! ## Values -/

theorem foldLogical_eq (op : LogicalOp) (x y : Int) : foldLogical op x y =
    if decide (x ≠ 0) = decide (op = .or) then truth (decide (op = .or))
    else truth (decide (y ≠ 0)) := by
  cases op <;> by_cases hx : x = 0 <;> by_cases hy : y = 0 <;> simp [foldLogical, hx, hy, truth]

theorem inRange_dillTypeSize (t t' : IntType) : t'.InRange (dillTypeSize t) := by
  cases t <;> cases t' <;> decide

theorem inRange_sscanfLd {s : List UInt8} {x : Int} (h : sscanfLd s = some x) :
    IntType.InRange .l x := by
  have hclamp : ∀ y, IntType.InRange .l (clampLong y) := by
    intro y
    show -2 ^ 63 ≤ clampLong y ∧ clampLong y < 2 ^ 63
    unfold clampLong
    omega
  rw [sscanfLd] at h
  split at h
  · cases h
  · rw [← Option.some.inj h]
    show IntType.InRange .l (Machine.strtol _ s).1
    simp only [Machine.strtol]
    split_ifs
    all_goals first | exact hclamp _ | exact (by decide : IntType.InRange .l 0)

/-- In front of zero as many numbers are as behind. -/
theorem long_not (x : Int) : -IntType.wrap .l x - 1 = IntType.wrap .l (-x - 1) := by
  simp only [IntType.wrap, IntType.signed, IntType.width, if_true, Int.bmod_def]
  omega

/-- `~` is the exclusive or with a number of ones. -/
theorem bitwise_not (t : IntType) (x : Int) :
    ArithOp.bitwise .xor t (t.wrap (-1)) x = t.wrap (-x - 1) := by
  have hones : BitVec.ofInt t.width (t.wrap (-1)) = BitVec.allOnes t.width := by
    cases t <;> decide
  have hnat : ((BitVec.ofInt t.width x).toNat : Int) = x % 2 ^ t.width := by
    have hne : ((2 ^ t.width : Nat) : Int) ≠ 0 := by
      exact_mod_cast (Nat.two_pow_pos t.width).ne'
    rw [BitVec.toNat_ofInt, Int.toNat_of_nonneg (Int.emod_nonneg x hne), Nat.cast_pow,
      Nat.cast_ofNat]
  have hlt := (BitVec.ofInt t.width x).isLt
  have hcast : ((2 ^ t.width - 1 - (BitVec.ofInt t.width x).toNat : Nat) : Int) =
      2 ^ t.width - 1 - x % 2 ^ t.width := by
    rw [← hnat]
    have hpow : ((2 ^ t.width : Nat) : Int) = 2 ^ t.width := by push_cast; rfl
    rw [← hpow]
    omega
  have hlow : (2 ^ t.width - 1 - x % 2 ^ t.width) % 2 ^ t.width = (-x - 1) % 2 ^ t.width := by
    cases t <;> simp only [IntType.width] <;> omega
  show t.wrap ((BitVec.ofInt t.width (t.wrap (-1)) ^^^ BitVec.ofInt t.width x).toNat : Int) = _
  rw [hones, BitVec.allOnes_xor, BitVec.toNat_not, hcast, IntType.wrap_congr hlow]

namespace ConstExpr

variable {wide : Bool} {e : ConstExpr} {v : Int}

/-- C's type has the value, and that of the code has it up to 64 bits. -/
theorem inRange_kept (h : e.kept wide = some v) : e.cType.InRange v ∧ Carries e.codSmGetType v := by
  have hboth : ∀ {t t' : IntType} {v : Int}, t.InRange v → t'.InRange v →
      t.InRange v ∧ Carries t' v := fun h h' => ⟨h, carries_of_inRange h'⟩
  cases e with
  | integer lit =>
    obtain ⟨hlit, rfl⟩ := kept_integer h
    exact hboth (IntLiteral.inRange_cType hlit) (IntLiteral.load_of_exact hlit).1
  | character start item => cases h
  | identifier decl constVar initValue => cases h
  | cast t e =>
    obtain ⟨x, -, rfl, -⟩ := kept_cast h
    exact hboth (t.inRange_wrap x) (t.inRange_wrap x)
  | sizeofType t =>
    cases h
    exact hboth (inRange_dillTypeSize _ _) (inRange_dillTypeSize _ _)
  | sizeofExpr right =>
    obtain ⟨t, e, rfl, rfl⟩ := kept_sizeofExpr h
    exact hboth (inRange_dillTypeSize _ _) (inRange_dillTypeSize _ _)
  | unary op right =>
    cases op with
    | plus | minus => cases h
    | not =>
      obtain ⟨x, -, -, rfl, hc, hcode⟩ := kept_not h
      refine ⟨right.cType.promote.inRange_wrap _, ?_⟩
      show IntType.wrap .l ((promotion right.codSmGetType).wrap _) = _
      rw [hc.wrap, hc.wrap]
      exact hcode
    | logNeg =>
      obtain ⟨x, -, -, rfl⟩ := kept_logNeg h
      exact hboth (inRange_truth _ _) (inRange_truth _ _)
  | arith op l r =>
    obtain ⟨x, y, -, -, hv, -, -, hcode⟩ := kept_arith h
    exact ⟨inRange_cArith hv, hcode.machine.2⟩
  | compare op l r =>
    obtain ⟨x, y, -, -, rfl, -⟩ := kept_compare h
    exact hboth (inRange_truth _ _) (inRange_truth _ _)
  | logical op l r =>
    obtain ⟨x, -, -, ⟨-, -, rfl⟩ | ⟨-, y, -, -, rfl⟩⟩ := kept_logical h
    · exact hboth (inRange_truth _ _) (inRange_truth _ _)
    · exact hboth (inRange_truth _ _) (inRange_truth _ _)

/-- C gives the expression its value. -/
theorem cValue_kept (h : e.kept wide = some v) : e.cValue = some v := by
  induction e generalizing v with
  | integer lit =>
    obtain ⟨hlit, rfl⟩ := kept_integer h
    obtain ⟨t, ht⟩ := Option.isSome_iff_exists.mp hlit.1
    rw [cValue, ht, Option.map_some]
  | character start item => cases h
  | identifier decl constVar initValue ih => cases h
  | cast t e ih =>
    obtain ⟨x, hx, rfl, -⟩ := kept_cast h
    rw [cValue, ih hx, Option.map_some]
  | sizeofType t => exact h
  | sizeofExpr right ih =>
    obtain ⟨t, e, rfl, rfl⟩ := kept_sizeofExpr h
    rfl
  | unary op right ih =>
    cases op with
    | plus | minus => cases h
    | not =>
      obtain ⟨x, hx, -, rfl, -⟩ := kept_not h
      have hwrap := IntType.wrap_of_inRange (IntType.inRange_promote (inRange_kept hx).1)
      rw [cValue, ih hx, Option.bind_eq_bind, Option.bind_some, cUnary, hwrap]
      exact congrArg some (bitwise_not _ x)
    | logNeg =>
      obtain ⟨x, hx, -, rfl⟩ := kept_logNeg h
      rw [cValue, ih hx]
      rfl
  | arith op l r ihl ihr =>
    obtain ⟨x, y, hx, hy, hv, -⟩ := kept_arith h
    rw [cValue, ihl hx, ihr hy, Option.bind_eq_bind, Option.bind_some, Option.bind_some, hv]
  | compare op l r ihl ihr =>
    obtain ⟨x, y, hx, hy, rfl, -⟩ := kept_compare h
    rw [cValue, ihl hx, ihr hy]
    rfl
  | logical op l r ihl ihr =>
    obtain ⟨x, hx, -, ⟨hshort, -, rfl⟩ | ⟨hlong, y, hy, -, rfl⟩⟩ := kept_logical h
    · rw [cValue, ihl hx, Option.bind_eq_bind, Option.bind_some, if_pos hshort]
    · rw [cValue, ihl hx, ihr hy, Option.bind_eq_bind, Option.bind_some, if_neg hlong]
      rfl

theorem foldArith_of_gives {op : ArithOp} {x y : Int} (h : Gives op .l x y v) :
    foldArith op (IntType.wrap .l x) (IntType.wrap .l y) = .value (IntType.wrap .l v) := by
  rw [foldArith, h.machine.1]

theorem exists_foldArith {op : ArithOp} (hop : isPartial op = false) (x y : Int) :
    ∃ z, foldArith op x y = .value z := by
  cases op with
  | div | mod | lsh | rsh => cases hop
  | add | sub | mul | and | or | xor => exact ⟨_, rfl⟩

theorem inRange_foldArith {op : ArithOp} {x y z : Int} (h : foldArith op x y = .value z) :
    IntType.InRange .l z := by
  rw [foldArith] at h
  cases hv : op.machine .l x y with
  | none =>
    rw [hv] at h
    dsimp only at h
    split at h <;> cases h
  | some v =>
    rw [hv] at h
    cases h
    exact ArithOp.inRange_machine hv

/-- The folders' `||` and `&&` on values of 64 bits, of which C looks at the left one only or at
both. -/
theorem foldLogical_short {op : LogicalOp} {t : IntType} {x : Int} (hx : t.InRange x)
    (h : decide (x ≠ 0) = decide (op = .or)) (y : Int) :
    foldLogical op (IntType.wrap .l x) y = truth (decide (op = .or)) := by
  rw [foldLogical_eq, if_pos]
  rw [← h, decide_eq_decide, ne_eq, ne_eq, long_eq_zero hx]

theorem foldLogical_long {op : LogicalOp} {t t' : IntType} {x y : Int} (hx : t.InRange x)
    (hy : t'.InRange y) (h : decide (x ≠ 0) ≠ decide (op = .or)) :
    foldLogical op (IntType.wrap .l x) (IntType.wrap .l y) = truth (decide (y ≠ 0)) := by
  have hdecide : ∀ {t : IntType} {x : Int}, t.InRange x →
      decide (IntType.wrap .l x ≠ 0) = decide (x ≠ 0) := by
    intro t x hx
    rw [decide_eq_decide, ne_eq, ne_eq, long_eq_zero hx]
  rw [foldLogical_eq, hdecide hx, hdecide hy, if_neg h]

theorem long_truth (b : Bool) : IntType.wrap .l (truth b) = truth b :=
  IntType.wrap_of_inRange (inRange_truth _ _)

/-- `evaluate_constant_expr` gives it that value, and comes to an end where C does not evaluate. -/
theorem evaluateConstantExpr_kept (e : ConstExpr) :
    (∀ v, e.kept wide = some v → e.evaluateConstantExpr = .value (IntType.wrap .l v)) ∧
      (e.ends wide = true → ∃ x, e.evaluateConstantExpr = .value x) := by
  induction e with
  | integer lit =>
    have hread : lit.Exact wide →
        evaluateConstantExpr (integer lit) = .value (lit.value : Int) :=
      fun hlit => IntLiteral.evaluateConstant_of_exact hlit
    refine ⟨fun v h => ?_, fun h => ⟨_, hread (of_decide_eq_true h)⟩⟩
    obtain ⟨hlit, rfl⟩ := kept_integer h
    rw [hread hlit, IntType.wrap_of_inRange ((inRange_l _).mpr hlit.2.1)]
  | character start item => exact ⟨fun _ h => (by cases h), fun h => (by cases h)⟩
  | identifier decl constVar initValue ih => exact ⟨fun _ h => (by cases h), fun h => (by cases h)⟩
  | cast t e ih =>
    constructor
    · intro v h
      obtain ⟨x, hx, rfl, hcarries, -⟩ := kept_cast h
      rw [hcarries]
      exact ih.1 x hx
    · intro h
      rw [ends, Bool.and_eq_true] at h
      exact ih.2 h.1
  | sizeofType t =>
    refine ⟨fun v h => ?_, fun _ => ⟨_, rfl⟩⟩
    cases h
    rw [IntType.wrap_of_inRange (inRange_dillTypeSize _ _)]
    rfl
  | sizeofExpr right ih =>
    constructor
    · intro v h
      obtain ⟨t, e, rfl, rfl⟩ := kept_sizeofExpr h
      rw [IntType.wrap_of_inRange (inRange_dillTypeSize _ _)]
      rfl
    · intro h
      obtain ⟨t, e, rfl⟩ := ends_sizeofExpr h
      exact ⟨_, rfl⟩
  | unary op right ih =>
    constructor
    · intro v h
      cases op with
      | plus | minus => cases h
      | not =>
        obtain ⟨x, hx, -, rfl, hc, -⟩ := kept_not h
        rw [evaluateConstantExpr, ih.1 x hx, hc, ← long_not]
        rfl
      | logNeg =>
        obtain ⟨x, hx, -, rfl⟩ := kept_logNeg h
        rw [evaluateConstantExpr, ih.1 x hx, long_truth]
        show Folded.value (truth _) = _
        rw [decide_eq_decide.mpr (long_eq_zero (inRange_kept hx).1)]
    · intro h
      obtain ⟨hop, h⟩ := ends_unary h
      obtain ⟨x, hx⟩ := ih.2 h
      rw [evaluateConstantExpr, hx]
      rcases hop with rfl | rfl
      · exact ⟨_, rfl⟩
      · exact ⟨_, rfl⟩
  | arith op l r ihl ihr =>
    constructor
    · intro v h
      obtain ⟨x, y, hx, hy, -, -, hlong, -⟩ := kept_arith h
      rw [evaluateConstantExpr, ihl.1 x hx, ihr.1 y hy]
      exact foldArith_of_gives hlong
    · intro h
      rw [evaluateConstantExpr]
      obtain ⟨-, x, y, v, hx, hy, -, hv⟩ | ⟨htotal, hl, hr⟩ := ends_arith h
      · rw [ihl.1 x hx, ihr.1 y hy]
        refine ⟨v, ?_⟩
        show foldArith _ _ _ = _
        rw [foldArith, hv]
      · obtain ⟨x, hx⟩ := ihl.2 hl
        obtain ⟨y, hy⟩ := ihr.2 hr
        rw [hx, hy]
        exact exists_foldArith htotal x y
  | compare op l r ihl ihr =>
    constructor
    · intro v h
      obtain ⟨x, y, hx, hy, rfl, -, hfold, -⟩ := kept_compare h
      rw [evaluateConstantExpr, ihl.1 x hx, ihr.1 y hy, long_truth]
      exact congrArg Folded.value hfold
    · intro h
      rw [ends, Bool.and_eq_true] at h
      obtain ⟨x, hx⟩ := ihl.2 h.1
      obtain ⟨y, hy⟩ := ihr.2 h.2
      rw [evaluateConstantExpr, hx, hy]
      exact ⟨_, rfl⟩
  | logical op l r ihl ihr =>
    constructor
    · intro v h
      obtain ⟨x, hx, -, ⟨hshort, hends, rfl⟩ | ⟨hlong, y, hy, -, rfl⟩⟩ := kept_logical h
      · obtain ⟨y, hy⟩ := ihr.2 hends
        rw [evaluateConstantExpr, ihl.1 x hx, hy, long_truth]
        exact congrArg Folded.value (foldLogical_short (inRange_kept hx).1 hshort y)
      · rw [evaluateConstantExpr, ihl.1 x hx, ihr.1 y hy, long_truth]
        exact congrArg Folded.value
          (foldLogical_long (inRange_kept hx).1 (inRange_kept hy).1 hlong)
    · intro h
      rw [ends, Bool.and_eq_true] at h
      obtain ⟨x, hx⟩ := ihl.2 h.1
      obtain ⟨y, hy⟩ := ihr.2 h.2
      rw [evaluateConstantExpr, hx, hy]
      exact ⟨_, rfl⟩

end ConstExpr

/-! ## Constant nodes -/

/-- The value of a constant node, as `cg_expr` reads it. -/
def ConstantNode.value (node : ConstantNode) : Option Int :=
  match node.token with
  | .integerConstant => constantLong node.constVal
  | .characterConstant => loadCharacter node.constVal

theorem sscanfLd_decimal {v : Int} (h : IntType.InRange .l v) : sscanfLd (decimal v) = some v := by
  have hclamp : clampLong v = v := by
    obtain ⟨hlow, hhigh⟩ := h
    have hlow : -2 ^ 63 ≤ v := hlow
    have hhigh : v < 2 ^ 63 := hhigh
    unfold clampLong
    omega
  have hread := strtol_decimal v endsNumber_nil
  rw [List.append_nil, hclamp] at hread
  have hne : ([] : List UInt8).length ≠ (decimal v).length := by
    obtain ⟨d, rest, -, hdigits⟩ := digits_head (Nat.lt_succ_self v.natAbs)
    unfold decimal
    rw [hdigits]
    split <;> exact (Nat.succ_ne_zero _).symm
  rw [sscanfLd, hread]
  exact if_neg hne

/-- The printed result of a fold has its value. -/
theorem newConstant_value {v : Int} (h : IntType.InRange .l v) :
    (newConstant v).value = some v ∧ getConstantLongValue (newConstant v) = .value v := by
  have hscan := sscanfLd_decimal h
  refine ⟨?_, congrArg Folded.scanned hscan⟩
  show constantLong (decimal v) = some v
  by_cases hzero : v = 0
  · subst hzero
    decide
  · rw [constantLong, if_neg, hscan]
    intro hhead
    unfold decimal at hhead
    by_cases hneg : v < 0
    · rw [if_pos hneg] at hhead
      exact absurd (Option.some.inj hhead) (by decide)
    · rw [if_neg hneg] at hhead
      have hnat := digits_leading (Nat.lt_succ_self v.natAbs) hhead
      omega

namespace ConstExpr

variable {wide : Bool} {e l r : ConstExpr} {v : Int}

/-- `evaluate_constant_return_expr` makes a constant of a value, which an operator reads if it
reads the text of a constant right. -/
def ReturnsKept (e : ConstExpr) (v : Int) : Prop :=
  ∃ node, e.evaluateConstantReturnExpr = .value node ∧ node.value = some (IntType.wrap .l v) ∧
    (e.readsDecimal = true → getConstantLongValue node = .value (IntType.wrap .l v))

/-- It makes a constant that an operator reads as some value. -/
def Returns (e : ConstExpr) : Prop :=
  ∃ node x, e.evaluateConstantReturnExpr = .value node ∧ getConstantLongValue node = .value x ∧
    IntType.InRange .l x

theorem returnsKept_of_new
    (h : e.evaluateConstantReturnExpr = .value (newConstant (IntType.wrap .l v))) :
    e.ReturnsKept v := by
  obtain ⟨hvalue, hlong⟩ := newConstant_value (IntType.inRange_wrap .l v)
  exact ⟨_, h, hvalue, fun _ => hlong⟩

theorem returns_of_new {x : Int} (hx : IntType.InRange .l x)
    (h : e.evaluateConstantReturnExpr = .value (newConstant x)) : e.Returns :=
  ⟨_, x, h, (newConstant_value hx).2, hx⟩

theorem ReturnsKept.returns (h : e.ReturnsKept v) (hreads : e.readsDecimal = true) :
    ∃ node, e.evaluateConstantReturnExpr = .value node ∧
      getConstantLongValue node = .value (IntType.wrap .l v) := by
  obtain ⟨node, hnode, -, hlong⟩ := h
  exact ⟨node, hnode, hlong hreads⟩

section Operators

variable {left right : ConstantNode} {x y z : Int}

theorem return_unary {op : UnaryOp} (hr : r.evaluateConstantReturnExpr = .value right)
    (hy : getConstantLongValue right = .value y) (hz : foldUnary op (.value 0) y = .value z) :
    (unary op r).evaluateConstantReturnExpr = .value (newConstant z) := by
  rw [evaluateConstantReturnExpr, hr]
  show Folded.bind (getConstantLongValue right) _ = _
  rw [hy]
  show Folded.bind (foldUnary op (.value 0) y) _ = _
  rw [hz]
  rfl

theorem return_arith {op : ArithOp} (hl : l.evaluateConstantReturnExpr = .value left)
    (hr : r.evaluateConstantReturnExpr = .value right) (hx : getConstantLongValue left = .value x)
    (hy : getConstantLongValue right = .value y) (hz : foldArith op x y = .value z) :
    (arith op l r).evaluateConstantReturnExpr = .value (newConstant z) := by
  have hzero : ¬ (op = .mod ∧ y = 0) := by
    rintro ⟨rfl, rfl⟩
    cases hz
  rw [evaluateConstantReturnExpr, hl, hr]
  show Folded.bind (getConstantLongValue left) (fun leftVal =>
    Folded.bind (getConstantLongValue right) _) = _
  rw [hx, hy]
  show (if op = .mod ∧ y = 0 then _ else Folded.bind (foldArith op x y) _) = _
  rw [if_neg hzero, hz]
  rfl

theorem return_compare {op : CompareOp} (hl : l.evaluateConstantReturnExpr = .value left)
    (hr : r.evaluateConstantReturnExpr = .value right) (hx : getConstantLongValue left = .value x)
    (hy : getConstantLongValue right = .value y) :
    (compare op l r).evaluateConstantReturnExpr = .value (newConstant (foldCompare op x y)) := by
  rw [evaluateConstantReturnExpr, hl, hr]
  show Folded.bind (getConstantLongValue left) (fun leftVal =>
    Folded.bind (getConstantLongValue right) _) = _
  rw [hx, hy]
  rfl

theorem return_logical {op : LogicalOp} (hl : l.evaluateConstantReturnExpr = .value left)
    (hr : r.evaluateConstantReturnExpr = .value right) (hx : getConstantLongValue left = .value x)
    (hy : getConstantLongValue right = .value y) :
    (logical op l r).evaluateConstantReturnExpr = .value (newConstant (foldLogical op x y)) := by
  rw [evaluateConstantReturnExpr, hl, hr]
  show Folded.bind (getConstantLongValue left) (fun leftVal =>
    Folded.bind (getConstantLongValue right) _) = _
  rw [hx, hy]
  rfl

end Operators

theorem inRange_foldCompare {op : CompareOp} {x y : Int} (hy : IntType.InRange .l y) :
    IntType.InRange .l (foldCompare op x y) := by
  unfold foldCompare
  split
  · exact hy
  · exact inRange_truth _ _

theorem inRange_foldLogical (op : LogicalOp) (x y : Int) :
    IntType.InRange .l (foldLogical op x y) := by
  cases op with
  | or => exact inRange_truth _ _
  | and => exact inRange_truth _ _

/-- `evaluate_constant_return_expr` does as well. -/
theorem evaluateConstantReturnExpr_kept (e : ConstExpr) :
    (∀ v, e.kept wide = some v → e.ReturnsKept v) ∧ (e.ends wide = true → e.Returns) := by
  induction e with
  | integer lit =>
    constructor
    · intro v h
      obtain ⟨hlit, rfl⟩ := kept_integer h
      have hlong := IntType.wrap_of_inRange ((inRange_l _).mpr hlit.2.1)
      refine ⟨_, rfl, ?_, fun hreads => ?_⟩
      · rw [hlong]
        exact IntLiteral.constantLong_of_exact hlit
      · rw [hlong]
        exact congrArg Folded.scanned (IntLiteral.sscanfLd_of_exact hlit hreads)
    · intro h
      obtain ⟨x, hx⟩ := IntLiteral.exists_sscanfLd (of_decide_eq_true h)
      exact ⟨_, x, rfl, congrArg Folded.scanned hx, inRange_sscanfLd hx⟩
  | character start item => exact ⟨fun _ h => (by cases h), fun h => (by cases h)⟩
  | identifier decl constVar initValue ih => exact ⟨fun _ h => (by cases h), fun h => (by cases h)⟩
  | cast t e ih =>
    constructor
    · intro v h
      obtain ⟨x, hx, rfl, hcarries, -⟩ := kept_cast h
      rw [ReturnsKept, hcarries]
      exact ih.1 x hx
    · intro h
      rw [ends, Bool.and_eq_true] at h
      exact ih.2 h.1
  | sizeofType t =>
    constructor
    · intro v h
      refine returnsKept_of_new ?_
      cases h
      rw [IntType.wrap_of_inRange (inRange_dillTypeSize _ _)]
      rfl
    · exact fun _ => returns_of_new (inRange_dillTypeSize t _) rfl
  | sizeofExpr right ih =>
    constructor
    · intro v h
      refine returnsKept_of_new ?_
      obtain ⟨t, e, rfl, rfl⟩ := kept_sizeofExpr h
      rw [IntType.wrap_of_inRange (inRange_dillTypeSize _ _)]
      rfl
    · intro h
      obtain ⟨t, e, rfl⟩ := ends_sizeofExpr h
      exact returns_of_new (inRange_dillTypeSize t _) rfl
  | unary op right ih =>
    constructor
    · intro v h
      refine returnsKept_of_new ?_
      cases op with
      | plus | minus => cases h
      | not =>
        obtain ⟨x, hx, hreads, rfl, hc, -⟩ := kept_not h
        obtain ⟨node, hnode, hlong⟩ := (ih.1 x hx).returns hreads
        refine return_unary hnode hlong ?_
        rw [hc, ← long_not]
        rfl
      | logNeg =>
        obtain ⟨x, hx, hreads, rfl⟩ := kept_logNeg h
        obtain ⟨node, hnode, hlong⟩ := (ih.1 x hx).returns hreads
        refine return_unary hnode hlong ?_
        rw [long_truth]
        show Folded.value (truth _) = _
        rw [decide_eq_decide.mpr (long_eq_zero (inRange_kept hx).1)]
    · intro h
      obtain ⟨hop, h⟩ := ends_unary h
      obtain ⟨node, x, hnode, hlong, hrange⟩ := ih.2 h
      rcases hop with rfl | rfl
      · refine returns_of_new ?_ (return_unary hnode hlong rfl)
        obtain ⟨hlow, hhigh⟩ := hrange
        have hlow : -2 ^ 63 ≤ x := hlow
        have hhigh : x < 2 ^ 63 := hhigh
        show -2 ^ 63 ≤ -x - 1 ∧ -x - 1 < 2 ^ 63
        omega
      · exact returns_of_new (inRange_truth _ _) (return_unary hnode hlong rfl)
  | arith op l r ihl ihr =>
    constructor
    · intro v h
      obtain ⟨x, y, hx, hy, -, ⟨hreadsl, hreadsr⟩, hlong, -⟩ := kept_arith h
      obtain ⟨left, hleft, hlongl⟩ := (ihl.1 x hx).returns hreadsl
      obtain ⟨right, hright, hlongr⟩ := (ihr.1 y hy).returns hreadsr
      exact returnsKept_of_new (return_arith hleft hright hlongl hlongr (foldArith_of_gives hlong))
    · intro h
      obtain ⟨-, x, y, v, hx, hy, ⟨hreadsl, hreadsr⟩, hv⟩ | ⟨htotal, hl, hr⟩ := ends_arith h
      · obtain ⟨left, hleft, hlongl⟩ := (ihl.1 x hx).returns hreadsl
        obtain ⟨right, hright, hlongr⟩ := (ihr.1 y hy).returns hreadsr
        have hfold : foldArith op (IntType.wrap .l x) (IntType.wrap .l y) = .value v := by
          rw [foldArith, hv]
        exact returns_of_new (inRange_foldArith hfold)
          (return_arith hleft hright hlongl hlongr hfold)
      · obtain ⟨left, x, hleft, hlongl, -⟩ := ihl.2 hl
        obtain ⟨right, y, hright, hlongr, -⟩ := ihr.2 hr
        obtain ⟨z, hz⟩ := exists_foldArith htotal x y
        exact returns_of_new (inRange_foldArith hz) (return_arith hleft hright hlongl hlongr hz)
  | compare op l r ihl ihr =>
    constructor
    · intro v h
      obtain ⟨x, y, hx, hy, rfl, ⟨hreadsl, hreadsr⟩, hfold, -⟩ := kept_compare h
      obtain ⟨left, hleft, hlongl⟩ := (ihl.1 x hx).returns hreadsl
      obtain ⟨right, hright, hlongr⟩ := (ihr.1 y hy).returns hreadsr
      refine returnsKept_of_new ?_
      rw [return_compare hleft hright hlongl hlongr, hfold, long_truth]
    · intro h
      rw [ends, Bool.and_eq_true] at h
      obtain ⟨left, x, hleft, hlongl, -⟩ := ihl.2 h.1
      obtain ⟨right, y, hright, hlongr, hrange⟩ := ihr.2 h.2
      exact returns_of_new (inRange_foldCompare hrange) (return_compare hleft hright hlongl hlongr)
  | logical op l r ihl ihr =>
    constructor
    · intro v h
      refine returnsKept_of_new ?_
      obtain ⟨x, hx, hreadsl, ⟨hshort, hends, rfl⟩ | ⟨hlong, y, hy, hreadsr, rfl⟩⟩ := kept_logical h
      · obtain ⟨left, hleft, hlongl⟩ := (ihl.1 x hx).returns hreadsl
        obtain ⟨right, y, hright, hlongr, -⟩ := ihr.2 hends
        rw [return_logical hleft hright hlongl hlongr,
          foldLogical_short (inRange_kept hx).1 hshort y, long_truth]
      · obtain ⟨left, hleft, hlongl⟩ := (ihl.1 x hx).returns hreadsl
        obtain ⟨right, hright, hlongr⟩ := (ihr.1 y hy).returns hreadsr
        rw [return_logical hleft hright hlongl hlongr,
          foldLogical_long (inRange_kept hx).1 (inRange_kept hy).1 hlong, long_truth]
    · intro h
      rw [ends, Bool.and_eq_true] at h
      obtain ⟨left, x, hleft, hlongl, -⟩ := ihl.2 h.1
      obtain ⟨right, y, hright, hlongr, -⟩ := ihr.2 h.2
      exact returns_of_new (inRange_foldLogical op x y)
        (return_logical hleft hright hlongl hlongr)

end ConstExpr

end Cod
end FFS
