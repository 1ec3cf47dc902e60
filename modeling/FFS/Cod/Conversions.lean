import FFS.Cod.Registers
import FFS.Cod.Values

/-!
# Conversions and branches on values

`coerce_type` converts as C does, but for unsigned char to char.  `gen_bz` and `gen_bnz` test a
register at its type.
-/

namespace FFS
namespace Cod

open Machine

/-- The ways of `coerce_type` to convert, apart from unsigned char to char. -/
theorem coercion_cases {ret obj : Reg} {target objType : IntType} {code : Code}
    (h : coercion ret obj target objType = some code) (hne : target ≠ objType)
    (hconv : convertsAs objType target = true) :
    code = [.cv objType target ret obj] ∨
      (target = .uc ∧ objType = .c) ∧ code = [.cv .uc .i ret obj] ∨
      (32 ≤ target.width ∧ objType = .uc) ∧ code = [.arithi .and .i ret obj 0xff] ∨
      (target.width < 32 ∧ objType.width < 32) ∧
        code = [.cv objType .i ret obj, .cv .i target ret ret] := by
  have hnot : ¬ (target = .c ∧ objType = .uc) := by
    intro hboth
    exact of_decide_eq_true hconv hboth.2 hboth.1
  cases target <;> cases objType <;> cases h <;>
    simp_all [IntType.width]

theorem machine_and_255 {v : Int} (h : IntType.InRange .uc v) :
    ArithOp.machine .and .i (IntType.wrap .i v) (IntType.wrap .i 0xff) = some v := by
  have hlow : 0 ≤ v := h.1
  have hhigh : v < 256 := h.2
  obtain ⟨n, rfl⟩ := Int.eq_ofNat_of_zero_le hlow
  have hn : n < 256 := by omega
  have hbits : (BitVec.ofInt 32 (n : Int) &&& BitVec.ofInt 32 255).toNat = n := by
    rw [BitVec.ofInt_natCast, BitVec.toNat_and, BitVec.toNat_ofNat]
    show n % 2 ^ 32 &&& (2 ^ 8 - 1) = n
    rw [Nat.and_two_pow_sub_one_eq_mod]
    omega
  have hrange : IntType.InRange .i (n : Int) := by
    show -2 ^ 31 ≤ (n : Int) ∧ (n : Int) < 2 ^ 31
    omega
  show some (IntType.wrap .i (BitVec.ofInt 32 (IntType.wrap .i n) &&&
    BitVec.ofInt 32 (IntType.wrap .i 255)).toNat) = _
  rw [IntType.wrap_of_inRange hrange]
  show some (IntType.wrap .i (BitVec.ofInt 32 n &&& BitVec.ofInt 32 255).toNat) = _
  rw [hbits, IntType.wrap_of_inRange hrange]

theorem inRange_i_of_short {t : IntType} {v : Int} (ht : t.width < 32) (h : t.InRange v) :
    IntType.InRange .i v := by
  have hpromote : t.promote = .i := if_pos ht
  exact hpromote ▸ IntType.inRange_promote h

theorem runs_coercion {prog : Code} {n : Nat} {obj : Reg} {target objType : IntType} {code : Code}
    {v : Int} {regs : Regs} (h : coercion (.temp n) obj target objType = some code)
    (hne : target ≠ objType) (hconv : convertsAs objType target = true) (hobj : regs obj = v)
    (hv : objType.InRange v) :
    Runs prog code regs fun regs' =>
      regs' = Function.update regs (.temp n) (target.wrap v) := by
  obtain rfl | ⟨⟨rfl, rfl⟩, rfl⟩ | ⟨⟨hwide, rfl⟩, rfl⟩ | ⟨⟨-, hshort⟩, rfl⟩ :=
    coercion_cases h hne hconv
  · refine .cv (.nil ?_)
    rw [hobj, IntType.wrap_of_inRange hv]
  · refine .cv (.nil ?_)
    rw [hobj, IntType.wrap_of_inRange (inRange_i_of_short (by decide) (IntType.inRange_wrap .uc v))]
  · refine .arithi (hobj ▸ machine_and_255 hv) (.nil ?_)
    have hrange : target.InRange v := by
      revert hv hwide
      cases target <;> simp only [IntType.InRange, IntType.low, IntType.high, IntType.signed,
        IntType.width, if_true, Bool.false_eq_true, if_false] <;> omega
    rw [hobj, IntType.wrap_of_inRange hrange]
  · refine .cv (.cv (.nil ?_))
    rw [Function.update_self, Function.update_idem, hobj, IntType.wrap_of_inRange hv,
      IntType.wrap_wrap, IntType.wrap_of_inRange (inRange_i_of_short hshort hv)]

/-- `coerce_type` on a value. -/
theorem Computed.coerce {prog : Code} {c next : Counts} {σ : Store} {left writes : List Decl}
    {reg : Reg} {v : Int} {regs regs' : Regs} {target objType : IntType} {o : Operand}
    (h : Computed c σ left writes next reg v regs regs')
    (ho : coerceType next reg target objType = some o)
    (hconv : convertsAs objType target = true) (hv : objType.InRange v) :
    Runs prog o.code regs' (Computed c σ (leftBehind objType target left) writes o.next o.reg
      (target.wrap v) regs) := by
  obtain ⟨rfl, rfl⟩ | ⟨hne, code, hcode, rfl⟩ := coerceType_some ho
  · rw [IntType.wrap_of_inRange hv, leftBehind, if_pos rfl]
    exact .nil h
  · refine (runs_coercion hcode hne hconv h.value hv).mono ?_
    rintro regs'' rfl
    have hkept := h.toKept.temp h.grows (target.wrap v)
    exact ⟨hkept, h.grows.trans (Nat.le_succ _), ⟨h.grows, Nat.lt_succ_self _⟩,
      Function.update_self _ _ _⟩

/-! ## Operands of an operator -/

theorem leftBehind_nil (t t' : IntType) : leftBehind t t' [] = [] := ite_self _

/-- Two conversions leave a value in a variable only if both types are its own. -/
theorem Held.leftBehind {c next : Counts} {t t' t'' : IntType} {left : List Decl} {reg : Reg}
    (h : Held c (Cod.leftBehind t' t'' (Cod.leftBehind t t' left)) next reg) :
    Held c (Cod.leftBehind t t'' left) next reg := by
  cases reg with
  | temp n => exact h
  | oprnd d =>
    have hmem : d ∈ Cod.leftBehind t' t'' (Cod.leftBehind t t' left) := h
    unfold Cod.leftBehind at hmem
    split at hmem
    · next heq' =>
      split at hmem
      · next heq =>
        rw [heq, heq', Held, Cod.leftBehind, if_pos rfl]
        exact hmem
      · cases hmem
    · cases hmem

theorem inRange_promotion {t : IntType} {v : Int} (h : t.InRange v) : (promotion t).InRange v := by
  rw [promotion_eq]
  exact IntType.inRange_promote h

theorem convertsAs_of_promoted {t target : IntType} (h : target.promote = target) :
    convertsAs t target = true := by
  refine decide_eq_true fun _ => ?_
  rintro rfl
  cases h

theorem convertsAs_promotion (t target : IntType) : convertsAs (promotion t) target = true := by
  cases t <;> rfl

/-- An operand of an operator has the value in the type of the operation. -/
theorem Evaluates.prepOperand {prog : Code} {cg : Counts → Option Operand} {σ : Store} {a : Result}
    {left : List Decl} {v : Int} {t opType : IntType} (h : Evaluates prog cg left σ a v)
    (hv : t.InRange v) :
    Evaluates prog (prepOperand cg t opType) (leftBehind t opType left) σ a (opType.wrap v) := by
  intro c o regs ho hagree
  obtain ⟨value, promoted, coerced, hvalue, hpromoted, hcoerced, rfl⟩ := prepOperand_some ho
  have hpromote : (promotion t).promote = promotion t := by
    rw [promotion_eq, IntType.promote_promote]
  have hrange := inRange_promotion hv
  have hfirst : Runs prog (value.code ++ promoted.code) regs
      (Computed c a.store (leftBehind t (promotion t) left) a.writes promoted.next promoted.reg v
        regs) := by
    refine (h c value regs hvalue hagree).append fun regs₁ h₁ => ?_
    rw [← IntType.wrap_of_inRange hrange]
    exact h₁.coerce hpromoted (convertsAs_of_promoted hpromote) hv
  refine hfirst.append fun regs₂ h₂ => ?_
  refine (h₂.coerce hcoerced (convertsAs_promotion t opType) hrange).mono fun regs₃ h₃ => ?_
  exact ⟨h₃.toKept, h₃.grows, h₃.held.leftBehind, h₃.value⟩

/-- Both operands of an operator. -/
theorem Evaluates.both {prog : Code} {cg cg' : Counts → Option Operand} {left left' : List Decl}
    {σ : Store} {a b : Result} {x y : Int} (h : Evaluates prog cg left σ a x)
    (h' : Evaluates prog cg' left' a.store b y) (hleaves : ∀ d ∈ left, d ∉ b.writes) {c : Counts}
    {o o' : Operand} {regs : Regs} (ho : cg c = some o) (ho' : cg' o.next = some o')
    (hagree : Agree σ regs) :
    Runs prog (o.code ++ o'.code) regs fun regs' =>
      Computed c b.store left (a.writes ++ b.writes) o'.next o.reg x regs regs' ∧
        Computed c b.store left' (a.writes ++ b.writes) o'.next o'.reg y regs regs' := by
  refine (h c o regs ho hagree).append fun regs₁ h₁ => ?_
  refine (h' o.next o' regs₁ ho' h₁.agree).mono fun regs₂ h₂ => ?_
  have hkept := h₁.toKept.trans h₂.toKept h₁.grows
  have hgrows := h₁.grows.trans h₂.grows
  have hheld := h₁.held.mono (Nat.le_refl _) h₂.grows
  have hheld' := h₂.held.mono h₁.grows (Nat.le_refl _)
  refine ⟨⟨hkept, hgrows, hheld, ?_⟩, ⟨hkept, hgrows, hheld', h₂.value⟩⟩
  -- The second operand leaves the register of the first alone.
  have hsame : regs₂ o.reg = regs₁ o.reg := by
    have hheld₁ := h₁.held
    cases hreg : o.reg with
    | temp n =>
      rw [hreg] at hheld₁
      exact h₂.temps n hheld₁.2
    | oprnd d =>
      rw [hreg] at hheld₁
      exact h₂.oprnds d (hleaves d hheld₁)
  rw [hsame, h₁.value]

/-! ## Branches on a value -/

section Tests

variable {prog : Code} {reg : Reg} {target : Label} {t : IntType} {v : Int} {regs : Regs}
  {post : Regs → Prop}

theorem branches_genBz (hreg : regs reg = v) (hv : t.InRange v) (h : post regs) :
    Branches prog (genBz reg target t) target (decide (v = 0)) regs post := by
  have hshort : ∀ t' : IntType, t.width ≤ t'.width →
      (t'.wrap (regs reg) == t'.wrap 0) = decide (v = 0) := by
    intro t' hle
    rw [hreg, IntType.wrap_zero, Bool.beq_eq_decide_eq, decide_eq_decide]
    exact IntType.wrap_eq_zero hle hv
  cases t with
  | c | s | i => exact .bri (hshort .i (by decide)) h
  | uc | us | u => exact .bri (hshort .u (by decide)) h
  | l => exact .bri (hshort .l (by decide)) h
  | ul => exact .bri (hshort .ul (by decide)) h

/-- `gen_bnz`: a short value must be zero, as there is no branch on it. -/
theorem branches_genBnz (hreg : regs reg = v) (hv : t.InRange v) (hshort : 32 ≤ t.width ∨ v = 0)
    (h : post regs) : Branches prog (genBnz reg target t) target (decide (v ≠ 0)) regs post := by
  have htest : (t.wrap (regs reg) != t.wrap 0) = decide (v ≠ 0) := by
    rw [hreg, IntType.wrap_zero, IntType.wrap_of_inRange hv, bne, Bool.beq_eq_decide_eq,
      decide_not]
  cases t with
  | c | uc | s | us =>
    have hzero : v = 0 := by
      cases hshort with
      | inl hwide => exact absurd hwide (by decide)
      | inr hzero => exact hzero
    subst hzero
    exact .nil h
  | i | u | l | ul => exact .bri htest h

end Tests

end Cod
end FFS
