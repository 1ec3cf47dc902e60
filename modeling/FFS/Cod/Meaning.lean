import FFS.Cod.Tree
import Mathlib.Logic.Function.Basic
import Mathlib.Data.List.Basic

/-!
# What C says

The meaning that C gives to a program.  The value of an expression comes with the objects read
and written on the way, and with the writes that nothing orders before the value; an expression
has no value where C leaves its behaviour undefined.  Statements take steps, with the rest of
the program as a continuation.
-/

namespace FFS
namespace Cod

open Machine

/-! ## Stores -/

/-- The values of the variables and of the constant variables, each within the range of its type.
A variable that was not given a value has none. -/
structure Store where
  value : Decl → Option Int
  consts : ConstDecl → Option Int
  inRange : ∀ d v, value d = some v → d.cgType.InRange v
  inRangeConsts : ∀ d v, consts d = some v → d.cgType.InRange v

/-- The variable gets a value, converted to its type. -/
def Store.set (σ : Store) (d : Decl) (v : Int) : Store where
  value := Function.update σ.value d (some (d.cgType.wrap v))
  consts := σ.consts
  inRangeConsts := σ.inRangeConsts
  inRange d' v' h := by
    by_cases heq : d' = d
    · subst heq
      rw [Function.update_self] at h
      cases h
      exact d'.cgType.inRange_wrap v
    · rw [Function.update_of_ne heq] at h
      exact σ.inRange d' v' h

/-- Where a declaration without an initialiser is reached the value is indeterminate. -/
def Store.unset (σ : Store) (d : Decl) : Store where
  value := Function.update σ.value d none
  consts := σ.consts
  inRangeConsts := σ.inRangeConsts
  inRange d' v' h := by
    by_cases heq : d' = d
    · subst heq
      rw [Function.update_self] at h
      cases h
    · rw [Function.update_of_ne heq] at h
      exact σ.inRange d' v' h

/-- Where the declaration of a constant variable is reached it gets the value of its initialiser,
converted to its type, or an indeterminate one. -/
def Store.setConst (σ : Store) (d : ConstDecl) (v : Option Int) : Store where
  value := σ.value
  consts := Function.update σ.consts d (v.map d.cgType.wrap)
  inRange := σ.inRange
  inRangeConsts d' v' h := by
    by_cases heq : d' = d
    · subst heq
      rw [Function.update_self] at h
      obtain ⟨x, -, rfl⟩ := Option.map_eq_some_iff.mp h
      exact d'.cgType.inRange_wrap x
    · rw [Function.update_of_ne heq] at h
      exact σ.inRangeConsts d' v' h

/-! ## Expressions -/

namespace Expr

/-- The type of an expression. -/
def cType : Expr → IntType
  | identifier decl => decl.cgType
  | constIdentifier decl _ => decl.cgType
  | constant _ => .i
  | cast cgType _ => cgType
  | unary .logNeg _ => .i
  | unary _ right => right.cType.promote
  | arith op left right => if isShift op then left.cType.promote else left.cType.usual right.cType
  | compare _ _ _ => .i
  | logical _ _ _ => .i
  | incdec _ _ decl => decl.cgType
  | conditional _ e1 e2 => e1.cType.usual e2.cType
  | comma _ right => right.cType
  | assignment left _ => left.cgType
  | opAssignment _ left _ => left.cgType

end Expr

/-- A value with the store behind it, the variables read and written, and those whose writes are
not ordered before the value. -/
structure Result where
  value : Int
  store : Store
  reads : List Decl
  writes : List Decl
  pending : List Decl

/-- Nothing orders the two operands, so neither writes what the other reads or writes. -/
def Unordered (a b : Result) : Prop :=
  (∀ d ∈ a.writes, d ∉ b.reads ∧ d ∉ b.writes) ∧ ∀ d ∈ b.writes, d ∉ a.reads

instance (a b : Result) : Decidable (Unordered a b) := inferInstanceAs (Decidable (_ ∧ _))

def CompareOp.holds (op : CompareOp) (x y : Int) : Bool :=
  match op with
  | .leq => decide (x ≤ y)
  | .lt => decide (x < y)
  | .geq => decide (y ≤ x)
  | .gt => decide (y < x)
  | .eq => decide (x = y)
  | .neq => decide (x ≠ y)

/-- `1` or `0`. -/
def truth (b : Bool) : Int := if b then 1 else 0

def cUnary (op : UnaryOp) (t : IntType) (x : Int) : Option Int :=
  match op with
  | .plus => some (t.wrap x)
  | .minus => ArithOp.c .sub t 0 (t.wrap x)
  | .not => ArithOp.c .xor t (t.wrap (-1)) (t.wrap x)
  | .logNeg => some (truth (decide (x = 0)))

/-- An operation on operands of the types `t` and `t'`. -/
def cArith (op : ArithOp) (t t' : IntType) (x y : Int) : Option Int :=
  if isShift op then op.c t.promote (t.promote.wrap x) (t'.promote.wrap y)
  else op.c (t.usual t') ((t.usual t').wrap x) ((t.usual t').wrap y)

/-- `++` and `--` are `+= 1` and `-= 1`. -/
def cIncdec (dec : Bool) (t : IntType) (x : Int) : Option Int :=
  cArith (if dec then .sub else .add) t .i x 1

def meaning : Expr → Store → Option Result
  | .identifier d, σ => (σ.value d).map fun v => ⟨v, σ, [d], [], []⟩
  -- Nothing writes a constant variable, so there is no read to order.
  | .constIdentifier d _, σ => (σ.consts d).map fun v => ⟨v, σ, [], [], []⟩
  | .constant v, σ => some ⟨v.val, σ, [], [], []⟩
  | .cast t e, σ => do
    let a ← meaning e σ
    some { a with value := t.wrap a.value }
  | .unary op e, σ => do
    let a ← meaning e σ
    let v ← cUnary op e.cType.promote a.value
    some { a with value := v }
  | .arith op l r, σ => do
    let a ← meaning l σ
    let b ← meaning r a.store
    if Unordered a b then
      let v ← cArith op l.cType r.cType a.value b.value
      some ⟨v, b.store, a.reads ++ b.reads, a.writes ++ b.writes, a.pending ++ b.pending⟩
    else none
  | .compare op l r, σ => do
    let a ← meaning l σ
    let b ← meaning r a.store
    if Unordered a b then
      let t := l.cType.usual r.cType
      some ⟨truth (op.holds (t.wrap a.value) (t.wrap b.value)), b.store, a.reads ++ b.reads,
        a.writes ++ b.writes, a.pending ++ b.pending⟩
    else none
  | .logical op l r, σ => do
    let a ← meaning l σ
    if decide (a.value ≠ 0) = decide (op = .or) then
      some ⟨truth (decide (op = .or)), a.store, a.reads, a.writes, []⟩
    else
      let b ← meaning r a.store
      some ⟨truth (decide (b.value ≠ 0)), b.store, a.reads ++ b.reads, a.writes ++ b.writes,
        b.pending⟩
  | .incdec dec post d, σ => do
    let x ← σ.value d
    let v ← cIncdec dec d.cgType x
    some ⟨if post then x else d.cgType.wrap v, σ.set d v, [d], [d], [d]⟩
  | .conditional condition e1 e2, σ => do
    let a ← meaning condition σ
    let b ← (if a.value ≠ 0 then meaning e1 a.store else meaning e2 a.store)
    some ⟨(e1.cType.usual e2.cType).wrap b.value, b.store, a.reads ++ b.reads,
      a.writes ++ b.writes, b.pending⟩
  | .comma l r, σ => do
    let a ← meaning l σ
    let b ← meaning r a.store
    some { b with reads := a.reads ++ b.reads, writes := a.writes ++ b.writes }
  | .assignment d e, σ => do
    let b ← meaning e σ
    if d ∈ b.pending then none
    else some ⟨d.cgType.wrap b.value, b.store.set d b.value, b.reads, d :: b.writes,
      d :: b.pending⟩
  | .opAssignment op d e, σ => do
    let x ← σ.value d
    let b ← meaning e σ
    if d ∈ b.writes then none
    else
      let v ← cArith op d.cgType e.cType x b.value
      some ⟨d.cgType.wrap v, b.store.set d v, d :: b.reads, d :: b.writes, d :: b.pending⟩

section Inversion

attribute [local simp] meaning

variable {σ : Store} {a : Result} {e l r e1 e2 : Expr}

theorem meaning_cast {t : IntType} (h : meaning (.cast t e) σ = some a) :
    ∃ b, meaning e σ = some b ∧ a = { b with value := t.wrap b.value } := by
  simp only [meaning, Option.bind_eq_bind, Option.bind_eq_some_iff] at h
  obtain ⟨b, hb, heq⟩ := h
  exact ⟨b, hb, (Option.some.inj heq).symm⟩

theorem meaning_unary {op : UnaryOp} (h : meaning (.unary op e) σ = some a) :
    ∃ b v, meaning e σ = some b ∧ cUnary op e.cType.promote b.value = some v ∧
      a = { b with value := v } := by
  simp only [meaning, Option.bind_eq_bind, Option.bind_eq_some_iff] at h
  obtain ⟨b, hb, v, hv, heq⟩ := h
  exact ⟨b, v, hb, hv, (Option.some.inj heq).symm⟩

theorem meaning_arith {op : ArithOp} (h : meaning (.arith op l r) σ = some a) :
    ∃ b b' v, meaning l σ = some b ∧ meaning r b.store = some b' ∧ Unordered b b' ∧
      cArith op l.cType r.cType b.value b'.value = some v ∧
      a = ⟨v, b'.store, b.reads ++ b'.reads, b.writes ++ b'.writes, b.pending ++ b'.pending⟩ := by
  simp only [meaning, Option.bind_eq_bind, Option.bind_eq_some_iff] at h
  obtain ⟨b, hb, b', hb', h⟩ := h
  split at h
  · next hunordered =>
    obtain ⟨v, hv, heq⟩ := Option.bind_eq_some_iff.mp h
    exact ⟨b, b', v, hb, hb', hunordered, hv, (Option.some.inj heq).symm⟩
  · cases h

theorem meaning_compare {op : CompareOp} (h : meaning (.compare op l r) σ = some a) :
    ∃ b b', meaning l σ = some b ∧ meaning r b.store = some b' ∧ Unordered b b' ∧
      a = ⟨truth (op.holds ((l.cType.usual r.cType).wrap b.value)
          ((l.cType.usual r.cType).wrap b'.value)), b'.store, b.reads ++ b'.reads,
        b.writes ++ b'.writes, b.pending ++ b'.pending⟩ := by
  simp only [meaning, Option.bind_eq_bind, Option.bind_eq_some_iff] at h
  obtain ⟨b, hb, b', hb', h⟩ := h
  split at h
  · next hunordered => exact ⟨b, b', hb, hb', hunordered, (Option.some.inj h).symm⟩
  · cases h

theorem meaning_logical {op : LogicalOp} (h : meaning (.logical op l r) σ = some a) :
    ∃ b, meaning l σ = some b ∧
      (decide (b.value ≠ 0) = decide (op = .or) ∧
          a = ⟨truth (decide (op = .or)), b.store, b.reads, b.writes, []⟩ ∨
        decide (b.value ≠ 0) ≠ decide (op = .or) ∧ ∃ b', meaning r b.store = some b' ∧
          a = ⟨truth (decide (b'.value ≠ 0)), b'.store, b.reads ++ b'.reads,
            b.writes ++ b'.writes, b'.pending⟩) := by
  simp only [meaning, Option.bind_eq_bind, Option.bind_eq_some_iff] at h
  obtain ⟨b, hb, h⟩ := h
  refine ⟨b, hb, ?_⟩
  split at h
  · next hshort => exact .inl ⟨hshort, (Option.some.inj h).symm⟩
  · next hlong =>
    obtain ⟨b', hb', heq⟩ := Option.bind_eq_some_iff.mp h
    exact .inr ⟨hlong, b', hb', (Option.some.inj heq).symm⟩

theorem meaning_incdec {dec post : Bool} {d : Decl}
    (h : meaning (.incdec dec post d) σ = some a) :
    ∃ x v, σ.value d = some x ∧ cIncdec dec d.cgType x = some v ∧
      a = ⟨if post then x else d.cgType.wrap v, σ.set d v, [d], [d], [d]⟩ := by
  simp only [meaning, Option.bind_eq_bind, Option.bind_eq_some_iff] at h
  obtain ⟨x, hx, v, hv, heq⟩ := h
  exact ⟨x, v, hx, hv, (Option.some.inj heq).symm⟩

theorem meaning_conditional (h : meaning (.conditional e e1 e2) σ = some a) :
    ∃ b b', meaning e σ = some b ∧
      (if b.value ≠ 0 then meaning e1 b.store else meaning e2 b.store) = some b' ∧
      a = ⟨(e1.cType.usual e2.cType).wrap b'.value, b'.store, b.reads ++ b'.reads,
        b.writes ++ b'.writes, b'.pending⟩ := by
  simp only [meaning, Option.bind_eq_bind, Option.bind_eq_some_iff] at h
  obtain ⟨b, hb, b', hb', heq⟩ := h
  exact ⟨b, b', hb, hb', (Option.some.inj heq).symm⟩

theorem meaning_comma (h : meaning (.comma l r) σ = some a) :
    ∃ b b', meaning l σ = some b ∧ meaning r b.store = some b' ∧
      a = { b' with reads := b.reads ++ b'.reads, writes := b.writes ++ b'.writes } := by
  simp only [meaning, Option.bind_eq_bind, Option.bind_eq_some_iff] at h
  obtain ⟨b, hb, b', hb', heq⟩ := h
  exact ⟨b, b', hb, hb', (Option.some.inj heq).symm⟩

theorem meaning_assignment {d : Decl} (h : meaning (.assignment d e) σ = some a) :
    ∃ b, meaning e σ = some b ∧ d ∉ b.pending ∧
      a = ⟨d.cgType.wrap b.value, b.store.set d b.value, b.reads, d :: b.writes,
        d :: b.pending⟩ := by
  simp only [meaning, Option.bind_eq_bind, Option.bind_eq_some_iff] at h
  obtain ⟨b, hb, h⟩ := h
  split at h
  · cases h
  · next hpending => exact ⟨b, hb, hpending, (Option.some.inj h).symm⟩

theorem meaning_opAssignment {op : ArithOp} {d : Decl}
    (h : meaning (.opAssignment op d e) σ = some a) :
    ∃ x b v, σ.value d = some x ∧ meaning e σ = some b ∧ d ∉ b.writes ∧
      cArith op d.cgType e.cType x b.value = some v ∧
      a = ⟨d.cgType.wrap v, b.store.set d v, d :: b.reads, d :: b.writes, d :: b.pending⟩ := by
  simp only [meaning, Option.bind_eq_bind, Option.bind_eq_some_iff] at h
  obtain ⟨x, hx, b, hb, h⟩ := h
  split at h
  · cases h
  · next hwrites =>
    obtain ⟨v, hv, heq⟩ := Option.bind_eq_some_iff.mp h
    exact ⟨x, b, v, hx, hb, hwrites, hv, (Option.some.inj heq).symm⟩

end Inversion

/-! ## Statements -/

/-- What comes behind a statement. -/
inductive Cont where
  | done
  | next (statement : Stmt) (rest : Cont)
  /-- The statement is the body of a loop. -/
  | loop (testExpr postTestExpr iterExpr : Option Expr) (statement : Stmt) (rest : Cont)

inductive State where
  | run (statement : Stmt) (rest : Cont) (σ : Store)
  /-- A loop before its test. -/
  | test (testExpr postTestExpr iterExpr : Option Expr) (statement : Stmt) (rest : Cont)
      (σ : Store)
  | returned (value : Option Int) (σ : Store)

/-- The statement with a label, and what comes behind it. -/
def findStatement (name : Nat) : Stmt → Cont → Option (Stmt × Cont)
  | .seq item rest, k =>
    match findStatement name item (.next rest k) with
    | some found => some found
    | none => findStatement name rest k
  | .compound list, k => findStatement name list k
  | .selection _ thenPart elsePart, k =>
    match findStatement name thenPart k with
    | some found => some found
    | none => findStatement name elsePart k
  | .iteration _ test post iter statement, k =>
    findStatement name statement (.loop test post iter statement k)
  | .label name' statement, k =>
    if name' = name then some (statement, k) else findStatement name statement k
  | .empty, _ | .declaration _ _, _ | .constDeclaration _ _, _ | .expression _, _ | .goto _, _
  | .continue, _ | .break, _ | .return _, _ => none

/-- The condition of a loop; one that is left out holds. -/
def condition (e : Option Expr) (σ : Store) : Option (Bool × Store) :=
  match e with
  | none => some (true, σ)
  | some e => (meaning e σ).map fun a => (decide (a.value ≠ 0), a.store)

/-- An expression that may be left out, for its effects. -/
def effects (e : Option Expr) (σ : Store) : Option Store :=
  match e with
  | none => some σ
  | some e => (meaning e σ).map Result.store

/-- `return`. -/
def returnMeaning (returnCgType : Option IntType) (e : Option Expr) (σ : Store) :
    Option State :=
  match returnCgType, e with
  | none, none => some (.returned none σ)
  | some t, some e => (meaning e σ).map fun a => .returned (some (t.wrap a.value)) a.store
  | none, some _ | some _, none => none

def cStep (p : Program) : State → Option State
  | .run .empty .done _ => none
  | .run .empty (.next s k) σ => some (.run s k σ)
  | .run .empty (.loop test post iter s k) σ => do
    let σ ← effects iter σ
    let (again, σ) ← condition post σ
    some (if again then .test test post iter s k σ else .run .empty k σ)
  | .run (.seq item rest) k σ => some (.run item (.next rest k) σ)
  | .run (.compound list) k σ => some (.run list k σ)
  | .run (.declaration d none) k σ => some (.run .empty k (σ.unset d))
  | .run (.declaration d (some e)) k σ =>
    (meaning e σ).map fun a => .run .empty k (a.store.set d a.value)
  | .run (.constDeclaration d none) k σ => some (.run .empty k (σ.setConst d none))
  | .run (.constDeclaration d (some e)) k σ =>
    (meaning e σ).map fun a => .run .empty k (a.store.setConst d (some a.value))
  | .run (.expression e) k σ => (meaning e σ).map fun a => .run .empty k a.store
  | .run (.selection e thenPart elsePart) k σ =>
    (meaning e σ).map fun a => .run (if a.value ≠ 0 then thenPart else elsePart) k a.store
  | .run (.iteration init test post iter s) k σ =>
    (effects init σ).map fun σ => .test test post iter s k σ
  | .run (.label _ s) k σ => some (.run s k σ)
  | .run (.goto name) _ σ =>
    (findStatement name (.compound p.body) .done).map fun found => .run found.1 found.2 σ
  | .run .continue (.next _ k) σ => some (.run .continue k σ)
  | .run .continue (.loop test post iter s k) σ => some (.run .empty (.loop test post iter s k) σ)
  | .run .continue .done _ => none
  | .run .break (.next _ k) σ => some (.run .break k σ)
  | .run .break (.loop _ _ _ _ k) σ => some (.run .empty k σ)
  | .run .break .done _ => none
  | .run (.return e) _ σ => returnMeaning p.returnCgType e σ
  | .test test post iter s k σ =>
    (condition test σ).map fun (again, σ) =>
      if again then .run s (.loop test post iter s k) σ else .run .empty k σ
  | .returned _ _ => none

/-- Where a program starts. -/
def start (p : Program) (σ : Store) : State := .run (.compound p.body) .done σ

end Cod
end FFS
