import FFS.Cod.Conversions

/-!
# Coercions of scalars

`coerce_type` is a table of pairs of types, and what it is asked for comes from four checks that
were written apart from it: on assignments, on arguments, on casts and on returned values.  Every
pair of scalar types comes through one of them, and the table does not have all the pairs.
-/

namespace FFS
namespace Cod

open Machine

/-- A scalar type that is not a floating one. -/
inductive ScalarType where
  | int (t : IntType)
  | p
deriving DecidableEq, Repr

namespace ScalarType

/-- The integers that a register of the type holds.  An address is unsigned. -/
def regType : ScalarType → IntType
  | int t => t
  | p => .ul

end ScalarType

/-! ## The checks -/

/-- The kind of the complex type of an expression. -/
inductive ComplexKind where
  | reference
  | array
  | struct
  | enum
  | other
deriving DecidableEq, Repr

/-- One side of an assignment, or an argument.  `zero` tells whether it is an integer constant
that reads as zero. -/
structure Side where
  cgType : ScalarType
  complex : Option ComplexKind
  zero : Bool

/-- `assignment_types_match` on scalars.  `strict` is set for `=` and for initialisers. -/
def assignmentTypesMatch (left right : Side) (strict : Bool) : Bool :=
  match left.complex, right.complex with
  | none, none =>
    match left.cgType, right.cgType with
    | .p, .p | .p, .int .l | .p, .int .ul => true
    | .p, .int _ => false
    | .int _, .p => false
    | .int _, .int _ => true
  | some .other, _ =>
    if left.cgType = .p then false
    else if right.complex = some .other ∧ right.cgType = .p then false
    else true
  | some .reference, none =>
    match right.cgType with
    | .p | .int .l | .int .ul => true
    | .int .i | .int .u => !strict || right.zero
    | .int _ => false
  | _, some .other => right.cgType ≠ .p
  | _, _ => true

/-- The check of a call on an argument.  `hidden` tells whether the formal parameter is one that
the compiler fills in, and `reference` whether its type is a reference. -/
def argumentMatches (formal : ScalarType) (hidden reference : Bool) (arg : Side) : Bool :=
  match arg.cgType, formal with
  | .int .i, .p | .int .u, .p | .int .l, .p | .int .ul, .p => hidden || arg.zero
  | .p, .int _ => reference
  | _, _ => true

/-- The check of a return statement.  Without `dontCoerceReturn` there is none. -/
def returnMatches (dontCoerceReturn : Bool) (function value : ScalarType) : Bool :=
  match function, value with
  | .int _, .p => !dontCoerceReturn
  | _, _ => true

/-- The checks let a value of the second type through to a place of the first.  On a cast there
is no check of the two types. -/
inductive LetThrough (target objType : ScalarType) : Prop where
  | assignment {left right : Side} {strict : Bool} (hleft : left.cgType = target)
      (hright : right.cgType = objType) (h : assignmentTypesMatch left right strict = true)
  | cast
  | argument {hidden reference : Bool} {arg : Side} (harg : arg.cgType = objType)
      (h : argumentMatches target hidden reference arg = true)
  | returned {dontCoerceReturn : Bool} (h : returnMatches dontCoerceReturn target objType = true)

/-! ## The table -/

/-- The instructions of `coerce_type` for two scalar types that differ, none where it fails an
assertion.  The conversions between addresses and `unsigned long` keep the number. -/
def scalarCoercion (ret obj : Reg) : ScalarType → ScalarType → Option Code
  | .int target, .int objType => coercion ret obj target objType
  | .int .ul, .p => some [.cv .ul .ul ret obj]
  | .int target, .p => some [.cv .ul .ul ret obj, .cv .ul target ret ret]
  | .p, .int .l => some [.cv .l .ul ret obj, .cv .ul .ul ret ret]
  | .p, .int .ul => some [.cv .ul .ul ret obj]
  | .p, .int .i => some [.cv .i .ul ret obj, .cv .ul .ul ret ret]
  | .p, _ => none

/-- The pairs that the table does not have, and the one that it has wrong. -/
def missing : ScalarType → ScalarType → Bool
  | .int .c, .int .uc => true
  | .int .c, .int .s | .int .c, .int .us | .int .uc, .int .s | .int .uc, .int .us => true
  | .int .s, .int .uc | .int .s, .int .us | .int .us, .int .uc => true
  | .p, .int .c | .p, .int .uc | .p, .int .s | .p, .int .us | .p, .int .u => true
  | _, _ => false

/-- `coerce_type` does not fail an assertion, and whatever value of its type a register has, the
instructions put what C converts it to into the new register and change no other one. -/
def Coerces (target objType : ScalarType) : Prop :=
  ∀ (n : Nat) (obj : Reg) (regs : Regs), objType.regType.InRange (regs obj) →
    ∃ code, scalarCoercion (.temp n) obj target objType = some code ∧
      stepsFor (step code) code.length (.at code regs) =
        some (.at [] (Function.update regs (.temp n) (target.regType.wrap (regs obj))))

/-! ## Running the instructions -/

variable {prog : Code} {ret obj : Reg} {regs : Regs}

theorem steps_cv (t t' : IntType) :
    stepsFor (step prog) 1 (.at [.cv t t' ret obj] regs) =
      some (.at [] (Function.update regs ret (t'.wrap (t.wrap (regs obj))))) := rfl

theorem steps_cv_cv (t t' r r' : IntType) :
    stepsFor (step prog) 2 (.at [.cv t t' ret obj, .cv r r' ret ret] regs) =
      some (.at [] (Function.update regs ret
        (r'.wrap (r.wrap (t'.wrap (t.wrap (regs obj))))))) := by
  show some (Config.at [] (Function.update (Function.update regs ret _) ret _)) = _
  rw [Function.update_self, Function.update_idem]

theorem steps_arithi {op : ArithOp} {t : IntType} {imm v : Int}
    (h : op.machine t (t.wrap (regs obj)) (t.wrap imm) = some v) :
    stepsFor (step prog) 1 (.at [.arithi op t ret obj imm] regs) =
      some (.at [] (Function.update regs ret v)) := by
  have hstep : step prog (.at [.arithi op t ret obj imm] regs) =
      some (.at [] (Function.update regs ret v)) := congrArg (Option.map _) h
  rw [stepsFor, hstep]
  rfl

/-! ## Integers -/

/-- Apart from what is missing the table has an entry that converts as C does. -/
theorem coercion_of_not_missing {target objType : IntType} (hne : target ≠ objType)
    (h : missing (.int target) (.int objType) = false) (ret obj : Reg) :
    convertsAs objType target = true ∧
      ∃ code, coercion ret obj target objType = some code := by
  revert hne h
  cases target <;> cases objType <;>
    first
    | exact fun _ _ => ⟨rfl, _, rfl⟩
    | exact fun hne _ => absurd rfl hne
    | exact fun _ h => Bool.noConfusion h

theorem coerces_int {target objType : IntType} (hne : target ≠ objType)
    (h : missing (.int target) (.int objType) = false) :
    Coerces (.int target) (.int objType) := by
  intro n obj regs hrange
  obtain ⟨hconv, code, hcode⟩ := coercion_of_not_missing hne h (.temp n) obj
  have hrange : objType.InRange (regs obj) := hrange
  refine ⟨code, hcode, ?_⟩
  show _ = some (Config.at [] (Function.update regs (.temp n) (target.wrap (regs obj))))
  obtain rfl | ⟨⟨rfl, rfl⟩, rfl⟩ | ⟨⟨hwide, rfl⟩, rfl⟩ | ⟨⟨-, hshort⟩, rfl⟩ :=
    coercion_cases hcode hne hconv
  · refine (steps_cv objType target).trans ?_
    rw [IntType.wrap_of_inRange hrange]
  · refine (steps_cv .uc .i).trans ?_
    rw [IntType.wrap_of_inRange
      (inRange_i_of_short (by decide) (IntType.inRange_wrap .uc (regs obj)))]
  · refine (steps_arithi (machine_and_255 hrange)).trans ?_
    have htarget : target.InRange (regs obj) := by
      revert hrange hwide
      cases target <;> simp only [IntType.InRange, IntType.low, IntType.high, IntType.signed,
        IntType.width, if_true, Bool.false_eq_true, if_false] <;> omega
    rw [IntType.wrap_of_inRange htarget]
  · refine (steps_cv_cv objType .i .i target).trans ?_
    rw [IntType.wrap_of_inRange hrange, IntType.wrap_wrap,
      IntType.wrap_of_inRange (inRange_i_of_short hshort hrange)]

/-- Every unsigned char becomes 255, which is not a char. -/
theorem not_coerces_uchar : ¬ Coerces (.int .c) (.int .uc) := by
  intro h
  obtain ⟨code, hcode, hrun⟩ := h 0 (.temp 1) (fun _ => 0) (by decide)
  cases hcode
  have hregs := (steps_arithi (v := 255) (by decide)).symm.trans hrun
  have hvalue := congrFun (Config.at.inj (Option.some.inj hregs)).2 (.temp 0)
  rw [Function.update_self, Function.update_self] at hvalue
  revert hvalue
  decide

/-! ## Addresses -/

theorem wrap_ul_ul (x : Int) : IntType.wrap .ul (IntType.wrap .ul x) = IntType.wrap .ul x :=
  IntType.wrap_wrap .ul x

theorem coerces_from_pointer (target : IntType) : Coerces (.int target) .p := by
  intro n obj regs hrange
  have hrange : IntType.InRange .ul (regs obj) := hrange
  by_cases hul : target = .ul
  · subst hul
    refine ⟨_, rfl, (steps_cv .ul .ul).trans ?_⟩
    rw [IntType.wrap_of_inRange hrange]
    rfl
  · have hcode : scalarCoercion (.temp n) obj (.int target) .p =
        some [.cv .ul .ul (.temp n) obj, .cv .ul target (.temp n) (.temp n)] := by
      cases target <;> first | rfl | exact absurd rfl hul
    refine ⟨_, hcode, (steps_cv_cv .ul .ul .ul target).trans ?_⟩
    rw [IntType.wrap_of_inRange hrange, IntType.wrap_of_inRange hrange,
      IntType.wrap_of_inRange hrange]
    rfl

theorem coerces_to_pointer {objType : IntType} (h : missing .p (.int objType) = false) :
    Coerces .p (.int objType) := by
  intro n obj regs hrange
  have hrange : objType.InRange (regs obj) := hrange
  cases objType with
  | c | uc | s | us | u => cases h
  | ul =>
    refine ⟨_, rfl, (steps_cv .ul .ul).trans ?_⟩
    rw [wrap_ul_ul]
    rfl
  | i =>
    refine ⟨_, rfl, (steps_cv_cv .i .ul .ul .ul).trans ?_⟩
    rw [wrap_ul_ul, wrap_ul_ul, IntType.wrap_of_inRange hrange]
    rfl
  | l =>
    refine ⟨_, rfl, (steps_cv_cv .l .ul .ul .ul).trans ?_⟩
    rw [wrap_ul_ul, wrap_ul_ul, IntType.wrap_of_inRange hrange]
    rfl

/-! ## Pairs -/

/-- What is missing leads to an assertion, apart from unsigned char to char. -/
theorem scalarCoercion_of_missing {target objType : ScalarType}
    (h : missing target objType = true) (hnot : ¬ (target = .int .c ∧ objType = .int .uc))
    (ret obj : Reg) : scalarCoercion ret obj target objType = none := by
  revert h hnot
  rcases target with target | - <;> rcases objType with objType | -
  · cases target <;> cases objType <;>
      first
      | exact fun _ _ => rfl
      | exact fun _ hnot => absurd ⟨rfl, rfl⟩ hnot
      | exact fun h _ => Bool.noConfusion h
  · cases target <;> exact fun h _ => Bool.noConfusion h
  · cases objType <;> first | exact fun _ _ => rfl | exact fun h _ => Bool.noConfusion h
  · exact fun h _ => Bool.noConfusion h

/-- Every pair of scalar types comes through the checks, and `coerce_type` converts as C does
exactly when nothing is missing. -/
theorem coercion_of_scalars {target objType : ScalarType} (hne : target ≠ objType) :
    LetThrough target objType ∧
      (Coerces target objType ↔ missing target objType = false) := by
  refine ⟨.cast, ?_, ?_⟩
  · intro hcoerces
    by_contra hmissing
    by_cases huchar : target = .int .c ∧ objType = .int .uc
    · obtain ⟨rfl, rfl⟩ := huchar
      exact not_coerces_uchar hcoerces
    · obtain ⟨code, hcode, -⟩ := hcoerces 0 (.temp 1) (fun _ => 0) (by
        rcases objType with objType | - <;> first | decide | (cases objType <;> decide))
      rw [scalarCoercion_of_missing (Bool.eq_true_of_not_eq_false hmissing) huchar] at hcode
      cases hcode
  · intro h
    rcases target with target | - <;> rcases objType with objType | -
    · exact coerces_int (fun heq => hne (congrArg ScalarType.int heq)) h
    · exact coerces_from_pointer target
    · exact coerces_to_pointer h
    · exact absurd rfl hne

theorem coercion_of_scalars_short : LetThrough (.int .us) (.int .s) ∧
    (Coerces (.int .us) (.int .s) ↔ missing (.int .us) (.int .s) = false) :=
  coercion_of_scalars (by decide)

/-- The assignment of a short to a char is accepted, and there is no code for it. -/
theorem short_to_char_asserts :
    assignmentTypesMatch ⟨.int .c, none, false⟩ ⟨.int .s, none, false⟩ true = true ∧
      ¬ Coerces (.int .c) (.int .s) := by
  refine ⟨rfl, fun h => ?_⟩
  obtain ⟨code, hcode, -⟩ := h 0 (.temp 1) (fun _ => 0) (by decide)
  cases hcode

end Cod
end FFS
