import FFS.Cod.Types
import Mathlib.Data.List.Chain

/-!
# Subroutine calls

`semanticize_expr` walks the arguments of a call beside the formal parameters twice: it puts the
closure ids in, and then it checks the arguments and puts a list of formats behind each one whose
type is asked for.  `cg_subroutine_call` walks them once more.  Each walk has its own rule for
the parameters that are not written in a call.
-/

namespace FFS
namespace Cod

/-! ## Parameters and arguments -/

/-- A formal parameter: a context, a closure id or a type, one that is written in a call, or
`"..."`.  What is read of the node of an array parameter is a `plain` one without a complex
type. -/
inductive Formal where
  | execContext
  | closureContext
  | typeSpec
  | plain (cgType : CgType) (reference : Bool)
  | dots
deriving DecidableEq, Repr

namespace Formal

def cgType : Formal → CgType
  | plain t _ => t
  | dots => .i
  | _ => .p

/-- The complex type is a reference. -/
def reference : Formal → Bool
  | plain _ r => r
  | dots => false
  | _ => true

end Formal

/-- An argument as it is written: whether `semanticize_expr` accepts it, its type, whether it is
an integer constant that reads as zero, and whether its complex type is a struct. -/
structure Argument where
  node : Nat
  accepted : Bool
  cgType : CgType
  zero : Bool
  structured : Bool
deriving DecidableEq, Repr

/-- An element of the list of arguments.  `nullList` is what is left of `build_format_list` where
there is no struct, and nothing makes a list of formats of no argument. -/
inductive Arg where
  | written (a : Argument)
  | closureId
  | formatList (a : Option Argument)
  | nullList
deriving DecidableEq, Repr

namespace Arg

def accepted : Arg → Bool
  | written a => a.accepted
  | _ => true

/-- `cod_sm_get_type`.  What is put in is an integer constant. -/
def cgType : Arg → CgType
  | written a => a.cgType
  | _ => .l

/-- What is put in begins with `0`, and only that is read with `%d`. -/
def zero : Arg → Bool
  | written a => a.zero
  | _ => true

def isList : Arg → Bool
  | formatList _ | nullList => true
  | _ => false

end Arg

/-- `build_format_list` -/
def buildFormatList : Arg → Arg
  | .written a => if a.structured then .formatList (some a) else .nullList
  | _ => .nullList

/-! ## The check of a call -/

/-- The first loop: the closure ids are put in. -/
def insertClosures : List Formal → List Arg → List Arg
  | [], args => args
  | .execContext :: formals, args => insertClosures formals args
  | .closureContext :: formals, args => .closureId :: insertClosures formals args
  | _ :: formals, [] => insertClosures formals []
  | _ :: formals, arg :: args => arg :: insertClosures formals args

/-- There is no `mismatch`. -/
def argumentFits (formal : Formal) (arg : Arg) : Bool :=
  match arg.cgType with
  | .d | .f => formal.cgType.number < CgType.v.number
  | .i | .u | .l | .ul =>
    formal.cgType ≠ .p || formal = .typeSpec || formal = .closureContext || arg.zero
  | .p => formal.cgType = .p || formal.reference
  | _ => true

/-- The second loop, with the list of arguments that it leaves. -/
def checkArguments (hasExecContext : Bool) (formals : List Formal) (args : List Arg) :
    Bool × List Arg :=
  match formals, args with
  | .execContext :: formals, args =>
    if hasExecContext then checkArguments hasExecContext formals args else (false, args)
  | formals, [] => (formals.head?.all (· = .dots), [])
  | formals, arg :: args =>
    if arg.accepted = false then
      -- the argument is passed over, and `ret` stays as it is
      let (ret, args) := checkArguments hasExecContext formals args
      (ret, arg :: args)
    else
      match formals with
      | [] => (false, arg :: args)
      | .dots :: formals =>
        let (ret, args) := checkArguments hasExecContext (.dots :: formals) args
        (ret, arg :: args)
      | formal :: formals =>
        let args := if formals.head? = some .typeSpec then buildFormatList arg :: args else args
        let enough := args ≠ [] || formals.head?.all (· = .dots)
        let (ret, args) := checkArguments hasExecContext formals args
        (argumentFits formal arg && enough && ret, arg :: args)
termination_by formals.length + args.length
decreasing_by
  all_goals grind

/-- The subroutine call in `semanticize_expr`. -/
def semanticizeCall (hasExecContext : Bool) (formals : List Formal) (args : List Argument) :
    Bool × List Arg :=
  checkArguments hasExecContext formals (insertClosures formals (args.map .written))

/-! ## The code of a call -/

/-- What is pushed: the context, or an argument, coerced to the type of a formal parameter or in
its own. -/
inductive Pushed where
  | context
  | argument (arg : Arg) (formal : Option Formal)
deriving DecidableEq, Repr

/-- `next_formal_is_drisc_exec_ctx`, and what is done where it is. -/
def takeContext : List Formal → List Pushed × List Formal
  | .execContext :: formals => ([.context], formals)
  | formals => ([], formals)

/-- The formal parameter that an argument is coerced to. -/
def coercedTo (formals : List Formal) : Option Formal := formals.head?.filter (· ≠ .dots)

/-- The loop over the arguments. -/
def tabulate : List Formal → List Arg → List Pushed
  | _, [] => []
  | formals, arg :: args =>
    let next := takeContext formals.tail
    .argument arg (coercedTo formals) :: next.1 ++ tabulate next.2 args

def maxArg : Nat := 128

structure Subroutine where
  /-- The name is `cod_NoOp`. -/
  noOp : Bool
  params : List Formal
  dotsLast : .dots ∉ params.dropLast

/-- `cg_subroutine_call`, up to the call.  More than `maxArg` arguments are counted but not
kept, so that the ones to be pushed are read from behind the table. -/
def cgSubroutineCall (sub : Subroutine) (args : List Arg) : Option (List Pushed) :=
  let first := takeContext sub.params
  let table := first.1 ++ tabulate first.2 args
  if sub.noOp then some [] else if table.length ≤ maxArg then some table else none

/-! ## What a call should be -/

/-- The written arguments are as many as the written parameters, or more where there is `"..."`,
and of their kinds. -/
def Matches : List Formal → List Argument → Prop
  | [], args => args = []
  | .dots :: _, _ => True
  | .plain t r :: formals, args =>
    match args with
    | [] => False
    | a :: args => argumentFits (.plain t r) (.written a) = true ∧ Matches formals args
  | _ :: formals, args => Matches formals args

/-- One argument for each parameter, and then the rest.  A type is that of the last written
argument. -/
def expected : Option Argument → List Formal → List Argument → List Pushed
  | _, [], _ => []
  | _, .dots :: _, args => args.map fun a => .argument (.written a) none
  | last, .execContext :: formals, args => .context :: expected last formals args
  | last, .closureContext :: formals, args =>
    .argument .closureId (some .closureContext) :: expected last formals args
  | last, .typeSpec :: formals, args =>
    .argument (.formatList last) (some .typeSpec) :: expected last formals args
  | last, .plain t r :: formals, args =>
    match args with
    | [] => expected last formals []
    | a :: args =>
      .argument (.written a) (some (.plain t r)) :: expected (some a) formals args

/-- The call is accepted where it should be, and then what should be is pushed. -/
def CallRight (sub : Subroutine) (hasExecContext : Bool) (args : List Argument) : Prop :=
  let result := semanticizeCall hasExecContext sub.params args
  (result.1 = true ↔ (∀ a ∈ args, a.accepted = true) ∧ Matches sub.params args) ∧
    (result.1 = true →
      cgSubroutineCall sub result.2 = some (expected none sub.params args))

/-! ## Where the walks agree -/

/-- A type is asked for directly behind a written parameter, whose argument has a struct type. -/
def TypeSpecsPlaced : Option Argument → List Formal → List Argument → Prop
  | _, [], _ => True
  | _, .dots :: _, _ => True
  | _, .execContext :: formals, args => TypeSpecsPlaced none formals args
  | _, .closureContext :: formals, args => TypeSpecsPlaced none formals args
  | front, .typeSpec :: formals, args =>
    front.any (·.structured) = true ∧ TypeSpecsPlaced none formals args
  | _, .plain _ _ :: formals, args =>
    match args with
    | [] => TypeSpecsPlaced none formals []
    | a :: args => TypeSpecsPlaced (some a) formals args

/-- Behind a type, a closure id is the last thing in the call. -/
def ClosuresPlaced : Bool → List Formal → List Argument → Prop
  | _, [], _ => True
  | _, .dots :: _, _ => True
  | typed, .execContext :: formals, args => ClosuresPlaced typed formals args
  | typed, .closureContext :: formals, args =>
    (typed = true → args = []) ∧ ClosuresPlaced typed formals args
  | _, .typeSpec :: formals, args => ClosuresPlaced true formals args
  | typed, .plain _ _ :: formals, args => ClosuresPlaced typed formals args.tail

/-- Where there is an argument in front of a context, there is one behind it. -/
def ContextsFollowed : Bool → List Formal → List Argument → Prop
  | _, [], _ => True
  | _, .dots :: _, _ => True
  | argued, .execContext :: formals, args =>
    (argued = true → args ≠ [] ∨ .closureContext ∈ formals) ∧
      ContextsFollowed argued formals args
  | _, .closureContext :: formals, args => ContextsFollowed true formals args
  | _, .typeSpec :: formals, args => ContextsFollowed true formals args
  | argued, .plain _ _ :: formals, args =>
    match args with
    | [] => ContextsFollowed argued formals []
    | _ :: args => ContextsFollowed true formals args

/-- No context is directly in front of another. -/
def ContextsApart (formals : List Formal) : Prop :=
  formals.IsChain fun f g => ¬ (f = .execContext ∧ g = .execContext)

/-- Every argument is accepted, and they match the parameters. -/
def Proper (formals : List Formal) (args : List Argument) : Prop :=
  (∀ a ∈ args, a.accepted = true) ∧ Matches formals args

/-- The types, the closure ids and the contexts of a call are where the walks look for them, and
the table holds what is to be pushed. -/
structure Placed (sub : Subroutine) (hasExecContext : Bool) (args : List Argument) : Prop where
  types : TypeSpecsPlaced none sub.params args
  closures : ClosuresPlaced false sub.params args
  followed : ContextsFollowed false sub.params args
  apart : ContextsApart sub.params
  hasContext : .execContext ∈ sub.params → hasExecContext = true
  table : (expected none sub.params args).length ≤ maxArg
  called : sub.noOp = true → expected none sub.params args = []

/-- The parameters that stand against an argument of the list.  A type directly behind another
parameter has a list put in for it (`direct`), at any other place it takes what comes next. -/
def takers : Bool → List Formal → List Formal
  | _, [] => []
  | _, .execContext :: formals => takers false formals
  | _, .dots :: _ => []
  | true, .typeSpec :: formals => takers true formals
  | _, formal :: formals => formal :: takers true formals

/-- The last parameter but for `"..."` is a context. -/
def EndsInContext (formals : List Formal) : Prop :=
  (formals.filter (· ≠ .dots)).getLast? = some .execContext

/-- The arguments of a list, but for the rejected ones, can stand for the parameters from `formals`
on, as many as these and of their kinds; and a context at the end has an argument behind it, if
only a rejected one, or none in front (`argued`). -/
structure StandFor (hasExecContext argued direct : Bool) (formals : List Formal)
    (args : List Arg) : Prop where
  context : .execContext ∈ formals → hasExecContext = true
  enough : (takers direct formals).length ≤ (args.filter Arg.accepted).length
  noMore : .dots ∉ formals →
    (args.filter Arg.accepted).length ≤ (takers direct formals).length
  kinds : ∀ p ∈ (takers direct formals).zip (args.filter Arg.accepted),
    argumentFits p.1 p.2 = true
  followed : EndsInContext formals → takers direct formals = [] ∧ argued = false ∨
    (takers direct formals).length < (args.filter Arg.accepted).length ∨
    args.getLast?.any (!·.accepted) = true

/-- A call that should be accepted has all in its place, and in one that should not the arguments
that are not passed over cannot stand for the parameters. -/
def WalksAgree (sub : Subroutine) (hasExecContext : Bool) (args : List Argument) : Prop :=
  (Proper sub.params args → Placed sub hasExecContext args) ∧
    (¬ Proper sub.params args →
      ¬ StandFor hasExecContext false false sub.params
        (insertClosures sub.params (args.map .written)))

/-! ## Putting the closure ids in -/

/-- The closure ids in their places among the written arguments. -/
def withClosures : List Formal → List Argument → List Arg
  | [], args => args.map .written
  | .dots :: _, args => args.map .written
  | .execContext :: formals, args => withClosures formals args
  | .closureContext :: formals, args => .closureId :: withClosures formals args
  | .typeSpec :: formals, args => withClosures formals args
  | .plain _ _ :: formals, args =>
    match args with
    | [] => withClosures formals []
    | a :: args => .written a :: withClosures formals args

theorem dots_cons {f : Formal} {fs : List Formal} (h : .dots ∉ (f :: fs).dropLast) :
    (f = .dots → fs = []) ∧ .dots ∉ fs.dropLast := by
  cases fs with
  | nil => exact ⟨fun _ => rfl, by simp⟩
  | cons g gs =>
    rw [List.dropLast_cons_cons, List.mem_cons, not_or] at h
    exact ⟨fun hf => absurd hf.symm h.1, h.2⟩

/-- The first loop takes a written argument for a type, so that from there on it is behind by the
arguments `lag`. -/
theorem insertClosures_iff {fs : List Formal} (hd : .dots ∉ fs.dropLast) (typed : Bool)
    (lag cur : List Argument) (hnone : typed = true → lag = [] → cur = [])
    (hsome : lag ≠ [] → typed = true) :
    lag.map .written ++ insertClosures fs (cur.map .written) = withClosures fs (lag ++ cur) ↔
      ClosuresPlaced typed fs (lag ++ cur) := by
  induction fs generalizing typed lag cur with
  | nil => simp [insertClosures, withClosures, ClosuresPlaced]
  | cons f fs ih =>
    obtain ⟨hlast, hds⟩ := dots_cons hd
    cases f with
    | dots =>
      obtain rfl := hlast rfl
      cases cur <;> simp [insertClosures, withClosures, ClosuresPlaced]
    | execContext =>
      rw [insertClosures, withClosures, ClosuresPlaced, ih hds typed lag cur hnone hsome]
    | closureContext =>
      rw [insertClosures, withClosures, ClosuresPlaced]
      cases lag with
      | nil =>
        have := ih hds typed [] cur hnone hsome
        simp only [List.map_nil, List.nil_append] at this ⊢
        rw [List.cons.injEq, this]
        simp only [true_and]
        exact (and_iff_right fun h => hnone h rfl).symm
      | cons x lag =>
        have ht := hsome (List.cons_ne_nil _ _)
        simp [ht]
    | typeSpec =>
      rw [withClosures, ClosuresPlaced]
      cases cur with
      | nil =>
        rw [List.map_nil, insertClosures]
        · exact ih hds true lag [] (fun _ _ => rfl) fun _ => rfl
        all_goals simp
      | cons b cur =>
        have := ih hds true (lag ++ [b]) cur (fun _ h => by simp at h) fun _ => rfl
        rw [List.map_cons, insertClosures]
        · simpa using this
        all_goals simp
    | plain t r =>
      rw [ClosuresPlaced]
      cases lag with
      | nil =>
        cases cur with
        | nil =>
          have := ih hds typed [] [] (fun _ _ => rfl) hsome
          rw [List.map_nil, insertClosures]
          · simpa [withClosures] using this
          all_goals simp
        | cons b cur =>
          have := ih hds typed [] cur (fun h _ => absurd (hnone h rfl) (List.cons_ne_nil _ _))
            fun h => absurd rfl h
          rw [List.map_cons, insertClosures]
          · simpa [withClosures] using this
          all_goals simp
      | cons x lag =>
        have ht := hsome (List.cons_ne_nil _ _)
        cases cur with
        | nil =>
          have := ih hds typed lag [] (fun _ _ => rfl) fun _ => ht
          rw [List.map_nil, insertClosures]
          · simpa [withClosures] using this
          all_goals simp
        | cons b cur =>
          have := ih hds typed (lag ++ [b]) cur (fun _ h => by simp at h) fun _ => ht
          simp only [List.map_cons]
          rw [insertClosures]
          · simpa [withClosures] using this
          all_goals simp

theorem insertClosures_eq_iff {fs : List Formal} (hd : .dots ∉ fs.dropLast)
    (args : List Argument) :
    insertClosures fs (args.map .written) = withClosures fs args ↔
      ClosuresPlaced false fs args := by
  have := insertClosures_iff hd false [] args (fun h => by cases h) fun h => absurd rfl h
  simpa using this

theorem mem_withClosures {fs : List Formal} {args : List Argument} {x : Arg}
    (h : x ∈ withClosures fs args) : x = .closureId ∨ ∃ a ∈ args, x = .written a := by
  induction fs generalizing args with
  | nil =>
    obtain ⟨a, ha, rfl⟩ := List.mem_map.1 h
    exact .inr ⟨a, ha, rfl⟩
  | cons f fs ih =>
    cases f with
    | dots =>
      obtain ⟨a, ha, rfl⟩ := List.mem_map.1 h
      exact .inr ⟨a, ha, rfl⟩
    | execContext => exact ih h
    | typeSpec => exact ih h
    | closureContext =>
      rcases List.mem_cons.1 h with rfl | h
      · exact .inl rfl
      · exact ih h
    | plain t r =>
      cases args with
      | nil => exact ih h
      | cons a args =>
        rcases List.mem_cons.1 h with rfl | h
        · exact .inr ⟨a, List.mem_cons_self .., rfl⟩
        · obtain rfl | ⟨b, hb, rfl⟩ := ih h
          · exact .inl rfl
          · exact .inr ⟨b, List.mem_cons_of_mem _ hb, rfl⟩

theorem isList_of_mem_withClosures {fs : List Formal} {args : List Argument} {x : Arg}
    (h : x ∈ withClosures fs args) : x.isList = false := by
  obtain rfl | ⟨a, -, rfl⟩ := mem_withClosures h <;> rfl

theorem accepted_of_mem_withClosures {fs : List Formal} {args : List Argument}
    (hargs : ∀ a ∈ args, a.accepted = true) {x : Arg} (h : x ∈ withClosures fs args) :
    x.accepted = true := by
  obtain rfl | ⟨a, ha, rfl⟩ := mem_withClosures h
  · rfl
  · exact hargs a ha

theorem withClosures_ne_nil_iff {fs : List Formal} (hd : .dots ∉ fs.dropLast)
    (args : List Argument) :
    withClosures fs args ≠ [] ↔ args ≠ [] ∨ .closureContext ∈ fs := by
  induction fs generalizing args with
  | nil => simp [withClosures]
  | cons f fs ih =>
    obtain ⟨hlast, hds⟩ := dots_cons hd
    cases f with
    | dots =>
      obtain rfl := hlast rfl
      simp [withClosures]
    | execContext => simpa [withClosures] using ih hds args
    | typeSpec => simpa [withClosures] using ih hds args
    | closureContext => simp [withClosures]
    | plain t r =>
      cases args with
      | nil => simpa [withClosures] using ih hds []
      | cons a args => simp [withClosures]

/-! ## One step of the second loop -/

section

variable (h : Bool) {f : Formal} {fs : List Formal} {arg : Arg} {args : List Arg}

theorem checkArguments_execContext :
    checkArguments h (.execContext :: fs) args =
      if h then checkArguments h fs args else (false, args) := by
  rw [checkArguments]

theorem checkArguments_nil (hf : f ≠ .execContext) :
    checkArguments h (f :: fs) [] = (decide (f = .dots), []) := by
  rw [checkArguments]
  · simp
  · exact fun _ he => hf (List.cons.inj he).1

theorem checkArguments_dots (ha : arg.accepted = true) :
    checkArguments h (.dots :: fs) (arg :: args) =
      ((checkArguments h (.dots :: fs) args).1,
        arg :: (checkArguments h (.dots :: fs) args).2) := by
  rw [checkArguments]
  simp [ha]

theorem checkArguments_formal (hf : f ≠ .execContext) (hdots : f ≠ .dots)
    (ha : arg.accepted = true) :
    checkArguments h (f :: fs) (arg :: args) =
      let args := if fs.head? = some .typeSpec then buildFormatList arg :: args else args
      let rest := checkArguments h fs args
      (argumentFits f arg && (args ≠ [] || fs.head?.all (· = .dots)) && rest.1,
        arg :: rest.2) := by
  cases f with
  | execContext => exact absurd rfl hf
  | dots => exact absurd rfl hdots
  | closureContext | typeSpec | plain t r =>
    rw [checkArguments]
    · simp [ha]
    all_goals simp

theorem checkArguments_formal_snd (hf : f ≠ .execContext) (hdots : f ≠ .dots)
    (ha : arg.accepted = true) :
    (checkArguments h (f :: fs) (arg :: args)).2 =
      arg :: (checkArguments h fs
        ((if fs.head? = some .typeSpec then [buildFormatList arg] else []) ++ args)).2 := by
  rw [checkArguments_formal h hf hdots ha]
  split <;> simp_all

/-- An accepted argument for a formal parameter: the rest is accepted too. -/
theorem checkArguments_formal_eq_true (hf : f ≠ .execContext) (hdots : f ≠ .dots)
    (ha : arg.accepted = true) (hr : (checkArguments h (f :: fs) (arg :: args)).1 = true) :
    (checkArguments h fs
      ((if fs.head? = some .typeSpec then [buildFormatList arg] else []) ++ args)).1 = true := by
  rw [checkArguments_formal h hf hdots ha] at hr
  simp only [Bool.and_eq_true] at hr
  have hrest := hr.2
  split <;> simp_all

end

/-! ## What is left of the arguments -/

namespace Formal

/-- It takes a written argument or a closure id. -/
def takes : Formal → Bool
  | plain _ _ => true
  | closureContext => true
  | _ => false

end Formal

theorem isList_buildFormatList (x : Arg) : (buildFormatList x).isList = true := by
  cases x with
  | written a =>
    rw [buildFormatList]
    split <;> rfl
  | closureId | formatList | nullList => rfl

theorem accepted_of_isList {x : Arg} (h : x.isList = true) : x.accepted = true := by
  cases x with
  | written a => cases h
  | closureId | formatList | nullList => rfl

/-- No list of formats is taken for another parameter, so that there is an argument for each. -/
theorem countP_takes_le {fs : List Formal} (hd : .dots ∉ fs.dropLast) (hasContext : Bool)
    {lists args : List Arg}
    (hlists : lists = [] ∨ fs.head? = some .typeSpec ∧ ∃ t, lists = [t] ∧ t.isList = true)
    (hargs : ∀ x ∈ args, x.accepted = true)
    (hr : (checkArguments hasContext fs (lists ++ args)).1 = true) :
    fs.countP Formal.takes ≤ args.length := by
  induction fs generalizing lists args with
  | nil => exact Nat.zero_le _
  | cons f fs ih =>
    obtain ⟨hlast, hds⟩ := dots_cons hd
    -- an argument that is no list is used up, and the next one may be a list
    have hstep : ∀ {x : Arg} {rest : List Arg}, f ≠ .execContext → f ≠ .dots →
        x.accepted = true → (∀ y ∈ rest, y.accepted = true) →
        (checkArguments hasContext (f :: fs) (x :: rest)).1 = true →
        fs.countP Formal.takes ≤ rest.length := by
      intro x rest hf hdots hx hrest h
      refine ih hds ?_ hrest (checkArguments_formal_eq_true hasContext hf hdots hx h)
      split
      · exact .inr ⟨‹_›, _, rfl, isList_buildFormatList x⟩
      · exact .inl rfl
    cases f with
    | dots =>
      obtain rfl := hlast rfl
      simp [Formal.takes]
    | execContext =>
      obtain rfl : lists = [] := hlists.resolve_right fun h => by simp at h
      rw [checkArguments_execContext] at hr
      split at hr
      · simpa [Formal.takes] using ih hds (.inl rfl) hargs hr
      · cases hr
    | typeSpec =>
      rw [List.countP_cons_of_neg (by simp [Formal.takes])]
      rcases hlists with rfl | ⟨-, t, rfl, ht⟩
      · cases args with
        | nil =>
          rw [List.append_nil, checkArguments_nil _ (by simp)] at hr
          simp at hr
        | cons x args =>
          have := hstep (by simp) (by simp) (hargs x (List.mem_cons_self ..))
            (fun y hy => hargs y (List.mem_cons_of_mem _ hy)) hr
          rw [List.length_cons]
          omega
      · exact hstep (by simp) (by simp) (accepted_of_isList ht) hargs hr
    | closureContext | plain t r =>
      obtain rfl : lists = [] := hlists.resolve_right fun h => by simp at h
      rw [List.countP_cons_of_pos (by simp [Formal.takes])]
      cases args with
      | nil =>
        rw [List.append_nil, checkArguments_nil _ (by simp)] at hr
        simp at hr
      | cons x args =>
        have := hstep (by simp) (by simp) (hargs x (List.mem_cons_self ..))
          (fun y hy => hargs y (List.mem_cons_of_mem _ hy)) hr
        rw [List.length_cons]
        omega

theorem withClosures_length_lt {fs : List Formal} (t : CgType) (r : Bool)
    (hd : .dots ∉ fs.dropLast) :
    (withClosures (.plain t r :: fs) []).length < (Formal.plain t r :: fs).countP Formal.takes := by
  have : ∀ gs : List Formal, .dots ∉ gs.dropLast →
      (withClosures gs []).length ≤ gs.countP Formal.takes := by
    intro gs hgs
    induction gs with
    | nil => exact Nat.zero_le _
    | cons g gs ih =>
      have hgs' := ih (dots_cons hgs).2
      cases g <;> simp only [withClosures, List.countP_cons, Formal.takes, List.length_cons,
        List.map_nil, List.length_nil, if_true, Bool.false_eq_true, if_false] <;> omega
  have hle := this fs hd
  rw [List.countP_cons_of_pos (by simp [Formal.takes]), withClosures]
  omega

/-! ## The second loop beside the parameters -/

/-- All arguments in their places but for the contexts. -/
def lineUp : Option Argument → List Formal → List Argument → List Arg
  | _, [], args => args.map .written
  | _, .dots :: _, args => args.map .written
  | last, .execContext :: formals, args => lineUp last formals args
  | last, .closureContext :: formals, args => .closureId :: lineUp last formals args
  | last, .typeSpec :: formals, args => .formatList last :: lineUp last formals args
  | last, .plain _ _ :: formals, args =>
    match args with
    | [] => lineUp last formals []
    | a :: args => .written a :: lineUp (some a) formals args

/-- The arguments that are left at a formal parameter: where it asks for a type, the list is
there already. -/
def pending (front : Option Argument) (formals : List Formal) (args : List Argument) : List Arg :=
  (if formals.head? = some .typeSpec then [.formatList front] else []) ++
    withClosures formals args

theorem pending_of_placed {fs : List Formal} {args : List Argument}
    (h : TypeSpecsPlaced none fs args) : pending none fs args = withClosures fs args := by
  cases fs with
  | nil => rfl
  | cons f fs =>
    cases f with
    | typeSpec => exact absurd h.1 (by simp)
    | execContext | closureContext | plain t r | dots => rfl

/-- Behind an argument with a struct type, the list is put in. -/
theorem pending_of_written {a : Argument} {fs : List Formal} {args : List Argument}
    (h : TypeSpecsPlaced (some a) fs args) :
    (if fs.head? = some .typeSpec then buildFormatList (.written a) :: withClosures fs args
      else withClosures fs args) = pending (some a) fs args := by
  cases fs with
  | nil => rfl
  | cons f fs =>
    cases f with
    | typeSpec =>
      have ha : a.structured = true := by simpa using h.1
      simp [pending, buildFormatList, ha]
    | execContext | closureContext | plain t r | dots => rfl

/-- Where the rest matches, an argument is behind the contexts if one is left. -/
theorem contextsFollowed_true_iff (front : Option Argument) {fs : List Formal}
    {args : List Argument} (hd : .dots ∉ fs.dropLast) (hm : Matches fs args) :
    ContextsFollowed true fs args ↔
      (pending front fs args ≠ [] ∨ fs.head?.all (· = .dots) = true) ∧
        ContextsFollowed false fs args := by
  induction fs with
  | nil => simp [ContextsFollowed]
  | cons f fs ih =>
    obtain ⟨hlast, hds⟩ := dots_cons hd
    cases f with
    | dots => simp [ContextsFollowed]
    | typeSpec => simp [ContextsFollowed, pending]
    | closureContext => simp [ContextsFollowed, pending, withClosures]
    | plain t r =>
      cases args with
      | nil => exact absurd hm id
      | cons a args => simp [ContextsFollowed, pending, withClosures]
    | execContext =>
      have hne := withClosures_ne_nil_iff hds args
      have hrest := ih hds hm
      have hpending : (args ≠ [] ∨ .closureContext ∈ fs) → pending front fs args ≠ [] :=
        fun h hnil => hne.2 h (List.append_eq_nil_iff.1 hnil).2
      simp only [ContextsFollowed, pending, withClosures, List.head?_cons, Option.some.injEq,
        reduceCtorEq, if_false, List.nil_append, Option.all_some, decide_false,
        Bool.false_eq_true, or_false, true_imp_iff, false_imp_iff, true_and, hne]
      exact and_congr_right fun h => hrest.trans (and_iff_right (.inl (hpending h)))

/-- The second loop accepts what matches, and leaves the list with all arguments in their
places. -/
theorem checkArguments_pending {fs : List Formal} (hd : .dots ∉ fs.dropLast) (h : Bool)
    (front last : Option Argument) {args : List Argument}
    (hlast : front ≠ none → last = front) (hargs : ∀ a ∈ args, a.accepted = true)
    (ht : TypeSpecsPlaced front fs args) :
    ((checkArguments h fs (pending front fs args)).1 = true ↔
        Matches fs args ∧ (.execContext ∈ fs → h = true) ∧ ContextsFollowed false fs args) ∧
      ((checkArguments h fs (pending front fs args)).1 = true →
        (checkArguments h fs (pending front fs args)).2 = lineUp last fs args) := by
  induction fs generalizing front last args with
  | nil =>
    cases args with
    | nil =>
      have hnil : checkArguments h [] (pending front [] []) = (true, []) := by
        rw [pending, withClosures, List.map_nil]
        simp only [List.head?_nil, reduceCtorEq, if_false, List.append_nil]
        rw [checkArguments]
        · rfl
        · simp
      rw [hnil]
      simp [Matches, ContextsFollowed, lineUp]
    | cons a args =>
      have ha := hargs a (List.mem_cons_self ..)
      have hfalse : (checkArguments h [] (pending front [] (a :: args))).1 = false := by
        simp only [pending, withClosures, List.head?_nil, reduceCtorEq, if_false,
          List.nil_append, List.map_cons]
        rw [checkArguments]
        simp [Arg.accepted, ha]
      rw [hfalse]
      simp [Matches]
  | cons f fs ih =>
    obtain ⟨hdots, hds⟩ := dots_cons hd
    -- one argument for a parameter, in front of the arguments that are left at the next one
    have hstep : ∀ (x : Arg) (front' last' : Option Argument) (args' : List Argument),
        f ≠ .execContext → f ≠ .dots → x.accepted = true →
        pending front (f :: fs) args = x :: withClosures fs args' →
        (if fs.head? = some .typeSpec then buildFormatList x :: withClosures fs args'
          else withClosures fs args') = pending front' fs args' →
        TypeSpecsPlaced front' fs args' → (front' ≠ none → last' = front') →
        (∀ a ∈ args', a.accepted = true) →
        (Matches (f :: fs) args ↔ argumentFits f x = true ∧ Matches fs args') →
        (ContextsFollowed false (f :: fs) args ↔ ContextsFollowed true fs args') →
        lineUp last (f :: fs) args = x :: lineUp last' fs args' →
        ((checkArguments h (f :: fs) (pending front (f :: fs) args)).1 = true ↔
            Matches (f :: fs) args ∧ (.execContext ∈ f :: fs → h = true) ∧
              ContextsFollowed false (f :: fs) args) ∧
          ((checkArguments h (f :: fs) (pending front (f :: fs) args)).1 = true →
            (checkArguments h (f :: fs) (pending front (f :: fs) args)).2 =
              lineUp last (f :: fs) args) := by
      intro x front' last' args' hf hnd hx hp hnext ht' hlast' hargs' hm hc hl
      obtain ⟨hiff, hlist⟩ := ih hds front' last' hlast' hargs' ht'
      rw [hp, checkArguments_formal h hf hnd hx]
      simp only [hnext, Bool.and_eq_true, Bool.or_eq_true, decide_eq_true_eq, hiff, hm, hc, hl,
        List.mem_cons, hf.symm, false_or]
      constructor
      · constructor
        · rintro ⟨⟨hfit, hen⟩, hmatch, hex, hcf⟩
          exact ⟨⟨hfit, hmatch⟩, hex, (contextsFollowed_true_iff front' hds hmatch).2 ⟨hen, hcf⟩⟩
        · rintro ⟨⟨hfit, hmatch⟩, hex, hcf⟩
          obtain ⟨hen, hcf⟩ := (contextsFollowed_true_iff front' hds hmatch).1 hcf
          exact ⟨⟨hfit, hen⟩, hmatch, hex, hcf⟩
      · rintro ⟨-, hrest⟩
        rw [hlist (hiff.2 hrest)]
    cases f with
    | dots =>
      obtain rfl := hdots rfl
      have hall : checkArguments h [.dots] (args.map .written) = (true, args.map .written) := by
        clear ht hstep
        induction args with
        | nil =>
          rw [List.map_nil, checkArguments_nil _ (by simp)]
          rfl
        | cons a args ih =>
          have ha : (Arg.written a).accepted = true := hargs a (List.mem_cons_self ..)
          rw [List.map_cons, checkArguments_dots h ha,
            ih fun b hb => hargs b (List.mem_cons_of_mem _ hb)]
      have hp : pending front [.dots] args = args.map .written := rfl
      rw [hp, hall]
      simp [Matches, ContextsFollowed, lineUp]
    | execContext =>
      have hp : pending front (.execContext :: fs) args = pending none fs args :=
        (pending_of_placed ht).symm
      rw [hp, checkArguments_execContext]
      cases h with
      | false => simp
      | true =>
        obtain ⟨hiff, hlist⟩ := ih hds none last (fun h => absurd rfl h) hargs ht
        rw [if_pos rfl]
        refine ⟨?_, hlist⟩
        rw [hiff]
        simp [Matches, ContextsFollowed]
    | closureContext =>
      refine hstep .closureId none last args (by simp) (by simp) rfl rfl ?_ ht
        (fun h => absurd rfl h) hargs ?_ Iff.rfl rfl
      · rw [pending_of_placed ht, if_neg]
        intro he
        cases fs with
        | nil => cases he
        | cons g gs =>
          obtain rfl := Option.some.inj he
          exact absurd ht.1 (by simp)
      · simp [argumentFits, Arg.cgType, Matches]
    | typeSpec =>
      obtain ⟨hfront, ht⟩ := ht
      have hl : last = front := hlast (by rintro rfl; cases hfront)
      refine hstep (.formatList front) none last args (by simp) (by simp) rfl rfl ?_ ht
        (fun h => absurd rfl h) hargs ?_ Iff.rfl ?_
      · rw [pending_of_placed ht, if_neg]
        intro he
        cases fs with
        | nil => cases he
        | cons g gs =>
          obtain rfl := Option.some.inj he
          exact absurd ht.1 (by simp)
      · simp [argumentFits, Arg.cgType, Matches]
      · rw [hl]
        rfl
    | plain t r =>
      cases args with
      | nil =>
        have hfalse : (checkArguments h (.plain t r :: fs)
            (pending front (.plain t r :: fs) [])).1 ≠ true := by
          intro hr
          have hle := countP_takes_le hd h (.inl rfl)
            (fun x hx => accepted_of_mem_withClosures hargs hx) hr
          exact absurd hle (Nat.not_le.2 (withClosures_length_lt t r hds))
        exact ⟨iff_of_false hfalse fun hm => hm.1, fun hr => absurd hr hfalse⟩
      | cons a args =>
        exact hstep (.written a) (some a) (some a) args (by simp)
          (by simp) (hargs a (List.mem_cons_self ..)) rfl (pending_of_written ht) ht
          (fun _ => rfl) (fun b hb => hargs b (List.mem_cons_of_mem _ hb)) Iff.rfl Iff.rfl rfl

/-- Without the lists of formats the second loop leaves the arguments as they are. -/
theorem checkArguments_filter (h : Bool) (fs : List Formal) (args : List Arg) :
    (checkArguments h fs args).2.filter (!·.isList) = args.filter (!·.isList) := by
  fun_induction checkArguments h fs args with
  | case1 formals args hh ih => exact ih
  | case2 => rfl
  | case3 => rfl
  | case4 formals arg args hx ha ret rest heq ih =>
    rw [heq] at ih
    rw [List.filter_cons, List.filter_cons, ih]
  | case5 => rfl
  | case6 arg args ha formals ret rest heq hx ih =>
    rw [heq] at ih
    rw [List.filter_cons, List.filter_cons, ih]
  | case7 arg args ha formal formals hf next enough ret rest heq hx ih =>
    rw [heq] at ih
    have hnext : next.filter (!·.isList) = args.filter (!·.isList) := by
      show (if formals.head? = some .typeSpec then buildFormatList arg :: args else args).filter
        (!·.isList) = _
      split
      · rw [List.filter_cons_of_neg (by simp [isList_buildFormatList])]
      · rfl
    rw [List.filter_cons, List.filter_cons, ih, hnext]

theorem buildFormatList_eq_formatList {x : Arg} {b : Option Argument}
    (h : buildFormatList x = .formatList b) : ∃ a, x = .written a ∧ a.structured = true := by
  cases x with
  | written a =>
    rw [buildFormatList] at h
    split at h
    · exact ⟨a, rfl, ‹_›⟩
    · cases h
  | closureId | formatList | nullList => cases h

/-- Where all arguments are left in their places, each type is asked for where the loop looks for
it. -/
theorem typeSpecsPlaced_of_lineUp {fs : List Formal} (hd : .dots ∉ fs.dropLast) (h : Bool)
    (front last : Option Argument) {args : List Argument} {lists rest : List Arg}
    (hlists : lists = [] ∨ fs.head? = some .typeSpec ∧ ∃ t, lists = [t] ∧ t.isList = true ∧
      ∀ b, t = .formatList b → front.any (·.structured) = true)
    (hrest : ∀ x ∈ rest, x.accepted = true ∧ x.isList = false) (hm : Matches fs args)
    (hr : (checkArguments h fs (lists ++ rest)).1 = true)
    (ho : (checkArguments h fs (lists ++ rest)).2 = lineUp last fs args) :
    TypeSpecsPlaced front fs args := by
  induction fs generalizing front last args lists rest with
  | nil => trivial
  | cons f fs ih =>
    obtain ⟨-, hds⟩ := dots_cons hd
    -- the argument `x` is in its place, and a list behind it stands for `front'`
    have hstep : ∀ (x y : Arg) (front' last' : Option Argument) (args' : List Argument)
        (rest' : List Arg), f ≠ .execContext → f ≠ .dots → x.accepted = true →
        lists ++ rest = x :: rest' → (∀ z ∈ rest', z.accepted = true ∧ z.isList = false) →
        lineUp last (f :: fs) args = y :: lineUp last' fs args' → Matches fs args' →
        (∀ a, x = .written a → front' = some a) → x = y ∧ TypeSpecsPlaced front' fs args' := by
      intro x y front' last' args' rest' hf hnd hx heq hrest' hl hm' hfront'
      rw [heq] at hr ho
      rw [hl, checkArguments_formal_snd h hf hnd hx, List.cons.injEq] at ho
      refine ⟨ho.1, ih hds front' last' ?_ hrest' hm'
        (checkArguments_formal_eq_true h hf hnd hx hr) ho.2⟩
      split
      · refine .inr ⟨‹_›, _, rfl, isList_buildFormatList x, fun b hb => ?_⟩
        obtain ⟨a, rfl, ha⟩ := buildFormatList_eq_formatList hb
        rw [hfront' a rfl]
        exact ha
      · exact .inl rfl
    have hnonempty : f ≠ .execContext → f ≠ .dots → lists = [] → ∃ z zs, rest = z :: zs := by
      intro hf hnd hl
      cases rest with
      | nil =>
        rw [hl, List.append_nil, checkArguments_nil h hf] at hr
        exact absurd (of_decide_eq_true hr) hnd
      | cons z zs => exact ⟨z, zs, rfl⟩
    cases f with
    | dots => trivial
    | execContext =>
      obtain rfl : lists = [] := hlists.resolve_right fun h => by simp at h
      rw [checkArguments_execContext] at hr ho
      cases h with
      | false => cases hr
      | true => exact ih hds none last (.inl rfl) hrest hm hr ho
    | closureContext =>
      obtain rfl : lists = [] := hlists.resolve_right fun h => by simp at h
      obtain ⟨z, zs, rfl⟩ := hnonempty (by simp) (by simp) rfl
      have hz := hrest z (List.mem_cons_self ..)
      have hzs := fun y hy => hrest y (List.mem_cons_of_mem _ hy)
      have hfirst : z = .closureId := by
        rw [List.nil_append, checkArguments_formal_snd h (by simp) (by simp) hz.1, lineUp] at ho
        exact (List.cons.inj ho).1
      subst hfirst
      exact (hstep _ _ none last args zs (by simp) (by simp) hz.1 rfl hzs rfl hm
        fun a ha => by cases ha).2
    | typeSpec =>
      rcases hlists with rfl | ⟨-, t, rfl, hlist, ht⟩
      · obtain ⟨z, zs, rfl⟩ := hnonempty (by simp) (by simp) rfl
        have hz := hrest z (List.mem_cons_self ..)
        rw [List.nil_append, checkArguments_formal_snd h (by simp) (by simp) hz.1, lineUp] at ho
        rw [(List.cons.inj ho).1] at hz
        exact absurd hz.2 (by simp [Arg.isList])
      · obtain ⟨rfl, hplaced⟩ := hstep t (.formatList last) none last args rest (by simp)
          (by simp) (accepted_of_isList hlist) rfl hrest rfl hm fun a ha => by
            rw [ha] at hlist
            cases hlist
        exact ⟨ht last rfl, hplaced⟩
    | plain t r =>
      cases args with
      | nil => exact absurd hm id
      | cons a args =>
        obtain rfl : lists = [] := hlists.resolve_right fun h => by simp at h
        obtain ⟨z, zs, rfl⟩ := hnonempty (by simp) (by simp) rfl
        have hz := hrest z (List.mem_cons_self ..)
        have hzs := fun y hy => hrest y (List.mem_cons_of_mem _ hy)
        have hfirst : z = .written a := by
          rw [List.nil_append, checkArguments_formal_snd h (by simp) (by simp) hz.1,
            lineUp] at ho
          exact (List.cons.inj ho).1
        subst hfirst
        exact (hstep _ _ (some a) (some a) args zs (by simp) (by simp) hz.1 rfl hzs rfl hm.2
          fun b hb => by rw [Arg.written.inj hb]).2

/-! ## What is pushed -/

namespace Pushed

def arg? : Pushed → Option Arg
  | context => none
  | argument arg _ => some arg

/-- They are not both the context. -/
def Apart (p q : Pushed) : Prop := ¬ (p = .context ∧ q = .context)

theorem isChain_argument {x : Arg} {f : Option Formal} {ps : List Pushed}
    (h : ps.IsChain Apart) : (argument x f :: ps).IsChain Apart := by
  cases ps with
  | nil => exact .singleton _
  | cons q ps => exact .cons_cons (fun hp => by cases hp.1) h

end Pushed

theorem takeContext_filterMap (fs : List Formal) :
    (takeContext fs).1.filterMap Pushed.arg? = [] := by
  cases fs with
  | nil => rfl
  | cons f fs => cases f <;> rfl

theorem takeContext_of_ne {fs : List Formal} (h : fs.head? ≠ some .execContext) :
    takeContext fs = ([], fs) := by
  cases fs with
  | nil => rfl
  | cons f fs =>
    cases f with
    | execContext => exact absurd rfl h
    | closureContext | typeSpec | plain t r | dots => rfl

theorem tabulate_filterMap (fs : List Formal) (args : List Arg) :
    (tabulate fs args).filterMap Pushed.arg? = args := by
  induction args generalizing fs with
  | nil => rfl
  | cons arg args ih =>
    have hfirst : Pushed.arg? (.argument arg (coercedTo fs)) = some arg := rfl
    simp only [tabulate]
    rw [List.cons_append, List.filterMap_cons_some hfirst, List.filterMap_append,
      takeContext_filterMap, List.nil_append, ih]

theorem expected_filterMap {fs : List Formal} (last : Option Argument) {args : List Argument}
    (hm : Matches fs args) :
    (expected last fs args).filterMap Pushed.arg? = lineUp last fs args := by
  induction fs generalizing last args with
  | nil =>
    obtain rfl : args = [] := hm
    rfl
  | cons f fs ih =>
    cases f with
    | dots =>
      rw [expected, lineUp, List.filterMap_map, ← List.filterMap_eq_map]
      rfl
    | execContext =>
      have hfirst : Pushed.arg? .context = none := rfl
      rw [expected, lineUp, List.filterMap_cons_none hfirst, ih last hm]
    | closureContext =>
      have hfirst : Pushed.arg? (.argument .closureId (some .closureContext)) =
        some .closureId := rfl
      rw [expected, lineUp, List.filterMap_cons_some hfirst, ih last hm]
    | typeSpec =>
      have hfirst : Pushed.arg? (.argument (.formatList last) (some .typeSpec)) =
        some (.formatList last) := rfl
      rw [expected, lineUp, List.filterMap_cons_some hfirst, ih last hm]
    | plain t r =>
      cases args with
      | nil => exact absurd hm id
      | cons a args =>
        have hfirst : Pushed.arg? (.argument (.written a) (some (.plain t r))) =
          some (.written a) := rfl
        rw [expected, lineUp, List.filterMap_cons_some hfirst, ih (some a) hm.2]

/-- The arguments that `"..."` takes are pushed in their own types. -/
theorem tabulate_dots {fs : List Formal} (h : fs = [] ∨ fs = [.dots]) (args : List Argument) :
    tabulate fs (args.map .written) = args.map fun a => .argument (.written a) none := by
  induction args generalizing fs with
  | nil => rfl
  | cons a args ih =>
    have htail : takeContext fs.tail = ([], []) := by rcases h with rfl | rfl <;> rfl
    have hto : coercedTo fs = none := by rcases h with rfl | rfl <;> rfl
    simp only [List.map_cons, tabulate, htail, hto]
    rw [List.singleton_append, ih (.inl rfl)]

theorem table_eq_expected {fs : List Formal} (hd : .dots ∉ fs.dropLast)
    (hapart : ContextsApart fs) (last : Option Argument) {args : List Argument}
    (hm : Matches fs args) :
    (takeContext fs).1 ++ tabulate (takeContext fs).2 (lineUp last fs args) =
      expected last fs args := by
  induction fs generalizing last args with
  | nil =>
    obtain rfl : args = [] := hm
    rfl
  | cons f fs ih =>
    obtain ⟨hlast, hds⟩ := dots_cons hd
    have hrest : ContextsApart fs := List.IsChain.of_cons hapart
    cases f with
    | dots =>
      obtain rfl := hlast rfl
      exact tabulate_dots (.inr rfl) args
    | execContext =>
      have hne : fs.head? ≠ some .execContext := by
        intro he
        cases fs with
        | nil => cases he
        | cons g gs =>
          obtain rfl := Option.some.inj he
          exact (List.isChain_cons_cons.1 hapart).1 ⟨rfl, rfl⟩
      have := ih hds hrest last hm
      rw [takeContext_of_ne hne] at this
      exact congrArg (Pushed.context :: ·) this
    | closureContext => exact congrArg (Pushed.argument _ _ :: ·) (ih hds hrest last hm)
    | typeSpec => exact congrArg (Pushed.argument _ _ :: ·) (ih hds hrest last hm)
    | plain t r =>
      cases args with
      | nil => exact absurd hm id
      | cons a args => exact congrArg (Pushed.argument _ _ :: ·) (ih hds hrest (some a) hm.2)

/-- Two contexts that are pushed have an argument between them. -/
theorem tabulate_isChain (fs : List Formal) (args : List Arg) :
    (tabulate fs args).IsChain Pushed.Apart ∧
      (.context :: tabulate fs args).IsChain Pushed.Apart := by
  induction args generalizing fs with
  | nil => exact ⟨.nil, .singleton _⟩
  | cons arg args ih =>
    have hrest : ((takeContext fs.tail).1 ++ tabulate (takeContext fs.tail).2 args).IsChain
        Pushed.Apart := by
      obtain ⟨hplain, hcontext⟩ := ih (takeContext fs.tail).2
      rcases hf : fs.tail with _ | ⟨g, gs⟩
      · rw [hf] at hplain
        exact hplain
      · rw [hf] at hplain hcontext
        cases g with
        | execContext => exact hcontext
        | closureContext | typeSpec | plain t r | dots => exact hplain
    simp only [tabulate]
    rw [List.cons_append]
    exact ⟨Pushed.isChain_argument hrest,
      .cons_cons (fun hp => by cases hp.2) (Pushed.isChain_argument hrest)⟩

theorem table_isChain (fs : List Formal) (args : List Arg) :
    ((takeContext fs).1 ++ tabulate (takeContext fs).2 args).IsChain Pushed.Apart := by
  obtain ⟨hplain, hcontext⟩ := tabulate_isChain (takeContext fs).2 args
  cases fs with
  | nil => exact hplain
  | cons f fs =>
    cases f with
    | execContext => exact hcontext
    | closureContext | typeSpec | plain t r | dots => exact hplain

theorem contextsApart_of_expected {fs : List Formal} (hd : .dots ∉ fs.dropLast)
    (last : Option Argument) {args : List Argument} (hm : Matches fs args)
    (hc : (expected last fs args).IsChain Pushed.Apart) : ContextsApart fs := by
  induction fs generalizing last args with
  | nil => exact .nil
  | cons f fs ih =>
    obtain ⟨hlast, hds⟩ := dots_cons hd
    have hcons : f ≠ .execContext → ContextsApart fs → ContextsApart (f :: fs) := by
      intro hf hfs
      cases fs with
      | nil => exact .singleton _
      | cons g gs => exact .cons_cons (fun hp => hf hp.1) hfs
    cases f with
    | dots =>
      obtain rfl := hlast rfl
      exact .singleton _
    | execContext =>
      have hfs := ih hds last hm (List.IsChain.of_cons hc)
      cases fs with
      | nil => exact .singleton _
      | cons g gs =>
        refine .cons_cons (fun hp => ?_) hfs
        obtain rfl := hp.2
        exact (List.isChain_cons_cons.1 hc).1 ⟨rfl, rfl⟩
    | closureContext => exact hcons (by simp) (ih hds last hm (List.IsChain.of_cons hc))
    | typeSpec => exact hcons (by simp) (ih hds last hm (List.IsChain.of_cons hc))
    | plain t r =>
      cases args with
      | nil => exact absurd hm id
      | cons a args =>
        exact hcons (by simp) (ih hds (some a) hm.2 (List.IsChain.of_cons hc))

/-! ## The call -/

theorem semanticizeCall_of_placed {sub : Subroutine} {h : Bool} {args : List Argument}
    (hargs : ∀ a ∈ args, a.accepted = true) (ht : TypeSpecsPlaced none sub.params args)
    (hc : ClosuresPlaced false sub.params args) :
    ((semanticizeCall h sub.params args).1 = true ↔
        Matches sub.params args ∧ (.execContext ∈ sub.params → h = true) ∧
          ContextsFollowed false sub.params args) ∧
      ((semanticizeCall h sub.params args).1 = true →
        (semanticizeCall h sub.params args).2 = lineUp none sub.params args) := by
  have hlist : insertClosures sub.params (args.map .written) = pending none sub.params args := by
    rw [(insertClosures_eq_iff sub.dotsLast args).2 hc, pending_of_placed ht]
  rw [semanticizeCall, hlist]
  exact checkArguments_pending sub.dotsLast h none none (fun h => absurd rfl h) hargs ht

theorem callRight_of_placed {sub : Subroutine} {h : Bool} {args : List Argument}
    (hproper : Proper sub.params args) (hw : Placed sub h args) : CallRight sub h args := by
  obtain ⟨hargs, hm⟩ := hproper
  obtain ⟨hiff, hlist⟩ := semanticizeCall_of_placed (h := h) hargs hw.types hw.closures
  have htable := table_eq_expected sub.dotsLast hw.apart none hm
  refine ⟨⟨fun _ => ⟨hargs, hm⟩, fun _ => hiff.2 ⟨hm, hw.hasContext, hw.followed⟩⟩,
    fun hr => ?_⟩
  rw [hlist hr]
  simp only [cgSubroutineCall, htable]
  split
  · rw [hw.called ‹_›]
  · rw [if_pos hw.table]

/-- What is pushed in the places of all arguments was left there by the check. -/
theorem pushed_args {sub : Subroutine} {list : List Arg} {ps : List Pushed} (hno : sub.noOp = false)
    (h : cgSubroutineCall sub list = some ps) :
    ps = (takeContext sub.params).1 ++ tabulate (takeContext sub.params).2 list ∧
      ps.length ≤ maxArg ∧ ps.filterMap Pushed.arg? = list := by
  simp only [cgSubroutineCall, hno, Bool.false_eq_true, if_false] at h
  split at h
  case isTrue hle =>
    obtain rfl := Option.some.inj h
    exact ⟨rfl, hle, by rw [List.filterMap_append, takeContext_filterMap, List.nil_append,
      tabulate_filterMap]⟩
  case isFalse => cases h

theorem lineUp_filter {fs : List Formal} (last : Option Argument) {args : List Argument}
    (hm : Matches fs args) :
    (lineUp last fs args).filter (!·.isList) = withClosures fs args := by
  induction fs generalizing last args with
  | nil =>
    obtain rfl : args = [] := hm
    rfl
  | cons f fs ih =>
    cases f with
    | dots =>
      refine List.filter_eq_self.2 fun x hx => ?_
      obtain ⟨a, -, rfl⟩ := List.mem_map.1 hx
      rfl
    | execContext => exact ih last hm
    | closureContext =>
      rw [lineUp, withClosures, List.filter_cons_of_pos rfl, ih last hm]
    | typeSpec =>
      rw [lineUp, withClosures, List.filter_cons_of_neg (by simp [Arg.isList]), ih last hm]
    | plain t r =>
      cases args with
      | nil => exact absurd hm id
      | cons a args =>
        rw [lineUp, withClosures, List.filter_cons_of_pos rfl, ih (some a) hm.2]

theorem insertClosures_filter (fs : List Formal) {args : List Arg}
    (hargs : ∀ x ∈ args, x.isList = false) :
    (insertClosures fs args).filter (!·.isList) = insertClosures fs args := by
  refine List.filter_eq_self.2 fun x hx => ?_
  rw [Bool.not_eq_true']
  fun_induction insertClosures fs args with
  | case1 args => exact hargs x hx
  | case2 args fs ih => exact ih hargs hx
  | case3 args fs ih =>
    rcases List.mem_cons.1 hx with rfl | hx
    · rfl
    · exact ih hargs hx
  | case4 f fs h1 h2 ih => exact ih hargs hx
  | case5 f fs arg args h1 h2 ih =>
    rcases List.mem_cons.1 hx with rfl | hx
    · exact hargs _ (List.mem_cons_self ..)
    · exact ih (fun y hy => hargs y (List.mem_cons_of_mem _ hy)) hx

/-- Where nothing is to be pushed there is at most `"..."`. -/
theorem params_of_expected_nil {fs : List Formal} (hd : .dots ∉ fs.dropLast)
    {args : List Argument} (hm : Matches fs args) (h : expected none fs args = []) :
    fs = [] ∨ fs = [.dots] := by
  cases fs with
  | nil => exact .inl rfl
  | cons f fs =>
    obtain ⟨hlast, -⟩ := dots_cons hd
    cases f with
    | dots =>
      obtain rfl := hlast rfl
      exact .inr rfl
    | execContext | closureContext | typeSpec => cases h
    | plain t r =>
      cases args with
      | nil => exact absurd hm id
      | cons a args => cases h

theorem placed_of_callRight {sub : Subroutine} {h : Bool} {args : List Argument}
    (hproper : Proper sub.params args) (hright : CallRight sub h args) : Placed sub h args := by
  have hr := hright.1.2 hproper
  have hpush := hright.2 hr
  obtain ⟨hargs, hm⟩ := hproper
  by_cases hno : sub.noOp = true
  · have hnil : expected none sub.params args = [] := by
      simp only [cgSubroutineCall, hno, if_true] at hpush
      exact (Option.some.inj hpush).symm
    have hp := params_of_expected_nil sub.dotsLast hm hnil
    have hno : .execContext ∉ sub.params := by rcases hp with hp | hp <;> simp [hp]
    refine ⟨?_, ?_, ?_, ?_, fun h => absurd h hno, hnil ▸ Nat.zero_le _, fun _ => hnil⟩
    · rcases hp with hp | hp <;> rw [hp] <;> trivial
    · rcases hp with hp | hp <;> rw [hp] <;> trivial
    · rcases hp with hp | hp <;> rw [hp] <;> trivial
    · rcases hp with hp | hp <;> simp [hp, ContextsApart]
  · obtain ⟨htable, hlen, hlist⟩ := pushed_args (Bool.eq_false_iff.2 hno) hpush
    rw [expected_filterMap none hm] at hlist
    have hfree : ∀ x ∈ args.map Arg.written, x.isList = false := by
      intro x hx
      obtain ⟨a, -, rfl⟩ := List.mem_map.1 hx
      rfl
    have hfilter := checkArguments_filter h sub.params
      (insertClosures sub.params (args.map .written))
    rw [← semanticizeCall, ← hlist, lineUp_filter none hm, insertClosures_filter _ hfree]
      at hfilter
    have hc : ClosuresPlaced false sub.params args :=
      (insertClosures_eq_iff sub.dotsLast args).1 hfilter.symm
    have ht : TypeSpecsPlaced none sub.params args := by
      rw [semanticizeCall, ← hfilter] at hr hlist
      exact typeSpecsPlaced_of_lineUp sub.dotsLast h none none (.inl rfl)
        (fun x hx => ⟨accepted_of_mem_withClosures hargs hx, isList_of_mem_withClosures hx⟩) hm hr
        hlist.symm
    obtain ⟨-, hcontext, hfollowed⟩ := (semanticizeCall_of_placed hargs ht hc).1.1 hr
    have hchain := table_isChain sub.params (semanticizeCall h sub.params args).2
    rw [← htable] at hchain
    exact ⟨ht, hc, hfollowed, contextsApart_of_expected sub.dotsLast none hm hchain, hcontext,
      hlen, fun h => absurd h hno⟩

/-! ## What the check lets pass -/

section
variable {fs : List Formal} {f : Formal}

theorem endsInContext_cons (fs : List Formal) (hf : f ≠ .execContext) :
    EndsInContext (f :: fs) ↔ EndsInContext fs := by
  unfold EndsInContext
  by_cases hdots : f = .dots
  · rw [hdots, List.filter_cons_of_neg (by simp)]
  · rw [List.filter_cons_of_pos (by simpa using hdots)]
    cases hrest : fs.filter (· ≠ .dots) with
    | nil => simpa using hf
    | cons g gs => rw [List.getLast?_cons_cons]

theorem endsInContext_execContext (hd : .dots ∉ (Formal.execContext :: fs).dropLast) :
    EndsInContext (.execContext :: fs) ↔
      EndsInContext fs ∨ fs.head?.all (· = .dots) = true := by
  unfold EndsInContext
  rw [List.filter_cons_of_pos (by simp)]
  cases fs with
  | nil => simp
  | cons g gs =>
    by_cases hg : g = .dots
    · obtain rfl := (dots_cons (dots_cons hd).2).1 hg
      simp [hg]
    · rw [List.filter_cons_of_pos (by simpa using hg), List.getLast?_cons_cons]
      simp [hg]

variable {args : List Arg} {arg : Arg}

theorem checkArguments_rejected (h : Bool) (hf : fs.head? ≠ some .execContext)
    (ha : arg.accepted = false) :
    (checkArguments h fs (arg :: args)).1 = (checkArguments h fs args).1 := by
  cases fs with
  | nil => rw [checkArguments, if_pos ha]
  | cons f gs =>
    cases f with
    | execContext => exact absurd rfl hf
    | closureContext | typeSpec | plain t r | dots =>
      rw [checkArguments, if_pos ha]
      all_goals simp

/-- Behind the parameters, nothing may be left but rejected arguments. -/
theorem checkArguments_none (h : Bool) :
    (checkArguments h [] args).1 = true ↔ args.filter Arg.accepted = [] := by
  induction args with
  | nil => simp [checkArguments]
  | cons arg args ih =>
    cases ha : arg.accepted with
    | false =>
      rw [checkArguments_rejected h (by simp) ha, ih, List.filter_cons_of_neg (by simp [ha])]
    | true =>
      rw [List.filter_cons_of_pos ha, checkArguments]
      simp [ha]

theorem checkArguments_last_dots (h : Bool) : (checkArguments h [.dots] args).1 = true := by
  induction args with
  | nil => rw [checkArguments_nil h (by simp)]; rfl
  | cons arg args ih =>
    cases ha : arg.accepted with
    | false => rw [checkArguments_rejected h (by simp) ha, ih]
    | true => rw [checkArguments_dots h ha, ih]

/-- A rejected argument does not matter in front of a parameter that takes one. -/
theorem standFor_rejected {h argued direct : Bool} (htakes : takers direct fs ≠ [])
    (ha : arg.accepted = false) :
    StandFor h argued direct fs (arg :: args) ↔ StandFor h argued direct fs args := by
  have hfilter : (arg :: args).filter Arg.accepted = args.filter Arg.accepted :=
    List.filter_cons_of_neg (by simp [ha])
  have hpos := List.length_pos_iff.2 htakes
  cases args with
  | nil =>
    have hlt : ∀ k, StandFor h argued direct fs k → k.filter Arg.accepted ≠ [] := by
      intro k hk hnil
      have := hk.enough
      rw [hnil, List.length_nil] at this
      omega
    exact iff_of_false (fun hk => hlt _ hk (by rw [hfilter]; rfl)) fun hk => hlt _ hk rfl
  | cons b args =>
    have hlast : (arg :: b :: args).getLast? = (b :: args).getLast? := List.getLast?_cons_cons
    constructor
    · rintro ⟨h1, h2, h3, h4, h5⟩
      rw [hfilter] at h2 h3 h4 h5
      rw [hlast] at h5
      exact ⟨h1, h2, h3, h4, h5⟩
    · rintro ⟨h1, h2, h3, h4, h5⟩
      rw [← hfilter] at h2 h3 h4 h5
      rw [← hlast] at h5
      exact ⟨h1, h2, h3, h4, h5⟩

/-- An argument that is taken for a parameter. -/
theorem standFor_cons {h argued direct : Bool} (hf : f ≠ .execContext) (hdots : f ≠ .dots)
    (htakes : takers direct (f :: fs) = f :: takers true fs) (ha : arg.accepted = true) :
    StandFor h argued direct (f :: fs) (arg :: args) ↔
      argumentFits f arg = true ∧ StandFor h true true fs args := by
  have hfilter : (arg :: args).filter Arg.accepted = arg :: args.filter Arg.accepted :=
    List.filter_cons_of_pos ha
  have hends := endsInContext_cons fs hf
  have hlast : (arg :: args).getLast?.any (!·.accepted) = args.getLast?.any (!·.accepted) := by
    cases args with
    | nil => simp [ha]
    | cons b args => rw [List.getLast?_cons_cons]
  constructor
  · rintro ⟨h1, h2, h3, h4, h5⟩
    rw [htakes, hfilter] at h2 h3 h4 h5
    simp only [List.length_cons, List.zip_cons_cons, List.forall_mem_cons] at h2 h3 h4 h5
    rw [hends, hlast] at h5
    refine ⟨h4.1, fun hmem => h1 (List.mem_cons_of_mem _ hmem), by omega, fun hno => ?_, h4.2,
      fun he => ?_⟩
    · have := h3 (by simp [Ne.symm hdots, hno])
      omega
    · rcases h5 he with h5 | h5 | h5
      · simp at h5
      · exact .inr (.inl (by omega))
      · exact .inr (.inr h5)
  · rintro ⟨hfit, h1, h2, h3, h4, h5⟩
    refine ⟨fun hmem => h1 ?_, ?_, fun hno => ?_, ?_, fun he => ?_⟩
    · exact (List.mem_cons.1 hmem).resolve_left (Ne.symm hf)
    · rw [htakes, hfilter, List.length_cons, List.length_cons]
      omega
    · rw [htakes, hfilter, List.length_cons, List.length_cons]
      have := h3 fun hmem => hno (List.mem_cons_of_mem _ hmem)
      omega
    · rw [htakes, hfilter, List.zip_cons_cons, List.forall_mem_cons]
      exact ⟨hfit, h4⟩
    · rw [htakes, hfilter, List.length_cons, List.length_cons, hlast]
      rcases h5 (hends.1 he) with h5 | h5 | h5
      · simp at h5
      · exact .inr (.inl (by omega))
      · exact .inr (.inr h5)

theorem takers_nil_of_end (direct : Bool) (hd : .dots ∉ fs.dropLast)
    (h : fs.head?.all (· = .dots) = true) : takers direct fs = [] := by
  cases fs with
  | nil => cases direct <;> rfl
  | cons g gs =>
    obtain rfl : g = .dots := by simpa using h
    cases direct <;> rfl

theorem fits_list {t : Arg} (ht : t.isList = true) : argumentFits .typeSpec t = true := by
  cases t with
  | written a => cases ht
  | closureId | formatList | nullList => rfl

/-- The second loop lets pass what can stand for the parameters.  `lists` is what was put in for a
type directly behind a parameter. -/
theorem checkArguments_iff_standFor (hd : .dots ∉ fs.dropLast) (h argued direct : Bool)
    (hargued : direct = true → argued = true) (args lists : List Arg)
    (hlists : if direct = true ∧ fs.head? = some .typeSpec then ∃ t, lists = [t] ∧ t.isList = true
      else lists = []) :
    ((argued = true → lists ++ args ≠ [] ∨ fs.head?.all (· = .dots) = true) ∧
      (checkArguments h fs (lists ++ args)).1 = true) ↔ StandFor h argued direct fs args := by
  induction fs generalizing argued direct lists args with
  | nil =>
    obtain rfl : lists = [] := by simpa using hlists
    rw [List.nil_append, checkArguments_none]
    constructor
    · rintro ⟨-, hnil⟩
      exact ⟨by simp, by simp [takers], by simp [hnil], by simp [takers],
        by simp [EndsInContext]⟩
    · intro hs
      have := hs.noMore (by simp)
      exact ⟨by simp, by simpa [takers] using this⟩
  | cons f fs ih =>
    obtain ⟨hlast, hds⟩ := dots_cons hd
    -- an argument for a parameter, behind rejected ones
    have htake : ∀ args, f ≠ .execContext → f ≠ .dots →
        takers direct (f :: fs) = f :: takers true fs →
        (((argued = true → args ≠ [] ∨ (f :: fs).head?.all (· = .dots) = true) ∧
          (checkArguments h (f :: fs) args).1 = true) ↔
            StandFor h argued direct (f :: fs) args) := by
      intro args hf hdots htakes
      induction args with
      | nil =>
        refine iff_of_false (fun hr => ?_) fun hs => ?_
        · rw [checkArguments_nil h hf] at hr
          exact hdots (of_decide_eq_true hr.2)
        · have := hs.enough
          rw [htakes] at this
          simp at this
      | cons arg args iha =>
        cases ha : arg.accepted with
        | false =>
          rw [standFor_rejected (by rw [htakes]; simp) ha, ← iha,
            checkArguments_rejected h (by simpa using hf) ha]
          refine and_congr_left fun hr => iff_of_true (fun _ => .inl (by simp)) fun _ => .inl ?_
          rintro rfl
          rw [checkArguments_nil h hf] at hr
          exact hdots (of_decide_eq_true hr)
        | true =>
          have hnext := ih hds true true (fun _ => rfl) args
            (if fs.head? = some .typeSpec then [buildFormatList arg] else []) (by
              by_cases hspec : fs.head? = some .typeSpec
              · rw [if_pos ⟨rfl, hspec⟩, if_pos hspec]
                exact ⟨_, rfl, isList_buildFormatList arg⟩
              · rw [if_neg fun hc => hspec hc.2, if_neg hspec])
          rw [standFor_cons hf hdots htakes ha, ← hnext, checkArguments_formal h hf hdots ha]
          have hlist : (if fs.head? = some .typeSpec then buildFormatList arg :: args else args) =
              (if fs.head? = some .typeSpec then [buildFormatList arg] else []) ++ args := by
            split <;> rfl
          simp only [hlist, Bool.and_eq_true, Bool.or_eq_true, decide_eq_true_eq, true_imp_iff,
            and_assoc]
          exact and_iff_right fun _ => .inl (by simp)
    cases f with
    | dots =>
      obtain rfl := hlast rfl
      obtain rfl : lists = [] := by simpa using hlists
      have hends : ¬ EndsInContext [.dots] := by simp [EndsInContext]
      have hnone : takers direct [.dots] = [] := by cases direct <;> rfl
      refine iff_of_true ⟨fun _ => .inr rfl, checkArguments_last_dots h⟩
        ⟨by simp, by simp [hnone], by simp, by simp [hnone], fun he => absurd he hends⟩
    | execContext =>
      obtain rfl : lists = [] := by simpa using hlists
      have htakes : takers direct (.execContext :: fs) = takers false fs := by
        cases direct <;> rfl
      have hnext := ih hds argued false (by simp) args [] (by simp)
      have hends := endsInContext_execContext hd
      rw [List.nil_append, checkArguments_execContext]
      rw [List.nil_append] at hnext
      cases h with
      | false =>
        refine iff_of_false (fun hr => ?_) fun hs => ?_
        · simp at hr
        · have := hs.context List.mem_cons_self
          cases this
      | true =>
        simp only [if_true, List.head?_cons, Option.all_some, reduceCtorEq, decide_false,
          Bool.false_eq_true, or_false]
        constructor
        · rintro ⟨hne, hr⟩
          have hs := hnext.1 ⟨fun ha => .inl (hne ha), hr⟩
          refine ⟨fun _ => rfl, by rw [htakes]; exact hs.enough, fun hno => ?_,
            by rw [htakes]; exact hs.kinds, fun he => ?_⟩
          · rw [htakes]
            exact hs.noMore fun hmem => hno (List.mem_cons_of_mem _ hmem)
          · rw [htakes]
            rcases hends.1 he with he | hend
            · exact hs.followed he
            · have hnone := takers_nil_of_end false hds hend
              rw [hnone]
              cases hargs : argued with
              | false => exact .inl ⟨rfl, rfl⟩
              | true =>
                obtain ⟨front, x, hx⟩ := List.eq_nil_or_concat args |>.resolve_left (hne hargs)
                cases hacc : x.accepted with
                | false => exact .inr (.inr (by simp [hx, hacc]))
                | true => exact .inr (.inl (by simp [hx, hacc]))
        · rintro ⟨-, henough, hno, hkinds, hfollowed⟩
          rw [htakes] at henough hno hkinds hfollowed
          have hs : StandFor true argued false fs args :=
            ⟨fun _ => rfl, henough, fun hmem => hno (by simpa using hmem), hkinds,
              fun he => hfollowed (hends.2 (.inl he))⟩
          obtain ⟨hfront, hr⟩ := hnext.2 hs
          refine ⟨fun ha => ?_, hr⟩
          rcases hfront ha with hne | hend
          · exact hne
          · rintro rfl
            have := hfollowed (hends.2 (.inr hend))
            simp [ha] at this
    | typeSpec =>
      cases direct with
      | false =>
        obtain rfl : lists = [] := by simpa using hlists
        exact htake args (by simp) (by simp) rfl
      | true =>
        obtain ⟨t, rfl, ht⟩ : ∃ t, lists = [t] ∧ t.isList = true := by simpa using hlists
        obtain rfl := hargued rfl
        have hnext := ih hds true true (fun _ => rfl) args
          (if fs.head? = some .typeSpec then [buildFormatList t] else []) (by
            by_cases hspec : fs.head? = some .typeSpec
            · rw [if_pos ⟨rfl, hspec⟩, if_pos hspec]
              exact ⟨_, rfl, isList_buildFormatList t⟩
            · rw [if_neg fun hc => hspec hc.2, if_neg hspec])
        have hlist : (if fs.head? = some .typeSpec then buildFormatList t :: args else args) =
            (if fs.head? = some .typeSpec then [buildFormatList t] else []) ++ args := by
          split <;> rfl
        have hsame : StandFor h true true (.typeSpec :: fs) args ↔ StandFor h true true fs args := by
          have hends := endsInContext_cons fs (show Formal.typeSpec ≠ .execContext by simp)
          constructor
          · rintro ⟨h1, h2, h3, h4, h5⟩
            exact ⟨fun hmem => h1 (List.mem_cons_of_mem _ hmem), h2,
              fun hno => h3 (by simpa using hno), h4, fun he => h5 (hends.2 he)⟩
          · rintro ⟨h1, h2, h3, h4, h5⟩
            exact ⟨fun hmem => h1 (by simpa using hmem), h2,
              fun hno => h3 fun hmem => hno (List.mem_cons_of_mem _ hmem), h4,
              fun he => h5 (hends.1 he)⟩
        rw [hsame, ← hnext, List.singleton_append,
          checkArguments_formal h (by simp) (by simp) (accepted_of_isList ht)]
        simp only [hlist, fits_list ht, Bool.and_eq_true, Bool.or_eq_true, decide_eq_true_eq,
          true_imp_iff, true_and]
        exact and_iff_right (.inl (by simp))
    | closureContext =>
      obtain rfl : lists = [] := by simpa using hlists
      exact htake args (by simp) (by simp) (by cases direct <;> rfl)
    | plain t r =>
      obtain rfl : lists = [] := by simpa using hlists
      exact htake args (by simp) (by simp) (by cases direct <;> rfl)

end

theorem semanticizeCall_iff_standFor (sub : Subroutine) (h : Bool) (args : List Argument) :
    (semanticizeCall h sub.params args).1 = true ↔
      StandFor h false false sub.params (insertClosures sub.params (args.map .written)) := by
  have hiff := checkArguments_iff_standFor sub.dotsLast h false false (by simp)
    (insertClosures sub.params (args.map .written)) [] (by simp)
  rw [← hiff, List.nil_append, semanticizeCall]
  exact (and_iff_right fun hf => by cases hf).symm

/-- `int f(int a)` -/
def oneParameter : Subroutine where
  noOp := false
  params := [.plain .i false]
  dotsLast := by simp

end Cod
end FFS
