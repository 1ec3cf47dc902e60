import Mathlib.Data.Prod.Lex
import FFS.Convert.Comparison
import FFS.Machine.Nearest

/-!
# The best match

`FMformat_compat_cmp` with formats where they are in memory, so that loaded ones are compared with
their shared lists of subformats.  It finds the nearest pair of a version of the incoming format
and a target, unless a prior version that does not resolve hides a nearer one, or a comparison or
a count does not end.
-/

namespace FFS

open Machine

/-! ## The candidates -/

/-- A version of the incoming format, by the number of the prior version, and a target. -/
structure Candidate where
  older : Option Nat
  index : Nat
  version : StoredFormat
  target : StoredFormat

/-- The version with an entry of the list, if that is a target of its name. -/
def pairWith (older : Option Nat) (version : StoredFormat) (entry : Option StoredFormat × Nat) :
    Option Candidate :=
  entry.1.bind fun target =>
    if target.format.top.formatName = version.format.top.formatName then
      some ⟨older, entry.2, version, target⟩
    else none

/-- A version with the targets of its name. -/
def candidatesOf (formatList : List (Option StoredFormat)) (older : Option Nat)
    (version : StoredFormat) : List Candidate :=
  formatList.zipIdx.filterMap (pairWith older version)

/-- The candidates of prior versions that resolve. -/
def priorCandidates (formatList : List (Option StoredFormat))
    (compats : List (Option StoredFormat × Nat)) : List Candidate :=
  compats.flatMap fun entry =>
    (entry.1.map (candidatesOf formatList (some entry.2))).getD []

/-- What `FMformat_compat_cmp` is given. -/
structure CompatCall where
  memory : FormatMemory
  format : StoredFormat
  compats : List (Option StoredFormat)
  formatList : List (Option StoredFormat)

namespace CompatCall

def incoming (call : CompatCall) : List Candidate :=
  candidatesOf call.formatList none call.format

/-- All candidates, the incoming format's first. -/
def candidates (call : CompatCall) : List Candidate :=
  call.incoming ++ priorCandidates call.formatList call.compats.zipIdx

/-- The candidates up to the first prior version that does not resolve. -/
def seen (call : CompatCall) : List Candidate :=
  call.incoming ++
    priorCandidates call.formatList (call.compats.zipIdx.takeWhile fun entry => entry.1.isSome)

/-- How near the version is to the target. -/
def Differs (call : CompatCall) (c : Candidate) (d : FormatDiff) : Prop :=
  ∃ depth, call.memory.cmpDiff depth c.version c.target = some d

/-- The candidate is below the limits and the nearest of a list, the first of those that are as
near as it. -/
def Nearest (call : CompatCall) (cs : List Candidate) (c : Candidate) (d : FormatDiff) : Prop :=
  d.Better ⟨maxDiff, maxDiff⟩ ∧ call.Differs c d ∧ ∃ i, cs[i]? = some c ∧
    ∀ (j : Nat) (c' : Candidate) (d' : FormatDiff), cs[j]? = some c' → call.Differs c' d' →
      ¬ d'.Better d ∧ (j < i → d.Better d')

def Passes (c : Candidate) (d : FormatDiff) : Prop :=
  ∃ depth, FormatMemory.checkThresh depth d c.target = some true

/-- An exact match of the incoming format. -/
def Exact (call : CompatCall) (c : Candidate) : Prop :=
  c ∈ call.incoming ∧ call.Differs c .zero

/-- What `FMformat_compat_cmp` is for. -/
def BestMatch (call : CompatCall) (result : Option Nat × Option Nat) : Prop :=
  (∃ c, call.Exact c ∧ result = (some c.index, none)) ∨
  (∀ c, ¬ call.Exact c) ∧
    ((∃ c d, call.Nearest call.candidates c d ∧ Passes c d ∧ result = (some c.index, c.older)) ∨
      (∀ c d, call.Nearest call.candidates c d → ¬ Passes c d) ∧ result = (none, none))

/-- `FMformat_compat_cmp` returns, and with the best match. -/
def FindsBest (call : CompatCall) (context : FMContext) : Prop :=
  ∃ depth result, call.memory.compatCmp depth context call.format call.formatList = some result ∧
    call.BestMatch result

/-- The comparisons that are made end, up to an exact match, and so does the count of the fields of
the target.  When a version behind the first that does not resolve is nearer than those in front
of it, it is not near enough and neither are they. -/
structure Unhidden (call : CompatCall) : Prop where
  compared : ∀ (i : Nat) (c : Candidate), call.seen[i]? = some c →
    (∀ (j : Nat) (c' : Candidate), call.seen[j]? = some c' → j < i → ¬ call.Differs c' .zero) →
      ∃ d, call.Differs c d
  counted : (∀ c, ¬ call.Exact c) → ∀ c d, call.Nearest call.seen c d →
    ∃ depth, (FormatMemory.checkThresh depth d c.target).isSome
  nearest : (∀ c, ¬ call.Exact c) → ∀ c d, call.Nearest call.candidates c d →
    call.Nearest call.seen c d ∨
      ¬ Passes c d ∧ ∀ c' d', call.Nearest call.seen c' d' → ¬ Passes c' d'

end CompatCall

namespace FormatDiff

instance : LinearOrder FormatDiff :=
  LinearOrder.lift' (fun d => toLex (d.diff2, d.diff1)) fun d e h => by
    have hpair := Prod.mk.inj (toLex.injective h)
    cases d
    cases e
    exact congrArg₂ FormatDiff.mk hpair.2 hpair.1

theorem lt_iff_better {d e : FormatDiff} : d < e ↔ d.Better e := by
  show toLex (d.diff2, d.diff1) < toLex (e.diff2, e.diff1) ↔ d.Better e
  rw [Prod.Lex.toLex_lt_toLex]
  rfl

instance : OrderBot FormatDiff where
  bot := .zero
  bot_le d := by
    refine not_lt.mp fun h => ?_
    rcases lt_iff_better.mp h with hlt | ⟨-, hlt⟩
    · exact Nat.not_lt_zero _ hlt
    · exact Nat.not_lt_zero _ hlt

end FormatDiff


/-! ## More depth -/

theorem formatCmpDiffFrom_succ {f1 f2 : FormatObject} {depth i j : Nat} {diff d : FormatDiff}
    (h : formatCmpDiffFrom f1 f2 depth i j diff = some d) :
    formatCmpDiffFrom f1 f2 (depth + 1) i j diff = some d := by
  induction depth generalizing i j diff d with
  | zero => cases h
  | succ depth ih =>
    rw [formatCmpDiffFrom] at h ⊢
    obtain ⟨b1, hb1, h⟩ := Option.bind_eq_some_iff.mp h
    obtain ⟨b2, hb2, h⟩ := Option.bind_eq_some_iff.mp h
    refine bind_eq_of_eq_some hb1 (bind_eq_of_eq_some hb2 (foldlM_mono (fun s a r hstep => ?_) h))
    by_cases hself : a = i
    · rw [if_pos hself] at hstep ⊢
      exact hstep
    · rw [if_neg hself] at hstep ⊢
      split at hstep
      · next hnone => exact hstep
      · next sub2 hsome => exact ih hstep

theorem formatCmpDiff_le {f1 f2 : FormatObject} {depth depth' : Nat} {d : FormatDiff}
    (hle : depth ≤ depth') (h : formatCmpDiff depth f1 f2 = some d) :
    formatCmpDiff depth' f1 f2 = some d := by
  unfold formatCmpDiff at h ⊢
  by_cases hsame : f1.address = f2.address
  · rw [if_pos hsame] at h ⊢
    exact h
  · rw [if_neg hsame] at h ⊢
    induction hle with
    | refl => exact h
    | step _ ih => exact formatCmpDiffFrom_succ ih

/-- A comparison that ends does so at the depth of two. -/
theorem formatCmpDiff_two {f1 f2 : FormatObject} {depth : Nat} {d : FormatDiff}
    (h : formatCmpDiff depth f1 f2 = some d) : formatCmpDiff 2 f1 f2 = some d := by
  have hends : ∃ e, formatCmpDiff 2 f1 f2 = some e := by
    rcases diff_ends_iff.mp ⟨depth, by rw [h]; rfl⟩ with hsame | hlists
    · exact ⟨_, if_pos hsame⟩
    · by_cases hsame : f1.address = f2.address
      · exact ⟨_, if_pos hsame⟩
      · exact ⟨_, (if_neg hsame).trans (cmpDiff_ends hlists 0)⟩
  obtain ⟨e, he⟩ := hends
  have h1 := formatCmpDiff_le (Nat.le_max_left depth 2) h
  have h2 := formatCmpDiff_le (Nat.le_max_right depth 2) he
  rw [he, ← h1, ← h2]

theorem countTotalIOField_succ {formats : List FMFormatBody} {depth i n : Nat}
    (h : countTotalIOField formats depth i = some n) :
    countTotalIOField formats (depth + 1) i = some n := by
  induction depth generalizing i n with
  | zero => cases h
  | succ depth ih =>
    rw [countTotalIOField] at h ⊢
    obtain ⟨f, hf, h⟩ := Option.bind_eq_some_iff.mp h
    obtain ⟨below, hbelow, h⟩ := Option.bind_eq_some_iff.mp h
    exact bind_eq_of_eq_some hf (bind_eq_of_eq_some (mapM_mono (fun _ _ => ih) hbelow) h)

theorem checkThresh_le {depth depth' : Nat} {d : FormatDiff} {target : StoredFormat} {near : Bool}
    (hle : depth ≤ depth') (h : FormatMemory.checkThresh depth d target = some near) :
    FormatMemory.checkThresh depth' d target = some near := by
  obtain ⟨n, hn, rfl⟩ := Option.map_eq_some_iff.mp h
  refine Option.map_eq_some_iff.mpr ⟨n, ?_, rfl⟩
  induction hle with
  | refl => exact hn
  | step _ ih => exact countTotalIOField_succ ih

/-- The count is the same at every depth that it ends at. -/
theorem checkThresh_unique {depth depth' : Nat} {d : FormatDiff} {target : StoredFormat}
    {near near' : Bool} (h : FormatMemory.checkThresh depth d target = some near)
    (h' : FormatMemory.checkThresh depth' d target = some near') : near = near' := by
  have h1 := checkThresh_le (Nat.le_max_left depth depth') h
  have h2 := checkThresh_le (Nat.le_max_right depth depth') h'
  exact Option.some.inj (h1.symm.trans h2)

/-! ## The search -/

def FormatMemory.keyAt (m : FormatMemory) (depth : Nat) (c : Candidate) : Option FormatDiff :=
  m.cmpDiff depth c.version c.target

/-- What `IOformat_list_cmp` has for a version is what the search has, which had `base` before. -/
structure TracksVersion (formatList : List (Option StoredFormat)) (older : Option Nat)
    (version : StoredFormat) (base : Option Candidate) (x : Option Nat × FormatDiff)
    (y : Option Candidate × FormatDiff) : Prop where
  bound : y.2 = x.2
  kept : (x.1 = none ∧ y.1 = base) ∨ ∃ i target, x.1 = some i ∧
    y.1 = some ⟨older, i, version, target⟩ ∧ formatList[i]? = some (some target)

section

variable (m : FormatMemory) (depth : Nat) {formatList : List (Option StoredFormat)}

theorem listCmp_tracks {older : Option Nat} {version : StoredFormat} {base : Option Candidate}
    {l : List (Option StoredFormat × Nat)} (hl : ∀ e ∈ l, formatList[e.2]? = some e.1)
    {x : Option Nat × FormatDiff} {y : Option Candidate × FormatDiff}
    (h : TracksVersion formatList older version base x y) :
    Option.Rel (TracksVersion formatList older version base) (m.listCmp depth version l x)
      (nearest (m.keyAt depth) (l.filterMap (pairWith older version)) y) := by
  induction l generalizing x y with
  | nil => exact .some h
  | cons entry l ih =>
    have htail : ∀ e ∈ l, formatList[e.2]? = some e.1 :=
      fun e he => hl e (List.mem_cons_of_mem _ he)
    obtain ⟨target, i⟩ := entry
    obtain ⟨near, bound⟩ := x
    cases target with
    | none =>
      rw [List.filterMap_cons_none (rfl : pairWith older version (none, i) = none),
        FormatMemory.listCmp]
      exact ih htail h
    | some target =>
      have hat : formatList[i]? = some (some target) := hl _ List.mem_cons_self
      rw [FormatMemory.listCmp]
      by_cases hname : target.format.top.formatName = version.format.top.formatName
      · have hpair : pairWith older version (some target, i) =
            some ⟨older, i, version, target⟩ := if_pos hname
        have hkey : m.keyAt depth ⟨older, i, version, target⟩ =
            m.cmpDiff depth version target := rfl
        rw [List.filterMap_cons_some hpair, if_neg (not_not.mpr hname), nearest, hkey]
        cases m.cmpDiff depth version target with
        | none => exact .none
        | some d =>
          rw [Option.bind_eq_bind, Option.bind_eq_bind, Option.bind_some, Option.bind_some]
          by_cases hzero : d = .zero
          · rw [if_pos hzero, if_pos (show d = ⊥ from hzero)]
            exact .some ⟨rfl, .inr ⟨i, target, rfl, rfl, hat⟩⟩
          · rw [if_neg hzero, if_neg (show ¬ d = ⊥ from hzero)]
            refine ih htail ?_
            have hbound : y.2 = bound := h.bound
            by_cases hbetter : d.Better bound
            · have hlt : d < y.2 := by
                rw [hbound]
                exact FormatDiff.lt_iff_better.mpr hbetter
              rw [if_pos hbetter, if_pos hlt]
              exact ⟨rfl, .inr ⟨i, target, rfl, rfl, hat⟩⟩
            · have hge : ¬ d < y.2 := by
                rw [hbound]
                exact fun hlt => hbetter (FormatDiff.lt_iff_better.mp hlt)
              rw [if_neg hbetter, if_neg hge]
              exact h
      · have hpair : pairWith older version (some target, i) = none := if_neg hname
        rw [List.filterMap_cons_none hpair, if_pos hname]
        exact ih htail h

theorem listCmp_candidatesOf {older : Option Nat} {version : StoredFormat}
    {base : Option Candidate} {x : Option Nat × FormatDiff} {y : Option Candidate × FormatDiff}
    (h : TracksVersion formatList older version base x y) :
    (m.listCmp depth version formatList.zipIdx x = none ∧
      nearest (m.keyAt depth) (candidatesOf formatList older version) y = none) ∨
    ∃ x' y', m.listCmp depth version formatList.zipIdx x = some x' ∧
      nearest (m.keyAt depth) (candidatesOf formatList older version) y = some y' ∧
      TracksVersion formatList older version base x' y' := by
  have hrel := listCmp_tracks m depth
    (fun e he => List.mem_zipIdx_iff_getElem?.mp he) h
  unfold candidatesOf
  generalize m.listCmp depth version formatList.zipIdx x = left at hrel ⊢
  generalize nearest (m.keyAt depth) _ y = right at hrel ⊢
  cases hrel with
  | some h => exact .inr ⟨_, _, rfl, rfl, h⟩
  | none => exact .inl ⟨rfl, rfl⟩

/-- What the loop over the prior versions has is what the search has. -/
structure TracksVersions (formatList : List (Option StoredFormat))
    (x : (Option Nat × Option Nat) × FormatDiff) (y : Option Candidate × FormatDiff) : Prop where
  bound : y.2 = x.2
  kept : (x.1 = (none, none) ∧ y.1 = none) ∨ ∃ c, y.1 = some c ∧
    x.1 = (some c.index, c.older) ∧ formatList[c.index]? = some (some c.target)

theorem priorsCmp_tracks {l : List (Option StoredFormat × Nat)}
    {x : (Option Nat × Option Nat) × FormatDiff} {y : Option Candidate × FormatDiff}
    (hx : x.2 ≠ .zero) (h : TracksVersions formatList x y) :
    Option.Rel (TracksVersions formatList) (m.priorsCmp depth formatList l x)
      (nearest (m.keyAt depth)
        (priorCandidates formatList (l.takeWhile fun entry => entry.1.isSome)) y) := by
  induction l generalizing x y with
  | nil => exact .some h
  | cons entry l ih =>
    obtain ⟨prior, k⟩ := entry
    obtain ⟨near, bound⟩ := x
    cases prior with
    | none => exact .some h
    | some prior =>
      have hsplit : priorCandidates formatList
          (((some prior, k) :: l).takeWhile fun entry => entry.1.isSome) =
            candidatesOf formatList (some k) prior ++
              priorCandidates formatList (l.takeWhile fun entry => entry.1.isSome) := rfl
      have htracks : TracksVersion formatList (some k) prior y.1 (none, bound) y :=
        ⟨h.bound, .inl ⟨rfl, rfl⟩⟩
      have hy : y.2 ≠ ⊥ := by
        rw [h.bound]
        exact hx
      rw [hsplit, nearest_append, FormatMemory.priorsCmp]
      rcases listCmp_candidatesOf m depth htracks with
        ⟨hlist, hsearch⟩ | ⟨x', y', hlist, hsearch, hnext⟩
      · rw [hlist, hsearch]
        exact .none
      · have hstops := nearest_stops hy hsearch
        rw [hlist, hsearch, Option.bind_eq_bind, Option.bind_some, Option.bind_some]
        have hall : TracksVersions formatList (if x'.1.isSome then (x'.1, some k) else near, x'.2)
            y' := by
          refine ⟨hnext.bound, ?_⟩
          rcases hnext.kept with ⟨hnone, hbase⟩ | ⟨i, target, hi, hc, hat⟩
          · rw [hnone, hbase]
            exact h.kept
          · rw [hi]
            exact .inr ⟨_, hc, rfl, hat⟩
        by_cases hzero : x'.2 = .zero
        · rw [if_pos (hstops.mp (hnext.bound.trans hzero))]
          show Option.Rel _ (if x'.2 = .zero then _ else _) _
          rw [if_pos hzero]
          exact .some hall
        · rw [if_neg fun hex => hzero (hnext.bound.symm.trans (hstops.mpr hex))]
          show Option.Rel _ (if x'.2 = .zero then _ else _) _
          rw [if_neg hzero]
          exact ih hzero hall

/-! ## Candidates by their numbers -/

theorem mem_candidatesOf {older : Option Nat} {version : StoredFormat} {c : Candidate} :
    c ∈ candidatesOf formatList older version ↔ c.older = older ∧ c.version = version ∧
      formatList[c.index]? = some (some c.target) ∧
      c.target.format.top.formatName = version.format.top.formatName := by
  unfold candidatesOf
  rw [List.mem_filterMap]
  constructor
  · rintro ⟨⟨entry, i⟩, hmem, hpair⟩
    obtain ⟨target, rfl, hname⟩ := Option.bind_eq_some_iff.mp hpair
    split at hname
    · next heq =>
      cases hname
      exact ⟨rfl, rfl, List.mem_zipIdx_iff_getElem?.mp hmem, heq⟩
    · cases hname
  · rintro ⟨rfl, rfl, hat, hname⟩
    exact ⟨(some c.target, c.index), List.mem_zipIdx_iff_getElem?.mpr hat, if_pos hname⟩

theorem mem_priorCandidates {l : List (Option StoredFormat × Nat)} {c : Candidate} :
    c ∈ priorCandidates formatList l ↔ ∃ k, c.older = some k ∧ (some c.version, k) ∈ l ∧
      formatList[c.index]? = some (some c.target) ∧
      c.target.format.top.formatName = c.version.format.top.formatName := by
  unfold priorCandidates
  rw [List.mem_flatMap]
  constructor
  · rintro ⟨⟨prior, k⟩, hmem, hc⟩
    cases prior with
    | none => exact absurd hc List.not_mem_nil
    | some prior =>
      obtain ⟨holder, rfl, hat, hname⟩ := mem_candidatesOf.mp hc
      exact ⟨k, holder, hmem, hat, hname⟩
  · rintro ⟨k, holder, hmem, hat, hname⟩
    exact ⟨_, hmem, mem_candidatesOf.mpr ⟨holder, rfl, hat, hname⟩⟩

end

namespace CompatCall

variable {call : CompatCall} {depth : Nat}

theorem mem_incoming_iff {c : Candidate} (hc : c ∈ call.candidates) :
    c ∈ call.incoming ↔ c.older = none := by
  constructor
  · intro h
    exact (mem_candidatesOf.mp h).1
  · intro h
    rcases List.mem_append.mp hc with hc | hc
    · exact hc
    · obtain ⟨k, hk, -⟩ := mem_priorCandidates.mp hc
      rw [h] at hk
      cases hk

theorem candidates_eq (call : CompatCall) : call.candidates = call.seen ++
    priorCandidates call.formatList (call.compats.zipIdx.dropWhile fun e => e.1.isSome) := by
  unfold candidates seen
  rw [List.append_assoc]
  congr 1
  unfold priorCandidates
  rw [← List.flatMap_append, List.takeWhile_append_dropWhile]

theorem mem_candidates_of_seen {c : Candidate} (h : c ∈ call.seen) : c ∈ call.candidates := by
  rw [candidates_eq]
  exact List.mem_append_left _ h

/-- Candidates with the same numbers are the same. -/
theorem candidate_ext {c c' : Candidate} (hc : c ∈ call.candidates) (hc' : c' ∈ call.candidates)
    (holder : c.older = c'.older) (hindex : c.index = c'.index) : c = c' := by
  have htarget : ∀ {c : Candidate}, c ∈ call.candidates →
      call.formatList[c.index]? = some (some c.target) := by
    intro c hc
    rcases List.mem_append.mp hc with hc | hc
    · exact (mem_candidatesOf.mp hc).2.2.1
    · obtain ⟨k, -, -, hat, -⟩ := mem_priorCandidates.mp hc
      exact hat
  have hversion : c.version = c'.version := by
    rcases List.mem_append.mp hc with h | h
    · have h' := (mem_incoming_iff hc').mpr (holder ▸ (mem_candidatesOf.mp h).1)
      rw [(mem_candidatesOf.mp h).2.1, (mem_candidatesOf.mp h').2.1]
    · obtain ⟨k, hk, hmem, -⟩ := mem_priorCandidates.mp h
      rcases List.mem_append.mp hc' with h' | h'
      · rw [holder, (mem_candidatesOf.mp h').1] at hk
        cases hk
      · obtain ⟨k', hk', hmem', -⟩ := mem_priorCandidates.mp h'
        rw [holder, hk'] at hk
        cases hk
        have hat : call.compats[k]? = some (some c.version) := List.mem_zipIdx_iff_getElem?.mp hmem
        have hat' : call.compats[k]? = some (some c'.version) := List.mem_zipIdx_iff_getElem?.mp hmem'
        exact Option.some.inj (Option.some.inj (hat.symm.trans hat'))
  have hsame := htarget hc
  rw [hindex, htarget hc'] at hsame
  cases c
  cases c'
  cases hsame
  cases holder
  cases hindex
  cases hversion
  rfl

/-! ## What is found -/

/-- What `FMformat_compat_cmp` makes of what the search has kept. -/
def conclude (depth : Nat) : Option Candidate × FormatDiff → Option (Option Nat × Option Nat)
  | (none, _) => some (none, none)
  | (some c, d) =>
    if c.older = none ∧ d = .zero then some (some c.index, none)
    else (FormatMemory.checkThresh depth d c.target).map fun near =>
      if near then (some c.index, c.older) else (none, none)

def scan (call : CompatCall) (depth : Nat) : Option (Option Candidate × FormatDiff) :=
  nearest (call.memory.keyAt depth) call.seen (none, ⟨maxDiff, maxDiff⟩)

theorem bot_lt_maxDiff : (⊥ : FormatDiff) < ⟨maxDiff, maxDiff⟩ :=
  FormatDiff.lt_iff_better.mpr (.inl (by decide))

/-- Behind the prior versions, when the incoming format has no exact match. -/
theorem finish_eq {x : (Option Nat × Option Nat) × FormatDiff}
    {y : Option Candidate × FormatDiff}
    (hkept : Kept (call.memory.keyAt depth) ⟨maxDiff, maxDiff⟩ call.seen y)
    (hlast : TracksVersions call.formatList x y)
    (hnot : ¬ ∃ c ∈ call.incoming, call.memory.keyAt depth c = some ⊥) :
    (match x.1.1 with
      | none => some (none, x.1.2)
      | some i => do
        let target ← call.formatList[i]?.join
        let near ← FormatMemory.checkThresh depth x.2 target
        return if near then (some i, x.1.2) else (none, none)) = conclude depth y := by
  obtain ⟨⟨near, older⟩, bound⟩ := x
  obtain ⟨best, d⟩ := y
  have hbound : d = bound := hlast.bound
  subst hbound
  rcases hlast.kept with ⟨hnone, hbest⟩ | ⟨c, hbest, hnear, hat⟩
  · cases hnone
    have hb : best = none := hbest
    subst hb
    rfl
  · cases hnear
    have hb : best = some c := hbest
    subst hb
    have hpast : ¬ (c.older = none ∧ d = .zero) := by
      rintro ⟨hfirst, hzero⟩
      cases hkept with
      | element h _ =>
        have hmem := List.mem_of_getElem? h.1
        refine hnot ⟨c, (mem_incoming_iff (mem_candidates_of_seen hmem)).mpr hfirst, ?_⟩
        rw [h.2.1, hzero]
        rfl
    rw [conclude, if_neg hpast]
    show (call.formatList[c.index]?.join.bind fun target => _) = _
    rw [hat]
    show ((FormatMemory.checkThresh depth d c.target).bind fun near => _) = _
    cases FormatMemory.checkThresh depth d c.target with
    | none => rfl
    | some near => rfl

theorem compatCmp_eq {context : FMContext}
    (hcompats : compatFormats context call.format.format.top = some call.compats)
    (hne : call.compats ≠ []) (depth : Nat) :
    call.memory.compatCmp depth context call.format call.formatList =
      (call.scan depth).bind (conclude depth) := by
  have hmax : (⟨maxDiff, maxDiff⟩ : FormatDiff) ≠ ⊥ := bot_lt_maxDiff.ne'
  have hstart : TracksVersion call.formatList none call.format none (none, ⟨maxDiff, maxDiff⟩)
      (none, ⟨maxDiff, maxDiff⟩) := ⟨rfl, .inl ⟨rfl, rfl⟩⟩
  unfold FormatMemory.compatCmp scan seen incoming
  rw [nearest_append]
  rcases listCmp_candidatesOf call.memory depth hstart with
    ⟨hlist, hsearch⟩ | ⟨x, y, hlist, hsearch, htracks⟩
  · rw [hlist, hsearch]
    rfl
  · have hstops := nearest_stops hmax hsearch
    have hkept := kept_of_nearest bot_lt_maxDiff hsearch
    obtain ⟨near, bound⟩ := x
    obtain ⟨best, d⟩ := y
    have hbound : d = bound := htracks.bound
    subst hbound
    rw [hlist, hsearch, Option.bind_eq_bind, Option.bind_some, Option.bind_some]
    by_cases hzero : d = .zero
    · rw [if_pos (hstops.mp hzero)]
      rcases htracks.kept with ⟨-, hnone⟩ | ⟨i, target, hi, hc, -⟩
      · have hbest : best = none := hnone
        subst hbest
        cases hkept
        exact absurd hzero hmax
      · have hnear : near = some i := hi
        have hbest : best = some ⟨none, i, call.format, target⟩ := hc
        subst hnear hbest
        show (if (some i).isSome ∧ d = .zero then _ else _) = (some _).bind (conclude depth)
        rw [if_pos ⟨rfl, hzero⟩, Option.bind_some, conclude, if_pos ⟨rfl, hzero⟩]
        rfl
    · have hnot : ¬ ∃ c ∈ candidatesOf call.formatList none call.format,
          call.memory.keyAt depth c = some ⊥ := fun hex => hzero (hstops.mpr hex)
      rw [if_neg hnot]
      show (if near.isSome ∧ d = .zero then _ else _) = _
      rw [if_neg fun h => hzero h.2, hcompats, Option.bind_eq_bind, Option.bind_some, if_neg hne]
      have hall : TracksVersions call.formatList ((near, none), d) (best, d) := by
        refine ⟨rfl, ?_⟩
        rcases htracks.kept with ⟨hnone, hbase⟩ | ⟨i, target, hi, hc, hat⟩
        · exact .inl ⟨congrArg (·, none) hnone, hbase⟩
        · exact .inr ⟨_, hc, congrArg (·, none) hi, hat⟩
      have hrel := priorsCmp_tracks call.memory depth
        (l := call.compats.zipIdx) hzero hall
      have hsame : ∀ r, nearest (call.memory.keyAt depth)
          (priorCandidates call.formatList
            (call.compats.zipIdx.takeWhile fun e => e.1.isSome)) (best, d) = some r →
          nearest (call.memory.keyAt depth) call.seen (none, ⟨maxDiff, maxDiff⟩) = some r := by
        intro r hr
        unfold seen incoming
        rw [nearest_append, hsearch, Option.bind_some, if_neg hnot]
        exact hr
      generalize call.memory.priorsCmp depth call.formatList call.compats.zipIdx
        ((near, none), d) = left at hrel ⊢
      generalize nearest (call.memory.keyAt depth) (priorCandidates call.formatList
        (call.compats.zipIdx.takeWhile fun e => e.1.isSome)) (best, d) = right at hrel hsame ⊢
      cases hrel with
      | none => rfl
      | @some x y hlast =>
        exact finish_eq (kept_of_nearest bot_lt_maxDiff (hsame y rfl)) hlast hnot

/-! ## When the best match is found -/

theorem keyAt_two {c : Candidate} {d : FormatDiff} (h : call.memory.keyAt depth c = some d) :
    call.memory.keyAt 2 c = some d := formatCmpDiff_two h

theorem differs_iff {c : Candidate} {d : FormatDiff} :
    call.Differs c d ↔ call.memory.keyAt 2 c = some d :=
  ⟨fun ⟨_, h⟩ => formatCmpDiff_two h, fun h => ⟨2, h⟩⟩

theorem nearest_iff {cs : List Candidate} {c : Candidate} {d : FormatDiff} :
    call.Nearest cs c d ↔
      d < ⟨maxDiff, maxDiff⟩ ∧ ∃ i, FirstLeast (call.memory.keyAt 2) cs i c d := by
  have hle : ∀ d' : FormatDiff, ¬ d'.Better d ↔ d ≤ d' := fun d' => by
    rw [← FormatDiff.lt_iff_better, not_lt]
  constructor
  · rintro ⟨hlimit, hdiff, i, hi, hleast⟩
    refine ⟨FormatDiff.lt_iff_better.mpr hlimit, i, hi, differs_iff.mp hdiff,
      fun j c' d' hc' hd' => ?_⟩
    have h := hleast j c' d' hc' (differs_iff.mpr hd')
    exact ⟨(hle d').mp h.1, fun hlt => FormatDiff.lt_iff_better.mpr (h.2 hlt)⟩
  · rintro ⟨hlimit, i, hi, hdiff, hleast⟩
    refine ⟨FormatDiff.lt_iff_better.mp hlimit, differs_iff.mpr hdiff, i, hi,
      fun j c' d' hc' hd' => ?_⟩
    have h := hleast j c' d' hc' (differs_iff.mp hd')
    exact ⟨(hle d').mpr h.1, fun hlt => FormatDiff.lt_iff_better.mp (h.2 hlt)⟩

theorem Nearest.unique {cs : List Candidate} {c c' : Candidate} {d d' : FormatDiff}
    (h : call.Nearest cs c d) (h' : call.Nearest cs c' d') : c = c' ∧ d = d' := by
  obtain ⟨-, i, hi⟩ := nearest_iff.mp h
  obtain ⟨-, j, hj⟩ := nearest_iff.mp h'
  exact (hi.unique hj).2

theorem Nearest.mem {cs : List Candidate} {c : Candidate} {d : FormatDiff}
    (h : call.Nearest cs c d) : c ∈ cs := by
  obtain ⟨-, -, i, hi, -⟩ := h
  exact List.mem_of_getElem? hi

theorem scan_two {r : Option Candidate × FormatDiff} (h : call.scan depth = some r) :
    call.scan 2 = some r := nearest_mono (fun _ _ => keyAt_two) h

theorem scan_le {r : Option Candidate × FormatDiff} (hdepth : 2 ≤ depth)
    (h : call.scan 2 = some r) : call.scan depth = some r :=
  nearest_mono (fun _ _ => formatCmpDiff_le hdepth) h

theorem scan_isSome_iff : (call.scan 2).isSome ↔ ∀ (i : Nat) (c : Candidate),
    call.seen[i]? = some c →
    (∀ (j : Nat) (c' : Candidate), call.seen[j]? = some c' → j < i → ¬ call.Differs c' .zero) →
      ∃ d, call.Differs c d := by
  unfold scan
  rw [nearest_isSome_iff, allKeyed_iff]
  simp only [differs_iff]
  rfl

/-- When the incoming format has an exact match, one of them is kept. -/
theorem Exact.kept {c : Candidate} {r : Option Candidate × FormatDiff} (h : call.Exact c)
    (hkept : Kept (call.memory.keyAt 2) ⟨maxDiff, maxDiff⟩ call.seen r) :
    ∃ c', r = (some c', .zero) ∧ c'.older = none ∧ call.Exact c' := by
  obtain ⟨hmem, hdiff⟩ := h
  have hkey : call.memory.keyAt 2 c = some ⊥ := differs_iff.mp hdiff
  obtain ⟨j, hj⟩ := List.mem_iff_getElem?.mp hmem
  have hlt := (List.getElem?_eq_some_iff.mp hj).1
  have hat : call.seen[j]? = some c := (List.getElem?_append_left hlt).trans hj
  cases hkept with
  | nothing h => exact absurd (h c (List.mem_of_getElem? hat) ⊥ hkey) (not_le.mpr bot_lt_maxDiff)
  | @element i c' d hfirst _ =>
    have hbot : d = ⊥ := le_bot_iff.mp (hfirst.2.2 j c ⊥ hat hkey).1
    have hij : i ≤ j := by
      by_contra hgt
      exact absurd ((hfirst.2.2 j c ⊥ hat hkey).2 (Nat.not_le.mp hgt)) not_lt_bot
    have hmem' : c' ∈ call.incoming := by
      have hi := hfirst.1
      unfold seen at hi
      rw [List.getElem?_append_left (by omega)] at hi
      exact List.mem_of_getElem? hi
    have holder := (mem_candidatesOf.mp hmem').1
    refine ⟨c', by rw [hbot]; rfl, holder, hmem', differs_iff.mpr ?_⟩
    rw [hfirst.2.1, hbot]
    rfl

theorem exact_of_kept {c : Candidate} {d : FormatDiff}
    (hkept : Kept (call.memory.keyAt 2) ⟨maxDiff, maxDiff⟩ call.seen (some c, d))
    (hexact : c.older = none ∧ d = .zero) : call.Exact c := by
  cases hkept with
  | element h _ =>
    have hmem := mem_candidates_of_seen (List.mem_of_getElem? h.1)
    refine ⟨(mem_incoming_iff hmem).mpr hexact.1, differs_iff.mpr ?_⟩
    rw [h.2.1, hexact.2]

theorem nearest_of_kept {c : Candidate} {d : FormatDiff} {cs : List Candidate}
    (hkept : Kept (call.memory.keyAt 2) ⟨maxDiff, maxDiff⟩ cs (some c, d)) :
    call.Nearest cs c d := by
  cases hkept with
  | element h hlimit => exact nearest_iff.mpr ⟨hlimit, _, h⟩

theorem not_nearest_of_kept {d : FormatDiff} {cs : List Candidate}
    (hkept : Kept (call.memory.keyAt 2) ⟨maxDiff, maxDiff⟩ cs (none, d)) (c : Candidate)
    (e : FormatDiff) : ¬ call.Nearest cs c e := by
  intro h
  obtain ⟨hlimit, i, hi, he, -⟩ := nearest_iff.mp h
  cases hkept with
  | nothing hnone => exact absurd hlimit (not_lt.mpr (hnone c (List.mem_of_getElem? hi) e he))

theorem passes_of_checkThresh {c : Candidate} {d : FormatDiff} {near : Bool}
    (h : FormatMemory.checkThresh depth d c.target = some near) : Passes c d ↔ near = true := by
  constructor
  · rintro ⟨depth', h'⟩
    exact checkThresh_unique h h'
  · rintro rfl
    exact ⟨depth, h⟩

theorem unhidden_of_findsBest {context : FMContext}
    (hcompats : compatFormats context call.format.format.top = some call.compats)
    (hne : call.compats ≠ []) (h : call.FindsBest context) : call.Unhidden := by
  obtain ⟨depth, result, hresult, hbest⟩ := h
  rw [compatCmp_eq hcompats hne] at hresult
  obtain ⟨⟨best, d⟩, hscan, hconclude⟩ := Option.bind_eq_some_iff.mp hresult
  have hscan2 := scan_two hscan
  have hkept : Kept (call.memory.keyAt 2) ⟨maxDiff, maxDiff⟩ call.seen (best, d) :=
    kept_of_nearest bot_lt_maxDiff hscan2
  have hcompared := scan_isSome_iff.mp (by rw [hscan2]; rfl)
  cases best with
  | none =>
    have hnone := not_nearest_of_kept hkept
    refine ⟨hcompared, fun _ c e hc => absurd hc (hnone c e), fun hexact c e hc => .inr ⟨?_,
      fun c' d' hc' => absurd hc' (hnone c' d')⟩⟩
    cases hconclude
    rcases hbest with ⟨c', hc', -⟩ | ⟨-, ⟨c', d', -, -, heq⟩ | ⟨hfail, -⟩⟩
    · exact absurd hc' (hexact c')
    · cases heq
    · exact hfail c e hc
  | some c =>
    have hnearest := nearest_of_kept hkept
    rw [conclude] at hconclude
    by_cases hfirst : c.older = none ∧ d = .zero
    · have hexact := exact_of_kept hkept hfirst
      exact ⟨hcompared, fun hno => absurd hexact (hno c), fun hno => absurd hexact (hno c)⟩
    · rw [if_neg hfirst] at hconclude
      obtain ⟨near, hnear, rfl⟩ := Option.map_eq_some_iff.mp hconclude
      refine ⟨hcompared, fun _ c' d' hc' => ?_, fun hexact c' d' hc' => ?_⟩
      · obtain ⟨rfl, rfl⟩ := hc'.unique hnearest
        exact ⟨depth, by rw [hnear]; rfl⟩
      · have hpasses := passes_of_checkThresh hnear
        cases near with
        | true =>
          left
          rcases hbest with ⟨c₁, hc₁, -⟩ | ⟨-, ⟨c₁, d₁, hc₁, -, heq⟩ | ⟨-, heq⟩⟩
          · exact absurd hc₁ (hexact c₁)
          · obtain ⟨rfl, rfl⟩ := hc'.unique hc₁
            have hpair : (some c.index, c.older) = (some c'.index, c'.older) := heq
            have hsame : c = c' := candidate_ext (mem_candidates_of_seen hnearest.mem) hc'.mem
              (Prod.mk.inj hpair).2 (Option.some.inj (Prod.mk.inj hpair).1)
            subst hsame
            have hd : d = d' := by
              have h1 := differs_iff.mp hnearest.2.1
              have h2 := differs_iff.mp hc₁.2.1
              exact Option.some.inj (h1.symm.trans h2)
            rw [← hd]
            exact hnearest
          · cases heq
        | false =>
          right
          have hfails : ¬ Passes c d := fun h => Bool.false_ne_true (hpasses.mp h)
          refine ⟨?_, fun c₁ d₁ hc₁ => ?_⟩
          · rcases hbest with ⟨c₁, hc₁, -⟩ | ⟨-, ⟨c₁, d₁, -, -, heq⟩ | ⟨hall, -⟩⟩
            · exact absurd hc₁ (hexact c₁)
            · cases heq
            · exact hall c' d' hc'
          · obtain ⟨rfl, rfl⟩ := hc₁.unique hnearest
            exact hfails

theorem findsBest_of_unhidden {context : FMContext}
    (hcompats : compatFormats context call.format.format.top = some call.compats)
    (hne : call.compats ≠ []) (h : call.Unhidden) : call.FindsBest context := by
  obtain ⟨⟨best, d⟩, hscan⟩ := Option.isSome_iff_exists.mp (scan_isSome_iff.mpr h.compared)
  have hkept : Kept (call.memory.keyAt 2) ⟨maxDiff, maxDiff⟩ call.seen (best, d) :=
    kept_of_nearest bot_lt_maxDiff hscan
  have hrun : ∀ {depth result}, 2 ≤ depth → conclude depth (best, d) = some result →
      call.memory.compatCmp depth context call.format call.formatList = some result := by
    intro depth result hdepth hconclude
    rw [compatCmp_eq hcompats hne, scan_le hdepth hscan]
    exact hconclude
  by_cases hexact : ∃ c, call.Exact c
  · obtain ⟨c, hc⟩ := hexact
    obtain ⟨c', hr, holder, hc'⟩ := hc.kept hkept
    cases hr
    exact ⟨2, _, hrun (Nat.le_refl 2) (if_pos ⟨holder, rfl⟩), .inl ⟨c', hc', rfl⟩⟩
  · have hno : ∀ c, ¬ call.Exact c := fun c hc => hexact ⟨c, hc⟩
    cases best with
    | none =>
      refine ⟨2, (none, none), hrun (Nat.le_refl 2) rfl, .inr ⟨hno, .inr ⟨fun c e hc => ?_, rfl⟩⟩⟩
      rcases h.nearest hno c e hc with hseen | ⟨hfail, -⟩
      · exact absurd hseen (not_nearest_of_kept hkept c e)
      · exact hfail
    | some c =>
      have hnearest := nearest_of_kept hkept
      obtain ⟨depth, hcount⟩ := h.counted hno c d hnearest
      obtain ⟨near, hnear⟩ := Option.isSome_iff_exists.mp hcount
      have hnear' := checkThresh_le (Nat.le_max_right 2 depth) hnear
      have hpasses := passes_of_checkThresh hnear
      have hpast : ¬ (c.older = none ∧ d = .zero) :=
        fun hfirst => hno c (exact_of_kept hkept hfirst)
      have hconclude : conclude (max 2 depth) (some c, d) =
          some (if near then (some c.index, c.older) else (none, none)) := by
        rw [conclude, if_neg hpast, hnear']
        rfl
      refine ⟨max 2 depth, _, hrun (Nat.le_max_left 2 depth) hconclude, .inr ⟨hno, ?_⟩⟩
      cases near with
      | true =>
        have hpass := hpasses.mpr rfl
        -- something is the nearest of all, and if it is not this one then this one fails
        obtain ⟨⟨best, e⟩, hall⟩ := exists_kept (call.memory.keyAt 2) ⟨maxDiff, maxDiff⟩
          call.candidates
        cases best with
        | none =>
          obtain ⟨hlimit, i, hi⟩ := nearest_iff.mp hnearest
          have hmem := mem_candidates_of_seen hnearest.mem
          cases hall with
          | nothing hnone => exact absurd hlimit (not_lt.mpr (hnone c hmem d hi.2.1))
        | some c' =>
          have hc' := nearest_of_kept hall
          rcases h.nearest hno c' e hc' with hseen | ⟨-, hfail⟩
          · obtain ⟨rfl, rfl⟩ := hseen.unique hnearest
            exact .inl ⟨c', e, hc', hpass, rfl⟩
          · exact absurd hpass (hfail c d hnearest)
      | false =>
        have hfails : ¬ Passes c d := fun h => Bool.false_ne_true (hpasses.mp h)
        refine .inr ⟨fun c' d' hc' => ?_, rfl⟩
        rcases h.nearest hno c' d' hc' with hseen | ⟨hfail, -⟩
        · obtain ⟨rfl, rfl⟩ := hseen.unique hnearest
          exact hfails
        · exact hfail

/-- `FMformat_compat_cmp` finds the best match when no nearer version is behind one that does not
resolve, and not otherwise. -/
theorem findsBest_iff {context : FMContext}
    (hcompats : compatFormats context call.format.format.top = some call.compats)
    (hne : call.compats ≠ []) : call.FindsBest context ↔ call.Unhidden :=
  ⟨unhidden_of_findsBest hcompats hne, findsBest_of_unhidden hcompats hne⟩

end CompatCall

/-! ### Two prior versions -/

/-- The identifier of a version of a format. -/
def versionID (version : UInt8) : List UInt8 := [2, 0, 0, 1, 1, 2, 3, 4, 5, 6, 7, version]

def compatInfo (version : UInt8) : FMOptInfo :=
  { infoType := compatOptInfo, infoBlock := versionID version,
    typeNe := by decide, lenLt := (by decide : 12 < 2 ^ 31) }

def pointVersion (formatName : CString) (optInfo : List FMOptInfo) (version : UInt8) :
    StoredFormat :=
  { format := { top := pointFormat formatName optInfo, subformats := [] }, serverFormatRep := [],
    serverID := versionID version, formatIndex := version.toNat }

/-- The second version, which a program still reads. -/
def olderPoint : StoredFormat := pointVersion (cstr ['q'] (.refl false)) [] 2

/-- The third version, of another name and with the two before it. -/
def newerPoint : StoredFormat :=
  pointVersion (cstr ['p'] (.refl false)) [compatInfo 1, compatInfo 2] 3

def pointContext : FMContext :=
  { formatList := [olderPoint, newerPoint], nativeColumnMajorArrays := false }

/-- The first version is not in the context. -/
def pointCall : CompatCall where
  memory := { address := StoredFormat.formatIndex, loaded := fun f => f.formatIndex = 3 }
  format := newerPoint
  compats := [none, some olderPoint]
  formatList := [some olderPoint]

theorem compatFormats_point :
    compatFormats pointContext newerPoint.format.top = some [none, some olderPoint] := by
  decide

theorem findsBest_iff_point : pointCall.FindsBest pointContext ↔ pointCall.Unhidden :=
  CompatCall.findsBest_iff compatFormats_point (List.cons_ne_nil _ _)

/-- The second version is the target itself, and is not looked at. -/
theorem pointCall_not_findsBest :
    compatFormats pointContext pointCall.format.format.top = some pointCall.compats ∧
      ¬ pointCall.FindsBest pointContext := by
  refine ⟨compatFormats_point, ?_⟩
  rintro ⟨depth, result, hresult, hbest⟩
  have hincoming : pointCall.incoming = [] := by decide
  have hcandidates : pointCall.candidates = [⟨some 1, 0, olderPoint, olderPoint⟩] := by
    rfl
  have hdiff : ∀ d, pointCall.Differs ⟨some 1, 0, olderPoint, olderPoint⟩ d ↔ d = .zero := by
    intro d
    constructor
    · rintro ⟨n, hn⟩
      exact (Option.some.inj hn).symm
    · rintro rfl
      exact ⟨0, rfl⟩
  have hnone : result = (none, none) := by
    have hrun : pointCall.memory.compatCmp depth pointContext newerPoint [some olderPoint] =
        some (none, none) := by
      have hlist : pointCall.memory.listCmp depth newerPoint [some olderPoint].zipIdx
          (none, ⟨maxDiff, maxDiff⟩) = some (none, ⟨maxDiff, maxDiff⟩) := rfl
      rw [FormatMemory.compatCmp, hlist, compatFormats_point]
      rfl
    exact Option.some.inj (hresult.symm.trans hrun)
  have hnearest : pointCall.Nearest pointCall.candidates ⟨some 1, 0, olderPoint, olderPoint⟩
      .zero := by
    refine ⟨by decide, (hdiff _).mpr rfl, 0, by rw [hcandidates]; rfl, fun j c' d' _ _ =>
      ⟨?_, fun h => absurd h (Nat.not_lt_zero j)⟩⟩
    rintro (h | ⟨-, h⟩)
    · exact Nat.not_lt_zero _ h
    · exact Nat.not_lt_zero _ h
  rcases hbest with ⟨c, hc, -⟩ | ⟨-, ⟨c, d, -, -, heq⟩ | ⟨hfail, -⟩⟩
  · rw [CompatCall.Exact, hincoming] at hc
    exact absurd hc.1 List.not_mem_nil
  · rw [hnone] at heq
    cases heq
  · exact hfail _ _ hnearest ⟨2, by decide⟩

end FFS
