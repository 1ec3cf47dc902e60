import FFS.FM.ContextStore

/-!
# Looking formats up by their struct lists

A format keeps the address of one struct list, `orig_struct_list`.  `register_data_format` sets
it on a format that it enters and leaves it alone on a format that it finds, and a loaded format
has in it what the memory held before.
-/

namespace FFS

open Machine

/-- A context and the `orig_struct_list` of each of its formats. -/
structure ListedContext where
  context : FMContext
  origStructLists : List Nat

/-- `FMlookup_format` -/
def ListedContext.lookupFormat (s : ListedContext) (structList : Nat) : Option StoredFormat :=
  ((s.context.formatList.zip s.origStructLists).find? (·.2 = structList)).map (·.1)

/-- The context after a call, `orig` being what a format that was entered has in its field. -/
def ListedContext.after (s : ListedContext) (context : FMContext) (orig : Nat) : ListedContext :=
  { context,
    origStructLists :=
      if s.context.formatList.length < context.formatList.length then s.origStructLists ++ [orig]
      else s.origStructLists }

/-- A registration of the list at an address, or the loading of a format into memory that held
`orig` where `orig_struct_list` is, and `memory` for what is derived. -/
inductive ListCall where
  | register (structList : Nat)
  | load (id rep : List UInt8) (memory : FMFormat) (orig : Nat)

/-- A run so far: the context, and the formats that registrations returned for which lists. -/
structure ListRun where
  listed : ListedContext
  returned : List (Nat × StoredFormat)

section
variable (hash : List UInt8 → UInt32 × UInt32) (ignoreDefaultValues : Bool)
  (lists : Nat → List FMStructDesc)

/-- One call, `lists` being the struct lists in memory. -/
def ListRun.call (r : ListRun) : ListCall → ListRun
  | .register structList =>
    match registerDataFormat hash ignoreDefaultValues r.listed.context (lists structList) with
    | none => r
    | some (context, entry) =>
      { listed := r.listed.after context structList,
        returned := r.returned ++ [(structList, entry)] }
  | .load id rep memory orig =>
    match loadExternalFormat memory r.listed.context id rep with
    | none => r
    | some (context, _) => { r with listed := r.listed.after context orig }

/-- The calls in a new context. -/
def listRun (columnMajor : Bool) (calls : List ListCall) : ListRun :=
  calls.foldl (ListRun.call hash ignoreDefaultValues lists)
    { listed := { context := newContext columnMajor, origStructLists := [] }, returned := [] }

/-- Every list whose registration succeeded leads to what that returned. -/
def ListRun.FindsReturned (r : ListRun) : Prop :=
  ∀ p ∈ r.returned, r.listed.lookupFormat p.1 = some p.2

/-- The registration finds the format in the context. -/
def ListRun.Finds (r : ListRun) (structList : Nat) : Prop :=
  ∃ entry, registerDataFormat hash ignoreDefaultValues r.listed.context (lists structList) =
    some (r.listed.context, entry)

/-- A list whose format is found was registered before, and the address of one whose format is
entered is that of no format.  What is loaded can be expanded. -/
def ListRun.CallOk (r : ListRun) : ListCall → Prop
  | .register structList =>
    (r.Finds hash ignoreDefaultValues lists structList →
      structList ∈ r.returned.map Prod.fst) ∧
      (¬ r.Finds hash ignoreDefaultValues lists structList →
        structList ∉ r.listed.origStructLists)
  | .load _ rep _ _ => (expandFormatFromRep rep).isSome = true

end

/-! ## What calls do -/

section
variable {hash : List UInt8 → UInt32 × UInt32} {ignoreDefaultValues : Bool}
  {lists : Nat → List FMStructDesc} {context context' : FMContext} {entry : StoredFormat}

theorem registerDataFormat_cases {structList : List FMStructDesc}
    (h : registerDataFormat hash ignoreDefaultValues context structList = some (context', entry)) :
    ∃ format rep, registerFormats context.nativeColumnMajorArrays ignoreDefaultValues structList =
        some format ∧ buildServerFormatRep format = some rep ∧
      (searchCompatibleFormats context format.top.formatName rep = some entry ∧
          context' = context ∨
        searchCompatibleFormats context format.top.formatName rep = none ∧
          ∃ id, generateFormat3ServerID hash rep = some id ∧
            (context', entry) = context.enter format rep id false) := by
  simp only [registerDataFormat, Option.bind_eq_bind, Option.bind_eq_some_iff] at h
  obtain ⟨format, hformat, rep, hrep, h⟩ := h
  refine ⟨format, rep, hformat, hrep, ?_⟩
  split at h
  · next found hfound =>
    simp only [Option.pure_def, Option.some.injEq, Prod.mk.injEq] at h
    exact .inl ⟨h.2 ▸ hfound, h.1.symm⟩
  · next hnone =>
    simp only [Option.bind_eq_some_iff, Option.pure_def, Option.some.injEq] at h
    obtain ⟨id, hid, h⟩ := h
    exact .inr ⟨hnone, id, hid, h.symm⟩

theorem loadExternalFormat_cases {id rep : List UInt8} {memory : FMFormat}
    (h : loadExternalFormat memory context id rep = some (context', entry)) :
    context' = context ∨ ∃ format, (context', entry) = context.enter format rep id true := by
  rw [loadExternalFormat] at h
  split at h
  · simp only [Option.some.injEq, Prod.mk.injEq] at h
    exact .inl h.1.symm
  · obtain ⟨f, -, h⟩ := Option.map_eq_some_iff.mp h
    exact .inr ⟨_, h.symm⟩

theorem length_enter (format : FMFormat) (rep id : List UInt8) (loaded : Bool) :
    (context.enter format rep id loaded).1.formatList.length = context.formatList.length + 1 := by
  simp [FMContext.enter]

/-- What is found by its representation is found when formats are entered behind it. -/
theorem searchCompatibleFormats_enter {name : CString} {rep : List UInt8}
    (h : searchCompatibleFormats context name rep = some entry) (format : FMFormat)
    (rep' id : List UInt8) (loaded : Bool) :
    searchCompatibleFormats (context.enter format rep' id loaded).1 name rep = some entry := by
  simp only [searchCompatibleFormats, Option.bind_eq_bind, Option.bind_eq_some_iff] at h ⊢
  obtain ⟨n, hn, h⟩ := h
  refine ⟨n, hn, ?_⟩
  rw [FMContext.enter, List.find?_append, h, Option.some_or]

/-- A short representation that is entered is found. -/
theorem searchCompatibleFormats_entered {format : FMFormat} {rep id : List UInt8} {loaded : Bool}
    {n : Nat}
    (hn : recordedRepLength rep = some n) (hshort : n < 2 ^ 16)
    (hnone : searchCompatibleFormats context format.top.formatName rep = none) :
    searchCompatibleFormats (context.enter format rep id loaded).1 format.top.formatName rep =
      some (context.enter format rep id loaded).2 := by
  have hlow : valueAt true rep 0 2 = some n := by
    simp only [recordedRepLength, lengthAt, Option.bind_eq_bind, Option.bind_eq_some_iff] at hn
    obtain ⟨low, hlow, v, -, hsum⟩ := hn
    split at hsum
    · simp only [Option.bind_eq_some_iff, Option.pure_def, Option.some.injEq] at hsum
      obtain ⟨high, -, hsum⟩ := hsum
      rw [hlow, ← hsum]
      congr 1
      omega
    · rw [hlow]
      exact hsum
  simp only [searchCompatibleFormats, hn, Option.bind_eq_bind, Option.bind_some] at hnone ⊢
  rw [FMContext.enter, List.find?_append, hnone, Option.none_or, List.find?_singleton, if_pos]
  simp [compatibleRep, hlow]

/-! ## The state after a call -/

theorem ListedContext.after_same (s : ListedContext) (orig : Nat) :
    s.after s.context orig = s := by
  rw [ListedContext.after, if_neg (lt_irrefl _)]

theorem ListedContext.after_enter (s : ListedContext) (orig : Nat) (format : FMFormat)
    (rep id : List UInt8) (loaded : Bool) : s.after (s.context.enter format rep id loaded).1 orig =
      { context := (s.context.enter format rep id loaded).1,
        origStructLists := s.origStructLists ++ [orig] } := by
  rw [ListedContext.after, if_pos (by rw [length_enter]; omega)]

theorem ListedContext.lookupFormat_enter {s : ListedContext}
    (hlength : s.origStructLists.length = s.context.formatList.length) (orig : Nat)
    (format : FMFormat) (rep id : List UInt8) (loaded : Bool) (structList : Nat) :
    (s.after (s.context.enter format rep id loaded).1 orig).lookupFormat structList =
      (s.lookupFormat structList).or
        (if orig = structList then some (s.context.enter format rep id loaded).2 else none) := by
  have hzip : ((s.context.enter format rep id loaded).1.formatList.zip (s.origStructLists ++ [orig])) =
      s.context.formatList.zip s.origStructLists ++ [((s.context.enter format rep id loaded).2, orig)] := by
    rw [FMContext.enter, List.zip_append hlength.symm]
    rfl
  rw [s.after_enter, lookupFormat, lookupFormat]
  dsimp only
  rw [hzip, List.find?_append, List.find?_singleton]
  cases (s.context.formatList.zip s.origStructLists).find? (·.2 = structList) with
  | some p => rfl
  | none =>
    by_cases horig : orig = structList
    · simp [horig]
    · simp [horig]

theorem ListedContext.lookupFormat_eq_none {s : ListedContext} {structList : Nat}
    (h : structList ∉ s.origStructLists) : s.lookupFormat structList = none := by
  rw [lookupFormat, Option.map_eq_none_iff, List.find?_eq_none]
  rintro ⟨entry, orig⟩ hmem hmatch
  rw [decide_eq_true_eq] at hmatch
  exact h (hmatch ▸ (List.of_mem_zip hmem).2)

/-- What the search for a list's format finds from now on, unless it is too long to be found. -/
def Settled (ignoreDefaultValues : Bool) (context : FMContext) (structList : List FMStructDesc)
    (entry : StoredFormat) : Prop :=
  ∀ format rep, registerFormats context.nativeColumnMajorArrays ignoreDefaultValues structList =
      some format → buildServerFormatRep format = some rep →
    searchCompatibleFormats context format.top.formatName rep = some entry ∨
      ∃ n, recordedRepLength rep = some n ∧ 2 ^ 16 ≤ n

theorem Settled.enter {structList : List FMStructDesc}
    (h : Settled ignoreDefaultValues context structList entry) (format : FMFormat)
    (rep id : List UInt8) (loaded : Bool) :
    Settled ignoreDefaultValues (context.enter format rep id loaded).1 structList entry :=
  fun format' rep' hformat' hrep' => (h format' rep' hformat' hrep').imp_left fun hfound =>
    searchCompatibleFormats_enter hfound format rep id loaded

/-- What a run keeps: every list that was registered leads to its format, by its address and by
its representation. -/
structure ListInv (ignoreDefaultValues : Bool) (lists : Nat → List FMStructDesc) (r : ListRun) :
    Prop where
  lengths : r.listed.origStructLists.length = r.listed.context.formatList.length
  finds : r.FindsReturned
  settled : ∀ p ∈ r.returned, Settled ignoreDefaultValues r.listed.context (lists p.1) p.2

/-- A format that is entered, `orig` being the address of no list that was registered. -/
theorem ListInv.enter {r : ListRun} (h : ListInv ignoreDefaultValues lists r) (orig : Nat)
    (format : FMFormat) (rep id : List UInt8) (loaded : Bool) :
    ListInv ignoreDefaultValues lists
      { r with listed := r.listed.after (r.listed.context.enter format rep id loaded).1 orig } := by
  refine ⟨?_, fun p hp => ?_, fun p hp => ?_⟩
  · rw [r.listed.after_enter, length_enter, List.length_append, h.lengths]
    rfl
  · dsimp only
    rw [ListedContext.lookupFormat_enter h.lengths, h.finds p hp, Option.some_or]
  · dsimp only
    rw [r.listed.after_enter]
    exact (h.settled p hp).enter format rep id loaded

theorem ListInv.return {r : ListRun} (h : ListInv ignoreDefaultValues lists r) {structList : Nat}
    (hfinds : r.listed.lookupFormat structList = some entry)
    (hsettled : Settled ignoreDefaultValues r.listed.context (lists structList) entry) :
    ListInv ignoreDefaultValues lists
      { r with returned := r.returned ++ [(structList, entry)] } := by
  refine ⟨h.lengths, fun p hp => ?_, fun p hp => ?_⟩
  · rcases List.mem_append.mp hp with hp | hp
    · exact h.finds p hp
    · rw [List.mem_singleton.mp hp]
      exact hfinds
  · rcases List.mem_append.mp hp with hp | hp
    · exact h.settled p hp
    · rw [List.mem_singleton.mp hp]
      exact hsettled

theorem ListInv.call {r : ListRun} (h : ListInv ignoreDefaultValues lists r) {call : ListCall}
    (hok : r.CallOk hash ignoreDefaultValues lists call) :
    ListInv ignoreDefaultValues lists (r.call hash ignoreDefaultValues lists call) := by
  cases call with
  | load id rep memory orig =>
    rw [ListRun.call]
    split
    · exact h
    · next context' entry hload =>
      rcases loadExternalFormat_cases hload with hsame | ⟨format, henter⟩
      · rw [hsame, r.listed.after_same]
        exact h
      · have hcontext : context' = (r.listed.context.enter format rep id true).1 :=
          congrArg Prod.fst henter
        rw [hcontext]
        exact h.enter orig format rep id true
  | register structList =>
    rw [ListRun.call]
    split
    · exact h
    · next context' entry hregister =>
      obtain ⟨format, rep, hformat, hrep, hcases⟩ := registerDataFormat_cases hregister
      obtain ⟨hbefore, hfresh⟩ := hok
      rcases hcases with ⟨hfound, hsame⟩ | ⟨hnone, id, hid, henter⟩
      · -- The format was there, and the list was registered before.
        subst hsame
        rw [r.listed.after_same]
        obtain ⟨⟨l, first⟩, hp, hl⟩ := List.mem_map.mp (hbefore ⟨entry, hregister⟩)
        dsimp only at hl
        subst hl
        have hfirst : first = entry := by
          rcases h.settled _ hp format rep hformat hrep with hsearch | ⟨n, hn, hlong⟩
          · rw [hfound, Option.some.injEq] at hsearch
            exact hsearch.symm
          · rw [searchCompatibleFormats_of_long hn hlong] at hfound
            cases hfound
        subst hfirst
        exact h.return (h.finds _ hp) (h.settled _ hp)
      · -- The format is entered with the address of the list.
        have hcontext : context' = (r.listed.context.enter format rep id false).1 :=
          congrArg Prod.fst henter
        have hentry : entry = (r.listed.context.enter format rep id false).2 :=
          congrArg Prod.snd henter
        have hmiss : ¬ r.Finds hash ignoreDefaultValues lists structList := by
          rintro ⟨e, he⟩
          rw [hregister, Option.some.injEq, Prod.mk.injEq] at he
          have hlength := @length_enter r.listed.context format rep id false
          rw [← hcontext, he.1] at hlength
          omega
        have hnew := ListedContext.lookupFormat_eq_none (hfresh hmiss)
        rw [hcontext]
        refine (h.enter structList format rep id false).return ?_ ?_
        · dsimp only
          rw [ListedContext.lookupFormat_enter h.lengths, hnew, Option.none_or, if_pos rfl, hentry]
        · dsimp only
          rw [r.listed.after_enter]
          intro format' rep' hformat' hrep'
          have hsame : format' = format := Option.some.inj (hformat'.symm.trans hformat)
          subst hsame
          have hsame : rep' = rep := Option.some.inj (hrep'.symm.trans hrep)
          subst hsame
          rw [generateFormat3ServerID] at hid
          obtain ⟨n, hn, -⟩ := Option.bind_eq_some_iff.mp hid
          by_cases hshort : n < 2 ^ 16
          · exact .inl (hentry ▸ searchCompatibleFormats_entered hn hshort hnone)
          · exact .inr ⟨n, hn, not_lt.mp hshort⟩

end

/-! ## Runs -/

section
variable (hash : List UInt8 → UInt32 × UInt32) (ignoreDefaultValues columnMajor : Bool)
  (lists : Nat → List FMStructDesc) (calls : List ListCall)

end

/-! ## Examples -/

theorem registerDataFormat_ne_empty {context : FMContext} {entry : StoredFormat}
    {structList : List FMStructDesc} (h : registerDataFormat hashlittle2 false (newContext false)
      structList = some (context, entry)) : context ≠ newContext false := by
  rintro rfl
  obtain ⟨format, rep, -, -, ⟨hfound, -⟩ | ⟨-, id, -, henter⟩⟩ := registerDataFormat_cases h
  · obtain ⟨n, -, hfind⟩ := Option.bind_eq_some_iff.mp hfound
    cases hfind
  · have hlength := @length_enter (newContext false) format rep id false
    rw [← henter] at hlength
    cases hlength

/-- The list of a point is entered and then found. -/
theorem registerDataFormat_point_twice : ∃ context entry,
    registerDataFormat hashlittle2 false (newContext false)
        (pointList (cstr ['p'] (.refl false)) []) = some (context, entry) ∧
      registerDataFormat hashlittle2 false context (pointList (cstr ['p'] (.refl false)) []) =
        some (context, entry) := by
  have htwice : ((registerDataFormat hashlittle2 false (newContext false)
      (pointList (cstr ['p'] (.refl false)) [])).any fun result =>
        registerDataFormat hashlittle2 false result.1 (pointList (cstr ['p'] (.refl false)) []) =
          some result) = true := by decide +kernel
  obtain ⟨⟨context, entry⟩, hfirst, hsecond⟩ := (Option.any_eq_true _ _).mp htwice
  exact ⟨context, entry, hfirst, of_decide_eq_true hsecond⟩

/-- The run of registrations of points from one address after another. -/
def pointRun (structLists : List Nat) : ListRun :=
  listRun hashlittle2 false (fun _ => pointList (cstr ['p'] (.refl false)) []) false
    (structLists.map .register)

theorem pointRun_of_point {context : FMContext} {entry : StoredFormat}
    (hfirst : registerDataFormat hashlittle2 false (newContext false)
      (pointList (cstr ['p'] (.refl false)) []) = some (context, entry)) :
    pointRun [0] =
      { listed := ListedContext.after ⟨newContext false, []⟩ context 0,
        returned := [(0, entry)] } := by
  rw [pointRun, List.map_singleton, listRun, List.foldl_cons, List.foldl_nil, ListRun.call]
  dsimp only
  rw [hfirst]
  rfl

end FFS
