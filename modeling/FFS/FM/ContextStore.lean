import FFS.FM.Context
import FFS.FM.Hash
import FFS.FM.Loaded
import FFS.FM.RepRoundTrip

/-!
# The formats of a context are all different

Every entry records its own place, no two have the same representation, and the ID of an
entry leads to it.  `StoreInv` is what carries this through a run: that the IDs are the
hashes of the representations, and that the name of an entry is the one its representation
expands to.
-/

namespace FFS

open Machine

variable {hash : List UInt8 → UInt32 × UInt32} {ignoreDefaultValues : Bool}

/-- The recorded length stands in the part of a representation that it covers. -/
theorem recordedRepLength_append {rep : List UInt8} {n : Nat} (rest : List UInt8)
    (h : recordedRepLength rep = some n) : recordedRepLength (rep ++ rest) = some n := by
  simp only [recordedRepLength, lengthAt, Option.bind_eq_bind, Option.bind_eq_some_iff] at h ⊢
  obtain ⟨low, hlow, v, hv, h⟩ := h
  refine ⟨low, valueAt_append rest hlow, v, byteAt_append rest hv, ?_⟩
  split at h
  · next hpos =>
    simp only [Option.bind_eq_some_iff] at h
    obtain ⟨high, hhigh, h⟩ := h
    rw [if_pos hpos]
    simp only [Option.bind_eq_some_iff]
    exact ⟨high, valueAt_append rest hhigh, h⟩
  · next hzero =>
    rw [if_neg hzero]
    exact h

/-! ## IDs -/

/-- A representation that records its own length. -/
def RecordsLength (rep : List UInt8) : Prop := recordedRepLength rep = some rep.length

instance (rep : List UInt8) : Decidable (RecordsLength rep) :=
  inferInstanceAs (Decidable (recordedRepLength rep = some rep.length))

theorem generateFormat3ServerID_eq {rep : List UInt8} (h : RecordsLength rep) :
    generateFormat3ServerID hash rep = some ([2, UInt8.ofNat (rep.length / 2 ^ 18)]
      ++ beBytes 2 (rep.length / 4) ++ beBytes 4 (hash rep).1.toNat
      ++ beBytes 4 (hash rep).2.toNat) := by
  rw [generateFormat3ServerID]
  refine bind_eq_of_eq_some h ?_
  rw [List.take_length]
  rfl

theorem uint32_toNat_inj {x y : UInt32} (h : beBytes 4 x.toNat = beBytes 4 y.toNat) : x = y := by
  have hmod := beBytes_inj h
  have hx := x.toNat_lt
  have hy := y.toNat_lt
  rw [Nat.mod_eq_of_lt (by omega), Nat.mod_eq_of_lt (by omega)] at hmod
  exact UInt32.toNat_inj.mp hmod

/-- Equal IDs have equal hashes. -/
theorem hash_eq_of_serverID {r s id : List UInt8} (hr : RecordsLength r) (hs : RecordsLength s)
    (hid : generateFormat3ServerID hash r = some id)
    (hid' : generateFormat3ServerID hash s = some id) : hash r = hash s := by
  rw [generateFormat3ServerID_eq hr, Option.some.injEq] at hid
  rw [generateFormat3ServerID_eq hs, Option.some.injEq, ← hid] at hid'
  obtain ⟨hfirst, hsecond⟩ := List.append_inj' hid' (by simp)
  obtain ⟨-, hfirst⟩ := List.append_inj' hfirst (by simp)
  exact Prod.ext (uint32_toNat_inj hfirst).symm (uint32_toNat_inj hsecond).symm

theorem idShortcut_self {rep id : List UInt8} (hr : RecordsLength rep)
    (hid : generateFormat3ServerID hash rep = some id) (signedIdentifier : Bool) :
    idShortcut signedIdentifier id id = true := by
  rw [generateFormat3ServerID_eq hr, Option.some.injEq] at hid
  have hversion : versionOfFormatID id = 0 ∨ versionOfFormatID id = 2 := by
    rw [versionOfFormatID, ← hid]
    split
    · exact Or.inl rfl
    · exact Or.inr rfl
  rw [idShortcut]
  rcases hversion with h | h
  · simp [h]
  · simp [h]

theorem length_serverID {rep id : List UInt8} (hr : RecordsLength rep)
    (hid : generateFormat3ServerID hash rep = some id) : id.length = 12 := by
  rw [generateFormat3ServerID_eq hr, Option.some.injEq] at hid
  rw [← hid]
  simp

/-! ## Names -/

theorem optInfoBlocks_take_le (os : List FMOptInfo) (k : Nat) :
    (optInfoBlocks (os.take k)).length ≤ (optInfoBlocks os).length := by
  have hsplit : optInfoBlocks os = optInfoBlocks (os.take k) ++ optInfoBlocks (os.drop k) := by
    rw [optInfoBlocks, optInfoBlocks, optInfoBlocks, ← List.flatMap_append, List.take_append_drop]
  rw [hsplit, List.length_append]
  omega

theorem offsetsFit_of_lt {f : FMFormatBody} (h : subformatRepSize f < 2 ^ 31) : OffsetsFit f := by
  rw [subformatRepSize_eq] at h
  refine ⟨by omega, fun k _ => ?_⟩
  have hle := optInfoBlocks_take_le f.optInfo k
  rw [firstBlockOffset]
  omega

/-- The name that a representation gives its format. -/
def repFormatName (rep : List UInt8) : Option CString :=
  (expandFormatFromRep rep).map (·.top.formatName)

theorem repFormatName_of_registered {columnMajor : Bool} {structList : List FMStructDesc}
    {f : FMFormat} {rep : List UInt8}
    (hf : registerFormats columnMajor ignoreDefaultValues structList = some f)
    (hrep : buildServerFormatRep f = some rep) (hshort : rep.length < 2 ^ 16) :
    repFormatName rep = some f.top.formatName := by
  have hlength : rep.length = formatRepSize f := by
    rw [buildServerFormatRep] at hrep
    split at hrep
    · cases hrep
    · rw [← Option.some.inj hrep, length_formatRep]
  have hfit : ∀ b ∈ f.bodies, OffsetsFit b := by
    intro b hb
    have := subformatRepSize_le hb
    exact offsetsFit_of_lt (by omega)
  obtain ⟨rep', -, hrep', hexpand, -⟩ := repRoundTrips_of_registered hf hfit (by omega)
  rw [hrep, Option.some.injEq] at hrep'
  rw [repFormatName, hrep', hexpand]
  rfl

/-- A loaded format has the name of its representation, whatever was in memory. -/
theorem repFormatName_of_expand {rep : List UInt8} {f : FMFormat}
    (h : expandFormatFromRep rep = some f) (memory : FMFormat) :
    repFormatName rep =
      some ((deriveLoaded f).getD (memory.leftWith f)).top.formatName := by
  rw [repFormatName, h, Option.map_some]
  cases hderive : deriveLoaded f with
  | none => rfl
  | some g => exact congrArg some (congrArg FMFormatBody.formatName (deriveLoaded_top hderive)).symm

/-! ## The invariant -/

/-- What the entries of a context have in common, `reps` being the representations that
were presented so far. -/
structure EntryInv (hash : List UInt8 → UInt32 × UInt32) (reps : List (List UInt8))
    (entry : StoredFormat) : Prop where
  presented : entry.serverFormatRep ∈ reps
  records : RecordsLength entry.serverFormatRep
  serverID : generateFormat3ServerID hash entry.serverFormatRep = some entry.serverID
  named : entry.serverFormatRep.length < 2 ^ 16 →
    repFormatName entry.serverFormatRep = some entry.format.top.formatName

structure StoreInv (hash : List UInt8 → UInt32 × UInt32) (reps : List (List UInt8))
    (context : FMContext) : Prop where
  entries : ∀ entry ∈ context.formatList, EntryInv hash reps entry
  index : context.formatList.map (·.formatIndex) = List.range context.formatList.length
  distinct : (context.formatList.map (·.serverFormatRep)).Nodup

theorem StoreInv.rep_inj {reps : List (List UInt8)} {context : FMContext}
    (h : StoreInv hash reps context) {e e' : StoredFormat} (he : e ∈ context.formatList)
    (he' : e' ∈ context.formatList) (hrep : e.serverFormatRep = e'.serverFormatRep) : e = e' :=
  List.inj_on_of_nodup_map h.distinct he he' hrep

/-- Entering a representation that is not there yet. -/
theorem StoreInv.enter {reps : List (List UInt8)} {context : FMContext}
    (h : StoreInv hash reps context) {format : FMFormat} {rep id : List UInt8} {loaded : Bool}
    (hentry : EntryInv hash reps (context.enter format rep id loaded).2)
    (hnew : ∀ e ∈ context.formatList, e.serverFormatRep ≠ rep) :
    StoreInv hash reps (context.enter format rep id loaded).1 := by
  refine ⟨?_, ?_, ?_⟩
  · intro entry he
    rcases List.mem_append.mp he with he | he
    · exact h.entries entry he
    · rw [List.mem_singleton.mp he]
      exact hentry
  · simp only [FMContext.enter, List.map_append, List.length_append, h.index, List.map_cons,
      List.map_nil, List.length_cons, List.length_nil, List.range_succ]
  · simp only [FMContext.enter, List.map_append, List.map_cons, List.map_nil]
    refine List.nodup_append.mpr ⟨h.distinct, List.nodup_singleton _, ?_⟩
    rintro r hr s hs rfl
    rw [List.mem_singleton] at hs
    obtain ⟨e, he, rfl⟩ := List.mem_map.mp hr
    exact hnew e he hs

/-! ## The two searches -/

/-- Different representations that are presented have different hashes. -/
def HashDistinct (hash : List UInt8 → UInt32 × UInt32) (reps : List (List UInt8)) : Prop :=
  ∀ r ∈ reps, ∀ s ∈ reps, hash r = hash s → r = s

theorem searchByID_of_rep {reps : List (List UInt8)} {context : FMContext}
    (h : StoreInv hash reps context) (hdistinct : HashDistinct hash reps) {entry : StoredFormat}
    (hentry : entry ∈ context.formatList) (signedIdentifier : Bool) :
    searchByID signedIdentifier context entry.serverID = some entry := by
  have hinv := h.entries entry hentry
  refine find?_eq_some_of_unique (List.mem_reverse.mpr hentry) ?_ ?_
  · rw [idShortcut_self hinv.records hinv.serverID]
    simp
  · intro e he hmatch
    have he' := List.mem_reverse.mp he
    have hinv' := h.entries e he'
    have hlength := length_serverID hinv.records hinv.serverID
    have hlength' := length_serverID hinv'.records hinv'.serverID
    simp only [Bool.and_eq_true, decide_eq_true_eq] at hmatch
    have hid : entry.serverID = e.serverID := by
      rw [← hmatch.2, hlength', ← hlength, List.take_length]
    have hhash := hash_eq_of_serverID hinv'.records hinv.records hinv'.serverID
      (hid ▸ hinv.serverID)
    exact h.rep_inj he' hentry
      (hdistinct _ hinv'.presented _ hinv.presented hhash)

theorem valueAt_of_recordsLength {rep : List UInt8} (hrep : RecordsLength rep)
    (hshort : rep.length < 2 ^ 16) : valueAt true rep 0 2 = some rep.length := by
  simp only [RecordsLength, recordedRepLength, lengthAt, Option.bind_eq_bind,
    Option.bind_eq_some_iff] at hrep
  obtain ⟨low, hlow, v, -, hsum⟩ := hrep
  have hlength : low = rep.length := by
    split at hsum
    · simp only [Option.bind_eq_some_iff, Option.pure_def, Option.some.injEq] at hsum
      obtain ⟨high, -, hsum⟩ := hsum
      omega
    · simpa using hsum
  rw [hlow, hlength]

/-- A representation shorter than 64 KiB matches itself and nothing else. -/
theorem compatibleRep_iff {rep entryRep : List UInt8} (hrep : RecordsLength rep)
    (hentry : RecordsLength entryRep) (hshort : rep.length < 2 ^ 16) :
    compatibleRep rep.length rep entryRep = true ↔ entryRep = rep := by
  rw [compatibleRep, Bool.and_eq_true, decide_eq_true_eq, decide_eq_true_eq, List.take_length]
  constructor
  · rintro ⟨-, hhead⟩
    have hsplit : entryRep = rep ++ entryRep.drop rep.length := by
      conv_lhs => rw [← List.take_append_drop rep.length entryRep, ← hhead]
    have hlength := recordedRepLength_append (entryRep.drop rep.length) hrep
    rw [← hsplit, hentry, Option.some.injEq] at hlength
    rw [hhead, ← hlength, List.take_length]
  · rintro rfl
    exact ⟨valueAt_of_recordsLength hrep hshort, List.take_length.symm⟩

/-- The search by representation finds what is there. -/
theorem searchCompatibleFormats_of_rep {reps : List (List UInt8)} {context : FMContext}
    (h : StoreInv hash reps context) {entry : StoredFormat} (hentry : entry ∈ context.formatList)
    {formatName : CString} {rep : List UInt8} (hrep : RecordsLength rep)
    (hshort : rep.length < 2 ^ 16) (hname : repFormatName rep = some formatName)
    (heq : entry.serverFormatRep = rep) :
    searchCompatibleFormats context formatName rep = some entry := by
  have hinv := h.entries entry hentry
  have hnamed : entry.format.top.formatName = formatName := by
    have := hinv.named (by rw [heq]; exact hshort)
    rw [heq, hname, Option.some.injEq] at this
    exact this.symm
  refine bind_eq_of_eq_some hrep (find?_eq_some_of_unique hentry ?_ ?_)
  · rw [Bool.and_eq_true, decide_eq_true_eq, compatibleRep_iff hrep hinv.records hshort]
    exact ⟨hnamed, heq⟩
  · intro e he hmatch
    rw [Bool.and_eq_true, compatibleRep_iff hrep (h.entries e he).records hshort] at hmatch
    exact h.rep_inj he hentry (hmatch.2.trans heq.symm)

/-! ## Calls -/

/-- What a call may present.  A registration presents no representation of 64 KiB or more
that is there already, and what is loaded carries the ID of its representation. -/
structure CallOk (hash : List UInt8 → UInt32 × UInt32) (context : FMContext) (call : ContextCall)
    (rep : List UInt8) : Prop where
  records : RecordsLength rep
  registered : ∀ structList, call = .register structList →
    rep.length < 2 ^ 16 ∨ ∀ e ∈ context.formatList, e.serverFormatRep ≠ rep
  loaded : ∀ id rep' memory, call = .load id rep' memory →
    generateFormat3ServerID hash rep = some id ∧ (expandFormatFromRep rep).isSome = true

theorem registerDataFormat_inv {reps : List (List UInt8)} {context context' : FMContext}
    (h : StoreInv hash reps context) {structList : List FMStructDesc} {entry : StoredFormat}
    (hresult : registerDataFormat hash ignoreDefaultValues context structList =
      some (context', entry))
    (hok : ∀ rep ∈ (ContextCall.register structList).rep ignoreDefaultValues context,
      rep ∈ reps ∧ CallOk hash context (.register structList) rep) :
    StoreInv hash reps context' := by
  simp only [registerDataFormat, Option.bind_eq_bind, Option.bind_eq_some_iff] at hresult
  obtain ⟨format, hformat, rep, hrep, hresult⟩ := hresult
  obtain ⟨hmem, hcall⟩ := hok rep (by simp [ContextCall.rep, hformat, hrep])
  split at hresult
  · simp only [Option.pure_def, Option.some.injEq, Prod.mk.injEq] at hresult
    exact hresult.1 ▸ h
  · next hnone =>
    simp only [Option.bind_eq_some_iff, Option.pure_def, Option.some.injEq] at hresult
    obtain ⟨id, hid, hresult⟩ := hresult
    have hcontext : (context.enter format rep id false).1 = context' := congrArg Prod.fst hresult
    rw [← hcontext]
    refine h.enter ⟨hmem, hcall.records, hid, fun hshort =>
      repFormatName_of_registered hformat hrep hshort⟩ ?_
    rcases hcall.registered structList rfl with hshort | hnew
    · intro e he heq
      rw [searchCompatibleFormats_of_rep h he hcall.records hshort
        (repFormatName_of_registered hformat hrep hshort) heq] at hnone
      cases hnone
    · exact hnew

theorem loadExternalFormat_inv {reps : List (List UInt8)} {context context' : FMContext}
    (h : StoreInv hash reps context) (hdistinct : HashDistinct hash reps) {id rep : List UInt8}
    {memory : FMFormat} {entry : StoredFormat}
    (hresult : loadExternalFormat memory context id rep = some (context', entry))
    (hmem : rep ∈ reps) (hok : CallOk hash context (.load id rep memory) rep) :
    StoreInv hash reps context' := by
  rw [loadExternalFormat] at hresult
  split at hresult
  · simp only [Option.some.injEq, Prod.mk.injEq] at hresult
    exact hresult.1 ▸ h
  · next hnone =>
    simp only [Option.map_eq_some_iff] at hresult
    obtain ⟨f, hexpand, hresult⟩ := hresult
    have hcontext : (context.enter ((deriveLoaded f).getD (memory.leftWith f)) rep id true).1 =
        context' := congrArg Prod.fst hresult
    have hid := (hok.loaded id rep memory rfl).1
    rw [← hcontext]
    refine h.enter ⟨hmem, hok.records, hid, fun _ => repFormatName_of_expand hexpand memory⟩ ?_
    intro e he heq
    have hinv := h.entries e he
    have hids : e.serverID = id := by
      have := hinv.serverID
      rw [heq, hid, Option.some.injEq] at this
      exact this.symm
    rw [getLocalFormat, ← hids, searchByID_of_rep h hdistinct he] at hnone
    cases hnone

/-! ## Runs -/

/-- The calls of a run, one after another, and the representations they present. -/
def runContext (hash : List UInt8 → UInt32 × UInt32) (ignoreDefaultValues : Bool)
    (context : FMContext) (calls : List ContextCall) : FMContext :=
  calls.foldl (ContextCall.apply hash ignoreDefaultValues) context

def presentedReps (hash : List UInt8 → UInt32 × UInt32) (ignoreDefaultValues : Bool) :
    FMContext → List ContextCall → List (List UInt8)
  | _, [] => []
  | context, call :: calls =>
    (call.rep ignoreDefaultValues context).toList ++
      presentedReps hash ignoreDefaultValues (call.apply hash ignoreDefaultValues context) calls

/-- Every call of a run presents what it may. -/
def RunOk (hash : List UInt8 → UInt32 × UInt32) (ignoreDefaultValues : Bool) :
    FMContext → List ContextCall → Prop
  | _, [] => True
  | context, call :: calls =>
    (∀ rep ∈ call.rep ignoreDefaultValues context, CallOk hash context call rep) ∧
      RunOk hash ignoreDefaultValues (call.apply hash ignoreDefaultValues context) calls

theorem apply_inv {reps : List (List UInt8)} {context : FMContext} (h : StoreInv hash reps context)
    (hdistinct : HashDistinct hash reps) {call : ContextCall}
    (hok : ∀ rep ∈ call.rep ignoreDefaultValues context, rep ∈ reps ∧ CallOk hash context call rep) :
    StoreInv hash reps (call.apply hash ignoreDefaultValues context) := by
  cases call with
  | register structList =>
    rw [ContextCall.apply]
    cases hresult : registerDataFormat hash ignoreDefaultValues context structList with
    | none => exact h
    | some result => exact registerDataFormat_inv h hresult hok
  | load id rep memory =>
    rw [ContextCall.apply]
    obtain ⟨hmem, hcall⟩ := hok rep rfl
    cases hresult : loadExternalFormat memory context id rep with
    | none => exact h
    | some result => exact loadExternalFormat_inv h hdistinct hresult hmem hcall

theorem runContext_inv {reps : List (List UInt8)} {context : FMContext}
    (h : StoreInv hash reps context) (hdistinct : HashDistinct hash reps)
    {calls : List ContextCall}
    (hreps : presentedReps hash ignoreDefaultValues context calls ⊆ reps)
    (hok : RunOk hash ignoreDefaultValues context calls) :
    StoreInv hash reps (runContext hash ignoreDefaultValues context calls) := by
  induction calls generalizing context with
  | nil => exact h
  | cons call calls ih =>
    rw [presentedReps, List.append_subset] at hreps
    obtain ⟨hcall, hrest⟩ := hok
    refine ih (apply_inv h hdistinct fun rep hrep => ⟨?_, hcall rep hrep⟩) hreps.2 hrest
    exact hreps.1 (Option.mem_toList.mpr hrep)

/-- The formats of a context are in their places, all different, and found again: by their
IDs, and by registering a struct list whose representation is there. -/
structure ContextOk (hash : List UInt8 → UInt32 × UInt32) (ignoreDefaultValues : Bool)
    (context : FMContext) : Prop where
  index : ∀ (i : Nat) (e : StoredFormat), context.formatList[i]? = some e → e.formatIndex = i
  distinct : ∀ (i j : Nat) (e e' : StoredFormat), context.formatList[i]? = some e → context.formatList[j]? = some e' →
    e.format.top.formatName = e'.format.top.formatName →
    e.serverFormatRep = e'.serverFormatRep → i = j
  byID : ∀ e ∈ context.formatList, formatFromID context e.serverID = some e
  again : ∀ structList rep,
    (ContextCall.register structList).rep ignoreDefaultValues context = some rep →
    rep.length < 2 ^ 16 → ∀ e ∈ context.formatList, e.serverFormatRep = rep →
    registerDataFormat hash ignoreDefaultValues context structList = some (context, e)

theorem StoreInv.contextOk {reps : List (List UInt8)} {context : FMContext}
    (h : StoreInv hash reps context) (hdistinct : HashDistinct hash reps) :
    ContextOk hash ignoreDefaultValues context := by
  refine ⟨?_, ?_, fun e he => searchByID_of_rep h hdistinct he false, ?_⟩
  · intro i e he
    have hindex := congrArg (·[i]?) h.index
    have hlt := (List.getElem?_eq_some_iff.mp he).1
    simp only [List.getElem?_map, he, Option.map_some, List.getElem?_range hlt,
      Option.some.injEq] at hindex
    exact hindex
  · intro i j e e' he he' _ hrep
    have hi := (List.getElem?_eq_some_iff.mp he).1
    refine (List.getElem?_inj (by simpa using hi) h.distinct).mp ?_
    rw [List.getElem?_map, List.getElem?_map, he, he', Option.map_some, Option.map_some, hrep]
  · intro structList rep hcall hshort e he heq
    simp only [ContextCall.rep, Option.bind_eq_some_iff] at hcall
    obtain ⟨format, hformat, hrep⟩ := hcall
    have hrecords : RecordsLength rep := heq ▸ (h.entries e he).records
    have hsearch := searchCompatibleFormats_of_rep h he hrecords hshort
      (repFormatName_of_registered hformat hrep hshort) heq
    refine bind_eq_of_eq_some hformat (bind_eq_of_eq_some hrep ?_)
    rw [hsearch]
    rfl

/-- An empty context that serves itself. -/
def newContext (columnMajor : Bool) : FMContext :=
  { formatList := [], nativeColumnMajorArrays := columnMajor }

/-- Calls with representations shorter than 64 KiB are good, when loads carry their IDs. -/
theorem runOk_of_short {calls : List ContextCall} {context : FMContext}
    (hload : ∀ id rep memory, .load id rep memory ∈ calls →
      generateFormat3ServerID hash rep = some id ∧ (expandFormatFromRep rep).isSome = true)
    (hshort : ∀ rep ∈ presentedReps hash ignoreDefaultValues context calls,
      RecordsLength rep ∧ rep.length < 2 ^ 16) :
    RunOk hash ignoreDefaultValues context calls := by
  induction calls generalizing context with
  | nil => trivial
  | cons call calls ih =>
    rw [presentedReps] at hshort
    refine ⟨fun rep hrep => ?_, ih
      (fun id rep memory hc => hload id rep memory (List.mem_cons_of_mem _ hc))
      fun rep hrep => hshort rep (List.mem_append_right _ hrep)⟩
    have hok := hshort rep (List.mem_append_left _ (Option.mem_toList.mpr hrep))
    refine ⟨hok.1, fun _ _ => Or.inl hok.2, fun id rep' memory hcall => ?_⟩
    subst hcall
    cases hrep
    exact hload id rep memory List.mem_cons_self

def referenceField (fieldType : CString) : FMField where
  fieldName := cstr ['r'] (.refl false)
  fieldType := fieldType
  fieldSize := 8
  fieldOffset := 0

/-- Two formats that refer to each other. -/
def loopList : List FMStructDesc :=
  [{ formatName := cstr ['a'] (.refl false),
     fieldList := [referenceField (cstr ['*', 'b'] (.refl false))], structSize := 8, optInfo := [] },
   { formatName := cstr ['b'] (.refl false),
     fieldList := [referenceField (cstr ['*', 'a'] (.refl false))], structSize := 8, optInfo := [] }]

def loopRep : List UInt8 :=
  ((registerFormats false false loopList).bind buildServerFormatRep).getD []

/-- Two formats that differ in their names, and one whose subformat refers back to it, so that the
field of that cannot be derived when it is loaded. -/
def pointCalls : List ContextCall :=
  [.register (pointList (cstr ['p'] (.refl false)) []),
   .register (pointList (cstr ['q'] (.refl false)) []),
   .load ((generateFormat3ServerID hashlittle2 loopRep).getD []) loopRep
     { top := pointFormat (cstr ['p'] (.refl false)) [], subformats := [] }]

/-- The search never finds a representation of 64 KiB or more. -/
theorem searchCompatibleFormats_of_long {context : FMContext} {formatName : CString}
    {rep : List UInt8} {n : Nat} (hn : recordedRepLength rep = some n) (hlong : 2 ^ 16 ≤ n) :
    searchCompatibleFormats context formatName rep = none := by
  refine bind_eq_of_eq_some hn (List.find?_eq_none.mpr fun e _ hmatch => ?_)
  rw [Bool.and_eq_true, compatibleRep, Bool.and_eq_true, decide_eq_true_eq, decide_eq_true_eq]
    at hmatch
  have hlt := valueAt_lt hmatch.2.1
  omega

/-- A format with a long representation is entered whatever is in the list. -/
theorem registerDataFormat_of_long {context : FMContext} {structList : List FMStructDesc}
    {format : FMFormat} {rep : List UInt8} {n : Nat}
    (hformat : registerFormats context.nativeColumnMajorArrays ignoreDefaultValues structList =
      some format)
    (hrep : buildServerFormatRep format = some rep) (hn : recordedRepLength rep = some n)
    (hlong : 2 ^ 16 ≤ n) :
    ∃ id, registerDataFormat hash ignoreDefaultValues context structList =
      some (context.enter format rep id false) := by
  obtain ⟨id, hid⟩ : ∃ id, generateFormat3ServerID hash rep = some id :=
    ⟨_, bind_eq_of_eq_some hn rfl⟩
  refine ⟨id, bind_eq_of_eq_some hformat (bind_eq_of_eq_some hrep ?_)⟩
  rw [searchCompatibleFormats_of_long hn hlong]
  exact bind_eq_of_eq_some hid rfl

/-- Registering it twice enters it twice. -/
theorem registerTwice_not_contextOk {columnMajor : Bool} {structList : List FMStructDesc}
    {format : FMFormat} {rep : List UInt8} {n : Nat}
    (hformat : registerFormats columnMajor ignoreDefaultValues structList = some format)
    (hrep : buildServerFormatRep format = some rep) (hn : recordedRepLength rep = some n)
    (hlong : 2 ^ 16 ≤ n) :
    ¬ ContextOk hash ignoreDefaultValues (runContext hash ignoreDefaultValues
      (newContext columnMajor) [.register structList, .register structList]) := by
  intro hok
  have henter : ∀ context : FMContext, context.nativeColumnMajorArrays = columnMajor →
      ∃ id, registerDataFormat hash ignoreDefaultValues context structList =
        some (context.enter format rep id false) := by
    rintro context rfl
    exact registerDataFormat_of_long hformat hrep hn hlong
  obtain ⟨id, hfirst⟩ := henter (newContext columnMajor) rfl
  obtain ⟨id', hsecond⟩ := henter ((newContext columnMajor).enter format rep id false).1 rfl
  simp only [runContext, List.foldl_cons, List.foldl_nil, ContextCall.apply, hfirst,
    Option.map_some, Option.getD_some, hsecond] at hok
  have := hok.distinct 0 1 _ _ rfl rfl rfl rfl
  omega

theorem apply_nativeColumnMajorArrays (context : FMContext) (call : ContextCall) :
    (call.apply hash ignoreDefaultValues context).nativeColumnMajorArrays =
      context.nativeColumnMajorArrays := by
  have henter : ∀ (result : Option (FMContext × StoredFormat)),
      (∀ c ∈ result, c.1.nativeColumnMajorArrays = context.nativeColumnMajorArrays) →
      ((result.map Prod.fst).getD context).nativeColumnMajorArrays =
        context.nativeColumnMajorArrays := by
    intro result hresult
    cases result with
    | none => rfl
    | some c => exact hresult c rfl
  cases call with
  | register structList =>
    refine henter _ fun c hc => ?_
    simp only [registerDataFormat, Option.bind_eq_bind, Option.mem_def,
      Option.bind_eq_some_iff] at hc
    obtain ⟨format, -, rep, -, hc⟩ := hc
    split at hc
    · exact (congrArg (·.1.nativeColumnMajorArrays) (Option.some.inj hc)).symm
    · simp only [Option.bind_eq_some_iff, Option.pure_def, Option.some.injEq] at hc
      obtain ⟨id, -, rfl⟩ := hc
      rfl
  | load id rep memory =>
    refine henter _ fun c hc => ?_
    replace hc : loadExternalFormat memory context id rep = some c := hc
    rw [loadExternalFormat] at hc
    split at hc
    · exact (congrArg (·.1.nativeColumnMajorArrays) (Option.some.inj hc)).symm
    · obtain ⟨format, -, rfl⟩ := Option.map_eq_some_iff.mp hc
      rfl

/-- A struct list that is registered again presents the same representation. -/
theorem rep_of_mem_presentedReps {structList : List FMStructDesc} {calls : List ContextCall}
    {context : FMContext} (hcalls : ∀ call ∈ calls, call = .register structList) {rep : List UInt8}
    (hrep : rep ∈ presentedReps hash ignoreDefaultValues context calls) :
    (ContextCall.register structList).rep ignoreDefaultValues context = some rep := by
  induction calls generalizing context with
  | nil => cases hrep
  | cons call calls ih =>
    rw [presentedReps] at hrep
    obtain rfl := hcalls call List.mem_cons_self
    rcases List.mem_append.mp hrep with hrep | hrep
    · exact Option.mem_toList.mp hrep
    · have hnext := ih (fun c hc => hcalls c (List.mem_cons_of_mem _ hc)) hrep
      rw [ContextCall.rep, apply_nativeColumnMajorArrays] at hnext
      exact hnext

theorem formatRepSize_point (name : CString) :
    formatRepSize { top := pointFormat name [], subformats := [] } =
      roundUp4 (name.length + 55) + 20 := by
  have hfields : (pointFields.map fun f => f.fieldName.length + 1 + (f.fieldType.length + 1)).sum =
      10 := rfl
  simp only [formatRepSize, FMFormat.bodies, List.map_cons, List.map_nil, List.sum_cons,
    List.sum_nil, subformatRepSize, pointFormat, List.foldl_nil, hfields, fieldWireSize,
    subformatWireSize, formatWireSize, optInfoWireSize, List.length_nil]
  have hcount : pointFields.length = 1 := rfl
  rw [hcount, show 16 * 1 + (name.length + 1) + 10 + 28 = name.length + 55 by omega]
  omega

theorem registerTwice_of_longName {name : CString} (hlong : 2 ^ 16 ≤ name.length)
    (hlt : name.length < 2 ^ 31) :
    HashDistinct hash (presentedReps hash false (newContext false)
      [.register (pointList name []), .register (pointList name [])]) ∧
    ¬ ContextOk hash false (runContext hash false (newContext false)
      [.register (pointList name []), .register (pointList name [])]) := by
  have hsize := formatRepSize_point name
  have hround := le_roundUp4 (name.length + 55)
  have hroundLt : roundUp4 (name.length + 55) < name.length + 59 := by
    unfold roundUp4
    omega
  have hformat := registerFormats_pointList name []
  have hn := recordedRepLength_rep (f := { top := pointFormat name [], subformats := [] })
    (List.flatMap subformatRep [pointFormat name []]) (by omega)
  constructor
  · have hcalls : ∀ call ∈ [ContextCall.register (pointList name []),
        ContextCall.register (pointList name [])], call = .register (pointList name []) := by simp
    intro r hr s hs _
    exact Option.some.inj
      ((rep_of_mem_presentedReps hcalls hr).symm.trans (rep_of_mem_presentedReps hcalls hs))
  · exact registerTwice_not_contextOk hformat (if_neg (Nat.not_succ_le_zero 99)) hn (by omega)

/-- A name of 64 KiB. -/
def longName : CString :=
  { bytes := List.replicate (2 ^ 16) (chr 'a'),
    noNul := fun h => absurd (List.mem_replicate.mp h).2 (by decide) }

theorem length_longName : longName.length = 2 ^ 16 := List.length_replicate

end FFS
