import FFS.FM.Hash
import FFS.FM.ContextStore
import FFS.Server.Serving

/-!
# The integrity of the server's list

The server keeps the blocks that its clients send it as they are.  What the search of the
list and the fetches rely on is that a block holds the bytes that its own length field
states.  The conditions here say which requests keep that: a handler meets them exactly when
it stays within its blocks and what it enters is sound.
-/

namespace FFS

open Machine

variable {hash : List UInt8 → UInt32 × UInt32}

/-- The representation has the bytes that its own length field states. -/
def HoldsLength (rep : List UInt8) : Prop := ∃ n, repLength rep = some n ∧ n ≤ rep.length

/-- The representation is as long as it says, and an ID of version 2 is the one computed from
it. -/
structure IOFormatRep.Integral (hash : List UInt8 → UInt32 × UInt32) (entry : IOFormatRep) :
    Prop where
  holds : HoldsLength entry.serverFormatRep
  generated : versionOfServerID entry.serverID = some 2 →
    generatedServerID hash entry.serverFormatRep = entry.serverID

/-- Every ID is long enough to have a version. -/
def FormatServer.Readable (fs : FormatServer) : Prop :=
  ∀ entry ∈ fs.formats, ∃ v, versionOfServerID entry.serverID = some v

structure FormatServer.Integral (hash : List UInt8 → UInt32 × UInt32) (fs : FormatServer) :
    Prop where
  entries : ∀ entry ∈ fs.formats, entry.Integral hash
  readable : fs.Readable

theorem repLength_iff {rep : List UInt8} {n : Nat} :
    repLength rep = some n ↔ 2 ≤ rep.length ∧ n < 2 ^ 16 ∧ rep.take 2 = beBytes 2 n := by
  constructor
  · intro h
    have htwo : 2 ≤ rep.length := by
      by_contra hlt
      rw [repLength, valueAt, span, if_neg (by omega)] at h
      cases h
    refine ⟨htwo, valueAt_lt h, ?_⟩
    rw [repLength, valueAt, span, if_pos (by omega), Option.map_some, Option.some.injEq] at h
    have hlength : (rep.take 2).length = 2 := List.length_take_of_le htwo
    have hbytes := beBytes_beValue (rep.take 2)
    rw [hlength] at hbytes
    rw [← hbytes, ← h]
    rfl
  · intro h
    obtain ⟨htwo, hn, hhead⟩ := h
    rw [repLength, valueAt, span, if_pos (by omega), List.drop_zero, hhead]
    exact congrArg some ((beValue_beBytes 2 n).trans (Nat.mod_eq_of_lt hn))

/-! ## The search -/

theorem formatEq_isSome {id rep : Option (List UInt8)} {entry : IOFormatRep}
    (hrep : ∀ r, rep = some r → HoldsLength r) (hentry : HoldsLength entry.serverFormatRep) :
    ∃ b, formatEq id rep entry = some b := by
  by_cases hlength : id.getD [] ≠ [] ∧ (id.getD []).length ≠ entry.idLength
  · exact ⟨false, by unfold formatEq; rw [if_pos hlength]⟩
  · by_cases hsame : (id.getD []).any (· ≠ 0) ∧ id.getD [] = entry.serverID.getD []
    · exact ⟨true, by unfold formatEq; rw [if_neg hlength, if_pos hsame]⟩
    · unfold formatEq
      rw [if_neg hlength, if_neg hsame]
      cases rep with
      | none => exact ⟨false, rfl⟩
      | some r =>
        obtain ⟨n, hn, hle⟩ := hrep r rfl
        obtain ⟨m, hm, hmle⟩ := hentry
        simp only [hn, hm, Option.bind_eq_bind, Option.bind_some]
        by_cases hne : n ≠ m
        · exact ⟨false, if_pos hne⟩
        · rw [if_neg hne]
          have hnm : n = m := not_not.mp hne
          rw [span, span, if_pos (by omega), if_pos (by omega)]
          exact ⟨_, rfl⟩

/-- An entry that is equal has an ID of the same length. -/
theorem idLength_of_formatEq {value : List UInt8} {rep : Option (List UInt8)}
    {entry : IOFormatRep} (hvalue : value ≠ []) (h : formatEq (some value) rep entry = some true) :
    entry.idLength = value.length := by
  unfold formatEq at h
  by_contra hne
  rw [if_pos ⟨hvalue, fun heq => hne heq.symm⟩] at h
  cases h

theorem ne_nil_of_versionOfServerID {value : List UInt8} {v : Int}
    (h : versionOfServerID (some value) = some v) : value ≠ [] := by
  intro hnil
  subst hnil
  cases h

theorem searchFormats_isSome {id rep : Option (List UInt8)} {version : Int}
    {formats : List IOFormatRep} (hid : ∃ v, versionOfServerID id = some v)
    (hrep : ∀ r, rep = some r → HoldsLength r)
    (hformats : ∀ entry ∈ formats, HoldsLength entry.serverFormatRep)
    (hreadable : ∀ entry ∈ formats, ∃ v, versionOfServerID entry.serverID = some v) :
    ∃ found, searchFormats id rep version formats = some found := by
  induction formats with
  | nil => exact ⟨none, rfl⟩
  | cons entry rest ih =>
    obtain ⟨v, hv⟩ := hreadable entry List.mem_cons_self
    obtain ⟨b, hb⟩ := @formatEq_isSome id rep entry hrep (hformats entry List.mem_cons_self)
    rw [searchFormats]
    simp only [hv, hb, Option.bind_eq_bind, Option.bind_some]
    by_cases hfound : b = true ∧ version = v
    · rw [if_pos hfound]
      have hguard : (id.all fun value => decide (entry.idLength ≤ value.length)) = true := by
        cases id with
        | none => rfl
        | some value =>
          obtain ⟨w, hw⟩ := hid
          have hlength := idLength_of_formatEq (ne_nil_of_versionOfServerID hw) (hfound.1 ▸ hb)
          simp [hlength]
      simp [hguard]
    · rw [if_neg hfound]
      exact ih (fun e he => hformats e (List.mem_cons_of_mem _ he))
        fun e he => hreadable e (List.mem_cons_of_mem _ he)

theorem mem_of_searchFormats {id rep : Option (List UInt8)} {version : Int}
    {formats : List IOFormatRep} {entry : IOFormatRep}
    (h : searchFormats id rep version formats = some (some entry)) : entry ∈ formats := by
  induction formats with
  | nil => cases h
  | cons e rest ih =>
    simp only [searchFormats, Option.bind_eq_bind, Option.bind_eq_some_iff] at h
    obtain ⟨v, -, b, -, h⟩ := h
    split at h
    · simp only [Option.bind_eq_some_iff, Option.guard_eq_some', Option.pure_def,
        Option.some.injEq, exists_const] at h
      exact h.2 ▸ List.mem_cons_self
    · exact List.mem_cons_of_mem _ (ih h)

/-- Without a representation only an ID that is not all zero can be equal. -/
theorem formatEq_id {value : List UInt8} {entry : IOFormatRep} (hvalue : value ≠ []) :
    formatEq (some value) none entry =
      some (decide (entry.serverID = some value ∧ ∃ b ∈ value, b ≠ 0)) := by
  have hgetD : value = entry.serverID.getD [] ↔ entry.serverID = some value := by
    cases entry.serverID with
    | none => simpa using hvalue
    | some id => simp [eq_comm]
  unfold formatEq
  by_cases heq : entry.serverID = some value
  · by_cases hany : ∃ b ∈ value, b ≠ 0
    · rw [decide_eq_true ⟨heq, hany⟩]
      simpa [heq, IOFormatRep.idLength] using hany
    · rw [decide_eq_false (fun h => hany h.2)]
      simpa [heq, IOFormatRep.idLength] using hany
  · have hne : ¬ value = entry.serverID.getD [] := fun h => heq (hgetD.mp h)
    by_cases hlength : value ≠ [] ∧ value.length ≠ entry.idLength <;> simp [heq, hne, hlength]

/-- The search by ID alone. -/
theorem searchFormats_id {formats : List IOFormatRep} {value : List UInt8} {version : Int}
    (hreadable : ∀ entry ∈ formats, ∃ v, versionOfServerID entry.serverID = some v)
    (hversion : versionOfServerID (some value) = some version) :
    searchFormats (some value) none version formats =
      some (formats.find? fun entry => entry.serverID = some value ∧ ∃ b ∈ value, b ≠ 0) := by
  have hvalue := ne_nil_of_versionOfServerID hversion
  induction formats with
  | nil => rfl
  | cons entry rest ih =>
    obtain ⟨v, hv⟩ := hreadable entry List.mem_cons_self
    have hrest := ih fun e he => hreadable e (List.mem_cons_of_mem _ he)
    simp only [searchFormats, hv, formatEq_id hvalue, Option.bind_eq_bind, Option.bind_some,
      decide_eq_true_eq, List.find?_cons]
    by_cases hequal : entry.serverID = some value ∧ ∃ b ∈ value, b ≠ 0
    · have hsame : version = v := by
        rw [hequal.1, hversion, Option.some.injEq] at hv
        exact hv
      simp only [hequal, hsame, ne_eq, and_self, if_true, decide_true]
      simp [IOFormatRep.idLength, hequal.1]
    · rw [if_neg (fun h => hequal h.1), hrest, decide_eq_false hequal]

/-! ## Conditions on requests -/

/-- The list has a format that the server takes for the one asked for. -/
def FormatServer.Knows (fs : FormatServer) (id rep : Option (List UInt8)) (version : Int) :
    Prop := ∃ entry, searchFormats id rep version fs.formats = some (some entry)

/-- What holds of the next bytes and of those behind them once they have arrived. -/
def Arrived (n : Nat) (input : List UInt8) (P : List UInt8 → List UInt8 → Prop) : Prop :=
  n ≤ input.length → P (input.take n) (input.drop n)

/-- The length of the whole representation as `generate_format3_server_ID` computes it is
within the block. -/
def HoldsWhole (rep : List UInt8) : Prop := ∃ n, recordedRepLength rep = some n ∧ n ≤ rep.length

/-- The block of a registration has room for its length, and a representation that gets an ID
of version 2 has all the bytes that are hashed. -/
def RegisterMeets (fs : FormatServer) : List UInt8 → Prop
  | [] => True
  | version :: input => charValue version ≤ 2 →
    Arrived 2 input fun length input => 2 ≤ beValue length ∧
      Arrived (beValue length - 2) input fun body _ =>
        charValue version = 2 →
          fs.Knows none (some (length ++ body)) 2 ∨ HoldsWhole (length ++ body)

/-- A pushed ID is long enough to have a version.  A pushed representation that the server does
not have has the bytes that it says, it can be hashed and the ID compared when the push is of
version 2, and an ID of version 2 is the right one. -/
def PushMeets (hash : List UInt8 → UInt32 × UInt32) (fs : FormatServer) : List UInt8 → Prop
  | [] => True
  | version :: input => 1 < charValue version →
    Arrived 2 input fun idLength input => Arrived (beValue idLength) input fun id input =>
      Arrived 2 input fun length input => 2 ≤ beValue length ∧
        Arrived (beValue length) input fun rep _ =>
          (∃ v, versionOfServerID (some id) = some v) ∧
          (fs.Knows (some id) (some rep) (charValue version) ∨
            HoldsLength rep ∧ (charValue version = 2 → HoldsWhole rep ∧ 12 ≤ id.length) ∧
            (versionOfServerID (some id) = some 2 → generatedServerID hash rep = some id))

/-- An ID that is fetched is long enough to have a version, and no master sends a format that
the server does not have. -/
def GetMeets (env : ServerEnv) (fs : FormatServer) : List UInt8 → Prop
  | [] => True
  | idLength :: input => 0 ≤ charValue idLength → Arrived idLength.toNat input fun id _ =>
    ∃ v, versionOfServerID (some id) = some v ∧
      (fs.Knows (some id) none v ∨ env.masterAnswers = false)

def RequestMeets (hash : List UInt8 → UInt32 × UInt32) (env : ServerEnv) (fs : FormatServer) :
    List UInt8 → Prop
  | [] => True
  | action :: input =>
    if action = chr 'f' then RegisterMeets fs input
    else if action = chr 'P' then PushMeets hash fs input
    else if action = chr 'g' then GetMeets env fs input
    else True

/-! ## IDs -/

theorem versionOfServerID_cons {b : UInt8} {rest : List UInt8} {v : Int}
    (h : versionOfServerID (some (b :: rest)) = some v) : v = 0 ∨ v = charValue b := by
  simp only [versionOfServerID, List.head?_cons, Option.bind_eq_bind, Option.bind_eq_some_iff,
    Option.pure_def] at h
  obtain ⟨zero, -, h⟩ := h
  by_cases hzero : zero = true
  · rw [if_pos hzero, Option.some.injEq] at h
    exact Or.inl h.symm
  · rw [if_neg hzero] at h
    simp only [Option.bind_some, Option.some.injEq] at h
    exact Or.inr h.symm

theorem zeroBytes_isSome {n : Nat} {bs : List UInt8} (h : n ≤ bs.length) :
    ∃ b, zeroBytes n bs = some b := by
  induction n generalizing bs with
  | zero => exact ⟨true, by cases bs <;> rfl⟩
  | succ n ih =>
    cases bs with
    | nil => simp at h
    | cons b bs =>
      rw [zeroBytes]
      by_cases hb : b = 0
      · rw [if_pos hb]
        exact ih (by simpa using h)
      · exact ⟨false, if_neg hb⟩

theorem versionOfServerID_isSome {id : List UInt8} (h : 8 ≤ id.length) :
    ∃ v, versionOfServerID (some id) = some v := by
  obtain ⟨zero, hzero⟩ : ∃ b, zeroBytes 4 (id.drop 4) = some b :=
    zeroBytes_isSome (by rw [List.length_drop]; omega)
  obtain ⟨b, rest, hid⟩ : ∃ b rest, id = b :: rest := List.exists_cons_of_length_pos (by omega)
  simp only [versionOfServerID, hzero, Option.bind_eq_bind, Option.bind_some]
  by_cases hz : zero = true
  · exact ⟨0, if_pos hz⟩
  · rw [if_neg hz, hid]
    exact ⟨charValue b, rfl⟩

theorem generatedServerID_isSome_iff {rep : List UInt8} :
    (∃ id, generatedServerID hash rep = some id) ↔ HoldsWhole rep := by
  simp only [generatedServerID, generateFormat3ServerID, HoldsWhole, Option.bind_eq_bind,
    Option.bind_eq_some_iff, Option.guard_eq_some', Option.pure_def, Option.some.injEq,
    exists_const]
  constructor
  · intro h
    obtain ⟨id, n, hn, hle, -⟩ := h
    exact ⟨n, hn, hle⟩
  · intro h
    obtain ⟨n, hn, hle⟩ := h
    exact ⟨_, n, hn, hle, n, hn, rfl⟩

theorem length_generatedServerID {rep id : List UInt8}
    (h : generatedServerID hash rep = some id) : id.length = 12 := by
  simp only [generatedServerID, generateFormat3ServerID, Option.bind_eq_bind,
    Option.bind_eq_some_iff, Option.guard_eq_some', Option.pure_def, Option.some.injEq,
    exists_const] at h
  obtain ⟨n, -, -, m, -, h⟩ := h
  rw [← h]
  simp

section newID

variable {fs : FormatServer} {address : UInt64} {version : Int} {id new : Option (List UInt8)}
  {rep : List UInt8}

theorem newID_isSome_iff :
    (∃ new, fs.newID hash address version id rep = some new) ↔
      (version = 2 → HoldsWhole rep ∧ ∀ value, id = some value → 12 ≤ value.length) := by
  rw [← @generatedServerID_isSome_iff hash, FormatServer.newID]
  by_cases hzero : version = 0
  · simp [hzero]
  · by_cases hone : version = 1
    · simp [hone]
    · by_cases htwo : version = 2
      · rw [if_neg hzero, if_neg hone, if_pos htwo, imp_iff_right htwo]
        simp only [Option.bind_eq_bind, Option.bind_eq_some_iff]
        constructor
        · intro h
          obtain ⟨new, generated, hgenerated, hnew⟩ := h
          refine ⟨⟨generated, hgenerated⟩, fun value hvalue => ?_⟩
          subst hvalue
          simp only [Option.bind_eq_some_iff, Option.guard_eq_some', exists_const] at hnew
          rw [← length_generatedServerID hgenerated]
          exact hnew.1
        · intro h
          obtain ⟨⟨generated, hgenerated⟩, hlength⟩ := h
          cases id with
          | none => exact ⟨_, generated, hgenerated, rfl⟩
          | some value =>
            have hle : generated.length ≤ value.length := by
              rw [length_generatedServerID hgenerated]
              exact hlength value rfl
            exact ⟨some value, generated, hgenerated, by simp [hle]⟩
      · simp [hzero, hone, htwo]

/-- The ID that is entered is one that was sent or one that the server makes. -/
theorem newID_cases (h : fs.newID hash address version id rep = some new) :
    new = id ∨
      (version < 2 ∧ versionOfServerID new ≠ some 2 ∧ ∃ v, versionOfServerID new = some v) ∨
      (version = 2 ∧ id = none ∧ generatedServerID hash rep = new ∧ new ≠ none) := by
  rw [FormatServer.newID] at h
  split at h
  · cases h
    refine Or.inr (Or.inl ⟨by omega, fun hversion => ?_, versionOfServerID_isSome (by simp)⟩)
    cases versionOfServerID_cons hversion with
    | inl h => cases h
    | inr h => exact absurd h (by decide)
  · split at h
    · cases h
      refine Or.inr (Or.inl ⟨by omega, fun hversion => ?_, versionOfServerID_isSome (by simp)⟩)
      cases versionOfServerID_cons hversion with
      | inl h => cases h
      | inr h => exact absurd h (by decide)
    · split at h
      · next htwo =>
        simp only [Option.bind_eq_bind, Option.bind_eq_some_iff] at h
        obtain ⟨generated, hgenerated, h⟩ := h
        cases id with
        | none =>
          cases h
          exact Or.inr (Or.inr ⟨htwo, rfl, hgenerated, Option.some_ne_none _⟩)
        | some value =>
          simp only [Option.bind_eq_some_iff, Option.pure_def, Option.some.injEq] at h
          exact Or.inl (by obtain ⟨-, -, h⟩ := h; exact h.symm)
      · exact Or.inl (Option.some.inj h).symm

theorem versionOfServerID_newID {v : Int} (hid : versionOfServerID id = some v)
    (h : fs.newID hash address version id rep = some new) :
    ∃ w, versionOfServerID new = some w := by
  rcases newID_cases h with rfl | ⟨-, -, hnew⟩ | ⟨-, -, hgenerated, hne⟩
  · exact ⟨v, hid⟩
  · exact hnew
  · obtain ⟨value, rfl⟩ := Option.ne_none_iff_exists'.mp hne
    exact versionOfServerID_isSome (by rw [length_generatedServerID hgenerated]; omega)

end newID

/-! ## What a request leaves in the list -/

section request

variable {fs : FormatServer} {address : UInt64} {version : Int} {id : Option (List UInt8)}
  {rep : List UInt8}

/-- The server finds or enters a format without leaving a block, and the list stays
integral. -/
theorem findFormat_iff (hfs : fs.Integral hash) :
    (∃ found, fs.findFormat hash address version id rep = some found ∧
      ∀ entry ∈ (fs.settle found).1.formats, entry.Integral hash) ↔
    (∃ v, versionOfServerID id = some v) ∧
      (fs.Knows id (some rep) version ∨ searchFormats id (some rep) version fs.formats = some none ∧
        ∃ new, fs.newID hash address version id rep = some new ∧
          IOFormatRep.Integral hash { serverID := new, serverFormatRep := rep }) := by
  simp only [FormatServer.findFormat, Option.bind_eq_bind, Option.bind_eq_some_iff]
  constructor
  · intro h
    obtain ⟨found, ⟨v, hv, result, hresult, hfound⟩, hentries⟩ := h
    refine ⟨⟨v, hv⟩, ?_⟩
    cases result with
    | some entry => exact Or.inl ⟨entry, hresult⟩
    | none =>
      simp only [Option.bind_eq_some_iff, Option.pure_def, Option.some.injEq] at hfound
      obtain ⟨new, hnew, rfl⟩ := hfound
      refine Or.inr ⟨hresult, new, hnew, hentries _ ?_⟩
      exact List.mem_append_right fs.formats List.mem_cons_self
  · intro h
    obtain ⟨⟨v, hv⟩, ⟨entry, hentry⟩ | ⟨hnone, new, hnew, hintegral⟩⟩ := h
    · exact ⟨.known entry, ⟨v, hv, some entry, hentry, rfl⟩, hfs.entries⟩
    · refine ⟨.fresh { serverID := new, serverFormatRep := rep },
        ⟨v, hv, none, hnone, by simp [hnew]⟩, fun entry hentry => ?_⟩
      rcases List.mem_append.mp hentry with hentry | hentry
      · exact hfs.entries entry hentry
      · rw [List.mem_singleton.mp hentry]
        exact hintegral

/-- A format that is entered has an ID with a version. -/
theorem readable_of_findFormat (hfs : fs.Readable) {found : Found}
    (h : fs.findFormat hash address version id rep = some found) :
    (fs.settle found).1.Readable := by
  simp only [FormatServer.findFormat, Option.bind_eq_bind, Option.bind_eq_some_iff] at h
  obtain ⟨v, hv, result, -, hfound⟩ := h
  cases result with
  | some entry =>
    cases hfound
    exact hfs
  | none =>
    simp only [Option.bind_eq_some_iff, Option.pure_def, Option.some.injEq] at hfound
    obtain ⟨new, hnew, rfl⟩ := hfound
    intro entry hentry
    rcases List.mem_append.mp hentry with hentry | hentry
    · exact hfs entry hentry
    · rw [List.mem_singleton.mp hentry]
      exact versionOfServerID_newID hv hnew

theorem search_of_not_knows (hfs : fs.Integral hash) (hid : ∃ v, versionOfServerID id = some v)
    (hrep : HoldsLength rep) (hknows : ¬ fs.Knows id (some rep) version) :
    searchFormats id (some rep) version fs.formats = some none := by
  obtain ⟨found, hfound⟩ : ∃ found, searchFormats id (some rep) version fs.formats = some found :=
    searchFormats_isSome hid (fun r hr => by cases hr; exact hrep)
      (fun entry hentry => (hfs.entries entry hentry).holds) hfs.readable
  cases found with
  | none => exact hfound
  | some entry => exact absurd ⟨entry, hfound⟩ hknows

/-- A representation that a client registers. -/
theorem registered_iff (hfs : fs.Integral hash) (hrep : HoldsLength rep) :
    (∃ found, fs.findFormat hash address version none rep = some found ∧
      ∀ entry ∈ (fs.settle found).1.formats, entry.Integral hash) ↔
    (version = 2 → fs.Knows none (some rep) 2 ∨ HoldsWhole rep) := by
  have hnone : ∃ v, versionOfServerID none = some v := ⟨-1, rfl⟩
  rw [findFormat_iff hfs, and_iff_right hnone]
  by_cases hknows : fs.Knows none (some rep) version
  · refine iff_of_true (Or.inl hknows) fun htwo => Or.inl ?_
    rwa [htwo] at hknows
  · rw [or_iff_right hknows, and_iff_right (search_of_not_knows hfs hnone hrep hknows)]
    constructor
    · intro h htwo
      obtain ⟨new, hnew, -⟩ := h
      exact Or.inr (newID_isSome_iff.mp ⟨new, hnew⟩ htwo).1
    · intro h
      obtain ⟨new, hnew⟩ : ∃ new, fs.newID hash address version none rep = some new := by
        refine newID_isSome_iff.mpr fun htwo => ⟨?_, fun value hvalue => by cases hvalue⟩
        exact (h htwo).resolve_left (by rwa [htwo] at hknows)
      refine ⟨new, hnew, hrep, fun hnewVersion => ?_⟩
      rcases newID_cases hnew with rfl | ⟨-, hne, -⟩ | ⟨-, -, hgenerated, -⟩
      · cases hnewVersion
      · exact absurd hnewVersion hne
      · exact hgenerated

/-- A representation that is pushed with its ID. -/
theorem pushed_iff {value : List UInt8} (hfs : fs.Integral hash) (hversion : 1 < version) :
    (∃ found, fs.findFormat hash address version (some value) rep = some found ∧
      ∀ entry ∈ (fs.settle found).1.formats, entry.Integral hash) ↔
    (∃ v, versionOfServerID (some value) = some v) ∧
      (fs.Knows (some value) (some rep) version ∨
        HoldsLength rep ∧ (version = 2 → HoldsWhole rep ∧ 12 ≤ value.length) ∧
        (versionOfServerID (some value) = some 2 → generatedServerID hash rep = some value)) := by
  rw [findFormat_iff hfs]
  refine and_congr_right fun hid => or_congr_right' fun hknows => ?_
  constructor
  · intro h
    obtain ⟨-, new, hnew, hintegral⟩ := h
    have hsame : new = some value := by
      rcases newID_cases hnew with h | ⟨h, -⟩ | ⟨-, h, -⟩
      · exact h
      · omega
      · cases h
    subst hsame
    refine ⟨hintegral.holds, fun htwo => ?_, hintegral.generated⟩
    obtain ⟨hwhole, hlength⟩ := newID_isSome_iff.mp ⟨_, hnew⟩ htwo
    exact ⟨hwhole, hlength value rfl⟩
  · intro h
    obtain ⟨hrep, htwo, hgenerated⟩ := h
    obtain ⟨new, hnew⟩ : ∃ new, fs.newID hash address version (some value) rep = some new := by
      refine newID_isSome_iff.mpr fun h => ⟨(htwo h).1, fun w hw => ?_⟩
      cases hw
      exact (htwo h).2
    have hsame : new = some value := by
      rcases newID_cases hnew with h | ⟨h, -⟩ | ⟨-, h, -⟩
      · exact h
      · omega
      · cases h
    subst hsame
    exact ⟨search_of_not_knows hfs hid hrep hknows, some value, hnew, hrep, hgenerated⟩

end request

/-! ## The handlers -/

section handlers

variable {fs : FormatServer} {env : ServerEnv}

theorem outcome_orViolation {α : Type} {x : Option α} {P : α → Prop} :
    Outcome (· ≠ Stop.violation) P (orViolation x) ↔ ∃ a, x = some a ∧ P a := by
  cases x <;> simp [orViolation]

theorem outcome_atomicRead {n : Nat} {input : List UInt8}
    {P : List UInt8 × List UInt8 → Prop} :
    Outcome (· ≠ Stop.violation) P (atomicRead n input) ↔
      Arrived n input fun bytes rest => P (bytes, rest) := by
  rw [atomicRead, Arrived]
  by_cases h : n ≤ input.length <;> simp [h]

theorem outcome_readShort {input : List UInt8} {P : Nat × List UInt8 → Prop} :
    Outcome (· ≠ Stop.violation) P (readShort input) ↔
      Arrived 2 input fun bytes rest => P (beValue bytes, rest) := by
  rw [readShort, outcome_bind, outcome_atomicRead]
  rfl

theorem repLength_beBytes {length : List UInt8} (body : List UInt8) (h : length.length = 2) :
    repLength (length ++ body) = some (beValue length) := by
  rw [repLength, valueAt, span, if_pos (by rw [List.length_append]; omega), List.drop_zero, ← h,
    List.take_left]
  rfl

theorem holdsLength_append {length body : List UInt8} (h : length.length = 2)
    (hbody : body.length = beValue length - 2) (hle : 2 ≤ beValue length) :
    HoldsLength (length ++ body) := by
  refine ⟨beValue length, repLength_beBytes body h, ?_⟩
  rw [List.length_append]
  omega

/-- The server sends only bytes that the block has. -/
theorem exists_body {rep : List UInt8} (h : HoldsLength rep) :
    ∃ n, repLength rep = some n ∧ ∃ body, span rep 2 (n - 2) = some body := by
  obtain ⟨n, hn, hle⟩ := h
  have htwo := (repLength_iff.mp hn).1
  exact ⟨n, hn, _, if_pos (by omega)⟩

theorem arrived_congr {n : Nat} {input : List UInt8} {P P' : List UInt8 → List UInt8 → Prop}
    (h : ∀ bytes rest, bytes.length = n → (P bytes rest ↔ P' bytes rest)) :
    Arrived n input P ↔ Arrived n input P' :=
  forall_congr' fun hle => h _ _ (List.length_take_of_le hle)

theorem handleRegister_iff (hfs : fs.Integral hash) (input : List UInt8) :
    Outcome (· ≠ .violation) (fun served => ∀ entry ∈ served.server.formats, entry.Integral hash)
      (handleRegister hash env fs input) ↔ RegisterMeets fs input := by
  cases input with
  | nil => simp [handleRegister, readByte, RegisterMeets]
  | cons version input =>
    simp only [handleRegister, readByte, outcome_bind, outcome_ok, outcome_ite, outcome_error,
      outcome_readShort, outcome_atomicRead, outcome_orViolation, outcome_pure, RegisterMeets,
      not_lt, ne_eq, reduceCtorEq, not_false_eq_true, implies_true, true_and, not_true_eq_false,
      imp_false]
    refine forall_congr' fun hversion => arrived_congr fun length rest hlength =>
      and_congr_right fun hle => (imp_iff_right hle).trans (arrived_congr fun body _ hbody => ?_)
    have hbytes : beBytes 2 (beValue length) = length := by
      rw [← hlength]
      exact beBytes_beValue length
    rw [hbytes]
    exact registered_iff hfs (holdsLength_append hlength hbody hle)

theorem handlePush_iff (hfs : fs.Integral hash) (input : List UInt8) :
    Outcome (· ≠ .violation) (fun served => ∀ entry ∈ served.server.formats, entry.Integral hash)
      (handlePush hash env fs input) ↔ PushMeets hash fs input := by
  cases input with
  | nil => simp [handlePush, readByte, PushMeets]
  | cons version input =>
    simp only [handlePush, readByte, outcome_bind, outcome_ok, outcome_ite, outcome_error,
      outcome_readShort, outcome_atomicRead, outcome_orViolation, outcome_pure, PushMeets,
      not_lt, not_le, ne_eq, reduceCtorEq, not_false_eq_true, implies_true, true_and,
      not_true_eq_false, imp_false]
    refine forall_congr' fun hversion => arrived_congr fun idLength rest _ =>
      arrived_congr fun id rest _ => arrived_congr fun length rest _ =>
        and_congr_right fun hle => (imp_iff_right hle).trans (arrived_congr fun rep _ _ => ?_)
    exact pushed_iff hfs hversion

theorem handleGet_iff (hfs : fs.Integral hash) (input : List UInt8) :
    Outcome (· ≠ .violation) (fun served => ∀ entry ∈ served.server.formats, entry.Integral hash)
      (handleGet env fs input) ↔ GetMeets env fs input := by
  cases input with
  | nil => simp [handleGet, readByte, GetMeets]
  | cons idLength input =>
    simp only [handleGet, readByte, outcome_bind, outcome_ok, outcome_ite, outcome_error,
      outcome_atomicRead, outcome_orViolation, GetMeets, not_lt, ne_eq, reduceCtorEq,
      not_false_eq_true, implies_true, true_and]
    refine forall_congr' fun _ => arrived_congr fun id rest _ => exists_congr fun v =>
      and_congr_right fun hv => ?_
    obtain ⟨found, hfound⟩ : ∃ found, searchFormats (some id) none v fs.formats = some found :=
      searchFormats_isSome ⟨v, hv⟩ (fun r hr => by cases hr)
        (fun entry hentry => (hfs.entries entry hentry).holds) hfs.readable
    simp only [FormatServer.Knows, hfound, Option.some.injEq, exists_eq_left']
    cases found with
    | none =>
      by_cases hmaster : env.masterAnswers = true
      · simp [hmaster]
      · simpa [hmaster] using hfs.entries
    | some entry =>
      obtain ⟨n, hn, hbody⟩ := exists_body (hfs.entries entry (mem_of_searchFormats hfound)).holds
      obtain ⟨body, hbody⟩ := hbody
      simpa [orViolation, hn, hbody] using hfs.entries

/-- A request is served safely, and leaves the list integral, exactly when it meets the
condition. -/
theorem formatServerHandleData_iff (hfs : fs.Integral hash) (input : List UInt8) :
    Outcome (· ≠ .violation) (fun served => ∀ entry ∈ served.server.formats, entry.Integral hash)
      (formatServerHandleData hash env fs input) ↔ RequestMeets hash env fs input := by
  cases input with
  | nil => simp [formatServerHandleData, readByte, RequestMeets]
  | cons action input =>
    simp only [formatServerHandleData, readByte, outcome_bind, outcome_ok, RequestMeets]
    by_cases htest : action = chr 'T'
    · subst htest
      simpa [chr] using hfs.entries
    · rw [if_neg htest]
      split
      · exact handleRegister_iff hfs input
      · split
        · exact handlePush_iff hfs input
        · split
          · exact handleGet_iff hfs input
          · simp

end handlers

/-! ## Runs -/

/-- A list on which a handler has been is the old one or has what was found. -/
def SettledFrom (hash : List UInt8 → UInt32 × UInt32) (fs fs' : FormatServer) : Prop :=
  fs' = fs ∨ ∃ address version id rep found,
    fs.findFormat hash address version id rep = some found ∧ fs' = (fs.settle found).1

theorem settledFrom_of_handle {env : ServerEnv} {fs : FormatServer} {input : List UInt8} :
    Outcome (fun _ => True) (fun served => SettledFrom hash fs served.server)
      (formatServerHandleData hash env fs input) := by
  have hfound : ∀ {address version id rep} {f : Found → Except Stop Served},
      (∀ found, Outcome (fun _ => True) (fun served => served.server = (fs.settle found).1)
        (f found)) →
      Outcome (fun _ => True) (fun served => SettledFrom hash fs served.server)
        (orViolation (fs.findFormat hash address version id rep) >>= f) := by
    intro address version id rep f hf
    refine outcome_bind_of_ok fun found h => ?_
    cases hfind : fs.findFormat hash address version id rep with
    | none => rw [hfind] at h; cases h
    | some found' =>
      rw [hfind] at h
      cases h
      exact (hf found).mono fun served hserved =>
        Or.inr ⟨address, version, id, rep, found, hfind, hserved⟩
  rw [formatServerHandleData]
  refine outcome_bind_of_ok fun action _ => ?_
  simp only [outcome_ite, outcome_pure, outcome_error, implies_true, and_true]
  refine ⟨fun _ => Or.inl rfl, fun _ => ⟨fun _ => ?_, fun _ => ⟨fun _ => ?_, fun _ _ => ?_⟩⟩⟩
  · rw [handleRegister]
    refine outcome_bind_of_ok fun version _ => ?_
    simp only [outcome_ite, outcome_error, implies_true, true_and]
    refine fun _ => outcome_bind_of_ok fun length _ => ?_
    simp only [outcome_ite, outcome_error, implies_true, true_and]
    refine fun _ => outcome_bind_of_ok fun body _ => ?_
    exact hfound fun found => rfl
  · rw [handlePush]
    refine outcome_bind_of_ok fun version _ => ?_
    simp only [outcome_ite, outcome_error, implies_true, true_and]
    refine fun _ => outcome_bind_of_ok fun idLength _ => outcome_bind_of_ok fun id _ =>
      outcome_bind_of_ok fun length _ => ?_
    simp only [outcome_ite, outcome_error, implies_true, true_and]
    refine fun _ => outcome_bind_of_ok fun rep _ => ?_
    exact hfound fun found => rfl
  · rw [handleGet]
    refine outcome_bind_of_ok fun idLength _ => ?_
    simp only [outcome_ite, outcome_error, implies_true, true_and]
    refine fun _ => outcome_bind_of_ok fun id _ => outcome_bind_of_ok fun version _ =>
      outcome_bind_of_ok fun found _ => ?_
    cases found with
    | none => simp [SettledFrom]
    | some entry =>
      refine outcome_bind_of_ok fun length _ => outcome_bind_of_ok fun body _ => ?_
      exact Or.inl rfl

theorem readable_of_settledFrom {fs fs' : FormatServer} (hfs : fs.Readable)
    (h : SettledFrom hash fs fs') : fs'.Readable := by
  rcases h with rfl | ⟨address, version, id, rep, found, hfind, rfl⟩
  · exact hfs
  · exact readable_of_findFormat hfs hfind

/-- What the server does with the next request of a client meets the condition. -/
def EventMeets (hash : List UInt8 → UInt32 × UInt32) (s : Serving) : ServingEvent → Prop
  | .send _ _ => True
  | .cutOff _ => True
  | .handle client env => s.running = true → (s.connections client).closed = false →
    RequestMeets hash env s.server (s.connections client).toServer

theorem eventMeets_iff {s : Serving} (hs : s.server.Integral hash) (e : ServingEvent) :
    EventMeets hash s e ↔ ∃ s', s.step hash e = some s' ∧
      ∀ entry ∈ s'.server.formats, entry.Integral hash := by
  cases e with
  | send client bytes =>
    refine iff_of_true trivial ?_
    rw [Serving.step]
    by_cases hended : (s.connections client).ended = true
    · exact ⟨s, if_pos hended, hs.entries⟩
    · exact ⟨_, if_neg hended, hs.entries⟩
  | cutOff client => exact iff_of_true trivial ⟨_, rfl, hs.entries⟩
  | handle client env =>
    rw [EventMeets, Serving.step,
      @Serving.handle_iff hash s client env
        (fun fs => ∀ entry ∈ fs.formats, entry.Integral hash) hs.entries]
    simp only [formatServerHandleData_iff hs]

theorem settledFrom_of_step {s s' : Serving} {e : ServingEvent}
    (h : s.step hash e = some s') : SettledFrom hash s.server s'.server := by
  cases e with
  | send client bytes =>
    rw [Serving.step] at h
    split at h <;> cases h <;> exact Or.inl rfl
  | cutOff client =>
    cases h
    exact Or.inl rfl
  | handle client env =>
    rw [Serving.step, Serving.handle] at h
    have hserved := @settledFrom_of_handle hash env s.server (s.connections client).toServer
    split at h
    · cases h
      exact Or.inl rfl
    · cases hdata : formatServerHandleData hash env s.server (s.connections client).toServer with
      | ok served =>
        rw [hdata] at h hserved
        cases h
        exact hserved
      | error stop =>
        rw [hdata] at h
        cases stop with
        | waiting =>
          dsimp only at h
          split at h <;> cases h <;> exact Or.inl rfl
        | close => cases h; exact Or.inl rfl
        | exit => cases h; exact Or.inl rfl
        | violation => cases h

/-- In a run from the empty list every handler stays within its blocks and the list is integral
in every state exactly when the requests meet the condition. -/
theorem serverList_integral_iff (hash : List UInt8 → UInt32 × UInt32) (pid port ipAddr : Nat)
    (events : List ServingEvent) :
    (∀ front, front <+: events →
      ∃ s', run (Serving.step hash) (.start (.create pid port ipAddr)) front = some s' ∧
        ∀ entry ∈ s'.server.formats, entry.Integral hash) ↔
    RunMeets (Serving.step hash) (EventMeets hash) (.start (.create pid port ipAddr)) events := by
  refine runMeets_iff (fun s => s.server.Integral hash) (fun s e hs => eventMeets_iff hs e) ?_
    (fun hs => hs.entries) ⟨fun _ h => absurd h List.not_mem_nil,
      fun _ h => absurd h List.not_mem_nil⟩
  intro s e s' hs hstep hentries
  exact ⟨hentries, readable_of_settledFrom hs.readable (settledFrom_of_step hstep)⟩

/-- A registration of length 0 writes its length into a block without room for it, and a pushed
block of two bytes that claims 256 is entered. -/
theorem serverList_not_integral :
    run (Serving.step hashlittle2) (.start (.create 1 5347 1))
      [.send 0 [chr 'f', 2, 0, 0], .handle 0 { address := 0, masterAnswers := false }] = none ∧
    ∃ s', run (Serving.step hashlittle2) (.start (.create 1 5347 1))
        [.send 0 [chr 'P', 3, 0, 8, 9, 0, 0, 0, 1, 0, 0, 0, 0, 2, 1, 0],
          .handle 0 { address := 0, masterAnswers := false }] = some s' ∧
      ∃ entry ∈ s'.server.formats, ¬ entry.Integral hashlittle2 := by
  refine ⟨rfl, _, rfl, { serverID := some [9, 0, 0, 0, 1, 0, 0, 0], serverFormatRep := [1, 0] },
    List.mem_cons_self, fun h => ?_⟩
  obtain ⟨n, hn, hle⟩ := h.holds
  cases hn
  revert hle
  decide

end FFS
