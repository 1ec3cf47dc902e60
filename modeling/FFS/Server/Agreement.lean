import FFS.Server.Clients
import FFS.Server.ListIntegrity

/-!
# The server and its clients agree

A client takes the length off a representation and sends it, the server puts it back in front
of the rest and searches the list with its own test of equality, and the ID is computed from a
length that is put together from two places.  For representations whose length fits into the
first place they all speak of the same bytes, in whatever order requests come in.
-/

namespace FFS

open Machine

variable {hash : List UInt8 → UInt32 × UInt32} {reps : List (List UInt8)}

/-! ## IDs and representations -/

/-- A representation whose length fits into its first two bytes and whose ID has version 2. -/
structure Short (hash : List UInt8 → UInt32 × UInt32) (rep : List UInt8) : Prop where
  records : RecordsLength rep
  short : rep.length < 2 ^ 16
  word : (hash rep).1 ≠ 0

namespace Short

variable {rep : List UInt8}

theorem repLength (h : Short hash rep) : repLength rep = some rep.length :=
  valueAt_of_recordsLength h.records h.short

theorem two_le (h : Short hash rep) : 2 ≤ rep.length := (repLength_iff.mp h.repLength).1

theorem head (h : Short hash rep) : rep.take 2 = beBytes 2 rep.length :=
  (repLength_iff.mp h.repLength).2.2

theorem exists_id (h : Short hash rep) : ∃ id, generateFormat3ServerID hash rep = some id :=
  ⟨_, generateFormat3ServerID_eq h.records⟩

theorem generatedServerID (h : Short hash rep) :
    generatedServerID hash rep = generateFormat3ServerID hash rep := by
  refine bind_eq_of_eq_some h.records ?_
  simp

end Short

theorem zeroBytes_append {bs : List UInt8} (rest : List UInt8) :
    zeroBytes bs.length (bs ++ rest) = some (bs.all (· == 0)) := by
  induction bs with
  | nil => simp [zeroBytes]
  | cons b bs ih =>
    rw [List.length_cons, List.cons_append, zeroBytes]
    by_cases hb : b = 0
    · rw [if_pos hb, ih]
      simp [hb]
    · rw [if_neg hb]
      simp [hb]

theorem beBytes_ne_zero {w v : Nat} (hv : v % 256 ^ w ≠ 0) : ¬ ∀ b ∈ beBytes w v, b = 0 := by
  intro hzero
  have hreplicate : ∀ u, (∀ b ∈ beBytes w u, b = 0) → beBytes w u = List.replicate w 0 :=
    fun u hu => List.eq_replicate_iff.mpr ⟨length_beBytes w u, hu⟩
  have hvalue : beValue (List.replicate w 0) = 0 := by
    rw [beValue, List.reverse_replicate]
    clear hv hzero hreplicate
    induction w with
    | zero => rfl
    | succ w ih => rw [List.replicate_succ, leValue, ih]; rfl
  rw [← beValue_beBytes, hreplicate v hzero, hvalue] at hv
  exact hv rfl

/-- The ID of a representation whose first hash word is not zero has version 2. -/
theorem versionOfServerID_of_short {rep id : List UInt8} (h : Short hash rep)
    (hid : generateFormat3ServerID hash rep = some id) :
    versionOfServerID (some id) = some 2 := by
  rw [generateFormat3ServerID_eq h.records, Option.some.injEq] at hid
  obtain ⟨w₁, w₂, hw₁, rfl⟩ : ∃ w₁ w₂ : List UInt8, (w₁ = beBytes 4 (hash rep).1.toNat ∧
      id = [2, UInt8.ofNat (rep.length / 2 ^ 18)] ++ beBytes 2 (rep.length / 4) ++ w₁ ++ w₂) :=
    ⟨_, _, rfl, hid.symm⟩
  have hne : (hash rep).1.toNat % 256 ^ 4 ≠ 0 := by
    have hlt := (hash rep).1.toNat_lt
    have hpos : (hash rep).1.toNat ≠ 0 := fun hzero => h.word (UInt32.toNat_inj.mp hzero)
    omega
  have hzero : zeroBytes 4 (w₁ ++ w₂) = some false := by
    have happend := @zeroBytes_append w₁ w₂
    rw [hw₁, length_beBytes] at happend
    rw [hw₁, happend, Option.some_inj, ← Bool.not_eq_true, List.all_eq_true]
    exact fun hall => beBytes_ne_zero hne fun b hb => eq_of_beq (hall b hb)
  have hversion : charValue 2 = 2 := by decide
  simp [versionOfServerID, hzero, hversion]

/-! ## The search for what clients register -/

/-- An entry that a registration has made. -/
structure IOFormatRep.Assigned (hash : List UInt8 → UInt32 × UInt32)
    (reps : List (List UInt8)) (entry : IOFormatRep) : Prop where
  short : Short hash entry.serverFormatRep
  mem : entry.serverFormatRep ∈ reps
  generated : generateFormat3ServerID hash entry.serverFormatRep = entry.serverID

namespace IOFormatRep.Assigned

variable {entry : IOFormatRep}

theorem exists_id (h : entry.Assigned hash reps) : ∃ id, entry.serverID = some id ∧
    generateFormat3ServerID hash entry.serverFormatRep = some id := by
  obtain ⟨id, hid⟩ := h.short.exists_id
  exact ⟨id, h.generated.symm.trans hid, hid⟩

theorem version (h : entry.Assigned hash reps) : versionOfServerID entry.serverID = some 2 := by
  obtain ⟨id, hentry, hid⟩ := h.exists_id
  rw [hentry]
  exact versionOfServerID_of_short h.short hid

theorem formatEq_rep (h : entry.Assigned hash reps) {rep : List UInt8} (hrep : Short hash rep) :
    formatEq none (some rep) entry = some (decide (entry.serverFormatRep = rep)) := by
  have hlength := hrep.repLength
  have hentry := h.short.repLength
  simp only [formatEq, Option.getD_none, ne_eq, not_true_eq_false, false_and, if_false,
    List.any_nil, Bool.false_eq_true, hlength, hentry, Option.bind_eq_bind, Option.bind_some]
  by_cases heq : rep.length = entry.serverFormatRep.length
  · rw [if_neg (not_not.mpr heq), span, span, if_pos (by omega), if_pos (by omega)]
    simp only [List.drop_zero, Option.bind_some, List.take_length, Option.pure_def,
      Option.some.injEq, decide_eq_decide]
    rw [heq, List.take_length]
    exact eq_comm
  · rw [if_pos heq, Option.pure_def, Option.some.injEq]
    refine (decide_eq_false fun hsame => heq ?_).symm
    rw [hsame]

theorem id_ne_zero (h : entry.Assigned hash reps) {value : List UInt8}
    (hvalue : entry.serverID = some value) : ∃ b ∈ value, b ≠ 0 := by
  have hid := h.generated.trans hvalue
  rw [generateFormat3ServerID_eq h.short.records, Option.some.injEq] at hid
  rw [← hid]
  exact ⟨2, by simp, by decide⟩

end IOFormatRep.Assigned

theorem searchFormats_rep {formats : List IOFormatRep}
    (h : ∀ entry ∈ formats, entry.Assigned hash reps) {rep : List UInt8} (hrep : Short hash rep) :
    searchFormats none (some rep) 2 formats =
      some (formats.find? fun entry => entry.serverFormatRep = rep) := by
  induction formats with
  | nil => rfl
  | cons entry rest ih =>
    have hentry := h entry List.mem_cons_self
    have hrest := ih fun e he => h e (List.mem_cons_of_mem _ he)
    simp only [searchFormats, hentry.version, hentry.formatEq_rep hrep, Option.bind_eq_bind,
      Option.bind_some, and_true, decide_eq_true_eq, List.find?_cons]
    by_cases heq : entry.serverFormatRep = rep
    · simp [heq]
    · simp [heq, hrest]

/-! ## Requests of clients -/

theorem atomicRead_append {n : Nat} {bytes : List UInt8} (rest : List UInt8)
    (h : bytes.length = n) : atomicRead n (bytes ++ rest) = .ok (bytes, rest) := by
  subst h
  rw [atomicRead, if_pos (by rw [List.length_append]; omega), List.take_left, List.drop_left]

/-- The server's list when clients do nothing but register. -/
def AllAssigned (hash : List UInt8 → UInt32 × UInt32) (reps : List (List UInt8))
    (fs : FormatServer) : Prop := ∀ entry ∈ fs.formats, entry.Assigned hash reps

theorem registerRequest_of_short {rep : List UInt8} (h : Short hash rep) :
    registerRequest rep = some ([chr 'f', 2] ++ rep) := by
  have htwo := h.two_le
  refine bind_eq_of_eq_some h.repLength ?_
  rw [span, if_pos (by omega), span, if_pos (by omega)]
  have hdrop : (rep.drop 2).take (rep.length - 2) = rep.drop 2 :=
    List.take_of_length_le (by rw [List.length_drop])
  rw [hdrop, List.drop_zero]
  show some ([chr 'f', 2] ++ rep.take 2 ++ rep.drop 2) = _
  rw [List.append_assoc, List.take_append_drop]

/-- A registration enters the format with its ID, or finds it. -/
theorem findFormat_register {fs : FormatServer} (hfs : AllAssigned hash reps fs)
    {rep : List UInt8} (hrep : Short hash rep) (hmem : rep ∈ reps) (address : UInt64) :
    ∃ found, fs.findFormat hash address 2 none rep = some found ∧
      AllAssigned hash reps (fs.settle found).1 ∧ fs.formats ⊆ (fs.settle found).1.formats ∧
      (fs.settle found).2 ∈ (fs.settle found).1.formats ∧
      (fs.settle found).2.serverFormatRep = rep := by
  have hsearch := searchFormats_rep hfs hrep
  have hnone : versionOfServerID none = some (-1) := rfl
  simp only [FormatServer.findFormat, hnone, hsearch, Option.bind_eq_bind, Option.bind_some]
  cases hfind : fs.formats.find? fun entry => entry.serverFormatRep = rep with
  | some entry =>
    have hrep' : entry.serverFormatRep = rep := by simpa using List.find?_some hfind
    exact ⟨.known entry, rfl, hfs, fun e he => he, List.mem_of_find?_eq_some hfind, hrep'⟩
  | none =>
    obtain ⟨id, hid⟩ := hrep.exists_id
    have hnew : fs.newID hash address 2 none rep = some (some id) :=
      bind_eq_of_eq_some (hrep.generatedServerID.trans hid) rfl
    rw [hnew]
    refine ⟨.fresh { serverID := some id, serverFormatRep := rep }, rfl, ?_, ?_, ?_, rfl⟩
    · intro entry hentry
      rcases List.mem_append.mp hentry with hentry | hentry
      · exact hfs entry hentry
      · rw [List.mem_singleton.mp hentry]
        exact ⟨hrep, hmem, hid⟩
    · exact List.subset_append_left _ _
    · exact List.mem_append_right _ List.mem_cons_self

theorem formatServerHandleData_register {fs : FormatServer} {env : ServerEnv}
    {input : List UInt8} : formatServerHandleData hash env fs (chr 'f' :: input) =
      handleRegister hash env fs input := by
  refine bind_eq_of_eq_ok (a := (chr 'f', input)) rfl ?_
  show (if chr 'f' = chr 'T' then _ else if chr 'f' = chr 'f' then _ else _) = _
  rw [if_neg (by decide), if_pos rfl]

theorem formatServerHandleData_get {fs : FormatServer} {env : ServerEnv} {input : List UInt8} :
    formatServerHandleData hash env fs (chr 'g' :: input) = handleGet env fs input := by
  refine bind_eq_of_eq_ok (a := (chr 'g', input)) rfl ?_
  show (if chr 'g' = chr 'T' then _ else if chr 'g' = chr 'f' then _
    else if chr 'g' = chr 'P' then _ else if chr 'g' = chr 'g' then _ else _) = _
  rw [if_neg (by decide), if_neg (by decide), if_neg (by decide), if_pos rfl]

/-- What becomes of a registration of version 2 of which all has arrived. -/
theorem handle_register_arrived {fs : FormatServer} {env : ServerEnv} {n : Nat} {body : List UInt8}
    (hn : n < 2 ^ 16) (hbody : body.length = n - 2) :
    formatServerHandleData hash env fs (chr 'f' :: 2 :: (beBytes 2 n ++ body)) =
      if n < 2 then .error .violation
      else do
        let found ← orViolation (fs.findFormat hash env.address 2 none (beBytes 2 n ++ body))
        return { server := (fs.settle found).1,
                 reply := [chr 'I', UInt8.ofNat (fs.settle found).2.idLength] ++
                   (fs.settle found).2.serverID.getD [],
                 rest := [] } := by
  have hversion : charValue 2 = 2 := by decide
  have hshort : readShort (beBytes 2 n ++ body) = .ok (n, body) := by
    refine bind_eq_of_eq_ok (atomicRead_append body (length_beBytes 2 n)) ?_
    have hmod : n % 256 ^ 2 = n := Nat.mod_eq_of_lt hn
    show Except.ok (beValue (beBytes 2 n), body) = _
    rw [beValue_beBytes, hmod]
  have hread : atomicRead (n - 2) body = .ok (body, []) := by
    have happend := atomicRead_append [] hbody
    rwa [List.append_nil] at happend
  rw [formatServerHandleData_register]
  refine bind_eq_of_eq_ok (a := (2, beBytes 2 n ++ body)) rfl ?_
  show (if 2 < charValue 2 then _ else _) = _
  rw [if_neg (by rw [hversion]; omega)]
  refine bind_eq_of_eq_ok hshort ?_
  show (if n < 2 then _ else _) = _
  refine if_congr Iff.rfl rfl (bind_eq_of_eq_ok hread ?_)
  rw [hversion]

theorem handle_register {fs : FormatServer} (hfs : AllAssigned hash reps fs) {rep : List UInt8}
    (hrep : Short hash rep) (hmem : rep ∈ reps) (env : ServerEnv) :
    ∃ fs' id, formatServerHandleData hash env fs ([chr 'f', 2] ++ rep) =
        .ok { server := fs', reply := [chr 'I', 12] ++ id, rest := [] } ∧
      generateFormat3ServerID hash rep = some id ∧ AllAssigned hash reps fs' ∧
      fs.formats ⊆ fs'.formats ∧ ∃ entry ∈ fs'.formats, entry.serverFormatRep = rep := by
  obtain ⟨found, hfound, hassigned, hsubset, hentry, hentryRep⟩ :=
    findFormat_register hfs hrep hmem env.address
  obtain ⟨id, hid, hgenerated⟩ := (hassigned _ hentry).exists_id
  rw [hentryRep] at hgenerated
  refine ⟨(fs.settle found).1, id, ?_, hgenerated, hassigned, hsubset, _, hentry, hentryRep⟩
  have hidLength : (fs.settle found).2.idLength = 12 := by
    rw [IOFormatRep.idLength, hid]
    exact length_serverID hrep.records hgenerated
  have hwhole : beBytes 2 rep.length ++ rep.drop 2 = rep := by
    rw [← hrep.head, List.take_append_drop]
  have harrived := @handle_register_arrived hash fs env _ _ hrep.short (List.length_drop (l := rep))
  rw [hwhole, if_neg (by have := hrep.two_le; omega)] at harrived
  refine harrived.trans (bind_eq_of_eq_ok (congrArg orViolation hfound) ?_)
  rw [hidLength, hid]
  rfl

/-- A fetch is answered by the entry that has the ID. -/
theorem handle_get {fs : FormatServer} (hfs : AllAssigned hash reps fs) {sent : List UInt8}
    (hlow : 8 ≤ sent.length) (hhigh : sent.length < 128) {env : ServerEnv}
    (henv : env.masterAnswers = false) :
    ∃ reply, formatServerHandleData hash env fs ([chr 'g', UInt8.ofNat sent.length] ++ sent) =
        .ok { server := fs, reply, rest := [] } ∧
      ((reply = [chr 'f', 1, 0, 0] ∧ ∀ entry ∈ fs.formats, entry.serverID ≠ some sent) ∨
        ∃ entry ∈ fs.formats, entry.serverID = some sent ∧
          reply = [chr 'f', 1] ++ entry.serverFormatRep) := by
  obtain ⟨version, hversion⟩ := versionOfServerID_isSome hlow
  have hsearch := searchFormats_id (fun entry hentry => ⟨2, (hfs entry hentry).version⟩) hversion
  have hnat : (UInt8.ofNat sent.length).toNat = sent.length := by
    rw [UInt8.toNat_ofNat', Nat.mod_eq_of_lt (by omega)]
  have hchar : ¬ charValue (UInt8.ofNat sent.length) < 0 := by
    rw [charValue, hnat, signed_of_lt (by omega)]
    omega
  have hread : atomicRead (UInt8.ofNat sent.length).toNat sent = .ok (sent, []) := by
    have happend := atomicRead_append [] hnat.symm
    rwa [List.append_nil] at happend
  let answer : Option IOFormatRep → Except Stop Served := fun found =>
    found.elim
      (if env.masterAnswers then .error .violation else return Served.mk fs [chr 'f', 1, 0, 0] [])
      fun entry => do
        let length ← orViolation (repLength entry.serverFormatRep)
        let body ← orViolation (span entry.serverFormatRep 2 (length - 2))
        return Served.mk fs ([chr 'f', 1] ++ beBytes 2 length ++ body) []
  have hgo : ∀ {reply found}, (fs.formats.find? fun entry =>
        entry.serverID = some sent ∧ ∃ b ∈ sent, b ≠ 0) = found →
      answer found = .ok (Served.mk fs reply []) →
      formatServerHandleData hash env fs ([chr 'g', UInt8.ofNat sent.length] ++ sent) =
        .ok (Served.mk fs reply []) := by
    intro reply found hfound hreply
    show formatServerHandleData hash env fs (chr 'g' :: UInt8.ofNat sent.length :: sent) = _
    rw [formatServerHandleData_get]
    refine bind_eq_of_eq_ok (a := (UInt8.ofNat sent.length, sent)) rfl ?_
    show (if charValue (UInt8.ofNat sent.length) < 0 then _ else _) = _
    rw [if_neg hchar]
    refine bind_eq_of_eq_ok hread (bind_eq_of_eq_ok (congrArg orViolation hversion) ?_)
    rw [hsearch, hfound]
    cases found with
    | none => exact hreply
    | some entry => exact hreply
  cases hfind : fs.formats.find? fun entry =>
      entry.serverID = some sent ∧ ∃ b ∈ sent, b ≠ 0 with
  | none =>
    refine ⟨[chr 'f', 1, 0, 0], hgo hfind ?_, Or.inl ⟨rfl, fun entry hentry => ?_⟩⟩
    · have hmaster : ¬ env.masterAnswers = true := by simp [henv]
      exact if_neg hmaster
    · have hnone := List.find?_eq_none.mp hfind entry hentry
      rw [decide_eq_true_eq] at hnone
      exact fun hserverID => hnone ⟨hserverID, (hfs entry hentry).id_ne_zero hserverID⟩
  | some entry =>
    have hentry := List.mem_of_find?_eq_some hfind
    have hshort := (hfs entry hentry).short
    have htwo := hshort.two_le
    have hbody : span entry.serverFormatRep 2 (entry.serverFormatRep.length - 2) =
        some (entry.serverFormatRep.drop 2) := by
      rw [span, if_pos (by omega), List.take_of_length_le (by rw [List.length_drop])]
    have hwhole : [chr 'f', 1] ++ beBytes 2 entry.serverFormatRep.length ++
        entry.serverFormatRep.drop 2 = [chr 'f', 1] ++ entry.serverFormatRep := by
      rw [← hshort.head, List.append_assoc, List.take_append_drop]
    refine ⟨[chr 'f', 1] ++ entry.serverFormatRep, hgo hfind ?_,
      Or.inr ⟨entry, hentry, ?_, rfl⟩⟩
    · rw [← hwhole]
      exact bind_eq_of_eq_ok (congrArg orViolation hshort.repLength)
        (bind_eq_of_eq_ok (congrArg orViolation hbody) rfl)
    · have hsome := List.find?_some hfind
      rw [decide_eq_true_eq] at hsome
      exact hsome.1

/-! ## Replies -/

theorem readID_reply {id : List UInt8} (h : id.length = 12) :
    readID ([chr 'I', 12] ++ id) = some (id, []) := by
  have hguard : (chr 'I' = chr 'I' ∨ chr 'I' = chr 'P') ∧ 0 ≤ charValue 12 := by decide
  have hspan : span id 0 12 = some id := by
    rw [span, if_pos (by omega), List.drop_zero, ← h, List.take_length]
  show (guard _ >>= fun _ => span id 0 12 >>= fun value => some (value, id.drop 12)) = _
  rw [hspan, guard, if_pos hguard, ← h, List.drop_length]
  rfl

theorem readRep_none : readRep [chr 'f', 1, 0, 0] = some (none, []) := by decide

theorem readRep_some {rep : List UInt8} (h : Short hash rep) :
    readRep ([chr 'f', 1] ++ rep) = some (some rep, []) := by
  have htwo := h.two_le
  have hbody : span rep 2 (rep.length - 2) = some (rep.drop 2) := by
    rw [span, if_pos (by omega), List.take_of_length_le (by rw [List.length_drop])]
  have hblock : readBlock (1 :: rep) = some (some rep, []) := by
    refine bind_eq_of_eq_some (a := ()) (if_pos rfl) (bind_eq_of_eq_some h.repLength ?_)
    rw [if_neg (by omega)]
    refine bind_eq_of_eq_some (a := ()) (if_pos htwo) (bind_eq_of_eq_some hbody ?_)
    rw [← h.head, List.take_append_drop, List.drop_length]
    rfl
  show readRep (chr 'f' :: 1 :: rep) = _
  rw [readRep, if_neg (by decide), if_pos rfl]
  exact hblock

theorem fetchRequest_cases {id bytes : List UInt8} (h : fetchRequest id = some bytes) :
    ∃ sent, bytes = [chr 'g', UInt8.ofNat sent.length] ++ sent ∧ 8 ≤ sent.length ∧
      sent.length < 128 ∧ (versionOfServerID (some id) = some 2 → id.length = 12 → sent = id) := by
  simp only [fetchRequest, fetchedIDLength, Option.bind_eq_bind, Option.bind_eq_some_iff,
    Option.pure_def, Option.some.injEq] at h
  obtain ⟨n, ⟨version, hversion, hn⟩, sent, hsent, rfl⟩ := h
  have hmem : n = 8 ∨ n = 10 ∨ n = 12 := by
    by_cases hpos : 0 ≤ version
    · rw [if_pos hpos] at hn
      obtain h | h | h | h : version.toNat = 0 ∨ version.toNat = 1 ∨ version.toNat = 2 ∨
        3 ≤ version.toNat := by omega
      · rw [h] at hn
        exact Or.inl hn.symm
      · rw [h] at hn
        exact Or.inr (Or.inl hn.symm)
      · rw [h] at hn
        exact Or.inr (Or.inr hn.symm)
      · rw [List.getD_eq_getElem?_getD, List.getElem?_eq_none h] at hn
        exact Or.inl hn.symm
    · rw [if_neg hpos] at hn
      exact Or.inl hn.symm
  rw [span] at hsent
  split at hsent
  · next hle =>
    rw [List.drop_zero, Option.some.injEq] at hsent
    have hlength : sent.length = n := by
      rw [← hsent]
      exact List.length_take_of_le (by omega)
    refine ⟨sent, by rw [hlength], by omega, by omega, fun htwo hid => ?_⟩
    rw [hversion, Option.some.injEq] at htwo
    subst htwo
    replace hn : 12 = n := hn
    rw [← hsent, ← hn, ← hid, List.take_length]
  · cases hsent

theorem Request.bytes_ne_nil (request : Request) : request.bytes ≠ some [] := by
  intro h
  cases request with
  | register rep =>
    simp only [Request.bytes, registerRequest, Option.bind_eq_bind, Option.bind_eq_some_iff,
      Option.pure_def, Option.some.injEq] at h
    obtain ⟨n, -, bytes, -, bytes', -, h⟩ := h
    cases h
  | fetch id =>
    obtain ⟨sent, h, -⟩ := fetchRequest_cases h
    cases h

/-! ## What holds in a run -/

def RequestShort (hash : List UInt8 → UInt32 × UInt32) (reps : List (List UInt8)) :
    Request → Prop
  | .register rep => Short hash rep ∧ rep ∈ reps
  | .fetch _ => True

/-- A reply that a client can make use of. -/
def ReplyTo (hash : List UInt8 → UInt32 × UInt32) (formats : List IOFormatRep)
    (before : List Assigned) : Request → List UInt8 → Prop
  | .register rep, reply => ∃ id, generateFormat3ServerID hash rep = some id ∧
    reply = [chr 'I', 12] ++ id ∧ ∃ entry ∈ formats, entry.serverFormatRep = rep
  | .fetch id, reply => (reply = [chr 'f', 1, 0, 0] ∧ ∀ r ∈ before, r.id ≠ id) ∨
    ∃ rep, Short hash rep ∧ reply = [chr 'f', 1] ++ rep ∧ ∀ r ∈ before, r.id = id → r.rep = rep

/-- Between a client that is not waiting and the server there is nothing, and otherwise the
request or the reply to it. -/
def Exchange (hash : List UInt8 → UInt32 × UInt32) (reps : List (List UInt8))
    (formats : List IOFormatRep) (registrations : List Assigned) :
    Option (Request × List Assigned) → Connection → Prop
  | none, connection => connection.toServer = [] ∧ connection.toClient = []
  | some (request, before), connection =>
    RequestShort hash reps request ∧ before ⊆ registrations ∧
      (request.bytes = some connection.toServer ∧ connection.toClient = [] ∨
        connection.toServer = [] ∧ ReplyTo hash formats before request connection.toClient)

structure Clients.Inv (hash : List UInt8 → UInt32 × UInt32) (reps : List (List UInt8))
    (s : Clients) : Prop where
  running : s.serving.running = true
  connected : ∀ client, (s.serving.connections client).closed = false ∧
    (s.serving.connections client).ended = false
  formats : AllAssigned hash reps s.serving.server
  registrations : ∀ r ∈ s.registrations, generateFormat3ServerID hash r.rep = some r.id ∧
    ∃ entry ∈ s.serving.server.formats, entry.serverFormatRep = r.rep
  fetches : ∀ f ∈ s.fetches, ∀ r ∈ f.before, r.id = f.id → f.rep = some r.rep
  exchanges : ∀ client, Exchange hash reps s.serving.server.formats s.registrations
    (s.waiting client) (s.serving.connections client)

theorem ReplyTo.mono {formats formats' : List IOFormatRep} {before : List Assigned}
    {request : Request} {reply : List UInt8} (hsubset : formats ⊆ formats')
    (h : ReplyTo hash formats before request reply) : ReplyTo hash formats' before request reply := by
  cases request with
  | register rep =>
    obtain ⟨id, hid, hreply, entry, hentry, hrep⟩ := h
    exact ⟨id, hid, hreply, entry, hsubset hentry, hrep⟩
  | fetch id => exact h

theorem Exchange.mono {formats formats' : List IOFormatRep}
    {registrations registrations' : List Assigned} {waiting : Option (Request × List Assigned)} {connection : Connection}
    (hformats : formats ⊆ formats') (hregistrations : registrations ⊆ registrations')
    (h : Exchange hash reps formats registrations waiting connection) :
    Exchange hash reps formats' registrations' waiting connection := by
  cases waiting with
  | none => exact h
  | some pending =>
    obtain ⟨hrequest, hbefore, hbytes⟩ := h
    refine ⟨hrequest, fun r hr => hregistrations (hbefore hr), ?_⟩
    cases hbytes with
    | inl h => exact Or.inl h
    | inr h => exact Or.inr ⟨h.1, h.2.mono hformats⟩

namespace Clients

variable {s s' : Clients} {client : Nat}

/-- A step that concerns one client. -/
theorem Inv.of_client (h : s.Inv hash reps) {connection : Connection}
    {waiting : Option (Request × List FFS.Assigned)}
    (hrunning : s'.serving.running = true)
    (hconnections : s'.serving.connections =
      Function.update s.serving.connections client connection)
    (hconnected : connection.closed = false ∧ connection.ended = false)
    (hwaiting : s'.waiting = Function.update s.waiting client waiting)
    (hsubset : s.serving.server.formats ⊆ s'.serving.server.formats)
    (hassigned : s.registrations ⊆ s'.registrations)
    (hformats : AllAssigned hash reps s'.serving.server)
    (hregistrations : ∀ r ∈ s'.registrations, generateFormat3ServerID hash r.rep = some r.id ∧
      ∃ entry ∈ s'.serving.server.formats, entry.serverFormatRep = r.rep)
    (hfetches : ∀ f ∈ s'.fetches, ∀ r ∈ f.before, r.id = f.id → f.rep = some r.rep)
    (hexchange : Exchange hash reps s'.serving.server.formats s'.registrations waiting
      connection) : s'.Inv hash reps := by
  refine ⟨hrunning, fun c => ?_, hformats, hregistrations, hfetches, fun c => ?_⟩
  · rw [hconnections]
    by_cases hc : c = client
    · rw [hc, Function.update_self]
      exact hconnected
    · rw [Function.update_of_ne hc]
      exact h.connected c
  · rw [hconnections, hwaiting]
    by_cases hc : c = client
    · rw [hc, Function.update_self, Function.update_self]
      exact hexchange
    · rw [Function.update_of_ne hc, Function.update_of_ne hc]
      exact (h.exchanges c).mono hsubset hassigned

theorem Inv.ask (h : s.Inv hash reps) {request : Request}
    (hrequest : RequestShort hash reps request) :
    ∃ s', s.ask hash client request = some s' ∧ s'.Inv hash reps := by
  cases hwaiting : s.waiting client with
  | some pending => exact ⟨s, by simp only [Clients.ask, hwaiting], h⟩
  | none =>
    cases hbytes : request.bytes with
    | none => exact ⟨s, by simp only [Clients.ask, hwaiting, hbytes], h⟩
    | some bytes =>
      have hexchange := h.exchanges client
      rw [hwaiting] at hexchange
      obtain ⟨htoServer, htoClient⟩ := hexchange
      have hended : ¬ (s.serving.connections client).ended = true := by
        rw [(h.connected client).2]
        exact Bool.false_ne_true
      refine ⟨_, by simp only [Clients.ask, hwaiting, hbytes, Serving.step, if_neg hended]; rfl, ?_⟩
      refine h.of_client h.running rfl (h.connected client) rfl (List.Subset.refl _)
        (List.Subset.refl _) h.formats h.registrations h.fetches ?_
      refine ⟨hrequest, List.Subset.refl _, Or.inl ⟨?_, htoClient⟩⟩
      show request.bytes = some ((s.serving.connections client).toServer ++ bytes)
      rw [htoServer, List.nil_append, hbytes]

/-- What a registration was answered is in the server's list. -/
theorem Inv.of_registered (h : s.Inv hash reps) {r : FFS.Assigned} (hr : r ∈ s.registrations) :
    Short hash r.rep ∧ r.rep ∈ reps ∧
      ∃ entry ∈ s.serving.server.formats, entry.serverID = some r.id := by
  obtain ⟨hgenerated, entry, hentry, hrep⟩ := h.registrations r hr
  have hassigned := h.formats entry hentry
  refine ⟨hrep ▸ hassigned.short, hrep ▸ hassigned.mem, entry, hentry, ?_⟩
  rw [← hassigned.generated, hrep, hgenerated]

/-- The reply to a fetch is the representation that was registered. -/
theorem Inv.reply_fetch (h : s.Inv hash reps) (hdistinct : HashDistinct hash reps)
    {before : List FFS.Assigned} {id sent reply : List UInt8} (hbefore : before ⊆ s.registrations)
    (hsent : versionOfServerID (some id) = some 2 → id.length = 12 → sent = id)
    (hreply : (reply = [chr 'f', 1, 0, 0] ∧
        ∀ entry ∈ s.serving.server.formats, entry.serverID ≠ some sent) ∨
      ∃ entry ∈ s.serving.server.formats, entry.serverID = some sent ∧
        reply = [chr 'f', 1] ++ entry.serverFormatRep) :
    ReplyTo hash s.serving.server.formats before (.fetch id) reply := by
  have hsame : ∀ r ∈ before, r.id = id → sent = r.id := by
    intro r hr hid
    obtain ⟨hshort, -, -⟩ := h.of_registered (hbefore hr)
    have hgenerated := (h.registrations r (hbefore hr)).1
    subst hid
    exact hsent (versionOfServerID_of_short hshort hgenerated)
      (length_serverID hshort.records hgenerated)
  cases hreply with
  | inl hreply =>
    refine Or.inl ⟨hreply.1, fun r hr hid => ?_⟩
    obtain ⟨-, -, entry, hentry, hserverID⟩ := h.of_registered (hbefore hr)
    exact hreply.2 entry hentry (by rw [hserverID, hsame r hr hid])
  | inr hreply =>
    obtain ⟨entry, hentry, hserverID, hreply⟩ := hreply
    have hassigned := h.formats entry hentry
    refine Or.inr ⟨entry.serverFormatRep, hassigned.short, hreply, fun r hr hid => ?_⟩
    obtain ⟨hshort, hmem, -⟩ := h.of_registered (hbefore hr)
    have hentryID : generateFormat3ServerID hash entry.serverFormatRep = some r.id := by
      rw [hassigned.generated, hserverID, hsame r hr hid]
    exact hdistinct _ hmem _ hassigned.mem (hash_eq_of_serverID hshort.records
      hassigned.short.records (h.registrations r (hbefore hr)).1 hentryID)

theorem step_handle_of_ok (h : s.Inv hash reps) {address : UInt64} {fs : FormatServer}
    {reply : List UInt8} (htoClient : (s.serving.connections client).toClient = [])
    (hok : formatServerHandleData hash { address, masterAnswers := false } s.serving.server
      (s.serving.connections client).toServer = .ok { server := fs, reply, rest := [] }) :
    s.step hash (.handle client address) = some { s with
      serving := { s.serving with server := fs }.setConnection client
        { s.serving.connections client with toServer := [], toClient := reply } } := by
  rw [Clients.step, Serving.step, Serving.handle_of_ok h.running (h.connected client).1 hok,
    htoClient]
  rfl

/-- The server answers the request of a client, or has nothing to do. -/
theorem Inv.handle (h : s.Inv hash reps) (hdistinct : HashDistinct hash reps) (client : Nat)
    (address : UInt64) :
    ∃ s', s.step hash (.handle client address) = some s' ∧ s'.Inv hash reps ∧
      (s'.serving.connections client).toServer = [] ∧ s'.waiting = s.waiting := by
  have hexchange := h.exchanges client
  have hconnected := h.connected client
  have hidle : (s.serving.connections client).toServer = [] →
      ∃ s', s.step hash (.handle client address) = some s' ∧ s'.Inv hash reps ∧
        (s'.serving.connections client).toServer = [] ∧ s'.waiting = s.waiting := by
    intro hnil
    refine ⟨s, ?_, h, hnil, rfl⟩
    rw [Clients.step, Serving.step, Serving.handle_of_nil hconnected.2 hnil]
    rfl
  cases hwaiting : s.waiting client with
  | none =>
    rw [hwaiting] at hexchange
    exact hidle hexchange.1
  | some pending =>
    obtain ⟨request, before⟩ := pending
    rw [hwaiting] at hexchange
    obtain ⟨hrequest, hbefore, ⟨hbytes, htoClient⟩ | ⟨hnil, -⟩⟩ := hexchange
    · have hsame : s.waiting = Function.update s.waiting client (some (request, before)) := by
        rw [← hwaiting, Function.update_eq_self]
      cases request with
      | register rep =>
        obtain ⟨hrep, hmem⟩ := hrequest
        have htoServer := (registerRequest_of_short hrep).symm.trans hbytes
        rw [Option.some.injEq] at htoServer
        obtain ⟨fs, id, hok, hid, hassigned, hsubset, hentry⟩ :=
          handle_register h.formats hrep hmem { address, masterAnswers := false }
        rw [htoServer] at hok
        refine ⟨_, step_handle_of_ok h htoClient hok, ?_, ?_, rfl⟩
        · refine h.of_client h.running rfl hconnected hsame hsubset (List.Subset.refl _)
            hassigned (fun r hr => ?_) h.fetches ?_
          · obtain ⟨hgenerated, entry, hmem, hentryRep⟩ := h.registrations r hr
            exact ⟨hgenerated, entry, hsubset hmem, hentryRep⟩
          · exact ⟨⟨hrep, hmem⟩, hbefore, Or.inr ⟨rfl, id, hid, rfl, hentry⟩⟩
        · simp [Serving.setConnection]
      | fetch id =>
        obtain ⟨sent, htoServer, hlow, hhigh, hsent⟩ := fetchRequest_cases hbytes
        obtain ⟨reply, hok, hreply⟩ := handle_get h.formats hlow hhigh
          (show (ServerEnv.mk address false).masterAnswers = false from rfl)
        rw [← htoServer] at hok
        refine ⟨_, step_handle_of_ok h htoClient hok, ?_, ?_, rfl⟩
        · refine h.of_client h.running rfl hconnected hsame (List.Subset.refl _)
            (List.Subset.refl _) h.formats h.registrations h.fetches ?_
          exact ⟨trivial, hbefore, Or.inr ⟨rfl, h.reply_fetch hdistinct hbefore hsent hreply⟩⟩
        · simp [Serving.setConnection]
    · exact hidle hnil

/-- A client reads the reply to its request. -/
theorem Inv.receive (h : s.Inv hash reps) :
    (s.receive client).Inv hash reps ∧
      ((s.serving.connections client).toServer = [] → (s.receive client).waiting client = none) := by
  have hexchange := h.exchanges client
  have hconnected := h.connected client
  cases hwaiting : s.waiting client with
  | none =>
    have hsame : s.receive client = s := by simp only [Clients.receive, hwaiting]
    rw [hsame]
    exact ⟨h, fun _ => hwaiting⟩
  | some pending =>
    obtain ⟨request, before⟩ := pending
    rw [hwaiting] at hexchange
    obtain ⟨hrequest, hbefore, ⟨hbytes, htoClient⟩ | ⟨hnil, hreply⟩⟩ := hexchange
    · have hsame : s.receive client = s := by
        cases request <;> simp only [Clients.receive, hwaiting, htoClient] <;> rfl
      rw [hsame]
      refine ⟨h, fun hnil => ?_⟩
      rw [hnil] at hbytes
      exact absurd hbytes (Request.bytes_ne_nil request)
    · cases request with
      | register rep =>
        obtain ⟨id, hid, hreply, hentry⟩ := hreply
        have hread : readID (s.serving.connections client).toClient = some (id, []) := by
          rw [hreply]
          exact readID_reply (length_serverID hrequest.1.records hid)
        simp only [Clients.receive, hwaiting, hread]
        refine ⟨h.of_client h.running rfl hconnected rfl (List.Subset.refl _)
          (List.subset_append_left _ _) h.formats (fun r hr => ?_) h.fetches ⟨hnil, rfl⟩,
          fun _ => Function.update_self client _ _⟩
        rcases List.mem_append.mp hr with hr | hr
        · exact h.registrations r hr
        · rw [List.mem_singleton.mp hr]
          exact ⟨hid, hentry⟩
      | fetch id =>
        obtain ⟨rep, hread, hrep⟩ : ∃ rep,
            readRep (s.serving.connections client).toClient = some (rep, []) ∧
              ∀ r ∈ before, r.id = id → rep = some r.rep := by
          rcases hreply with ⟨hreply, hne⟩ | ⟨rep, hshort, hreply, heq⟩
          · exact ⟨none, by rw [hreply]; exact readRep_none,
              fun r hr hid => absurd hid (hne r hr)⟩
          · exact ⟨some rep, by rw [hreply]; exact readRep_some hshort,
              fun r hr hid => congrArg some (heq r hr hid).symm⟩
        simp only [Clients.receive, hwaiting, hread]
        refine ⟨h.of_client h.running rfl hconnected rfl (List.Subset.refl _)
          (List.Subset.refl _) h.formats h.registrations (fun f hf => ?_) ⟨hnil, rfl⟩,
          fun _ => Function.update_self client _ _⟩
        rcases List.mem_append.mp hf with hf | hf
        · exact h.fetches f hf
        · rw [List.mem_singleton.mp hf]
          exact hrep

/-- What the clients were answered, and that a client that waits is answered when the server
turns to it. -/
structure Agreed (hash : List UInt8 → UInt32 × UInt32) (s : Clients) : Prop where
  generated : ∀ r ∈ s.registrations, generateFormat3ServerID hash r.rep = some r.id
  same : ∀ r ∈ s.registrations, ∀ r' ∈ s.registrations, r.id = r'.id ↔ r.rep = r'.rep
  fetched : ∀ f ∈ s.fetches, ∀ r ∈ f.before, r.id = f.id → f.rep = some r.rep
  answered : ∀ client address, ∃ s',
    run (Clients.step hash) s [.handle client address, .receive client] = some s' ∧
      s'.waiting client = none

theorem Inv.agreed (h : s.Inv hash reps) (hdistinct : HashDistinct hash reps) :
    s.Agreed hash := by
  refine ⟨fun r hr => (h.registrations r hr).1, fun r hr r' hr' => ⟨fun hid => ?_, fun hrep => ?_⟩,
    h.fetches, fun client address => ?_⟩
  · obtain ⟨hshort, hmem, -⟩ := h.of_registered hr
    obtain ⟨hshort', hmem', -⟩ := h.of_registered hr'
    have hgenerated := (h.registrations r' hr').1
    rw [← hid] at hgenerated
    exact hdistinct _ hmem _ hmem'
      (hash_eq_of_serverID hshort.records hshort'.records (h.registrations r hr).1 hgenerated)
  · have hgenerated := (h.registrations r hr).1
    rw [hrep, (h.registrations r' hr').1, Option.some.injEq] at hgenerated
    exact hgenerated.symm
  · obtain ⟨s', hs', hinv, hnil, -⟩ := h.handle hdistinct client address
    refine ⟨s'.receive client, ?_, hinv.receive.2 hnil⟩
    rw [run_cons _ hs']
    exact run_cons [] rfl

end Clients

/-! ## Runs -/

/-- A format that is registered has a representation shorter than 64 KiB, and its ID is not
taken for one of version 0. -/
def EventShort (hash : List UInt8 → UInt32 × UInt32) (e : ClientEvent) : Prop :=
  ∀ rep ∈ e.reps, rep.length < 2 ^ 16 ∧ (hash rep).1 ≠ 0

theorem recordsLength_of_build {format : FMFormat} {rep : List UInt8}
    (h : buildServerFormatRep format = some rep) (hlt : rep.length < 2 ^ 32) :
    RecordsLength rep := by
  rw [buildServerFormatRep] at h
  split at h
  · cases h
  · rw [Option.some.injEq] at h
    have hlength := length_formatRep format
    rw [h] at hlength
    have hrecorded := recordedRepLength_rep (f := format) (format.bodies.flatMap subformatRep)
      (by omega)
    rw [h, ← hlength] at hrecorded
    exact hrecorded

theorem Clients.Inv.step {s : Clients} (h : s.Inv hash reps) (hdistinct : HashDistinct hash reps)
    {e : ClientEvent} (hshort : EventShort hash e) (hreps : e.reps ⊆ reps) :
    ∃ s', s.step hash e = some s' ∧ s'.Inv hash reps := by
  cases e with
  | register client format =>
    rw [Clients.step]
    cases hbuild : buildServerFormatRep format with
    | none => exact ⟨s, rfl, h⟩
    | some rep =>
      have hmem : rep ∈ (ClientEvent.register client format).reps := by
        simp [ClientEvent.reps, hbuild]
      obtain ⟨hlength, hword⟩ := hshort rep hmem
      exact h.ask ⟨⟨recordsLength_of_build hbuild (by omega), hlength, hword⟩, hreps hmem⟩
  | fetch client id => exact h.ask trivial
  | handle client address =>
    obtain ⟨s', hs', hinv, -⟩ := h.handle hdistinct client address
    exact ⟨s', hs', hinv⟩
  | receive client => exact ⟨s.receive client, rfl, h.receive.1⟩

theorem Clients.start_inv (pid port ipAddr : Nat) :
    (Clients.start (.create pid port ipAddr)).Inv hash reps where
  running := rfl
  connected _ := ⟨rfl, rfl⟩
  formats _ h := absurd h List.not_mem_nil
  registrations _ h := absurd h List.not_mem_nil
  fetches _ h := absurd h List.not_mem_nil
  exchanges _ := ⟨rfl, rfl⟩

/-- Any number of clients and the server agree in every run in which the representations that
are registered are shorter than 64 KiB. -/
theorem clients_agreed (hash : List UInt8 → UInt32 × UInt32) (pid port ipAddr : Nat)
    (events : List ClientEvent) (hdistinct : HashDistinct hash (registeredReps events))
    (hshort : ∀ e ∈ events, EventShort hash e) :
    ∃ s, run (Clients.step hash) (.start (.create pid port ipAddr)) events = some s ∧
      s.Agreed hash := by
  have hevents : ∀ e ∈ events, EventShort hash e ∧ e.reps ⊆ registeredReps events :=
    fun e he => ⟨hshort e he, fun rep hrep => List.mem_flatMap.mpr ⟨e, he, hrep⟩⟩
  obtain ⟨s, hs, hinv⟩ := run_invariant
    (fun s : Clients => s.Inv hash (registeredReps events))
    (fun s e hs he => hs.step hdistinct he.1 he.2)
    (Clients.start_inv pid port ipAddr) (runMeets_of_forall hevents)
  exact ⟨s, hs, hinv.agreed hdistinct⟩

/-- Two clients that register two formats, one of them both, and a third that fetches the first. -/
def pointEvents : List ClientEvent :=
  let format (name : CString) : FMFormat := { top := pointFormat name [], subformats := [] }
  [.register 0 (format (cstr ['p'] (.refl false))), .register 1 (format (cstr ['q'] (.refl false))),
   .handle 1 0, .handle 0 0, .receive 0, .register 0 (format (cstr ['q'] (.refl false))),
   .fetch 2 [2, 0, 0, 19, 94, 203, 69, 26, 71, 33, 167, 70],
   .handle 0 0, .receive 1, .handle 2 0, .receive 0, .receive 2]

theorem clients_agreed_points :
    ∃ s, run (Clients.step hashlittle2) (.start (.create 1 5347 1)) pointEvents = some s ∧
      s.Agreed hashlittle2 := by
  refine clients_agreed hashlittle2 1 5347 1 pointEvents ?_ ?_
  · unfold HashDistinct
    decide +kernel
  · unfold EventShort
    decide +kernel

/-! ## Too long to send -/

/-- The server reads past the part of a long representation that it is sent. -/
theorem handle_register_long {fs : FormatServer} (hfs : fs.formats = []) (env : ServerEnv)
    {rep : List UInt8} (hrep : RecordsLength rep) (hlong : 2 ^ 16 ≤ rep.length) :
    ∃ bytes, registerRequest rep = some bytes ∧
      formatServerHandleData hash env fs bytes = .error .violation := by
  obtain ⟨n, hn⟩ : ∃ n, repLength rep = some n := by
    simp only [RecordsLength, recordedRepLength, lengthAt, Option.bind_eq_bind,
      Option.bind_eq_some_iff] at hrep
    obtain ⟨low, hlow, -⟩ := hrep
    exact ⟨low, hlow⟩
  obtain ⟨htwo, hlt, hhead⟩ := repLength_iff.mp hn
  have hbody : ((rep.drop 2).take (n - 2)).length = n - 2 :=
    List.length_take_of_le (by rw [List.length_drop]; omega)
  have hrequest : registerRequest rep =
      some (chr 'f' :: 2 :: (beBytes 2 n ++ (rep.drop 2).take (n - 2))) := by
    refine bind_eq_of_eq_some hn ?_
    rw [span, if_pos (by omega), span, if_pos (by omega), List.drop_zero, hhead]
    rfl
  refine ⟨_, hrequest, (handle_register_arrived hlt hbody).trans ?_⟩
  by_cases hsmall : n < 2
  · exact if_pos hsmall
  · rw [if_neg hsmall]
    have hpart : beBytes 2 n ++ (rep.drop 2).take (n - 2) = rep.take n := by
      conv_rhs => rw [show n = 2 + (n - 2) by omega, List.take_add, hhead]
    have hwhole : ¬ HoldsWhole (rep.take n) := by
      intro h
      obtain ⟨m, hm, hle⟩ := h
      have happend := recordedRepLength_append (rep.drop n) hm
      rw [List.take_append_drop, hrep, Option.some.injEq] at happend
      have := List.length_take_le n rep
      omega
    have hnew : fs.newID hash env.address 2 none (rep.take n) = none := by
      rw [Option.eq_none_iff_forall_ne_some]
      exact fun new hnew => hwhole (newID_isSome_iff.mp ⟨new, hnew⟩ rfl).1
    have hfind : fs.findFormat hash env.address 2 none (rep.take n) = none := by
      have hnone : versionOfServerID none = some (-1) := rfl
      simp [FormatServer.findFormat, hnone, hfs, searchFormats, hnew]
    rw [hpart, hfind]
    rfl

theorem register_long {format : FMFormat} {rep : List UInt8}
    (hbuild : buildServerFormatRep format = some rep) (hrep : RecordsLength rep)
    (hlong : 2 ^ 16 ≤ rep.length) (pid port ipAddr : Nat) (address : UInt64) :
    run (Clients.step hash) (.start (.create pid port ipAddr))
      [.register 0 format, .handle 0 address] = none := by
  obtain ⟨bytes, hrequest, hviolation⟩ := @handle_register_long hash (.create pid port ipAddr) rfl
    { address, masterAnswers := false } rep hrep hlong
  have hbytes : (Request.register rep).bytes = some bytes := hrequest
  have hsend : (Clients.start (.create pid port ipAddr)).step hash (.register 0 format) =
      some { Clients.start (.create pid port ipAddr) with
        serving := (Serving.start (.create pid port ipAddr)).setConnection 0
          { toServer := bytes, toClient := [], ended := false, closed := false },
        waiting := Function.update (fun _ => none) 0 (some (.register rep, [])) } := by
    simp only [Clients.step, hbuild, Clients.ask, hbytes]
    rfl
  rw [run_cons _ hsend, run, List.foldlM_cons, Clients.step, Serving.step]
  have hhandle : ((Serving.start (.create pid port ipAddr)).setConnection 0
      { toServer := bytes, toClient := [], ended := false, closed := false }).handle hash 0
        { address, masterAnswers := false } = none := by
    simp [Serving.handle, Serving.setConnection, Serving.start, hviolation]
  rw [hhandle]
  rfl

theorem not_served_of_longName {name : CString} (hlong : 2 ^ 16 ≤ name.length)
    (hshort : name.length < 2 ^ 17) :
    HashDistinct hash (registeredReps
      [.register 0 { top := pointFormat name [], subformats := [] }, .handle 0 0]) ∧
    run (Clients.step hash) (.start (.create 1 5347 1))
      [.register 0 { top := pointFormat name [], subformats := [] }, .handle 0 0] = none := by
  have hsize := formatRepSize_point name
  have hround := le_roundUp4 (name.length + 55)
  have hroundLt : roundUp4 (name.length + 55) < name.length + 59 := by
    unfold roundUp4
    omega
  have hbuild : buildServerFormatRep { top := pointFormat name [], subformats := [] } = some _ :=
    if_neg (Nat.not_succ_le_zero 99)
  have hlength := length_formatRep { top := pointFormat name [], subformats := [] }
  constructor
  · intro r hr s hs _
    simp only [registeredReps, ClientEvent.reps, hbuild, List.flatMap_cons, List.flatMap_nil,
      Option.toList_some, List.append_nil, List.mem_singleton] at hr hs
    rw [hr, hs]
  · exact register_long hbuild (recordsLength_of_build hbuild (by omega)) (by omega) 1 5347 1 0

theorem register_longName_not_served :
    HashDistinct hashlittle2 (registeredReps
      [.register 0 { top := pointFormat longName [], subformats := [] }, .handle 0 0]) ∧
    run (Clients.step hashlittle2) (.start (.create 1 5347 1))
      [.register 0 { top := pointFormat longName [], subformats := [] }, .handle 0 0] = none :=
  not_served_of_longName (by rw [length_longName]) (by rw [length_longName]; omega)

end FFS
