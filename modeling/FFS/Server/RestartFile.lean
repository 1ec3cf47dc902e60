import FFS.Server.ListIntegrity

/-!
# The restart file

`dump_formats_to_file` writes a record for every format of the list and
`read_formats_from_file` enters the formats of the records that it does not know.  The
length of an ID is in host order on both sides.  The length of a representation is dumped as
it stands in the representation, in network order, and read in host order.

All writes to the file succeed, and the server that reads it is no proxy.
-/

namespace FFS

open Machine

/-- A record of the file as it is read. -/
structure RestartRecord where
  id : List UInt8
  rep : List UInt8
deriving DecidableEq

def RestartRecord.format (r : RestartRecord) : IOFormatRep :=
  { serverID := some r.id, serverFormatRep := r.rep }

/-! ## Writing -/

/-- What is dumped of an entry.  The length of the ID has two bytes. -/
def dumpFormat (entry : IOFormatRep) : Option (List UInt8) := do
  let repLen ← repLength entry.serverFormatRep
  let idLen := entry.idLength % 2 ^ 16
  return leBytes 2 idLen ++ (entry.serverID.getD []).take idLen
    ++ (← span entry.serverFormatRep 0 repLen)

/-- `dump_formats_to_file` -/
def FormatServer.dumpFormatsToFile (fs : FormatServer) : Option (List UInt8) :=
  (fs.formats.mapM dumpFormat).map List.flatten

/-! ## Reading -/

/-- A record of the file.  The length is stored in a block of that many bytes before anything
else. -/
def readRecord (input : List UInt8) : Except Stop (RestartRecord × List UInt8) := do
  let (idLen, input) ← atomicRead 2 input
  if 128 < leValue idLen then .error .close
  else
    let (id, input) ← atomicRead (leValue idLen) input
    let (repLen, input) ← atomicRead 2 input
    if leValue repLen < 2 then .error .violation
    else
      let (body, input) ← atomicRead (leValue repLen - 2) input
      return ({ id, rep := beBytes 2 (leValue repLen) ++ body }, input)

/-- A format from the file behind the one that was entered last, or as the whole list when
none was. -/
def FormatServer.enterRead (fs : FormatServer) (last : Bool) (entry : IOFormatRep) : FormatServer :=
  { fs with
    formats := if last then fs.formats ++ [entry] else [entry],
    serverFormatCount := fs.serverFormatCount + 1 }

/-- The loop of `read_formats_from_file`.  `last` says whether a format has been entered. -/
def readFormats : Nat → FormatServer → Bool → List UInt8 → Option FormatServer
  | 0, fs, _, _ => some fs
  | rounds + 1, fs, last, input =>
    match readRecord input with
    | .error .violation => none
    | .error _ => some fs
    | .ok (r, rest) => do
      let version ← versionOfServerID (some r.id)
      match ← searchFormats (some r.id) none version fs.formats with
      | some _ => readFormats rounds fs last rest
      | none => readFormats rounds (fs.enterRead last r.format) true rest

/-- `read_formats_from_file` -/
def FormatServer.readFormatsFromFile (fs : FormatServer) (file : List UInt8) :
    Option FormatServer := readFormats (file.length + 1) fs false file

/-! ## What is read -/

/-- The ID is one of the list's and not all zero. -/
def Known (formats : List IOFormatRep) (id : List UInt8) : Prop :=
  (∃ entry ∈ formats, entry.serverID = some id) ∧ ∃ b ∈ id, b ≠ 0

/-- An ID that the reader can look up. -/
def Readable (id : List UInt8) : Prop := ∃ v, versionOfServerID (some id) = some v

/-- A record that the reader can make. -/
structure RestartRecord.WellFormed (r : RestartRecord) : Prop where
  idLength : r.id.length ≤ 128
  repLength : repLength r.rep = some r.rep.length

/-- What the reader takes for a record. -/
def RestartRecord.bytes (r : RestartRecord) : List UInt8 :=
  leBytes 2 r.id.length ++ (r.id ++ (leBytes 2 r.rep.length ++ r.rep.drop 2))

theorem atomicRead_eq_ok_iff {n : Nat} {input bytes rest : List UInt8} :
    atomicRead n input = .ok (bytes, rest) ↔ bytes.length = n ∧ input = bytes ++ rest := by
  rw [atomicRead]
  constructor
  · intro h
    split at h
    · next hle =>
      cases h
      exact ⟨List.length_take_of_le hle, (List.take_append_drop n input).symm⟩
    · cases h
  · intro h
    obtain ⟨rfl, rfl⟩ := h
    rw [if_pos (by rw [List.length_append]; omega), List.take_left, List.drop_left]

theorem leValue_lt_of_length {bytes : List UInt8} (h : bytes.length = 2) :
    leValue bytes < 2 ^ 16 := by
  have hlt := leValue_lt bytes
  rw [h] at hlt
  exact hlt

theorem leBytes_two {bytes : List UInt8} (h : bytes.length = 2) :
    leBytes 2 (leValue bytes) = bytes := by
  rw [← h]
  exact leBytes_leValue bytes

theorem readRecord_iff {input rest : List UInt8} {r : RestartRecord} :
    readRecord input = .ok (r, rest) ↔ r.WellFormed ∧ input = r.bytes ++ rest := by
  constructor
  · intro h
    simp only [readRecord, bind_eq_ok_iff, Prod.exists, atomicRead_eq_ok_iff] at h
    obtain ⟨idLen, input₁, ⟨hidLen, rfl⟩, h⟩ := h
    split at h
    · cases h
    · next hle =>
      simp only [bind_eq_ok_iff, Prod.exists, atomicRead_eq_ok_iff] at h
      obtain ⟨id, input₂, ⟨hid, rfl⟩, repLen, input₃, ⟨hrepLen, rfl⟩, h⟩ := h
      split at h
      · cases h
      · next htwo =>
        simp only [bind_eq_ok_iff, Prod.exists, atomicRead_eq_ok_iff] at h
        obtain ⟨body, input₄, ⟨hbody, rfl⟩, h⟩ := h
        cases h
        have hlength : (beBytes 2 (leValue repLen) ++ body).length = leValue repLen := by
          rw [List.length_append, length_beBytes]
          omega
        refine ⟨⟨by show id.length ≤ 128; omega, ?_⟩, ?_⟩
        · refine repLength_iff.mpr ⟨?_, ?_, ?_⟩
          · show 2 ≤ (beBytes 2 (leValue repLen) ++ body).length
            omega
          · show (beBytes 2 (leValue repLen) ++ body).length < 2 ^ 16
            rw [hlength]
            exact leValue_lt_of_length hrepLen
          · show (beBytes 2 (leValue repLen) ++ body).take 2 =
              beBytes 2 (beBytes 2 (leValue repLen) ++ body).length
            rw [hlength]
            exact List.take_left' (length_beBytes _ _)
        · have hdrop : (beBytes 2 (leValue repLen) ++ body).drop 2 = body :=
            List.drop_left' (length_beBytes _ _)
          simp only [RestartRecord.bytes, hid, hlength, hdrop, leBytes_two hidLen,
            leBytes_two hrepLen, List.append_assoc]
  · intro h
    obtain ⟨⟨hid, hrep⟩, rfl⟩ := h
    obtain ⟨htwo, hlt, hhead⟩ := repLength_iff.mp hrep
    have hidLen : leValue (leBytes 2 r.id.length) = r.id.length := by
      rw [leValue_leBytes]
      exact Nat.mod_eq_of_lt (by omega)
    have hrepLen : leValue (leBytes 2 r.rep.length) = r.rep.length := by
      rw [leValue_leBytes]
      exact Nat.mod_eq_of_lt hlt
    have hwhole : beBytes 2 r.rep.length ++ r.rep.drop 2 = r.rep := by
      rw [← hhead, List.take_append_drop]
    simp only [RestartRecord.bytes, List.append_assoc]
    refine bind_eq_of_eq_ok (atomicRead_eq_ok_iff.mpr ⟨length_leBytes _ _, rfl⟩) ?_
    show (if 128 < leValue (leBytes 2 r.id.length) then _ else _) = _
    rw [hidLen, if_neg (by omega)]
    refine bind_eq_of_eq_ok (atomicRead_eq_ok_iff.mpr ⟨rfl, rfl⟩) ?_
    refine bind_eq_of_eq_ok (atomicRead_eq_ok_iff.mpr ⟨length_leBytes _ _, rfl⟩) ?_
    show (if leValue (leBytes 2 r.rep.length) < 2 then _ else _) = _
    rw [hrepLen, if_neg (by omega)]
    refine bind_eq_of_eq_ok
      (atomicRead_eq_ok_iff.mpr ⟨by rw [List.length_drop], rfl⟩) ?_
    show Except.ok (RestartRecord.mk r.id (beBytes 2 r.rep.length ++ r.rep.drop 2), rest) = _
    rw [hwhole]

theorem RestartRecord.length_bytes (r : RestartRecord) : 4 ≤ r.bytes.length := by
  simp only [RestartRecord.bytes, List.length_append, length_leBytes]
  omega

/-! ## One round -/

section round

variable {rounds : Nat} {fs fs' : FormatServer} {last : Bool} {input rest : List UInt8}
  {r : RestartRecord}

theorem search_known_iff (hfs : fs.Readable) {id : List UInt8} (hid : Readable id) :
    ∃ v found, versionOfServerID (some id) = some v ∧
      searchFormats (some id) none v fs.formats = some found ∧
      (found = none ↔ ¬ Known fs.formats id) := by
  obtain ⟨v, hv⟩ := hid
  refine ⟨v, _, hv, searchFormats_id hfs hv, ?_⟩
  rw [List.find?_eq_none, Known]
  simp only [decide_eq_true_eq, not_and, not_exists]
  constructor
  · intro h hentry
    obtain ⟨entry, hmem, hid⟩ := hentry
    exact h entry hmem hid
  · intro h entry hmem hid
    exact h ⟨entry, hmem, hid⟩

theorem readFormats_known (hfs : fs.Readable) (hread : readRecord input = .ok (r, rest))
    (hid : Readable r.id) (hknown : Known fs.formats r.id) :
    readFormats (rounds + 1) fs last input = readFormats rounds fs last rest := by
  obtain ⟨v, found, hv, hsearch, hfound⟩ := search_known_iff hfs hid
  cases found with
  | none => exact absurd hknown (hfound.mp rfl)
  | some entry => simp [readFormats, hread, hv, hsearch]

theorem readFormats_new (hfs : fs.Readable) (hread : readRecord input = .ok (r, rest))
    (hid : Readable r.id) (hknown : ¬ Known fs.formats r.id) :
    readFormats (rounds + 1) fs last input =
      readFormats rounds (fs.enterRead last r.format) true rest := by
  obtain ⟨v, found, hv, hsearch, hfound⟩ := search_known_iff hfs hid
  obtain rfl := hfound.mpr hknown
  simp [readFormats, hread, hv, hsearch]

theorem readFormats_unreadable (hread : readRecord input = .ok (r, rest))
    (hid : ¬ Readable r.id) : readFormats (rounds + 1) fs last input = none := by
  have hv : versionOfServerID (some r.id) = none :=
    Option.eq_none_iff_forall_ne_some.mpr fun v hv => hid ⟨v, hv⟩
  simp [readFormats, hread, hv]

/-- What a round does when it does not end the loop. -/
theorem readFormats_cases (hfs : fs.Readable)
    (h : readFormats (rounds + 1) fs last input = some fs') :
    fs' = fs ∨ ∃ r rest, readRecord input = .ok (r, rest) ∧ Readable r.id ∧
      (Known fs.formats r.id ∧ readFormats rounds fs last rest = some fs' ∨
        ¬ Known fs.formats r.id ∧
          readFormats rounds (fs.enterRead last r.format) true rest = some fs') := by
  cases hread : readRecord input with
  | error stop =>
    rw [readFormats, hread] at h
    cases stop with
    | violation => cases h
    | waiting => exact Or.inl (Option.some.inj h).symm
    | close => exact Or.inl (Option.some.inj h).symm
    | exit => exact Or.inl (Option.some.inj h).symm
  | ok result =>
    obtain ⟨r, rest⟩ := result
    by_cases hid : Readable r.id
    · refine Or.inr ⟨r, rest, rfl, hid, ?_⟩
      by_cases hknown : Known fs.formats r.id
      · rw [readFormats_known hfs hread hid hknown] at h
        exact Or.inl ⟨hknown, h⟩
      · rw [readFormats_new hfs hread hid hknown] at h
        exact Or.inr ⟨hknown, h⟩
    · rw [readFormats_unreadable hread hid] at h
      cases h

theorem readable_enterRead (hfs : fs.Readable) (hid : Readable r.id) :
    (fs.enterRead last r.format).Readable := by
  intro entry hentry
  rw [FormatServer.enterRead] at hentry
  by_cases hlast : last = true
  · rw [if_pos hlast] at hentry
    rcases List.mem_append.mp hentry with hentry | hentry
    · exact hfs entry hentry
    · rw [List.mem_singleton.mp hentry]
      exact hid
  · rw [if_neg hlast] at hentry
    rw [List.mem_singleton.mp hentry]
    exact hid

/-- In a fresh server every format goes behind the last one. -/
theorem enterRead_formats (hlast : last = false → fs.formats = []) (entry : IOFormatRep) :
    (fs.enterRead last entry).formats = fs.formats ++ [entry] := by
  cases last with
  | true => rfl
  | false => rw [hlast rfl]; rfl

/-- A format that the reader enters into a list. -/
def Enterable (formats : List IOFormatRep) (entry : IOFormatRep) : Prop :=
  ∃ r : RestartRecord, entry = r.format ∧ r.WellFormed ∧ Readable r.id ∧ ¬ Known formats r.id

theorem readFormats_appends (hfs : fs.Readable) (hlast : last = false → fs.formats = [])
    (h : readFormats rounds fs last input = some fs') :
    ∃ more, fs'.formats = fs.formats ++ more ∧ ∀ entry ∈ more.head?, Enterable fs.formats entry := by
  induction rounds generalizing fs last input with
  | zero =>
    cases h
    exact ⟨[], (List.append_nil _).symm, fun entry h => by cases h⟩
  | succ rounds ih =>
    rcases readFormats_cases hfs h with rfl | ⟨r, rest, hread, hid, ⟨-, h⟩ | ⟨hknown, h⟩⟩
    · exact ⟨[], (List.append_nil _).symm, fun entry h => by cases h⟩
    · exact ih hfs hlast h
    · obtain ⟨more, hmore, -⟩ := ih (readable_enterRead hfs hid) (fun h => by cases h) h
      refine ⟨r.format :: more, ?_, fun entry hentry => ?_⟩
      · rw [hmore, enterRead_formats hlast, List.append_assoc]
        rfl
      · cases hentry
        exact ⟨r, rfl, (readRecord_iff.mp hread).1, hid, hknown⟩

end round

/-! ## A dump that is read back -/

/-- The ID and the representation of an entry, which is as long as it says. -/
def IOFormatRep.content (entry : IOFormatRep) : Option (List UInt8) × Option (List UInt8) :=
  (entry.serverID, (repLength entry.serverFormatRep).bind fun n => span entry.serverFormatRep 0 n)

/-- The ID has a version and fits into the reader's buffer, and the length of the representation
is the same in both byte orders. -/
def Restorable (entry : IOFormatRep) : Prop :=
  ∃ id n, entry.serverID = some id ∧ id.length ≤ 128 ∧ Readable id ∧
    repLength entry.serverFormatRep = some n ∧ 2 ≤ n ∧ n ≤ entry.serverFormatRep.length ∧
    n / 256 = n % 256

/-- Two entries that have the same ID have one that is all zero. -/
def DistinctIDs (e e' : IOFormatRep) : Prop :=
  ∀ id, e.serverID = some id → e'.serverID = some id → ∀ b ∈ id, b = 0

theorem leBytes_eq_beBytes_iff {n : Nat} (hn : n < 2 ^ 16) :
    leBytes 2 n = beBytes 2 n ↔ n / 256 = n % 256 := by
  have hbytes : leBytes 2 n = [UInt8.ofNat n, UInt8.ofNat (n / 256)] := rfl
  rw [beBytes, hbytes]
  simp only [List.reverse_cons, List.reverse_nil, List.nil_append, List.singleton_append,
    List.cons.injEq, and_true, ← UInt8.toNat_inj, UInt8.toNat_ofNat']
  omega

theorem content_format {r : RestartRecord} (h : r.WellFormed) :
    r.format.content = (some r.id, some r.rep) := by
  have hspan : span r.rep 0 r.rep.length = some r.rep := by
    rw [span, if_pos (by omega), List.drop_zero, List.take_length]
  simp [IOFormatRep.content, RestartRecord.format, h.repLength, hspan]

/-- What an entry is that looks like one that was entered. -/
theorem of_content_eq {entry : IOFormatRep} {r : RestartRecord} (hr : r.WellFormed)
    (h : r.format.content = entry.content) : entry.serverID = some r.id ∧
      repLength entry.serverFormatRep = some r.rep.length ∧
      span entry.serverFormatRep 0 r.rep.length = some r.rep := by
  rw [content_format hr, IOFormatRep.content, Prod.mk.injEq, eq_comm (a := some r.rep),
    Option.bind_eq_some_iff] at h
  obtain ⟨hid, n, hn, hspan⟩ := h
  have hlength : n = r.rep.length := by
    rw [span] at hspan
    split at hspan
    · rw [Option.some.injEq] at hspan
      rw [← hspan, List.length_take, List.length_drop]
      omega
    · cases hspan
  rw [← hlength]
  exact ⟨hid.symm, hn, hspan⟩

theorem dumpFormat_eq {entry : IOFormatRep} {r : RestartRecord} (hid : entry.serverID = some r.id)
    (hlength : r.id.length ≤ 128) (hn : repLength entry.serverFormatRep = some r.rep.length)
    (hspan : span entry.serverFormatRep 0 r.rep.length = some r.rep) :
    dumpFormat entry = some (leBytes 2 r.id.length ++ (r.id ++ r.rep)) := by
  have hidLen : entry.idLength % 2 ^ 16 = r.id.length := by
    rw [IOFormatRep.idLength, hid]
    exact Nat.mod_eq_of_lt (by rw [Option.getD_some]; omega)
  refine bind_eq_of_eq_some hn (bind_eq_of_eq_some hspan ?_)
  show some (leBytes 2 (entry.idLength % 2 ^ 16) ++
    (entry.serverID.getD []).take (entry.idLength % 2 ^ 16) ++ r.rep) = _
  rw [hidLen, hid, Option.getD_some, List.take_length, List.append_assoc]

/-- The reader takes the length the other way round. -/
theorem bytes_eq_iff {r r' : RestartRecord} (hr : r.WellFormed) (hr' : r'.WellFormed)
    {rest rest' : List UInt8}
    (h : leBytes 2 r'.id.length ++ (r'.id ++ r'.rep) ++ rest' = r.bytes ++ rest) :
    r.id = r'.id ∧ leBytes 2 r.rep.length = beBytes 2 r'.rep.length := by
  obtain ⟨-, -, hhead⟩ := repLength_iff.mp hr'.repLength
  simp only [RestartRecord.bytes, List.append_assoc] at h
  obtain ⟨hidLen, h⟩ := List.append_inj h (by simp)
  have hlength : r'.id.length = r.id.length := by
    have hmod := leBytes_inj hidLen
    have := hr.idLength
    have := hr'.idLength
    omega
  obtain ⟨hid, h⟩ := List.append_inj h hlength
  rw [← List.take_append_drop 2 r'.rep, hhead, List.append_assoc] at h
  exact ⟨hid.symm, (List.append_inj h (by simp)).1.symm⟩

theorem dump_eq_bytes {r : RestartRecord} (hr : r.WellFormed)
    (hsame : leBytes 2 r.rep.length = beBytes 2 r.rep.length) :
    leBytes 2 r.id.length ++ (r.id ++ r.rep) = r.bytes := by
  obtain ⟨-, -, hhead⟩ := repLength_iff.mp hr.repLength
  rw [RestartRecord.bytes, hsame, ← hhead, List.take_append_drop]

theorem restorable_iff {entry : IOFormatRep} : Restorable entry ↔ ∃ r : RestartRecord,
    r.WellFormed ∧ Readable r.id ∧ entry.content = r.format.content ∧
      leBytes 2 r.rep.length = beBytes 2 r.rep.length := by
  constructor
  · intro h
    obtain ⟨id, n, hid, hidLength, hreadable, hn, htwo, hle, hsame⟩ := h
    obtain ⟨hlen, hlt, hhead⟩ := repLength_iff.mp hn
    have hlength : (entry.serverFormatRep.take n).length = n := List.length_take_of_le hle
    have hr : (RestartRecord.mk id (entry.serverFormatRep.take n)).WellFormed := by
      refine ⟨hidLength, repLength_iff.mpr ?_⟩
      rw [hlength, List.take_take, Nat.min_eq_left htwo]
      exact ⟨htwo, hlt, hhead⟩
    refine ⟨_, hr, hreadable, ?_, ?_⟩
    · rw [content_format hr, IOFormatRep.content, hid, hn, Option.bind_some, span,
        if_pos (by omega), List.drop_zero]
    · rw [hlength]
      exact (leBytes_eq_beBytes_iff hlt).mpr hsame
  · intro h
    obtain ⟨r, hr, hreadable, hcontent, hsame⟩ := h
    obtain ⟨hid, hn, hspan⟩ := of_content_eq hr hcontent.symm
    obtain ⟨htwo, hlt, -⟩ := repLength_iff.mp hr.repLength
    refine ⟨r.id, r.rep.length, hid, hr.idLength, hreadable, hn, htwo, ?_,
      (leBytes_eq_beBytes_iff hlt).mp hsame⟩
    rw [span] at hspan
    split at hspan
    · omega
    · cases hspan

theorem known_append_iff {formats : List IOFormatRep} {r : RestartRecord} {id : List UInt8} :
    Known (formats ++ [r.format]) id ↔
      Known formats id ∨ r.id = id ∧ ∃ b ∈ id, b ≠ 0 := by
  simp only [Known, List.mem_append, List.mem_singleton, or_and_right, exists_or, exists_eq_left,
    RestartRecord.format, Option.some.injEq]

/-- The first entry that comes back was restorable: what the reader made of it is entered, and a
record that is dropped leaves its ID known. -/
theorem restored_head {entry : IOFormatRep} {dump rest : List UInt8} {rounds : Nat}
    {fs fs' : FormatServer} {last : Bool}
    {tail : List (Option (List UInt8) × Option (List UInt8))}
    (hdump : dumpFormat entry = some dump) (hfs : fs.Readable)
    (hlast : last = false → fs.formats = [])
    (hread : readFormats (rounds + 1) fs last (dump ++ rest) = some fs')
    (hcontent : fs'.formats.map (·.content) =
      fs.formats.map (·.content) ++ entry.content :: tail) :
    ∃ r : RestartRecord, r.WellFormed ∧ Readable r.id ∧ entry.content = r.format.content ∧
      leBytes 2 r.rep.length = beBytes 2 r.rep.length ∧ ¬ Known fs.formats r.id := by
  obtain ⟨more, hmore, hhead⟩ := readFormats_appends hfs hlast hread
  rw [hmore, List.map_append, List.append_cancel_left_eq] at hcontent
  cases more with
  | nil => cases hcontent
  | cons entered more =>
    obtain ⟨r, rfl, hr, hreadable, hknown⟩ := hhead entered rfl
    rw [List.map_cons, List.cons.injEq] at hcontent
    obtain ⟨hid, hn, hspan⟩ := of_content_eq hr hcontent.1
    rw [dumpFormat_eq hid hr.idLength hn hspan, Option.some.injEq] at hdump
    rcases readFormats_cases hfs hread with rfl | ⟨r₁, rest₁, hread₁, hid₁, hround⟩
    · exact absurd (congrArg List.length hmore) (by simp)
    · obtain ⟨hr₁, hinput⟩ := readRecord_iff.mp hread₁
      rw [← hdump] at hinput
      obtain ⟨hsameID, hbytes⟩ := bytes_eq_iff hr₁ hr hinput
      rcases hround with ⟨hknown₁, -⟩ | ⟨-, hnext⟩
      · exact absurd (hsameID ▸ hknown₁) hknown
      · obtain ⟨more₁, hmore₁, -⟩ :=
          readFormats_appends (readable_enterRead hfs hid₁) (fun h => by cases h) hnext
        rw [enterRead_formats hlast, hmore, List.append_assoc, List.append_cancel_left_eq,
          List.singleton_append, List.cons.injEq] at hmore₁
        have hrep : r.rep = r₁.rep := congrArg IOFormatRep.serverFormatRep hmore₁.1
        rw [← hrep] at hbytes
        exact ⟨r, hr, hreadable, hcontent.1.symm, hbytes, hknown⟩

/-- What is dumped of some entries comes back behind a list that the reader has made. -/
theorem readFormats_dump_iff {entries : List IOFormatRep} {dumps : List (List UInt8)}
    (hdumps : entries.mapM dumpFormat = some dumps) {rounds : Nat} {fs : FormatServer}
    {last : Bool} (hrounds : dumps.flatten.length < rounds) (hfs : fs.Readable)
    (hlast : last = false → fs.formats = []) :
    (∃ fs', readFormats rounds fs last dumps.flatten = some fs' ∧
      fs'.formats.map (·.content) = fs.formats.map (·.content) ++ entries.map (·.content)) ↔
    (∀ e ∈ entries, Restorable e) ∧ entries.Pairwise DistinctIDs ∧
      ∀ e ∈ entries, ∀ id, e.serverID = some id → ¬ Known fs.formats id := by
  rw [mapM_eq_some_iff] at hdumps
  induction hdumps generalizing rounds fs last with
  | nil =>
    obtain ⟨rounds, rfl⟩ : ∃ k, rounds = k + 1 := ⟨rounds - 1, by omega⟩
    refine iff_of_true ⟨fs, rfl, by simp⟩ ⟨?_, List.Pairwise.nil, ?_⟩
    · exact fun e he => absurd he List.not_mem_nil
    · exact fun e he => absurd he List.not_mem_nil
  | @cons entry dump entries dumps hdump hrest ih =>
    obtain ⟨rounds, rfl⟩ : ∃ k, rounds = k + 1 := ⟨rounds - 1, by omega⟩
    rw [List.flatten_cons, List.length_append] at hrounds
    -- one round takes the entry back when it is restorable and not known
    have hround : ∀ r : RestartRecord, r.WellFormed → Readable r.id →
        entry.content = r.format.content → leBytes 2 r.rep.length = beBytes 2 r.rep.length →
        ¬ Known fs.formats r.id →
        ((∃ fs', readFormats (rounds + 1) fs last (dump :: dumps).flatten = some fs' ∧
          fs'.formats.map (·.content) =
            fs.formats.map (·.content) ++ (entry :: entries).map (·.content)) ↔
        (∀ e ∈ entries, Restorable e) ∧ entries.Pairwise DistinctIDs ∧
          ∀ e ∈ entries, ∀ id, e.serverID = some id → ¬ Known (fs.formats ++ [r.format]) id) := by
      intro r hr hreadable hsame hbytes hknown
      obtain ⟨hid, hn, hspan⟩ := of_content_eq hr hsame.symm
      have hdumped : dump = r.bytes := by
        rw [dumpFormat_eq hid hr.idLength hn hspan, dump_eq_bytes hr hbytes] at hdump
        exact (Option.some.inj hdump).symm
      have hrecord : readRecord (dump :: dumps).flatten = .ok (r, dumps.flatten) :=
        readRecord_iff.mpr ⟨hr, by rw [List.flatten_cons, hdumped]⟩
      have hlength := r.length_bytes
      rw [← hdumped] at hlength
      have hnext := @ih rounds (fs.enterRead last r.format) true (by omega)
        (readable_enterRead hfs hreadable) (fun h => by cases h)
      rw [enterRead_formats hlast] at hnext
      rw [readFormats_new hfs hrecord hreadable hknown, ← hnext]
      simp only [List.map_append, List.map_cons, List.map_nil, List.append_assoc,
        List.singleton_append, hsame]
    constructor
    · intro h
      obtain ⟨fs', hread, hcontent⟩ := h
      have hread' := hread
      rw [List.flatten_cons] at hread'
      obtain ⟨r, hr, hreadable, hsame, hbytes, hknown⟩ :=
        restored_head hdump hfs hlast hread' hcontent
      have hid := (of_content_eq hr hsame.symm).1
      obtain ⟨hrestorable, hpairwise, hnext⟩ :=
        (hround r hr hreadable hsame hbytes hknown).mp ⟨fs', hread, hcontent⟩
      refine ⟨?_, List.pairwise_cons.mpr ⟨fun e he id hentry hserverID b hb => ?_, hpairwise⟩, ?_⟩
      · intro e he
        rcases List.mem_cons.mp he with rfl | he
        · exact restorable_iff.mpr ⟨r, hr, hreadable, hsame, hbytes⟩
        · exact hrestorable e he
      · by_contra hne
        rw [hid, Option.some.injEq] at hentry
        exact hnext e he id hserverID (known_append_iff.mpr (Or.inr ⟨hentry, b, hb, hne⟩))
      · intro e he id hserverID hmem
        rcases List.mem_cons.mp he with rfl | he
        · rw [hid, Option.some.injEq] at hserverID
          exact hknown (hserverID ▸ hmem)
        · exact hnext e he id hserverID (known_append_iff.mpr (Or.inl hmem))
    · intro h
      obtain ⟨hrestorable, hpairwise, hknown⟩ := h
      obtain ⟨r, hr, hreadable, hsame, hbytes⟩ :=
        restorable_iff.mp (hrestorable entry List.mem_cons_self)
      have hid := (of_content_eq hr hsame.symm).1
      refine (hround r hr hreadable hsame hbytes (hknown entry List.mem_cons_self r.id hid)).mpr
        ⟨fun e he => hrestorable e (List.mem_cons_of_mem _ he), hpairwise.of_cons,
          fun e he id hserverID hmem => ?_⟩
      rcases known_append_iff.mp hmem with hmem | ⟨rfl, b, hb, hne⟩
      · exact hknown e (List.mem_cons_of_mem _ he) id hserverID hmem
      · exact hne ((List.pairwise_cons.mp hpairwise).1 e he r.id hid hserverID b hb)

theorem exists_dump {entry : IOFormatRep} (h : Restorable entry) :
    ∃ dump, dumpFormat entry = some dump := by
  obtain ⟨r, hr, -, hsame, -⟩ := restorable_iff.mp h
  obtain ⟨hid, hn, hspan⟩ := of_content_eq hr hsame.symm
  exact ⟨_, dumpFormat_eq hid hr.idLength hn hspan⟩

theorem restore_iff (fs : FormatServer) (pid port ipAddr : Nat) :
    (∃ file fs', fs.dumpFormatsToFile = some file ∧
      (FormatServer.create pid port ipAddr).readFormatsFromFile file = some fs' ∧
      fs'.formats.map (·.content) = fs.formats.map (·.content)) ↔
    (∀ e ∈ fs.formats, Restorable e) ∧ fs.formats.Pairwise DistinctIDs := by
  have hiff : ∀ {dumps}, fs.formats.mapM dumpFormat = some dumps →
      ((∃ fs', (FormatServer.create pid port ipAddr).readFormatsFromFile dumps.flatten = some fs' ∧
        fs'.formats.map (·.content) = fs.formats.map (·.content)) ↔
      (∀ e ∈ fs.formats, Restorable e) ∧ fs.formats.Pairwise DistinctIDs) := by
    intro dumps hdumps
    have hall := @readFormats_dump_iff _ _ hdumps _ (FormatServer.create pid port ipAddr) false
      (Nat.lt_succ_self _) (fun e he => absurd he List.not_mem_nil) (fun _ => rfl)
    refine hall.trans (and_congr_right fun _ => and_iff_left fun e _ id _ hknown => ?_)
    obtain ⟨⟨entry, hentry, -⟩, -⟩ := hknown
    exact absurd hentry List.not_mem_nil
  constructor
  · intro h
    obtain ⟨file, fs', hfile, hread, hcontent⟩ := h
    obtain ⟨dumps, hdumps, rfl⟩ := Option.map_eq_some_iff.mp hfile
    exact (hiff hdumps).mp ⟨fs', hread, hcontent⟩
  · intro h
    obtain ⟨dumps, hdumps⟩ := exists_mapM_eq_some fun e he => exists_dump (h.1 e he)
    obtain ⟨fs', hread, hcontent⟩ := (hiff hdumps).mpr h
    exact ⟨_, fs', Option.map_eq_some_iff.mpr ⟨dumps, hdumps, rfl⟩, hread, hcontent⟩

/-! ## Reading into a list -/

instance (formats : List IOFormatRep) (id : List UInt8) : Decidable (Known formats id) :=
  inferInstanceAs (Decidable ((∃ entry ∈ formats, entry.serverID = some id) ∧ ∃ b ∈ id, b ≠ 0))

/-- The records of a file. -/
def fileRecords : Nat → List UInt8 → Option (List RestartRecord)
  | 0, _ => some []
  | rounds + 1, input =>
    match readRecord input with
    | .error .violation => none
    | .error _ => some []
    | .ok (r, rest) => (fileRecords rounds rest).map (r :: ·)

def restartRecords (file : List UInt8) : Option (List RestartRecord) :=
  fileRecords (file.length + 1) file

/-- What a list is when the records have been entered that it does not know. -/
def readInto (last : Bool) (formats : List IOFormatRep) : List RestartRecord → List IOFormatRep
  | [] => formats
  | r :: rs =>
    if Known formats r.id then readInto last formats rs
    else readInto true (if last then formats ++ [r.format] else [r.format]) rs

theorem readFormats_iff {rounds : Nat} {fs : FormatServer} {last : Bool} {input : List UInt8}
    (hfs : fs.Readable) (formats : List IOFormatRep) :
    (∃ fs', readFormats rounds fs last input = some fs' ∧ fs'.formats = formats) ↔
      ∃ records, fileRecords rounds input = some records ∧ (∀ r ∈ records, Readable r.id) ∧
        readInto last fs.formats records = formats := by
  have hempty : ∀ (fs : FormatServer) last, (∃ fs', some fs = some fs' ∧ fs'.formats = formats) ↔
      ∃ records, some [] = some records ∧ (∀ r ∈ records, Readable r.id) ∧
        readInto last fs.formats records = formats := by
    simp [readInto]
  induction rounds generalizing fs last input with
  | zero => exact hempty fs last
  | succ rounds ih =>
    cases hread : readRecord input with
    | error stop =>
      rw [readFormats, fileRecords, hread]
      cases stop with
      | violation => simp
      | waiting => exact hempty fs last
      | close => exact hempty fs last
      | exit => exact hempty fs last
    | ok result =>
      obtain ⟨r, rest⟩ := result
      have hrecords : fileRecords (rounds + 1) input =
          (fileRecords rounds rest).map (r :: ·) := by rw [fileRecords, hread]
      simp only [hrecords, Option.map_eq_some_iff, exists_exists_and_eq_and, List.forall_mem_cons,
        readInto]
      by_cases hid : Readable r.id
      · by_cases hknown : Known fs.formats r.id
        · simp only [readFormats_known hfs hread hid hknown, hid, hknown, if_true, true_and, ih hfs]
        · simp only [readFormats_new hfs hread hid hknown, hid, hknown, if_false, true_and]
          exact ih (readable_enterRead hfs hid)
      · simp [readFormats_unreadable hread hid, hid]

/-- A record is the first of some with its ID, unless the ID is all zero. -/
def First (records : List RestartRecord) (r : RestartRecord) : Prop :=
  ∃ front back, records = front ++ r :: back ∧
    ((∃ b ∈ r.id, b ≠ 0) → ∀ r' ∈ front, r'.id ≠ r.id)

/-- How many entries have an ID. -/
def countID (formats : List IOFormatRep) (id : List UInt8) : Nat :=
  formats.countP fun entry => entry.serverID = some id

theorem known_iff {formats : List IOFormatRep} {id : List UInt8} :
    Known formats id ↔ 0 < countID formats id ∧ ∃ b ∈ id, b ≠ 0 := by
  rw [Known, countID, List.countP_pos_iff]
  simp only [decide_eq_true_eq]

theorem countID_append (formats : List IOFormatRep) (r : RestartRecord) (id : List UInt8) :
    countID (formats ++ [r.format]) id = countID formats id + if r.id = id then 1 else 0 := by
  rw [countID, List.countP_append, List.countP_singleton]
  simp [countID, RestartRecord.format]

theorem first_cons_iff {r s : RestartRecord} {records : List RestartRecord} :
    First (r :: records) s ↔
      s = r ∨ First records s ∧ ((∃ b ∈ s.id, b ≠ 0) → r.id ≠ s.id) := by
  constructor
  · intro h
    obtain ⟨front, back, hrecords, hfirst⟩ := h
    cases front with
    | nil =>
      cases hrecords
      exact Or.inl rfl
    | cons r' front =>
      cases hrecords
      exact Or.inr ⟨⟨front, back, rfl, fun hne r' hr' => hfirst hne r' (List.mem_cons_of_mem _ hr')⟩,
        fun hne => hfirst hne r List.mem_cons_self⟩
  · intro h
    rcases h with rfl | ⟨⟨front, back, rfl, hfirst⟩, hne⟩
    · exact ⟨[], records, rfl, fun _ _ h => absurd h List.not_mem_nil⟩
    · refine ⟨r :: front, back, rfl, fun h r' hr' => ?_⟩
      rcases List.mem_cons.mp hr' with rfl | hr'
      · exact hne h
      · exact hfirst h r' hr'

theorem mem_readInto_iff {formats : List IOFormatRep} {records : List RestartRecord}
    {entry : IOFormatRep} : entry ∈ readInto true formats records ↔
      entry ∈ formats ∨ ∃ r, First records r ∧ ¬ Known formats r.id ∧ entry = r.format := by
  induction records generalizing formats with
  | nil =>
    refine ⟨Or.inl, fun h => h.resolve_right fun h => ?_⟩
    obtain ⟨r, ⟨front, back, h, -⟩, -⟩ := h
    exact absurd h.symm (by simp)
  | cons r records ih =>
    rw [readInto]
    by_cases hknown : Known formats r.id
    · rw [if_pos hknown, ih]
      refine or_congr_right (exists_congr fun s => ?_)
      rw [first_cons_iff]
      constructor
      · intro h
        obtain ⟨hfirst, hs, hentry⟩ := h
        exact ⟨Or.inr ⟨hfirst, fun _ hid => hs (hid ▸ hknown)⟩, hs, hentry⟩
      · intro h
        obtain ⟨rfl | ⟨hfirst, -⟩, hs, hentry⟩ := h
        · exact absurd hknown hs
        · exact ⟨hfirst, hs, hentry⟩
    · rw [if_neg hknown, if_pos rfl, ih, List.mem_append, List.mem_singleton, or_assoc]
      refine or_congr_right ?_
      simp only [first_cons_iff, known_append_iff, or_and_right, exists_or, exists_eq_left, not_or]
      refine or_congr (by rw [and_iff_right hknown]) (exists_congr fun s => ?_)
      constructor
      · intro h
        obtain ⟨hfirst, ⟨hs, hne⟩, hentry⟩ := h
        exact ⟨⟨hfirst, fun hnonzero hid => hne ⟨hid, hnonzero⟩⟩, hs, hentry⟩
      · intro h
        obtain ⟨⟨hfirst, hne⟩, hs, hentry⟩ := h
        exact ⟨hfirst, ⟨hs, fun hsame => hne hsame.2 hsame.1⟩, hentry⟩

/-- An ID that is not all zero is entered at most once, one that is is entered every time. -/
theorem countID_readInto (formats : List IOFormatRep) (records : List RestartRecord)
    (id : List UInt8) : countID (readInto true formats records) id =
      if ∃ b ∈ id, b ≠ 0 then
        max (countID formats id) (if ∃ r ∈ records, r.id = id then 1 else 0)
      else countID formats id + records.countP fun r => r.id = id := by
  induction records generalizing formats with
  | nil => simp [readInto]
  | cons r records ih =>
    rw [readInto]
    by_cases hknown : Known formats r.id
    · have hpos := known_iff.mp hknown
      rw [if_pos hknown, ih]
      by_cases hid : r.id = id
      · subst hid
        rw [if_pos hpos.2, if_pos hpos.2]
        have hmem : ∃ s ∈ r :: records, s.id = r.id := ⟨r, List.mem_cons_self, rfl⟩
        rw [if_pos hmem]
        split <;> omega
      · simp [hid]
    · rw [if_neg hknown, if_pos rfl, ih, countID_append]
      by_cases hid : r.id = id
      · subst hid
        have hmem : ∃ s ∈ r :: records, s.id = r.id := ⟨r, List.mem_cons_self, rfl⟩
        rw [if_pos rfl, if_pos hmem]
        by_cases hnonzero : ∃ b ∈ r.id, b ≠ 0
        · have hzero : countID formats r.id = 0 := by
            by_contra hne
            exact hknown (known_iff.mpr ⟨by omega, hnonzero⟩)
          rw [if_pos hnonzero, if_pos hnonzero, hzero]
          split <;> omega
        · rw [if_neg hnonzero, if_neg hnonzero, List.countP_cons_of_pos (by simp)]
          omega
      · simp [hid]

/-- The records from the first one on that the list does not know. -/
def freshRecords (formats : List IOFormatRep) (records : List RestartRecord) :
    List RestartRecord := records.dropWhile fun r => Known formats r.id

theorem readInto_false (formats : List IOFormatRep) (records : List RestartRecord) :
    readInto false formats records =
      if freshRecords formats records = [] then formats
      else readInto true [] (freshRecords formats records) := by
  induction records with
  | nil => rfl
  | cons r records ih =>
    by_cases hknown : Known formats r.id
    · have hfresh : freshRecords formats (r :: records) = freshRecords formats records :=
        List.dropWhile_cons_of_pos (decide_eq_true hknown)
      rw [readInto, if_pos hknown, ih, hfresh]
    · have hfresh : freshRecords formats (r :: records) = r :: records :=
        List.dropWhile_cons_of_neg (by simpa using hknown)
      have hnone : ¬ Known [] r.id := fun h => by
        obtain ⟨⟨entry, hentry, -⟩, -⟩ := h
        exact absurd hentry List.not_mem_nil
      rw [readInto, if_neg hknown, hfresh, if_neg (List.cons_ne_nil _ _), readInto, if_neg hnone]
      rfl

/-- Nothing new is in the file, or every format of the list is there behind the first new one, as
the first with its ID, and an ID that is all zero is not there more often than it may be. -/
def Rereadable (formats : List IOFormatRep) (records : List RestartRecord) : Prop :=
  freshRecords formats records = [] ∨
    (∀ entry ∈ formats, ∃ r, First (freshRecords formats records) r ∧ entry = r.format) ∧
    ∀ id, (∀ b ∈ id, b = 0) →
      ((freshRecords formats records).countP fun r => r.id = id) ≤ max 1 (countID formats id)

theorem reread_iff {fs : FormatServer} (hfs : fs.Readable) (file : List UInt8) :
    (∃ fs', fs.readFormatsFromFile file = some fs' ∧ fs.formats ⊆ fs'.formats ∧
      ∀ id, countID fs'.formats id ≤ max 1 (countID fs.formats id)) ↔
    ∃ records, restartRecords file = some records ∧ (∀ r ∈ records, Readable r.id) ∧
      Rereadable fs.formats records := by
  have hgood : ∀ records, (fs.formats ⊆ readInto false fs.formats records ∧
      ∀ id, countID (readInto false fs.formats records) id ≤ max 1 (countID fs.formats id)) ↔
      Rereadable fs.formats records := by
    intro records
    rw [readInto_false, Rereadable]
    by_cases hfresh : freshRecords fs.formats records = []
    · rw [if_pos hfresh]
      refine iff_of_true ⟨List.Subset.refl _, fun id => by omega⟩ (Or.inl hfresh)
    · rw [if_neg hfresh, or_iff_right hfresh]
      have hnone : ∀ id, ¬ Known [] id := fun id h => by
        obtain ⟨⟨entry, hentry, -⟩, -⟩ := h
        exact absurd hentry List.not_mem_nil
      refine and_congr (forall_congr' fun entry => forall_congr' fun _ => ?_)
        (forall_congr' fun id => ?_)
      · rw [mem_readInto_iff]
        simp [hnone]
      · rw [countID_readInto, show countID [] id = 0 from rfl]
        by_cases hnonzero : ∃ b ∈ id, b ≠ 0
        · rw [if_pos hnonzero]
          refine iff_of_true (by split <;> omega) fun hzero => ?_
          obtain ⟨b, hb, hne⟩ := hnonzero
          exact absurd (hzero b hb) hne
        · have hzero : ∀ b ∈ id, b = 0 := by
            intro b hb
            by_contra hne
            exact hnonzero ⟨b, hb, hne⟩
          rw [if_neg hnonzero, imp_iff_right hzero, Nat.zero_add]
  constructor
  · intro h
    obtain ⟨fs', hread, hgood'⟩ := h
    obtain ⟨records, hrecords, hreadable, hformats⟩ :=
      (readFormats_iff hfs fs'.formats).mp ⟨fs', hread, rfl⟩
    rw [← hformats] at hgood'
    exact ⟨records, hrecords, hreadable, (hgood records).mp hgood'⟩
  · intro h
    obtain ⟨records, hrecords, hreadable, hrereadable⟩ := h
    obtain ⟨fs', hread, hformats⟩ := (readFormats_iff hfs _).mpr ⟨records, hrecords, hreadable, rfl⟩
    refine ⟨fs', hread, ?_⟩
    rw [hformats]
    exact (hgood records).mpr hrereadable

/-- When a dump restores the list in a fresh server, and when reading a file into a list keeps it
and enters nothing twice. -/
theorem restartFile_iff {fs : FormatServer} (hfs : fs.Readable) :
    (∀ pid port ipAddr, (∃ file fs', fs.dumpFormatsToFile = some file ∧
        (FormatServer.create pid port ipAddr).readFormatsFromFile file = some fs' ∧
        fs'.formats.map (·.content) = fs.formats.map (·.content)) ↔
      (∀ e ∈ fs.formats, Restorable e) ∧ fs.formats.Pairwise DistinctIDs) ∧
    ∀ file, (∃ fs', fs.readFormatsFromFile file = some fs' ∧ fs.formats ⊆ fs'.formats ∧
        ∀ id, countID fs'.formats id ≤ max 1 (countID fs.formats id)) ↔
      ∃ records, restartRecords file = some records ∧ (∀ r ∈ records, Readable r.id) ∧
        Rereadable fs.formats records :=
  ⟨restore_iff fs, reread_iff hfs⟩

/-- A server that has one format with a representation of four bytes. -/
def fourServer : FormatServer :=
  { FormatServer.create 1 5347 1 with
    formats := [{ serverID := some [0, 1, 2, 3, 4, 5, 6, 7], serverFormatRep := [0, 4, 1, 1] }] }

/-- A server with a format more. -/
def twoServer : FormatServer :=
  { fourServer with
    formats := fourServer.formats ++
      [{ serverID := some [2, 1, 2, 3, 4, 5, 6, 7], serverFormatRep := [0, 5, 1, 1, 1] }] }

theorem restartFile_iff_two :
    (∀ pid port ipAddr, (∃ file fs', twoServer.dumpFormatsToFile = some file ∧
        (FormatServer.create pid port ipAddr).readFormatsFromFile file = some fs' ∧
        fs'.formats.map (·.content) = twoServer.formats.map (·.content)) ↔
      (∀ e ∈ twoServer.formats, Restorable e) ∧ twoServer.formats.Pairwise DistinctIDs) ∧
    ∀ file, (∃ fs', twoServer.readFormatsFromFile file = some fs' ∧
        twoServer.formats ⊆ fs'.formats ∧
        ∀ id, countID fs'.formats id ≤ max 1 (countID twoServer.formats id)) ↔
      ∃ records, restartRecords file = some records ∧ (∀ r ∈ records, Readable r.id) ∧
        Rereadable twoServer.formats records := by
  refine restartFile_iff fun entry hentry => ?_
  rcases List.mem_cons.mp hentry with rfl | hentry
  · exact ⟨0, by decide⟩
  · rw [List.mem_singleton.mp hentry]
    exact ⟨2, by decide⟩

/-- The dump of the format comes back as an empty list, and a file with another format replaces
it. -/
theorem fourServer_not_restored :
    (∃ file, fourServer.dumpFormatsToFile = some file ∧
      (FormatServer.create 1 5347 1).readFormatsFromFile file = some (.create 1 5347 1)) ∧
    ∃ fs', fourServer.readFormatsFromFile
        [8, 0, 2, 1, 1, 1, 1, 1, 1, 1, 4, 0, 7, 7] = some fs' ∧
      ¬ fourServer.formats ⊆ fs'.formats := by
  refine ⟨⟨[8, 0, 0, 1, 2, 3, 4, 5, 6, 7, 0, 4, 1, 1], by decide, by decide⟩,
    { FormatServer.create 1 5347 1 with
      formats := [{ serverID := some [2, 1, 1, 1, 1, 1, 1, 1], serverFormatRep := [0, 4, 7, 7] }],
      serverFormatCount := 1 }, by decide, by decide⟩

end FFS
