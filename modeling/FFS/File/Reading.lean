import Mathlib.Data.List.Find
import FFS.File.Records

/-!
# Reading record by record

A reader in front of a record reads its head as it stands in the file, and the call that takes the
record leaves the reader in front of the next one.
-/

namespace FFS

open Machine

variable {ignoreDefaultValues : Bool}
  {strToVal : List UInt8 → FMDataType → Int32 → Option (List UInt8)}

/-! ## Formats that were met -/

/-- Every identifier of a context has the length of its version. -/
def ProperContext (c : FFSContext) : Prop := ∀ e ∈ c.fmc.formatList, ProperID e.serverID

theorem ProperID.length {id : List UInt8} (h : ProperID id) :
    (versionOfFormatID id = 0 ∧ id.length = 8) ∨ (versionOfFormatID id = 1 ∧ id.length = 10) ∨
      (versionOfFormatID id = 2 ∧ id.length = 12) := by
  unfold ProperID at h
  generalize versionOfFormatID id = version at h ⊢
  match version, h with
  | 0, h => exact .inl ⟨rfl, (Option.some.inj h).symm⟩
  | 1, h => exact .inr (.inl ⟨rfl, (Option.some.inj h).symm⟩)
  | 2, h => exact .inr (.inr ⟨rfl, (Option.some.inj h).symm⟩)
  | _ + 3, h => cases h

/-- The version is in the first 8 bytes. -/
theorem versionOfFormatID_append {front : List UInt8} (h : 8 ≤ front.length)
    (rest : List UInt8) : versionOfFormatID (front ++ rest) = versionOfFormatID front := by
  obtain ⟨b, front, rfl⟩ : ∃ b front', front = b :: front' := by
    cases front with
    | nil => simp at h
    | cons b front => exact ⟨b, front, rfl⟩
  unfold versionOfFormatID
  rw [List.drop_append_of_le_length (by omega), List.take_append_of_le_length
    (by rw [List.length_drop]; omega)]
  rfl

/-- What stands behind an identifier plays no part in the search for it. -/
theorem formatFromID_append {c : FFSContext} (hproper : ProperContext c) {id : List UInt8}
    (hid : ProperID id) (rest : List UInt8) :
    formatFromID c.fmc (id ++ rest) = formatFromID c.fmc id := by
  have height : 8 ≤ id.length := by
    rcases hid.length with ⟨-, h⟩ | ⟨-, h⟩ | ⟨-, h⟩ <;> omega
  unfold formatFromID searchByID
  refine List.find?_congr fun e he => ?_
  have hmember := (hproper e (List.mem_reverse.mp he)).length
  have hfield : ∀ k n, k + n ≤ id.length →
      ((id ++ rest).drop k).take n = (id.drop k).take n := by
    intro k n hk
    rw [List.drop_append_of_le_length (by omega),
      List.take_append_of_le_length (by rw [List.length_drop]; omega)]
  have hshortcut : idShortcut false (id ++ rest) e.serverID = idShortcut false id e.serverID := by
    unfold idShortcut
    rw [versionOfFormatID_append height]
    rcases hid.length with ⟨hversion, hlength⟩ | ⟨hversion, hlength⟩ | ⟨hversion, hlength⟩
    · rw [hversion]
      rfl
    · rw [hversion]
      simp only [Bool.false_and, hfield 8 2 (by omega)]
    · rw [hversion]
      simp only [hfield 2 2 (by omega)]
  have hwhole : (id ++ rest).take e.serverID.length = e.serverID ↔
      id.take e.serverID.length = e.serverID := by
    by_cases hle : e.serverID.length ≤ id.length
    · rw [List.take_append_of_le_length hle]
    · -- An entry with a longer identifier has another version in its first bytes.
      have hlonger : ∀ other, id ++ other = e.serverID → False := by
        intro other hother
        have hversion := versionOfFormatID_append height other
        rw [hother] at hversion
        have hproperly := hid.length
        omega
      constructor
      · intro h
        rw [List.take_append, List.take_of_length_le (by omega)] at h
        exact (hlonger _ h).elim
      · intro h
        rw [List.take_of_length_le (by omega)] at h
        exact (hlonger [] (by rw [List.append_nil, h])).elim
  rw [hshortcut]
  simp only [hwhole]

namespace FFSContext

theorem fmc_typeHandleByIndex (c : FFSContext) (index : Nat) :
    (c.typeHandleByIndex index).1.fmc = c.fmc := by
  unfold typeHandleByIndex
  dsimp only
  split
  · rfl
  · split <;> rfl

theorem fmc_typeHandleFromEncode (c : FFSContext) (buffer : List UInt8) :
    (c.typeHandleFromEncode buffer).1.fmc = c.fmc := by
  unfold typeHandleFromEncode
  split
  · rfl
  · exact fmc_typeHandleByIndex c _

/-- A handle that is there is found without any change. -/
theorem typeHandleByIndex_of_handle {c : FFSContext} {i : Nat} {handle : FFSTypeHandle}
    (h : c.handle i = some handle) : c.typeHandleByIndex i = (c, some handle) := by
  have hlength := length_of_handle h
  have hexpand : c.expand i = c := by
    unfold expand
    rw [show i + 1 - c.handleList.length = 0 by omega, List.replicate_zero, List.append_nil]
  unfold typeHandleByIndex
  rw [hexpand]
  dsimp only
  rw [h]

theorem typeHandleFromEncode_append {c : FFSContext} (hproper : ProperContext c)
    {id : List UInt8} (hid : ProperID id) (rest : List UInt8) :
    c.typeHandleFromEncode (id ++ rest) = c.typeHandleFromEncode id := by
  unfold typeHandleFromEncode
  rw [formatFromID_append hproper hid]

theorem fmc_determineConversion {c c' : FFSContext} {i : Nat}
    (h : c.determineConversion ignoreDefaultValues strToVal i = some c') : c'.fmc = c.fmc := by
  simp only [determineConversion, Option.bind_eq_bind, Option.bind_eq_some_iff] at h
  obtain ⟨handle, -, found, -, h⟩ := h
  split at h
  · cases h
    rfl
  · obtain ⟨conversion, -, h⟩ := Option.bind_eq_some_iff.mp h
    cases h
    exact fmc_typeHandleByIndex c _

theorem fmc_determineIfNotChecked {c c' : FFSContext} {i : Nat}
    (h : c.determineIfNotChecked ignoreDefaultValues strToVal i = some c') : c'.fmc = c.fmc := by
  simp only [determineIfNotChecked, Option.bind_eq_bind, Option.bind_eq_some_iff] at h
  obtain ⟨handle, -, h⟩ := h
  split at h
  · exact fmc_determineConversion h
  · cases h
    rfl

theorem fmc_targetFromEncode {c c' : FFSContext} {buffer : List UInt8} {target : Option Nat}
    (h : c.targetFromEncode ignoreDefaultValues strToVal buffer = some (c', target)) :
    c'.fmc = c.fmc := by
  unfold targetFromEncode at h
  have hfmc := fmc_typeHandleFromEncode c buffer
  split at h
  · next hfrom =>
    cases h
    rw [hfrom] at hfmc
    exact hfmc
  · next hfrom =>
    rw [hfrom] at hfmc
    simp only [Option.bind_eq_bind, Option.bind_eq_some_iff] at h
    obtain ⟨c₂, hdetermine, handle, -, h⟩ := h
    have hc₂ : c₂ = c' := by
      cases hs : handle.status <;> rw [hs] at h <;> cases h <;> rfl
    rw [← hc₂, fmc_determineIfNotChecked hdetermine]
    exact hfmc

/-- The handle that is found is there from then on. -/
theorem handle_of_typeHandleByIndex {c c' : FFSContext} {i : Nat} {handle : FFSTypeHandle}
    (h : c.typeHandleByIndex i = (c', some handle)) : c'.handle i = some handle := by
  unfold typeHandleByIndex at h
  dsimp only at h
  split at h
  · next hold =>
    cases h
    exact hold
  · split at h
    · cases h
    · cases h
      have hlength : i < (c.expand i).handleList.length := by
        simp only [expand, List.length_append, List.length_replicate]
        omega
      rw [handle_setHandle hlength, if_pos rfl]

theorem typeHandleFromEncode_again {c c' : FFSContext} {id : List UInt8} {i : Nat}
    (h : c.typeHandleFromEncode id = (c', some i)) :
    c'.typeHandleFromEncode id = (c', some i) := by
  have hfmc := fmc_typeHandleFromEncode c id
  rw [h] at hfmc
  dsimp only at hfmc
  unfold typeHandleFromEncode at h ⊢
  rw [hfmc]
  cases hformat : formatFromID c.fmc id with
  | none =>
    rw [hformat] at h
    cases h
  | some body =>
    rw [hformat] at h
    dsimp only at h ⊢
    cases hfound : c.typeHandleByIndex body.formatIndex with
    | mk c₁ handle =>
      rw [hfound] at h
      cases handle with
      | none => cases h
      | some handle =>
        cases h
        rw [typeHandleByIndex_of_handle (handle_of_typeHandleByIndex hfound)]
        rfl

/-- The handle of an identifier is there, and so is the decision on it. -/
structure MetAs (c : FFSContext) (id : List UInt8) (h : Nat) : Prop where
  found : c.typeHandleFromEncode id = (c, some h)
  decided : ∃ handle, c.handle h = some handle ∧ handle.status ≠ .notChecked

theorem metAs_of_target {c c₁ c' : FFSContext} {id : List UInt8} {h : Nat} {target : Option Nat}
    (hfrom : c.typeHandleFromEncode id = (c₁, some h))
    (htarget : c.targetFromEncode ignoreDefaultValues strToVal id = some (c', target)) :
    MetAs c' id h := by
  have hfmc := fmc_targetFromEncode htarget
  unfold targetFromEncode at htarget
  rw [hfrom] at htarget
  simp only [Option.bind_eq_bind, Option.bind_eq_some_iff] at htarget
  obtain ⟨c₂, -, handle, hhandle, htarget⟩ := htarget
  have hc₂ : c₂ = c' ∧ handle.status ≠ .notChecked := by
    cases hs : handle.status <;> rw [hs] at htarget <;> cases htarget <;> exact ⟨rfl, nofun⟩
  obtain ⟨rfl, hstatus⟩ := hc₂
  refine ⟨?_, handle, hhandle, hstatus⟩
  unfold typeHandleFromEncode at hfrom ⊢
  rw [hfmc]
  cases hformat : formatFromID c.fmc id with
  | none =>
    rw [hformat] at hfrom
    cases hfrom
  | some body =>
    rw [hformat] at hfrom
    dsimp only at hfrom ⊢
    have hindex : body.formatIndex = h := by
      have hsnd := congrArg Prod.snd hfrom
      dsimp only at hsnd
      exact (Option.map_eq_some_iff.mp hsnd).choose_spec.2
    rw [hindex, typeHandleByIndex_of_handle hhandle]
    rfl

/-- A message of a format that was met is decoded without a change of the context, if there is
something to decode it by. -/
theorem decode_of_metAs {c : FFSContext} {id : List UInt8} {h : Nat} (hmet : MetAs c id h)
    (hproper : ProperContext c) (hid : ProperID id) (rest : List UInt8) :
    ∃ handle result, c.handle h = some handle ∧
      c.decode ignoreDefaultValues strToVal (id ++ rest) = some (c, result) ∧
      (result.isSome → handle.Available) := by
  obtain ⟨handle, hhandle, hstatus⟩ := hmet.decided
  have hcheck : ∃ available,
      c.checkConversion ignoreDefaultValues strToVal h = some (c, available) ∧
        (available = true → handle.Available) := by
    unfold checkConversion determineIfNotChecked
    simp only [hhandle, Option.bind_eq_bind, Option.bind_some, if_neg hstatus]
    split
    · next hsome => exact ⟨true, rfl, fun _ => .inl hsome⟩
    · simp only [Option.pure_def, Option.bind_some, hhandle]
      exact ⟨_, rfl, fun havailable => .inr (of_decide_eq_true havailable)⟩
  obtain ⟨available, hcheck, havailable⟩ := hcheck
  refine ⟨handle, if available then some handle.conversion else none, hhandle, ?_, ?_⟩
  · unfold decode
    rw [typeHandleFromEncode_append hproper hid, hmet.found]
    dsimp only
    rw [hcheck]
    cases available with
    | false => rfl
    | true => simp only [Option.bind_eq_bind, Option.bind_some, if_true, hhandle, Option.pure_def]
  · intro hsome
    refine havailable ?_
    cases available with
    | false => cases hsome
    | true => rfl

end FFSContext

theorem ProperContext.loads {c c' : FFSContext} {id rep : List UInt8} (h : ProperContext c)
    (hloads : Loads c id rep c') : ProperContext c' := by
  obtain ⟨hid, fmc, format, hload, rfl⟩ := hloads
  unfold ProperContext
  rw [FFSContext.fmc_typeHandleByIndex]
  dsimp only
  unfold loadDerivedFormat at hload
  split at hload
  · cases hload
    exact h
  · obtain ⟨loaded, -, hload⟩ := Option.map_eq_some_iff.mp hload
    cases hload
    intro e he
    rcases List.mem_append.mp he with he | he
    · exact h e he
    · rw [List.mem_singleton.mp he]
      exact hid

/-! ## The file -/

theorem signed_small {n : Nat} (h : n < 2 ^ 31) : signed 4 (unsigned 4 (n : Int)) = n :=
  signed_unsigned (by decide) ⟨by omega, by omega⟩

/-- A read of bytes that are there. -/
theorem Disk.read_whole {bytes : List UInt8} {pos n : Nat} (hn : n < 2 ^ 31)
    (h : pos + n ≤ bytes.length) :
    Disk.read ⟨bytes, pos⟩ n = ((bytes.drop pos).take n, (n : Int), ⟨bytes, pos + n⟩) := by
  have hgot : ((bytes.drop pos).take n).length = n := by
    rw [List.length_take, List.length_drop]
    omega
  simp only [Disk.read, hgot, signed_small hn, Int.sub_self]
  rw [show signed 4 (unsigned 4 0) = 0 by decide]
  by_cases hzero : (n : Int) = 0
  · rw [if_pos hzero, hzero]
  · rw [if_neg hzero, if_neg (by omega), if_neg (by omega)]

/-- A read of more than there is goes to the end of the file, and returns another count as long as
an `int` holds the length. -/
theorem Disk.read_cut {bytes : List UInt8} {pos n : Nat} (hsmall : SmallFile bytes)
    (h : bytes.length < pos + n) :
    ∃ count, Disk.read ⟨bytes, pos⟩ n =
        ((bytes.drop pos).take n, count, ⟨bytes, max pos bytes.length⟩) ∧
      (0 < n → n < 2 ^ 31 → count ≠ (n : Int)) := by
  have hlength : ((bytes.drop pos).take n).length = bytes.length - pos := by
    rw [List.length_take, List.length_drop]
    omega
  have hpos : pos + (bytes.length - pos) = max pos bytes.length := by omega
  have hfew : bytes.length - pos < 2 ^ 31 := lt_of_le_of_lt (Nat.sub_le _ _) hsmall
  simp only [Disk.read, hlength, hpos, signed_small hfew]
  by_cases hzero : ((bytes.length - pos : Nat) : Int) = 0
  · rw [if_pos hzero]
    exact ⟨_, rfl, fun hn _ => by omega⟩
  · rw [if_neg hzero, if_neg (by omega)]
    split
    · exact ⟨_, rfl, fun _ _ => by omega⟩
    · next hleft =>
      refine ⟨_, rfl, fun _ hn => ?_⟩
      have hrest : ((n : Int) - (bytes.length - pos : Nat)) =
          ((n - (bytes.length - pos) : Nat) : Int) := by omega
      rw [signed_small hn, hrest, signed_small (by omega)] at hleft
      omega

/-- The position of a small file, and its end. -/
theorem Disk.lseek_here {bytes : List UInt8} {pos : Nat} (hpos : pos < 2 ^ 31) :
    Disk.lseek ⟨bytes, pos⟩ 0 .cur = ((pos : Int), ⟨bytes, pos⟩) := by
  simp only [Disk.lseek, Int.add_zero, signed_small hpos, Int.toNat_natCast]
  rw [if_neg (by omega)]

theorem Disk.lseek_end {bytes : List UInt8} (pos : Nat) (hsmall : SmallFile bytes) :
    Disk.lseek ⟨bytes, pos⟩ 0 .fromEnd = ((bytes.length : Int), ⟨bytes, bytes.length⟩) := by
  simp only [Disk.lseek, Int.add_zero, signed_small hsmall, Int.toNat_natCast]
  rw [if_neg (by omega)]

theorem Disk.lseek_to (bytes : List UInt8) (pos p : Nat) :
    (Disk.lseek ⟨bytes, pos⟩ p .set).2 = ⟨bytes, p⟩ := by
  simp only [Disk.lseek, Int.toNat_natCast]
  rw [if_neg (by omega)]

theorem word_eq_none_iff {bytes : List UInt8} {pos : Nat} :
    word bytes pos = none ↔ bytes.length < pos + 4 := by
  rw [word, Option.map_eq_none_iff, span]
  split
  · next h => simp only [reduceCtorEq, false_iff, Nat.not_lt]; omega
  · next h => simp only [true_iff]; omega

theorem beValue_of_word {bytes : List UInt8} {pos v : Nat} (h : word bytes pos = some v) :
    pos + 4 ≤ bytes.length ∧ beValue ((bytes.drop pos).take 4) = v := by
  rw [word, Option.map_eq_some_iff] at h
  obtain ⟨bs, hbs, hv⟩ := h
  rw [span] at hbs
  split at hbs
  · next hle =>
    cases hbs
    exact ⟨hle, hv⟩
  · cases hbs

theorem FormatAt.within {bytes id rep : List UInt8} {pos : Nat}
    (h : FormatAt bytes pos id rep) : pos ≤ bytes.length := by
  have hle := (take_of_span h.2.2.2).1
  omega

namespace FFSReader

/-- A read that there is room for. -/
theorem readFunc_eq {r : FFSReader} {disk disk' : Disk} {room n : Nat} {got : List UInt8}
    {count : Int} (hdisk : r.file.disk = disk) (hroom : n ≤ room)
    (hread : disk.read n = (got, count, disk')) :
    r.readFunc room n = .ok (got, count, r.withDisk disk') := by
  unfold readFunc
  rw [if_neg (Int.not_lt.mpr (Int.natCast_nonneg n)), Int.toNat_natCast,
    if_neg (Nat.not_lt.mpr hroom), hdisk, hread]

/-- `get_AtomicInt` in front of a word. -/
theorem getAtomicInt_some {r : FFSReader} {bytes : List UInt8} {pos v : Nat}
    (hdisk : r.file.disk = ⟨bytes, pos⟩) (hword : word bytes pos = some v) :
    r.getAtomicInt = .ok (some v, r.withDisk ⟨bytes, pos + 4⟩) := by
  obtain ⟨hle, hv⟩ := beValue_of_word hword
  have hread := Disk.read_whole (show 4 < 2 ^ 31 by decide) hle
  refine bind_eq_of_eq_ok (readFunc_eq hdisk (Nat.le_refl 4) hread) ?_
  dsimp only
  rw [if_pos (by decide), hv]
  rfl

/-- Behind the last word the file is read to its end. -/
theorem getAtomicInt_none {r : FFSReader} {bytes : List UInt8} {pos : Nat}
    (hsmall : SmallFile bytes) (hdisk : r.file.disk = ⟨bytes, pos⟩)
    (hword : word bytes pos = none) :
    r.getAtomicInt = .ok (none, r.withDisk ⟨bytes, max pos bytes.length⟩) := by
  obtain ⟨count, hread, hcount⟩ := Disk.read_cut hsmall (word_eq_none_iff.mp hword)
  have hfour : count ≠ 4 := hcount (by decide) (by decide)
  refine bind_eq_of_eq_ok (readFunc_eq hdisk (Nat.le_refl 4) hread) ?_
  dsimp only
  rw [if_neg hfour]
  rfl

/-- A read into the buffer. -/
theorem readTmp_whole {r : FFSReader} {bytes : List UInt8} {pos offset n : Nat}
    (hn : n < 2 ^ 31) (hdisk : r.file.disk = ⟨bytes, pos⟩)
    (hroom : offset + n ≤ r.tmpBuffer.length) (hwhole : pos + n ≤ bytes.length) :
    r.readTmp offset n = .ok (true, { r.withDisk ⟨bytes, pos + n⟩ with
      tmpBuffer := r.tmpBuffer.take offset ++ (bytes.drop pos).take n ++
        r.tmpBuffer.drop (offset + n) }) := by
  have hgot : ((bytes.drop pos).take n).length = n := by
    rw [List.length_take, List.length_drop]
    omega
  refine bind_eq_of_eq_ok (readFunc_eq hdisk (by omega) (Disk.read_whole hn hwhole)) ?_
  dsimp only
  rw [hgot, decide_eq_true rfl]
  rfl

/-- The buffer keeps its size, and what is in front of the part that is read and behind it. -/
theorem readTmp_cut {r : FFSReader} {bytes : List UInt8} {pos offset n : Nat}
    (hsmall : SmallFile bytes) (hdisk : r.file.disk = ⟨bytes, pos⟩)
    (hroom : offset + n ≤ r.tmpBuffer.length) (hcut : bytes.length < pos + n) :
    ∃ whole rest, r.readTmp offset n = .ok (whole,
        { r.withDisk ⟨bytes, max pos bytes.length⟩ with
          tmpBuffer := r.tmpBuffer.take offset ++ (bytes.drop pos).take n ++ rest }) ∧
      (r.tmpBuffer.take offset ++ (bytes.drop pos).take n ++ rest).length = r.tmpBuffer.length ∧
      (0 < n → n < 2 ^ 31 → whole = false) := by
  obtain ⟨count, hread, hcount⟩ := Disk.read_cut hsmall hcut
  refine ⟨decide (count = (n : Int)),
    r.tmpBuffer.drop (offset + ((bytes.drop pos).take n).length), ?_, ?_, ?_⟩
  · exact bind_eq_of_eq_ok (readFunc_eq hdisk (by omega) hread) rfl
  · simp only [List.length_append, List.length_take, List.length_drop]
    omega
  · intro hn hlt
    exact decide_eq_false (hcount hn hlt)

end FFSReader

/-! ## Readers in front of a record -/

theorem makeTmpBuffer_length {buffer : List UInt8} {size : Nat}
    (h : buffer = [] ∨ TMP_BUFFER_INIT_SIZE ≤ buffer.length) :
    max size TMP_BUFFER_INIT_SIZE ≤ (makeTmpBuffer buffer size).length := by
  unfold makeTmpBuffer
  dsimp only
  split
  · rw [List.length_append, List.length_replicate]
    omega
  · next hne =>
    have hlength : TMP_BUFFER_INIT_SIZE ≤ buffer.length := h.resolve_left hne
    rw [List.length_append, List.length_replicate]
    omega

section

variable (bytes : List UInt8) (rawFlag : Bool)

namespace FFSReader

/-- A reader at a place of the file. -/
structure Stands (r : FFSReader) (cur : Cursor) : Prop where
  status : r.status = .openForRead
  raw : r.rawFlag = rawFlag
  disk : r.file.disk = ⟨bytes, cur.pos⟩
  org : r.file.fileOrg = cur.org
  context : r.context = cur.context
  indexes : r.indexes = cur.indexes
  buffer : r.tmpBuffer = [] ∨ TMP_BUFFER_INIT_SIZE ≤ r.tmpBuffer.length
  proper : ProperContext cur.context
  resumed : (∃ item ∈ cur.indexes, item.nextIndexOffset = bytes.length) →
    r.file.curIndex.isSome = true

/-- In front of a record whose head was not read. -/
structure Between (r : FFSReader) (cur : Cursor) : Prop where
  stands : r.Stands bytes rawFlag cur
  ahead : r.readAhead = false
  within : cur.pos ≤ bytes.length

/-- At the end of the file, which was found out. -/
structure Finished (r : FFSReader) (cur : Cursor) : Prop where
  stands : r.Stands bytes rawFlag cur
  atEnd : cur.pos = bytes.length
  type : r.nextRecordType = some .ffsEnd

/-- Behind the head of a record, and where the reader is once the record was taken. -/
inductive Peeked (r : FFSReader) : FileItem → Cursor → Prop where
  | comment {cur : Cursor} {text : List UInt8} (stands : r.Stands bytes rawFlag cur)
      (type : r.nextRecordType = some .ffsComment) (hlen : r.nextDataLen = text.length)
      (htext : span bytes cur.pos text.length = some text) :
      Peeked r (.comment text) { cur with pos := cur.pos + text.length }
  | format {cur : Cursor} {id rep : List UInt8} {c : FFSContext}
      (stands : r.Stands bytes rawFlag cur) (type : r.nextRecordType = some .ffsFormat)
      (hidLen : r.nextFidLen = id.length) (hlen : r.nextDataLen = rep.length)
      (hid : span bytes cur.pos id.length = some id)
      (hrep : span bytes (cur.pos + id.length) rep.length = some rep)
      (hloads : Loads cur.context id rep c) :
      Peeked r (.format id rep)
        { cur with context := c, pos := cur.pos + id.length + rep.length }
  | data {cur : Cursor} {start : Nat} {id rest : List UInt8} {h : Nat} {handle : FFSTypeHandle}
      (stands : r.Stands bytes rawFlag cur) (type : r.nextRecordType = some .ffsData)
      (hactual : r.nextActualHandle = some h) (hmet : cur.context.MetAs id h)
      (hhandle : cur.context.handle h = some handle) (hid : ProperID id)
      (hidLen : id.length ≤ headerSize handle.body)
      (hlen : headerSize handle.body ≤ r.nextDataLen) (htmp : r.tmpBuffer = id ++ rest)
      (hroom : max r.nextDataLen TMP_BUFFER_INIT_SIZE ≤ r.tmpBuffer.length)
      (hstart : cur.pos = start + headerSize handle.body)
      (hfront : r.tmpBuffer.take (headerSize handle.body) =
        (bytes.drop start).take (headerSize handle.body))
      (hpos : cur.pos ≤ bytes.length) :
      Peeked r (.data ⟨handle, (bytes.drop start).take r.nextDataLen, r.nextDataLen⟩)
        { cur with pos := min (cur.pos + (r.nextDataLen - headerSize handle.body)) bytes.length }
  | index {cur : Cursor} {start : Nat} {block : List UInt8} {parsed : FFSIndexItem}
      (stands : r.Stands bytes rawFlag cur) (type : r.nextRecordType = some .ffsIndex)
      (hstart : cur.pos = start + 4) (hlen : r.nextDataLen = 4 + block.length)
      (hblock : span bytes cur.pos block.length = some block)
      (hparse : parseIndexBlock (List.replicate 4 0 ++ block) = some parsed)
      (hlast : parsed.nextIndexOffset = bytes.length → 4 + block.length ≤ INDEX_BLOCK_SIZE) :
      Peeked r (.index { parsed with thisIndexFpos := start })
        { cur with indexes := cur.indexes ++ [{ parsed with thisIndexFpos := start }],
                   pos := cur.pos + block.length }

end FFSReader

end

section

variable {bytes : List UInt8} {rawFlag : Bool} {r : FFSReader} {cur : Cursor}

namespace FFSReader

/-- A reader that only moved. -/
theorem Stands.moved (h : r.Stands bytes rawFlag cur) {r' : FFSReader} {pos : Nat}
    (hstatus : r'.status = r.status) (hraw : r'.rawFlag = r.rawFlag)
    (horg : r'.file.fileOrg = r.file.fileOrg) (hcur : r'.file.curIndex = r.file.curIndex)
    (hcontext : r'.context = r.context)
    (hindexes : r'.indexes = r.indexes) (hdisk : r'.file.disk = ⟨bytes, pos⟩)
    (hbuffer : r'.tmpBuffer = [] ∨ TMP_BUFFER_INIT_SIZE ≤ r'.tmpBuffer.length) :
    r'.Stands bytes rawFlag { cur with pos } :=
  { status := hstatus.trans h.status, raw := hraw.trans h.raw, disk := hdisk,
    org := horg.trans h.org, context := hcontext.trans h.context,
    indexes := hindexes.trans h.indexes, buffer := hbuffer, proper := h.proper,
    resumed := fun hlast => by rw [hcur]; exact h.resumed hlast }

/-- Only what is known of the next record changes. -/
theorem Stands.marked (h : r.Stands bytes rawFlag cur) {readAhead : Bool}
    {type : Option FFSRecordType} {dataBlockNo : Nat} :
    { r with readAhead, nextRecordType := type, dataBlockNo }.Stands bytes rawFlag cur :=
  { status := h.status, raw := h.raw, disk := h.disk, org := h.org, context := h.context,
    indexes := h.indexes, buffer := h.buffer, proper := h.proper, resumed := h.resumed }

theorem Peeked.type {item : FileItem} (h : r.Peeked bytes rawFlag item cur) :
    r.nextRecordType = some item.type := by
  cases h with
  | comment stands type => exact type
  | format stands type => exact type
  | data stands type => exact type
  | index stands type => exact type

/-! ### Heads -/

theorem readHead_comment (h : r.Stands bytes rawFlag cur) {n : Nat}
    (hhead : HeadAt bytes cur.pos 0x1 n) :
    r.readHead = .ok (some .ffsComment, { r.withDisk ⟨bytes, cur.pos + 4⟩ with
      nextRecordType := some .ffsComment, nextDataLen := n }) := by
  obtain ⟨chunk, hword, hkind, hrest⟩ := hhead
  refine bind_eq_of_eq_ok (getAtomicInt_some h.disk hword) ?_
  dsimp only
  rw [if_pos hkind, hrest]
  rfl

theorem readHead_index (h : r.Stands bytes rawFlag cur) {n : Nat}
    (hhead : HeadAt bytes cur.pos 0x4 n) :
    r.readHead = .ok (some .ffsIndex, { r.withDisk ⟨bytes, cur.pos + 4⟩ with
      nextRecordType := some .ffsIndex, nextDataLen := n }) := by
  obtain ⟨chunk, hword, hkind, hrest⟩ := hhead
  refine bind_eq_of_eq_ok (getAtomicInt_some h.disk hword) ?_
  dsimp only
  rw [if_neg (by omega), if_neg (by omega), if_neg (by omega), if_pos hkind, hrest]
  rfl

theorem readHead_format (h : r.Stands bytes rawFlag cur) {n len : Nat}
    (hhead : HeadAt bytes cur.pos 0x2 n) (hlen : word bytes (cur.pos + 4) = some len) :
    r.readHead = .ok (some .ffsFormat, { r.withDisk ⟨bytes, cur.pos + 8⟩ with
      nextRecordType := some .ffsFormat, nextFidLen := n, nextDataLen := len }) := by
  obtain ⟨chunk, hword, hkind, hrest⟩ := hhead
  refine bind_eq_of_eq_ok (getAtomicInt_some h.disk hword) ?_
  dsimp only
  rw [if_neg (by omega), if_pos hkind, hrest]
  exact bind_eq_of_eq_ok (getAtomicInt_some rfl hlen) rfl

theorem readHead_data (h : r.Stands bytes rawFlag cur) {chunk : Nat}
    (hword : word bytes cur.pos = some chunk) (hkind : chunk / 2 ^ 24 = 0x3) :
    r.readHead = do
      let (whole, r) ← { r.withDisk ⟨bytes, cur.pos + 4⟩ with
        nextRecordType := some .ffsData }.readDataHead chunk
      return (if whole then some .ffsData else none, r) := by
  refine bind_eq_of_eq_ok (getAtomicInt_some h.disk hword) ?_
  dsimp only
  rw [if_neg (by omega), if_neg (by omega), if_pos hkind]

/-! ### The head of a data record -/

/-- What a read at the beginning of the identifier puts into the buffer. -/
theorem take_of_span_take {pos n k : Nat} {id : List UInt8} (hid : span bytes pos n = some id)
    (hk : k ≤ n) : (bytes.drop pos).take k = id.take k := by
  rw [← (take_of_span hid).2, List.take_take, Nat.min_eq_left hk]

theorem readDataHead_whole (chunk : Nat) {pos low : Nat} {id : List UInt8}
    (hdisk : r.file.disk = ⟨bytes, pos + 4⟩)
    (hbuffer : r.tmpBuffer = [] ∨ TMP_BUFFER_INIT_SIZE ≤ r.tmpBuffer.length)
    (hlow : word bytes (pos + 4) = some low)
    (hid : span bytes (pos + 8) id.length = some id) (hproper : ProperID id) :
    ∃ rest, r.readDataHead chunk = .ok (true, { r.withDisk ⟨bytes, pos + 8 + id.length⟩ with
        nextDataLen := low + chunk % 2 ^ 16 * 2 ^ 32, nextFidLen := id.length,
        tmpBuffer := id ++ rest }) ∧
      max (low + chunk % 2 ^ 16 * 2 ^ 32) TMP_BUFFER_INIT_SIZE ≤ (id ++ rest).length := by
  have hinit : TMP_BUFFER_INIT_SIZE = 1024 := rfl
  have height : 8 ≤ id.length ∧ id.length ≤ 12 := by
    rcases hproper.length with ⟨-, h⟩ | ⟨-, h⟩ | ⟨-, h⟩ <;> omega
  obtain ⟨hle, htake⟩ := take_of_span hid
  let dataLen := low + chunk % 2 ^ 16 * 2 ^ 32
  let buffer := makeTmpBuffer r.tmpBuffer dataLen
  have hroom : max dataLen TMP_BUFFER_INIT_SIZE ≤ buffer.length := makeTmpBuffer_length hbuffer
  have hfirst : (bytes.drop (pos + 8)).take 8 = id.take 8 := take_of_span_take hid height.1
  have hversion : idLength (versionOfFormatID (id.take 8 ++ buffer.drop 8)) =
      some id.length := by
    have hfront : (id.take 8).length = 8 := by
      rw [List.length_take]
      omega
    rw [versionOfFormatID_append (by omega), ← versionOfFormatID_append (by omega) (id.drop 8),
      List.take_append_drop]
    exact hproper
  refine ⟨buffer.drop id.length, ?_, ?_⟩
  · refine bind_eq_of_eq_ok (getAtomicInt_some hdisk hlow) ?_
    refine bind_eq_of_eq_ok (readTmp_whole (by decide) rfl (show 0 + 8 ≤ buffer.length by omega)
      (show pos + 4 + 4 + 8 ≤ bytes.length by omega)) ?_
    dsimp only
    rw [if_neg (by decide), List.take_zero, List.nil_append, Nat.zero_add,
      show pos + 4 + 4 = pos + 8 from rfl, hfirst]
    rw [show makeTmpBuffer (r.withDisk ⟨bytes, pos + 8⟩).tmpBuffer
      (low + chunk % 2 ^ 16 * 2 ^ 32) = buffer from rfl, hversion]
    dsimp only
    have hsplit : id.take 8 ++ id.drop 8 = id := List.take_append_drop 8 id
    by_cases hlonger : 8 < id.length
    · rw [if_pos hlonger]
      have hfront : (id.take 8).length = 8 := by
        rw [List.length_take]
        omega
      have hrest : (bytes.drop (pos + 8 + 8)).take (id.length - 8) = id.drop 8 := by
        rw [← List.drop_drop, ← List.drop_take, htake]
      refine (readTmp_whole (show id.length - 8 < 2 ^ 31 by omega)
        (show _ = (⟨bytes, pos + 8 + 8⟩ : Disk) from rfl) ?_
        (show pos + 8 + 8 + (id.length - 8) ≤ bytes.length by omega)).trans ?_
      · rw [List.length_append, List.length_drop, hfront]
        omega
      · have hbuffer' : (id.take 8 ++ buffer.drop 8).take 8 ++ id.drop 8 ++
            (id.take 8 ++ buffer.drop 8).drop (8 + (id.length - 8)) =
              id ++ buffer.drop id.length := by
          rw [List.take_left' hfront, hsplit, List.drop_append, hfront,
            List.drop_of_length_le (by omega), List.nil_append, List.drop_drop]
          congr 2
          omega
        rw [hrest, hbuffer', show pos + 8 + 8 + (id.length - 8) = pos + 8 + id.length by omega]
        rfl
    · have hlength : id.length = 8 := by omega
      rw [if_neg hlonger, List.take_of_length_le (by omega), hlength]
      rfl
  · rw [List.length_append, List.length_drop]
    omega

/-- The head of a data record that is not whole. -/
theorem readDataHead_short (hsmall : SmallFile bytes) (h : r.Stands bytes rawFlag cur)
    {pos : Nat} (hpos : cur.pos = pos + 4) (chunk : Nat) (hle : cur.pos ≤ bytes.length)
    (hshort : bytes.length < pos + 16) :
    ∃ r', r.readDataHead chunk = .ok (false, r') ∧ r'.readAhead = r.readAhead ∧
      r'.Stands bytes rawFlag { cur with pos := bytes.length } := by
  have hdisk := h.disk
  rw [hpos] at hdisk hle
  have hend : max (pos + 4) bytes.length = bytes.length := by omega
  cases hlow : word bytes (pos + 4) with
  | none =>
    refine ⟨r.withDisk ⟨bytes, bytes.length⟩, ?_, rfl, h.moved rfl rfl rfl rfl rfl rfl rfl h.buffer⟩
    have hword := getAtomicInt_none hsmall hdisk hlow
    rw [hend] at hword
    exact bind_eq_of_eq_ok hword rfl
  | some low =>
    let dataLen := low + chunk % 2 ^ 16 * 2 ^ 32
    have hinit : TMP_BUFFER_INIT_SIZE = 1024 := rfl
    have hroom : max dataLen TMP_BUFFER_INIT_SIZE ≤
        (makeTmpBuffer r.tmpBuffer dataLen).length := makeTmpBuffer_length h.buffer
    have hwhole := (beValue_of_word hlow).1
    obtain ⟨whole, rest, hread, hlength, hcut⟩ := readTmp_cut
      (r := { r.withDisk ⟨bytes, pos + 4 + 4⟩ with
        nextDataLen := dataLen, tmpBuffer := makeTmpBuffer r.tmpBuffer dataLen })
      hsmall rfl (show 0 + 8 ≤ (makeTmpBuffer r.tmpBuffer dataLen).length by omega)
      (show bytes.length < pos + 4 + 4 + 8 by omega)
    rw [hcut (by decide) (by decide), show max (pos + 4 + 4) bytes.length = bytes.length by omega]
      at hread
    refine ⟨_, bind_eq_of_eq_ok (getAtomicInt_some hdisk hlow)
      (bind_eq_of_eq_ok hread rfl), rfl, h.moved rfl rfl rfl rfl rfl rfl rfl (.inr ?_)⟩
    dsimp only at hlength ⊢
    omega

/-- The identifier of a data record is not whole. -/
theorem readDataHead_identifier (hsmall : SmallFile bytes) (h : r.Stands bytes rawFlag cur)
    {pos n : Nat} (hpos : cur.pos = pos + 4) (chunk : Nat) (hwhole : pos + 16 ≤ bytes.length)
    (hversion : idLength (versionOfFormatID (bytes.drop (pos + 8))) = some n)
    (hshort : bytes.length < pos + 8 + n) :
    ∃ r', r.readDataHead chunk = .ok (false, r') ∧
      r'.Stands bytes rawFlag { cur with pos := bytes.length } := by
  have hinit : TMP_BUFFER_INIT_SIZE = 1024 := rfl
  have hdisk := h.disk
  rw [hpos] at hdisk
  have hn : n ≤ 12 := by
    generalize versionOfFormatID (bytes.drop (pos + 8)) = version at hversion
    match version, hversion with
    | 0, rfl => decide
    | 1, rfl => decide
    | 2, rfl => decide
  obtain ⟨low, hlow⟩ : ∃ low, word bytes (pos + 4) = some low := by
    rw [← Option.ne_none_iff_exists', Ne, word_eq_none_iff]
    omega
  let dataLen := low + chunk % 2 ^ 16 * 2 ^ 32
  let buffer := makeTmpBuffer r.tmpBuffer dataLen
  have hroom : max dataLen TMP_BUFFER_INIT_SIZE ≤ buffer.length := makeTmpBuffer_length h.buffer
  let first := (bytes.drop (pos + 8)).take 8
  have hfirst : first.length = 8 := by
    rw [List.length_take, List.length_drop]
    omega
  have hbuffer : idLength (versionOfFormatID (first ++ buffer.drop 8)) = some n := by
    rw [versionOfFormatID_append (by omega),
      ← versionOfFormatID_append (by omega) ((bytes.drop (pos + 8)).drop 8),
      List.take_append_drop]
    exact hversion
  have hsize : (first ++ buffer.drop 8).length = buffer.length := by
    rw [List.length_append, hfirst, List.length_drop]
    omega
  let r₁ : FFSReader := { r.withDisk ⟨bytes, pos + 8 + 8⟩ with
    nextDataLen := dataLen, tmpBuffer := first ++ buffer.drop 8, nextFidLen := n }
  obtain ⟨whole, rest, hread, hlength, hcut⟩ := readTmp_cut (r := r₁) hsmall rfl
    (show 8 + (n - 8) ≤ (first ++ buffer.drop 8).length by omega)
    (show bytes.length < pos + 8 + 8 + (n - 8) by omega)
  rw [hcut (by omega) (by omega), show max (pos + 8 + 8) bytes.length = bytes.length by omega]
    at hread
  refine ⟨{ r₁.withDisk ⟨bytes, bytes.length⟩ with
      tmpBuffer := r₁.tmpBuffer.take 8 ++ (bytes.drop (pos + 8 + 8)).take (n - 8) ++ rest }, ?_,
    h.moved rfl rfl rfl rfl rfl rfl rfl (.inr ?_)⟩
  · refine bind_eq_of_eq_ok (getAtomicInt_some hdisk hlow) ?_
    refine bind_eq_of_eq_ok (readTmp_whole (by decide) rfl (show 0 + 8 ≤ buffer.length by omega)
      (show pos + 4 + 4 + 8 ≤ bytes.length by omega)) ?_
    dsimp only
    rw [if_neg (by decide), List.take_zero, List.nil_append, Nat.zero_add,
      show pos + 4 + 4 = pos + 8 from rfl]
    rw [show (bytes.drop (pos + 8)).take 8 ++ (makeTmpBuffer (r.withDisk
      ⟨bytes, pos + 8⟩).tmpBuffer (low + chunk % 2 ^ 16 * 2 ^ 32)).drop 8 =
        first ++ buffer.drop 8 from rfl, hbuffer]
    dsimp only
    rw [if_pos (by omega)]
    exact hread
  · have hlarge := hlength.trans hsize
    dsimp only at hlarge ⊢
    omega

/-! ### Formats -/

/-- A format record is taken, and nothing of the buffer is used for it. -/
theorem takeFormat_spec {id rep : List UInt8}
    (hsmall : SmallFile bytes ∨ id.length < 2 ^ 31 ∧ rep.length < 2 ^ 31) {cur' : Cursor}
    (h : r.Peeked bytes rawFlag (.format id rep) cur') :
    ∃ handle r', r.takeFormat = .ok (handle, r') ∧ r'.Between bytes rawFlag cur' ∧
      r'.tmpBuffer = r.tmpBuffer ∧ r'.nextFidLen = r.nextFidLen ∧
      ∀ fmc format, loadDerivedFormat r.context.fmc id rep = some (fmc, format) →
        handle = ({ r.context with fmc }.typeHandleByIndex format.formatIndex).2.map
          fun _ => format.formatIndex := by
  cases h with
  | @format cur _ _ c stands type hidLen hlen hid hrep hloads =>
    obtain ⟨hidLe, hidTake⟩ := take_of_span hid
    obtain ⟨hrepLe, hrepTake⟩ := take_of_span hrep
    have hproper := stands.proper.loads hloads
    obtain ⟨-, fmc, format, hload, rfl⟩ := hloads
    have hidSmall : r.nextFidLen < 2 ^ 31 := by
      rcases hsmall with hsmall | hsmall
      · exact lt_of_le_of_lt (by omega) hsmall
      · omega
    have hrepSmall : r.nextDataLen < 2 ^ 31 := by
      rcases hsmall with hsmall | hsmall
      · exact lt_of_le_of_lt (by omega) hsmall
      · omega
    have hfirst : r.readFunc r.nextFidLen r.nextFidLen =
        .ok (id, (r.nextFidLen : Int), r.withDisk ⟨bytes, cur.pos + id.length⟩) := by
      have hread := Disk.read_whole hidSmall (hidLen ▸ hidLe)
      rw [hidLen, hidTake] at hread
      rw [hidLen]
      exact readFunc_eq stands.disk (Nat.le_refl _) hread
    have hsecond : (r.withDisk ⟨bytes, cur.pos + id.length⟩).readFunc r.nextDataLen
        r.nextDataLen = .ok (rep, (r.nextDataLen : Int),
          (r.withDisk ⟨bytes, cur.pos + id.length⟩).withDisk
            ⟨bytes, cur.pos + id.length + rep.length⟩) := by
      have hread := Disk.read_whole hrepSmall (hlen ▸ hrepLe)
      rw [hlen, hrepTake] at hread
      rw [hlen]
      exact readFunc_eq rfl (Nat.le_refl _) hread
    let found := { r.context with fmc }.typeHandleByIndex format.formatIndex
    have hcontext : found.1 = ({ cur.context with fmc }.typeHandleByIndex format.formatIndex).1 :=
      congrArg (fun c : FFSContext => ({ c with fmc }.typeHandleByIndex format.formatIndex).1)
        stands.context
    rw [← stands.context] at hload
    refine ⟨found.2.map fun _ => format.formatIndex,
      { r.withDisk ⟨bytes, cur.pos + id.length + rep.length⟩ with
        readAhead := false, context := found.1, written := format.formatIndex :: r.written },
      bind_eq_of_eq_ok hfirst ?_, ⟨?_, rfl, hrepLe⟩, rfl, rfl, fun fmc' format' hload' => ?_⟩
    · refine (if_neg (not_not_intro rfl)).trans (bind_eq_of_eq_ok hsecond ?_)
      refine (if_neg (not_not_intro rfl)).trans ?_
      dsimp only [withDisk]
      rw [hload]
      rfl
    · exact { status := stands.status, raw := stands.raw, disk := rfl, org := stands.org,
              context := hcontext,
              indexes := stands.indexes, buffer := stands.buffer, proper := hproper,
              resumed := stands.resumed }
    · cases hload.symm.trans hload'
      rfl

theorem actualBody_eq {i : Nat} {handle : FFSTypeHandle} (h : r.nextActualHandle = some i)
    (hhandle : r.context.handle i = some handle) : r.actualBody = .ok handle.body := by
  rw [actualBody, h, Option.bind_some, hhandle]

/-- A reader behind the identifier of a data record, which stands in the buffer. -/
structure Identified (bytes : List UInt8) (rawFlag : Bool) (r : FFSReader) (cur : Cursor)
    (id : List UInt8) (dataLen : Nat) (handle : Option Nat) : Prop where
  stands : r.Stands bytes rawFlag cur
  actual : r.nextActualHandle = handle
  fidLen : r.nextFidLen = id.length
  len : r.nextDataLen = dataLen
  type : r.nextRecordType = some .ffsData
  proper : ProperID id
  begins : ∃ rest, r.tmpBuffer = id ++ rest
  room : max dataLen TMP_BUFFER_INIT_SIZE ≤ r.tmpBuffer.length

namespace Identified

variable {id : List UInt8} {dataLen : Nat} {handle : Option Nat} {c : FFSContext}
  {target : Option Nat}

/-- The decision is the one on the identifier. -/
theorem decides_buffer (h : Identified bytes rawFlag r cur id dataLen handle)
    (hdecides : cur.context.targetFromEncode ignoreDefaultValues strToVal id =
      some (c, target)) :
    r.context.targetFromEncode ignoreDefaultValues strToVal r.tmpBuffer = some (c, target) := by
  obtain ⟨rest, hrest⟩ := h.begins
  unfold FFSContext.targetFromEncode at hdecides ⊢
  rw [h.stands.context, hrest,
    FFSContext.typeHandleFromEncode_append h.stands.proper h.proper]
  exact hdecides

theorem proper_target (h : Identified bytes rawFlag r cur id dataLen handle)
    (hdecides : cur.context.targetFromEncode ignoreDefaultValues strToVal id =
      some (c, target)) : ProperContext c := by
  unfold ProperContext
  rw [FFSContext.fmc_targetFromEncode hdecides]
  exact h.stands.proper

/-- A read behind the identifier leaves it in the buffer. -/
theorem readTmp (h : Identified bytes rawFlag r cur id dataLen handle) {offset n : Nat}
    (hn : n < 2 ^ 31) (hid : id.length ≤ offset) (hroom : offset + n ≤ r.tmpBuffer.length)
    (hwhole : cur.pos + n ≤ bytes.length) :
    ∃ r', r.readTmp offset n = .ok (true, r') ∧ r'.readAhead = r.readAhead ∧
      r'.tmpBuffer = r.tmpBuffer.take offset ++ (bytes.drop cur.pos).take n ++
        r.tmpBuffer.drop (offset + n) ∧
      Identified bytes rawFlag r' { cur with pos := cur.pos + n } id dataLen handle := by
  obtain ⟨rest, hrest⟩ := h.begins
  have hlength := congrArg List.length hrest
  rw [List.length_append] at hlength
  have hgot : ((bytes.drop cur.pos).take n).length = n := by
    rw [List.length_take, List.length_drop]
    omega
  have hbuffer : (r.tmpBuffer.take offset ++ (bytes.drop cur.pos).take n ++
      r.tmpBuffer.drop (offset + n)).length = r.tmpBuffer.length := by
    rw [List.length_append, List.length_append, hgot, List.length_take, List.length_drop]
    omega
  refine ⟨_, readTmp_whole hn h.stands.disk hroom hwhole, rfl, rfl, ?_, h.actual, h.fidLen,
    h.len, h.type, h.proper, ?_, ?_⟩
  · refine h.stands.moved rfl rfl rfl rfl rfl rfl rfl (.inr ?_)
    have hroom := h.room
    dsimp only
    omega
  · dsimp only
    rw [hrest, List.take_append, List.take_of_length_le hid, List.append_assoc, List.append_assoc]
    exact ⟨_, rfl⟩
  · dsimp only
    rw [hbuffer]
    exact h.room

/-- A read that goes past the end of the file. -/
theorem readTmp_end (h : Identified bytes rawFlag r cur id dataLen handle)
    (hsmall : SmallFile bytes) (hpos : cur.pos ≤ bytes.length) {offset n : Nat}
    (hroom : offset + n ≤ r.tmpBuffer.length) (hcut : bytes.length < cur.pos + n) :
    ∃ whole r', r.readTmp offset n = .ok (whole, r') ∧ r'.readAhead = r.readAhead ∧
      r'.Stands bytes rawFlag { cur with pos := bytes.length } ∧
      (n < 2 ^ 31 → whole = false) := by
  obtain ⟨whole, rest, hread, hlength, hwhole⟩ := readTmp_cut hsmall h.stands.disk hroom hcut
  rw [Nat.max_eq_right hpos] at hread
  refine ⟨whole, _, hread, rfl, h.stands.moved rfl rfl rfl rfl rfl rfl rfl (.inr ?_),
    hwhole (by omega)⟩
  have hroom := h.room
  dsimp only
  omega

/-- The reader after the decision. -/
theorem decided (h : Identified bytes rawFlag r cur id dataLen handle)
    (hdecides : cur.context.targetFromEncode ignoreDefaultValues strToVal id =
      some (c, target)) :
    Identified bytes rawFlag { r with context := c, nextDataHandle := target }
      { cur with context := c } id dataLen handle :=
  { stands := { status := h.stands.status, raw := h.stands.raw, disk := h.stands.disk,
                org := h.stands.org,
                context := rfl, indexes := h.stands.indexes, buffer := h.stands.buffer,
                proper := h.proper_target hdecides, resumed := h.stands.resumed }
    actual := h.actual, fidLen := h.fidLen, len := h.len, type := h.type,
    proper := h.proper, begins := h.begins, room := h.room }

end Identified

theorem goes_on {id : List UInt8} {dataLen : Nat} {handle target : Option Nat}
    (h : Identified bytes rawFlag r cur id dataLen handle)
    (htarget : target.isSome ∨ rawFlag = true) :
    ¬ (target.isNone = true ∧ ¬ r.rawFlag = true) := by
  rw [h.stands.raw]
  rintro ⟨hnone, hraw⟩
  rcases htarget with hsome | hraw'
  · rw [Option.isNone_iff_eq_none.mp hnone] at hsome
    cases hsome
  · exact hraw hraw'

/-- A data record for which there is a target, or that is read raw, up to its body. -/
theorem findTarget_delivered {id : List UInt8} {dataLen i : Nat}
    (h : Identified bytes rawFlag r cur id dataLen (some i)) {c : FFSContext}
    {target : Option Nat} {handle : FFSTypeHandle}
    (hdecides : cur.context.targetFromEncode ignoreDefaultValues strToVal id = some (c, target))
    (htarget : target.isSome ∨ rawFlag = true) (hhandle : c.handle i = some handle)
    (hid : id.length ≤ headerSize handle.body)
    (hn : headerSize handle.body - id.length < 2 ^ 31)
    (hroom : headerSize handle.body ≤ max dataLen TMP_BUFFER_INIT_SIZE)
    (hwhole : cur.pos + (headerSize handle.body - id.length) ≤ bytes.length) :
    ∃ r', r.findTarget ignoreDefaultValues strToVal = .ok (.delivered, r') ∧
      Identified bytes rawFlag r' { cur with
        context := c, pos := cur.pos + (headerSize handle.body - id.length) } id dataLen
        (some i) ∧
      r'.tmpBuffer.take (headerSize handle.body) =
        id ++ (bytes.drop cur.pos).take (headerSize handle.body - id.length) := by
  have hdecided := h.decided hdecides
  have hgoes := goes_on h htarget
  have hbody : actualBody { r with context := c, nextDataHandle := target } = .ok handle.body :=
    actualBody_eq h.actual hhandle
  unfold findTarget
  rw [h.decides_buffer hdecides]
  dsimp only
  rw [if_neg hgoes]
  have hlarge := h.room
  by_cases hmore : r.nextFidLen < headerSize handle.body
  · rw [h.fidLen] at hmore
    obtain ⟨r', hread, -, hbuffer, hread'⟩ := hdecided.readTmp hn (Nat.le_refl id.length)
      (show id.length + (headerSize handle.body - id.length) ≤ r.tmpBuffer.length by omega)
      hwhole
    refine ⟨{ r' with dataBlockNo := r'.dataBlockNo + 1 }, ?_, ?_, ?_⟩
    · refine bind_eq_of_eq_ok hbody ?_
      rw [if_pos (by rw [h.fidLen]; exact hmore)]
      rw [← h.fidLen] at hread
      exact bind_eq_of_eq_ok hread rfl
    · exact { stands := hread'.stands.marked
              actual := hread'.actual, fidLen := hread'.fidLen, len := hread'.len,
              type := hread'.type, proper := hread'.proper, begins := hread'.begins,
              room := hread'.room }
    · have hgot : (id ++ (bytes.drop cur.pos).take (headerSize handle.body - id.length)).length =
          headerSize handle.body := by
        rw [List.length_append, List.length_take, List.length_drop]
        omega
      obtain ⟨rest, hrest⟩ := h.begins
      dsimp only at hbuffer ⊢
      rw [hbuffer, hrest, List.take_left, List.take_left' hgot]
  · rw [h.fidLen] at hmore
    have hzero : headerSize handle.body - id.length = 0 := by omega
    refine ⟨{ r with
      context := c, nextDataHandle := target, dataBlockNo := r.dataBlockNo + 1 }, ?_, ?_, ?_⟩
    · refine bind_eq_of_eq_ok hbody ?_
      rw [if_neg (by rw [h.fidLen]; exact hmore)]
      rfl
    · rw [hzero]
      exact { stands := hdecided.stands.marked
              actual := hdecided.actual, fidLen := hdecided.fidLen, len := hdecided.len,
              type := hdecided.type, proper := hdecided.proper, begins := hdecided.begins,
              room := hdecided.room }
    · obtain ⟨rest, hrest⟩ := h.begins
      have hwhole : headerSize handle.body = id.length := by omega
      dsimp only
      rw [hzero, List.take_zero, List.append_nil, hwhole, hrest, List.take_left]

/-- The header of a data record is not whole. -/
theorem findTarget_cut (hsmall : SmallFile bytes) {id : List UInt8} {dataLen i : Nat}
    (h : Identified bytes rawFlag r cur id dataLen (some i)) (hpos : cur.pos ≤ bytes.length)
    {c : FFSContext} {target : Option Nat} {handle : FFSTypeHandle}
    (hdecides : cur.context.targetFromEncode ignoreDefaultValues strToVal id = some (c, target))
    (htarget : target.isSome ∨ rawFlag = true) (hhandle : c.handle i = some handle)
    (hroom : headerSize handle.body ≤ TMP_BUFFER_INIT_SIZE)
    (hcut : bytes.length < cur.pos + (headerSize handle.body - id.length)) :
    ∃ r', r.findTarget ignoreDefaultValues strToVal = .ok (.ended, r') ∧
      r'.Stands bytes rawFlag { cur with context := c, pos := bytes.length } := by
  have hdecided := h.decided hdecides
  have hgoes := goes_on h htarget
  have hbody : actualBody { r with context := c, nextDataHandle := target } = .ok handle.body :=
    actualBody_eq h.actual hhandle
  have hlarge := h.room
  have hinit : TMP_BUFFER_INIT_SIZE = 1024 := rfl
  obtain ⟨whole, r', hread, -, hstands, hwhole⟩ := hdecided.readTmp_end hsmall hpos
    (show id.length + (headerSize handle.body - id.length) ≤ r.tmpBuffer.length by omega) hcut
  rw [hwhole (by omega)] at hread
  refine ⟨r', ?_, hstands⟩
  unfold findTarget
  rw [h.decides_buffer hdecides]
  dsimp only
  rw [if_neg hgoes]
  refine bind_eq_of_eq_ok hbody ?_
  rw [if_pos (by rw [h.fidLen]; omega)]
  rw [← h.fidLen] at hread
  exact bind_eq_of_eq_ok hread rfl

/-- A data record for which there is no target is dropped. -/
theorem findTarget_discarded (hsmall : SmallFile bytes) {id : List UInt8} {dataLen : Nat}
    {handle : Option Nat} (h : Identified bytes rawFlag r cur id dataLen handle)
    {c : FFSContext}
    (hdecides : cur.context.targetFromEncode ignoreDefaultValues strToVal id = some (c, none))
    (hraw : rawFlag = false) (hid : id.length ≤ dataLen)
    (hwhole : cur.pos + (dataLen - id.length) ≤ bytes.length) :
    ∃ r', r.findTarget ignoreDefaultValues strToVal = .ok (.discarded, r') ∧
      r'.Between bytes rawFlag
        { cur with context := c, pos := cur.pos + (dataLen - id.length) } := by
  have hdecided := h.decided hdecides
  have hlarge := h.room
  obtain ⟨r', hread, -, -, hread'⟩ := hdecided.readTmp (lt_of_le_of_lt (by omega) hsmall)
    (Nat.le_refl id.length) (show id.length + (dataLen - id.length) ≤ r.tmpBuffer.length by omega) hwhole
  have hstops : (none : Option Nat).isNone = true ∧ ¬ r.rawFlag = true := by
    rw [h.stands.raw, hraw]
    exact ⟨rfl, Bool.false_ne_true⟩
  refine ⟨{ r' with readAhead := false }, ?_, ⟨?_, rfl, hwhole⟩⟩
  · unfold findTarget
    rw [h.decides_buffer hdecides]
    dsimp only
    rw [if_pos hstops]
    rw [← h.fidLen, ← h.len, Int.ofNat_sub (by rw [h.fidLen, h.len]; exact hid)] at hread
    exact bind_eq_of_eq_ok hread rfl
  · exact hread'.stands.marked

/-- The body of a record to be dropped is not whole.  From 2^31 bytes on the count that is
returned may still be the one asked for. -/
theorem findTarget_discardCut (hsmall : SmallFile bytes) {id : List UInt8} {dataLen : Nat}
    {handle : Option Nat} (h : Identified bytes rawFlag r cur id dataLen handle)
    (hpos : cur.pos ≤ bytes.length) {c : FFSContext}
    (hdecides : cur.context.targetFromEncode ignoreDefaultValues strToVal id = some (c, none))
    (hraw : rawFlag = false) (hid : id.length ≤ dataLen)
    (hcut : bytes.length < cur.pos + (dataLen - id.length)) :
    ∃ delivery r', r.findTarget ignoreDefaultValues strToVal = .ok (delivery, r') ∧
      r'.Stands bytes rawFlag { cur with context := c, pos := bytes.length } ∧
      (delivery = .ended ∨ delivery = .discarded ∧ r'.readAhead = false) := by
  have hdecided := h.decided hdecides
  have hlarge := h.room
  obtain ⟨whole, r', hread, -, hstands, -⟩ := hdecided.readTmp_end hsmall hpos
    (show id.length + (dataLen - id.length) ≤ r.tmpBuffer.length by omega) hcut
  have hstops : (none : Option Nat).isNone = true ∧ ¬ r.rawFlag = true := by
    rw [h.stands.raw, hraw]
    exact ⟨rfl, Bool.false_ne_true⟩
  have hresult : r.findTarget ignoreDefaultValues strToVal =
      .ok (if whole then .discarded else .ended,
        if whole then { r' with readAhead := false } else r') := by
    unfold findTarget
    rw [h.decides_buffer hdecides]
    dsimp only
    rw [if_pos hstops]
    rw [← h.fidLen, ← h.len, Int.ofNat_sub (by rw [h.fidLen, h.len]; exact hid)] at hread
    exact bind_eq_of_eq_ok hread rfl
  cases whole with
  | false => exact ⟨_, _, hresult, hstands, .inl rfl⟩
  | true =>
    exact ⟨_, _, hresult, hstands.marked, .inr ⟨rfl, rfl⟩⟩

section

variable (ignoreDefaultValues : Bool)
  (strToVal : List UInt8 → FMDataType → Int32 → Option (List UInt8))

/-- The next record is not one of data. -/
theorem next_of_head (h : r.Between bytes rawFlag cur) {type : FFSRecordType} {r' : FFSReader}
    (hhead : r.readHead = .ok (some type, r')) (hdata : type ≠ .ffsData) (fuel : Nat) :
    r.next ignoreDefaultValues strToVal (fuel + 1) =
      .ok (type, { r' with readAhead := true }) := by
  have hstatus : ¬ r.status ≠ .openForRead := not_not_intro h.stands.status
  have hahead : ¬ r.readAhead = true := by
    rw [h.ahead]
    exact Bool.false_ne_true
  rw [next, if_neg hstatus, if_neg hahead]
  refine bind_eq_of_eq_ok hhead ?_
  cases type with
  | ffsData => exact absurd rfl hdata
  | _ => rfl

/-- There is no next record. -/
theorem next_of_none (hstatus : r.status = .openForRead) (hahead : r.readAhead = false)
    {r' : FFSReader} (hhead : r.readHead = .ok (none, r')) (fuel : Nat) :
    r.next ignoreDefaultValues strToVal (fuel + 1) = .ok r'.ended := by
  rw [next, if_neg (not_not_intro hstatus), if_neg (by rw [hahead]; exact Bool.false_ne_true)]
  exact bind_eq_of_eq_ok hhead rfl

/-- The next record is one of data, up to its identifier. -/
theorem next_of_data (h : r.Between bytes rawFlag cur) {r₁ r₂ r₃ : FFSReader}
    {delivery : Delivery} {fuel : Nat} (hhead : r.readHead = .ok (some .ffsData, r₁))
    (hfind : r₁.findHandle ignoreDefaultValues strToVal fuel = .ok r₂)
    (htarget : r₂.findTarget ignoreDefaultValues strToVal = .ok (delivery, r₃)) :
    r.next ignoreDefaultValues strToVal (fuel + 1) =
      match delivery with
      | .ended => .ok r₃.ended
      | .discarded => r₃.next ignoreDefaultValues strToVal fuel
      | .delivered => .ok (.ffsData, { r₃ with readAhead := true }) := by
  have hstatus : ¬ r.status ≠ .openForRead := not_not_intro h.stands.status
  have hahead : ¬ r.readAhead = true := by
    rw [h.ahead]
    exact Bool.false_ne_true
  rw [next, if_neg hstatus, if_neg hahead]
  refine bind_eq_of_eq_ok hhead (bind_eq_of_eq_ok hfind (bind_eq_of_eq_ok htarget ?_))
  cases delivery <;> rfl

/-- Once the head of a record was read, there is nothing to look up. -/
theorem peek_of_ahead (h : r.readAhead = true) (fuel : Nat) :
    r.peek ignoreDefaultValues strToVal (fuel + 1) = .ok r := by
  rw [peek, if_pos h]

theorem peek_of_next (h : r.readAhead = false) {fuel : Nat} {type : FFSRecordType}
    {r' : FFSReader} (hnext : r.next ignoreDefaultValues strToVal fuel = .ok (type, r')) :
    r.peek ignoreDefaultValues strToVal (fuel + 1) = .ok r' := by
  rw [peek, if_neg (by rw [h]; exact Bool.false_ne_true), hnext]
  rfl

theorem peeked_format (h : r.Between bytes rawFlag cur)
    {id rep : List UInt8} {c : FFSContext} (hformat : FormatAt bytes cur.pos id rep)
    (hloads : Loads cur.context id rep c) (fuel : Nat) :
    ∃ r', r.next ignoreDefaultValues strToVal (fuel + 1) = .ok (.ffsFormat, r') ∧
      r'.readAhead = true ∧ r'.tmpBuffer = r.tmpBuffer ∧ r'.nextFidLen = id.length ∧
      r'.Peeked bytes rawFlag (.format id rep)
        { cur with context := c, pos := cur.pos + 8 + id.length + rep.length } := by
  obtain ⟨hhead, hlen, hid, hrep⟩ := hformat
  have hread := readHead_format h.stands hhead hlen
  let r' : FFSReader := { r.withDisk ⟨bytes, cur.pos + 8⟩ with
    nextRecordType := some .ffsFormat, nextFidLen := id.length, nextDataLen := rep.length,
    readAhead := true }
  have hstands : r'.Stands bytes rawFlag { cur with pos := cur.pos + 8 } :=
    h.stands.moved rfl rfl rfl rfl rfl rfl rfl h.stands.buffer
  exact ⟨r', next_of_head ignoreDefaultValues strToVal h hread (by decide) fuel, rfl, rfl, rfl,
    .format hstands rfl rfl rfl hid hrep hloads⟩

/-- `FFSread_format` in front of a format record. -/
theorem readFormat_spec (hsmall : SmallFile bytes) (h : r.Between bytes rawFlag cur)
    {id rep : List UInt8} {c : FFSContext} (hformat : FormatAt bytes cur.pos id rep)
    (hloads : Loads cur.context id rep c) (fuel : Nat) :
    ∃ handle r', r.readFormat ignoreDefaultValues strToVal (fuel + 3) = .ok (handle, r') ∧
      r'.Between bytes rawFlag
        { cur with context := c, pos := cur.pos + 8 + id.length + rep.length } ∧
      r'.tmpBuffer = r.tmpBuffer ∧ r'.nextFidLen = id.length := by
  obtain ⟨r₁, hnext, -, htmp, hfid, hpeeked⟩ :=
    peeked_format ignoreDefaultValues strToVal h hformat hloads fuel
  obtain ⟨handle, r₂, htake, hbetween, htmp', hfid', -⟩ := takeFormat_spec (.inl hsmall) hpeeked
  refine ⟨handle, r₂, ?_, hbetween, htmp'.trans htmp, hfid'.trans hfid⟩
  rw [readFormat]
  refine bind_eq_of_eq_ok (peek_of_next ignoreDefaultValues strToVal h.ahead hnext) ?_
  have hskip : r₁.skipToFormat ignoreDefaultValues strToVal (fuel + 2) = .ok (true, r₁) := by
    rw [skipToFormat, hpeeked.type]
    rfl
  exact bind_eq_of_eq_ok hskip htake

/-- The handle of a data record whose format is known. -/
theorem findHandle_known (h : r.Stands bytes rawFlag cur) {id rest : List UInt8}
    (htmp : r.tmpBuffer = id ++ rest) (hid : ProperID id) {c : FFSContext} {handle : Nat}
    (hknown : cur.context.typeHandleFromEncode id = (c, some handle)) (fuel : Nat) :
    r.findHandle ignoreDefaultValues strToVal (fuel + 1) =
        .ok { r with context := c, nextActualHandle := some handle } ∧
      { r with context := c, nextActualHandle := some handle }.Stands bytes rawFlag
        { cur with context := c } := by
  have hsame : r.context.typeHandleFromEncode r.tmpBuffer = (c, some handle) := by
    rw [h.context, htmp, FFSContext.typeHandleFromEncode_append h.proper hid, hknown]
  have hfmc := FFSContext.fmc_typeHandleFromEncode cur.context id
  rw [hknown] at hfmc
  refine ⟨?_, { status := h.status, raw := h.raw, disk := h.disk, org := h.org, context := rfl,
                indexes := h.indexes, buffer := h.buffer, proper := ?_, resumed := h.resumed }⟩
  · rw [findHandle, hsame]
    rfl
  · unfold ProperContext
    dsimp only at hfmc ⊢
    rw [hfmc]
    exact h.proper

/-- The handle of a data record is found where it can be, and the reader stays. -/
theorem findHandle_spec (hsmall : SmallFile bytes) (h : r.Stands bytes rawFlag cur)
    (hpos : cur.pos ≤ bytes.length) {id rest : List UInt8} (hfid : r.nextFidLen = id.length)
    (htmp : r.tmpBuffer = id ++ rest) (hid : ProperID id) {c : FFSContext}
    {handle : Option Nat} (hfinds : FindsHandle bytes cur id c handle) (fuel : Nat) :
    ∃ r' rest', r.findHandle ignoreDefaultValues strToVal (fuel + 4) = .ok r' ∧
      r'.Stands bytes rawFlag { cur with context := c } ∧ r'.nextActualHandle = handle ∧
      r'.nextFidLen = id.length ∧ r'.nextDataLen = r.nextDataLen ∧
      r'.tmpBuffer = id ++ rest' ∧ r'.tmpBuffer.length = r.tmpBuffer.length ∧
      (r.nextRecordType = some .ffsData → r'.nextRecordType = some .ffsData) := by
  have hsame : r.context.typeHandleFromEncode r.tmpBuffer =
      cur.context.typeHandleFromEncode id := by
    rw [h.context, htmp, FFSContext.typeHandleFromEncode_append h.proper hid]
  have hfmc := FFSContext.fmc_typeHandleFromEncode cur.context id
  have hproper : ∀ {c₁ : FFSContext}, c₁.fmc = cur.context.fmc → ProperContext c₁ := by
    intro c₁ hc₁
    unfold ProperContext
    rw [hc₁]
    exact h.proper
  have htake : r.tmpBuffer.take r.nextFidLen = id := by
    rw [htmp, hfid, List.take_left]
  have hhere : r.file.disk.lseek 0 .cur = ((cur.pos : Int), ⟨bytes, cur.pos⟩) := by
    rw [h.disk]
    exact Disk.lseek_here (lt_of_le_of_lt hpos hsmall)
  have helements : r.indexes.flatMap (·.elements) = cur.elements := by
    rw [h.indexes]
    rfl
  cases hfinds with
  | @known c h' hknown =>
    obtain ⟨hfound, hstands⟩ :=
      findHandle_known ignoreDefaultValues strToVal h htmp hid hknown (fuel + 3)
    exact ⟨_, rest, hfound, hstands, rfl, hfid, rfl, htmp, rfl, fun htype => htype⟩
  | @unlisted c hunknown hseek =>
    rw [hunknown] at hfmc
    refine ⟨{ r.withDisk ⟨bytes, cur.pos⟩ with context := c, nextActualHandle := none }, rest, ?_,
      ?_, rfl, hfid, rfl, htmp, rfl, fun htype => htype⟩
    · rw [findHandle, hsame, hunknown]
      dsimp only
      rw [if_neg (by decide), htake, hhere, helements, hseek]
      rfl
    · exact { status := h.status, raw := h.raw, disk := rfl, org := h.org, context := rfl,
              indexes := h.indexes, buffer := h.buffer, proper := hproper hfmc,
              resumed := h.resumed }
  | @listed c₁ c₂ p id' rep hunknown hseek hformat hlength hloads =>
    rw [hunknown] at hfmc
    have hproper₁ : ProperContext c₁ := hproper hfmc
    let r₁ : FFSReader := { r.withDisk ⟨bytes, p⟩ with
      context := c₁, nextActualHandle := none, readAhead := false }
    have hbetween : r₁.Between bytes rawFlag { cur with context := c₁, pos := p } :=
      ⟨{ status := h.status, raw := h.raw, disk := rfl, org := h.org, context := rfl,
         indexes := h.indexes, buffer := h.buffer, proper := hproper₁, resumed := h.resumed },
        rfl, hformat.within⟩
    obtain ⟨read, found, hread, hfound, htmp', hfid'⟩ := readFormat_spec ignoreDefaultValues
      strToVal hsmall hbetween hformat hloads fuel
    have hstands := hfound.stands
    have hbuffer : found.tmpBuffer = id ++ rest := htmp'.trans htmp
    have hdrop : found.tmpBuffer.drop id.length = rest := by
      rw [hbuffer, List.drop_left]
    have hmet : found.context.typeHandleFromEncode (id ++ rest) = c₂.typeHandleFromEncode id := by
      rw [hstands.context]
      exact FFSContext.typeHandleFromEncode_append hstands.proper hid rest
    have hback : (found.file.disk.lseek (cur.pos : Int) .set).2 = ⟨bytes, cur.pos⟩ := by
      rw [hstands.disk]
      exact Disk.lseek_to bytes _ _
    refine ⟨{ found.withDisk ⟨bytes, cur.pos⟩ with
      readAhead := true, nextRecordType := some .ffsData, tmpBuffer := id ++ rest,
      nextDataLen := r.nextDataLen, context := (c₂.typeHandleFromEncode id).1,
      nextActualHandle := (c₂.typeHandleFromEncode id).2 }, rest, ?_, ?_, rfl,
      hfid'.trans hlength, rfl, rfl, ?_, fun _ => rfl⟩
    · rw [findHandle, hsame, hunknown]
      dsimp only
      rw [if_neg (by decide), htake, hhere, helements, hseek]
      refine bind_eq_of_eq_ok hread ?_
      dsimp only
      rw [hdrop, hmet, hback]
      rfl
    · refine { status := hstands.status, raw := hstands.raw, disk := rfl, org := hstands.org,
               context := rfl,
               indexes := hstands.indexes, buffer := ?_, proper := ?_,
               resumed := hstands.resumed }
      · rw [← hbuffer]
        exact hstands.buffer
      · unfold ProperContext
        dsimp only
        rw [FFSContext.fmc_typeHandleFromEncode]
        exact hstands.proper
    · dsimp only
      rw [htmp]

end

end FFSReader

end

end FFS
