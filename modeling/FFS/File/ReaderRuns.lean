import FFS.File.Reading

/-!
# Runs of a reader

In a file that is a sequence of whole records every call returns, whatever was called before: what
is ahead of the reader is a list of records, and each call takes some of them off the list.
-/

namespace FFS

open Machine

variable {ignoreDefaultValues : Bool}
  {strToVal : List UInt8 → FMDataType → Int32 → Option (List UInt8)} {bytes : List UInt8}
  {rawFlag : Bool} {r : FFSReader} {cur : Cursor}

namespace FFSReader

/-! ## The next record -/

theorem FindsHandle.again {id : List UInt8} {c : FFSContext} {i : Nat}
    (h : FindsHandle bytes cur id c (some i)) : c.typeHandleFromEncode id = (c, some i) := by
  generalize hhandle : some i = handle at h
  cases h with
  | known hknown =>
    cases hhandle
    exact FFSContext.typeHandleFromEncode_again hknown
  | unlisted => cases hhandle
  | listed =>
    rw [← hhandle]
    exact FFSContext.typeHandleFromEncode_again (Prod.ext rfl hhandle.symm)

/-- A data record is read up to its identifier, and its handle is found.  Only the way back to a
format record goes through `lseek`. -/
theorem identified_of_decided {id : List UInt8}
    (hway : SmallFile bytes ∨ (cur.context.typeHandleFromEncode id).2.isSome)
    (h : r.Between bytes rawFlag cur) {dataLen : Nat} {c : FFSContext}
    {handle target : Option Nat}
    (hdecided : DecidedAt ignoreDefaultValues strToVal bytes cur id dataLen c handle target)
    (fuel : Nat) :
    ∃ r₁ r₂ c₁, r.readHead = .ok (some .ffsData, r₁) ∧
      r₁.findHandle ignoreDefaultValues strToVal (fuel + 4) = .ok r₂ ∧
      Identified bytes rawFlag r₂ { cur with context := c₁, pos := cur.pos + 8 + id.length } id
        dataLen handle ∧
      FindsHandle bytes { cur with pos := cur.pos + 8 + id.length } id c₁ handle ∧
      c₁.targetFromEncode ignoreDefaultValues strToVal id = some (c, target) := by
  obtain ⟨⟨⟨_, low, ⟨chunk, hword, hkind, rfl⟩, hlow, hlen⟩, hid, hproper⟩, c₁, hfinds,
    hdecides⟩ := hdecided
  rw [Nat.mod_mod_of_dvd _ (by decide)] at hlen
  obtain ⟨rest, hread, hroom⟩ := readDataHead_whole chunk
    (r := { r.withDisk ⟨bytes, cur.pos + 4⟩ with nextRecordType := some .ffsData })
    rfl h.stands.buffer hlow hid hproper
  rw [← hlen] at hread hroom
  have hinit : TMP_BUFFER_INIT_SIZE = 1024 := rfl
  let r₁ : FFSReader := { r.withDisk ⟨bytes, cur.pos + 8 + id.length⟩ with
    nextRecordType := some .ffsData, nextDataLen := dataLen, nextFidLen := id.length,
    tmpBuffer := id ++ rest }
  have hhead : r.readHead = .ok (some .ffsData, r₁) := by
    rw [readHead_data h.stands hword hkind]
    exact bind_eq_of_eq_ok hread rfl
  have hstands : r₁.Stands bytes rawFlag { cur with pos := cur.pos + 8 + id.length } :=
    h.stands.moved rfl rfl rfl rfl rfl rfl rfl (.inr (le_trans (Nat.le_max_right _ _) hroom))
  obtain ⟨r₂, rest', hfind, hstands₂, hactual, hfid, hlen', htmp, hsame, htype⟩ :
      ∃ r₂ rest', r₁.findHandle ignoreDefaultValues strToVal (fuel + 4) = .ok r₂ ∧
        r₂.Stands bytes rawFlag
          { cur with context := c₁, pos := cur.pos + 8 + id.length } ∧
        r₂.nextActualHandle = handle ∧ r₂.nextFidLen = id.length ∧
        r₂.nextDataLen = r₁.nextDataLen ∧ r₂.tmpBuffer = id ++ rest' ∧
        r₂.tmpBuffer.length = r₁.tmpBuffer.length ∧
        (r₁.nextRecordType = some .ffsData → r₂.nextRecordType = some .ffsData) := by
    rcases hway with hsmall | hknown
    · exact findHandle_spec ignoreDefaultValues strToVal hsmall hstands (take_of_span hid).1 rfl
        rfl hproper hfinds fuel
    · cases hfinds with
      | known hfound =>
        obtain ⟨hfind, hstands₂⟩ :=
          findHandle_known ignoreDefaultValues strToVal hstands rfl hproper hfound (fuel + 3)
        exact ⟨_, rest, hfind, hstands₂, rfl, rfl, rfl, rfl, rfl, fun htype => htype⟩
      | unlisted hunknown =>
        rw [hunknown] at hknown
        cases hknown
      | listed hunknown =>
        rw [hunknown] at hknown
        cases hknown
  refine ⟨r₁, r₂, c₁, hhead, hfind, ?_, hfinds, hdecides⟩
  exact { stands := hstands₂, actual := hactual, fidLen := hfid, len := hlen',
          type := htype rfl, proper := hproper, begins := ⟨rest', htmp⟩,
          room := by rw [hsame]; exact hroom }

section

variable (ignoreDefaultValues : Bool)
  (strToVal : List UInt8 → FMDataType → Int32 → Option (List UInt8))

/-- The head of a data record that is delivered is read up to the body. -/
theorem next_data {id : List UInt8}
    (hway : SmallFile bytes ∨ (cur.context.typeHandleFromEncode id).2.isSome)
    (h : r.Between bytes rawFlag cur) {dataLen i : Nat} {c : FFSContext} {target : Option Nat}
    {handle : FFSTypeHandle}
    (hdecided : DecidedAt ignoreDefaultValues strToVal bytes cur id dataLen c (some i) target)
    (htarget : target.isSome ∨ rawFlag = true) (hhandle : c.handle i = some handle)
    (hid : id.length ≤ headerSize handle.body) (hlen : headerSize handle.body ≤ dataLen)
    (hsmall : headerSize handle.body < 2 ^ 31)
    (hheader : cur.pos + 8 + headerSize handle.body ≤ bytes.length) (fuel : Nat) :
    ∃ r', r.next ignoreDefaultValues strToVal (fuel + 5) = .ok (.ffsData, r') ∧
      r'.readAhead = true ∧
      Identified bytes rawFlag r'
        { cur with context := c, pos := cur.pos + 8 + headerSize handle.body } id dataLen
        (some i) ∧
      FFSContext.MetAs c id i ∧
      r'.tmpBuffer.take (headerSize handle.body) =
        (bytes.drop (cur.pos + 8)).take (headerSize handle.body) := by
  obtain ⟨r₁, r₂, c₁, hhead, hfind, hidentified, hfinds, hdecides⟩ :=
    identified_of_decided hway h hdecided fuel
  have hplace : cur.pos + 8 + id.length + (headerSize handle.body - id.length) =
      cur.pos + 8 + headerSize handle.body := by omega
  obtain ⟨r₃, hdelivered, hbody, hbuffer⟩ := findTarget_delivered hidentified hdecides htarget
    hhandle hid (by omega) (le_trans hlen (Nat.le_max_left _ _)) (by dsimp only; omega)
  dsimp only at hbody
  rw [hplace] at hbody
  have hspan := (take_of_span hdecided.head.2.1).2
  refine ⟨{ r₃ with readAhead := true },
    next_of_data ignoreDefaultValues strToVal h hhead hfind hdelivered, rfl, ?_,
    FFSContext.metAs_of_target (FindsHandle.again hfinds) hdecides, ?_⟩
  · exact { stands := hbody.stands.marked, actual := hbody.actual, fidLen := hbody.fidLen,
            len := hbody.len, type := hbody.type, proper := hbody.proper,
            begins := hbody.begins, room := hbody.room }
  · -- The identifier and the rest of the header stand one behind the other in the file.
    have hheader : headerSize handle.body =
        id.length + (headerSize handle.body - id.length) := by omega
    dsimp only at hbuffer ⊢
    rw [hbuffer]
    conv_rhs => rw [hheader, List.take_add, hspan, List.drop_drop]

/-- The head of a whole record is read. -/
theorem next_record (hsmall : SmallFile bytes) (h : r.Between bytes rawFlag cur)
    {item : FileItem} {cur' : Cursor}
    (hrecord : RecordAt ignoreDefaultValues strToVal bytes rawFlag cur (some item) cur')
    (fuel : Nat) :
    ∃ r', r.next ignoreDefaultValues strToVal (fuel + 5) = .ok (item.type, r') ∧
      r'.readAhead = true ∧ r'.Peeked bytes rawFlag item cur' := by
  cases hrecord with
  | @comment text hhead htext =>
    have hread := readHead_comment h.stands hhead
    let r' : FFSReader := { r.withDisk ⟨bytes, cur.pos + 4⟩ with
      nextRecordType := some .ffsComment, nextDataLen := text.length, readAhead := true }
    have hstands : r'.Stands bytes rawFlag { cur with pos := cur.pos + 4 } :=
      h.stands.moved rfl rfl rfl rfl rfl rfl rfl h.stands.buffer
    exact ⟨r', next_of_head ignoreDefaultValues strToVal h hread (by decide) _, rfl,
      .comment hstands rfl rfl htext⟩
  | format hformat hloads =>
    obtain ⟨r', hnext, hahead, -, -, hpeeked⟩ :=
      peeked_format ignoreDefaultValues strToVal h hformat hloads (fuel + 4)
    exact ⟨r', hnext, hahead, hpeeked⟩
  | @data id dataLen i c target handle hdecided htarget hhandle hid hlen hheader =>
    obtain ⟨r', hnext, hahead, hbody, hmet, hfront⟩ := next_data ignoreDefaultValues strToVal
      (.inl hsmall) h hdecided htarget hhandle hid hlen (lt_of_le_of_lt (by omega) hsmall)
      hheader fuel
    obtain ⟨rest, hrest⟩ := hbody.begins
    have hlength : r'.nextDataLen = dataLen := hbody.len
    have hpeeked : r'.Peeked bytes rawFlag _ _ := .data hbody.stands hbody.type hbody.actual
      hmet hhandle hbody.proper hid (by rw [hlength]; exact hlen) hrest
      (by rw [hlength]; exact hbody.room) (Nat.add_assoc _ _ _ ▸ rfl) hfront hheader
    rw [hlength] at hpeeked
    have hend : cur.pos + 8 + headerSize handle.body + (dataLen - headerSize handle.body) =
        cur.pos + 8 + dataLen := by omega
    dsimp only at hpeeked
    rw [hend] at hpeeked
    exact ⟨r', hnext, hahead, hpeeked⟩
  | @index block parsed hhead hblock hparse hlast =>
    have hread := readHead_index h.stands hhead
    let r' : FFSReader := { r.withDisk ⟨bytes, cur.pos + 4⟩ with
      nextRecordType := some .ffsIndex, nextDataLen := 4 + block.length, readAhead := true }
    have hstands : r'.Stands bytes rawFlag { cur with pos := cur.pos + 4 } :=
      h.stands.moved rfl rfl rfl rfl rfl rfl rfl h.stands.buffer
    exact ⟨r', next_of_head ignoreDefaultValues strToVal h hread (by decide) _, rfl,
      .index hstands rfl rfl rfl hblock hparse hlast⟩

/-- A record that is dropped leads to the next one. -/
theorem next_dropped (hsmall : SmallFile bytes) (h : r.Between bytes rawFlag cur) {cur' : Cursor}
    (hrecord : RecordAt ignoreDefaultValues strToVal bytes rawFlag cur none cur') (fuel : Nat) :
    ∃ r' : FFSReader, r.next ignoreDefaultValues strToVal (fuel + 5) =
        r'.next ignoreDefaultValues strToVal (fuel + 4) ∧ r'.Between bytes rawFlag cur' := by
  cases hrecord with
  | @discarded id dataLen c handle hdecided hraw hid hwhole =>
    obtain ⟨r₁, r₂, c₁, hhead, hfind, hidentified, -, hdecides⟩ :=
      identified_of_decided (.inl hsmall) h hdecided fuel
    obtain ⟨r₃, hdiscarded, hbetween⟩ := findTarget_discarded hsmall hidentified hdecides hraw
      hid (by dsimp only; omega)
    have hplace : cur.pos + 8 + id.length + (dataLen - id.length) = cur.pos + 8 + dataLen := by
      omega
    dsimp only at hbetween
    rw [hplace] at hbetween
    exact ⟨r₃, next_of_data ignoreDefaultValues strToVal h hhead hfind hdiscarded, hbetween⟩

/-- At the end of the file it is found out. -/
theorem finished_of_ended {r' : FFSReader} (h : r'.Stands bytes rawFlag cur)
    (hpos : cur.pos = bytes.length) : (r'.ended).2.Finished bytes rawFlag cur :=
  { stands := h.marked
    atEnd := hpos, type := rfl }

theorem next_nothing (hsmall : SmallFile bytes) (h : r.Between bytes rawFlag cur)
    (hword : word bytes cur.pos = none) (fuel : Nat) :
    ∃ r' cur', r.next ignoreDefaultValues strToVal (fuel + 1) = .ok (.ffsEnd, r') ∧
      r'.Finished bytes rawFlag cur' ∧ cur'.indexes = cur.indexes := by
  have hhead : r.readHead =
      .ok (none, r.withDisk ⟨bytes, max cur.pos bytes.length⟩) :=
    bind_eq_of_eq_ok (getAtomicInt_none hsmall h.stands.disk hword) rfl
  have hstands : (r.withDisk ⟨bytes, max cur.pos bytes.length⟩).Stands bytes rawFlag
      { cur with pos := max cur.pos bytes.length } :=
    h.stands.moved rfl rfl rfl rfl rfl rfl rfl h.stands.buffer
  exact ⟨_, _, next_of_none ignoreDefaultValues strToVal h.stands.status h.ahead hhead fuel,
    finished_of_ended hstands (Nat.max_eq_right h.within), rfl⟩

/-- The head of a data record goes past the end of the file. -/
theorem next_dataCut (h : r.Between bytes rawFlag cur) {r' : FFSReader} {pos : Nat}
    {chunk : Nat} (hword : word bytes cur.pos = some chunk) (hkind : chunk / 2 ^ 24 = 0x3)
    (hread : readDataHead { r.withDisk ⟨bytes, cur.pos + 4⟩ with
      nextRecordType := some .ffsData } chunk = .ok (false, r'))
    (hstands : r'.Stands bytes rawFlag { cur with pos }) (hpos : pos = bytes.length)
    (fuel : Nat) :
    ∃ r' cur', r.next ignoreDefaultValues strToVal (fuel + 1) = .ok (.ffsEnd, r') ∧
      r'.Finished bytes rawFlag cur' ∧ cur'.indexes = cur.indexes := by
  have hhead : r.readHead = .ok (none, r') := by
    rw [readHead_data h.stands hword hkind]
    exact bind_eq_of_eq_ok hread rfl
  exact ⟨_, _, next_of_none ignoreDefaultValues strToVal h.stands.status h.ahead hhead fuel,
    finished_of_ended hstands hpos, rfl⟩

/-- At the end of the file there is no next record. -/
theorem next_ends (hsmall : SmallFile bytes) (h : r.Between bytes rawFlag cur)
    (hends : EndsAt ignoreDefaultValues strToVal bytes rawFlag cur) (fuel : Nat) :
    ∃ r' cur', r.next ignoreDefaultValues strToVal (fuel + 5) = .ok (.ffsEnd, r') ∧
      r'.Finished bytes rawFlag cur' ∧ cur'.indexes = cur.indexes := by
  cases hends with
  | nothing hword => exact next_nothing ignoreDefaultValues strToVal hsmall h hword _
  | @format rest hhead hword =>
    obtain ⟨chunk, hchunk, hkind, -⟩ := hhead
    have hshort := word_eq_none_iff.mp hword
    let r₁ : FFSReader := { r.withDisk ⟨bytes, cur.pos + 4⟩ with
      nextRecordType := some .ffsFormat, nextFidLen := chunk % 2 ^ 24 }
    have hsecond : r₁.getAtomicInt =
        .ok (none, r₁.withDisk ⟨bytes, max (cur.pos + 4) bytes.length⟩) :=
      getAtomicInt_none hsmall rfl hword
    have hnone : r.readHead =
        .ok (none, r₁.withDisk ⟨bytes, max (cur.pos + 4) bytes.length⟩) := by
      refine bind_eq_of_eq_ok (getAtomicInt_some h.stands.disk hchunk) ?_
      dsimp only
      rw [if_neg (by omega), if_pos hkind]
      exact bind_eq_of_eq_ok hsecond rfl
    have hstands : (r₁.withDisk ⟨bytes, max (cur.pos + 4) bytes.length⟩).Stands bytes rawFlag
        { cur with pos := max (cur.pos + 4) bytes.length } :=
      h.stands.moved rfl rfl rfl rfl rfl rfl rfl h.stands.buffer
    exact ⟨_, _, next_of_none ignoreDefaultValues strToVal h.stands.status h.ahead hnone _,
      finished_of_ended hstands (Nat.max_eq_right (beValue_of_word hchunk).1), rfl⟩
  | @data rest hhead hshort =>
    obtain ⟨chunk, hchunk, hkind, -⟩ := hhead
    have hle := (beValue_of_word hchunk).1
    let r₁ : FFSReader := { r.withDisk ⟨bytes, cur.pos + 4⟩ with
      nextRecordType := some .ffsData }
    have hstands : r₁.Stands bytes rawFlag { cur with pos := cur.pos + 4 } :=
      h.stands.moved rfl rfl rfl rfl rfl rfl rfl h.stands.buffer
    obtain ⟨r', hread, -, hstands'⟩ := readDataHead_short hsmall hstands rfl chunk hle hshort
    exact next_dataCut ignoreDefaultValues strToVal h hchunk hkind hread hstands'
      rfl _
  | @identifier rest n hhead hwhole hversion hshort =>
    obtain ⟨chunk, hchunk, hkind, -⟩ := hhead
    let r₁ : FFSReader := { r.withDisk ⟨bytes, cur.pos + 4⟩ with
      nextRecordType := some .ffsData }
    have hstands : r₁.Stands bytes rawFlag { cur with pos := cur.pos + 4 } :=
      h.stands.moved rfl rfl rfl rfl rfl rfl rfl h.stands.buffer
    obtain ⟨r', hread, hstands'⟩ := readDataHead_identifier hsmall hstands rfl chunk hwhole
      hversion hshort
    exact next_dataCut ignoreDefaultValues strToVal h hchunk hkind hread hstands'
      rfl _
  | @header id dataLen i c target handle hdecided htarget hhandle hid hroom hshort =>
    obtain ⟨r₁, r₂, c₁, hhead, hfind, hidentified, -, hdecides⟩ :=
      identified_of_decided (.inl hsmall) h hdecided fuel
    have hle := (take_of_span hdecided.head.2.1).1
    obtain ⟨r₃, hended, hstands⟩ := findTarget_cut hsmall hidentified hle hdecides htarget hhandle
      hroom (by dsimp only; omega)
    exact ⟨_, _, next_of_data ignoreDefaultValues strToVal h hhead hfind hended,
      finished_of_ended hstands rfl, rfl⟩
  | @discarded id dataLen c handle hdecided hraw hid hshort =>
    obtain ⟨r₁, r₂, c₁, hhead, hfind, hidentified, -, hdecides⟩ :=
      identified_of_decided (.inl hsmall) h hdecided fuel
    have hle := (take_of_span hdecided.head.2.1).1
    obtain ⟨delivery, r₃, hfound, hstands, hcase⟩ := findTarget_discardCut hsmall hidentified hle
      hdecides hraw hid (by dsimp only; omega)
    have hnext := next_of_data ignoreDefaultValues strToVal h hhead hfind hfound
    rcases hcase with rfl | ⟨rfl, hahead⟩
    · exact ⟨_, _, hnext, finished_of_ended hstands rfl, rfl⟩
    · have hword : word bytes bytes.length = none := word_eq_none_iff.mpr (by omega)
      obtain ⟨r', cur', hnext', hfinished, hindexes⟩ := next_nothing ignoreDefaultValues
        strToVal hsmall ⟨hstands, hahead, Nat.le_refl _⟩ hword (fuel + 3)
      exact ⟨r', cur', hnext.trans hnext', hfinished, hindexes⟩

end

/-! ## Taking a record -/

/-- Behind a record, which may be the last one. -/
def After (bytes : List UInt8) (rawFlag : Bool) (r : FFSReader) (cur : Cursor) : Prop :=
  r.Between bytes rawFlag cur ∨ r.Finished bytes rawFlag cur

theorem takeComment_spec {text : List UInt8}
    (hsmall : SmallFile bytes ∨ text.length < 2 ^ 31) {cur' : Cursor}
    (h : r.Peeked bytes rawFlag (.comment text) cur') :
    ∃ r', r.takeComment = .ok (some text, r') ∧ r'.Between bytes rawFlag cur' := by
  cases h with
  | @comment cur _ stands type hlen htext =>
    obtain ⟨hle, htake⟩ := take_of_span htext
    let buffer := makeTmpBuffer r.tmpBuffer r.nextDataLen
    have hroom : max r.nextDataLen TMP_BUFFER_INIT_SIZE ≤ buffer.length :=
      makeTmpBuffer_length stands.buffer
    have hlt : r.nextDataLen < 2 ^ 31 := by
      rcases hsmall with hsmall | hsmall
      · exact lt_of_le_of_lt (by omega) hsmall
      · omega
    have hread := readTmp_whole (r := { r with tmpBuffer := buffer }) hlt stands.disk
      (show 0 + r.nextDataLen ≤ buffer.length by omega)
      (show cur.pos + r.nextDataLen ≤ bytes.length by omega)
    have hbuffer : buffer.take 0 ++ (bytes.drop cur.pos).take r.nextDataLen ++
        buffer.drop (0 + r.nextDataLen) = text ++ buffer.drop r.nextDataLen := by
      rw [List.take_zero, List.nil_append, Nat.zero_add, hlen, htake]
    dsimp only at hread
    rw [hbuffer] at hread
    refine ⟨{ r.withDisk ⟨bytes, cur.pos + r.nextDataLen⟩ with
      tmpBuffer := text ++ buffer.drop r.nextDataLen, readAhead := false }, ?_,
      stands.moved rfl rfl rfl rfl rfl rfl (congrArg (fun n => Disk.mk bytes (cur.pos + n)) hlen)
      (.inr ?_), rfl, hle⟩
    · refine bind_eq_of_eq_ok hread ?_
      dsimp only [withDisk]
      rw [if_pos rfl, List.take_left' hlen.symm]
      rfl
    · dsimp only
      rw [List.length_append, List.length_drop]
      omega

/-- The body of a data record is read as far as it goes. -/
theorem readTmp_body (hsmall : SmallFile bytes) {pos offset n : Nat}
    (hdisk : r.file.disk = ⟨bytes, pos⟩) (hpos : pos ≤ bytes.length)
    (hroom : offset + n ≤ r.tmpBuffer.length) :
    ∃ whole rest, r.readTmp offset n = .ok (whole,
        { r.withDisk ⟨bytes, min (pos + n) bytes.length⟩ with
          tmpBuffer := r.tmpBuffer.take offset ++ (bytes.drop pos).take n ++ rest }) ∧
      (r.tmpBuffer.take offset ++ (bytes.drop pos).take n ++ rest).length = r.tmpBuffer.length ∧
      (whole = true → pos + n ≤ bytes.length ∨ 2 ^ 31 ≤ n) ∧
      (whole = false → min (pos + n) bytes.length = bytes.length) := by
  by_cases hwhole : pos + n ≤ bytes.length
  · have hgot : ((bytes.drop pos).take n).length = n := by
      rw [List.length_take, List.length_drop]
      omega
    refine ⟨true, r.tmpBuffer.drop (offset + n), ?_, ?_, fun _ => .inl hwhole, nofun⟩
    · rw [Nat.min_eq_left hwhole]
      exact readTmp_whole (lt_of_le_of_lt (by omega) hsmall) hdisk hroom hwhole
    · rw [List.length_append, List.length_append, hgot, List.length_take, List.length_drop]
      omega
  · obtain ⟨whole, rest, hread, hlength, hcut⟩ :=
      readTmp_cut hsmall hdisk hroom (Nat.lt_of_not_le hwhole)
    have hend : max pos bytes.length = min (pos + n) bytes.length := by omega
    rw [hend] at hread
    refine ⟨whole, rest, hread, hlength, fun htrue => .inr ?_, fun _ => by omega⟩
    by_contra hlt
    rw [hcut (by omega) (by omega)] at htrue
    cases htrue

/-- A copy within the buffer to where there is room for it. -/
theorem memcpyFrom_ok {src : List UInt8} {start length room : Int} (hlength : 0 ≤ length)
    (hstart : 0 ≤ start) (hsrc : start + length ≤ src.length) (hroom : length ≤ room) :
    memcpyFrom src start length room = .ok () :=
  if_pos ⟨hlength, hstart, hsrc, hroom⟩

theorem internalDecode_ok {convFunc : IOConversion → List UInt8 → Nat → Bool} {toBuffer : Bool}
    {room size : Nat} {ioformat : FFSTypeHandle} {src : List UInt8}
    (h : ioformat.Contains convFunc toBuffer room size src) (hsize : size ≤ src.length) :
    internalDecode convFunc ioformat src room toBuffer = .ok () := by
  have hbase : copyBase ioformat src room = .ok () := by
    unfold copyBase
    split
    · next hplace =>
      obtain ⟨hnonneg, hwithin, hroom⟩ := h.base hplace
      exact memcpyFrom_ok hnonneg (Int.natCast_nonneg _) (by omega) hroom
    · rfl
  have hvariant : copyVariant ioformat src room toBuffer = .ok () := by
    unfold copyVariant
    dsimp only
    split
    · next hplace =>
      obtain ⟨hnonneg, hwithin, hroom⟩ := h.variant hplace.1 hplace.2
      have hpad : 0 ≤ ioformat.dataAlignPad := Int.emod_nonneg _ (by decide)
      refine memcpyFrom_ok hplace.2.le (by omega) ?_ ?_
      · unfold FFSTypeHandle.variantLength
        omega
      · split
        · next htoBuffer =>
          have hbehind := hroom htoBuffer
          omega
        · exact le_rfl
    · rfl
  refine bind_eq_of_eq_ok hbase (bind_eq_of_eq_ok hvariant ?_)
  unfold convertRecord
  cases hconv : ioformat.conversion with
  | none => rfl
  | some conv =>
    refine if_neg fun hfails => ?_
    rw [h.converted conv hconv hfails.1] at hfails
    cases hfails.2

/-- What is done with a record that was read whole leaves the reader as it was. -/
def Keeps (decode : FFSReader → Except ReaderStop FFSReader) (bytes : List UInt8) (rawFlag : Bool)
    (d : DataRecord) : Prop :=
  ∀ {r : FFSReader} {cur : Cursor} {id : List UInt8} {i : Nat} {rest : List UInt8},
    r.Stands bytes rawFlag cur → cur.context.MetAs id i → ProperID id →
    cur.context.handle i = some d.handle → d.Arrives →
    r.tmpBuffer = d.bytes ++ rest → (∃ rest', r.tmpBuffer = id ++ rest') →
    max d.dataLen TMP_BUFFER_INIT_SIZE ≤ r.tmpBuffer.length → decode r = .ok r

/-- `FFSread` of a record, also of one that is cut off. -/
theorem takeData_spec (hsmall : SmallFile bytes) {d : DataRecord} {cur' : Cursor}
    (h : r.Peeked bytes rawFlag (.data d) cur')
    {decode : FFSReader → Except ReaderStop FFSReader} (hkeeps : Keeps decode bytes rawFlag d) :
    ∃ found r', r.takeData decode = .ok (found, r') ∧ r'.After bytes rawFlag cur' := by
  generalize hitem : FileItem.data d = item at h
  cases h with
  | @data cur start id rest i handle stands type hactual hmet hhandle hid hidLen hlen htmp hroom
      hstart hfront hpos =>
    cases hitem
    have hbody : r.actualBody = .ok handle.body :=
      actualBody_eq hactual (by rw [stands.context]; exact hhandle)
    obtain ⟨whole, rest', hread, hlength, hwhole, hend⟩ := readTmp_body hsmall stands.disk hpos
      (show headerSize handle.body + (r.nextDataLen - headerSize handle.body) ≤
        r.tmpBuffer.length by omega)
    rw [Int.ofNat_sub hlen] at hread
    -- The header and what follows it stand one behind the other in the file.
    have hbuffer : r.tmpBuffer.take (headerSize handle.body) ++ (bytes.drop cur.pos).take
        (r.nextDataLen - headerSize handle.body) = (bytes.drop start).take r.nextDataLen := by
      rw [hfront, hstart, ← List.drop_drop, ← List.take_add, Nat.add_sub_cancel' hlen]
    rw [hbuffer] at hread hlength
    -- A record that is cut off leaves the reader at the end of the file.
    let place := min (cur.pos + (r.nextDataLen - headerSize handle.body)) bytes.length
    let r₁ : FFSReader := { r.withDisk ⟨bytes, place⟩ with
      tmpBuffer := (bytes.drop start).take r.nextDataLen ++ rest' }
    have hinit : TMP_BUFFER_INIT_SIZE ≤ r₁.tmpBuffer.length :=
      le_trans (le_trans (Nat.le_max_right _ _) hroom) hlength.ge
    have hstands : r₁.Stands bytes rawFlag { cur with pos := place } :=
      stands.moved rfl rfl rfl rfl rfl rfl rfl (.inr hinit)
    unfold takeData
    cases whole with
    | false =>
      refine ⟨false, { r₁ with nextRecordType := some .ffsEnd }, ?_, .inr ⟨?_, hend rfl, rfl⟩⟩
      · exact bind_eq_of_eq_ok hbody (bind_eq_of_eq_ok hread rfl)
      · exact hstands.marked
    | true =>
      refine ⟨true, { r₁ with readAhead := false }, ?_, .inl ⟨?_, rfl, Nat.min_le_right _ _⟩⟩
      · refine bind_eq_of_eq_ok hbody (bind_eq_of_eq_ok hread ?_)
        have hprefix : ∃ rest'', r₁.tmpBuffer = id ++ rest'' := by
          have hbegins : ((bytes.drop start).take r.nextDataLen).take id.length = id := by
            rw [List.take_take, Nat.min_eq_left (le_trans hidLen hlen), ← Nat.min_eq_left hidLen,
              ← List.take_take, ← hfront, List.take_take, Nat.min_eq_left hidLen, htmp,
              List.take_left]
          refine ⟨((bytes.drop start).take r.nextDataLen).drop id.length ++ rest', ?_⟩
          rw [← List.append_assoc]
          nth_rewrite 1 [← hbegins]
          rw [List.take_append_drop]
        have harrives : (⟨handle, (bytes.drop start).take r.nextDataLen, r.nextDataLen⟩ :
            DataRecord).Arrives := by
          refine (hwhole rfl).imp (fun hle => ?_) fun hlarge => hlarge
          dsimp only
          rw [List.length_take, List.length_drop]
          omega
        have hdone : decode r₁ = .ok r₁ := hkeeps hstands hmet hid hhandle harrives rfl hprefix
          (le_trans hroom hlength.ge)
        exact bind_eq_of_eq_ok hdone rfl
      · exact hstands.marked
  | comment => cases hitem
  | format => cases hitem
  | index => cases hitem

theorem keeps_ok (d : DataRecord) : Keeps .ok bytes rawFlag d := fun _ _ _ _ _ _ _ _ => rfl

theorem keeps_decodeInto {convFunc : IOConversion → List UInt8 → Nat → Bool} {toBuffer : Bool}
    {room : Nat} {d : DataRecord} (h : d.Decodes convFunc toBuffer room) :
    Keeps (decodeInto ignoreDefaultValues strToVal convFunc toBuffer room) bytes rawFlag d := by
  intro r cur id i rest hstands hmet hid hhandle harrives hbytes ⟨rest', hrest'⟩ hsize
  obtain ⟨handle, result, hhandle', hdecode, havailable⟩ :=
    @FFSContext.decode_of_metAs ignoreDefaultValues strToVal _ _ _ hmet hstands.proper hid rest'
  obtain rfl := Option.some.inj (hhandle.symm.trans hhandle')
  rw [← hrest', ← hstands.context] at hdecode
  unfold decodeInto
  rw [hdecode]
  cases result with
  | none => rfl
  | some conv =>
    have hfound : (r.context.typeHandleFromEncode r.tmpBuffer).2.bind r.context.handle =
        some d.handle := by
      rw [hrest', hstands.context, FFSContext.typeHandleFromEncode_append hstands.proper hid,
        hmet.found]
      exact hhandle
    have hdone := internalDecode_ok (h harrives (havailable rfl) rest) (hbytes ▸ hsize)
    rw [← hbytes] at hdone
    dsimp only
    rw [hfound]
    exact bind_eq_of_eq_ok hdone rfl

/-- `FFSread_raw` of a record that the caller's buffer has room for. -/
theorem takeRaw_spec (hsmall : SmallFile bytes) {d : DataRecord} {bufferSize : Nat}
    {cur' : Cursor}
    (h : r.Peeked bytes rawFlag (.data d) cur') (hroom : d.size ≤ bufferSize) :
    ∃ found r', r.takeRaw bufferSize = .ok (found, r') ∧ r'.After bytes rawFlag cur' := by
  generalize hitem : FileItem.data d = item at h
  cases h with
  | @data cur start id rest i handle stands type hactual hmet hhandle hid hidLen hlen htmp _ _ _
      hpos =>
    cases hitem
    have hbody : r.actualBody = .ok handle.body :=
      actualBody_eq hactual (by rw [stands.context]; exact hhandle)
    let size := r.nextDataLen - headerSize handle.body
    have hsize : (r.nextDataLen : Int) - headerSize handle.body = (size : Int) :=
      (Int.ofNat_sub hlen).symm
    let place := min (cur.pos + size) bytes.length
    have hstands : (r.withDisk ⟨bytes, place⟩).Stands bytes rawFlag { cur with pos := place } :=
      stands.moved rfl rfl rfl rfl rfl rfl rfl stands.buffer
    obtain ⟨got, count, hread, hcut⟩ : ∃ got count,
        Disk.read ⟨bytes, cur.pos⟩ size = (got, count, ⟨bytes, place⟩) ∧
          (count ≠ (size : Int) → place = bytes.length) := by
      by_cases hwhole : cur.pos + size ≤ bytes.length
      · have hread := Disk.read_whole (lt_of_le_of_lt (by omega) hsmall) hwhole
        rw [← show place = cur.pos + size from Nat.min_eq_left hwhole] at hread
        exact ⟨_, _, hread, fun hne => absurd rfl hne⟩
      · obtain ⟨count, hread, -⟩ := Disk.read_cut hsmall (Nat.lt_of_not_le hwhole)
        rw [show max cur.pos bytes.length = place by omega] at hread
        exact ⟨_, count, hread, fun _ => by omega⟩
    have hfunc := readFunc_eq stands.disk hroom hread
    unfold takeRaw
    by_cases hcount : count = (size : Int)
    · refine ⟨true, { r.withDisk ⟨bytes, place⟩ with readAhead := false }, ?_,
        .inl ⟨?_, rfl, Nat.min_le_right _ _⟩⟩
      · refine bind_eq_of_eq_ok hbody ?_
        dsimp only
        rw [hsize]
        refine bind_eq_of_eq_ok hfunc ?_
        rw [if_pos hcount]
        rfl
      · exact hstands.marked
    · refine ⟨false, { r.withDisk ⟨bytes, place⟩ with nextRecordType := some .ffsEnd }, ?_,
        .inr ⟨?_, hcut hcount, rfl⟩⟩
      · refine bind_eq_of_eq_ok hbody ?_
        dsimp only
        rw [hsize]
        refine bind_eq_of_eq_ok hfunc ?_
        rw [if_neg hcount]
        rfl
      · exact hstands.marked
  | comment => cases hitem
  | format => cases hitem
  | index => cases hitem

theorem withDisk_fileOrg (r : FFSReader) (disk : Disk) :
    (r.withDisk disk).file.fileOrg = r.file.fileOrg := rfl

theorem withDisk_curIndex (r : FFSReader) (disk : Disk) :
    (r.withDisk disk).file.curIndex = r.file.curIndex := rfl

/-- The position of a small file as an index keeps it. -/
theorem updateFpos_toInt {f : IndexedFile} {pos : Nat} (hdisk : f.disk = ⟨bytes, pos⟩)
    (hpos : pos < 2 ^ 31) : (updateFpos f).fpos.toInt = pos := by
  rw [updateFpos]
  dsimp only
  rw [hdisk, Disk.lseek_here hpos]
  exact Int64.toInt_ofInt_of_le (by omega) (by omega)

theorem enterIndex_spec (h : r.Stands bytes rawFlag cur) (hpos : cur.pos ≤ bytes.length)
    {block : List UInt8}
    {parsed : FFSIndexItem} {start : Nat} (hparse : parseIndexBlock block = some parsed)
    (hlast : parsed.nextIndexOffset = bytes.length → block.length ≤ INDEX_BLOCK_SIZE) :
    ∃ r', r.enterIndex block start bytes.length =
        .ok (some { parsed with thisIndexFpos := start }, r') ∧
      r'.Between bytes rawFlag { cur with
        indexes := cur.indexes ++ [{ parsed with thisIndexFpos := start }] } := by
  let found : FFSIndexItem := { parsed with thisIndexFpos := start }
  have hindexes : r.indexes ++ [found] = cur.indexes ++ [found] :=
    congrArg (· ++ [found]) h.indexes
  unfold enterIndex
  rw [hparse]
  dsimp only
  by_cases hnext : parsed.nextIndexOffset = bytes.length
  · have hfits : ¬ INDEX_BLOCK_SIZE < block.length := Nat.not_lt.mpr (hlast hnext)
    rw [if_pos hnext]
    unfold resumeIndex
    rw [if_neg hfits]
    exact ⟨_, rfl, ⟨h.status, h.raw, h.disk, h.org, h.context, hindexes, h.buffer, h.proper,
      fun _ => rfl⟩, rfl, hpos⟩
  · have hresumed : (∃ item ∈ cur.indexes ++ [found], item.nextIndexOffset = bytes.length) →
        r.file.curIndex.isSome = true := by
      rintro ⟨item, hitem, hlink⟩
      rcases List.mem_append.mp hitem with hitem | hitem
      · exact h.resumed ⟨item, hitem, hlink⟩
      · rw [List.mem_singleton.mp hitem] at hlink
        exact absurd hlink hnext
    rw [if_neg hnext]
    exact ⟨_, rfl, ⟨h.status, h.raw, h.disk, h.org, h.context, hindexes, h.buffer, h.proper,
      hresumed⟩, rfl, hpos⟩

/-- `FFSread_index` of a block. -/
theorem takeIndex_spec (hsmall : SmallFile bytes) {item : FFSIndexItem} {cur' : Cursor}
    (h : r.Peeked bytes rawFlag (.index item) cur') :
    ∃ r', r.takeIndex bytes.length = .ok (some item, r') ∧ r'.Between bytes rawFlag cur' := by
  cases h with
  | @index cur start block parsed stands type hstart hlen hblock hparse hlast =>
    obtain ⟨hle, htake⟩ := take_of_span hblock
    have hfpos : (updateFpos r.file).fpos.toInt - 4 = (start : Int) := by
      rw [updateFpos_toInt stands.disk (lt_of_le_of_lt (by omega) hsmall), hstart]
      omega
    have hsize : (r.nextDataLen : Int) - 4 = (block.length : Int) := by omega
    have hread := Disk.read_whole (lt_of_le_of_lt (by omega) hsmall) hle
    rw [htake] at hread
    let r₁ : FFSReader := { r with file := updateFpos r.file }
    have hdisk : r₁.file.disk = ⟨bytes, cur.pos⟩ := (updateFpos_disk r.file).trans stands.disk
    have horg : r₁.file.fileOrg = r.file.fileOrg := updateFpos_fileOrg r.file
    have hcur : r₁.file.curIndex = r.file.curIndex := updateFpos_curIndex r.file
    have hroom : block.length ≤ r.nextDataLen - 4 := by omega
    have hfunc : r₁.readFunc (r.nextDataLen - 4) ((r.nextDataLen : Int) - 4) =
        .ok (block, (block.length : Int), r₁.withDisk ⟨bytes, cur.pos + block.length⟩) := by
      rw [hsize]
      exact readFunc_eq hdisk hroom hread
    have hstands : (r₁.withDisk ⟨bytes, cur.pos + block.length⟩).Stands bytes rawFlag
        { cur with pos := cur.pos + block.length } :=
      stands.moved rfl rfl ((withDisk_fileOrg r₁ _).trans horg)
      ((withDisk_curIndex r₁ _).trans hcur) rfl rfl rfl stands.buffer
    have hlength : (List.replicate 4 (0 : UInt8) ++ block).length = 4 + block.length := by
      rw [List.length_append, List.length_replicate]
    obtain ⟨r', henter, hbetween⟩ := @enterIndex_spec _ _ _ _ hstands hle _ _ start hparse
      (fun hnext => by rw [hlength]; exact hlast hnext)
    refine ⟨r', ?_, hbetween⟩
    refine bind_eq_of_eq_ok hfunc ?_
    dsimp only
    rw [if_neg (not_not_intro hsize.symm), hfpos]
    exact henter

/-! ## Records ahead -/

theorem RecordAt.moves {item : Option FileItem} {cur' : Cursor}
    (h : RecordAt ignoreDefaultValues strToVal bytes rawFlag cur item cur') :
    cur.pos + 4 ≤ cur'.pos ∧ cur'.pos ≤ bytes.length := by
  cases h with
  | comment hhead htext =>
    have hle := (take_of_span htext).1
    dsimp only
    omega
  | format hformat =>
    have hle := (take_of_span hformat.2.2.2).1
    dsimp only
    omega
  | data hdecided htarget hhandle hid hlen hheader =>
    dsimp only
    omega
  | discarded hdecided hraw hid hwhole =>
    dsimp only
    omega
  | index hhead hblock =>
    have hle := (take_of_span hblock).1
    dsimp only
    omega

theorem Reads.length_le {items : List FileItem} {e : Cursor}
    (h : Reads ignoreDefaultValues strToVal bytes rawFlag cur items e) :
    items.length ≤ bytes.length - cur.pos := by
  induction h with
  | refl => exact Nat.zero_le _
  | drop hrecord _ ih =>
    have hmoves := RecordAt.moves hrecord
    omega
  | item hrecord _ ih =>
    have hmoves := RecordAt.moves hrecord
    rw [List.length_cons]
    omega

/-- Nothing stands behind the end of the file. -/
theorem Reads.at_end {items : List FileItem} {e : Cursor}
    (h : Reads ignoreDefaultValues strToVal bytes rawFlag cur items e)
    (hpos : bytes.length ≤ cur.pos) : items = [] ∧ e = cur := by
  cases h with
  | refl => exact ⟨rfl, rfl⟩
  | drop hrecord =>
    have hmoves := RecordAt.moves hrecord
    omega
  | item hrecord =>
    have hmoves := RecordAt.moves hrecord
    omega

/-- A reader at the end of the file, with the indexes that it has read. -/
def AtEnd (bytes : List UInt8) (rawFlag : Bool) (indexes : List FFSIndexItem) (r : FFSReader) :
    Prop :=
  ∃ cur, r.Finished bytes rawFlag cur ∧ cur.indexes = indexes

section

variable (ignoreDefaultValues : Bool)
  (strToVal : List UInt8 → FMDataType → Int32 → Option (List UInt8)) (bytes : List UInt8)
  (rawFlag : Bool)

/-- What is known of the reader once all the records up to a place were taken and the head of the
next one was read. -/
structure Destination (e : Cursor) (Q : FFSReader → Prop) : Prop where
  arrives : ∀ {r : FFSReader}, r.Between bytes rawFlag e → ∀ fuel, ∃ type r',
    r.next ignoreDefaultValues strToVal (fuel + 5) = .ok (type, r') ∧ Q r'
  stays : bytes.length ≤ e.pos → ∀ {r : FFSReader}, AtEnd bytes rawFlag e.indexes r → Q r
  keeps : ∀ {r : FFSReader}, Q r → ∀ fuel, ∃ type r',
    r.next ignoreDefaultValues strToVal (fuel + 1) = .ok (type, r') ∧ Q r'

/-- A reader that has read the head of the next record, with the records up to a place. -/
def Settled (Q : FFSReader → Prop) (e : Cursor) (r : FFSReader) : List FileItem → Prop
  | [] => Q r
  | item :: items => r.readAhead = true ∧ ∃ mid, r.Peeked bytes rawFlag item mid ∧
      Reads ignoreDefaultValues strToVal bytes rawFlag mid items e

end

section

variable {e : Cursor} {Q : FFSReader → Prop} {items : List FileItem}

/-- From in front of a record the head of the next one is read, past the records that are
dropped. -/
theorem settles_of_between (hsmall : SmallFile bytes)
    (hdest : items = [] → Destination ignoreDefaultValues strToVal bytes rawFlag e Q)
    (hreads : Reads ignoreDefaultValues strToVal bytes rawFlag cur items e)
    (h : r.Between bytes rawFlag cur) {fuel : Nat} (hfuel : bytes.length - cur.pos + 6 ≤ fuel) :
    ∃ type r', r.next ignoreDefaultValues strToVal fuel = .ok (type, r') ∧
      Settled ignoreDefaultValues strToVal bytes rawFlag Q e r' items := by
  induction hreads generalizing r fuel with
  | refl e =>
    obtain ⟨k, rfl⟩ : ∃ k, fuel = k + 5 := ⟨fuel - 5, by omega⟩
    exact (hdest rfl).arrives h k
  | drop hrecord _ ih =>
    obtain ⟨k, rfl⟩ : ∃ k, fuel = k + 5 := ⟨fuel - 5, by omega⟩
    have hmoves := RecordAt.moves hrecord
    obtain ⟨r', hnext, hbetween⟩ :=
      next_dropped ignoreDefaultValues strToVal hsmall h hrecord k
    rw [hnext]
    exact ih hdest hbetween (by omega)
  | item hrecord hreads =>
    obtain ⟨k, rfl⟩ : ∃ k, fuel = k + 5 := ⟨fuel - 5, by omega⟩
    obtain ⟨r', hnext, hahead, hpeeked⟩ :=
      next_record ignoreDefaultValues strToVal hsmall h hrecord k
    exact ⟨_, r', hnext, hahead, _, hpeeked, hreads⟩

theorem next_of_ahead (hstatus : r.status = .openForRead) (hahead : r.readAhead = true)
    (fuel : Nat) : r.next ignoreDefaultValues strToVal (fuel + 1) =
      .ok (r.nextRecordType.getD .ffsError, r) := by
  rw [next, if_neg (not_not_intro hstatus), if_pos hahead]

theorem next_of_atEnd (hsmall : SmallFile bytes) {indexes : List FFSIndexItem}
    (h : AtEnd bytes rawFlag indexes r) (fuel : Nat) :
    ∃ r', r.next ignoreDefaultValues strToVal (fuel + 1) = .ok (.ffsEnd, r') ∧
      AtEnd bytes rawFlag indexes r' := by
  obtain ⟨cur, hfinished, hindexes⟩ := h
  cases hahead : r.readAhead with
  | true =>
    refine ⟨r, ?_, cur, hfinished, hindexes⟩
    rw [next_of_ahead hfinished.stands.status hahead, hfinished.type]
    rfl
  | false =>
    have hbehind := hfinished.atEnd
    obtain ⟨r', cur', hnext, hfinished', hindexes'⟩ := next_nothing ignoreDefaultValues
      strToVal hsmall ⟨hfinished.stands, hahead, by omega⟩ (word_eq_none_iff.mpr (by omega)) fuel
    exact ⟨r', hnext, cur', hfinished', hindexes'.trans hindexes⟩

theorem settles_of_after (hsmall : SmallFile bytes)
    (hdest : items = [] → Destination ignoreDefaultValues strToVal bytes rawFlag e Q)
    (hreads : Reads ignoreDefaultValues strToVal bytes rawFlag cur items e)
    (h : r.After bytes rawFlag cur) {fuel : Nat} (hfuel : bytes.length - cur.pos + 6 ≤ fuel) :
    ∃ type r', r.next ignoreDefaultValues strToVal fuel = .ok (type, r') ∧
      Settled ignoreDefaultValues strToVal bytes rawFlag Q e r' items := by
  rcases h with hbetween | hfinished
  · exact settles_of_between hsmall hdest hreads hbetween hfuel
  · obtain ⟨rfl, rfl⟩ := Reads.at_end hreads hfinished.atEnd.ge
    obtain ⟨k, rfl⟩ : ∃ k, fuel = k + 1 := ⟨fuel - 1, by omega⟩
    obtain ⟨r', hnext, hend⟩ := next_of_atEnd hsmall ⟨_, hfinished, rfl⟩ k
    exact ⟨_, r', hnext, (hdest rfl).stays hfinished.atEnd.ge hend⟩

end

/-! ## The loops -/

/-- The first record of a type, and what is behind it. -/
def recordsFrom (type : FFSRecordType) (items : List FileItem) : List FileItem :=
  items.dropWhile (·.type ≠ type)

theorem Peeked.status {item : FileItem} {mid : Cursor} (h : r.Peeked bytes rawFlag item mid) :
    r.status = .openForRead := by
  cases h with
  | comment stands => exact stands.status
  | format stands => exact stands.status
  | data stands => exact stands.status
  | index stands => exact stands.status

theorem Peeked.pos_lt {item : FileItem} {mid : Cursor} (hsmall : SmallFile bytes)
    (h : r.Peeked bytes rawFlag item mid) :
    ∃ pos, r.file.disk = ⟨bytes, pos⟩ ∧ pos < 2 ^ 31 := by
  cases h with
  | comment stands type hlen htext =>
    have hle := (take_of_span htext).1
    exact ⟨_, stands.disk, lt_of_le_of_lt (by omega) hsmall⟩
  | format stands type hidLen hlen hid =>
    have hle := (take_of_span hid).1
    exact ⟨_, stands.disk, lt_of_le_of_lt (by omega) hsmall⟩
  | data stands type hactual hmet hhandle hid hidLen hlen htmp hroom hstart hfront hpos =>
    exact ⟨_, stands.disk, lt_of_le_of_lt hpos hsmall⟩
  | index stands type hstart hlen hblock =>
    have hle := (take_of_span hblock).1
    exact ⟨_, stands.disk, lt_of_le_of_lt (by omega) hsmall⟩

theorem skipTo_of_type {type : FFSRecordType} (h : r.nextRecordType = some type) (fuel : Nat) :
    r.skipTo ignoreDefaultValues strToVal (fuel + 1) type = .ok (true, r) := by
  rw [skipTo, if_pos h]

/-- A call whose record comes next takes it. -/
theorem readComment_peeked (hstatus : r.status = .openForRead) (hahead : r.readAhead = true)
    (htype : r.nextRecordType = some .ffsComment) (fuel : Nat) :
    r.readComment ignoreDefaultValues strToVal (fuel + 2) = r.takeComment := by
  rw [readComment, if_neg (not_not_intro hstatus)]
  exact bind_eq_of_eq_ok (peek_of_ahead ignoreDefaultValues strToVal hahead fuel)
    (bind_eq_of_eq_ok (skipTo_of_type htype fuel) rfl)

theorem read_peeked (hstatus : r.status = .openForRead) (hahead : r.readAhead = true)
    (htype : r.nextRecordType = some .ffsData)
    (decode : FFSReader → Except ReaderStop FFSReader) (fuel : Nat) :
    r.read ignoreDefaultValues strToVal (fuel + 2) decode = r.takeData decode := by
  rw [read, if_neg (not_not_intro hstatus)]
  exact bind_eq_of_eq_ok (peek_of_ahead ignoreDefaultValues strToVal hahead fuel)
    (bind_eq_of_eq_ok (skipTo_of_type htype fuel) rfl)

theorem readFormat_peeked (hahead : r.readAhead = true)
    (htype : r.nextRecordType = some .ffsFormat) (fuel : Nat) :
    r.readFormat ignoreDefaultValues strToVal (fuel + 2) = r.takeFormat := by
  have hskip : r.skipToFormat ignoreDefaultValues strToVal (fuel + 1) = .ok (true, r) := by
    rw [skipToFormat, htype]
  rw [readFormat]
  exact bind_eq_of_eq_ok (peek_of_ahead ignoreDefaultValues strToVal hahead fuel)
    (bind_eq_of_eq_ok hskip rfl)

/-- The position is found again after the end of the file was looked for. -/
theorem seek_back (hsmall : SmallFile bytes) {pos : Nat} (hdisk : r.file.disk = ⟨bytes, pos⟩)
    (hpos : pos < 2 ^ 31) : ((r.file.disk.lseek 0 .cur).2.lseek 0 .fromEnd).1 = bytes.length ∧
      r.withDisk (((r.file.disk.lseek 0 .cur).2.lseek 0 .fromEnd).2.lseek
        (r.file.disk.lseek 0 .cur).1 .set).2 = r := by
  have hback : (((r.file.disk.lseek 0 .cur).2.lseek 0 .fromEnd).2.lseek
      (r.file.disk.lseek 0 .cur).1 .set).2 = r.file.disk := by
    rw [hdisk, Disk.lseek_here hpos, Disk.lseek_end pos hsmall]
    exact Disk.lseek_to bytes _ pos
  refine ⟨?_, ?_⟩
  · rw [hdisk, Disk.lseek_here hpos, Disk.lseek_end pos hsmall]
  · rw [hback]
    rfl

theorem readIndex_peeked (hsmall : SmallFile bytes) {pos : Nat}
    (hdisk : r.file.disk = ⟨bytes, pos⟩) (hpos : pos < 2 ^ 31) (hahead : r.readAhead = true)
    (htype : r.nextRecordType = some .ffsIndex) (fuel : Nat) :
    r.readIndex ignoreDefaultValues strToVal (fuel + 2) = r.takeIndex bytes.length := by
  obtain ⟨hend, hback⟩ := seek_back hsmall hdisk hpos
  rw [readIndex]
  dsimp only
  rw [hback, hend]
  exact bind_eq_of_eq_ok (peek_of_ahead ignoreDefaultValues strToVal hahead fuel)
    (bind_eq_of_eq_ok (skipTo_of_type htype fuel) rfl)

section

variable {e : Cursor} {Q : FFSReader → Prop} {items : List FileItem}

/-- The record that comes next is taken, and the head of the one behind it is read. -/
theorem consume_settled (hsmall : SmallFile bytes)
    (hdest : items = [] → Destination ignoreDefaultValues strToVal bytes rawFlag e Q)
    {item : FileItem}
    (h : Settled ignoreDefaultValues strToVal bytes rawFlag Q e r (item :: items)) {fuel : Nat}
    (hfuel : bytes.length + 7 ≤ fuel) :
    ∃ r', r.consumeNextItem ignoreDefaultValues strToVal fuel = .ok (true, r') ∧
      Settled ignoreDefaultValues strToVal bytes rawFlag Q e r' items := by
  obtain ⟨hahead, mid, hpeeked, hreads⟩ := h
  obtain ⟨k, rfl⟩ : ∃ k, fuel = k + 3 := ⟨fuel - 3, by omega⟩
  have hstatus := hpeeked.status
  have htype := hpeeked.type
  have hfirst : r.next ignoreDefaultValues strToVal (k + 2) = .ok (item.type, r) := by
    rw [next_of_ahead hstatus hahead, htype]
    rfl
  have hnext : ∀ {r' : FFSReader}, r'.After bytes rawFlag mid → ∃ type r'',
      r'.next ignoreDefaultValues strToVal (k + 2) = .ok (type, r'') ∧
        Settled ignoreDefaultValues strToVal bytes rawFlag Q e r'' items :=
    fun hafter => settles_of_after hsmall hdest hreads hafter (by omega)
  rw [consumeNextItem]
  cases item with
  | comment text =>
    obtain ⟨r', htake, hbetween⟩ := takeComment_spec (.inl hsmall) hpeeked
    obtain ⟨type, r'', hnext', hsettled⟩ := hnext (.inl hbetween)
    exact ⟨r'', bind_eq_of_eq_ok hfirst (bind_eq_of_eq_ok
      ((readComment_peeked hstatus hahead htype k).trans htake) (bind_eq_of_eq_ok hnext' rfl)),
      hsettled⟩
  | format id rep =>
    obtain ⟨handle, r', htake, hbetween, -⟩ := takeFormat_spec (.inl hsmall) hpeeked
    obtain ⟨type, r'', hnext', hsettled⟩ := hnext (.inl hbetween)
    exact ⟨r'', bind_eq_of_eq_ok hfirst (bind_eq_of_eq_ok
      ((readFormat_peeked hahead htype k).trans htake) (bind_eq_of_eq_ok hnext' rfl)), hsettled⟩
  | data d =>
    obtain ⟨found, r', htake, hafter⟩ := takeData_spec hsmall hpeeked (keeps_ok d)
    obtain ⟨type, r'', hnext', hsettled⟩ := hnext hafter
    exact ⟨r'', bind_eq_of_eq_ok hfirst (bind_eq_of_eq_ok
      ((read_peeked hstatus hahead htype .ok k).trans htake) (bind_eq_of_eq_ok hnext' rfl)),
      hsettled⟩
  | index found =>
    obtain ⟨pos, hdisk, hpos⟩ := hpeeked.pos_lt hsmall
    obtain ⟨r', htake, hbetween⟩ := takeIndex_spec hsmall hpeeked
    obtain ⟨type, r'', hnext', hsettled⟩ := hnext (.inl hbetween)
    exact ⟨r'', bind_eq_of_eq_ok hfirst (bind_eq_of_eq_ok
      ((readIndex_peeked hsmall hdisk hpos hahead htype k).trans htake)
      (bind_eq_of_eq_ok hnext' rfl)), hsettled⟩

/-- The records in front of one of a type are taken, all of them if there is none. -/
theorem skipTo_settled (hsmall : SmallFile bytes) (type : FFSRecordType)
    (hdest : recordsFrom type items = [] →
      Destination ignoreDefaultValues strToVal bytes rawFlag e Q)
    (h : Settled ignoreDefaultValues strToVal bytes rawFlag Q e r items) {fuel : Nat}
    (hfuel : items.length + (bytes.length + 9) ≤ fuel) :
    ∃ r' fuel', r.skipTo ignoreDefaultValues strToVal fuel type =
        r'.skipTo ignoreDefaultValues strToVal fuel' type ∧
      bytes.length + 9 ≤ fuel' ∧
      Settled ignoreDefaultValues strToVal bytes rawFlag Q e r' (recordsFrom type items) := by
  induction items generalizing r fuel with
  | nil => exact ⟨r, fuel, rfl, by omega, h⟩
  | cons item items ih =>
    by_cases htype : item.type = type
    · rw [recordsFrom, List.dropWhile_cons_of_neg (by simp [htype])]
      exact ⟨r, fuel, rfl, by omega, h⟩
    · have hfrom : recordsFrom type (item :: items) = recordsFrom type items :=
        List.dropWhile_cons_of_pos (by simp [htype])
      rw [hfrom] at hdest ⊢
      obtain ⟨k, rfl⟩ : ∃ k, fuel = k + 1 := ⟨fuel - 1, by omega⟩
      rw [List.length_cons] at hfuel
      obtain ⟨r', hconsume, hsettled⟩ := consume_settled hsmall
        (fun hitems => hdest (by rw [hitems]; rfl)) h (show bytes.length + 7 ≤ k by omega)
      obtain ⟨r'', fuel', hskip, hfuel', hsettled'⟩ := ih hdest hsettled (show _ ≤ k by omega)
      obtain ⟨hahead, mid, hpeeked, hreads⟩ := h
      refine ⟨r'', fuel', ?_, hfuel', hsettled'⟩
      rw [skipTo, if_neg (by rw [hpeeked.type]; exact fun heq => htype (Option.some.inj heq))]
      refine (bind_eq_of_eq_ok hconsume ?_).trans hskip
      exact if_pos rfl

end

/-! ## Towards a place -/

section

variable (ignoreDefaultValues : Bool)
  (strToVal : List UInt8 → FMDataType → Int32 → Option (List UInt8)) (bytes : List UInt8)
  (rawFlag : Bool)

/-- The records between a reader and a place of the file. -/
def Heading (Q : FFSReader → Prop) (e : Cursor) (r : FFSReader) (items : List FileItem) : Prop :=
  (∃ cur, r.Between bytes rawFlag cur ∧
    Reads ignoreDefaultValues strToVal bytes rawFlag cur items e) ∨
    Settled ignoreDefaultValues strToVal bytes rawFlag Q e r items

/-- The records that are ahead of a reader, up to some place of the file.  In a file that is
`complete` nothing follows them. -/
def Ahead (complete : Prop) (r : FFSReader) (items : List FileItem) : Prop :=
  ∃ e, (complete → EndsAt ignoreDefaultValues strToVal bytes rawFlag e) ∧
    Heading ignoreDefaultValues strToVal bytes rawFlag (AtEnd bytes rawFlag e.indexes) e r items

end

section

variable {items : List FileItem} {e : Cursor} {Q : FFSReader → Prop}

theorem destination_of_ends (hsmall : SmallFile bytes)
    (hends : EndsAt ignoreDefaultValues strToVal bytes rawFlag e) :
    Destination ignoreDefaultValues strToVal bytes rawFlag e
      (AtEnd bytes rawFlag e.indexes) where
  arrives h fuel := by
    obtain ⟨r', cur', hnext, hfinished, hindexes⟩ :=
      next_ends ignoreDefaultValues strToVal hsmall h hends fuel
    exact ⟨_, r', hnext, cur', hfinished, hindexes⟩
  stays _ _ hend := hend
  keeps hend fuel := by
    obtain ⟨r', hnext, hend'⟩ := next_of_atEnd hsmall hend fuel
    exact ⟨_, r', hnext, hend'⟩

/-- The number of records ahead is bounded by the length of the file. -/
theorem Settled.length_le (h : Settled ignoreDefaultValues strToVal bytes rawFlag Q e r items) :
    items.length ≤ bytes.length + 1 := by
  cases items with
  | nil => exact Nat.zero_le _
  | cons item items =>
    obtain ⟨-, mid, -, hreads⟩ := h
    have hle := Reads.length_le hreads
    rw [List.length_cons]
    omega

/-- `next_record_type` reads the head of the next record. -/
theorem next_heading (hsmall : SmallFile bytes)
    (hdest : items = [] → Destination ignoreDefaultValues strToVal bytes rawFlag e Q)
    (h : Heading ignoreDefaultValues strToVal bytes rawFlag Q e r items) {fuel : Nat}
    (hfuel : bytes.length + 6 ≤ fuel) :
    ∃ type r', r.next ignoreDefaultValues strToVal fuel = .ok (type, r') ∧
      Settled ignoreDefaultValues strToVal bytes rawFlag Q e r' items := by
  rcases h with ⟨cur, hbetween, hreads⟩ | hsettled
  · exact settles_of_between hsmall hdest hreads hbetween (by omega)
  · obtain ⟨k, rfl⟩ : ∃ k, fuel = k + 1 := ⟨fuel - 1, by omega⟩
    cases items with
    | nil => exact (hdest rfl).keeps hsettled k
    | cons item items =>
      obtain ⟨hahead, mid, hpeeked, hreads⟩ := hsettled
      exact ⟨_, r, next_of_ahead hpeeked.status hahead k, hahead, mid, hpeeked, hreads⟩

theorem peek_heading (hsmall : SmallFile bytes)
    (hdest : items = [] → Destination ignoreDefaultValues strToVal bytes rawFlag e Q)
    (h : Heading ignoreDefaultValues strToVal bytes rawFlag Q e r items) {fuel : Nat}
    (hfuel : bytes.length + 7 ≤ fuel) :
    ∃ r', r.peek ignoreDefaultValues strToVal fuel = .ok r' ∧
      Settled ignoreDefaultValues strToVal bytes rawFlag Q e r' items := by
  obtain ⟨k, rfl⟩ : ∃ k, fuel = k + 1 := ⟨fuel - 1, by omega⟩
  cases hahead : r.readAhead with
  | false =>
    obtain ⟨type, r', hnext, hsettled⟩ :=
      next_heading hsmall hdest h (show bytes.length + 6 ≤ k by omega)
    exact ⟨r', peek_of_next ignoreDefaultValues strToVal hahead hnext, hsettled⟩
  | true =>
    rcases h with ⟨cur, hbetween, -⟩ | hsettled
    · rw [hbetween.ahead] at hahead
      cases hahead
    · exact ⟨r, peek_of_ahead ignoreDefaultValues strToVal hahead k, hsettled⟩

/-- A call comes to the first record of its type, or to the place that is headed for. -/
theorem reach_heading (hsmall : SmallFile bytes) (type : FFSRecordType)
    (hdest : recordsFrom type items = [] →
      Destination ignoreDefaultValues strToVal bytes rawFlag e Q)
    (h : Heading ignoreDefaultValues strToVal bytes rawFlag Q e r items) {fuel : Nat}
    (hfuel : 2 * bytes.length + 10 ≤ fuel) :
    ∃ r₀ r₁ fuel', r.peek ignoreDefaultValues strToVal fuel = .ok r₀ ∧
      r₀.skipTo ignoreDefaultValues strToVal fuel type =
        r₁.skipTo ignoreDefaultValues strToVal fuel' type ∧
      bytes.length + 9 ≤ fuel' ∧
      Settled ignoreDefaultValues strToVal bytes rawFlag Q e r₁ (recordsFrom type items) := by
  obtain ⟨r₀, hpeek, hsettled⟩ := peek_heading hsmall
    (fun hnone => hdest (by rw [hnone]; rfl)) h (show _ ≤ fuel by omega)
  have hcount := hsettled.length_le
  obtain ⟨r₁, fuel', hskip, hfuel', hreached⟩ :=
    skipTo_settled hsmall type hdest hsettled (show _ ≤ fuel by omega)
  exact ⟨r₀, r₁, fuel', hpeek, hskip, hfuel', hreached⟩

/-- At the end of the file no record is found. -/
theorem skipTo_atEnd (hsmall : SmallFile bytes) {indexes : List FFSIndexItem}
    (h : AtEnd bytes rawFlag indexes r) {type : FFSRecordType} (htype : type ≠ .ffsEnd)
    (fuel : Nat) :
    ∃ r', r.skipTo ignoreDefaultValues strToVal (fuel + 3) type = .ok (false, r') ∧
      AtEnd bytes rawFlag indexes r' := by
  have htype' : r.nextRecordType ≠ some type := by
    obtain ⟨cur, hfinished, -⟩ := h
    rw [hfinished.type]
    exact fun heq => htype (Option.some.inj heq).symm
  obtain ⟨r', hnext, hend⟩ := next_of_atEnd hsmall h fuel
  refine ⟨r', ?_, hend⟩
  have hconsume : r.consumeNextItem ignoreDefaultValues strToVal (fuel + 2) = .ok (false, r') := by
    rw [consumeNextItem]
    exact bind_eq_of_eq_ok hnext rfl
  rw [skipTo, if_neg htype']
  exact bind_eq_of_eq_ok hconsume rfl

end

/-! ## The calls -/

section

variable {complete : Prop} {items : List FileItem}

theorem ahead_of_after {mid e : Cursor} (h : r.After bytes rawFlag mid)
    (hreads : Reads ignoreDefaultValues strToVal bytes rawFlag mid items e)
    (hends : complete → EndsAt ignoreDefaultValues strToVal bytes rawFlag e) :
    Ahead ignoreDefaultValues strToVal bytes rawFlag complete r items := by
  refine ⟨e, hends, ?_⟩
  rcases h with hbetween | hfinished
  · exact .inl ⟨mid, hbetween, hreads⟩
  · obtain ⟨rfl, rfl⟩ := Reads.at_end hreads hfinished.atEnd.ge
    exact .inr ⟨_, hfinished, rfl⟩

theorem Ahead.status (h : Ahead ignoreDefaultValues strToVal bytes rawFlag complete r items) :
    r.status = .openForRead := by
  obtain ⟨e, -, ⟨cur, hbetween, -⟩ | hsettled⟩ := h
  · exact hbetween.stands.status
  · cases items with
    | nil =>
      obtain ⟨cur, hfinished, -⟩ := hsettled
      exact hfinished.stands.status
    | cons item items =>
      obtain ⟨-, mid, hpeeked, -⟩ := hsettled
      exact hpeeked.status

/-- A call comes to the first record of its type, or to the end of the file. -/
theorem reach_ahead (hsmall : SmallFile bytes)
    (h : Ahead ignoreDefaultValues strToVal bytes rawFlag complete r items) (type : FFSRecordType)
    (htype : type ≠ .ffsEnd) (hfinds : recordsFrom type items = [] → complete) {fuel : Nat}
    (hfuel : 2 * bytes.length + 10 ≤ fuel) :
    ∃ r₀, r.peek ignoreDefaultValues strToVal fuel = .ok r₀ ∧
      ((∃ item rest r₁ mid e, recordsFrom type items = item :: rest ∧ item.type = type ∧
          r₀.skipTo ignoreDefaultValues strToVal fuel type = .ok (true, r₁) ∧
          r₁.Peeked bytes rawFlag item mid ∧
          Reads ignoreDefaultValues strToVal bytes rawFlag mid rest e ∧
          (complete → EndsAt ignoreDefaultValues strToVal bytes rawFlag e)) ∨
        (recordsFrom type items = [] ∧
          ∃ r₁, r₀.skipTo ignoreDefaultValues strToVal fuel type = .ok (false, r₁) ∧
            Ahead ignoreDefaultValues strToVal bytes rawFlag complete r₁ [])) := by
  obtain ⟨e, hends, hheading⟩ := h
  obtain ⟨r₀, r₁, fuel', hpeek, hskip, hfuel', hreached⟩ := reach_heading hsmall type
    (fun hnone => destination_of_ends hsmall (hends (hfinds hnone))) hheading hfuel
  refine ⟨r₀, hpeek, ?_⟩
  cases hfrom : recordsFrom type items with
  | nil =>
    rw [hfrom] at hreached
    obtain ⟨k, rfl⟩ : ∃ k, fuel' = k + 3 := ⟨fuel' - 3, by omega⟩
    obtain ⟨r₂, hskip', hend⟩ := skipTo_atEnd hsmall hreached htype k
    exact .inr ⟨rfl, r₂, hskip.trans hskip', e, hends, .inr hend⟩
  | cons item rest =>
    rw [hfrom] at hreached
    obtain ⟨hahead, mid, hpeeked, hreads⟩ := hreached
    have hitem : item.type = type := by
      have hnot := List.head?_dropWhile_not (fun i : FileItem => decide (i.type ≠ type)) items
      rw [recordsFrom] at hfrom
      rw [hfrom] at hnot
      simpa using hnot
    obtain ⟨k, rfl⟩ : ∃ k, fuel' = k + 1 := ⟨fuel' - 1, by omega⟩
    exact .inl ⟨item, rest, r₁, mid, e, rfl, hitem,
      hskip.trans (skipTo_of_type (hpeeked.type.trans (congrArg some hitem)) k), hpeeked,
      hreads, hends⟩

end

end FFSReader

end FFS
