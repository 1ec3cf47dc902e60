import FFS.File.IndexLinks

/-!
# A record with its header

`FFSread_raw_header` gives back a message as it was written.  The header was read with the head of
the record, so it is made again from the format: the identifier, and zeroes up to the size of the
header.  A message of a variant format has its length behind the identifier, which is not made
again.
-/

namespace FFS

open Machine

namespace FFSReader

/-- `FFSread_raw_header` once the next record is a data record, into a buffer that is `dest`. -/
def takeRawHeader (r : FFSReader) (dest : List UInt8) :
    Except ReaderStop (Bool × List UInt8 × FFSReader) := do
  let body ← r.actualBody
  let header := headerSize body
  if dest.length < header then .error .overrun
  else
    let front := body.serverID ++ List.replicate (header - body.serverID.length) 0
    let readSize : Int := r.nextDataLen - header
    let (got, count, r) ← r.readFunc (dest.length - header) readSize
    let dest := front ++ got ++ dest.drop (header + got.length)
    if count = readSize then return (true, dest, { r with readAhead := false })
    else return (false, dest, { r with nextRecordType := some .ffsEnd })

/-- `FFSread_raw_header`, which also tells the format.  The size of the buffer that its caller
gives is not looked at. -/
def readRawHeader (ignoreDefaultValues : Bool)
    (strToVal : List UInt8 → FMDataType → Int32 → Option (List UInt8)) (fuel : Nat)
    (dest : List UInt8) (r : FFSReader) :
    Except ReaderStop (Bool × List UInt8 × Option Nat × FFSReader) :=
  if r.status ≠ .openForRead then .ok (false, dest, none, r)
  else do
    let r ← r.peek ignoreDefaultValues strToVal fuel
    let (found, r) ← r.skipTo ignoreDefaultValues strToVal fuel .ffsData
    if found then
      let (whole, dest, r') ← r.takeRawHeader dest
      return (whole, dest, r.nextActualHandle, r')
    else return (false, dest, none, r)

end FFSReader

/-! ## Messages -/

/-- The length of a variant message behind its identifier, which writers of up to version 3 align
to 4 bytes. -/
def lengthWord (bigEndian : Bool) (body : StoredFormat) (n : Nat) : List UInt8 :=
  if body.format.top.variant then
    if body.format.top.ioVersion ≤ 3 then
      List.replicate ((4 - body.serverID.length % 4) % 4) 0 ++ putBytes bigEndian 4 n
    else putBytes bigEndian 8 n
  else []

/-- A header, in the byte order of its writer, of a message with `n` bytes behind it. -/
def encodedHeader (bigEndian : Bool) (body : StoredFormat) (n : Nat) : List UInt8 :=
  let front := body.serverID ++ lengthWord bigEndian body n
  front ++ List.replicate (headerSize body - front.length) 0

/-- An encoded message. -/
def encodedMessage (bigEndian : Bool) (body : StoredFormat) (data : List UInt8) : List UInt8 :=
  encodedHeader bigEndian body data.length ++ data

/-- What `FFSread_raw_header` stores in front of the data. -/
def rawHeader (body : StoredFormat) : List UInt8 :=
  body.serverID ++ List.replicate (headerSize body - body.serverID.length) 0

theorem length_le_headerSize (body : StoredFormat) : body.serverID.length ≤ headerSize body := by
  unfold headerSize
  dsimp only
  omega

theorem length_rawHeader (body : StoredFormat) : (rawHeader body).length = headerSize body := by
  have hle := length_le_headerSize body
  rw [rawHeader, List.length_append, List.length_replicate]
  omega

/-- The header has room for the length. -/
theorem front_le_headerSize (bigEndian : Bool) {body : StoredFormat} (hid : ProperID body.serverID)
    (n : Nat) : body.serverID.length + (lengthWord bigEndian body n).length ≤ headerSize body := by
  have hlength : body.serverID.length = 8 ∨ body.serverID.length = 10 ∨
      body.serverID.length = 12 := by
    rcases hid.length with ⟨-, h⟩ | ⟨-, h⟩ | ⟨-, h⟩ <;> omega
  unfold lengthWord headerSize
  by_cases hvariant : body.format.top.variant = true
  · by_cases hold : body.format.top.ioVersion ≤ 3
    · rw [if_pos hvariant, if_pos hold, if_pos hvariant, if_pos hold, List.length_append,
        List.length_replicate, length_putBytes]
      dsimp only
      omega
    · rw [if_pos hvariant, if_neg hold, if_pos hvariant, if_neg hold, length_putBytes]
      dsimp only
      omega
  · rw [if_neg hvariant, if_neg hvariant, List.length_nil]
    dsimp only
    omega

theorem length_encodedHeader (bigEndian : Bool) {body : StoredFormat}
    (hid : ProperID body.serverID) (n : Nat) :
    (encodedHeader bigEndian body n).length = headerSize body := by
  have hle := front_le_headerSize bigEndian hid n
  rw [encodedHeader, List.length_append, List.length_append, List.length_replicate]
  omega

/-- A number that its bytes hold is written as zeroes only when it is zero. -/
theorem putBytes_eq_zero_iff {bigEndian : Bool} {w n : Nat} (hn : n < 256 ^ w) :
    putBytes bigEndian w n = List.replicate w 0 ↔ n = 0 := by
  have hzero : putBytes bigEndian w 0 = List.replicate w 0 := by
    have hle : ∀ w, leBytes w 0 = List.replicate w 0 := by
      intro w
      induction w with
      | zero => rfl
      | succ w ih => rw [leBytes, ih, List.replicate_succ]; rfl
    cases bigEndian with
    | false => exact hle w
    | true => rw [putBytes, if_pos rfl, beBytes, hle, List.reverse_replicate]
  constructor
  · intro heq
    have hvalue := congrArg (getValue bigEndian) (heq.trans hzero.symm)
    rw [getValue_putBytes, getValue_putBytes, Nat.mod_eq_of_lt hn, Nat.zero_mod] at hvalue
    exact hvalue
  · rintro rfl
    exact hzero

/-- The header that is made again is the one of a message without a length, or of an empty one. -/
theorem rawHeader_eq_iff (bigEndian : Bool) {body : StoredFormat} (hid : ProperID body.serverID)
    {n : Nat} (hn : n < 2 ^ 31) :
    rawHeader body = encodedHeader bigEndian body n ↔
      body.format.top.variant = false ∨ n = 0 := by
  have hle := front_le_headerSize bigEndian hid n
  have hword : rawHeader body = encodedHeader bigEndian body n ↔
      lengthWord bigEndian body n =
        List.replicate (lengthWord bigEndian body n).length 0 := by
    have hsplit : headerSize body - body.serverID.length =
        (lengthWord bigEndian body n).length +
          (headerSize body - (body.serverID ++ lengthWord bigEndian body n).length) := by
      rw [List.length_append]
      omega
    rw [rawHeader, encodedHeader, hsplit, List.replicate_add, List.append_assoc,
      List.append_cancel_left_eq, List.append_cancel_right_eq]
    exact eq_comm
  rw [hword]
  unfold lengthWord
  by_cases hvariant : body.format.top.variant = true
  · have hnot : ¬ body.format.top.variant = false := by
      rw [hvariant]
      exact Bool.noConfusion
    rw [if_pos hvariant, or_iff_right hnot]
    by_cases hold : body.format.top.ioVersion ≤ 3
    · rw [if_pos hold, List.length_append, List.length_replicate, length_putBytes,
        List.replicate_add, List.append_cancel_left_eq]
      exact putBytes_eq_zero_iff (by omega)
    · rw [if_neg hold, length_putBytes]
      exact putBytes_eq_zero_iff (by omega)
  · rw [if_neg hvariant]
    exact ⟨fun _ => .inl (Bool.eq_false_iff.mpr hvariant), fun _ => rfl⟩

/-! ## Writing a message -/

/-- A file has the record of a message that `write_encoded_FFSfile` wrote. -/
def Written (bytes : List UInt8) (pos : Nat) (m : List UInt8) : Prop :=
  ∃ (f f' : FFSWriter) (rep : Nat) (format : WrittenFormat) (attrs : List UInt8),
    f.writeEncoded rep format attrs m = some f' ∧ f'.file.disk.pos = pos + 8 + m.length ∧
      span bytes pos (8 + m.length) = span f'.file.disk.bytes pos (8 + m.length)

theorem length_dataIndicator (n : Nat) : (dataIndicator n).length = 8 := by
  rw [dataIndicator, List.length_append, length_beBytes, length_beBytes]

theorem Disk.span_put {d : Disk} {bs : List UInt8} (h : bs ≠ []) :
    span (d.put bs).bytes d.pos bs.length = some bs := by
  have hfront : ((d.bytes ++ List.replicate (d.pos - d.bytes.length) 0).take d.pos).length =
      d.pos := by
    rw [List.length_take, List.length_append, List.length_replicate]
    omega
  rw [put, if_neg h]
  exact ((holds_mid _ bs _).at_eq hfront).span rfl

/-- The message stands behind its indicator. -/
theorem Written.record {bytes m : List UInt8} {pos : Nat} (h : Written bytes pos m)
    (hsmall : 8 + m.length < 2 ^ 31) :
    span bytes pos (8 + m.length) = some (dataIndicator m.length ++ m) := by
  obtain ⟨f, f', rep, format, attrs, hwrite, hpos, hbytes⟩ := h
  obtain ⟨-, hwrite⟩ := Option.ite_none_left_eq_some.mp hwrite
  obtain ⟨loaded, -, hwrite⟩ := Option.bind_eq_some_iff.mp hwrite
  obtain ⟨g, -, hdone⟩ := Option.bind_eq_some_iff.mp hwrite
  have hdisk : f'.file.disk = g.file.disk.writev [dataIndicator m.length, m] := by
    rw [← Option.some.inj hdone, updateFpos_disk]
  rw [hbytes, hdisk]
  rw [hdisk] at hpos
  have hlength : [dataIndicator m.length, m].flatten.length = 8 + m.length := by
    rw [List.flatten_cons, List.flatten_cons, List.flatten_nil, List.append_nil,
      List.length_append, length_dataIndicator]
  have hput : g.file.disk.writev [dataIndicator m.length, m] =
      g.file.disk.put [dataIndicator m.length, m].flatten := by
    rw [Disk.writev, hlength, signed_small hsmall, if_pos (by omega)]
  have hnonempty : [dataIndicator m.length, m].flatten ≠ [] := by
    intro hnil
    rw [hnil] at hlength
    cases (Nat.add_eq_zero_iff.mp hlength.symm).1
  rw [hput] at hpos ⊢
  have hplace : g.file.disk.pos = pos := by
    rw [Disk.put, if_neg hnonempty] at hpos
    dsimp only at hpos
    omega
  have hspan := Disk.span_put (d := g.file.disk) hnonempty
  rw [hlength, hplace] at hspan
  rw [hspan, List.flatten_cons, List.flatten_cons, List.flatten_nil, List.append_nil]

/-- The parts of the record. -/
theorem Written.holds {bytes m : List UInt8} {pos : Nat} (h : Written bytes pos m)
    (hsmall : 8 + m.length < 2 ^ 31) :
    Holds bytes pos (dataIndicator m.length) ∧ Holds bytes (pos + 8) m := by
  have hspan := h.record hsmall
  obtain ⟨hle, htake⟩ := take_of_span hspan
  have hholds : Holds bytes pos (dataIndicator m.length ++ m) := by
    refine ⟨bytes.take pos, (bytes.drop pos).drop (8 + m.length), ?_, ?_⟩
    · rw [← htake, List.append_assoc, List.take_append_drop, List.take_append_drop]
    · rw [List.length_take]
      omega
  rw [holds_append, length_dataIndicator] at hholds
  exact hholds

/-! ## Reading it -/

section

variable (ignoreDefaultValues : Bool)
  (strToVal : List UInt8 → FMDataType → Int32 → Option (List UInt8)) (bytes : List UInt8)
  (rawFlag : Bool)

/-- The record of a message for a reader at a place, who finds the format of the message and has a
use for the record. -/
structure MessageAt (e : Cursor) (m : List UInt8) (c : FFSContext) (i : Nat)
    (handle : FFSTypeHandle) : Prop where
  written : Written bytes e.pos m
  small : 8 + m.length < 2 ^ 31
  proper : ProperID handle.body.serverID
  handle_eq : c.handle i = some handle
  decides : ∃ c₁ target,
    FindsHandle bytes { e with pos := e.pos + 8 + handle.body.serverID.length }
      handle.body.serverID c₁ (some i) ∧
    c₁.targetFromEncode ignoreDefaultValues strToVal handle.body.serverID = some (c, target) ∧
    (target.isSome ∨ rawFlag = true)

/-- A reader that has read the head of a data record, up to its body. -/
def AtBody (e : Cursor) (m : List UInt8) (c : FFSContext) (i : Nat) (handle : FFSTypeHandle)
    (r : FFSReader) : Prop :=
  r.readAhead = true ∧
    FFSReader.Identified bytes rawFlag r
      { e with context := c, pos := e.pos + 8 + headerSize handle.body } handle.body.serverID
      m.length (some i)

/-- A reader that comes to a data record next: before the record, behind its head, or with others
in front of it that are not data records.  These go through `lseek` in places. -/
inductive RecordComesTo (e : Cursor) (m : List UInt8) (c : FFSContext) (i : Nat)
    (handle : FFSTypeHandle) (r : FFSReader) : Prop where
  | ahead (hbetween : r.Between bytes rawFlag e)
    (hknown : (e.context.typeHandleFromEncode handle.body.serverID).2.isSome)
  | atBody (hbody : AtBody bytes rawFlag e m c i handle r)
  | further {items : List FileItem} (hsmall : SmallFile bytes)
    (hothers : FFSReader.recordsFrom .ffsData items = [])
    (hheading : FFSReader.Heading ignoreDefaultValues strToVal bytes rawFlag
      (AtBody bytes rawFlag e m c i handle) e r items)

end

namespace FFSReader

variable {ignoreDefaultValues : Bool}
  {strToVal : List UInt8 → FMDataType → Int32 → Option (List UInt8)} {bytes : List UInt8}
  {rawFlag : Bool} {r : FFSReader} {e : Cursor} {m : List UInt8} {c : FFSContext} {i : Nat}
  {handle : FFSTypeHandle} {bigEndian : Bool} {data : List UInt8}

theorem headerSize_le (hm : m = encodedMessage bigEndian handle.body data)
    (hid : ProperID handle.body.serverID) :
    headerSize handle.body + data.length = m.length := by
  rw [hm, encodedMessage, List.length_append, length_encodedHeader bigEndian hid]

/-- The record is one of its format. -/
theorem decided_of_message (hm : m = encodedMessage bigEndian handle.body data)
    (h : MessageAt ignoreDefaultValues strToVal bytes rawFlag e m c i handle) :
    ∃ target, DecidedAt ignoreDefaultValues strToVal bytes e handle.body.serverID m.length c
        (some i) target ∧ (target.isSome ∨ rawFlag = true) := by
  obtain ⟨c₁, target, hfinds, hdecides, huse⟩ := h.decides
  obtain ⟨hindicator, hmessage⟩ := h.written.holds h.small
  have hsmall := h.small
  rw [dataIndicator, holds_append, length_beBytes] at hindicator
  obtain ⟨hhigh, hlow⟩ := hindicator
  have hhigh' : word bytes e.pos = some ((0x3 * 2 ^ 24 + m.length / 2 ^ 32) % 256 ^ 4) :=
    Holds.valueAt (e := true) hhigh
  have hlow' : word bytes (e.pos + 4) = some (m.length % 256 ^ 4) := Holds.valueAt (e := true) hlow
  have hid : Holds bytes (e.pos + 8) handle.body.serverID := by
    rw [hm, encodedMessage, encodedHeader] at hmessage
    rw [List.append_assoc, List.append_assoc, holds_append] at hmessage
    exact hmessage.1
  refine ⟨target, ⟨⟨⟨0, m.length, ⟨0x3 * 2 ^ 24, ?_, by decide, by decide⟩, ?_, by omega⟩,
    hid.span rfl, h.proper⟩, c₁, hfinds, hdecides⟩, huse⟩
  · rw [hhigh']
    congr 1
    omega
  · rw [hlow']
    congr 1
    omega

/-- From before the record its head is read. -/
theorem next_message (hm : m = encodedMessage bigEndian handle.body data)
    (h : MessageAt ignoreDefaultValues strToVal bytes rawFlag e m c i handle)
    (hway : SmallFile bytes ∨ (e.context.typeHandleFromEncode handle.body.serverID).2.isSome)
    (hbetween : r.Between bytes rawFlag e) (fuel : Nat) :
    ∃ r', r.next ignoreDefaultValues strToVal (fuel + 5) = .ok (.ffsData, r') ∧
      AtBody bytes rawFlag e m c i handle r' := by
  obtain ⟨target, hdecided, huse⟩ := decided_of_message hm h
  have hlength := headerSize_le hm h.proper
  have hsmall := h.small
  have hle := (h.written.holds h.small).2.le
  obtain ⟨r', hnext, hahead, hbody, -⟩ := next_data ignoreDefaultValues strToVal hway hbetween
    hdecided huse h.handle_eq (length_le_headerSize handle.body) (by omega) (by omega) (by omega)
    fuel
  exact ⟨r', hnext, hahead, hbody⟩

theorem destination_of_message (hm : m = encodedMessage bigEndian handle.body data)
    (h : MessageAt ignoreDefaultValues strToVal bytes rawFlag e m c i handle)
    (hsmall : SmallFile bytes) :
    Destination ignoreDefaultValues strToVal bytes rawFlag e
      (AtBody bytes rawFlag e m c i handle) where
  arrives hbetween fuel := by
    obtain ⟨r', hnext, hbody⟩ := next_message hm h (.inl hsmall) hbetween fuel
    exact ⟨_, r', hnext, hbody⟩
  stays hpos := by
    have hle := (h.written.holds h.small).1.le
    rw [length_dataIndicator] at hle
    omega
  keeps hbody fuel := ⟨_, _, next_of_ahead hbody.2.stands.status hbody.1 fuel, hbody⟩

theorem status_of_heading {items : List FileItem}
    (hheading : Heading ignoreDefaultValues strToVal bytes rawFlag
      (AtBody bytes rawFlag e m c i handle) e r items) : r.status = .openForRead := by
  rcases hheading with ⟨cur, hbetween, -⟩ | hsettled
  · exact hbetween.stands.status
  · cases items with
    | nil => exact hsettled.2.stands.status
    | cons item items =>
      obtain ⟨-, mid, hpeeked, -⟩ := hsettled
      exact hpeeked.status

/-- Behind the head nothing is skipped. -/
theorem skipTo_body (h : AtBody bytes rawFlag e m c i handle r) (fuel : Nat) :
    r.skipTo ignoreDefaultValues strToVal (fuel + 1) .ffsData = .ok (true, r) := by
  rw [skipTo, if_pos h.2.type]

/-- The call comes to the body of the record. -/
theorem reaches_body (hm : m = encodedMessage bigEndian handle.body data)
    (h : MessageAt ignoreDefaultValues strToVal bytes rawFlag e m c i handle)
    (hcomes : RecordComesTo ignoreDefaultValues strToVal bytes rawFlag e m c i handle r)
    {fuel : Nat}
    (hfuel : 2 * bytes.length + 10 ≤ fuel) :
    ∃ r₀ r₁, r.peek ignoreDefaultValues strToVal fuel = .ok r₀ ∧
      r₀.skipTo ignoreDefaultValues strToVal fuel .ffsData = .ok (true, r₁) ∧
      AtBody bytes rawFlag e m c i handle r₁ := by
  obtain ⟨k, rfl⟩ : ∃ k, fuel = k + 6 := ⟨fuel - 6, by omega⟩
  cases hcomes with
  | ahead hbetween hknown =>
    obtain ⟨r', hnext, hbody⟩ := next_message hm h (.inr hknown) hbetween k
    exact ⟨r', r', peek_of_next ignoreDefaultValues strToVal hbetween.ahead hnext,
      skipTo_body hbody _, hbody⟩
  | atBody hbody =>
    exact ⟨r, r, peek_of_ahead ignoreDefaultValues strToVal hbody.1 _, skipTo_body hbody _, hbody⟩
  | further hsmall hothers hheading =>
    obtain ⟨r₀, r₁, fuel', hpeek, hskip, hfuel', hreached⟩ := reach_heading hsmall .ffsData
      (fun _ => destination_of_message hm h hsmall) hheading hfuel
    rw [hothers] at hreached
    obtain ⟨j, rfl⟩ : ∃ j, fuel' = j + 1 := ⟨fuel' - 1, by omega⟩
    exact ⟨r₀, r₁, hpeek, hskip.trans (skipTo_body hreached j), hreached⟩

/-- The header that is made again, and the body behind it. -/
theorem takeRawHeader_spec (hm : m = encodedMessage bigEndian handle.body data)
    (h : MessageAt ignoreDefaultValues strToVal bytes rawFlag e m c i handle)
    (hbody : AtBody bytes rawFlag e m c i handle r) {dest : List UInt8}
    (hroom : m.length ≤ dest.length) :
    ∃ r', r.takeRawHeader dest =
        .ok (true, rawHeader handle.body ++ data ++ dest.drop m.length, r') ∧
      r'.Between bytes rawFlag { e with context := c, pos := e.pos + 8 + m.length } := by
  have hlength := headerSize_le hm h.proper
  have hsmall := h.small
  have hmessage := (h.written.holds h.small).2
  have hle := hmessage.le
  have hactual : r.actualBody = .ok handle.body :=
    actualBody_eq hbody.2.actual (by rw [hbody.2.stands.context]; exact h.handle_eq)
  have hdata : (bytes.drop (e.pos + 8 + headerSize handle.body)).take data.length = data := by
    rw [hm, encodedMessage, holds_append, length_encodedHeader bigEndian h.proper] at hmessage
    exact (take_of_span (hmessage.2.span rfl)).2
  have hread := Disk.read_whole (show data.length < 2 ^ 31 by omega)
    (show e.pos + 8 + headerSize handle.body + data.length ≤ bytes.length by omega)
  rw [hdata] at hread
  have hfunc := readFunc_eq hbody.2.stands.disk
    (show data.length ≤ dest.length - headerSize handle.body by omega) hread
  have hsize : (r.nextDataLen : Int) - headerSize handle.body = (data.length : Int) := by
    rw [hbody.2.len]
    omega
  refine ⟨{ r.withDisk ⟨bytes, e.pos + 8 + headerSize handle.body + data.length⟩ with
    readAhead := false }, ?_, ?_⟩
  · refine bind_eq_of_eq_ok hactual ?_
    dsimp only
    rw [if_neg (by omega), hsize]
    refine bind_eq_of_eq_ok hfunc ?_
    rw [if_pos rfl, hlength]
    rfl
  · rw [show e.pos + 8 + headerSize handle.body + data.length = e.pos + 8 + m.length by omega]
    exact ⟨hbody.2.stands.moved rfl rfl rfl rfl rfl rfl rfl hbody.2.stands.buffer, rfl,
      show e.pos + 8 + m.length ≤ bytes.length by omega⟩

/-- What a call leaves in the buffer of its caller. -/
theorem readRawHeader_spec (hm : m = encodedMessage bigEndian handle.body data)
    (h : MessageAt ignoreDefaultValues strToVal bytes rawFlag e m c i handle)
    (hcomes : RecordComesTo ignoreDefaultValues strToVal bytes rawFlag e m c i handle r)
    {dest : List UInt8} (hroom : m.length ≤ dest.length) {fuel : Nat}
    (hfuel : 2 * bytes.length + 10 ≤ fuel) :
    ∃ r', r.readRawHeader ignoreDefaultValues strToVal fuel dest =
        .ok (true, rawHeader handle.body ++ data ++ dest.drop m.length, some i, r') ∧
      r'.Between bytes rawFlag { e with context := c, pos := e.pos + 8 + m.length } := by
  obtain ⟨r₀, r₁, hpeek, hskip, hbody⟩ := reaches_body hm h hcomes hfuel
  obtain ⟨r', htake, hbetween⟩ := takeRawHeader_spec hm h hbody hroom
  have hstatus : r.status = .openForRead := by
    cases hcomes with
    | ahead hbetween => exact hbetween.stands.status
    | atBody hbody => exact hbody.2.stands.status
    | further _ _ hheading => exact status_of_heading hheading
  refine ⟨r', ?_, hbetween⟩
  rw [readRawHeader, if_neg (not_not_intro hstatus)]
  refine bind_eq_of_eq_ok hpeek (bind_eq_of_eq_ok hskip (bind_eq_of_eq_ok htake ?_))
  rw [← hbody.2.actual]
  rfl

/-- A message comes back as it was written when its format is not variant, and only then, unless
nothing follows the header. -/
theorem raw_header_message (hm : m = encodedMessage bigEndian handle.body data)
    (h : MessageAt ignoreDefaultValues strToVal bytes rawFlag e m c i handle)
    (hcomes : RecordComesTo ignoreDefaultValues strToVal bytes rawFlag e m c i handle r)
    {dest : List UInt8} (hroom : m.length ≤ dest.length) :
    ∃ enough, ∀ fuel, enough ≤ fuel → ∃ dest' r',
      r.readRawHeader ignoreDefaultValues strToVal fuel dest = .ok (true, dest', some i, r') ∧
      r'.Between bytes rawFlag { e with context := c, pos := e.pos + 8 + m.length } ∧
      dest'.drop m.length = dest.drop m.length ∧
      (dest'.take m.length = m ↔ handle.body.format.top.variant = false ∨ data = []) := by
  refine ⟨2 * bytes.length + 10, fun fuel hfuel => ?_⟩
  have hlength := headerSize_le hm h.proper
  have hsmall := h.small
  obtain ⟨r', hread, hbetween⟩ := readRawHeader_spec hm h hcomes hroom hfuel
  have hfront : (rawHeader handle.body ++ data).length = m.length := by
    rw [List.length_append, length_rawHeader, hlength]
  refine ⟨_, r', hread, hbetween, List.drop_left' hfront, ?_⟩
  rw [List.take_left' hfront, hm, encodedMessage, List.append_cancel_right_eq,
    rawHeader_eq_iff bigEndian h.proper (by omega), List.length_eq_zero_iff]

/-! ### One field of eight bytes -/

/-- A format of one field, a string or an integer. -/
def nameBody (variant : Bool) : StoredFormat :=
  { format :=
      { top :=
          { formatName := cstr ['n'] (.refl false), recordLength := 8, byteReversal := false,
            floatFormat := 1, pointerSize := 8, ioVersion := 4,
            fieldList := [
              { fieldName := cstr ['x'] (.refl false),
                fieldType := if variant then cstr ['s', 't', 'r', 'i', 'n', 'g'] (.refl false)
                  else cstr ['i', 'n', 't', 'e', 'g', 'e', 'r'] (.refl false),
                fieldSize := 8, fieldOffset := 0 }],
            optInfo := [], alignment := 8, columnMajorArrays := false, variant,
            recursive := false, varList := [], fieldSubformats := [none] },
        subformats := [] },
    serverFormatRep := [], serverID := [2, 0, 0, 1, 1, 2, 3, 4, 5, 6, 7, 8], formatIndex := 0 }

def nameHandle (variant : Bool) : FFSTypeHandle :=
  { body := nameBody variant, conversion := none, status := .noneAvailable,
    conversionTarget := none, isFixedTarget := false }

def nameContext (variant : Bool) : FFSContext :=
  { fmc := { formatList := [nameBody variant], nativeColumnMajorArrays := false },
    handleList := [some (nameHandle variant)] }

/-- A record that is a string of two characters and its place, or a number. -/
def nameData : List UInt8 := [8, 0, 0, 0, 0, 0, 0, 0, 104, 105, 0]

def nameMessage (variant : Bool) : List UInt8 :=
  encodedMessage false (nameBody variant) (nameData.take (if variant then 11 else 8))

def nameFile (variant : Bool) : List UInt8 :=
  beBytes 4 MAGIC_NUMBER ++ (dataIndicator (nameMessage variant).length ++ nameMessage variant)

theorem nameMessage_eq (variant : Bool) : nameMessage variant = encodedMessage false
    (nameHandle variant).body (nameData.take (if variant then 11 else 8)) := rfl

theorem messageAt_name (variant : Bool) : MessageAt false (fun _ _ _ => none)
    (nameFile variant) true ⟨nameContext variant, [], 4, .simple⟩ (nameMessage variant)
    (nameContext variant) 0 (nameHandle variant) where
  written := by
    let f (id : List UInt8) : FFSWriter := { openedWriter 16 with
      file := { openedIndexed with fileOrg := .simple }, written := [0], known := [(id, 0)] }
    cases variant
    · exact ⟨f (nameBody false).serverID, _, 1, ⟨0, (nameBody false).serverID, []⟩, [], rfl,
        by decide, by decide⟩
    · exact ⟨f (nameBody true).serverID, _, 1, ⟨0, (nameBody true).serverID, []⟩, [], rfl,
        by decide, by decide⟩
  small := by cases variant <;> decide
  proper := by cases variant <;> decide
  handle_eq := rfl
  decides := ⟨nameContext variant, none, .known (by cases variant <;> rfl),
    by cases variant <;> rfl, .inr rfl⟩

theorem recordComesTo_name (variant : Bool) : RecordComesTo false (fun _ _ _ => none)
    (nameFile variant) true ⟨nameContext variant, [], 4, .simple⟩ (nameMessage variant)
    (nameContext variant) 0 (nameHandle variant)
    (opened true (nameContext variant)
      (dataIndicator (nameMessage variant).length ++ nameMessage variant)) := by
  have hproper : ProperContext (nameContext variant) := by
    intro entry hentry
    rw [List.mem_singleton.mp hentry]
    exact (messageAt_name variant).proper
  exact .ahead (between_opened hproper true _) (by cases variant <;> rfl)

/-- A number. -/
theorem raw_header_message_number : ∃ enough, ∀ fuel, enough ≤ fuel → ∃ dest' r',
    (opened true (nameContext false)
      (dataIndicator (nameMessage false).length ++ nameMessage false)).readRawHeader false
        (fun _ _ _ => none) fuel (List.replicate 40 0) = .ok (true, dest', some 0, r') ∧
    r'.Between (nameFile false) true
      { context := nameContext false, indexes := [], pos := 4 + 8 + (nameMessage false).length,
        org := .simple } ∧
    dest'.drop (nameMessage false).length =
      (List.replicate 40 0).drop (nameMessage false).length ∧
    (dest'.take (nameMessage false).length = nameMessage false ↔
      (nameHandle false).body.format.top.variant = false ∨
        nameData.take (if false then 11 else 8) = []) :=
  raw_header_message (nameMessage_eq false) (messageAt_name false) (recordComesTo_name false)
    (show (nameMessage false).length ≤ (List.replicate 40 (0 : UInt8)).length by decide)

/-- A string comes back behind a length of zero. -/
theorem name_length_lost : ∃ enough, ∀ fuel, enough ≤ fuel → ∃ dest' r',
    (opened true (nameContext true)
      (dataIndicator (nameMessage true).length ++ nameMessage true)).readRawHeader false
        (fun _ _ _ => none) fuel (List.replicate 40 0) = .ok (true, dest', some 0, r') ∧
    ¬ dest'.take (nameMessage true).length = nameMessage true := by
  refine ⟨2 * (nameFile true).length + 10, fun fuel hfuel => ?_⟩
  obtain ⟨r', hread, -⟩ := readRawHeader_spec (nameMessage_eq true) (messageAt_name true)
    (recordComesTo_name true)
    (show (nameMessage true).length ≤ (List.replicate 40 (0 : UInt8)).length by decide)
    hfuel
  exact ⟨_, r', hread, by decide⟩

end FFSReader

end FFS
