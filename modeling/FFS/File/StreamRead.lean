import FFS.File.StreamContexts

/-!
# A pass over the records of a file

A raw reader that stands in front of a record or of a block delivers it and stands behind it, with
its context acquainted with what it has read.  A pass over all of a file delivers the records that
the calls of its writer were for.
-/

namespace FFS

open Machine FFSReader FFSContext

/-! ## Heads -/

theorem word_of_holds {bytes : List UInt8} {pos v : Nat} (h : Holds bytes pos (beBytes 4 v))
    (hv : v < 2 ^ 32) : word bytes pos = some v := by
  have hword : word bytes pos = some (v % 256 ^ 4) := Holds.valueAt (e := true) h
  rwa [Nat.mod_eq_of_lt (by omega)] at hword

theorem headAt_of_holds {bytes : List UInt8} {pos kind rest : Nat}
    (h : Holds bytes pos (beBytes 4 (rest + kind * 2 ^ 24))) (hkind : kind < 2 ^ 8)
    (hrest : rest < 2 ^ 24) : HeadAt bytes pos kind rest :=
  ⟨_, word_of_holds h (by omega), by omega, by omega⟩

section

variable (ignoreDefaultValues : Bool)
  (strToVal : List UInt8 → FMDataType → Int32 → Option (List UInt8))

/-- A reader in front of a place, behind some records. -/
def InFront (bytes : List UInt8) (formats : List WrittenFormat) (items : List StreamItem)
    (pos : Nat) (r : FFSReader) : Prop :=
  ∃ cur, r.Between bytes true cur ∧ cur.pos = pos ∧ Acquainted formats items cur.context

/-- One round of a pass. -/
def Delivers (fuel : Nat) (r : FFSReader) (item : Option StreamItem) (r' : FFSReader) : Prop :=
  ∃ type r₁, type ≠ .ffsEnd ∧ r.next ignoreDefaultValues strToVal fuel = .ok (type, r₁) ∧
    readItem ignoreDefaultValues strToVal fuel r₁ type = .ok (some item, r')

end

section

variable {ignoreDefaultValues : Bool}
  {strToVal : List UInt8 → FMDataType → Int32 → Option (List UInt8)} {bytes : List UInt8}
  {formats : List WrittenFormat} {items : List StreamItem} {pos : Nat} {r : FFSReader}

/-! ## Records -/

theorem delivers_comment (hsmall : SmallFile bytes) (h : InFront bytes formats items pos r)
    {text : List UInt8} (hholds : Holds bytes pos (StreamItem.comment text).bytes)
    (htext : text.length < 2 ^ 24) (fuel : Nat) :
    ∃ r', Delivers ignoreDefaultValues strToVal (fuel + 5) r (some (.comment text)) r' ∧
      InFront bytes formats (items ++ [.comment text])
        (pos + (StreamItem.comment text).bytes.length) r' := by
  obtain ⟨cur, hbetween, rfl, hknown⟩ := h
  rw [StreamItem.bytes, commentIndicator, holds_append, length_beBytes,
    Nat.mod_eq_of_lt htext] at hholds
  obtain ⟨r₁, hnext, hahead, hpeeked⟩ := next_record ignoreDefaultValues strToVal hsmall hbetween
    (.comment (headAt_of_holds hholds.1 (by decide) htext) (hholds.2.span rfl)) fuel
  obtain ⟨r₂, htake, hbetween'⟩ := takeComment_spec (.inl hsmall) hpeeked
  have hread := @readComment_peeked ignoreDefaultValues strToVal _
    hpeeked.status hahead hpeeked.type (fuel + 3)
  refine ⟨r₂, ⟨.ffsComment, r₁, by decide, hnext, bind_eq_of_eq_ok (hread.trans htake) rfl⟩,
    _, hbetween', ?_, hknown.behind fun _ _ h => by cases h⟩
  rw [StreamItem.bytes, commentIndicator, List.length_append, length_beBytes]
  exact Nat.add_assoc _ _ _

theorem delivers_format (hsmall : SmallFile bytes) (happart : FormatsApart formats)
    (h : InFront bytes formats items pos r) {format : WrittenFormat} (hformat : format ∈ formats)
    {f : FMFormat} (hloads : format.LoadsAs f)
    (hholds : Holds bytes pos (StreamItem.format format.serverId format.serverRep).bytes)
    (hrep : 8 + format.serverId.length + format.serverRep.length < 2 ^ 31) (fuel : Nat) :
    ∃ r', Delivers ignoreDefaultValues strToVal (fuel + 5) r
        (some (.format format.serverId format.serverRep)) r' ∧
      InFront bytes formats (items ++ [.format format.serverId format.serverRep])
        (pos + (StreamItem.format format.serverId format.serverRep).bytes.length) r' := by
  obtain ⟨cur, hbetween, rfl, hknown⟩ := h
  obtain ⟨fmc, e, c', handle, hload, hc', hhandle, hbody, hknown'⟩ :=
    hknown.loads happart hformat hloads
  have hid : format.serverId.length < 2 ^ 8 := by
    rcases hloads.proper.length with ⟨-, h⟩ | ⟨-, h⟩ | ⟨-, h⟩ <;> omega
  rw [StreamItem.bytes, formatIndicator, holds_append, holds_append, holds_append,
    List.length_append, length_beBytes, length_beBytes, Nat.mod_eq_of_lt hid] at hholds
  obtain ⟨⟨hhead, hlen⟩, hidHolds, hrepHolds⟩ := hholds
  have hhead' := readHead_format hbetween.stands (headAt_of_holds hhead (by decide) (by omega))
    (word_of_holds hlen (by omega))
  let r₁ : FFSReader := { r.withDisk ⟨bytes, cur.pos + 8⟩ with
    nextRecordType := some .ffsFormat, nextFidLen := format.serverId.length,
    nextDataLen := format.serverRep.length, readAhead := true }
  have hnext : r.next ignoreDefaultValues strToVal (fuel + 5) = .ok (.ffsFormat, r₁) :=
    next_of_head ignoreDefaultValues strToVal hbetween hhead' (by decide) (fuel + 4)
  have hstands : r₁.Stands bytes true { cur with pos := cur.pos + 8 } :=
    hbetween.stands.moved rfl rfl rfl rfl rfl rfl rfl hbetween.stands.buffer
  have hcontext : r₁.context = cur.context := hbetween.stands.context
  have hloads' : Loads cur.context format.serverId format.serverRep c' :=
    ⟨hloads.proper, fmc, e, hload, by rw [hc']⟩
  have hpeeked : r₁.Peeked bytes true (.format format.serverId format.serverRep) _ :=
    .format hstands rfl rfl rfl (hidHolds.span rfl) (hrepHolds.span rfl) hloads'
  obtain ⟨found, r₂, htake, hbetween', -, -, hfound⟩ := takeFormat_spec (.inl hsmall) hpeeked
  have hread := @readFormat_peeked ignoreDefaultValues strToVal _
    (show r₁.readAhead = true from rfl) hpeeked.type (fuel + 3)
  have hstored : found = some e.formatIndex := by
    rw [hfound fmc e (by rw [hcontext]; exact hload), hcontext, hc']
    rfl
  have hitem : (found.bind r₂.context.handle).map (fun handle =>
      some (StreamItem.format handle.body.serverID handle.body.serverFormatRep)) =
        some (some (.format format.serverId format.serverRep)) := by
    rw [hstored, Option.bind_some, hbetween'.stands.context]
    dsimp only
    rw [hhandle, Option.map_some, hbody]
    rfl
  refine ⟨r₂, ⟨.ffsFormat, r₁, by decide, hnext, bind_eq_of_eq_ok (hread.trans htake) ?_⟩,
    _, hbetween', ?_, hknown'⟩
  · dsimp only
    rw [hitem]
    rfl
  · rw [(format_bytes format.serverId format.serverRep).1.symm,
      (format_bytes format.serverId format.serverRep).2]
    dsimp only
    omega

/-- The body of a message is read behind its header. -/
theorem takeData_whole {cur : Cursor} {i : Nat} {id message : List UInt8}
    {handle : FFSTypeHandle} (h : Identified bytes true r
      { cur with pos := pos + headerSize handle.body } id message.length (some i))
    (hhandle : cur.context.handle i = some handle)
    (hheader : headerSize handle.body ≤ message.length)
    (hsmall : SmallFile bytes) (hholds : Holds bytes pos message)
    (hfront : r.tmpBuffer.take (headerSize handle.body) =
      message.take (headerSize handle.body)) :
    ∃ r', r.takeData .ok = .ok (true, r') ∧
      r'.Between bytes true { cur with pos := pos + message.length } ∧
      r'.tmpBuffer.take r'.nextDataLen = message := by
  have hbody : r.actualBody = .ok handle.body :=
    actualBody_eq h.actual (by rw [h.stands.context]; exact hhandle)
  obtain ⟨hle, htake⟩ := take_of_span (hholds.span rfl)
  have hroom := h.room
  have hend : pos + headerSize handle.body + (message.length - headerSize handle.body) =
      pos + message.length := by omega
  have hread := @readTmp_whole _ _ _ (headerSize handle.body) _
    (show message.length - headerSize handle.body < 2 ^ 31 from lt_of_le_of_lt (by omega) hsmall)
    h.stands.disk (by omega) (by dsimp only; omega)
  have hbehind : (bytes.drop (pos + headerSize handle.body)).take
      (message.length - headerSize handle.body) = message.drop (headerSize handle.body) := by
    rw [← List.drop_drop, ← List.drop_take, htake]
  dsimp only at hread
  rw [hend, hfront, hbehind, List.take_append_drop,
    show headerSize handle.body + (message.length - headerSize handle.body) = message.length by
      omega] at hread
  have hlength : (message ++ r.tmpBuffer.drop message.length).length = r.tmpBuffer.length := by
    rw [List.length_append, List.length_drop]
    omega
  refine ⟨{ r.withDisk ⟨bytes, pos + message.length⟩ with
    tmpBuffer := message ++ r.tmpBuffer.drop message.length, readAhead := false }, ?_,
    ⟨h.stands.moved rfl rfl rfl rfl rfl rfl rfl (.inr ?_), rfl, hle⟩, ?_⟩
  · refine bind_eq_of_eq_ok hbody ?_
    dsimp only
    rw [h.len, ← Int.ofNat_sub hheader]
    exact bind_eq_of_eq_ok hread rfl
  · dsimp only
    rw [hlength]
    omega
  · dsimp only [withDisk]
    rw [h.len]
    exact List.take_left

theorem delivers_data (hsmall : SmallFile bytes) (happart : FormatsApart formats)
    (h : InFront bytes formats items pos r) {format : WrittenFormat} (hformat : format ∈ formats)
    {f : FMFormat} (hloads : format.LoadsAs f) {message : List UInt8}
    (hmet : .format format.serverId format.serverRep ∈ items)
    (hmessage : format.HasMessage f message)
    (hholds : Holds bytes pos (StreamItem.data message).bytes)
    (hlength : 8 + message.length < 2 ^ 31) (fuel : Nat) :
    ∃ r', Delivers ignoreDefaultValues strToVal (fuel + 5) r (some (.data message)) r' ∧
      InFront bytes formats (items ++ [.data message])
        (pos + (StreamItem.data message).bytes.length) r' := by
  obtain ⟨cur, hbetween, rfl, hknown⟩ := h
  obtain ⟨c₁, c', i, handle, hfrom, hdecides, hhandle, hbody, hknown'⟩ :=
    @Acquainted.decides ignoreDefaultValues strToVal _ _ _ hknown happart _
      hformat _ hloads hmet
  obtain ⟨⟨rest, hrest⟩, hheader⟩ := hmessage
  have hsize : headerSize handle.body = headerSize (format.entry f 0) := by
    rw [hbody]
    rfl
  rw [← hsize] at hheader
  have hid : format.serverId.length ≤ headerSize handle.body := by
    have hle := length_le_headerSize handle.body
    rw [hbody] at hle ⊢
    exact hle
  rw [StreamItem.bytes, dataIndicator, holds_append, holds_append, List.length_append,
    length_beBytes, length_beBytes, Nat.div_eq_of_lt (show message.length < 2 ^ 32 by omega)]
    at hholds
  obtain ⟨⟨hkind, hlow⟩, hwhole⟩ := hholds
  have hle := hwhole.le
  have hidHolds : Holds bytes (cur.pos + 8) format.serverId := by
    have hsplit := hwhole
    rw [hrest, holds_append] at hsplit
    exact hsplit.1
  have hdecided : DecidedAt ignoreDefaultValues strToVal bytes cur format.serverId message.length
      c' (some i) none :=
    ⟨⟨⟨0, message.length, @headAt_of_holds _ _ _ 0 hkind (by decide) (by decide),
      word_of_holds hlow (by omega), by omega⟩, hidHolds.span rfl, hloads.proper⟩,
      c₁, .known hfrom, hdecides⟩
  obtain ⟨r₁, hnext, hahead, hidentified, -, hfront⟩ := next_data ignoreDefaultValues strToVal
    (.inl hsmall) hbetween hdecided (.inr rfl) hhandle hid hheader (by omega) (by omega) fuel
  rw [take_of_span_take (hwhole.span rfl) hheader] at hfront
  obtain ⟨r₂, htake, hbetween', hbuffer⟩ := @takeData_whole _ _ _
    { cur with context := c' } _ _ _ _ hidentified hhandle hheader hsmall hwhole hfront
  have hread := @read_peeked ignoreDefaultValues strToVal _
    hidentified.stands.status hahead hidentified.type .ok (fuel + 3)
  refine ⟨r₂, ⟨.ffsData, r₁, by decide, hnext, bind_eq_of_eq_ok (hread.trans htake) ?_⟩,
    _, hbetween', ?_, hknown'.behind fun _ _ h => by cases h⟩
  · dsimp only
    rw [if_pos rfl, hbuffer]
    rfl
  · rw [StreamItem.bytes, List.length_append, length_dataIndicator]
    exact Nat.add_assoc _ _ _

/-- A block delivers nothing. -/
theorem delivers_block (hsmall : SmallFile bytes) (h : InFront bytes formats items pos r)
    {block : List UInt8} (hholds : Holds bytes pos block) (hblock : BlockReads block)
    (fuel : Nat) :
    ∃ r', Delivers ignoreDefaultValues strToVal (fuel + 5) r none r' ∧
      InFront bytes formats items (pos + block.length) r' := by
  obtain ⟨cur, hbetween, rfl, hknown⟩ := h
  obtain ⟨parsed, hparse⟩ := hblock.parses
  have hlen : INDEX_BLOCK_SIZE = 256 := rfl
  have hsize : 4 + (block.drop 4).length = block.length := by
    rw [List.length_drop, hblock.length]
    rfl
  obtain ⟨hle, htake⟩ := take_of_span (hholds.span rfl)
  have hhead : HeadAt bytes cur.pos 0x4 (4 + (block.drop 4).length) := by
    have hword := hblock.head
    rw [word, Option.map_eq_some_iff] at hword
    obtain ⟨front, hfront, hvalue⟩ := hword
    refine ⟨0x4 * 2 ^ 24 + INDEX_BLOCK_SIZE, ?_, ?_, ?_⟩
    · rw [word, span, if_pos (by rw [hblock.length, hlen] at hle; omega),
        take_of_span_take (hholds.span rfl) (by rw [hblock.length, hlen]; decide)]
      have hsame := (take_of_span hfront).2
      rw [List.drop_zero] at hsame
      rw [hsame, Option.map_some, hvalue]
    · decide
    · rw [hsize, hblock.length]
      decide
  have hrest : span bytes (cur.pos + 4) (block.drop 4).length = some (block.drop 4) := by
    have hsplit : block.take 4 ++ block.drop 4 = block := List.take_append_drop 4 block
    rw [← hsplit, holds_append, List.length_take, hblock.length, hlen] at hholds
    exact hholds.2.span rfl
  obtain ⟨r₁, hnext, hahead, hpeeked⟩ := next_record ignoreDefaultValues strToVal hsmall hbetween
    (.index hhead hrest hparse fun _ => by rw [hsize, hblock.length]) fuel
  obtain ⟨place, hdisk, hplace⟩ := hpeeked.pos_lt hsmall
  obtain ⟨r₂, htaken, hbetween'⟩ := takeIndex_spec hsmall hpeeked
  have hread := @readIndex_peeked ignoreDefaultValues strToVal _ _ hsmall _
    hdisk hplace hahead hpeeked.type (fuel + 3)
  refine ⟨r₂, ⟨.ffsIndex, r₁, by decide, hnext, bind_eq_of_eq_ok (hread.trans htaken) rfl⟩,
    _, hbetween', ?_, hknown⟩
  dsimp only
  omega

end

/-! ## A pass -/

section

variable {ignoreDefaultValues : Bool}
  {strToVal : List UInt8 → FMDataType → Int32 → Option (List UInt8)} {bytes : List UInt8}
  {formats : List WrittenFormat} {pos : Nat} {r : FFSReader}

/-- What follows a place of the file is delivered up to its end. -/
theorem readStream_spec (hsmall : SmallFile bytes) (happart : FormatsApart formats)
    {items : List StreamItem} {segments : List FileSegment}
    (h : InFront bytes formats items pos r) (hbytes : bytes.drop pos = layout segments)
    (hpos : pos ≤ bytes.length) (hblocks : ∀ b, .block b ∈ segments → BlockReads b)
    (hreads : StreamReads formats items (segments.filterMap FileSegment.item?)) (fuel : Nat)
    {rounds : Nat} (hrounds : segments.length < rounds) :
    readStream ignoreDefaultValues strToVal (fuel + 5) rounds r =
      .ok (segments.map FileSegment.item?, true) := by
  induction segments generalizing items pos r rounds with
  | nil =>
    obtain ⟨k, rfl⟩ : ∃ k, rounds = k + 1 := ⟨rounds - 1, by omega⟩
    obtain ⟨cur, hbetween, rfl, -⟩ := h
    have hend : bytes.length ≤ cur.pos := List.drop_eq_nil_iff.mp hbytes
    obtain ⟨r', -, hnext, -⟩ := next_nothing ignoreDefaultValues strToVal hsmall hbetween
      (word_eq_none_iff.mpr (by omega)) (fuel + 4)
    rw [readStream]
    exact bind_eq_of_eq_ok hnext (if_pos rfl)
  | cons segment segments ih =>
    obtain ⟨k, rfl⟩ : ∃ k, rounds = k + 1 := ⟨rounds - 1, by omega⟩
    rw [layout, List.flatMap_cons] at hbytes
    have hholds : Holds bytes pos segment.bytes := by
      refine ⟨bytes.take pos, layout segments, ?_, ?_⟩
      · rw [List.append_assoc, layout, ← hbytes, List.take_append_drop]
      · rw [List.length_take]
        omega
    have hle := hholds.le
    have hbytes' : bytes.drop (pos + segment.bytes.length) = layout segments := by
      rw [← List.drop_drop, hbytes, List.drop_left]
      rfl
    have hblocks' : ∀ b, .block b ∈ segments → BlockReads b :=
      fun b hb => hblocks b (List.mem_cons_of_mem _ hb)
    obtain ⟨items', r', hdelivers, hfront, hreads'⟩ : ∃ items' r',
        Delivers ignoreDefaultValues strToVal (fuel + 5) r segment.item? r' ∧
        InFront bytes formats items' (pos + segment.bytes.length) r' ∧
        StreamReads formats items' (segments.filterMap FileSegment.item?) := by
      cases segment with
      | block block =>
        obtain ⟨r', hdelivers, hfront⟩ := delivers_block hsmall h hholds
          (hblocks block List.mem_cons_self) fuel
        exact ⟨items, r', hdelivers, hfront, hreads⟩
      | record item =>
        obtain ⟨hitem, hrest⟩ := hreads
        cases item with
        | comment text =>
          obtain ⟨r', hdelivers, hfront⟩ := delivers_comment hsmall h hholds hitem fuel
          exact ⟨_, r', hdelivers, hfront, hrest⟩
        | format id rep =>
          obtain ⟨hsize, format, hformat, rfl, rfl, f, hloads⟩ := hitem
          obtain ⟨r', hdelivers, hfront⟩ :=
            delivers_format hsmall happart h hformat hloads hholds hsize fuel
          exact ⟨_, r', hdelivers, hfront, hrest⟩
        | data message =>
          obtain ⟨hsize, format, hformat, hmet, f, hloads, hmessage⟩ := hitem
          obtain ⟨r', hdelivers, hfront⟩ :=
            delivers_data hsmall happart h hformat hloads hmet hmessage hholds hsize fuel
          exact ⟨_, r', hdelivers, hfront, hrest⟩
    obtain ⟨type, r₁, htype, hnext, hread⟩ := hdelivers
    rw [List.length_cons] at hrounds
    have hrest := ih hfront hbytes' hle hblocks' hreads' (show segments.length < k by omega)
    rw [readStream]
    refine bind_eq_of_eq_ok hnext ?_
    dsimp only
    rw [if_neg htype]
    refine bind_eq_of_eq_ok hread ?_
    exact bind_eq_of_eq_ok hrest rfl

end

/-! ## What was written -/

theorem data_mem_streamOf {written : List Nat} {calls : List WriterCall}
    (h : ∃ call ∈ calls, call.IsRecord) : ∃ m, .data m ∈ streamOf written calls := by
  induction calls generalizing written with
  | nil =>
    obtain ⟨call, hcall, -⟩ := h
    cases hcall
  | cons call calls ih =>
    obtain ⟨found, hfound, hrecord⟩ := h
    rcases List.mem_cons.mp hfound with rfl | hfound
    · cases found with
      | comment | register => exact hrecord.elim
      | attrs format attrList vec =>
        exact ⟨vec.flatten, List.mem_append_left _ (List.mem_append_right _
          (List.mem_singleton_self _))⟩
      | encoded rep format attrList data =>
        exact ⟨data, List.mem_append_left _ (List.mem_append_right _
          (List.mem_singleton_self _))⟩
    · obtain ⟨m, hm⟩ := @ih (call.formats written) ⟨found, hfound, hrecord⟩
      exact ⟨m, List.mem_append_right _ hm⟩

/-- A pass over a file that was written and closed delivers what was written, from a file with an
index as well, whose blocks come between the records.  Such a file has a record in it, or it cannot
be closed. -/
theorem stream_roundTrips (ignoreDefaultValues : Bool)
    (strToVal : List UInt8 → FMDataType → Int32 → Option (List UInt8)) (columnMajor : Bool)
    {org : Organization} {maxIov : Nat} {formats : List WrittenFormat} {calls : List WriterCall}
    (happart : FormatsApart formats)
    (hcalls : RunMeets WriterCall.run (fun f call => call.Streams formats f)
      (openedStream org maxIov) calls)
    (hrecord : org = .indexed → ∃ call ∈ calls, call.IsRecord)
    (hsmall : ∀ bytes, writtenStream org maxIov calls = some bytes → SmallFile bytes) :
    StreamRoundTrips ignoreDefaultValues strToVal columnMajor org maxIov calls := by
  obtain ⟨f, hrun, hstreaming, horg, hreads⟩ := streaming_run happart
    (streaming_opened org maxIov) (fun _ _ h => absurd h List.not_mem_nil) hcalls
  rw [List.nil_append] at hstreaming
  have horg' : f.file.fileOrg = org := horg
  obtain ⟨g, segments, hclose, hbytes, hclosed⟩ := hstreaming.close
    fun hindexed => data_mem_streamOf (hrecord (horg'.symm.trans hindexed))
  rw [horg'] at hclosed
  have hwritten : writtenStream org maxIov calls = some (written segments) := by
    rw [writtenStream, hrun]
    simp only [Option.bind_eq_bind, Option.bind_some, hclose, hbytes, Option.pure_def]
  have hmagic : (beBytes 4 MAGIC_NUMBER).length = 4 := length_beBytes _ _
  have hbody : (written segments).drop 4 = layout segments := List.drop_left' hmagic
  refine ⟨written segments, hwritten, List.take_left' hmagic, segments.length + 6,
    fun fuel hfuel => ⟨segments.map FileSegment.item?, ?_, ?_, fun hsimple hnone => ?_⟩⟩
  · have hfront : InFront (written segments) formats [] 4
        (openedRaw columnMajor (written segments)) := by
      have hproper : ProperContext (FFSContext.create ⟨[], columnMajor⟩) := List.forall_mem_nil _
      rw [openedRaw, hbody]
      exact ⟨_, between_opened hproper true _, rfl, acquainted_create formats columnMajor⟩
    rw [← hclosed.items_eq] at hreads
    obtain ⟨k, rfl⟩ : ∃ k, fuel = k + 5 := ⟨fuel - 5, by omega⟩
    refine readStream_spec (hsmall _ hwritten) happart hfront hbody ?_ hclosed.blocks hreads k
      (by omega)
    rw [written, List.length_append, hmagic]
    exact Nat.le_add_right _ _
  · change List.filterMap id _ = _
    rw [List.filterMap_map]
    exact hclosed.items_eq
  · rw [hclosed.simple hsimple, List.map_map] at hnone
    obtain ⟨item, -, hitem⟩ := List.mem_map.mp hnone
    cases hitem

/-- Points. -/
def pointWritten : WrittenFormat :=
  { formatIndex := 0, serverId := [2, 0, 0, 1, 1, 2, 3, 4, 5, 6, 7, 8],
    serverRep := ((registerFormats false false (pointList (cstr ['p'] (.refl false)) [])).bind
      buildServerFormatRep).getD [] }

def pointMessage : List UInt8 := pointWritten.serverId ++ List.replicate 20 0

/-- A comment and two points, in a file with an index.  The second frees the representation that the
file's context has from the first. -/
def pointStream : List WriterCall :=
  [.comment (cstr ['h', 'i'] (.refl false)), .encoded 0 pointWritten [] pointMessage,
   .encoded 0 pointWritten [] pointMessage]

theorem pointWritten_loads : ∃ f, pointWritten.LoadsAs f := by
  have hloads : (loadFormat pointWritten.serverRep).any (·.top.optInfo.isEmpty) = true := by
    decide
  obtain ⟨f, hf, hnone⟩ := (Option.any_eq_true _ _).mp hloads
  refine ⟨f, by decide, hf, fun info hinfo => ?_⟩
  rw [List.isEmpty_iff.mp hnone] at hinfo
  cases hinfo

theorem streams_point {f : FFSWriter}
    (h : WriterCall.Fits f (.encoded 0 pointWritten [] pointMessage)) :
    WriterCall.Streams [pointWritten] f (.encoded 0 pointWritten [] pointMessage) := by
  obtain ⟨hfreed, ⟨g, hg, hkeeps⟩, hfits⟩ := h
  have hfits' : RecordFits g pointWritten [] pointMessage.length := by
    rw [RecordFits, (loadExternalFormat_file hg).1]
    exact hfits
  obtain ⟨loaded, hloads⟩ := pointWritten_loads
  have hrep : pointWritten.serverRep.length < 2 ^ 20 := by decide
  have hlength : pointWritten.serverId.length = 12 := by decide
  have hmessage : pointMessage.length = 32 := by decide
  refine ⟨hfreed, g, hg, List.mem_singleton_self _, hkeeps, ⟨loaded, hloads, ⟨_, rfl⟩, ?_⟩,
    by omega, by omega, fun _ => ⟨hfits', by decide⟩⟩
  show (pointWritten.serverId.length +
    (if loaded.top.variant = true then if loaded.top.ioVersion ≤ 3 then 4 else 8 else 0) + 7) /
      8 * 8 ≤ 32
  rw [hlength]
  split
  · split <;> decide
  · decide

theorem stream_roundTrips_point :
    StreamRoundTrips false (fun _ _ _ => none) false .indexed 16 pointStream := by
  have hapart : FormatsApart [pointWritten] := by
    intro format hformat format' hformat' _
    rw [List.mem_singleton.mp hformat, List.mem_singleton.mp hformat']
  have hmeets : RunMeets WriterCall.run (fun f call => call.Fits f) (openedStream .indexed 16)
      pointStream := by
    decide +kernel
  obtain ⟨hcomment, hrest⟩ := hmeets
  refine stream_roundTrips false _ false hapart
    ⟨⟨by decide, fun _ => hcomment⟩, fun s hs => ?_⟩
    (fun _ => ⟨_, List.mem_cons_of_mem _ List.mem_cons_self, trivial⟩) ?_
  · obtain ⟨hfirst, hrest⟩ := hrest s hs
    exact ⟨streams_point hfirst, fun s' hs' => ⟨streams_point (hrest s' hs').1, fun _ _ => trivial⟩⟩
  · intro bytes hbytes
    have hlength : (writtenStream .indexed 16 pointStream).all (·.length < 2 ^ 31) = true := by
      decide +kernel
    rw [hbytes] at hlength
    exact (decide_eq_true_iff (p := bytes.length < 2 ^ 31)).mp hlength

end FFS
