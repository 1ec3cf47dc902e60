import FFS.Convert.Targets
import FFS.File.Writer

/-!
# The reader

`next_record_type` reads the head of a record, and the calls that take records
(`FFSread_comment`, `FFSread_format`, `FFSread`, `FFSread_raw`, `FFSread_to_buffer`,
`FFSread_index`) first take and drop the records in front of one of their kind.  The calls lead to
one another, so they run on fuel, and a call that returns is one that does with enough of it.  A
call that stops does so for a reason: a read of more bytes than there is room for, a length below
zero, a read outside an index block, or the end of the process.
-/

namespace FFS

open Machine

/-- `Status` -/
inductive FFSStatus where
  | openForRead
  | openForWrite
  | closed
deriving DecidableEq, Repr

/-- Why a call does not return.  `overrun` stands for a read or a copy into a buffer that has no
room for it, `noSize` for an identifier of a version that the table of lengths does not have,
`nullHandle` and `nullIndex` for a null pointer that is followed, `nullFormat` for a format that
cannot be expanded or whose values cannot be derived, `outsideElements` for an element that a block
does not have, `noDecision` for a failure in the choice of a target, `badConversion` for a conversion
routine that leaves its memory, `assertion` for one that fails, and `exited` for `exit(1)`. -/
inductive ReaderStop where
  | overrun
  | negativeLength
  | outsideBlock
  | noSize
  | nullHandle
  | nullFormat
  | nullIndex
  | outsideElements
  | noDecision
  | badConversion
  | assertion
  | exited
  | unfinished
deriving DecidableEq, Repr

/-- An `FFSFile` as the read side uses it.  `nextRecordType` is `none` before the first record,
the handles stand for their indices, and `written` holds the formats that are marked as written to
the file.  The buffer is as long as the memory that it has. -/
structure FFSReader where
  file : IndexedFile
  context : FFSContext
  status : FFSStatus
  rawFlag : Bool
  readAhead : Bool
  nextRecordType : Option FFSRecordType
  nextFidLen : Nat
  nextDataLen : Nat
  nextDataHandle : Option Nat
  nextActualHandle : Option Nat
  tmpBuffer : List UInt8
  indexes : List FFSIndexItem
  dataBlockNo : Nat
  written : List Nat

def TMP_BUFFER_INIT_SIZE : Nat := 1024

/-- `make_tmp_buffer`, which never gives memory back. -/
def makeTmpBuffer (buffer : List UInt8) (size : Nat) : List UInt8 :=
  let buffer :=
    if buffer = [] then List.replicate (max size TMP_BUFFER_INIT_SIZE) 0 else buffer
  buffer ++ List.replicate (size - buffer.length) 0

/-- `FFSheader_size` -/
def headerSize (body : StoredFormat) : Nat :=
  let info :=
    if body.format.top.variant then if body.format.top.ioVersion ≤ 3 then 4 else 8 else 0
  (body.serverID.length + info + 7) / 8 * 8

/-! ## Decoding -/

/-- `expand_size_to_align` -/
def expandSizeToAlign (size : Int) : Int := if size % 8 = 0 then size else (size + 8) / 8 * 8

/-- `in_place_base_conversion_possible` -/
def inPlaceBaseConversionPossible : ConversionType → Bool
  | .bufferAndConvert | .copyDynamicPortion => false
  | .noneRequired | .directToMem => true

/-- `in_place_variant_conversion_possible` -/
def inPlaceVariantConversionPossible : ConversionType → Bool
  | .copyDynamicPortion => false
  | .bufferAndConvert | .noneRequired | .directToMem => true

/-- The length of a record that its header has, or the format for one without varying parts. -/
def inputRecordLen (body : StoredFormat) (src : List UInt8) : Int :=
  let top := body.format.top
  let idLen := body.serverID.length
  let number (w offset : Nat) : Int :=
    signed w (getValue top.byteReversal ((src.drop offset).take w))
  if top.variant then
    if top.ioVersion ≤ 3 then number 4 (idLen + (4 - idLen % 4) % 4) else number 8 idLen
  else top.recordLength.toInt

namespace FFSTypeHandle

variable (ioformat : FFSTypeHandle)

/-- The type of the conversion, or of the null conversion that stands in for none. -/
def conversionType : ConversionType :=
  (ioformat.conversion.map (·.base.conversionType)).getD .noneRequired

def baseSizeDelta : Int := (ioformat.conversion.map (·.base.baseSizeDelta)).getD 0

def recordLength : Int := ioformat.body.format.top.recordLength.toInt

/-- `check_conversion` lets its messages be decoded. -/
def Available : Prop :=
  ioformat.conversion.isSome = true ∨ ioformat.status ≠ .noneAvailable

/-- `data_align_pad` -/
def dataAlignPad : Int := (8 - ioformat.recordLength) % 8

/-- What of a message is behind its record. -/
def variantLength (src : List UInt8) : Int :=
  inputRecordLen ioformat.body src - ioformat.recordLength - ioformat.dataAlignPad

end FFSTypeHandle

/-- `memcpy` of `length` bytes of a buffer, from `start` on, to where there is room for `room`. -/
def memcpyFrom (src : List UInt8) (start length room : Int) : Except ReaderStop Unit :=
  if 0 ≤ length ∧ 0 ≤ start ∧ start + length ≤ src.length ∧ length ≤ room then .ok ()
  else .error .overrun

section

variable (convFunc : IOConversion → List UInt8 → Nat → Bool) (ioformat : FFSTypeHandle)
  (src : List UInt8) (room : Nat) (toBuffer : Bool)

/-- The record goes to the destination when it is converted there. -/
def copyBase : Except ReaderStop Unit :=
  if inPlaceBaseConversionPossible ioformat.conversionType then
    memcpyFrom src (headerSize ioformat.body) ioformat.recordLength room
  else .ok ()

/-- What is behind the record goes behind the converted one, or to memory that grows with it. -/
def copyVariant : Except ReaderStop Unit :=
  let length := ioformat.variantLength src
  if inPlaceVariantConversionPossible ioformat.conversionType ∧ 0 < length then
    memcpyFrom src (headerSize ioformat.body + ioformat.recordLength + ioformat.dataAlignPad) length
      (if toBuffer then room - expandSizeToAlign (ioformat.recordLength + ioformat.baseSizeDelta)
        else length)
  else .ok ()

/-- `FFSconvert_record` by the routine that was generated for the conversion.  `convFunc` tells
whether it stays within a message and a destination. -/
def convertRecord : Except ReaderStop Unit :=
  match ioformat.conversion with
  | none => .ok ()
  | some conv =>
    if conv.base.conversionType ≠ .noneRequired ∧ convFunc conv src room = false then
      .error .badConversion
    else .ok ()

/-- `FFSinternal_decode` of a message in a buffer to a destination of `room` bytes, with all of it
there when `toBuffer`. -/
def internalDecode : Except ReaderStop Unit := do
  copyBase ioformat src room
  copyVariant ioformat src room toBuffer
  convertRecord convFunc ioformat src room

end

/-- The search of the index for the format record of an identifier, which moves the file there.
A position that `lseek` rejects is passed over. -/
def seekFormat (id : List UInt8) : Disk → List FFSIndexElement → Bool × Disk
  | disk, [] => (false, disk)
  | disk, elem :: elements =>
    if elem.type = some .ffsFormat ∧ elem.formatId = id then
      let found := disk.lseek elem.fpos.toInt .set
      if found.1 ≠ -1 then (true, found.2) else seekFormat id found.2 elements
    else seekFormat id disk elements

/-- What becomes of a data record when its format is known. -/
inductive Delivery where
  | ended
  | discarded
  | delivered
deriving DecidableEq, Repr

namespace FFSReader

def withDisk (r : FFSReader) (disk : Disk) : FFSReader :=
  { r with file := { r.file with disk } }

/-- `read_func` into a buffer with room for `room` bytes: what arrives and the count. -/
def readFunc (r : FFSReader) (room : Nat) (length : Int) :
    Except ReaderStop (List UInt8 × Int × FFSReader) :=
  if length < 0 then .error .negativeLength
  else if room < length.toNat then .error .overrun
  else
    let result := r.file.disk.read length.toNat
    .ok (result.1, result.2.1, r.withDisk result.2.2)

/-- A read into the temporary buffer, which tells whether all of it arrived. -/
def readTmp (r : FFSReader) (offset : Nat) (length : Int) :
    Except ReaderStop (Bool × FFSReader) := do
  let (got, count, r) ← r.readFunc (r.tmpBuffer.length - offset) length
  let tmpBuffer :=
    r.tmpBuffer.take offset ++ got ++ r.tmpBuffer.drop (offset + got.length)
  return (count = length, { r with tmpBuffer })

/-- `get_AtomicInt` and `ntohl`, `none` when there is no word left. -/
def getAtomicInt (r : FFSReader) : Except ReaderStop (Option Nat × FFSReader) := do
  let (got, count, r) ← r.readFunc 4 4
  return (if count = 4 then some (beValue got) else none, r)

/-- `errno_val` is never set, so what fails counts as the end of the file. -/
def ended (r : FFSReader) : FFSRecordType × FFSReader :=
  (.ffsEnd, { r with nextRecordType := some .ffsEnd })

/-! ## The head of a record -/

/-- The length and the identifier of a data record.  The first 8 bytes of an identifier tell how
long it is. -/
def readDataHead (r : FFSReader) (chunk : Nat) : Except ReaderStop (Bool × FFSReader) := do
  match ← r.getAtomicInt with
  | (none, r) => return (false, r)
  | (some low, r) =>
    let nextDataLen := low + chunk % 2 ^ 16 * 2 ^ 32
    let r := { r with nextDataLen, tmpBuffer := makeTmpBuffer r.tmpBuffer nextDataLen }
    let (whole, r) ← r.readTmp 0 8
    if !whole then return (false, r)
    match idLength (versionOfFormatID r.tmpBuffer) with
    | none => .error .noSize
    | some nextFidLen =>
      let r := { r with nextFidLen }
      if 8 < nextFidLen then r.readTmp 8 (nextFidLen - 8 : Nat)
      else return (true, r)

/-- The head of a record up to what depends on its format, `none` at the end of the file. -/
def readHead (r : FFSReader) : Except ReaderStop (Option FFSRecordType × FFSReader) := do
  match ← r.getAtomicInt with
  | (none, r) => return (none, r)
  | (some chunk, r) =>
    if chunk / 2 ^ 24 = 0x1 then
      return (some .ffsComment,
        { r with nextRecordType := some .ffsComment, nextDataLen := chunk % 2 ^ 24 })
    else if chunk / 2 ^ 24 = 0x2 then
      let r := { r with nextRecordType := some .ffsFormat, nextFidLen := chunk % 2 ^ 24 }
      match ← r.getAtomicInt with
      | (none, r) => return (none, r)
      | (some repLen, r) => return (some .ffsFormat, { r with nextDataLen := repLen })
    else if chunk / 2 ^ 24 = 0x3 then
      let (whole, r) ← { r with nextRecordType := some .ffsData }.readDataHead chunk
      return (if whole then some .ffsData else none, r)
    else if chunk / 2 ^ 24 = 0x4 then
      return (some .ffsIndex,
        { r with nextRecordType := some .ffsIndex, nextDataLen := chunk % 2 ^ 24 })
    else .error .exited

/-- The format of the handle, which `FFSheader_size` reads. -/
def actualBody (r : FFSReader) : Except ReaderStop StoredFormat :=
  match r.nextActualHandle.bind r.context.handle with
  | none => .error .nullHandle
  | some handle => .ok handle.body

section

variable (ignoreDefaultValues : Bool)
  (strToVal : List UInt8 → FMDataType → Int32 → Option (List UInt8))

/-- A record for whose format there is no target is dropped, unless the file is read raw.  Of
another one the header is read. -/
def findTarget (r : FFSReader) : Except ReaderStop (Delivery × FFSReader) :=
  match r.context.targetFromEncode ignoreDefaultValues strToVal r.tmpBuffer with
  | none => .error .noDecision
  | some (context, nextDataHandle) => do
    let r := { r with context, nextDataHandle }
    if nextDataHandle.isNone ∧ ¬ r.rawFlag then
      let (whole, r) ← r.readTmp r.nextFidLen (r.nextDataLen - r.nextFidLen)
      return (if whole then .discarded else .ended,
        if whole then { r with readAhead := false } else r)
    else
      let header := headerSize (← r.actualBody)
      let (whole, r) ← if r.nextFidLen < header then
          r.readTmp r.nextFidLen (header - r.nextFidLen : Nat)
        else pure (true, r)
      return (if whole then .delivered else .ended,
        if whole then { r with dataBlockNo := r.dataBlockNo + 1 } else r)

/-! ## The body of a record -/

/-- `FFSread_comment` once the next record is a comment. -/
def takeComment (r : FFSReader) : Except ReaderStop (Option (List UInt8) × FFSReader) := do
  let r := { r with tmpBuffer := makeTmpBuffer r.tmpBuffer r.nextDataLen }
  let (whole, r) ← r.readTmp 0 r.nextDataLen
  if whole then return (some (r.tmpBuffer.take r.nextDataLen), { r with readAhead := false })
  else return (none, r)

/-- `FFSread_format` once the next record is a format. -/
def takeFormat (r : FFSReader) : Except ReaderStop (Option Nat × FFSReader) := do
  let (id, count, r) ← r.readFunc r.nextFidLen r.nextFidLen
  if count ≠ r.nextFidLen then return (none, r)
  let (rep, count, r) ← r.readFunc r.nextDataLen r.nextDataLen
  if count ≠ r.nextDataLen then return (none, r)
  let r := { r with readAhead := false }
  match loadDerivedFormat r.context.fmc id rep with
  | none => .error .nullFormat
  | some (fmc, format) =>
    let (context, handle) := { r.context with fmc }.typeHandleByIndex format.formatIndex
    return (handle.map fun _ => format.formatIndex,
      { r with context, written := format.formatIndex :: r.written })

/-- `FFSread` once the next record is a data record, with what is done to it in the buffer. -/
def takeData (decode : FFSReader → Except ReaderStop FFSReader) (r : FFSReader) :
    Except ReaderStop (Bool × FFSReader) := do
  let header := headerSize (← r.actualBody)
  let (whole, r) ← r.readTmp header (r.nextDataLen - header)
  if !whole then return (false, { r with nextRecordType := some .ffsEnd })
  let r ← decode r
  return (true, { r with readAhead := false })

/-- `FFSdecode` of what is in the buffer to a destination of `room` bytes, or
`FFSdecode_to_buffer`. -/
def decodeInto (convFunc : IOConversion → List UInt8 → Nat → Bool) (toBuffer : Bool) (room : Nat)
    (r : FFSReader) : Except ReaderStop FFSReader :=
  match r.context.decode ignoreDefaultValues strToVal r.tmpBuffer with
  | none => .error .noDecision
  | some (context, none) => .ok { r with context }
  | some (context, some _) =>
    match (context.typeHandleFromEncode r.tmpBuffer).2.bind context.handle with
    | none => .error .nullHandle
    | some ioformat => do
      internalDecode convFunc ioformat r.tmpBuffer room toBuffer
      return { r with context }

/-- `FFSread_raw` once the next record is a data record. -/
def takeRaw (r : FFSReader) (bufferSize : Nat) : Except ReaderStop (Bool × FFSReader) := do
  let header := headerSize (← r.actualBody)
  let readSize : Int := r.nextDataLen - header
  let (_, count, r) ← r.readFunc bufferSize readSize
  if count = readSize then return (true, { r with readAhead := false })
  else return (false, { r with nextRecordType := some .ffsEnd })

/-- The last block of a file goes on being filled when the file is written to. -/
def resumeIndex (r : FFSReader) (item : FFSIndexItem) (block : List UInt8) (indexFpos : Int) :
    Except ReaderStop FFSReader :=
  if INDEX_BLOCK_SIZE < block.length then .error .overrun
  else
    let w : WriteIndexInfo :=
      { baseFilePos := indexFpos, dataIndexStart := 0, dataIndexEnd := 0,
        indexBlockSize := INDEX_BLOCK_SIZE, nextItemOffset := item.endItemOffset,
        indexBlock := Mem.write (fun _ => 0) 0 block }
    .ok { r with file := { r.file with
      curIndex := some w, dataCount := item.lastDataCount + 1 } }

/-- The block that was read becomes the last of the indexes. -/
def enterIndex (r : FFSReader) (block : List UInt8) (indexFpos fileEnd : Int) :
    Except ReaderStop (Option FFSIndexItem × FFSReader) :=
  match parseIndexBlock block with
  | none => .error .outsideBlock
  | some parsed => do
    let item := { parsed with thisIndexFpos := indexFpos }
    let r := { r with readAhead := false, file := { r.file with readIndex := some item } }
    let r ← if item.nextIndexOffset = fileEnd then r.resumeIndex item block indexFpos else pure r
    return (some item, { r with indexes := r.indexes ++ [item] })

/-- `FFSread_index` once the next record is an index block, in a file that ends at `fileEnd`.  The
word that was read is not put into the block. -/
def takeIndex (r : FFSReader) (fileEnd : Int) :
    Except ReaderStop (Option FFSIndexItem × FFSReader) := do
  let file := updateFpos r.file
  let readSize : Int := r.nextDataLen - 4
  let (got, count, r) ← { r with file }.readFunc (r.nextDataLen - 4) readSize
  if count ≠ readSize then return (none, r)
  else r.enterIndex (List.replicate 4 0 ++ got) (file.fpos.toInt - 4) fileEnd

/-! ## The calls -/

mutual

/-- `next_record_type` -/
def next : Nat → FFSReader → Except ReaderStop (FFSRecordType × FFSReader)
  | 0, _ => .error .unfinished
  | fuel + 1, r =>
    if r.status ≠ .openForRead then .ok (.ffsError, r)
    else if r.readAhead then .ok (r.nextRecordType.getD .ffsError, r)
    else do
      let (type, r) ← r.readHead
      match type with
      | none => return r.ended
      | some .ffsData =>
        let r ← findHandle fuel r
        let (delivery, r) ← r.findTarget ignoreDefaultValues strToVal
        match delivery with
        | .ended => return r.ended
        | .discarded => next fuel r
        | .delivered => return (.ffsData, { r with readAhead := true })
      | some type => return (type, { r with readAhead := true })

/-- The handle of a data record.  When its format was not met yet, the format record that the
index has for it is read first. -/
def findHandle : Nat → FFSReader → Except ReaderStop FFSReader
  | 0, _ => .error .unfinished
  | fuel + 1, r => do
    let (context, handle) := r.context.typeHandleFromEncode r.tmpBuffer
    let r := { r with context, nextActualHandle := handle }
    if handle.isSome then return r
    let id := r.tmpBuffer.take r.nextFidLen
    let fposBak := r.file.disk.lseek 0 .cur
    match seekFormat id fposBak.2 (r.indexes.flatMap (·.elements)) with
    | (false, disk) => return r.withDisk disk
    | (true, disk) =>
      let (_, found) ← readFormat fuel { r.withDisk disk with readAhead := false }
      let tmpBuffer := id ++ found.tmpBuffer.drop id.length
      let (context, handle) := found.context.typeHandleFromEncode tmpBuffer
      return { found.withDisk (found.file.disk.lseek fposBak.1 .set).2 with
        readAhead := true, nextRecordType := some .ffsData, tmpBuffer,
        nextDataLen := r.nextDataLen, context, nextActualHandle := handle }

/-- `FFSread_format` -/
def readFormat : Nat → FFSReader → Except ReaderStop (Option Nat × FFSReader)
  | 0, _ => .error .unfinished
  | fuel + 1, r => do
    let r ← peek fuel r
    let (found, r) ← skipToFormat fuel r
    if found then r.takeFormat else return (none, r)

/-- The loop of `FFSread_format`, which stops at an index block. -/
def skipToFormat : Nat → FFSReader → Except ReaderStop (Bool × FFSReader)
  | 0, _ => .error .unfinished
  | fuel + 1, r =>
    match r.nextRecordType with
    | some .ffsFormat => .ok (true, r)
    | some .ffsComment => do
      let (_, r) ← readComment fuel r
      let (_, r) ← next fuel r
      skipToFormat fuel r
    | some .ffsData => do
      let (_, r) ← read fuel .ok r
      let (_, r) ← next fuel r
      skipToFormat fuel r
    | _ => .ok (false, r)

/-- The record type is looked up unless it was already. -/
def peek : Nat → FFSReader → Except ReaderStop FFSReader
  | 0, _ => .error .unfinished
  | fuel + 1, r => if r.readAhead then .ok r else (next fuel r).map Prod.snd

/-- The loop that takes the records in front of one of a type. -/
def skipTo : Nat → FFSRecordType → FFSReader → Except ReaderStop (Bool × FFSReader)
  | 0, _, _ => .error .unfinished
  | fuel + 1, type, r =>
    if r.nextRecordType = some type then .ok (true, r)
    else do
      let (more, r) ← consumeNextItem fuel r
      if more then skipTo fuel type r else return (false, r)

/-- `FFSconsume_next_item` -/
def consumeNextItem : Nat → FFSReader → Except ReaderStop (Bool × FFSReader)
  | 0, _ => .error .unfinished
  | fuel + 1, r => do
    let (type, r) ← next fuel r
    match type with
    | .ffsComment =>
      let (_, r) ← readComment fuel r
      let (_, r) ← next fuel r
      return (true, r)
    | .ffsData =>
      let (_, r) ← read fuel .ok r
      let (_, r) ← next fuel r
      return (true, r)
    | .ffsFormat =>
      let (_, r) ← readFormat fuel r
      let (_, r) ← next fuel r
      return (true, r)
    | .ffsIndex =>
      let (_, r) ← readIndex fuel r
      let (_, r) ← next fuel r
      return (true, r)
    | _ => return (false, r)

/-- `FFSread_comment` -/
def readComment : Nat → FFSReader → Except ReaderStop (Option (List UInt8) × FFSReader)
  | 0, _ => .error .unfinished
  | fuel + 1, r =>
    if r.status ≠ .openForRead then .ok (none, r)
    else do
      let r ← peek fuel r
      let (found, r) ← skipTo fuel .ffsComment r
      if found then r.takeComment else return (none, r)

/-- `FFSread`, which does nothing to a record when its destination is null. -/
def read : Nat → (FFSReader → Except ReaderStop FFSReader) → FFSReader →
    Except ReaderStop (Bool × FFSReader)
  | 0, _, _ => .error .unfinished
  | fuel + 1, decode, r =>
    if r.status ≠ .openForRead then .ok (false, r)
    else do
      let r ← peek fuel r
      let (found, r) ← skipTo fuel .ffsData r
      if found then r.takeData decode else return (false, r)

/-- `FFSread_index`, which first finds out where the file ends. -/
def readIndex : Nat → FFSReader → Except ReaderStop (Option FFSIndexItem × FFSReader)
  | 0, _ => .error .unfinished
  | fuel + 1, r => do
    let currentPos := r.file.disk.lseek 0 .cur
    let fileEnd := currentPos.2.lseek 0 .fromEnd
    let r ← peek fuel (r.withDisk (fileEnd.2.lseek currentPos.1 .set).2)
    let (found, r) ← skipTo fuel .ffsIndex r
    if found then r.takeIndex fileEnd.1 else return (none, r)

end

/-- `FFSread_raw`, whose caller has a buffer of `bufferSize` bytes. -/
def readRaw (fuel : Nat) (bufferSize : Nat) (r : FFSReader) :
    Except ReaderStop (Bool × FFSReader) :=
  if r.status ≠ .openForRead then .ok (false, r)
  else do
    let r ← r.peek ignoreDefaultValues strToVal fuel
    let (found, r) ← r.skipTo ignoreDefaultValues strToVal fuel .ffsData
    if found then r.takeRaw bufferSize else return (false, r)

/-- `FFSread` with a destination of `room` bytes, `none` for a null pointer. -/
def readInto (convFunc : IOConversion → List UInt8 → Nat → Bool) (fuel : Nat) (room : Option Nat)
    (r : FFSReader) : Except ReaderStop (Bool × FFSReader) :=
  r.read ignoreDefaultValues strToVal fuel (match room with
    | none => .ok
    | some room => decodeInto ignoreDefaultValues strToVal convFunc false room)

/-- `FFSread_to_buffer`, which decodes to a buffer that has `room` bytes and is not grown. -/
def readToBuffer (convFunc : IOConversion → List UInt8 → Nat → Bool) (fuel : Nat) (room : Nat)
    (r : FFSReader) : Except ReaderStop (Bool × FFSReader) :=
  r.read ignoreDefaultValues strToVal fuel
    (decodeInto ignoreDefaultValues strToVal convFunc true room)

end

end FFSReader

end FFS
