import FFS.File.Reader

/-!
# Scanning the index of a file

`FFSset_fpos` and `FFSseek` go to a place that an index tells, and read the blocks up to it first.
`read_all_index_and_formats` reads all of them when a file is opened for append, and
`convert_last_index_block` goes back to the last one.  The loops follow the links of the blocks, and
each round starts from the block that was read last.  What the reads
return is not looked at.
-/

namespace FFS

open Machine

namespace FFSReader

/-- `index_tail` -/
def indexTail (r : FFSReader) : Option FFSIndexItem := r.indexes.getLast?

/-- `lseek` to a position, and whether it is not rejected. -/
def seekSet (r : FFSReader) (fpos : Int) : Bool × FFSReader :=
  let moved := r.file.disk.lseek fpos .set
  (moved.1 ≠ -1, r.withDisk moved.2)

section

variable (ignoreDefaultValues : Bool)
  (strToVal : List UInt8 → FMDataType → Int32 → Option (List UInt8))

/-! ## Setting the position -/

/-- The loop of `FFSset_fpos`, which reads blocks until the last element that they list is not in
front of the position. -/
def coverFpos : Nat → Int → FFSReader → Except ReaderStop (Bool × FFSReader)
  | 0, _, _ => .error .unfinished
  | fuel + 1, fpos, r =>
    match r.indexTail with
    | none => .error .nullIndex
    | some tail =>
      match tail.elements.getLast? with
      | none => .error .outsideElements
      | some last =>
        if last.fpos.toInt < fpos then
          let moved := r.seekSet tail.nextIndexOffset
          if moved.1 then do
            let (_, r) ← { moved.2 with readAhead := false }.readIndex
              ignoreDefaultValues strToVal fuel
            coverFpos fuel fpos r
          else .ok (false, moved.2)
        else .ok (true, r)

/-- The position is set whether or not the file is indexed. -/
def placeFpos (r : FFSReader) (fpos : Int) : Bool × FFSReader :=
  let moved := r.seekSet fpos
  if moved.1 then (true, { moved.2 with readAhead := false }) else (false, moved.2)

/-- `FFSset_fpos` -/
def setFpos (fuel : Nat) (fpos : Int) (r : FFSReader) : Except ReaderStop (Bool × FFSReader) :=
  if r.file.fileOrg = .indexed then do
    let (covered, r) ← r.coverFpos ignoreDefaultValues strToVal fuel fpos
    return if covered then r.placeFpos fpos else (false, r)
  else .ok (r.placeFpos fpos)

/-! ## Seeking -/

/-- The loop of `FFSseek`, which reads blocks until one has the record or no further one is read.
`prev` is how many had been read a round before, 0 for none. -/
def coverItem : Nat → Int → Nat → FFSReader → Except ReaderStop (Bool × FFSReader)
  | 0, _, _, _ => .error .unfinished
  | fuel + 1, dataItem, prev, r =>
    match r.indexTail with
    | none => .error .nullIndex
    | some tail =>
      if tail.lastDataCount < dataItem ∧ r.indexes.length ≠ prev then
        let moved := r.seekSet tail.nextIndexOffset
        if moved.1 then do
          let (_, r') ← { moved.2 with readAhead := false }.readIndex
            ignoreDefaultValues strToVal fuel
          coverItem fuel dataItem r.indexes.length r'
        else .ok (false, moved.2)
      else .ok (true, r)

/-- The element of the `count`th data record of a block, with the elements from one of them on
ahead.  The walk does not look at how many there are. -/
def dataElement : Int → Option FFSIndexElement → List FFSIndexElement → Option FFSIndexElement
  | count, last, elements =>
    if count ≤ 0 then last
    else
      match elements with
      | [] => none
      | elem :: elements =>
        dataElement (if elem.type = some .ffsData then count - 1 else count) (some elem) elements

/-- Where a data record of the blocks that were read is. -/
def dataItemFpos (r : FFSReader) (dataItem : Int) : Except ReaderStop Int :=
  match r.indexes.find? (dataItem ≤ ·.lastDataCount) with
  | none => .error .nullIndex
  | some index =>
    match dataElement (dataItem - index.startDataCount + 1) none index.elements with
    | none => .error .outsideElements
    | some elem => .ok elem.fpos.toInt

/-- A block is read unless one was already. -/
def firstIndex (fuel : Nat) (r : FFSReader) : Except ReaderStop FFSReader :=
  if r.indexes = [] then (r.readIndex ignoreDefaultValues strToVal fuel).map Prod.snd else .ok r

/-- `FFSseek` in a file of which a block was read.  The walk to the element has counted the record
down to 0, which is what is returned. -/
def seekIndexed (fuel : Nat) (dataItem : Int) (r : FFSReader) :
    Except ReaderStop (Int × FFSReader) := do
  let (there, r) ← r.coverItem ignoreDefaultValues strToVal fuel dataItem 0
  if !there then return (0, r)
  if r.indexTail.all (·.lastDataCount < dataItem) then return (0, r)
  let fpos ← r.dataItemFpos dataItem
  let (_, r) ← r.setFpos ignoreDefaultValues strToVal fuel fpos
  return (0, { r with dataBlockNo := 0 })

/-- `FFSseek` -/
def seek (fuel : Nat) (dataItem : Int) (r : FFSReader) : Except ReaderStop (Int × FFSReader) :=
  if dataItem < 0 then .ok (0, r)
  else do
    let r ← r.firstIndex ignoreDefaultValues strToVal fuel
    if r.indexes = [] then return (0, r)
    r.seekIndexed ignoreDefaultValues strToVal fuel dataItem

/-! ## Opening for append -/

/-- The formats that the last block lists, from one of its elements on. -/
def readFormats : Nat → Nat → FFSReader → Except ReaderStop (Bool × FFSReader)
  | 0, _, _ => .error .unfinished
  | fuel + 1, i, r =>
    match r.indexTail with
    | none => .error .nullIndex
    | some tail =>
      match tail.elements[i]? with
      | none => .ok (true, r)
      | some elem =>
        if elem.type = some .ffsFormat then
          let moved := r.seekSet elem.fpos.toInt
          if moved.1 then do
            let (_, r) ← moved.2.readFormat ignoreDefaultValues strToVal fuel
            readFormats fuel (i + 1) r
          else .ok (false, moved.2)
        else readFormats fuel (i + 1) r

/-- The loop of `read_all_index_and_formats`, which ends where the link of the last block leads to
the end of the file. -/
def scanBlocks : Nat → Int → Int → FFSReader → Except ReaderStop (Bool × FFSReader)
  | 0, _, _, _ => .error .unfinished
  | fuel + 1, fpos, fileEnd, r =>
    if fpos = fileEnd then .ok (true, r)
    else do
      let (there, r) ← r.readFormats ignoreDefaultValues strToVal fuel 0
      if !there then return (false, r)
      match r.indexTail with
      | none => .error .nullIndex
      | some tail =>
        if tail.nextIndexOffset = fileEnd then
          scanBlocks fuel tail.nextIndexOffset fileEnd r
        else
          let moved := r.seekSet tail.nextIndexOffset
          if moved.1 then do
            let (_, r) ← moved.2.readIndex ignoreDefaultValues strToVal fuel
            scanBlocks fuel tail.nextIndexOffset fileEnd r
          else return (false, moved.2)

/-- `read_all_index_and_formats` in a file of which a block was read. -/
def readBlocks (fuel : Nat) (fileEnd : Int) (r : FFSReader) : Except ReaderStop FFSReader := do
  let (ended, r) ← scanBlocks ignoreDefaultValues strToVal fuel 1 fileEnd
    { r with file := { r.file with fileOrg := .indexed } }
  if ended then
    let r := r.withDisk (r.file.disk.lseek 0 .fromEnd).2
    return { r with file := updateFpos r.file }
  else return r

/-- `read_all_index_and_formats`.  It reports nothing. -/
def readAllIndexAndFormats (fuel : Nat) (r : FFSReader) : Except ReaderStop FFSReader := do
  let currentPos := r.file.disk.lseek 0 .cur
  let fileEnd := currentPos.2.lseek 0 .fromEnd
  let r ← (r.withDisk (fileEnd.2.lseek currentPos.1 .set).2).firstIndex
    ignoreDefaultValues strToVal fuel
  if r.indexes = [] then return r
  r.readBlocks ignoreDefaultValues strToVal fuel fileEnd.1

/-- The last block is read once more, into the memory of the one that goes on being filled. -/
def refillBlock (r : FFSReader) (item : FFSIndexItem) : Except ReaderStop FFSReader :=
  if r.nextRecordType ≠ some .ffsIndex then .error .assertion
  else
    match r.file.curIndex with
    | none => .error .nullIndex
    | some w => do
      let (got, count, r) ← r.readFunc (INDEX_BLOCK_SIZE - 4) ((r.nextDataLen : Int) - 4)
      let w := { w with indexBlock := w.indexBlock.write 4 got }
      if count ≠ (r.nextDataLen : Int) - 4 then
        return { r with file := { r.file with curIndex := some w } }
      let w := { w with dataIndexStart := signed 4 (beValue (w.indexBlock.read 8 4)) }
      return { r with file := { r.file with
        disk := (r.file.disk.lseek 0 .fromEnd).2, curIndex := some w,
        dataCount := item.lastDataCount + 1 } }

/-- `convert_last_index_block`, which does not look at what the calls return. -/
def convertLastIndexBlock (fuel : Nat) (r : FFSReader) : Except ReaderStop FFSReader :=
  let r := { r with file := initWriteIndexBlock r.file }
  match r.indexTail with
  | none => .ok r
  | some item => do
    let (_, r) ← r.setFpos ignoreDefaultValues strToVal fuel item.thisIndexFpos
    let (_, r) ← r.next ignoreDefaultValues strToVal fuel
    r.refillBlock item

/-- What `open_FFSfd` does for append behind the magic number. -/
def openAppend (fuel : Nat) (r : FFSReader) : Except ReaderStop FFSReader := do
  let r ← r.readAllIndexAndFormats ignoreDefaultValues strToVal fuel
  let r ← r.convertLastIndexBlock ignoreDefaultValues strToVal fuel
  return { r with status := .openForWrite }

end

end FFSReader

end FFS
