import FFS.File.Disk
import FFS.Machine.Buffer
import FFS.Machine.Mem

/-!
# Index blocks

An indexed file carries blocks of 256 bytes that list where its formats and data
records lie.  The write side fills one block in memory (`outputFormatIndex`,
`outputDataIndex`), reserves its place in the file ahead (`initWriteIndexBlock`) and
rewrites it once it is full or the file is closed (`dumpIndexBlock`).  The read side
takes a block apart again (`parseIndexBlock`).
-/

namespace FFS

open Machine

inductive FFSRecordType where
  | ffsError
  | ffsEnd
  | ffsData
  | ffsFormat
  | ffsComment
  | ffsIndex
deriving DecidableEq, Repr

inductive Organization where
  | simple
  | indexed
deriving DecidableEq, Repr

def INDEX_BLOCK_SIZE : Nat := 256

/- `IndexItems` -/
def formatItem : Nat := 0
def dataItem : Nat := 1
def endItem : Nat := 0xff

/-- One entry of a block that was read.  `type` is `none` in an entry that
`parseIndexBlock` cleared and could not fill, and `attrs` holds the bytes handed to
`decode_attr_from_xmit`. -/
structure FFSIndexElement where
  type : Option FFSRecordType
  fpos : Int64
  formatId : List UInt8
  attrs : Option (List UInt8)
deriving DecidableEq

structure FFSIndexItem where
  nextIndexOffset : Int
  thisIndexFpos : Int
  startDataCount : Int
  lastDataCount : Int
  endItemOffset : Nat
  elements : List FFSIndexElement
deriving DecidableEq

structure WriteIndexInfo where
  baseFilePos : Int
  dataIndexStart : Int
  dataIndexEnd : Int
  indexBlockSize : Nat
  nextItemOffset : Nat
  indexBlock : Mem

/-- The fields of an `FFSFile` that the index code works on. -/
structure IndexedFile where
  disk : Disk
  fileOrg : Organization
  fpos : Int64
  dataCount : Int
  curIndex : Option WriteIndexInfo
  readIndex : Option FFSIndexItem

/-! ## Writing -/

/-- A new block in memory starts behind its 16 bytes of header.  In append mode the
block that was read last goes on being filled instead. -/
def initWriteIndexBlock (f : IndexedFile) : IndexedFile :=
  match f.readIndex with
  | some _ => { f with readIndex := none }
  | none =>
    let endOfIndex := f.disk.lseek INDEX_BLOCK_SIZE .cur
    let dataIndexStart := match f.curIndex with
      | some w => w.dataIndexEnd
      | none => 0
    let indexBlock := match f.curIndex with
      | some w => w.indexBlock
      | none => fun _ => 0
    let w : WriteIndexInfo :=
      { baseFilePos := endOfIndex.1 - INDEX_BLOCK_SIZE, dataIndexStart,
        dataIndexEnd := dataIndexStart, indexBlockSize := INDEX_BLOCK_SIZE,
        nextItemOffset := 16, indexBlock }
    { f with disk := endOfIndex.2, fpos := Int64.ofInt endOfIndex.1, curIndex := some w }

/-- `output_index_end` -/
def outputIndexEnd (f : IndexedFile) (w : WriteIndexInfo) : WriteIndexInfo :=
  if f.fileOrg = .indexed then
    { w with indexBlock := w.indexBlock.write w.nextItemOffset (beBytes 4 endItem) }
  else w

/-- The four words at the start of a block: its kind and size, the position of the
next block, and the first and last data record it covers. -/
def indexHeader (size : Nat) (next start last : Int) : List UInt8 :=
  beBytes 4 (0x4 * 2 ^ 24 + size) ++ beBytes 4 (unsigned 4 next) ++ beBytes 4 (unsigned 4 start)
    ++ beBytes 4 (unsigned 4 last)

/-- The block as `dump_index_block` completes it, `next` being where the file goes on. -/
def sealIndexBlock (f : IndexedFile) (next : Int) (w : WriteIndexInfo) : WriteIndexInfo :=
  let w := { outputIndexEnd f w with dataIndexEnd := f.dataCount - 1 }
  let header := indexHeader w.indexBlockSize next w.dataIndexStart w.dataIndexEnd
  { w with indexBlock := w.indexBlock.write 0 header }

/-- The bytes `dump_index_block` writes. -/
def dumpedBlock (f : IndexedFile) (w : WriteIndexInfo) : List UInt8 :=
  (sealIndexBlock f (f.disk.lseek 0 .cur).1 w).indexBlock.read 0 w.indexBlockSize

/-- `none` where the C code follows a null `cur_index`. -/
def dumpIndexBlock (f : IndexedFile) : Option IndexedFile :=
  match f.curIndex with
  | none => none
  | some w =>
    let fileEnd := f.disk.lseek 0 .cur
    let written := (fileEnd.2.lseek w.baseFilePos .set).2.write (dumpedBlock f w)
    let disk := (written.lseek fileEnd.1 .set).2
    some (initWriteIndexBlock { f with disk, curIndex := some (sealIndexBlock f fileEnd.1 w) })

def prepareIndexItem (f : IndexedFile) (itemLen : Nat) : Option IndexedFile := do
  let f := if f.curIndex.isNone then initWriteIndexBlock f else f
  let w ← f.curIndex
  if w.nextItemOffset + itemLen ≥ w.indexBlockSize - 8 then
    let f ← dumpIndexBlock f
    let w ← f.curIndex
    return { f with curIndex := some { w with dataIndexStart := f.dataCount } }
  else return f

/-- The two words of a file position. -/
def fposHigh (fpos : Int64) : Nat := fpos.toUInt64.toNat / 2 ^ 32

def fposLow (fpos : Int64) : Nat := fpos.toUInt64.toNat % 2 ^ 32

def formatItemBytes (fpos : Int64) (serverId : List UInt8) : List UInt8 :=
  beBytes 4 (formatItem + serverId.length * 2 ^ 8) ++ beBytes 4 (fposHigh fpos)
    ++ beBytes 4 (fposLow fpos) ++ serverId

def dataTotalLen (serverId attrList : List UInt8) : Nat := attrList.length + serverId.length + 4

/-- The payload is organised as `|id_len|server_id|attribute_list|`. -/
def dataItemBytes (fpos : Int64) (serverId attrList : List UInt8) : List UInt8 :=
  beBytes 4 (dataItem + dataTotalLen serverId attrList * 2 ^ 8) ++ beBytes 4 (fposHigh fpos)
    ++ beBytes 4 (fposLow fpos) ++ beBytes 4 serverId.length ++ serverId ++ attrList

/-- Store an item at the block's cursor and move the cursor on. -/
def WriteIndexInfo.place (w : WriteIndexInfo) (bytes : List UInt8) (advance : Nat) :
    WriteIndexInfo :=
  { w with indexBlock := w.indexBlock.write w.nextItemOffset bytes,
           nextItemOffset := w.nextItemOffset + advance }

def placeItem (f : IndexedFile) (bytes : List UInt8) (advance : Nat) : Option IndexedFile := do
  let w ← f.curIndex
  return { f with curIndex := some (w.place bytes advance) }

def outputFormatIndex (f : IndexedFile) (serverId : List UInt8) : Option IndexedFile :=
  if f.fileOrg ≠ .indexed then some f
  else do
    let f ← prepareIndexItem f (12 + serverId.length)
    -- the cursor of the block moves by the unrounded length
    placeItem f (formatItemBytes f.fpos serverId) (12 + serverId.length)

/-- A null attribute list and one of no bytes are the same to the index. -/
def outputDataIndex (f : IndexedFile) (serverId attrList : List UInt8) : Option IndexedFile :=
  if f.fileOrg ≠ .indexed then some f
  else do
    let totalLen := dataTotalLen serverId attrList
    let f ← prepareIndexItem f (12 + totalLen)
    placeItem f (dataItemBytes f.fpos serverId attrList) (12 + (totalLen + 3) / 4 * 4)

/-! ## Reading -/

/-- The word at `offset`, in network order. -/
def word (buffer : List UInt8) (offset : Nat) : Option Nat :=
  (span buffer offset 4).map beValue

def fposOfWords (high low : Nat) : Int64 :=
  (UInt64.ofNat (high * 2 ^ 32 + low)).toInt64

/-- The `Format_Item` case of `parse_index_block`: the entry and the offset of the next
one.  `none` when a read leaves the block. -/
def parseFormatItem (block : List UInt8) (curOffset head : Nat) :
    Option (FFSIndexElement × Nat) := do
  let idLen := head / 2 ^ 8
  let high ← word block (curOffset + 4)
  let low ← word block (curOffset + 8)
  let formatId ← span block (curOffset + 12) idLen
  return ({ type := some .ffsFormat, fpos := fposOfWords high low, formatId, attrs := none },
    curOffset + (idLen + 12 + 3) / 4 * 4)

/-- An attribute block of at most one byte counts as none. -/
def attrsAt (block : List UInt8) (offset : Nat) (attrLen : Int) : Option (Option (List UInt8)) :=
  if attrLen ≤ 1 then some none else (span block offset attrLen.toNat).map some

/-- The `Data_Item` case. -/
def parseDataItem (block : List UInt8) (curOffset head : Nat) :
    Option (FFSIndexElement × Nat) := do
  let totalLen : Int := (head / 2 ^ 8 : Nat)
  let high ← word block (curOffset + 4)
  let low ← word block (curOffset + 8)
  let idLen := signed 4 (← word block (curOffset + 12))
  if idLen < 0 then none
  else
    let attrLen := totalLen - idLen - 4
    let attrs ← attrsAt block (curOffset + 16 + idLen.toNat) attrLen
    -- the identifier is copied from the word that holds its length
    let formatId ← span block (curOffset + 12) idLen.toNat
    return ({ type := some .ffsData, fpos := fposOfWords high low, formatId, attrs },
      curOffset + ((idLen + attrLen + 12 + 4) / 4 * 4).toNat)

/-- One round of the loop, with `some none` at the end item.  A word of no known kind
takes a cleared entry, and the search goes on at the next byte. -/
def parseElement (block : List UInt8) (curOffset : Nat) :
    Option (Option (FFSIndexElement × Nat)) := do
  let head ← word block curOffset
  if head % 256 = formatItem then (parseFormatItem block curOffset head).map some
  else if head % 256 = dataItem then (parseDataItem block curOffset head).map some
  else if head % 256 = endItem then some none
  else some (some ({ type := none, fpos := 0, formatId := [], attrs := none }, curOffset + 1))

/-- The loop.  Every round moves on by at least one byte, so the length of the block
bounds the number of rounds. -/
def parseElements (block : List UInt8) : Nat → Nat → Option (List FFSIndexElement × Nat)
  | 0, _ => none
  | rounds + 1, curOffset =>
    match parseElement block curOffset with
    | none => none
    | some none => some ([], curOffset)
    | some (some (e, next)) => do
      let (es, endOffset) ← parseElements block rounds next
      return (e :: es, endOffset)

def parseIndexBlock (block : List UInt8) : Option FFSIndexItem := do
  let next ← word block 4
  let start ← word block 8
  let last ← word block 12
  let (elements, endItemOffset) ← parseElements block (block.length + 1) 16
  return { nextIndexOffset := next, thisIndexFpos := 0, startDataCount := signed 4 start,
           lastDataCount := signed 4 last, endItemOffset, elements }

end FFS
