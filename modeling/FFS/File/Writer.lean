import FFS.File.IndexRoundTrip
import FFS.FM.Load
import FFS.Machine.Runs

/-!
# The writer of an indexed file

`write_FFSfile_attrs`, `write_encoded_FFSfile`, `write_comment_FFSfile` and `close_FFSfile`.  A
record has its item in the index before it is in the file, and the first record of a format has
the format in front of it.  The writer is modelled with a log of what its index code does: the
bytes it stores in the block in memory, and the blocks it writes.  Of the memory around it, the
blocks count that hold the representations of formats: `write_encoded_FFSfile` frees that of the
context of the message, or shares it with the file's own.
-/

namespace FFS

open Machine

/-- A block as it was written to the file, with the numbers of the data records whose items were
stored in it. -/
structure DumpedBlock where
  filePos : Int
  bytes : List UInt8
  dataItems : List Int

/-- Where the index code stored how many bytes in the block in memory, the numbers of the data
records whose items are in it, and the blocks that were written. -/
structure IndexLog where
  stores : List (Nat × Nat)
  pending : List Int
  dumped : List DumpedBlock

/-- A format as the writer takes it from its description. -/
structure WrittenFormat where
  formatIndex : Nat
  serverId : List UInt8
  serverRep : List UInt8

/-- An `FFSFile` that is open for writing.  `written` holds the formats whose information says
that they are in the file, `known` the identifiers of the formats of the file's own context with the
blocks of memory that their representations are in, and `freed` the blocks that were freed. -/
structure FFSWriter where
  file : IndexedFile
  maxIov : Nat
  written : List Nat
  known : List (List UInt8 × Nat)
  freed : List Nat
  log : IndexLog

/-! ## The log -/

/-- `dump_index_block` stores the end mark and writes the block. -/
def logDump (f : IndexedFile) (log : IndexLog) : IndexLog :=
  match f.curIndex with
  | none => log
  | some w =>
    { stores := log.stores ++ [(w.nextItemOffset, 4)], pending := [],
      dumped := log.dumped ++ [{ filePos := w.baseFilePos, bytes := dumpedBlock f w,
                                 dataItems := log.pending }] }

def logPrepare (f : IndexedFile) (itemLen : Nat) (log : IndexLog) : IndexLog :=
  let f := if f.curIndex.isNone then initWriteIndexBlock f else f
  match f.curIndex with
  | none => log
  | some w =>
    if w.nextItemOffset + itemLen ≥ w.indexBlockSize - 8 then logDump f log else log

/-- An item of `length` bytes is stored, and of the data records `numbers` it is the item. -/
def logItem (f : IndexedFile) (length : Nat) (numbers : List Int) (log : IndexLog) : IndexLog :=
  match f.curIndex with
  | none => log
  | some w =>
    { log with stores := log.stores ++ [(w.nextItemOffset, length)],
               pending := log.pending ++ numbers }

/-! ## The calls -/

/-- `update_fpos` -/
def updateFpos (f : IndexedFile) : IndexedFile :=
  { f with fpos := Int64.ofInt (f.disk.lseek 0 .cur).1 }

@[simp] theorem updateFpos_dataCount (f : IndexedFile) :
    (updateFpos f).dataCount = f.dataCount := by rw [updateFpos]

@[simp] theorem updateFpos_disk (f : IndexedFile) : (updateFpos f).disk = f.disk := by
  rw [updateFpos]

@[simp] theorem updateFpos_fileOrg (f : IndexedFile) : (updateFpos f).fileOrg = f.fileOrg := by
  rw [updateFpos]

@[simp] theorem updateFpos_curIndex (f : IndexedFile) :
    (updateFpos f).curIndex = f.curIndex := by rw [updateFpos]

@[simp] theorem updateFpos_readIndex (f : IndexedFile) :
    (updateFpos f).readIndex = f.readIndex := by rw [updateFpos]

/-- The rounds of `writev_func` for a vector of more pieces than one call takes. -/
def writeVec (maxIov : Nat) : Nat → Disk → List (List UInt8) → Disk
  | 0, disk, vec => disk.writev vec
  | rounds + 1, disk, vec =>
    if maxIov < vec.length then
      writeVec maxIov rounds (disk.writev (vec.take maxIov)) (vec.drop maxIov)
    else disk.writev vec

def commentIndicator (byteSize : Nat) : List UInt8 := beBytes 4 (byteSize % 2 ^ 24 + 0x1 * 2 ^ 24)

def formatIndicator (idLen repLen : Nat) : List UInt8 :=
  beBytes 4 (idLen % 2 ^ 8 + 0x2 * 2 ^ 24) ++ beBytes 4 repLen

def dataIndicator (byteSize : Nat) : List UInt8 :=
  beBytes 4 (0x3 * 2 ^ 24 + byteSize / 2 ^ 32) ++ beBytes 4 byteSize

namespace FFSWriter

/-- `output_format_index` -/
def outputFormatIndex (f : FFSWriter) (serverId : List UInt8) : Option FFSWriter := do
  let file ← FFS.outputFormatIndex f.file serverId
  if f.file.fileOrg ≠ .indexed then return { f with file }
  else
    let prepared ← prepareIndexItem f.file (12 + serverId.length)
    let log := logPrepare f.file (12 + serverId.length) f.log
    return { f with file, log := logItem prepared (12 + serverId.length) [] log }

/-- `output_data_index` -/
def outputDataIndex (f : FFSWriter) (serverId attrList : List UInt8) : Option FFSWriter := do
  let file ← FFS.outputDataIndex f.file serverId attrList
  if f.file.fileOrg ≠ .indexed then return { f with file }
  else
    let itemLen := 12 + dataTotalLen serverId attrList
    let prepared ← prepareIndexItem f.file itemLen
    let log := logPrepare f.file itemLen f.log
    return { f with file, log := logItem prepared itemLen [f.file.dataCount] log }

/-- `write_comment_FFSfile`, `comment` without its zero byte. -/
def writeComment (f : FFSWriter) (comment : CString) : FFSWriter :=
  let disk := f.file.disk.writev [commentIndicator (comment.stored.length), comment.stored]
  { f with file := updateFpos { f.file with disk } }

/-- The representation of a format was not freed. -/
def hasRep (f : FFSWriter) (format : WrittenFormat) : Bool :=
  (f.known.lookup format.serverId).all (· ∉ f.freed)

/-- `write_format_to_file`.  It reads the representation. -/
def writeFormatToFile (f : FFSWriter) (format : WrittenFormat) : Option FFSWriter :=
  if f.hasRep format then do
    let f ← f.outputFormatIndex format.serverId
    let header := formatIndicator format.serverId.length format.serverRep.length
    let disk := f.file.disk.writev [header, format.serverId, format.serverRep]
    return { f with file := updateFpos { f.file with disk },
                    written := format.formatIndex :: f.written }
  else none

/-- What comes before the record itself: the format where the file does not have it yet, and the
item of the record. -/
def announceRecord (f : FFSWriter) (format : WrittenFormat) (attrs : List UInt8) :
    Option FFSWriter := do
  let attrs := if f.file.fileOrg = .indexed then attrs else []
  let f ← if format.formatIndex ∈ f.written then some f else f.writeFormatToFile format
  f.outputDataIndex format.serverId attrs

/-- `write_FFSfile_attrs`, `vec` being what `FFSencode_vector` makes of the record. -/
def writeAttrs (f : FFSWriter) (format : WrittenFormat) (attrs : List UInt8)
    (vec : List (List UInt8)) : Option FFSWriter := do
  let f ← f.announceRecord format attrs
  let disk := writeVec f.maxIov vec.length f.file.disk (dataIndicator vec.flatten.length :: vec)
  return { f with file := updateFpos { f.file with disk, dataCount := f.file.dataCount + 1 } }

/-- `load_external_format_FMcontext`.  It frees the representation that it is given where the file's
context has the format, and otherwise makes it the representation of a new one.  The caller does not
expect the null pointer of one that cannot be expanded. -/
def loadExternalFormat (f : FFSWriter) (rep : Nat) (format : WrittenFormat) : Option FFSWriter :=
  if (f.known.lookup format.serverId).isSome then some { f with freed := rep :: f.freed }
  else if (expandFormatFromRep format.serverRep).isSome then
    some { f with known := (format.serverId, rep) :: f.known }
  else none

/-- `write_encoded_FFSfile`.  The context of the message has the representation of its format in the
block `rep`, and `format` is the one that the file's context comes to have. -/
def writeEncoded (f : FFSWriter) (rep : Nat) (format : WrittenFormat) (attrs data : List UInt8) :
    Option FFSWriter :=
  if rep ∈ f.freed then none
  else do
    let f ← f.loadExternalFormat rep format
    let f ← f.announceRecord format attrs
    let disk := f.file.disk.writev [dataIndicator data.length, data]
    return { f with file := updateFpos { f.file with disk, dataCount := f.file.dataCount + 1 } }

/-- `close_FFSfile`, up to closing the descriptor. -/
def close (f : FFSWriter) : Option FFSWriter :=
  if f.file.fileOrg = .indexed then do
    let file ← dumpIndexBlock f.file
    return { f with file, log := logDump f.file f.log }
  else some f

end FFSWriter

/-- A call to a file that is open for writing, or a format registered in its context. -/
inductive WriterCall where
  | comment (text : CString)
  | register (serverId : List UInt8) (rep : Nat)
  | attrs (format : WrittenFormat) (attrList : List UInt8) (vec : List (List UInt8))
  | encoded (rep : Nat) (format : WrittenFormat) (attrList data : List UInt8)

namespace WriterCall

def run (f : FFSWriter) : WriterCall → Option FFSWriter
  | .comment text => some (f.writeComment text)
  | .register serverId rep => some { f with known := (serverId, rep) :: f.known }
  | .attrs format attrList vec => f.writeAttrs format attrList vec
  | .encoded rep format attrList data => f.writeEncoded rep format attrList data

/-- Whether the call writes a record. -/
def IsRecord : WriterCall → Prop
  | .comment _ | .register _ _ => False
  | .attrs _ _ _ | .encoded _ _ _ _ => True

end WriterCall

def runWriter (f : FFSWriter) (calls : List WriterCall) : Option FFSWriter :=
  Machine.run WriterCall.run f calls

/-- A file just opened with the flags `"wi"`. -/
def openedWriter (maxIov : Nat) : FFSWriter :=
  { file := openedIndexed, maxIov, written := [], known := [], freed := [],
    log := { stores := [], pending := [], dumped := [] } }

end FFS
