import FFS.File.BlockChain
import FFS.File.ReaderCalls

/-!
# A file as a stream of records

A pass over a file takes each record with the read function of its kind, up to the end of the file.
It reads raw, so that every data record is delivered, and finds the message in the buffer of the
file.  The records of the calls of a writer are what such a pass is to deliver.
-/

namespace FFS

open Machine FFSReader

/-- A record as a pass delivers it, a format with the identifier and the representation of its
handle. -/
inductive StreamItem where
  | comment (text : List UInt8)
  | format (id rep : List UInt8)
  | data (message : List UInt8)
deriving DecidableEq

/-! ## Writing -/

/-- `open_FFSfile` for writing, with an index or without. -/
def openedStream (org : Organization) (maxIov : Nat) : FFSWriter :=
  { openedWriter maxIov with file := { openedIndexed with fileOrg := org } }

/-- The bytes of a file that was written and closed. -/
def writtenStream (org : Organization) (maxIov : Nat) (calls : List WriterCall) :
    Option (List UInt8) := do
  let f ← runWriter (openedStream org maxIov) calls
  let f ← f.close
  return f.file.disk.bytes

/-- The first record of a format comes behind the format. -/
def announced (written : List Nat) (format : WrittenFormat) : List StreamItem :=
  if format.formatIndex ∈ written then [] else [.format format.serverId format.serverRep]

def announce (written : List Nat) (format : WrittenFormat) : List Nat :=
  if format.formatIndex ∈ written then written else format.formatIndex :: written

namespace WriterCall

/-- The records of a call, when the file has the formats `written`. -/
def items (written : List Nat) : WriterCall → List StreamItem
  | .comment text => [.comment text.stored]
  | .register _ _ => []
  | .attrs format _ vec => announced written format ++ [.data vec.flatten]
  | .encoded _ format _ data => announced written format ++ [.data data]

/-- The formats that the file has behind a call. -/
def formats (written : List Nat) : WriterCall → List Nat
  | .comment _ | .register _ _ => written
  | .attrs format _ _ | .encoded _ format _ _ => announce written format

end WriterCall

/-- The records of a sequence of calls. -/
def streamOf : List Nat → List WriterCall → List StreamItem
  | _, [] => []
  | written, call :: calls => call.items written ++ streamOf (call.formats written) calls

/-! ## Reading -/

section

variable (ignoreDefaultValues : Bool)
  (strToVal : List UInt8 → FMDataType → Int32 → Option (List UInt8))

/-- The read function of a kind of record.  It returns nothing when it fails, and an index block
delivers no item. -/
def readItem (fuel : Nat) (r : FFSReader) :
    FFSRecordType → Except ReaderStop (Option (Option StreamItem) × FFSReader)
  | .ffsComment => do
    let (text, r) ← r.readComment ignoreDefaultValues strToVal fuel
    return (text.map fun text => some (.comment text), r)
  | .ffsFormat => do
    let (format, r) ← r.readFormat ignoreDefaultValues strToVal fuel
    return ((format.bind r.context.handle).map fun handle =>
      some (.format handle.body.serverID handle.body.serverFormatRep), r)
  | .ffsData => do
    let (found, r) ← r.read ignoreDefaultValues strToVal fuel .ok
    return (if found then some (some (.data (r.tmpBuffer.take r.nextDataLen))) else none, r)
  | .ffsIndex => do
    let (index, r) ← r.readIndex ignoreDefaultValues strToVal fuel
    return (index.map fun _ => none, r)
  | _ => return (none, r)

/-- A pass over a file, which tells whether it came to the end of it. -/
def readStream (fuel : Nat) :
    Nat → FFSReader → Except ReaderStop (List (Option StreamItem) × Bool)
  | 0, _ => .error .unfinished
  | rounds + 1, r => do
    let (type, r) ← r.next ignoreDefaultValues strToVal fuel
    if type = .ffsEnd then return ([], true)
    match ← readItem ignoreDefaultValues strToVal fuel r type with
    | (none, _) => return ([], false)
    | (some item, r) =>
      let (items, whole) ← readStream fuel rounds r
      return (item :: items, whole)

/-- `open_FFSfile` for raw reading in a process that has no formats yet. -/
def openedRaw (columnMajor : Bool) (bytes : List UInt8) : FFSReader :=
  FFSReader.opened true (FFSContext.create ⟨[], columnMajor⟩) (bytes.drop 4)

/-- What is written is read: the file begins with the magic number, and a pass over it delivers the
records of the calls and comes to its end.  Only a file with an index has other records between
them. -/
def StreamRoundTrips (columnMajor : Bool) (org : Organization) (maxIov : Nat)
    (calls : List WriterCall) : Prop :=
  ∃ bytes, writtenStream org maxIov calls = some bytes ∧
    bytes.take 4 = beBytes 4 MAGIC_NUMBER ∧
    ∃ enough, ∀ fuel, enough ≤ fuel → ∃ items,
      readStream ignoreDefaultValues strToVal fuel fuel (openedRaw columnMajor bytes) =
        .ok (items, true) ∧
      items.reduceOption = streamOf [] calls ∧ (org = .simple → none ∉ items)

end

/-! ## What the framing can carry -/

/-- The blocks of prior formats begin with identifiers. -/
def PriorsNamed (f : FMFormat) : Prop :=
  ∀ info ∈ f.top.optInfo, info.infoType = compatOptInfo →
    ∃ n, idLength (versionOfFormatID info.infoBlock) = some n ∧ 8 ≤ info.infoBlock.length ∧
      n ≤ info.infoBlock.length

namespace WrittenFormat

/-- What a reader makes of a format's representation. -/
structure LoadsAs (format : WrittenFormat) (f : FMFormat) : Prop where
  proper : ProperID format.serverId
  loads : loadFormat format.serverRep = some f
  priors : PriorsNamed f

/-- The entry of a format in the list of a reader. -/
def entry (format : WrittenFormat) (f : FMFormat) (index : Nat) : StoredFormat :=
  { format := f, serverFormatRep := format.serverRep, serverID := format.serverId,
    formatIndex := index, loaded := true }

/-- A message begins with the identifier of its format and has a header. -/
structure HasMessage (format : WrittenFormat) (f : FMFormat) (message : List UInt8) : Prop where
  begins : ∃ rest, message = format.serverId ++ rest
  header : headerSize (format.entry f 0) ≤ message.length

end WrittenFormat

/-- The index or the identifier tells which of the formats it is. -/
def FormatsApart (formats : List WrittenFormat) : Prop :=
  ∀ format ∈ formats, ∀ format' ∈ formats,
    format.formatIndex = format'.formatIndex ∨ format.serverId = format'.serverId →
      format = format'

/-- A record of one of the formats, whose frames an `int` holds.  In a file with an index its item
fits, and the items in a block are words. -/
structure RecordStreams (formats : List WrittenFormat) (f : FFSWriter) (format : WrittenFormat)
    (attrs message : List UInt8) : Prop where
  known : format ∈ formats
  keeps : KeepsRep f format
  loads : ∃ loaded, format.LoadsAs loaded ∧ format.HasMessage loaded message
  rep : 8 + format.serverId.length + format.serverRep.length < 2 ^ 31
  length : 8 + message.length < 2 ^ 31
  indexed : f.file.fileOrg = .indexed → RecordFits f format attrs message.length ∧
    format.serverId.length % 4 = 0 ∧ attrs.length % 4 = 0

/-- The framing has 24 bits for the length of a comment. -/
def WriterCall.Streams (formats : List WrittenFormat) (f : FFSWriter) : WriterCall → Prop
  | .comment text => text.stored.length < 2 ^ 24 ∧
      (f.file.fileOrg = .indexed → WriterCall.Fits f (.comment text))
  | .register _ _ => True
  | .attrs format attrList vec => RecordStreams formats f format attrList vec.flatten
  | .encoded rep format attrList data => rep ∉ f.freed ∧
      ∃ g ∈ f.loadExternalFormat rep format, RecordStreams formats g format attrList data

end FFS
