import FFS.Convert.Handles
import FFS.File.Reader

/-!
# The records of a file

What stands at a position of a file, for a reader that has met some formats and indexes before: a
whole record, or the end.  `RecordAt` and `EndsAt` say which files a reader can go through.
-/

namespace FFS

open Machine

/-- Where a reader is between two records, of a file with some organization. -/
structure Cursor where
  context : FFSContext
  indexes : List FFSIndexItem
  pos : Nat
  org : Organization

/-- A data record: the handle of its format, as many of its bytes as the file has, and its
length. -/
structure DataRecord where
  handle : FFSTypeHandle
  bytes : List UInt8
  dataLen : Nat

/-- The number of bytes behind the header. -/
def DataRecord.size (d : DataRecord) : Nat := d.dataLen - headerSize d.handle.body

/-- A decode of a message, in the first `size` bytes of a buffer, stays within it and the
destination: what is copied, by the length that the message has of itself, and the conversion. -/
structure FFSTypeHandle.Contains (convFunc : IOConversion → List UInt8 → Nat → Bool)
    (toBuffer : Bool) (room : Nat) (ioformat : FFSTypeHandle) (size : Nat) (src : List UInt8) :
    Prop where
  base : inPlaceBaseConversionPossible ioformat.conversionType = true →
    0 ≤ ioformat.recordLength ∧
      headerSize ioformat.body + ioformat.recordLength ≤ (size : Int) ∧
      ioformat.recordLength ≤ room
  variant : inPlaceVariantConversionPossible ioformat.conversionType = true →
    0 < ioformat.variantLength src → 0 ≤ ioformat.recordLength ∧
      headerSize ioformat.body + inputRecordLen ioformat.body src ≤ (size : Int) ∧
      (toBuffer = true → expandSizeToAlign (ioformat.recordLength + ioformat.baseSizeDelta) +
        ioformat.variantLength src ≤ room)
  converted : ∀ conv, ioformat.conversion = some conv →
    conv.base.conversionType ≠ .noneRequired → convFunc conv src room = true

namespace DataRecord

/-- The record is taken for whole: an `int` does not hold the length of a longer one. -/
def Arrives (d : DataRecord) : Prop := d.bytes.length = d.dataLen ∨ 2 ^ 31 ≤ d.size

/-- If the record is decoded then within the buffer and the destination. -/
def Decodes (convFunc : IOConversion → List UInt8 → Nat → Bool) (toBuffer : Bool) (room : Nat)
    (d : DataRecord) : Prop :=
  d.Arrives → d.handle.Available → ∀ rest,
    d.handle.Contains convFunc toBuffer room (max d.dataLen TMP_BUFFER_INIT_SIZE) (d.bytes ++ rest)

end DataRecord

/-- A record as the calls deliver it. -/
inductive FileItem where
  | comment (text : List UInt8)
  | format (id rep : List UInt8)
  | data (record : DataRecord)
  | index (item : FFSIndexItem)

namespace FileItem

def type : FileItem → FFSRecordType
  | .comment _ => .ffsComment
  | .format _ _ => .ffsFormat
  | .data _ => .ffsData
  | .index _ => .ffsIndex

end FileItem

/-- The kind of a record and the rest of its first word. -/
def HeadAt (bytes : List UInt8) (pos kind rest : Nat) : Prop :=
  ∃ chunk, word bytes pos = some chunk ∧ chunk / 2 ^ 24 = kind ∧ chunk % 2 ^ 24 = rest

/-- A format record that is in the file as a whole. -/
def FormatAt (bytes : List UInt8) (pos : Nat) (id rep : List UInt8) : Prop :=
  HeadAt bytes pos 0x2 id.length ∧ word bytes (pos + 4) = some rep.length ∧
    span bytes (pos + 8) id.length = some id ∧
    span bytes (pos + 8 + id.length) rep.length = some rep

/-- The identifier has the length that its version gives it. -/
def ProperID (id : List UInt8) : Prop := idLength (versionOfFormatID id) = some id.length

instance (id : List UInt8) : Decidable (ProperID id) :=
  inferInstanceAs (Decidable (_ = _))

/-- A data record up to its identifier. -/
def DataAt (bytes : List UInt8) (pos : Nat) (id : List UInt8) (dataLen : Nat) : Prop :=
  (∃ rest low, HeadAt bytes pos 0x3 rest ∧ word bytes (pos + 4) = some low ∧
    dataLen = low + rest % 2 ^ 16 * 2 ^ 32) ∧
    span bytes (pos + 8) id.length = some id ∧ ProperID id

/-- The context behind a format record. -/
def Loads (c : FFSContext) (id rep : List UInt8) (c' : FFSContext) : Prop :=
  ProperID id ∧ ∃ fmc format, loadDerivedFormat c.fmc id rep = some (fmc, format) ∧
    c' = ({ c with fmc }.typeHandleByIndex format.formatIndex).1

/-- The elements of the indexes that were read. -/
def Cursor.elements (cur : Cursor) : List FFSIndexElement := cur.indexes.flatMap (·.elements)

/-- The handle of an identifier for a reader behind it, who goes back for the format record when
an index tells where it is. -/
inductive FindsHandle (bytes : List UInt8) (cur : Cursor) (id : List UInt8) :
    FFSContext → Option Nat → Prop where
  | known {c' : FFSContext} {h : Nat}
      (hknown : cur.context.typeHandleFromEncode id = (c', some h)) :
      FindsHandle bytes cur id c' (some h)
  | unlisted {c' : FFSContext} (hunknown : cur.context.typeHandleFromEncode id = (c', none))
      (hseek : seekFormat id ⟨bytes, cur.pos⟩ cur.elements = (false, ⟨bytes, cur.pos⟩)) :
      FindsHandle bytes cur id c' none
  | listed {c c' : FFSContext} {p : Nat} {id' rep : List UInt8}
      (hunknown : cur.context.typeHandleFromEncode id = (c, none))
      (hseek : seekFormat id ⟨bytes, cur.pos⟩ cur.elements = (true, ⟨bytes, p⟩))
      (hformat : FormatAt bytes p id' rep) (hlength : id'.length = id.length)
      (hloads : Loads c id' rep c') :
      FindsHandle bytes cur id (c'.typeHandleFromEncode id).1 (c'.typeHandleFromEncode id).2

/-- The files that `lseek` finds its way in. -/
def SmallFile (bytes : List UInt8) : Prop := bytes.length < 2 ^ 31

section

variable (ignoreDefaultValues : Bool)
  (strToVal : List UInt8 → FMDataType → Int32 → Option (List UInt8)) (bytes : List UInt8)
  (rawFlag : Bool)

/-- A data record up to its identifier, with the decision on its target. -/
structure DecidedAt (cur : Cursor) (id : List UInt8) (dataLen : Nat) (c : FFSContext)
    (handle target : Option Nat) : Prop where
  head : DataAt bytes cur.pos id dataLen
  decides : ∃ c₁, FindsHandle bytes { cur with pos := cur.pos + 8 + id.length } id c₁ handle ∧
    c₁.targetFromEncode ignoreDefaultValues strToVal id = some (c, target)

/-- A record that is in the file as a whole, and where a reader is behind it.  A data record that
is not delivered gives no item. -/
inductive RecordAt (cur : Cursor) : Option FileItem → Cursor → Prop where
  | comment {text : List UInt8} (hhead : HeadAt bytes cur.pos 0x1 text.length)
      (htext : span bytes (cur.pos + 4) text.length = some text) :
      RecordAt cur (some (.comment text)) { cur with pos := cur.pos + 4 + text.length }
  | format {id rep : List UInt8} {c : FFSContext} (hformat : FormatAt bytes cur.pos id rep)
      (hloads : Loads cur.context id rep c) :
      RecordAt cur (some (.format id rep))
        { cur with context := c, pos := cur.pos + 8 + id.length + rep.length }
  | data {id : List UInt8} {dataLen h : Nat} {c : FFSContext} {target : Option Nat}
      {handle : FFSTypeHandle}
      (hdecided : DecidedAt ignoreDefaultValues strToVal bytes cur id dataLen c (some h) target)
      (htarget : target.isSome ∨ rawFlag = true) (hhandle : c.handle h = some handle)
      (hid : id.length ≤ headerSize handle.body) (hlen : headerSize handle.body ≤ dataLen)
      (hheader : cur.pos + 8 + headerSize handle.body ≤ bytes.length) :
      RecordAt cur (some (.data ⟨handle, (bytes.drop (cur.pos + 8)).take dataLen, dataLen⟩))
        { cur with context := c, pos := min (cur.pos + 8 + dataLen) bytes.length }
  | discarded {id : List UInt8} {dataLen : Nat} {c : FFSContext} {handle : Option Nat}
      (hdecided : DecidedAt ignoreDefaultValues strToVal bytes cur id dataLen c handle none)
      (hraw : rawFlag = false) (hid : id.length ≤ dataLen)
      (hwhole : cur.pos + 8 + dataLen ≤ bytes.length) :
      RecordAt cur none { cur with context := c, pos := cur.pos + 8 + dataLen }
  | index {block : List UInt8} {parsed : FFSIndexItem}
      (hhead : HeadAt bytes cur.pos 0x4 (4 + block.length))
      (hblock : span bytes (cur.pos + 4) block.length = some block)
      (hparse : parseIndexBlock (List.replicate 4 0 ++ block) = some parsed)
      (hlast : parsed.nextIndexOffset = bytes.length → 4 + block.length ≤ INDEX_BLOCK_SIZE) :
      RecordAt cur (some (.index { parsed with thisIndexFpos := cur.pos }))
        { cur with indexes := cur.indexes ++ [{ parsed with thisIndexFpos := cur.pos }],
                   pos := cur.pos + 4 + block.length }

/-- The file goes no further than into the head of a record, or into a data record that is not
delivered. -/
inductive EndsAt (cur : Cursor) : Prop where
  | nothing (hword : word bytes cur.pos = none)
  | format {rest : Nat} (hhead : HeadAt bytes cur.pos 0x2 rest)
      (hword : word bytes (cur.pos + 4) = none)
  | data {rest : Nat} (hhead : HeadAt bytes cur.pos 0x3 rest)
      (hshort : bytes.length < cur.pos + 16)
  | identifier {rest n : Nat} (hhead : HeadAt bytes cur.pos 0x3 rest)
      (hwhole : cur.pos + 16 ≤ bytes.length)
      (hversion : idLength (versionOfFormatID (bytes.drop (cur.pos + 8))) = some n)
      (hshort : bytes.length < cur.pos + 8 + n)
  | header {id : List UInt8} {dataLen h : Nat} {c : FFSContext} {target : Option Nat}
      {handle : FFSTypeHandle}
      (hdecided : DecidedAt ignoreDefaultValues strToVal bytes cur id dataLen c (some h) target)
      (htarget : target.isSome ∨ rawFlag = true) (hhandle : c.handle h = some handle)
      (hid : id.length ≤ headerSize handle.body)
      (hroom : headerSize handle.body ≤ TMP_BUFFER_INIT_SIZE)
      (hshort : bytes.length < cur.pos + 8 + headerSize handle.body)
  | discarded {id : List UInt8} {dataLen : Nat} {c : FFSContext} {handle : Option Nat}
      (hdecided : DecidedAt ignoreDefaultValues strToVal bytes cur id dataLen c handle none)
      (hraw : rawFlag = false) (hid : id.length ≤ dataLen)
      (hshort : bytes.length < cur.pos + 8 + dataLen)

/-- The records from one place to another. -/
inductive Reads : Cursor → List FileItem → Cursor → Prop where
  | refl (cur : Cursor) : Reads cur [] cur
  | drop {cur mid cur' : Cursor} {items : List FileItem}
      (hrecord : RecordAt ignoreDefaultValues strToVal bytes rawFlag cur none mid)
      (hreads : Reads mid items cur') : Reads cur items cur'
  | item {cur mid cur' : Cursor} {item : FileItem} {items : List FileItem}
      (hrecord : RecordAt ignoreDefaultValues strToVal bytes rawFlag cur (some item) mid)
      (hreads : Reads mid items cur') : Reads cur (item :: items) cur'

end

end FFS
