import FFS.FM.Format
import FFS.Machine.Buffer

/-!
# Server representations

`buildServerFormatRep` lays a format out as the bytes that format servers, files and other
contexts receive: a header and one part for each format, with its fields, strings and
optional information.  `expandFormatFromRep` takes such bytes apart again, in any of the
versions the library has used.
-/

namespace FFS

open Machine

/- The sizes of the structures of version 1. -/
def formatWireSize : Nat := 8
def subformatWireSize : Nat := 28
def fieldWireSize : Nat := 16
def optInfoWireSize : Nat := 12

def roundUp4 (n : Nat) : Nat := (n + 3) / 4 * 4

/-- The zeros up to the next multiple of 4. -/
def padding4 (n : Nat) : List UInt8 := List.replicate (roundUp4 n - n) 0

/-- An integer as the host stores it. -/
def hostBytes (w v : Nat) : List UInt8 := putBytes false w v

def hostInt (x : Int32) : List UInt8 := hostBytes 4 x.toUInt32.toNat

/-! ## Building -/

def fieldStrings (f : FMField) : List UInt8 := f.fieldName.stored ++ f.fieldType.stored

def stringsOfFields (fields : List FMField) : List UInt8 := fields.flatMap fieldStrings

/-- The table of the fields, their strings beginning at `offset`. -/
def fieldTable : Nat → List FMField → List UInt8
  | _, [] => []
  | offset, f :: fs =>
    hostBytes 4 offset ++ hostBytes 4 (offset + f.fieldName.stored.length)
      ++ hostInt f.fieldSize ++ hostInt f.fieldOffset
      ++ fieldTable (offset + (fieldStrings f).length) fs

/-- The table of the optional information, the blocks beginning at `offset`, with the entry
of type 0 that ends it. -/
def optInfoTable : Nat → List FMOptInfo → List UInt8
  | _, [] => List.replicate optInfoWireSize 0
  | offset, o :: os =>
    hostInt o.infoType ++ hostBytes 4 o.infoBlock.length ++ hostBytes 4 offset
      ++ optInfoTable (offset + roundUp4 o.infoBlock.length) os

def optInfoBlocks (infos : List FMOptInfo) : List UInt8 :=
  infos.flatMap fun o => o.infoBlock ++ padding4 o.infoBlock.length

/-- The size that `add_server_subformat_rep` reckons before it writes. -/
def subformatRepSize (f : FMFormatBody) : Nat :=
  let strings := (f.fieldList.map fun field =>
    field.fieldName.length + 1 + (field.fieldType.length + 1)).sum
  let fixed := fieldWireSize * f.fieldList.length + (f.formatName.length + 1) + strings
    + subformatWireSize
  f.optInfo.foldl (fun size o => roundUp4 (size + o.infoBlock.length)) (roundUp4 fixed)
    + (f.optInfo.length + 1) * optInfoWireSize

def nameOffset (f : FMFormatBody) : Nat := subformatWireSize + fieldWireSize * f.fieldList.length

def stringsOffset (f : FMFormatBody) : Nat := nameOffset f + f.formatName.stored.length

def stringsEnd (f : FMFormatBody) : Nat :=
  stringsOffset f + (stringsOfFields f.fieldList).length

def optInfoOffset (f : FMFormatBody) : Nat := roundUp4 (stringsEnd f)

/-- `struct _subformat_wire_format_1` -/
def subformatHeader (f : FMFormatBody) : List UInt8 :=
  beBytes 2 (subformatRepSize f) ++ [2] ++ [if f.byteReversal then 1 else 0]
    ++ hostBytes 4 (nameOffset f) ++ hostBytes 4 f.fieldList.length ++ hostInt f.recordLength
    ++ [UInt8.ofNat f.pointerSize] ++ [UInt8.ofNat subformatWireSize]
    ++ hostBytes 2 f.floatFormat ++ hostBytes 2 (optInfoOffset f)
    ++ [if f.columnMajorArrays then 1 else 0] ++ [UInt8.ofNat f.alignment]
    ++ beBytes 2 (subformatRepSize f / 2 ^ 16) ++ hostBytes 2 (optInfoOffset f / 2 ^ 16)

/-- `add_server_subformat_rep` for a format of this host. -/
def subformatRep (f : FMFormatBody) : List UInt8 :=
  subformatHeader f ++ fieldTable (stringsOffset f) f.fieldList ++ f.formatName.stored
    ++ stringsOfFields f.fieldList ++ padding4 (stringsEnd f)
    ++ optInfoTable (optInfoOffset f + (f.optInfo.length + 1) * optInfoWireSize) f.optInfo
    ++ optInfoBlocks f.optInfo

def formatRepSize (f : FMFormat) : Nat := formatWireSize + (f.bodies.map subformatRepSize).sum

/-- `struct _format_wire_format_1` -/
def formatHeader (f : FMFormat) : List UInt8 :=
  beBytes 2 (formatRepSize f) ++ [if f.top.byteReversal then 1 else 0] ++ [2]
    ++ [UInt8.ofNat f.subformats.length] ++ [0] ++ beBytes 2 (formatRepSize f / 2 ^ 16)

/-- `build_server_format_rep` -/
def buildServerFormatRep (f : FMFormat) : Option (List UInt8) :=
  if 100 ≤ f.subformats.length then none
  else some (formatHeader f ++ f.bodies.flatMap subformatRep)

/-! ## Recorded lengths -/

/-- A length whose low and high halves are recorded at two places, in network order.
Version 0 has no high half. -/
def lengthAt (buffer : List UInt8) (low version high : Nat) : Option Nat := do
  let lowBytes ← valueAt true buffer low 2
  let v ← byteAt buffer version
  if 0 < v then return lowBytes + (← valueAt true buffer high 2) * 2 ^ 16 else return lowBytes

/-- The length a representation records for itself. -/
def recordedRepLength (rep : List UInt8) : Option Nat := lengthAt rep 0 3 6

/-- The length a format's part records for itself. -/
def recordedSubrepLength (subrep : List UInt8) : Option Nat := lengthAt subrep 0 2 24

/-- The lengths recorded by `count` parts, each found behind the one before. -/
def recordedSubrepLengths : Nat → List UInt8 → Option (List Nat)
  | 0, _ => some []
  | count + 1, subrep => do
    let size ← recordedSubrepLength subrep
    return size :: (← recordedSubrepLengths count (subrep.drop size))

/-! ## Expanding -/

/-- Where a version of the wire format keeps what. -/
structure WireLayout where
  offsetWidth : Nat
  nameOffset : Nat
  fieldCount : Nat
  countWidth : Nat
  recordLength : Nat
  pointerSize : Nat
  floatingPointRep : Nat
  optInfoOffset : Nat
  topBytesOptInfoOffset : Option Nat
  columnMajorArrays : Nat
  alignment : Nat

/-- `struct _subformat_wire_format_0` -/
def wireLayout0 : WireLayout :=
  { offsetWidth := 2, nameOffset := 6, fieldCount := 8, countWidth := 2, recordLength := 12,
    pointerSize := 4, floatingPointRep := 10, optInfoOffset := 16, topBytesOptInfoOffset := none,
    columnMajorArrays := 18, alignment := 19 }

/-- `struct _subformat_wire_format_1` -/
def wireLayout1 : WireLayout :=
  { offsetWidth := 4, nameOffset := 4, fieldCount := 8, countWidth := 4, recordLength := 12,
    pointerSize := 16, floatingPointRep := 18, optInfoOffset := 20,
    topBytesOptInfoOffset := some 26, columnMajorArrays := 22, alignment := 23 }

def int32OfPattern (v : Nat) : Int32 := (UInt32.ofNat v).toInt32

/-- A non-negative number that is read as an `int` when it has four bytes.  A negative one
leads out of the representation. -/
def offsetAt (reversed : Bool) (subrep : List UInt8) (offset w : Nat) : Option Nat := do
  let v ← valueAt reversed subrep offset w
  if 2 ^ 31 ≤ v then none else return v

/-- The loop over the field table, of which `offset` is the next entry. -/
def expandFields (reversed : Bool) (w : Nat) (subrep : List UInt8) :
    Nat → Nat → Option (List FMField)
  | _, 0 => some []
  | offset, count + 1 => do
    let fieldName ← stringAt subrep (← offsetAt reversed subrep offset w)
    let fieldType ← stringAt subrep (← offsetAt reversed subrep (offset + w) w)
    let fieldSize ← valueAt reversed subrep (offset + 2 * w) 4
    let fieldOffset ← valueAt reversed subrep (offset + 2 * w + 4) 4
    let rest ← expandFields reversed w subrep (offset + 2 * w + 8) count
    return { fieldName, fieldType, fieldSize := int32OfPattern fieldSize,
             fieldOffset := int32OfPattern fieldOffset } :: rest

/-- The loop over the table of optional information.  Version 0 also ends it at `limit`. -/
def expandOptInfos (reversed : Bool) (limit : Option Int) (subrep : List UInt8) :
    Nat → Nat → Option (List FMOptInfo)
  | 0, _ => none
  | rounds + 1, offset => do
    let type := int32OfPattern (← valueAt reversed subrep offset 4)
    let infoLen ← valueAt reversed subrep (offset + 4) 4
    let infoOffset ← valueAt reversed subrep (offset + 8) 4
    if typeNe : type = 0 then return []
    else if 2 ^ 31 ≤ infoOffset then none
    else
      let infoBlock ← span subrep infoOffset infoLen
      let rest ←
        if limit.any (fun l : Int => l ≤ (offset + optInfoWireSize : Nat)) then some []
        else expandOptInfos reversed limit subrep rounds (offset + optInfoWireSize)
      if lenLt : infoBlock.length < 2 ^ 31 then
        return { infoType := type, infoBlock, typeNe, lenLt } :: rest
      else none

/-- The place of the table of optional information, 0 when there is none. -/
def wireInfoOffset (layout : WireLayout) (reversed : Bool) (subrep : List UInt8) : Option Nat :=
  match layout.topBytesOptInfoOffset with
  | none => valueAt reversed subrep layout.optInfoOffset 2
  | some high => do
    let low ← valueAt reversed subrep layout.optInfoOffset 2
    return low + (← valueAt reversed subrep high 2) * 2 ^ 16

def expandOptInfo (reversed : Bool) (limit : Option Int) (subrep : List UInt8) (infoOffset : Nat) :
    Option (List FMOptInfo) :=
  if infoOffset = 0 then some []
  else if 2 ^ 31 ≤ infoOffset then none
  else expandOptInfos reversed limit subrep (subrep.length + 1) infoOffset

/-- Old data must be pure-endian IEEE 754. -/
def wireFloatFormat (recordByteOrder floatRep : Nat) : Nat :=
  if floatRep ≠ formatUnknown then floatRep
  else if recordByteOrder = 1 then formatIEEE754Bigendian
  else formatIEEE754Littleendian

/-- `expand_subformat_from_rep_0` and `expand_subformat_from_rep_1`, which differ in the
layout. -/
def expandSubformat (layout : WireLayout) (ioVersion tableOffset : Nat) (limit : Bool → Option Int)
    (subrep : List UInt8) : Option FMFormatBody := do
  let recordByteOrder ← byteAt subrep 3
  let reversed : Bool := recordByteOrder % 2 ≠ 0
  let formatName ← stringAt subrep (← offsetAt reversed subrep layout.nameOffset layout.offsetWidth)
  let fieldCount ← offsetAt reversed subrep layout.fieldCount layout.countWidth
  let recordLength ← valueAt reversed subrep layout.recordLength 4
  let pointerSize ← byteAt subrep layout.pointerSize
  let floatRep ← valueAt reversed subrep layout.floatingPointRep 2
  let fieldList ← expandFields reversed layout.offsetWidth subrep tableOffset fieldCount
  let alignment ← byteAt subrep layout.alignment
  let columnMajor ← byteAt subrep layout.columnMajorArrays
  let infoOffset ← wireInfoOffset layout reversed subrep
  let optInfo ← expandOptInfo reversed (limit reversed) subrep infoOffset
  return { formatName, recordLength := int32OfPattern recordLength, byteReversal := reversed,
           floatFormat := wireFloatFormat recordByteOrder floatRep, pointerSize, ioVersion,
           fieldList, optInfo, alignment, columnMajorArrays := columnMajor ≠ 0, variant := false,
           recursive := false, varList := [], fieldSubformats := [] }

/-- `expand_subformat_from_rep` -/
def expandSubformatFromRep (subrep : List UInt8) : Option FMFormatBody := do
  let version ← byteAt subrep 2
  if version = 0 then
    let length ← span subrep 0 2
    expandSubformat wireLayout0 2 20 (fun reversed => some (signed 2 (getValue reversed length)))
      subrep
  else if version = 1 ∨ version = 2 then
    let headerSize ← byteAt subrep 17
    expandSubformat wireLayout1 (version + 2) headerSize (fun _ => none) subrep
  else none

/-- The loop of `expand_format_from_rep` over the subformats behind `subrep`. -/
def expandSubformats : Nat → List UInt8 → Option (List FMFormatBody)
  | 0, _ => some []
  | count + 1, subrep => do
    let next := subrep.drop (← recordedSubrepLength subrep)
    let f ← expandSubformatFromRep next
    return f :: (← expandSubformats count next)

/-- `expand_format_from_rep` -/
def expandFormatFromRep (rep : List UInt8) : Option FMFormat := do
  let count ← byteAt rep 4
  let subrep := rep.drop formatWireSize
  let top ← expandSubformatFromRep subrep
  return { top, subformats := ← expandSubformats count subrep }

end FFS
