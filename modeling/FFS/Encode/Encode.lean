import FFS.FM.Context
import FFS.Machine.Segments

/-!
# Encoding

`FFSencode` copies a record and everything it points to into a temporary buffer, and
`FFSencode_vector` leaves what needs no change where it is.  Both walk the record in its copy,
replace each pointer by an offset and keep a list of the segments of the message.  The memory
of the application is a parameter, and a value of a format is the address of its record.  No
array of a value is longer than the memory, so that its size does not overflow.
-/

namespace FFS

open Machine

/-- The size of an `int` that is not negative. -/
def sizeOfInt (x : Int32) : Nat := x.toInt.toNat

/-! ## Segments -/

/-- Where a segment begins: in the temporary buffer, in the memory of the application, or in
the zeroes of a pad. -/
inductive IOBase where
  | tmp (offset : Nat)
  | user (addr : Nat)
  | zeroes
deriving DecidableEq, Repr

/-- The place of byte number `k` from a base. -/
def IOBase.shift (k : Nat) : IOBase → IOBase
  | .tmp offset => .tmp (offset + k)
  | .user addr => .user (addr + k)
  | .zeroes => .zeroes

/-- `internal_iovec` -/
abbrev InternalIovec := Segment IOBase

/-- An `FFSBuffer` that grows as it has to.  What is not in use has the bytes of earlier uses
or any others. -/
structure FFSBuffer where
  tmpBuffer : Mem
  inUseSize : Nat

/-- A block that was placed in the message, and whether it can be left where it is.  The C
code does not keep them. -/
structure Block where
  leaf : Bool
  alignment : Nat
  length : Nat
deriving DecidableEq, Repr

/-- `encode_state` with the buffer. -/
structure EncodeState where
  copyAll : Bool
  noLeafCopy : Bool
  outputLen : Nat
  iovec : List InternalIovec
  addrList : List (Nat × Nat)
  savedOffsetDifference : Nat
  buf : FFSBuffer
  blocks : List Block

/-- How many bytes are missing to a multiple of the alignment. -/
def alignPad (alignment length : Nat) : Nat := (alignment - length % alignment) % alignment

namespace EncodeState

/-- `add_to_tmp_buffer` -/
def addToTmpBuffer (s : EncodeState) (size : Nat) : EncodeState × Nat :=
  ({ s with buf := { s.buf with inUseSize := s.buf.inUseSize + size } }, s.buf.inUseSize)

def store (s : EncodeState) (offset : Nat) (bytes : List UInt8) : EncodeState :=
  { s with buf := { s.buf with tmpBuffer := s.buf.tmpBuffer.write offset bytes } }

/-- `allocate_tmp_space`: the place in the message and the one in the buffer. -/
def allocateTmpSpace (s : EncodeState) (length reqAlignment : Nat) : EncodeState × Nat × Nat :=
  let pad := alignPad reqAlignment s.outputLen
  let (s', tmpData) := s.addToTmpBuffer (length + pad)
  let s' := { s' with outputLen := s.outputLen + pad + length }
  if pad = 0 then (s', s.outputLen, tmpData)
  else
    match s.iovec.getLast?.map Segment.base with
    | some (.tmp _) =>
      ({ s'.store tmpData (List.replicate pad 0) with iovec := Segment.extendLast s.iovec pad },
        s.outputLen + pad, tmpData + pad)
    | _ => ({ s' with iovec := s.iovec ++ [⟨pad, .zeroes⟩] }, s.outputLen + pad, tmpData)

/-- One more segment, unless it is empty. -/
def addIovec (s : EncodeState) (length : Nat) (base : IOBase) : EncodeState :=
  { s with iovec := s.iovec ++ Segment.piece length base }

/-- `copy_data_to_tmp` -/
def copyDataToTmp (s : EncodeState) (data : List UInt8) (reqAlignment : Nat) :
    EncodeState × Nat × Nat :=
  let (s, msgOffset, tmpData) := s.allocateTmpSpace data.length reqAlignment
  ((s.store tmpData data).addIovec data.length (.tmp tmpData), msgOffset, tmpData)

/-- `reserve_space_for_data_in_tmp` -/
def reserveSpaceForDataInTmp (s : EncodeState) (length reqAlignment : Nat) :
    EncodeState × Nat × Nat :=
  let (s, msgOffset, tmpData) := s.allocateTmpSpace length reqAlignment
  (s.addIovec length (.tmp tmpData), msgOffset, tmpData)

/-- `add_data_iovec` -/
def addDataIovec (s : EncodeState) (addr length reqAlignment : Nat) : EncodeState × Nat :=
  let pad := alignPad reqAlignment s.outputLen
  let s := { (s.addIovec pad .zeroes) with outputLen := s.outputLen + pad }
  ({ (s.addIovec length (.user addr)) with outputLen := s.outputLen + length }, s.outputLen)

/-- A block is left where it is when it can be and the message may lie in several places, and
is copied otherwise.  The place in the buffer is none for a block that is left. -/
def placeBlock (mem : Mem) (s : EncodeState) (block : Block) (addr : Nat) :
    EncodeState × Nat × Nat :=
  let s := { s with blocks := s.blocks ++ [block] }
  if !s.copyAll && block.leaf then
    let (s, msgOffset) := s.addDataIovec addr block.length block.alignment
    (s, msgOffset, 0)
  else s.copyDataToTmp (mem.read addr block.length) block.alignment

/-- `add_to_addr_list` -/
def addToAddrList (s : EncodeState) (addr offset : Nat) : EncodeState :=
  { s with addrList := s.addrList ++ [(addr, offset)] }

/-- `search_addr_list` -/
def searchAddrList (s : EncodeState) (addr : Nat) : Option Nat :=
  (s.addrList.reverse.find? fun entry => entry.1 = addr).map Prod.snd

end EncodeState

/-! ## Integers in a record -/

/-- The sizes that `quick_get_ulong` and `quick_put_ulong` know, 0 for the others. -/
def quickSize (size : Nat) : Nat := if size = 1 ∨ size = 2 ∨ size = 4 ∨ size = 8 then size else 0

/-- `quick_get_ulong`, and `quick_get_pointer` -/
def quickGetUlong (m : Mem) (offset size : Nat) : Nat := leValue (m.read offset (quickSize size))

/-- `quick_put_ulong` -/
def EncodeState.quickPutUlong (s : EncodeState) (offset size value : Nat) : EncodeState :=
  s.store offset (leBytes (quickSize size) value)

/-- `strlen`, up to a bound. -/
def stringLength (mem : Mem) : Nat → Nat → Option Nat
  | 0, _ => none
  | bound + 1, addr => if mem addr = 0 then some 0 else (stringLength mem bound (addr + 1)).map (· + 1)

/-! ## Sizes -/

section

variable (formats : List FMFormatBody)

/-- The subformat of a link of a chain. -/
def subformatOf (f : FMFormatBody) (desc : FMTypeDesc) : Option FMFormatBody := do
  let sub ← f.fieldSubformats[desc.fieldIndex]?
  formats[← sub]?

/-- The field that holds the size of a dimension. -/
def controlOf (f : FMFormatBody) (desc : FMTypeDesc) : Option FMField :=
  if 0 ≤ desc.controlFieldIndex then f.fieldList[desc.controlFieldIndex.toNat]? else none

/-- One dimension of an array in the record at `parentOffset`. -/
def dimenSize (f : FMFormatBody) (m : Mem) (parentOffset : Nat) (desc : FMTypeDesc) :
    Option Nat :=
  if desc.staticSize = 0 then do
    let control ← controlOf f desc
    return quickGetUlong m (parentOffset + sizeOfInt control.fieldOffset) (sizeOfInt control.fieldSize)
  else some (desc.staticSize % 2 ^ 64).toNat

/-- `determine_size` -/
def determineSize (f : FMFormatBody) (m : Mem) (parentOffset : Nat) :
    List FMTypeDesc → Option Nat
  | [] => none
  | desc :: next =>
    match desc.type with
    | .pointer | .string => some f.pointerSize
    | .array => do
      let elements ← dimenSize f m parentOffset desc
      let size ← determineSize f m parentOffset next
      return elements * size
    | .subformat => (subformatOf formats f desc).map fun sub => sizeOfInt sub.recordLength
    | .simple => f.fieldList[desc.fieldIndex]?.map fun field => sizeOfInt field.fieldSize

/-- The number of elements of an array of any rank, and the chain of an element. -/
def arrayElements (f : FMFormatBody) (m : Mem) (parentOffset : Nat) :
    List FMTypeDesc → Option (Nat × List FMTypeDesc)
  | [] => none
  | desc :: next =>
    if desc.type = .array then do
      let elements ← dimenSize f m parentOffset desc
      let (count, element) ← arrayElements f m parentOffset next
      return (elements * count, element)
    else some (1, desc :: next)

/-! ## The walk -/

/-- `handle_subfields` -/
def handleSubfields
    (handle : EncodeState → List FMTypeDesc → Nat → Nat → Option EncodeState) (f : FMFormatBody)
    (s : EncodeState) (dataOffset : Nat) : Option EncodeState :=
  if !f.variant then some s
  else
    (f.fieldList.zip f.varList).foldlM (fun s (field, var) => do
      if ← fieldIsFlat formats f var.typeDesc then return s
      else handle s var.typeDesc (dataOffset + sizeOfInt field.fieldOffset) dataOffset) s

/-- `handle_subfield`, without the fields that a program drops or thins out.  The C code does
not return for a value that leads back to itself through formats that are not recursive. -/
def handleSubfield (mem : Mem) : Nat → FMFormatBody → EncodeState → List FMTypeDesc → Nat → Nat →
    Option EncodeState
  | 0, _, _, _, _, _ => none
  | _ + 1, _, _, [], _, _ => none
  | fuel + 1, f, s, desc :: next, dataOffset, parentOffset =>
    match desc.type with
    | .pointer =>
      let ptrValue := quickGetUlong s.buf.tmpBuffer dataOffset f.pointerSize
      if ptrValue = 0 then some s
      else
        match if f.recursive then s.searchAddrList ptrValue else none with
        | some previous => some (s.quickPutUlong dataOffset f.pointerSize previous)
        | none => do
          let size ← determineSize formats f s.buf.tmpBuffer parentOffset next
          if size = 0 then return s.quickPutUlong dataOffset f.pointerSize 0
          else
            let flat ← fieldIsFlat formats f next
            let (s, newOffset, tmpDataLoc) :=
              if s.noLeafCopy && (s.copyAll || !flat) then s.reserveSpaceForDataInTmp size 8
              else s.placeBlock mem { leaf := flat, alignment := 8, length := size } ptrValue
            let offset := newOffset - s.savedOffsetDifference
            let s := s.quickPutUlong dataOffset f.pointerSize offset
            let s := if f.recursive then s.addToAddrList ptrValue offset else s
            if flat then return s
            else handleSubfield mem fuel f s next tmpDataLoc parentOffset
    | .string =>
      let ptrValue := quickGetUlong s.buf.tmpBuffer dataOffset f.pointerSize
      if ptrValue = 0 then some s
      else do
        let length ← stringLength mem fuel ptrValue
        let (s, strOffset, _) :=
          s.placeBlock mem { leaf := true, alignment := 1, length := length + 1 } ptrValue
        return s.quickPutUlong dataOffset f.pointerSize (strOffset - s.savedOffsetDifference)
    | .array => do
      let (elements, element) ← arrayElements f s.buf.tmpBuffer parentOffset (desc :: next)
      let elementSize ← determineSize formats f s.buf.tmpBuffer parentOffset element
      if ← fieldIsFlat formats f element then return s
      else
        (List.range elements).foldlM (fun s i =>
          handleSubfield mem fuel f s element (dataOffset + i * elementSize) parentOffset) s
    | .subformat => do
      let sub ← subformatOf formats f desc
      handleSubfields formats (handleSubfield mem fuel sub) sub s dataOffset
    | .simple => none

end

/-! ## Messages -/

/-- The state that `init_encode_state` and `make_tmp_buffer` leave. -/
def initEncodeState (copyAll noLeafCopy : Bool) (b : FFSBuffer) : EncodeState :=
  { copyAll, noLeafCopy, outputLen := 0, iovec := [], addrList := [], savedOffsetDifference := 0,
    buf := { b with inUseSize := 0 }, blocks := [] }

/-- The header: the ID, room for the length of a variant message, and zeroes up to a multiple
of 8. -/
def headerBytes (format : StoredFormat) : List UInt8 :=
  let size := format.serverID.length + if format.format.top.variant then 8 else 0
  format.serverID ++ List.replicate (size + alignPad 8 size - format.serverID.length) 0

/-- `setup_header` -/
def EncodeState.setupHeader (s : EncodeState) (format : StoredFormat) : EncodeState :=
  let header := headerBytes format
  let (s, tmpData) := s.addToTmpBuffer header.length
  { s.store tmpData header with
    iovec := s.iovec ++ [⟨header.length, .tmp tmpData⟩], outputLen := header.length,
    savedOffsetDifference := header.length }

/-- What `FFSencode_internal` and `FFSencode_vector` have in common. -/
def encodeRecord (mem : Mem) (fuel : Nat) (format : StoredFormat) (data : Nat) (s : EncodeState) :
    Option EncodeState :=
  let top := format.format.top
  let s := s.setupHeader format
  let headerSize := s.outputLen
  let (s, baseOffset, _) := s.placeBlock mem
    { leaf := !top.variant, alignment := 1, length := sizeOfInt top.recordLength } data
  if !top.variant then some s
  else do
    let s := if top.recursive then s.addToAddrList data baseOffset else s
    let (s, _, _) := s.placeBlock mem { leaf := false, alignment := 8, length := 0 } 0
    let s ← handleSubfields format.format.bodies (handleSubfield format.format.bodies mem fuel top)
      top s baseOffset
    return s.store format.serverID.length (leBytes 8 (s.outputLen - headerSize))

/-- `FFSencode` -/
def encode (mem : Mem) (fuel : Nat) (b : FFSBuffer) (format : StoredFormat) (data : Nat) :
    Option (FFSBuffer × List UInt8) := do
  let s ← encodeRecord mem fuel format data (initEncodeState true false b)
  return (s.buf, s.buf.tmpBuffer.read 0 s.outputLen)

/-- `FFSencode_vector`: the segments of the message, which count from the buffer where they do
not lie in the memory of the application. -/
def encodeVector (mem : Mem) (fuel : Nat) (b : FFSBuffer) (format : StoredFormat) (data : Nat) :
    Option (FFSBuffer × List InternalIovec) := do
  let s ← encodeRecord mem fuel format data (initEncodeState false false b)
  return (s.buf, s.iovec)

/-- The byte at a place. -/
def IOBase.byte (mem tmpBuffer : Mem) : IOBase → UInt8
  | .tmp offset => tmpBuffer offset
  | .user addr => mem addr
  | .zeroes => 0

/-- The bytes of the segments one after the other. -/
def vectorBytes (mem : Mem) (b : FFSBuffer) (segments : List InternalIovec) : List UInt8 :=
  Segment.gather (fun base k => (base.shift k).byte mem b.tmpBuffer) segments

end FFS
