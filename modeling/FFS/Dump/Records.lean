import FFS.Convert.ScalarField
import FFS.Dump.Complete
import FFS.File.RawHeader
import FFS.Machine.Blocks
import FFS.Machine.Threads

/-!
# The walk over a record

`dump_subfield` reads a record from memory, the encoded message or what it was decoded to, and
comes to the tree that is printed.  A message dumps as its decoded record does unless it has the
other byte order where `quick_get_ulong` and `quick_get_pointer` do not swap, a way through it
comes back without passing a format that is flagged as recursive, or a text is too long.
-/

namespace FFS
namespace RecordDump

open Machine

/-! ## Reading -/

/-- A sum of an address and an `int`. -/
def moveBy (a : Nat) (d : Int) : Nat := ((a + d) % 2 ^ 64).toNat

/-- `quick_get_ulong`, which does not look at the byte order. -/
def quickGetUlong (m : Blocks) (size : Int32) (a : Nat) : Option Nat :=
  if size = 1 ∨ size = 2 ∨ size = 4 ∨ size = 8 then
    (m.load a size.toNatClampNeg).map leValue
  else some 0

/-- `quick_get_pointer`.  Eight bytes at a multiple of 16 are not swapped, and of another size
there is no value. -/
def quickGetPointer (m : Blocks) (size : Nat) (byteSwap : Bool) (a : Nat) : Option Nat :=
  if size = 1 then (m.load a 1).map leValue
  else if size = 2 ∨ size = 4 then (m.load a size).map (getValue byteSwap)
  else if size = 8 then (m.load a 8).map (getValue (byteSwap && a % 16 ≠ 0))
  else none

/-- `float_conversion` to the host's format. -/
def floatConversion (srcFormat : Nat) (value : List UInt8) : List UInt8 :=
  if srcFormat = fmMyFloatFormat then value
  else if srcFormat = ffsReverseFloatFormats fmMyFloatFormat then value.reverse
  else if srcFormat = 3 then value.drop 4 ++ value.take 4
  else value

/-- What `%g` prints of the bytes of a `float` or a `double`, and `%Lg` of a `long double` with
eight bytes stored in it and the rest as it was. -/
structure FloatPrinter where
  text : List UInt8 → FloatText
  longText : List UInt8 → FloatText

/-- What a walk reads and does not change. -/
structure DumpContext where
  formats : List FMFormatBody
  memory : Blocks
  encoded : Bool
  offsetBase : Nat
  floats : FloatPrinter

/-- The arguments of `dump_subfield`, the address being that of the value. -/
structure DumpSpot where
  body : FMFormatBody
  chain : List FMTypeDesc
  address : Nat
  parentBase : Nat

structure AddrListEntry where
  addr : Nat
  offset : Nat

/-- Where a pointer leads, as an address and as an offset. -/
def DumpContext.pointed (ctx : DumpContext) (ptrValue : Nat) : AddrListEntry :=
  if ctx.encoded then ⟨moveBy ctx.offsetBase ptrValue, ptrValue⟩
  else ⟨ptrValue, moveBy ptrValue (-ctx.offsetBase)⟩

/-- `search_addr_list`, where an offset of -1 is none. -/
def searchAddrList (l : List AddrListEntry) (addr : Nat) : Option Nat :=
  ((l.reverse.find? (·.addr = addr)).map AddrListEntry.offset).filter (· ≠ 2 ^ 64 - 1)

def fieldAt (b : FMFormatBody) (i : Int) : Option FMField :=
  if 0 ≤ i then b.fieldList[i.toNat]? else none

def subformatAt (b : FMFormatBody) (formats : List FMFormatBody) (i : Nat) :
    Option FMFormatBody :=
  b.fieldSubformats[i]? >>= fun sub => sub >>= fun j => formats[j]?

/-- The size of an array link as an `int`. -/
def linkSize (control : FMTypeDesc → Option Nat) (t : FMTypeDesc) : Option Int :=
  if t.staticSize = 0 then (control t).map fun v => signed 4 v else some t.staticSize

/-- The loop over the array links at the head of a chain: the number of elements, and the chain of
one. -/
def countElements (control : FMTypeDesc → Option Nat) :
    List FMTypeDesc → Int → Option (Int × List FMTypeDesc)
  | [], _ => none
  | t :: next, elements =>
    if t.type = .array then do
      let size ← linkSize control t
      countElements control next (Int.bmod (elements * size) (2 ^ 32))
    else some (elements, t :: next)

/-- `determine_dump_size` of what is no array. -/
def determineDumpSize (formats : List FMFormatBody) (b : FMFormatBody) :
    List FMTypeDesc → Option Int
  | [] => none
  | t :: _ =>
    match t.type with
    | .pointer | .string => some b.pointerSize
    | .subformat => (subformatAt b formats t.fieldIndex).map fun sub => sub.recordLength.toInt
    | .simple => b.fieldList[t.fieldIndex]?.map fun f => f.fieldSize.toInt
    | .array => none

/-- The address of an element. -/
def elementAt (a : Nat) (elementSize : Int) (i : Nat) : Nat :=
  moveBy a (Int.bmod (i * elementSize) (2 ^ 32))

/-- Whether `start_field` takes lines for a field. -/
def takesLines (chain : List FMTypeDesc) : Bool :=
  chain.head?.any fun t => t.type ≠ .simple && t.type ≠ .pointer && t.type ≠ .string

/-- The range of the bytes that a getter of an integer reads. -/
def integerRange (field : FMgetField) (a : Nat) : Nat × Nat :=
  if field.size = 1 ∨ field.size = 2 ∨ field.size = 4 ∨ field.size = 8 then
    (a, field.size.toNatClampNeg)
  else if field.size = 16 then (lowHalf field a, 8)
  else (a, 0)

/-- A getter of an integer, on what can be read. -/
def getInteger {α : Type} (get : FMgetField → Mem → Nat → α) (m : Blocks) (field : FMgetField)
    (a : Nat) : Option α :=
  let range := integerRange field a
  if m.covers range.1 range.2 then some (get field m.bytes a) else none

/-- The bytes of a float as the host has them, in `get_big_float`. -/
def hostFloat (field : FMgetField) (bytes : List UInt8) : List UInt8 :=
  if field.size = 4 then if field.byteSwap then bytes.reverse else bytes
  else floatConversion field.srcFloatFormat bytes

def r3vector : List UInt8 := chars ['R', '3', 'v', 'e', 'c', 't', 'o', 'r']

/-- The `descr` of `sdump_value`. -/
def dumpDescr (b : FMFormatBody) (f : FMField) : FMgetField :=
  { offset := 0, size := f.fieldSize, dataType := (arrayStrToDataType f.fieldType.bytes).1,
    byteSwap := b.byteReversal, srcFloatFormat := b.floatFormat,
    targetFloatFormat := fmMyFloatFormat }

/-- `sdump_value`.  A link that is left as a simple one has no string type. -/
def sdumpValue (ctx : DumpContext) (b : FMFormatBody) (f : FMField) (a : Nat) :
    Option SimpleValue :=
  let descr := dumpDescr b f
  let size := unsigned 8 f.fieldSize.toInt
  match (arrayStrToDataType f.fieldType.bytes).1 with
  | .integerType =>
    if size ≤ 8 then
      (getInteger loadInteger ctx.memory descr a).map fun v => .integer size (Int64.ofInt v)
    else some (.integer size 0)
  | .unsignedType =>
    if size ≤ 8 then
      (getInteger loadUnsigned ctx.memory descr a).map fun v => .unsigned size (UInt64.ofNat v)
    else some (.unsigned size 0)
  | .enumerationType =>
    (getInteger loadUnsigned ctx.memory descr a).map fun v => .enumeration (UInt64.ofNat v)
  | .booleanType =>
    (getInteger loadUnsigned ctx.memory descr a).map fun v => .boolean (UInt64.ofNat v)
  | .floatType =>
    if size = 4 ∨ size = 8 then
      (ctx.memory.load a size).map fun bytes =>
        .float size (ctx.floats.text (hostFloat descr bytes))
    else if size = 16 then
      (ctx.memory.load a 8).map fun bytes => .float size (ctx.floats.longText bytes)
    else some (.float size (ctx.floats.text []))
  | .charType => (ctx.memory.load a 1).map fun bytes => .char (bytes.headD 0)
  | .stringType => none
  | .unknownType =>
    if f.fieldType.bytes = r3vector then
      (ctx.memory.load a 24).map fun bytes =>
        .r3vector (ctx.floats.text (bytes.take 8)) (ctx.floats.text ((bytes.drop 8).take 8))
          (ctx.floats.text (bytes.drop 16))
    else some .unknown

/-! ## The walk -/

/-- One round of `dump_subfields` on a record at `a`. -/
def recordField
    (subfield : DumpSpot → List AddrListEntry → Option (DumpValue × List AddrListEntry))
    (b : FMFormatBody) (a : Nat) (field : FMField × FMVarInfo) (l : List AddrListEntry) :
    Option (DumpField × List AddrListEntry) :=
  (subfield ⟨b, field.2.typeDesc, moveBy a field.1.fieldOffset.toInt, a⟩ l).map fun r =>
    (.mk field.1.fieldName (takesLines field.2.typeDesc) r.1, r.2)

/-- `dump_subfields` on a record at `a`. -/
def dumpFieldsWith
    (subfield : DumpSpot → List AddrListEntry → Option (DumpValue × List AddrListEntry))
    (b : FMFormatBody) (a : Nat) :
    List AddrListEntry → Option (List DumpField × List AddrListEntry) :=
  threaded (recordField subfield b a) (b.fieldList.zip b.varList)

/-- `dump_subfield`, with the depth that it may come to. -/
def dumpSubfieldAt (ctx : DumpContext) :
    Nat → DumpSpot → List AddrListEntry → Option (DumpValue × List AddrListEntry)
  | 0, _, _ => none
  | fuel + 1, s, l =>
    match s.chain with
    | [] => none
    | t :: next =>
      match t.type with
      | .pointer => do
        let ptrValue ← quickGetPointer ctx.memory s.body.pointerSize s.body.byteReversal s.address
        if ptrValue = 0 then return (.null, l)
        else
          let address := UInt64.ofNat ptrValue
          let entry := ctx.pointed ptrValue
          if s.body.recursive ∧ (searchAddrList l entry.addr).isSome then
            return (.visited address, l)
          else
            let (value, l) ← dumpSubfieldAt ctx fuel ⟨s.body, next, entry.addr, s.parentBase⟩
              (if s.body.recursive then l ++ [entry] else l)
            return (.pointer address value, l)
      | .string => do
        let ptrValue ← quickGetPointer ctx.memory s.body.pointerSize s.body.byteReversal s.address
        if ptrValue = 0 then return (.string none, l)
        else
          let text ← ctx.memory.string (ctx.pointed ptrValue).addr
          return (.string (some text), l)
      | .array => do
        let control (t : FMTypeDesc) := fieldAt s.body t.controlFieldIndex >>= fun f =>
          quickGetUlong ctx.memory f.fieldSize (moveBy s.parentBase f.fieldOffset.toInt)
        let (elements, rest) ← countElements control s.chain 1
        let elementSize ← determineDumpSize ctx.formats s.body rest
        let (values, l) ← threaded (fun (i : Nat) => dumpSubfieldAt ctx fuel
          ⟨s.body, rest, elementAt s.address elementSize i, s.parentBase⟩)
          (List.range elements.toNat) l
        return (.array values, l)
      | .subformat => do
        let sub ← subformatAt s.body ctx.formats t.fieldIndex
        let f ← s.body.fieldList[t.fieldIndex]?
        let var ← s.body.varList[t.fieldIndex]?
        let (fields, l) ← dumpFieldsWith (dumpSubfieldAt ctx fuel) sub s.address l
        return (.subformat f.fieldName (takesLines var.typeDesc) fields, l)
      | .simple => do
        let f ← s.body.fieldList[t.fieldIndex]?
        let value ← sdumpValue ctx s.body f s.address
        return (.simple value, l)

/-- `internal_dump_data`: the fields that are printed. -/
def internalDumpData (ctx : DumpContext) (fuel : Nat) (format : FMFormatBody) (data : Nat) :
    Option (List DumpField) :=
  (dumpFieldsWith (dumpSubfieldAt ctx fuel) format data
    (if format.recursive then [⟨data, 0⟩] else [])).map Prod.fst

/-! ## What a dump is for -/

mutual

def unaddressedField : DumpField → DumpField
  | .mk name compound value => .mk name compound (unaddressed value)
termination_by structural f => f

/-- A tree with no address in it. -/
def unaddressed : DumpValue → DumpValue
  | .null => .null
  | .visited _ => .visited 0
  | .pointer _ target => .pointer 0 (unaddressed target)
  | .string value => .string value
  | .array elements => .array (unaddressedElements elements)
  | .subformat name compound fields => .subformat name compound (unaddressedFields fields)
  | .simple value => .simple value
termination_by structural v => v

def unaddressedElements : List DumpValue → List DumpValue
  | [] => []
  | v :: vs => unaddressed v :: unaddressedElements vs
termination_by structural vs => vs

def unaddressedFields : List DumpField → List DumpField
  | [] => []
  | f :: fs => unaddressedField f :: unaddressedFields fs
termination_by structural fs => fs

end

/-- The text is printed whole. -/
def Whole (c : DumpCall) : Prop := c.printed = c.text

/-- An integer is printed as a number. -/
def Numeric : SimpleValue → Prop
  | .integer size _ => size ≤ 8
  | .unsigned size _ => size ≤ 8
  | _ => True

mutual

def fieldInFull : DumpField → Prop
  | .mk name _ value => Whole (startText false name) ∧ InFull value
termination_by structural f => f

/-- Names and strings are printed whole, and integers as numbers. -/
def InFull : DumpValue → Prop
  | .null => True
  | .visited _ => True
  | .pointer _ target => InFull target
  | .string value => Whole (stringText value)
  | .array elements => elementsInFull elements
  | .subformat name _ fields => Whole (startText false name) ∧ fieldsInFull fields
  | .simple value => Numeric value
termination_by structural v => v

def elementsInFull : List DumpValue → Prop
  | [] => True
  | v :: vs => InFull v ∧ elementsInFull vs
termination_by structural vs => vs

def fieldsInFull : List DumpField → Prop
  | [] => True
  | f :: fs => fieldInFull f ∧ fieldsInFull fs
termination_by structural fs => fs

end

/-- The format of the decoded record, which has the fields where the message has them. -/
def asNative (b : FMFormatBody) : FMFormatBody :=
  { b with
    byteReversal := false, floatFormat := fmMyFloatFormat, pointerSize := sizeofPointer }

/-- A message, where it lies, and the record that it was decoded to. -/
structure DecodedMessage where
  stored : StoredFormat
  bigEndian : Bool
  data : List UInt8
  place : Nat
  native : Blocks
  record : Nat

namespace DecodedMessage

def formats (d : DecodedMessage) : List FMFormatBody := d.stored.format.bodies

def top (d : DecodedMessage) : FMFormatBody := d.stored.format.top

/-- Where the data are, behind the header. -/
def base (d : DecodedMessage) : Nat := d.place + headerSize d.stored

def message (d : DecodedMessage) : Blocks :=
  Blocks.single d.place (encodedMessage d.bigEndian d.stored d.data)

/-- What the walk over the message reads. -/
def messageContext (d : DecodedMessage) (floats : FloatPrinter) : DumpContext where
  formats := d.formats
  memory := d.message
  encoded := true
  offsetBase := d.base
  floats := floats

/-- What the walk over the record reads. -/
def recordContext (d : DecodedMessage) (floats : FloatPrinter) : DumpContext where
  formats := d.formats.map asNative
  memory := d.native
  encoded := false
  offsetBase := 0
  floats := floats

/-- `FMfdump_encoded_data` -/
def dumpEncoded (d : DecodedMessage) (floats : FloatPrinter) (fuel : Nat) :
    Option (List DumpField) :=
  internalDumpData (d.messageContext floats) fuel d.top d.base

/-- `FMfdump_data` -/
def dumpNative (d : DecodedMessage) (floats : FloatPrinter) (fuel : Nat) :
    Option (List DumpField) :=
  internalDumpData (d.recordContext floats) fuel (asNative d.top) d.record

/-- The dump of the message ends, reads nothing but the message, and prints what the dump of the
record prints, whatever is left over in a `long double`. -/
def DumpsRight (d : DecodedMessage) (text : List UInt8 → FloatText) : Prop :=
  ∀ longText longText' : List UInt8 → FloatText, ∃ fuel fields nativeFields,
    d.dumpEncoded ⟨text, longText⟩ fuel = some fields ∧
    d.dumpNative ⟨text, longText'⟩ fuel = some nativeFields ∧
    unaddressedFields fields = unaddressedFields nativeFields ∧ fieldsInFull fields

end DecodedMessage

/-! ## Places -/

/-- A value in the message and in the record. -/
structure Place where
  body : FMFormatBody
  chain : List FMTypeDesc
  message : Nat
  messageParent : Nat
  native : Nat
  nativeParent : Nat

namespace Place

def inMessage (p : Place) : DumpSpot := ⟨p.body, p.chain, p.message, p.messageParent⟩

def inRecord (p : Place) : DumpSpot := ⟨asNative p.body, p.chain, p.native, p.nativeParent⟩

/-- A field of a record at the place. -/
def field (p : Place) (sub : FMFormatBody) (f : FMField) (var : FMVarInfo) : Place where
  body := sub
  chain := var.typeDesc
  message := moveBy p.message f.fieldOffset.toInt
  messageParent := p.message
  native := moveBy p.native f.fieldOffset.toInt
  nativeParent := p.native

/-- An element of an array at the place. -/
def element (p : Place) (rest : List FMTypeDesc) (size nativeSize : Int) (i : Nat) : Place :=
  { p with
    chain := rest
    message := elementAt p.message size i
    native := elementAt p.native nativeSize i }

/-- A pointer that the walk keeps in its list. -/
def Tracked (p : Place) : Prop :=
  p.body.recursive = true ∧ ∃ t ∈ p.chain.head?, t.type = .pointer

end Place

/-- The value of a control field, in the byte order of its memory. -/
def controlValue (m : Blocks) (byteSwap : Bool) (b : FMFormatBody) (parent : Nat)
    (t : FMTypeDesc) : Option Nat :=
  fieldAt b t.controlFieldIndex >>= fun f =>
    if f.fieldSize = 1 ∨ f.fieldSize = 2 ∨ f.fieldSize = 4 ∨ f.fieldSize = 8 then
      (m.load (moveBy parent f.fieldOffset.toInt) f.fieldSize.toNatClampNeg).map
        (getValue byteSwap)
    else none

/-- What decoding makes of the bytes of a simple value of the same size. -/
def decodedBytes (b : FMFormatBody) (dataType : FMDataType) (bytes : List UInt8) : List UInt8 :=
  if dataType = .floatType ∧ bytes.length = 8 then floatConversion b.floatFormat bytes
  else if b.byteReversal then bytes.reverse else bytes

namespace DecodedMessage

/-- The pointer at a place, in the message an offset and in the record an address. -/
def pointers (d : DecodedMessage) (p : Place) : Option (Nat × Nat) := do
  let bytes ← d.message.load p.message p.body.pointerSize
  let nativeBytes ← d.native.load p.native sizeofPointer
  return (getValue p.body.byteReversal bytes, leValue nativeBytes)

def messageCount (d : DecodedMessage) (p : Place) : Option (Int × List FMTypeDesc) :=
  countElements (controlValue d.message p.body.byteReversal p.body p.messageParent) p.chain 1

def nativeCount (d : DecodedMessage) (p : Place) : Option (Int × List FMTypeDesc) :=
  countElements (controlValue d.native false p.body p.nativeParent) p.chain 1

/-- Where a pointer leads to. -/
def target (d : DecodedMessage) (p : Place) (next : List FMTypeDesc) (v w : Nat) : Place :=
  { p with chain := next, message := moveBy d.base v, native := w }

/-- The sizes of the elements of an array. -/
def Sizes (d : DecodedMessage) (p : Place) (rest : List FMTypeDesc) (size nativeSize : Int) :
    Prop :=
  determineDumpSize d.formats p.body rest = some size ∧
    determineDumpSize (d.formats.map asNative) (asNative p.body) rest = some nativeSize

/-- From a place on. -/
inductive Way (d : DecodedMessage) (p : Place) : Place → Prop
  | pointer {t next v w} (hchain : p.chain = t :: next) (htype : t.type = .pointer)
      (hvalues : d.pointers p = some (v, w)) (hv : v ≠ 0) : Way d p (d.target p next v w)
  | element {t next n rest size nativeSize i} (hchain : p.chain = t :: next)
      (htype : t.type = .array) (hcount : d.messageCount p = some (n, rest))
      (hsizes : d.Sizes p rest size nativeSize) (hi : i < n.toNat) :
      Way d p (p.element rest size nativeSize i)
  | field {t next sub f var} (hchain : p.chain = t :: next) (htype : t.type = .subformat)
      (hsub : subformatAt p.body d.formats t.fieldIndex = some sub)
      (hfield : (f, var) ∈ sub.fieldList.zip sub.varList) : Way d p (p.field sub f var)

/-- The record as a place. -/
def root (d : DecodedMessage) : Place := ⟨d.top, [], d.base, d.base, d.record, d.record⟩

/-- The places that a walk over the whole record would come to. -/
inductive Reached (d : DecodedMessage) : Place → Prop
  | field {f var} (hfield : (f, var) ∈ d.top.fieldList.zip d.top.varList) :
      Reached d (d.root.field d.top f var)
  | step {p q} (hp : Reached d p) (hway : Way d p q) : Reached d q

/-- The records and what pointers lead to, by their two addresses. -/
inductive Visits (d : DecodedMessage) : Nat → Nat → Prop
  | root : Visits d d.base d.record
  | pointer {p t next v w} (hp : Reached d p) (hchain : p.chain = t :: next)
      (htype : t.type = .pointer) (hvalues : d.pointers p = some (v, w)) (hv : v ≠ 0) :
      Visits d (moveBy d.base v) w

/-- A pointer that is null in both, or leads into the message. -/
def PointerSound (d : DecodedMessage) (p : Place) : Prop :=
  (p.body.pointerSize = 1 ∨ p.body.pointerSize = 2 ∨ p.body.pointerSize = 4 ∨
    p.body.pointerSize = 8) ∧
  ∃ v w, d.pointers p = some (v, w) ∧ (v = 0 ↔ w = 0) ∧ v ≤ d.data.length ∧ w < 2 ^ 64 - 1

/-- A field of a known type, of which the record has the decoded bytes. -/
def SimpleSound (d : DecodedMessage) (p : Place) (f : FMField) : Prop :=
  let dataType := (arrayStrToDataType f.fieldType.bytes).1
  let size := f.fieldSize.toNatClampNeg
  dataType ≠ .unknownType ∧ dataType ≠ .stringType ∧ 0 < f.fieldSize ∧
    ∃ bytes, d.message.load p.message size = some bytes ∧
      d.native.load p.native size = some (decodedBytes p.body dataType bytes)

/-- The record has at the place what the message has. -/
def Sound (d : DecodedMessage) (p : Place) : Prop :=
  ∃ t next, p.chain = t :: next ∧
    match t.type with
    | .pointer => d.PointerSound p
    | .string => d.PointerSound p ∧ ∀ v w, d.pointers p = some (v, w) → v ≠ 0 →
        ∃ s, d.message.string (moveBy d.base v) = some s ∧ d.native.string w = some s
    | .array => ∃ n rest size nativeSize, d.messageCount p = some (n, rest) ∧
        d.nativeCount p = some (n, rest) ∧ d.Sizes p rest size nativeSize
    | .subformat => (subformatAt p.body d.formats t.fieldIndex).isSome ∧
        p.body.fieldList[t.fieldIndex]?.isSome ∧ p.body.varList[t.fieldIndex]?.isSome
    | .simple => ∃ f, p.body.fieldList[t.fieldIndex]? = some f ∧ d.SimpleSound p f

/-- The message is well formed, and the record is what it was decoded to, with the same sharing. -/
structure WellDecoded (d : DecodedMessage) : Prop where
  fits : d.place + (encodedMessage d.bigEndian d.stored d.data).length < 2 ^ 64 - 1
  sound : ∀ p, d.Reached p → d.Sound p
  shared : ∀ a b a' b', d.Visits a b → d.Visits a' b' → (a = a' ↔ b = b')

/-! ## What goes wrong -/

/-- A pointer of eight bytes that is not swapped and should be. -/
def SwapMissed (d : DecodedMessage) (p : Place) : Prop :=
  p.body.byteReversal = true ∧ p.body.pointerSize = 8 ∧ p.message % 16 = 0 ∧
    ∃ bytes, d.message.load p.message 8 = some bytes ∧ bytes.reverse ≠ bytes

/-- A control field that is not swapped and should be. -/
def CountMisread (d : DecodedMessage) (p : Place) : Prop :=
  p.body.byteReversal = true ∧ ∃ t ∈ p.chain.takeWhile (·.type = .array), t.staticSize = 0 ∧
    ∃ f bytes, fieldAt p.body t.controlFieldIndex = some f ∧
      d.message.load (moveBy p.messageParent f.fieldOffset.toInt) f.fieldSize.toNatClampNeg =
        some bytes ∧ bytes.reverse ≠ bytes

/-- A value that the dumps do not print, or do not print alike. -/
def Unprintable (p : Place) (f : FMField) : Prop :=
  match (arrayStrToDataType f.fieldType.bytes).1 with
  | .integerType | .unsignedType => 8 < f.fieldSize
  | .floatType => f.fieldSize = 16
  | .charType => p.body.byteReversal = true ∧ f.fieldSize ≠ 1
  | _ => False

def Trouble (d : DecodedMessage) (p : Place) : Prop :=
  ∃ t next, p.chain = t :: next ∧
    match t.type with
    | .pointer => d.SwapMissed p
    | .string => d.SwapMissed p ∨ ∃ v w s, d.pointers p = some (v, w) ∧ v ≠ 0 ∧
        d.message.string (moveBy d.base v) = some s ∧ 1021 < s.length
    | .array => d.CountMisread p
    | .subformat => False
    | .simple => ∃ f, p.body.fieldList[t.fieldIndex]? = some f ∧ Unprintable p f

/-- The dump of the record up to a field, its values read with any printers of floats. -/
def NativeFields (d : DecodedMessage) (body : FMFormatBody) (native : Nat)
    (before : List (FMField × FMVarInfo)) (l l' : List AddrListEntry) : Prop :=
  ∃ floats fuel fields, threaded
    (recordField (dumpSubfieldAt (d.recordContext floats) fuel) (asNative body) native) before l =
      some (fields, l')

/-- The dump of the record up to an element. -/
def NativeElements (d : DecodedMessage) (p : Place) (rest : List FMTypeDesc)
    (size nativeSize : Int) (before : List Nat) (l l' : List AddrListEntry) : Prop :=
  ∃ floats fuel values, threaded (fun i => dumpSubfieldAt (d.recordContext floats) fuel
    (p.element rest size nativeSize i).inRecord) before l = some (values, l')

/-- From a place to the next, where the dump of the record goes on: a pointer that it has in its
list is not followed. -/
inductive Onward (d : DecodedMessage) (p : Place) (l : List AddrListEntry) :
    Place → List AddrListEntry → Prop
  | pointer {t next v w} (hchain : p.chain = t :: next) (htype : t.type = .pointer)
      (hvalues : d.pointers p = some (v, w)) (hv : v ≠ 0)
      (hnew : ¬ (p.body.recursive ∧ (searchAddrList l w).isSome)) :
      Onward d p l (d.target p next v w) (if p.body.recursive then l ++ [⟨w, w⟩] else l)
  | element {t next n rest size nativeSize before i after l'} (hchain : p.chain = t :: next)
      (htype : t.type = .array) (hcount : d.messageCount p = some (n, rest))
      (hsizes : d.Sizes p rest size nativeSize)
      (hi : List.range n.toNat = before ++ i :: after)
      (hbefore : d.NativeElements p rest size nativeSize before l l') :
      Onward d p l (p.element rest size nativeSize i) l'
  | field {t next sub before f var after l'} (hchain : p.chain = t :: next)
      (htype : t.type = .subformat) (hsub : subformatAt p.body d.formats t.fieldIndex = some sub)
      (hfield : sub.fieldList.zip sub.varList = before ++ (f, var) :: after)
      (hbefore : d.NativeFields sub p.native before l l') : Onward d p l (p.field sub f var) l'

/-- The list that the dump of the record starts with. -/
def nativeStart (d : DecodedMessage) : List AddrListEntry :=
  if d.top.recursive then [⟨d.record, 0⟩] else []

/-- The places that the dump of the record comes to, with its list. -/
inductive Comes (d : DecodedMessage) : Place → List AddrListEntry → Prop
  | field {before f var after l} (hfield : d.top.fieldList.zip d.top.varList =
      before ++ (f, var) :: after) (hbefore : d.NativeFields d.top d.record before d.nativeStart l) :
      Comes d (d.root.field d.top f var) l
  | step {p l q l'} (hp : Comes d p l) (hway : Onward d p l q l') : Comes d q l'

/-- Where the dump of the record comes, nothing is misread and no name or text is too long, and no
way of it goes on for ever but by pointers that it keeps in its list. -/
structure Safe (d : DecodedMessage) : Prop where
  smooth : ∀ p l, d.Comes p l → ¬ d.Trouble p
  names : ∀ p l, d.Comes p l → ∀ f ∈ p.body.fieldList, printableName f.fieldName
  ends : ∀ p l, d.Comes p l →
    Acc (fun q p => d.Onward p.1 p.2 q.1 q.2 ∧ ¬ Place.Tracked p.1) (p, l)

end DecodedMessage

/-! ## Trees -/

/-- Two values print alike, and in full. -/
def AlikeValues (v w : DumpValue) : Prop := unaddressed v = unaddressed w ∧ InFull v

def AlikeFields (f g : DumpField) : Prop :=
  unaddressedField f = unaddressedField g ∧ fieldInFull f

theorem alike_elements {vs ws : List DumpValue} (h : List.Forall₂ AlikeValues vs ws) :
    unaddressedElements vs = unaddressedElements ws ∧ elementsInFull vs := by
  induction h with
  | nil => exact ⟨rfl, trivial⟩
  | cons hv _ ih =>
    refine ⟨?_, hv.2, ih.2⟩
    rw [unaddressedElements, unaddressedElements, hv.1, ih.1]

theorem alike_fields {fs gs : List DumpField} (h : List.Forall₂ AlikeFields fs gs) :
    unaddressedFields fs = unaddressedFields gs ∧ fieldsInFull fs := by
  induction h with
  | nil => exact ⟨rfl, trivial⟩
  | cons hf _ ih =>
    refine ⟨?_, hf.2, ih.2⟩
    rw [unaddressedFields, unaddressedFields, hf.1, ih.1]

theorem alike_array {vs ws : List DumpValue} (h : List.Forall₂ AlikeValues vs ws) :
    AlikeValues (.array vs) (.array ws) := by
  obtain ⟨heq, hfull⟩ := alike_elements h
  refine ⟨?_, hfull⟩
  rw [unaddressed, unaddressed, heq]

theorem alike_pointer {v w : DumpValue} (h : AlikeValues v w) (a b : UInt64) :
    AlikeValues (.pointer a v) (.pointer b w) := by
  refine ⟨?_, h.2⟩
  rw [unaddressed, unaddressed, h.1]

theorem whole_startText {name : CString} (h : printableName name) :
    Whole (startText false name) := by
  have hlength : (startText false name).text.length = name.length + 3 := by
    simp [startText, chars, CString.length]
  refine printed_of_fits ⟨?_, ?_⟩
  · show 0 ∉ name.bytes ++ chars [' ', '=', ' ']
    rw [List.mem_append]
    rintro (hmem | hmem)
    · exact name.noNul hmem
    · revert hmem
      decide
  · rw [hlength]
    have hname : name.length ≤ 1020 := h
    exact Nat.le_min.mpr ⟨Nat.le_refl _, by unfold dumpBufferSize; omega⟩

theorem whole_stringText {value : CString} (h : value.length ≤ 1021) :
    Whole (stringText (some value)) := by
  have hlength : (stringText (some value)).text.length = value.length + 2 := by
    simp [stringText, chars, CString.length]
  refine printed_of_fits ⟨?_, ?_⟩
  · show 0 ∉ chr '"' :: value.bytes ++ chars ['"']
    rw [List.cons_append, List.mem_cons, List.mem_append]
    rintro (hmem | hmem | hmem)
    · revert hmem
      decide
    · exact value.noNul hmem
    · revert hmem
      decide
  · rw [hlength]
    exact Nat.le_min.mpr ⟨Nat.le_refl _, by unfold dumpBufferSize; omega⟩

theorem alike_subformat {name : CString} (hname : printableName name) (compound : Bool)
    {fs gs : List DumpField} (h : List.Forall₂ AlikeFields fs gs) :
    AlikeValues (.subformat name compound fs) (.subformat name compound gs) := by
  obtain ⟨heq, hfull⟩ := alike_fields h
  refine ⟨?_, whole_startText hname, hfull⟩
  rw [unaddressed, unaddressed, heq]

theorem alike_string {value : Option CString} (h : ∀ s ∈ value, s.length ≤ 1021) :
    AlikeValues (.string value) (.string value) := by
  refine ⟨rfl, ?_⟩
  cases value with
  | none => exact (by decide : (stringText none).printed = (stringText none).text)
  | some s => exact whole_stringText (h s rfl)

/-! ## More fuel -/

theorem dumpFieldsWith_mono
    {f g : DumpSpot → List AddrListEntry → Option (DumpValue × List AddrListEntry)}
    (h : ∀ s l r, f s l = some r → g s l = some r) {b : FMFormatBody} {a : Nat}
    {l : List AddrListEntry} {r : List DumpField × List AddrListEntry}
    (hr : dumpFieldsWith f b a l = some r) : dumpFieldsWith g b a l = some r := by
  refine threaded_mono (fun field l r hfield => ?_) hr
  obtain ⟨x, hx, rfl⟩ := Option.map_eq_some_iff.mp hfield
  exact congrArg (Option.map _) (h _ _ _ hx)

/-- What is found at a depth is found at every greater one. -/
theorem dumpSubfieldAt_succ (ctx : DumpContext) (fuel : Nat) (s : DumpSpot)
    (l : List AddrListEntry) (r : DumpValue × List AddrListEntry)
    (h : dumpSubfieldAt ctx fuel s l = some r) : dumpSubfieldAt ctx (fuel + 1) s l = some r := by
  induction fuel generalizing s l r with
  | zero => cases h
  | succ fuel ih =>
    rw [dumpSubfieldAt] at h ⊢
    cases hchain : s.chain with
    | nil =>
      rw [hchain] at h
      cases h
    | cons t next =>
      rw [hchain] at h
      cases htype : t.type with
      | pointer =>
        simp only [htype] at h ⊢
        obtain ⟨ptrValue, hptr, h⟩ := Option.bind_eq_some_iff.mp h
        refine bind_eq_of_eq_some hptr ?_
        split at h
        · next hnull => rw [if_pos hnull]; exact h
        · next hnull =>
          rw [if_neg hnull]
          by_cases hvisited : s.body.recursive ∧
            (searchAddrList l (ctx.pointed ptrValue).addr).isSome
          · rw [if_pos hvisited] at h ⊢
            exact h
          · rw [if_neg hvisited] at h ⊢
            obtain ⟨x, hx, h⟩ := Option.bind_eq_some_iff.mp h
            exact bind_eq_of_eq_some (ih _ _ _ hx) h
      | array =>
        simp only [htype] at h ⊢
        obtain ⟨x, hx, h⟩ := Option.bind_eq_some_iff.mp h
        obtain ⟨size, hsize, h⟩ := Option.bind_eq_some_iff.mp h
        obtain ⟨y, hy, h⟩ := Option.bind_eq_some_iff.mp h
        refine bind_eq_of_eq_some hx (bind_eq_of_eq_some hsize (bind_eq_of_eq_some ?_ h))
        exact threaded_mono (fun _ _ _ => ih _ _ _) hy
      | string =>
        simp only [htype] at h ⊢
        exact h
      | subformat =>
        simp only [htype] at h ⊢
        obtain ⟨sub, hsub, h⟩ := Option.bind_eq_some_iff.mp h
        obtain ⟨f, hf, h⟩ := Option.bind_eq_some_iff.mp h
        obtain ⟨var, hvar, h⟩ := Option.bind_eq_some_iff.mp h
        obtain ⟨x, hx, h⟩ := Option.bind_eq_some_iff.mp h
        refine bind_eq_of_eq_some hsub (bind_eq_of_eq_some hf (bind_eq_of_eq_some hvar
          (bind_eq_of_eq_some ?_ h)))
        exact dumpFieldsWith_mono ih hx
      | simple =>
        simp only [htype] at h ⊢
        exact h

/-! ## Reading right -/

/-- Bytes that read the same in both orders. -/
theorem getValue_of_reverse_eq {bytes : List UInt8} (h : bytes.reverse = bytes) (b b' : Bool) :
    getValue b bytes = getValue b' bytes := by
  have hboth : beValue bytes = leValue bytes := by rw [beValue, h]
  cases b with
  | true =>
    cases b' with
    | true => rfl
    | false => exact hboth
  | false =>
    cases b' with
    | true => exact hboth.symm
    | false => rfl

theorem reverse_of_length_one {bytes : List UInt8} (h : bytes.length = 1) :
    bytes.reverse = bytes := by
  obtain ⟨b, rfl⟩ := List.length_eq_one_iff.mp h
  rfl

/-- A pointer is read right unless a swap is missed. -/
theorem quickGetPointer_eq {m : Blocks} {size a : Nat} {swap : Bool} {bytes : List UInt8}
    (hsize : size = 1 ∨ size = 2 ∨ size = 4 ∨ size = 8) (hload : m.load a size = some bytes)
    (hswap : ¬ (swap = true ∧ size = 8 ∧ a % 16 = 0 ∧ bytes.reverse ≠ bytes)) :
    quickGetPointer m size swap a = some (getValue swap bytes) := by
  unfold quickGetPointer
  rcases hsize with rfl | rfl | rfl | rfl
  · rw [if_pos rfl, hload]
    exact congrArg some
      (getValue_of_reverse_eq (reverse_of_length_one (Blocks.length_of_load hload)) false swap)
  · rw [if_neg (by decide), if_pos (by decide), hload]
    rfl
  · rw [if_neg (by decide), if_pos (by decide), hload]
    rfl
  · rw [if_neg (by decide), if_neg (by decide), if_pos rfl, hload, Option.map_some]
    refine congrArg some ?_
    by_cases haligned : a % 16 = 0
    · by_cases hrev : bytes.reverse = bytes
      · exact getValue_of_reverse_eq hrev _ _
      · have hoff : swap = false := by
          cases swap with
          | true => exact absurd ⟨rfl, rfl, haligned, hrev⟩ hswap
          | false => rfl
        rw [hoff, Bool.false_and]
    · rw [decide_eq_true haligned, Bool.and_true]

/-- Counts that are read right make the same number of elements. -/
theorem countElements_of_controls {control control' : FMTypeDesc → Option Nat}
    {chain : List FMTypeDesc} {n : Int} {r : Int × List FMTypeDesc}
    (h : ∀ t ∈ chain.takeWhile (·.type = .array), t.staticSize = 0 → ∀ v, control' t = some v →
      control t = some v)
    (hr : countElements control' chain n = some r) : countElements control chain n = some r := by
  induction chain generalizing n with
  | nil => cases hr
  | cons t chain ih =>
    rw [countElements] at hr ⊢
    by_cases htype : t.type = .array
    · have hwhile : (t :: chain).takeWhile (·.type = .array) =
          t :: chain.takeWhile (·.type = .array) :=
        List.takeWhile_cons_of_pos (by simpa using htype)
      rw [hwhile] at h
      rw [if_pos htype] at hr ⊢
      obtain ⟨size, hsize, hr⟩ := Option.bind_eq_some_iff.mp hr
      refine bind_eq_of_eq_some ?_ (ih (fun t ht => h t (List.mem_cons_of_mem _ ht)) hr)
      rw [linkSize] at hsize ⊢
      by_cases hstatic : t.staticSize = 0
      · rw [if_pos hstatic] at hsize ⊢
        obtain ⟨v, hv, rfl⟩ := Option.map_eq_some_iff.mp hsize
        rw [h t List.mem_cons_self hstatic v hv]
        rfl
      · rw [if_neg hstatic] at hsize ⊢
        exact hsize
    · rw [if_neg htype] at hr ⊢
      exact hr

/-- What `dump_subfield` reads of a control field. -/
def quickControl (m : Blocks) (b : FMFormatBody) (parent : Nat) (t : FMTypeDesc) : Option Nat :=
  fieldAt b t.controlFieldIndex >>= fun f =>
    quickGetUlong m f.fieldSize (moveBy parent f.fieldOffset.toInt)

theorem quickControl_eq {m : Blocks} {b : FMFormatBody} {parent : Nat} {t : FMTypeDesc}
    {swap : Bool} {v : Nat} (hv : controlValue m swap b parent t = some v)
    (hswap : swap = false ∨ ∀ f bytes, fieldAt b t.controlFieldIndex = some f →
      m.load (moveBy parent f.fieldOffset.toInt) f.fieldSize.toNatClampNeg = some bytes →
        bytes.reverse = bytes) :
    quickControl m b parent t = some v := by
  obtain ⟨f, hf, hv⟩ := Option.bind_eq_some_iff.mp hv
  refine bind_eq_of_eq_some hf ?_
  split at hv
  · next hsize =>
    obtain ⟨bytes, hload, rfl⟩ := Option.map_eq_some_iff.mp hv
    rw [quickGetUlong, if_pos hsize, hload]
    refine congrArg some ?_
    rcases hswap with hoff | hrev
    · rw [hoff]
      rfl
    · exact getValue_of_reverse_eq (hrev f bytes hf hload) false swap
  · cases hv

/-! ### Simple values -/

theorem read_of_load {m : Blocks} {a n : Nat} {bytes : List UInt8} (h : m.load a n = some bytes) :
    m.bytes.read a n = bytes := (Blocks.load_eq_some_iff.mp h).2

theorem covers_of_load {m : Blocks} {a n : Nat} {bytes : List UInt8}
    (h : m.load a n = some bytes) : m.covers a n = true := (Blocks.load_eq_some_iff.mp h).1

/-- The bytes of a value of the message and those of the record. -/
structure SameValue (m m' : Blocks) (swap : Bool) (a a' n : Nat) (bytes : List UInt8) : Prop where
  message : m.load a n = some bytes
  native : m'.load a' n = some (if swap then bytes.reverse else bytes)

section

variable {m m' : Blocks} {swap : Bool} {a a' n : Nat} {bytes : List UInt8}

theorem SameValue.value (h : SameValue m m' swap a a' n bytes) :
    getValue swap (m.bytes.read a n) = getValue false (m'.bytes.read a' n) := by
  rw [read_of_load h.message, read_of_load h.native]
  cases swap with
  | true => rfl
  | false => rfl

theorem SameValue.byte (h : SameValue m m' swap a a' 1 bytes) :
    leValue (m.bytes.read a 1) = leValue (m'.bytes.read a' 1) := by
  have hrev := reverse_of_length_one (Blocks.length_of_load h.message)
  rw [read_of_load h.message, read_of_load h.native]
  cases swap with
  | true => rw [if_pos rfl, hrev]
  | false => rw [if_neg (by decide)]

/-- The low halves. -/
theorem SameValue.half (h : SameValue m m' swap a a' 16 bytes) :
    getValue swap (m.bytes.read (if swap then a + 8 else a) 8) =
      getValue false (m'.bytes.read a' 8) := by
  have hlength := Blocks.length_of_load h.message
  have hmessage := read_of_load h.message
  have hnative := read_of_load h.native
  have htake : m'.bytes.read a' 8 = (if swap then bytes.reverse else bytes).take 8 := by
    rw [← hnative, Mem.take_read (by decide)]
  rw [htake]
  cases swap with
  | true =>
    have hdrop : m.bytes.read (a + 8) 8 = bytes.drop 8 := by
      rw [← hmessage, Mem.read_add m.bytes a 8 8, List.drop_left' (Mem.length_read _ _ _)]
    rw [if_pos rfl, if_pos rfl, hdrop, List.take_reverse, hlength]
    rfl
  | false =>
    rw [if_neg (by decide), if_neg (by decide), ← hmessage, Mem.take_read (by decide)]

end

section

variable {m m' : Blocks} {a a' : Nat} {bytes : List UInt8} {b : FMFormatBody} {f : FMField}

theorem loadUnsigned_alike
    (h : SameValue m m' b.byteReversal a a' f.fieldSize.toNatClampNeg bytes) :
    loadUnsigned (dumpDescr b f) m.bytes a =
      loadUnsigned (dumpDescr (asNative b) f) m'.bytes a' := by
  have hsize : (dumpDescr b f).size = f.fieldSize := rfl
  have hsize' : (dumpDescr (asNative b) f).size = f.fieldSize := rfl
  unfold loadUnsigned
  rw [hsize, hsize']
  by_cases h1 : f.fieldSize = 1
  · rw [h1] at h
    rw [if_pos h1, if_pos h1]
    exact h.byte
  rw [if_neg h1, if_neg h1]
  by_cases h2 : f.fieldSize = 2
  · rw [h2] at h
    rw [if_pos h2, if_pos h2]
    exact h.value
  rw [if_neg h2, if_neg h2]
  by_cases h4 : f.fieldSize = 4
  · rw [h4] at h
    rw [if_pos h4, if_pos h4]
    exact h.value
  rw [if_neg h4, if_neg h4]
  by_cases h8 : f.fieldSize = 8
  · rw [h8] at h
    rw [if_pos h8, if_pos h8]
    exact h.value
  rw [if_neg h8, if_neg h8]
  by_cases h16 : f.fieldSize = 16
  · rw [h16] at h
    rw [if_pos h16, if_pos h16]
    exact h.half
  rw [if_neg h16, if_neg h16]

end

/-- The range of a getter is in that of the field. -/
theorem covers_integerRange {m : Blocks} {field : FMgetField} {a : Nat}
    (h : m.covers a field.size.toNatClampNeg = true) :
    m.covers (integerRange field a).1 (integerRange field a).2 = true := by
  unfold integerRange
  by_cases hsize : field.size = 1 ∨ field.size = 2 ∨ field.size = 4 ∨ field.size = 8
  · rw [if_pos hsize]
    exact h
  · rw [if_neg hsize]
    by_cases hwide : field.size = 16
    · have hn : field.size.toNatClampNeg = 16 := by rw [hwide]; rfl
      rw [hn] at h
      rw [if_pos hwide, lowHalf]
      refine Blocks.covers_sub h ?_ ?_
      · split <;> omega
      · split <;> omega
    · rw [if_neg hwide]
      rfl

theorem getInteger_eq {α : Type} (get : FMgetField → Mem → Nat → α) {m : Blocks}
    {field : FMgetField} {a : Nat} (h : m.covers a field.size.toNatClampNeg = true) :
    getInteger get m field a = some (get field m.bytes a) :=
  if_pos (covers_integerRange h)

theorem unsigned_toInt {x : Int32} (h : 0 < x) : unsigned 8 x.toInt = x.toNatClampNeg := by
  have hle : (0 : Int32) ≤ x := Int32.le_of_lt h
  have hlt := x.toNatClampNeg_lt
  rw [← Int32.cast_toNatClampNeg x hle, unsigned_natCast, Nat.mod_eq_of_lt (by omega)]

theorem le_of_not_lt {x : Int32} (h : ¬ 8 < x) : x.toNatClampNeg ≤ 8 := by
  have hle : x.toInt ≤ 8 := by
    rw [Int32.lt_iff_toInt_lt] at h
    exact Int.not_lt.mp h
  rw [← Int32.toNat_toInt]
  omega

theorem eq_of_toNat {x : Int32} (hx : 0 < x) {k : Nat} (hk : k < 2 ^ 31)
    (h : x.toNatClampNeg = k) : x = Int32.ofNat k := by
  have hle : (0 : Int32) ≤ x := Int32.le_of_lt hx
  apply Int32.toInt_inj.mp
  rw [← Int32.cast_toNatClampNeg x hle, h, Int32.toInt_ofNat_of_lt hk]

section

variable {d : DecodedMessage} {p : Place} {f : FMField}

/-- Both getters have the same integer. -/
theorem getInteger_alike {α : Type} {get : FMgetField → Mem → Nat → α} {m m' : Blocks} {a a' : Nat}
    {b : FMFormatBody} {bytes : List UInt8}
    (h : SameValue m m' b.byteReversal a a' f.fieldSize.toNatClampNeg bytes)
    (hget : get (dumpDescr b f) m.bytes a = get (dumpDescr (asNative b) f) m'.bytes a') :
    ∃ v, getInteger get m (dumpDescr b f) a = some v ∧
      getInteger get m' (dumpDescr (asNative b) f) a' = some v := by
  refine ⟨_, getInteger_eq get (covers_of_load h.message), ?_⟩
  rw [hget]
  exact getInteger_eq get (covers_of_load h.native)

theorem head_of_load {m : Blocks} {a n : Nat} {bytes : List UInt8} (h : m.load a n = some bytes)
    (hn : 0 < n) : m.load a 1 = some (bytes.take 1) := by
  refine Blocks.load_eq_some_iff.mpr
    ⟨Blocks.covers_sub (covers_of_load h) (Nat.le_refl a) (by omega), ?_⟩
  rw [← read_of_load h, Mem.take_read hn]

/-- A simple value prints alike. -/
theorem sdumpValue_alike (text : List UInt8 → FloatText)
    (longText longText' : List UInt8 → FloatText) (hsound : d.SimpleSound p f)
    (hprint : ¬ DecodedMessage.Unprintable p f) :
    ∃ v, sdumpValue (d.messageContext ⟨text, longText⟩) p.body f p.message = some v ∧
      sdumpValue (d.recordContext ⟨text, longText'⟩) (asNative p.body) f p.native = some v ∧
      Numeric v := by
  obtain ⟨hknown, hstring, hpos, bytes, hmessage, hnative⟩ := hsound
  have hsize := unsigned_toInt hpos
  have hsizePos : 0 < f.fieldSize.toNatClampNeg := by
    rw [← Int32.toNat_toInt]
    have h := Int32.lt_iff_toInt_lt.mp hpos
    have hzero : (0 : Int32).toInt = 0 := rfl
    omega
  -- but for a float, the bytes are those of the message or the same in the other order
  have hsame : (arrayStrToDataType f.fieldType.bytes).1 ≠ .floatType →
      SameValue d.message d.native p.body.byteReversal p.message p.native
        f.fieldSize.toNatClampNeg bytes := fun hfloat =>
    ⟨hmessage, by rw [hnative, decodedBytes, if_neg fun h => hfloat h.1]⟩
  unfold sdumpValue
  unfold DecodedMessage.Unprintable at hprint
  dsimp only
  rw [hsize]
  cases htype : (arrayStrToDataType f.fieldType.bytes).1 with
  | unknownType => exact absurd htype hknown
  | stringType => exact absurd htype hstring
  | integerType =>
    simp only [htype] at hprint ⊢
    have hle := le_of_not_lt hprint
    have halike := hsame (by rw [htype]; decide)
    obtain ⟨v, hv, hv'⟩ :=
      getInteger_alike halike (loadInteger_congr rfl (loadUnsigned_alike halike))
    refine ⟨.integer f.fieldSize.toNatClampNeg (Int64.ofInt v), ?_, ?_, hle⟩
    · rw [if_pos hle]
      exact congrArg (Option.map _) hv
    · rw [if_pos hle]
      exact congrArg (Option.map _) hv'
  | unsignedType =>
    simp only [htype] at hprint ⊢
    have hle := le_of_not_lt hprint
    have halike := hsame (by rw [htype]; decide)
    obtain ⟨v, hv, hv'⟩ := getInteger_alike halike (loadUnsigned_alike halike)
    refine ⟨.unsigned f.fieldSize.toNatClampNeg (UInt64.ofNat v), ?_, ?_, hle⟩
    · rw [if_pos hle]
      exact congrArg (Option.map _) hv
    · rw [if_pos hle]
      exact congrArg (Option.map _) hv'
  | enumerationType =>
    have halike := hsame (by rw [htype]; decide)
    obtain ⟨v, hv, hv'⟩ := getInteger_alike halike (loadUnsigned_alike halike)
    exact ⟨.enumeration (UInt64.ofNat v), congrArg (Option.map _) hv, congrArg (Option.map _) hv',
      trivial⟩
  | booleanType =>
    have halike := hsame (by rw [htype]; decide)
    obtain ⟨v, hv, hv'⟩ := getInteger_alike halike (loadUnsigned_alike halike)
    exact ⟨.boolean (UInt64.ofNat v), congrArg (Option.map _) hv, congrArg (Option.map _) hv',
      trivial⟩
  | charType =>
    simp only [htype] at hprint
    have halike := hsame (by rw [htype]; decide)
    have hfirst := head_of_load halike.message hsizePos
    have hfirst' := head_of_load halike.native hsizePos
    refine ⟨.char ((bytes.take 1).headD 0), congrArg (Option.map _) hfirst, ?_, trivial⟩
    refine (congrArg (Option.map _) hfirst').trans ?_
    cases hrev : p.body.byteReversal with
    | false => rfl
    | true =>
      have hone : f.fieldSize = 1 := by
        by_contra hne
        exact hprint ⟨hrev, hne⟩
      have hlength := Blocks.length_of_load hmessage
      rw [hone] at hlength
      rw [if_pos rfl, reverse_of_length_one hlength]
      rfl
  | floatType =>
    simp only [htype] at hprint hnative ⊢
    have hwide : f.fieldSize.toNatClampNeg ≠ 16 := fun h =>
      hprint (eq_of_toNat hpos (by decide) h)
    by_cases hfloat : f.fieldSize.toNatClampNeg = 4 ∨ f.fieldSize.toNatClampNeg = 8
    · rw [if_pos hfloat, if_pos hfloat]
      have hhost : hostFloat (dumpDescr (asNative p.body) f)
          (decodedBytes p.body .floatType bytes) = hostFloat (dumpDescr p.body f) bytes := by
        have hlength := Blocks.length_of_load hmessage
        unfold hostFloat decodedBytes
        show (if f.fieldSize = 4 then _ else _) = (if f.fieldSize = 4 then _ else _)
        rcases hfloat with h4 | h8
        · have hfour : f.fieldSize = 4 := eq_of_toNat hpos (by decide) h4
          have hshort : ¬ (FMDataType.floatType = .floatType ∧ bytes.length = 8) := by omega
          rw [if_pos hfour, if_pos hfour, if_neg hshort]
          rfl
        · have height : f.fieldSize = 8 := eq_of_toNat hpos (by decide) h8
          have hne : ¬ f.fieldSize = 4 := by rw [height]; decide
          rw [if_neg hne, if_neg hne, if_pos ⟨rfl, by omega⟩]
          rfl
      refine ⟨_, congrArg (Option.map _) hmessage, ?_, trivial⟩
      refine (congrArg (Option.map _) hnative).trans ?_
      exact congrArg (fun bytes => some (SimpleValue.float _ (text bytes))) hhost
    · rw [if_neg hfloat, if_neg hfloat, if_neg hwide, if_neg hwide]
      exact ⟨_, rfl, rfl, trivial⟩

end

end RecordDump
end FFS
