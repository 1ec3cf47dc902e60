import Mathlib.Data.List.Sort
import FFS.FM.TypeString
import FFS.Machine.Flags
import FFS.Machine.PostOrder

/-!
# Formats and their registration

`registerFormats` is the part of `register_data_format` that turns a struct list into a
top format and its subformats: it copies and sorts the fields, derives what their types
say (`generateVarList`), orders the formats (`topoOrderSubformats`), sets alignments and
rejects lists whose fields do not fit.  A format refers to another by its place in the
list `top :: subformats`.
-/

namespace FFS

open Machine

/-- The size of a pointer on the host. -/
def sizeofPointer : Nat := 8

/- `FMfloat_format` -/
def formatUnknown : Nat := 0
def formatIEEE754Bigendian : Nat := 1
def formatIEEE754Littleendian : Nat := 2

/-- `fm_my_float_format` -/
def fmMyFloatFormat : Nat := formatIEEE754Littleendian

/-- A block of optional information.  The list of blocks ends at type 0, and the length of
a block is an `int`. -/
structure FMOptInfo where
  infoType : Int32
  infoBlock : List UInt8
  typeNe : infoType ≠ 0
  lenLt : infoBlock.length < 2 ^ 31
deriving DecidableEq

structure FMStructDesc where
  formatName : CString
  fieldList : List FMField
  structSize : Int32
  optInfo : List FMOptInfo
deriving DecidableEq

structure FMDimen where
  staticSize : Int
  controlFieldIndex : Int
deriving DecidableEq

structure FMVarInfo where
  string : Bool
  varArray : Bool
  byteVector : Bool
  dataType : FMDataType
  dimens : List FMDimen
  typeDesc : List FMTypeDesc
deriving DecidableEq

structure FMFormatBody where
  formatName : CString
  recordLength : Int32
  byteReversal : Bool
  floatFormat : Nat
  pointerSize : Nat
  ioVersion : Nat
  fieldList : List FMField
  optInfo : List FMOptInfo
  alignment : Nat
  columnMajorArrays : Bool
  variant : Bool
  recursive : Bool
  varList : List FMVarInfo
  fieldSubformats : List (Option Nat)
deriving DecidableEq

structure FMFormat where
  top : FMFormatBody
  subformats : List FMFormatBody
deriving DecidableEq

def FMFormat.bodies (f : FMFormat) : List FMFormatBody := f.top :: f.subformats

/-! ## Copying the fields -/

/-- The size a field takes in its record, as `validate_and_copy_field_list` reckons it, and
whether it is made of plain strings.  `none` rejects the field. -/
def fieldExtent (f : FMField) : Option (Int32 × Bool) :=
  let typ := f.fieldType.bytes
  let pointer : Int32 := Int32.ofNat sizeofPointer
  if typ.contains (chr '[') then
    if isVarArrayField typ || typ.contains (chr '*') then some (pointer, false)
    else
      let (baseType, elements) := arrayStrToDataType typ
      let size := Int32.ofInt (f.fieldSize.toInt * elements)
      if size ≤ 0 then none else some (size, baseType = .stringType)
  else if typ.contains (chr '*') then some (pointer, false)
  else some (f.fieldSize, strToDataType typ = .stringType)

/-- The type names and dimension names that fit in the buffers of 1024 bytes they are copied
to.  The C code writes past the buffer for the others. -/
def fitsBuffers (typ : List UInt8) : Bool :=
  !typ.contains (chr '[') ||
    ((typ.takeWhile (· ≠ chr '[')).length < 1024 &&
      (List.range (typ.count (chr '['))).all fun dimen =>
        match nthParen dimen typ with
        | none => true
        | some leftParen =>
          (strtol 0 leftParen.tail).2.length < leftParen.tail.length ||
            (leftParen.tail.takeWhile (· ≠ chr ']')).length < 1024)

/-- `field_name_strip_default` -/
def stripDefault (ignoreDefaultValues : Bool) (name : CString) : CString :=
  if ignoreDefaultValues then name else name.takeWhile (· ≠ chr '(')

def fieldOffsetLe (a b : FMField) : Bool := a.fieldOffset - b.fieldOffset ≤ 0

/-- The loop of `validate_and_copy_field_list`: the copies and the record length. -/
def copyFields (ignoreDefaultValues : Bool) : Int32 → List FMField → Option (List FMField × Int32)
  | recordLength, [] => some ([], recordLength)
  | recordLength, f :: fs => do
    guard (fitsBuffers f.fieldType.bytes)
    let (size, simpleString) ← fieldExtent f
    let fieldEnd := f.fieldOffset + size
    let recordLength := if recordLength < fieldEnd then fieldEnd else recordLength
    let copy : FMField := { f with
      fieldName := stripDefault ignoreDefaultValues f.fieldName,
      fieldSize := if simpleString then Int32.ofNat sizeofPointer else f.fieldSize }
    let (copies, recordLength) ← copyFields ignoreDefaultValues recordLength fs
    return (copy :: copies, recordLength)

def validateAndCopyFieldList (ignoreDefaultValues : Bool) (structSize : Int32)
    (fields : List FMField) : Option (List FMField × Int32) := do
  let (copies, recordLength) ← copyFields ignoreDefaultValues structSize fields
  return (copies.insertionSort (fun a b => fieldOffsetLe a b), recordLength)

/-- A format with nothing derived yet.  `none` where its fields are not copied, or a type overruns
its buffer: there the C code goes on to free a format whose `field_count` it never set. -/
def newFormat (columnMajor ignoreDefaultValues : Bool) (s : FMStructDesc) :
    Option FMFormatBody := do
  let (fieldList, recordLength) ←
    validateAndCopyFieldList ignoreDefaultValues s.structSize s.fieldList
  return { formatName := s.formatName, recordLength, byteReversal := false,
           floatFormat := fmMyFloatFormat, pointerSize := sizeofPointer, ioVersion := 4,
           fieldList, optInfo := s.optInfo, alignment := 0, columnMajorArrays := columnMajor,
           variant := false, recursive := false, varList := [], fieldSubformats := [] }

/-! ## Deriving what the types say -/

/-- The dimensions of a field, up to the first that `IOget_array_size_dimen` does not
find. -/
def genDimens (fields : List FMField) (field : Nat) (typ : List UInt8) : List FMDimen :=
  let sizes := (List.range (typ.count (chr '['))).map fun dimen =>
    getArraySizeDimen typ fields dimen field
  (sizes.takeWhile (·.1 ≠ 0)).map fun (staticSize, control) =>
    if control ≠ -1 then { staticSize := 0, controlFieldIndex := control }
    else { staticSize, controlFieldIndex := -1 }

/-- The last link of a chain becomes the string or the subformat it stands for.  The link
before it notes that the subformat is recursive. -/
def closeTypeDesc (field : Nat) (dataType : FMDataType) (subformat : Option Bool) :
    List FMTypeDesc → List FMTypeDesc
  | [] => []
  | [element] =>
    if dataType = .stringType then [{ element with type := .string }]
    else if subformat.isSome then [{ element with type := .subformat, fieldIndex := field }]
    else [element]
  | [last, element] =>
    let recursive := dataType ≠ .stringType ∧ subformat = some true
    { last with pointerRecursive := last.pointerRecursive + if recursive then 1 else 0 }
      :: closeTypeDesc field dataType subformat [element]
  | desc :: descs => desc :: closeTypeDesc field dataType subformat descs

/-- The chain of type descriptors of a field before its last link is closed. -/
def typeChain (fields : List FMField) (field : Nat) (typ : List UInt8) :
    Option (List FMTypeDesc) :=
  if !typ.contains (chr '*') && !typ.contains (chr '[') then
    some [{ FMTypeDesc.new .simple with fieldIndex := field, dataType := strToDataType typ }]
  else genTypeDesc fields field (typ.length + 1) typ

/-- What is noted about a field, given its chain and the recursive flag of its subformat. -/
def varInfo (fields : List FMField) (field : Nat) (typ : List UInt8) (subformat : Option Bool)
    (chain : List FMTypeDesc) : FMVarInfo :=
  let dataType := (arrayStrToDataType typ).1
  let dimens := genDimens fields field typ
  { string := dataType = .stringType,
    varArray := dimens.any (·.controlFieldIndex ≠ -1),
    byteVector := dataType = .unknownType ∧ baseDataType typ = chars
      ['I', 'O', 'E', 'n', 'c', 'o', 'd', 'e', 'E', 'l', 'e', 'm'],
    dataType, dimens, typeDesc := closeTypeDesc field dataType subformat chain }

/-- `gen_var_dimens`.  The second component tells whether the field makes its format
variant. -/
def genVarDimens (fields : List FMField) (field : Nat) (typ : List UInt8)
    (subformat : Option Bool) : Option (FMVarInfo × Bool) := do
  let chain ← typeChain fields field typ
  let var := varInfo fields field typ subformat chain
  return (var, var.varArray || chain.dropLast.any (·.type = .pointer))

/-- Whether the format numbered `i` has a name. -/
def named (formats : List FMFormatBody) (name : List UInt8) (i : Nat) : Bool :=
  formats[i]?.any (·.formatName.bytes = name)

/-- The last candidate of a name. -/
def lastNamed (formats : List FMFormatBody) (candidates : List Nat) (name : List UInt8) :
    Option Nat :=
  candidates.reverse.find? (named formats name)

/-- The format a field's base type names.  The format itself comes first, then the last
candidate of that name. -/
def lookupSubformat (formats : List FMFormatBody) (candidates : List Nat) (self : Nat)
    (base : List UInt8) : Option Nat :=
  if named formats base self then some self else lastNamed formats candidates base

/-- The flags of a format that another one asks about. -/
def formatFlags (formats : List FMFormatBody) (i : Nat) : Bool × Bool :=
  match formats[i]? with
  | some f => (f.variant, f.recursive)
  | none => (false, false)

/-- The subformat of a field, none for a field of a simple type.  An unknown name rejects the
format. -/
def fieldSubformat (formats : List FMFormatBody) (candidates : List Nat) (self : Nat)
    (typ : List UInt8) : Option (Option Nat) :=
  if (arrayStrToDataType typ).1 = .unknownType then
    (lookupSubformat formats candidates self (baseDataType typ)).map some
  else some none

/-- The flags a field takes over from its subformat.  A format that refers to itself is
recursive and variant from there on. -/
def subformatFlags (formats : List FMFormatBody) (self : Nat) : Option Nat → Bool × Bool
  | none => (false, false)
  | some i => if i = self then (true, true) else formatFlags formats i

/-- What one round of `generate_var_list` finds for a field: the entries of the two lists
and whether the field makes its format variant and recursive. -/
structure GeneratedVar where
  var : FMVarInfo
  subformat : Option Nat
  variant : Bool
  recursive : Bool

/-- One round of `generate_var_list` for the format numbered `self`.  A round reads nothing
that the rounds before it wrote, a format that refers to itself being flagged by then. -/
def generateVar (formats : List FMFormatBody) (candidates : List Nat) (self : Nat)
    (fields : List FMField) (fmField : FMField) (field : Nat) : Option GeneratedVar := do
  let typ := fmField.fieldType.bytes
  let subformat ← fieldSubformat formats candidates self typ
  let flags := subformatFlags formats self subformat
  let (var, varies) ← genVarDimens fields field typ (subformat.map fun _ => flags.2)
  return { var, subformat, variant := var.string || flags.1 || varies, recursive := flags.2 }

def FMFormatBody.withVars (f : FMFormatBody) (vars : List GeneratedVar) : FMFormatBody :=
  { f with
    variant := f.variant || vars.any (·.variant), recursive := f.recursive || vars.any (·.recursive),
    varList := vars.map (·.var), fieldSubformats := vars.map (·.subformat) }

/-- `generate_var_list` for the format `f`, which is numbered `self`. -/
def generateVarList (candidates : List Nat) (formats : List FMFormatBody) (self : Nat)
    (f : FMFormatBody) : Option FMFormatBody := do
  let vars ← f.fieldList.zipIdx.mapM fun (fmField, field) =>
    generateVar formats candidates self f.fieldList fmField field
  return f.withVars vars

/-! ## The order of the subformats -/

def subformatNameLe (formats : List FMFormatBody) (i j : Nat) : Bool :=
  match formats[i]?, formats[j]? with
  | some f, some g => strLe f.formatName.bytes g.formatName.bytes
  | _, _ => true

/-- The subformats of a format's fields, by name (`compare_by_name_FMFormat`). -/
def sortedSubformats (formats : List FMFormatBody) (f : FMFormatBody) : List Nat :=
  (f.fieldSubformats.filterMap id).insertionSort fun i j => subformatNameLe formats i j

/-- What `add_format` visits next from a format. -/
def formatSuccs (formats : List FMFormatBody) (i : Nat) : List Nat :=
  match formats[i]? with
  | some f => sortedSubformats formats f
  | none => []

/-- `topo_order_subformats`: the formats in their new order, the top format first.  Formats
that the top does not lead to are dropped.  `add_format` is the walk of `postOrder`. -/
def topoOrderSubformats (formats : List FMFormatBody) : List Nat :=
  (postOrder (formatSuccs formats) (formats.length + 1) 0).reverse

/-- The formats in a new order, their references renumbered. -/
def reorder (formats : List FMFormatBody) (order : List Nat) : List FMFormatBody :=
  order.filterMap fun i => formats[i]?.map fun f =>
    { f with fieldSubformats := f.fieldSubformats.map fun sub => sub.bind (order.idxOf? ·) }

/-! ## Alignment -/

/-- `size < bytes` in C, where the `int` is compared as a `size_t`. -/
def sizeBelow (size : Int32) (bytes : Nat) : Bool := 0 ≤ size.toInt && size.toInt < bytes

/-- The alignment of an integer of a given size. -/
def integerAlignment (size : Int32) : Int :=
  if size = -1 then -1 else if size = 1 then 1 else if sizeBelow size 4 then 2
  else if sizeBelow size 8 then 4 else 8

def floatAlignment (size : Int32) : Int :=
  if size = -1 then -1 else if sizeBelow size 4 then size.toInt else if sizeBelow size 8 then 4
  else if sizeBelow size 16 then 8 else 16

/-- The alignment of a simple type, none at the assertion. -/
def simpleAlignment (size : Int32) : FMDataType → Option Int
  | .integerType | .unsignedType | .enumerationType | .booleanType | .charType =>
    some (integerAlignment size)
  | .floatType => some (floatAlignment size)
  | .unknownType | .stringType => none

/-- `type_alignment` along a chain, `subAlignment` being the alignment of the subformat, which
is asserted not to be 0. -/
def typeAlignment (size : Int32) (subAlignment : Option Nat) : List FMTypeDesc → Option Int
  | [] => some (-1)
  | desc :: descs =>
    match desc.type with
    | .pointer | .string => some sizeofPointer
    | .array => typeAlignment size subAlignment descs
    | .subformat => (subAlignment.filter (· ≠ 0)).map Int.ofNat
    | .simple => simpleAlignment size desc.dataType

def fieldAlignments (formats : List FMFormatBody) (f : FMFormatBody) : Option (List Int) :=
  (List.range f.fieldList.length).mapM fun field => do
    let fmField ← f.fieldList[field]?
    let var ← f.varList[field]?
    let subformat ← f.fieldSubformats[field]?
    typeAlignment fmField.fieldSize (subformat.bind fun i => formats[i]?.map (·.alignment))
      var.typeDesc

/-- `set_alignment` for the format numbered `i`. -/
def setAlignment (formats : List FMFormatBody) (i : Nat) : Option (List FMFormatBody) := do
  let f ← formats[i]?
  if f.alignment ≠ 0 then return formats
  else
    let alignments ← fieldAlignments formats f
    let alignment := alignments.foldl max 0
    return formats.set i { f with alignment := alignment.toNat }

/-! ## Variant flags and the checks -/

/-- A format becomes variant when one of its subformats is. -/
def bubbleVariant (formats : List FMFormatBody) (i : Nat) : List FMFormatBody :=
  match formats[i]? with
  | none => formats
  | some f =>
    let below := (f.fieldSubformats.filterMap id).any fun j => (formatFlags formats j).1
    formats.set i { f with variant := f.variant || below }

/-- The flags bubble up, as many times over all formats as there are formats. -/
def bubbleVariants (formats : List FMFormatBody) (count : Nat) : List FMFormatBody :=
  let once formats := (List.range count).foldl bubbleVariant formats
  (List.range count).foldl (fun formats _ => once formats) formats

/-- The end of the last field, or `none` if a field overlaps the one before or is smaller
than the record of its subformat. -/
def lastFieldEnd (formats : List FMFormatBody) :
    Int32 → List (FMField × FMVarInfo × Option Nat) → Option Int32
  | fieldEnd, [] => some fieldEnd
  | fieldEnd, (f, var, subformat) :: rest =>
    let recordLength := subformat.bind fun i => formats[i]?.map (·.recordLength)
    if recordLength.any (f.fieldSize < ·) then none
    else if f.fieldOffset < fieldEnd then none
    else
      let isPointer := var.varArray || (var.typeDesc.head?.map (·.type)) = some .pointer
      let size := if isPointer then Int32.ofNat sizeofPointer else f.fieldSize
      lastFieldEnd formats (f.fieldOffset + size) rest

def fieldsFit (formats : List FMFormatBody) (f : FMFormatBody) : Bool :=
  match lastFieldEnd formats 0 (f.fieldList.zip (f.varList.zip f.fieldSubformats)) with
  | none => false
  | some fieldEnd => !(f.recordLength < fieldEnd)

/-- The arrays of `topo_order_subformats` have room for this many formats and an end. -/
def topoArraySize : Nat := 100

/-- `register_data_format` up to the building of the representation.  `none` when the list
is rejected or the C code does not return. -/
def registerFormats (columnMajor ignoreDefaultValues : Bool) (structList : List FMStructDesc) :
    Option FMFormat := do
  let formats ← structList.mapM (newFormat columnMajor ignoreDefaultValues)
  let all := List.range formats.length
  let formats ← pass (generateVarList all) formats all.reverse
  let order := topoOrderSubformats formats
  guard (order.length < topoArraySize)
  let formats := reorder formats order
  let formats ← (List.range formats.length).reverse.foldlM setAlignment formats
  let formats := bubbleVariants formats formats.length
  guard (formats.all (fieldsFit formats))
  match formats with
  | [] => none
  | top :: subformats => return { top, subformats }

/-! ## Flat fields -/

/-- `field_is_flat` -/
def fieldIsFlat (formats : List FMFormatBody) (format : FMFormatBody) :
    List FMTypeDesc → Option Bool
  | [] => none
  | desc :: descs =>
    match desc.type with
    | .pointer | .string => some false
    | .array => fieldIsFlat formats format descs
    | .subformat => do
      let sub ← format.fieldSubformats[desc.fieldIndex]?
      return !(← formats[← sub]?).variant
    | .simple => some true

end FFS
