import FFS.Convert.Compat

/-!
# Building a conversion

`createConversion` pairs each field of a target with a field of the source and decides how
much of a record has to be moved before it is converted.  It starts over with a
more careful plan when a field cannot be done as planned.  The conversion of a field of a
subformat is built the same way, one that refers to the format itself reuses the conversion
that is being built.  `none` is the C code not returning or leaving what C defines, `some none`
is its `NULL`.
-/

namespace FFS

open Machine

/-- `IOconversion_type` -/
inductive ConversionType where
  | noneRequired
  | directToMem
  | bufferAndConvert
  | copyDynamicPortion
deriving DecidableEq, Repr

/-- `FMgetFieldStruct` -/
structure FMgetField where
  offset : Int32
  size : Int32
  dataType : FMDataType
  byteSwap : Bool
  srcFloatFormat : Nat
  targetFloatFormat : Nat
deriving DecidableEq

/-- `row_column_swap_type` -/
inductive RowColumnSwap where
  | noRowColumnSwap
  | swapSourceColumnMajor
  | swapSourceRowMajor
deriving DecidableEq, Repr

/-- `IOconvFieldStruct` but for its subconversion. -/
structure IOconvField where
  srcField : FMgetField
  iovar : FMVarInfo
  destOffset : Int32
  destSize : Int32
  rcSwap : RowColumnSwap
deriving DecidableEq

/-- A quotient of sizes, infinite over 0. -/
structure Expansion where
  num : Int
  den : Int
deriving DecidableEq, Repr

/-- `IOConversionStruct` but for its fields, `ioformat` being the number of the source format. -/
structure ConversionBase where
  conversionType : ConversionType
  ioformat : Nat
  nativeFieldList : List FMField
  baseSizeDelta : Int
  maxVarExpansion : Expansion
  targetPointerSize : Nat
  stringOffsetSize : Int
  convertedStrings : Bool
deriving DecidableEq

/-- A subconversion is another conversion or the one it belongs to. -/
inductive Subconversion where
  | absent
  | itself
  | conversion (base : ConversionBase) (conversions : List (IOconvField × Subconversion))

def Subconversion.isItself : Subconversion → Bool
  | .itself => true
  | _ => false

structure IOConversion where
  base : ConversionBase
  conversions : List (IOconvField × Subconversion)

def IOConversion.toSubconversion (conv : IOConversion) : Subconversion :=
  .conversion conv.base conv.conversions

/-- What stays the same through all levels of a conversion.  `current` is the type of the
conversion that the source has already, and `strToVal` reads the text of a default value. -/
structure ConversionSetup where
  source : FMFormat
  current : Option ConversionType
  targetList : List FMStructDesc
  pointerSize : Nat
  byteReversal : Bool
  targetFpFormat : Nat
  targetColumnMajor : Bool
  stringOffsetSize : Int
  convertedStrings : Bool
  ignoreDefaultValues : Bool
  strToVal : List UInt8 → FMDataType → Int32 → Option (List UInt8)

/-- The format a field refers to, as the handles have it.  The handles of subformats only know
other subformats. -/
def fieldHandle (format : FMFormatBody) (i inputIndex : Nat) : Option Nat :=
  (format.fieldSubformats[inputIndex]?.bind id).filter fun sub => i = 0 ∨ sub ≠ 0

/-! ## Pairing the fields -/

/-- `find_field_for_conv`, which looks at the field of the same number and its neighbours
first, without asking how many there are. -/
def findFieldForConv (name : List UInt8) (fields : List FMField) (curField : Nat) :
    Option (Option Nat) := do
  guard (curField ≤ 10 ∨ curField < fields.length)
  let near := (List.range 10).map (curField - ·) ++ (List.range 9).map (curField + 1 + ·)
  let order := (if 10 < curField then near else []) ++ List.range fields.length
  return order.find? fun i => fields[i]?.any (·.fieldName.bytes = name)

/-- A target field, the source field it is paired with and what their types say. -/
structure PairedField where
  target : FMField
  inputIndex : Nat
  input : FMField
  var : FMVarInfo
  multiDimenArray : Bool

/-- The number of elements, 1 for a variable array. -/
def fieldElements (f : FMField) : Int :=
  let count := (arrayStrToDataType f.fieldType.bytes).2
  if count = -1 then 1 else count

def fieldDataType (f : FMField) : FMDataType := (arrayStrToDataType f.fieldType.bytes).1

def pairField (format : FMFormatBody) (target : FMField) (inputIndex : Nat) :
    Option PairedField := do
  let input ← format.fieldList[inputIndex]?
  let var ← format.varList[inputIndex]?
  return { target, inputIndex, input, var,
           multiDimenArray := (arrayStrToDataType input.fieldType.bytes).2 ≠ 1 ∧
             1 < input.fieldType.bytes.count (chr '[') }

namespace PairedField

variable (p : PairedField)

def isPointer : Bool := p.var.typeDesc.head?.any (·.type = .pointer)

/-- Whether the field has a part behind the record. -/
def isDynamic : Bool := p.var.varArray || p.isPointer

def sameSize : Bool := p.target.fieldSize = p.input.fieldSize

def sameType : Bool :=
  fieldElements p.input = fieldElements p.target ∧ fieldDataType p.input = fieldDataType p.target

end PairedField

/-! ## Planning one field -/

/-- What the `switch` on the plan does with a field. -/
inductive FieldPlan where
  | restart (conv : ConversionType)
  | skip
  | convert (conv : ConversionType)
deriving DecidableEq, Repr

/-- The plan for a record that has a field to convert. -/
def ConversionType.converting : ConversionType → ConversionType
  | .noneRequired => .directToMem
  | conv => conv

/-- The case `buffer_and_convert`, into which the cases before it fall. -/
def bufferPlan (p : PairedField) (conv : ConversionType) : FieldPlan :=
  if p.isDynamic && !p.sameSize then .restart .copyDynamicPortion else .convert conv

/-- `min_align_size` -/
def minAlignSize (size : Int) : Int :=
  if size = 4 ∨ size = 5 ∨ size = 6 ∨ size = 7 then 4 else if size = 3 then 2
  else if size = 1 ∨ size = 2 then size else 8

/-- The larger of what was there and the expansion of a field. -/
def Expansion.grow (max : Expansion) (p : PairedField) : Expansion :=
  if p.isDynamic then
    let localSize := p.target.fieldSize.toInt + minAlignSize p.target.fieldSize.toInt
    let inputSize := p.input.fieldSize.toInt
    let expansion : Expansion :=
      if inputSize < 0 then ⟨-localSize, -inputSize⟩ else ⟨localSize, inputSize⟩
    if max.num * expansion.den < expansion.num * max.den then expansion else max
  else max

/-! ## What a pass has -/

/-- What a pass has so far. -/
structure PassState where
  conv : ConversionType
  maxVarExpansion : Expansion
  conversions : List (IOconvField × Subconversion)

inductive PassResult where
  | failed
  | restart (conv : ConversionType) (maxVarExpansion : Expansion)
  | done (state : PassState)

/-- Starting over frees the subconversions.  One that is the conversion itself is freed with
them and used afterwards. -/
def restartFrom (state : PassState) (conv : ConversionType) : Option PassResult :=
  if state.conversions.any (·.2.isItself) then none
  else some (.restart conv state.maxVarExpansion)

namespace ConversionSetup

variable (setup : ConversionSetup)

/-! ## The plan of a field -/

/-- `field_name_strip_get_default`: the name and the default value.  128 bytes are copied, to a
buffer of the length of the name. -/
def fieldNameStripGetDefault (f : FMField) : Option (List UInt8 × Option (List UInt8)) := do
  guard (128 ≤ f.fieldName.length)
  let copy := f.fieldName.bytes.take 128
  let marked ← strchr copy (chr '(')
  guard (marked.contains (chr ')'))
  let text := marked.tail.takeWhile (· ≠ chr ')')
  let dataType := strToDataType (baseDataType f.fieldType.bytes)
  let value := if text.isEmpty then none else setup.strToVal text dataType f.fieldSize
  return (copy.takeWhile (· ≠ chr '('), value)

/-- The name a target field is searched by and its default value. -/
def searchName (f : FMField) : Option (List UInt8 × Option (List UInt8)) :=
  if f.fieldName.bytes.contains (chr '(') && !setup.ignoreDefaultValues then
    setup.fieldNameStripGetDefault f
  else some (f.fieldName.bytes, none)

def columnRowSwapNecessary (format : FMFormatBody) : Bool :=
  setup.targetColumnMajor != format.columnMajorArrays

def fpFormat : Nat :=
  if setup.targetFpFormat = formatUnknown then fmMyFloatFormat else setup.targetFpFormat

/-- Whether the bytes of a field can stay as they are. -/
def nothingToDo (format : FMFormatBody) (p : PairedField) : Option Bool :=
  if p.sameType && fieldDataType p.input ≠ .unknownType && !setup.byteReversal &&
      (fieldDataType p.input ≠ .floatType || setup.fpFormat = format.floatFormat) then do
    return (← fieldIsFlat setup.source.bodies format p.var.typeDesc) &&
      (!setup.columnRowSwapNecessary format || !p.multiDimenArray) && p.sameSize
  else some false

/-- The conversion that the format of an inline field has already.  Only the format itself can
have one. -/
def inlineConversion (format : FMFormatBody) (i : Nat) (p : PairedField) : Option ConversionType :=
  if fieldDataType p.input = .unknownType && !p.isDynamic &&
      fieldHandle format i p.inputIndex = some 0 then setup.current
  else none

/-- The cases `none_required` and `direct_to_mem`. -/
def directPlan (format : FMFormatBody) (i : Nat) (p : PairedField) (conv : ConversionType) :
    Option FieldPlan := do
  if p.target.fieldOffset ≠ p.input.fieldOffset then return .restart .bufferAndConvert
  if ← setup.nothingToDo format p then return .skip
  if fieldElements p.input ≠ 1 && !p.sameSize then return .restart .bufferAndConvert
  if setup.columnRowSwapNecessary format && p.multiDimenArray then
    return .restart .copyDynamicPortion
  match setup.inlineConversion format i p with
  | some .copyDynamicPortion => none
  | some .bufferAndConvert => return .restart .bufferAndConvert
  | some .directToMem => return bufferPlan p .directToMem
  | some .noneRequired => return .skip
  | none => return bufferPlan p conv

def fieldPlan (format : FMFormatBody) (i : Nat) (p : PairedField) (conv : ConversionType) :
    Option FieldPlan :=
  match conv with
  | .noneRequired | .directToMem => setup.directPlan format i p conv
  | .bufferAndConvert => some (bufferPlan p conv)
  | .copyDynamicPortion => some (.convert conv)

/-! ## One pass over the fields -/

def convField (format : FMFormatBody) (p : PairedField) : IOconvField :=
  { srcField :=
      { offset := p.input.fieldOffset, size := p.input.fieldSize, dataType := fieldDataType p.input,
        byteSwap := setup.byteReversal, srcFloatFormat := format.floatFormat,
        targetFloatFormat := setup.fpFormat },
    iovar := p.var, destOffset := p.target.fieldOffset, destSize := p.target.fieldSize,
    rcSwap :=
      if setup.columnRowSwapNecessary format && p.multiDimenArray then
        if format.columnMajorArrays then .swapSourceColumnMajor else .swapSourceRowMajor
      else .noRowColumnSwap }

/-- The description of the target that has the name of a source field's base type. -/
def targetNamed (input : FMField) : Option FMStructDesc :=
  setup.targetList.find? fun desc => desc.formatName.bytes = baseDataType input.fieldType.bytes

/-- The subconversion of a field, `some none` when its format has no handle. -/
def subconversion
    (create : Nat → FMStructDesc → ConversionType → Option (Option IOConversion))
    (format : FMFormatBody) (i : Nat) (p : PairedField) (conv : ConversionType) :
    Option (Option Subconversion) :=
  if fieldDataType p.input ≠ .unknownType then some (some .absent)
  else
    match fieldHandle format i p.inputIndex with
    | none => some none
    | some sub =>
      if sub = i then some (some .itself)
      else
        match setup.targetNamed p.input with
        | none => some (some .absent)
        | some desc => do
          match ← create sub desc conv with
          | none => return some .absent
          | some subconv => return some subconv.toSubconversion

/-- The loop over the target fields, from number `k` on. -/
def pass (create : Nat → FMStructDesc → ConversionType → Option (Option IOConversion))
    (format : FMFormatBody) (i : Nat) : Nat → List FMField → PassState → Option PassResult
  | _, [], state => some (.done state)
  | k, f :: fields, state => do
    let (name, default) ← setup.searchName f
    match ← findFieldForConv name format.fieldList k with
    | none =>
      match default, state.conv with
      | none, _ => return .failed
      | some _, .bufferAndConvert | some _, .copyDynamicPortion => return .done state
      | some _, _ => restartFrom state .bufferAndConvert
    | some inputIndex =>
      let p ← pairField format f inputIndex
      match ← setup.fieldPlan format i p state.conv with
      | .restart conv => restartFrom state conv
      | .skip => pass create format i (k + 1) fields state
      | .convert conv =>
        let maxVarExpansion := state.maxVarExpansion.grow p
        if !p.sameType then return .failed
        match ← setup.subconversion create format i p conv.converting with
        | none => return .failed
        | some sub =>
          pass create format i (k + 1) fields
            { conv := conv.converting, maxVarExpansion,
              conversions := state.conversions ++ [(setup.convField format p, sub)] }

/-! ## Starting over -/

/-- The plan for a record that is longer than the one it is converted to. -/
def startPlan (longer : Bool) (conv : ConversionType) : ConversionType :=
  match longer, conv with
  | true, .noneRequired | true, .directToMem => .bufferAndConvert
  | _, conv => conv

/-- Passes are made until one goes through.  Each plan is more careful than the one before. -/
def passes (create : Nat → FMStructDesc → ConversionType → Option (Option IOConversion))
    (format : FMFormatBody) (i : Nat) (fields : List FMField) :
    Nat → ConversionType → Expansion → Option (Option PassState)
  | 0, _, _ => none
  | rounds + 1, conv, maxVarExpansion => do
    match ← setup.pass create format i 0 fields { conv, maxVarExpansion, conversions := [] } with
    | .failed => return none
    | .restart conv maxVarExpansion =>
      passes create format i fields rounds conv maxVarExpansion
    | .done state => return some state

/-- The conversion that a pass has finished. -/
def conversionOf (format : FMFormatBody) (i : Nat) (target : FMStructDesc) (state : PassState) :
    IOConversion :=
  { base :=
      { conversionType := state.conv, ioformat := i,
        nativeFieldList := target.fieldList.insertionSort fun a b => fieldOffsetLe a b,
        baseSizeDelta := target.structSize.toInt - format.recordLength.toInt,
        maxVarExpansion := state.maxVarExpansion, targetPointerSize := setup.pointerSize,
        stringOffsetSize := setup.stringOffsetSize, convertedStrings := setup.convertedStrings },
    conversions := state.conversions }

/-- `create_conversion` from the format numbered `i` of the source to a target, for formats that
are nested at most `depth` deep. -/
def createConversion : Nat → Nat → FMStructDesc → ConversionType → Option (Option IOConversion)
  | 0, _, _, _ => none
  | depth + 1, i, target, initialConversion => do
    let format ← setup.source.bodies[i]?
    let nflSort := target.fieldList.insertionSort fun a b => fieldOffsetLe a b
    let longer := decide (target.structSize < format.recordLength)
    let result ← setup.passes (createConversion depth) format i nflSort 3
      (startPlan longer initialConversion) ⟨1, 1⟩
    return result.map (setup.conversionOf format i target)

end ConversionSetup

/-! ## The conversion to a target -/

/-- One entry of `build_struct_list`. -/
def FMFormatBody.structDesc (body : FMFormatBody) : FMStructDesc :=
  { formatName := body.formatName, fieldList := body.fieldList,
    structSize := body.recordLength, optInfo := [] }

/-- `build_struct_list` -/
def buildStructList (format : FMFormat) : List FMStructDesc := format.bodies.map (·.structDesc)

/-- What `set_general_IOconversion_for_format` passes on. -/
def generalSetup (ignoreDefaultValues : Bool)
    (strToVal : List UInt8 → FMDataType → Int32 → Option (List UInt8)) (source : FMFormat)
    (current : Option ConversionType) (targetList : List FMStructDesc) : ConversionSetup :=
  let recordLength := source.top.recordLength.toInt
  { source, current, targetList, pointerSize := sizeofPointer,
    byteReversal := source.top.byteReversal, targetFpFormat := fmMyFloatFormat,
    targetColumnMajor := false, stringOffsetSize := recordLength + (8 - recordLength) % 8,
    convertedStrings := false, ignoreDefaultValues, strToVal }

/-- The plan that `set_general_IOconversion_for_format` begins with. -/
def initialPlan (source : FMFormat) : ConversionType :=
  if source.top.byteReversal then .directToMem else .noneRequired

end FFS
