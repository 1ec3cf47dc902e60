import FFS.Machine.Bytes
import FFS.Machine.CString

/-!
# Type strings

The type of a field is a string such as `"integer"`, `"float[3][n]"` or `"*(string[4])"`.
These are the functions of `fm_formats.c` that read one: the data type of its elements,
the name behind its dimensions and pointers, its dimensions, and the chain of type
descriptors that the encoder and the decoder walk.
-/

namespace FFS

open Machine

inductive FMDataType where
  | unknownType
  | integerType
  | unsignedType
  | floatType
  | charType
  | stringType
  | enumerationType
  | booleanType
deriving DecidableEq, Repr

inductive FMTypeEnum where
  | pointer
  | array
  | string
  | subformat
  | simple
deriving DecidableEq, Repr

structure FMField where
  fieldName : CString
  fieldType : CString
  fieldSize : Int32
  fieldOffset : Int32
deriving DecidableEq

/-- One link of a chain of type descriptors. -/
structure FMTypeDesc where
  type : FMTypeEnum
  dataType : FMDataType
  pointerRecursive : Nat
  fieldIndex : Nat
  staticSize : Int
  controlFieldIndex : Int
deriving DecidableEq, Repr

/-- `new_FMTypeDesc`: all fields zero but the one given. -/
def FMTypeDesc.new (type : FMTypeEnum) : FMTypeDesc :=
  { type, dataType := .unknownType, pointerRecursive := 0, fieldIndex := 0, staticSize := 0,
    controlFieldIndex := 0 }

/-! ## Data types -/

def skipTypePrefix (str : List UInt8) : List UInt8 :=
  str.dropWhile fun b => isSpace b || b == chr '*' || b == chr '('

def dropTypeSuffix (str : List UInt8) : List UInt8 :=
  (str.reverse.dropWhile fun b => isSpace b || b == chr ')').reverse

/-- The names of the data types, in lower case.  The second word of the long name of
`unsigned` follows a blank or a tab. -/
def dataTypeNames : List (List UInt8 × FMDataType) :=
  [(chars ['i', 'n', 't', 'e', 'g', 'e', 'r'], .integerType),
   (chars ['f', 'l', 'o', 'a', 't'], .floatType),
   (chars ['d', 'o', 'u', 'b', 'l', 'e'], .floatType),
   (chars ['c', 'h', 'a', 'r'], .charType),
   (chars ['s', 't', 'r', 'i', 'n', 'g'], .stringType),
   (chars ['e', 'n', 'u', 'm', 'e', 'r', 'a', 't', 'i', 'o', 'n'], .enumerationType),
   (chars ['b', 'o', 'o', 'l', 'e', 'a', 'n'], .booleanType),
   (chars ['u', 'n', 's', 'i', 'g', 'n', 'e', 'd', ' ', 'i', 'n', 't', 'e', 'g', 'e', 'r'],
     .unsignedType),
   (chars ['u', 'n', 's', 'i', 'g', 'n', 'e', 'd', '\t', 'i', 'n', 't', 'e', 'g', 'e', 'r'],
     .unsignedType),
   (chars ['u', 'n', 's', 'i', 'g', 'n', 'e', 'd'], .unsignedType)]

/-- `FMstr_to_data_type` -/
def strToDataType (str : List UInt8) : FMDataType :=
  let name := (dropTypeSuffix (skipTypePrefix str)).map toLower
  match dataTypeNames.find? (·.1 = name) with
  | some (_, t) => t
  | none => .unknownType

/-- `base_data_type` -/
def baseDataType (str : List UInt8) : List UInt8 :=
  ((skipTypePrefix str).takeWhile (· ≠ chr '[')).takeWhile (· ≠ chr ')')

/-- The loop of `FMarray_str_to_data_type` over the dimensions, `leftParen` starting at a
bracket.  A dimension that is not a number makes the count -1, and one that is no good
ends the count. -/
def elementCount : Nat → Int → List UInt8 → Int
  | 0, count, _ => count
  | rounds + 1, count, leftParen =>
    let (tmp, rest) := strtol 10 leftParen.tail
    if rest.length = leftParen.tail.length then -1
    else if tmp ≤ 0 then count
    else if rest.head? ≠ some (chr ']') then count
    else
      let count := signed 8 (unsigned 8 (count * tmp))
      match strchr rest (chr '[') with
      | none => count
      | some next => elementCount rounds count next

/-- `FMarray_str_to_data_type`: the type of the elements and their number. -/
def arrayStrToDataType (str : List UInt8) : FMDataType × Int :=
  match strchr str (chr '[') with
  | none => (strToDataType str, 1)
  | some leftParen =>
    (strToDataType (str.takeWhile (· ≠ chr '[')), elementCount str.length 1 leftParen)

/-! ## Dimensions -/

/-- `is_all_static_array_dimens` -/
def isAllStaticArrayDimens : Nat → List UInt8 → Bool
  | 0, _ => true
  | rounds + 1, str =>
    match strchr str (chr '[') with
    | none => true
    | some leftParen =>
      let rest := (strtol 0 leftParen.tail).2
      if rest.head? ≠ some (chr ']') then false
      else isAllStaticArrayDimens rounds rest.tail

/-- `is_var_array_field` -/
def isVarArrayField (fieldType : List UInt8) : Bool :=
  !isAllStaticArrayDimens (fieldType.length + 1) fieldType

/-- `find_field`, which looks at the neighbours of the field first. -/
def findField (name : List UInt8) (fields : List FMField) (curField : Nat) : Option Nat :=
  let near := (List.range 9).map (curField - 1 - ·) ++ (List.range 9).map (curField + 1 + ·)
  let order := (if 10 < curField then near else []) ++ List.range fields.length
  order.find? fun i => fields[i]?.any (·.fieldName.bytes = name)

/-- The string from its bracket number `dimen` on. -/
def nthParen : Nat → List UInt8 → Option (List UInt8)
  | 0, str => strchr str (chr '[')
  | dimen + 1, str => (strchr str (chr '[')).bind fun leftParen => nthParen dimen leftParen.tail

/-- `IOget_array_size_dimen`: the size of a dimension and the index of its control field.
The size is 0 when there is no such dimension and -1 when it is not a constant. -/
def getArraySizeDimen (str : List UInt8) (fields : List FMField) (dimen curField : Nat) :
    Int × Int :=
  match nthParen dimen str with
  | none => (0, -1)
  | some leftParen =>
    let (staticSize, rest) := strtol 0 leftParen.tail
    if rest.length = leftParen.tail.length then
      let fieldName := leftParen.tail.takeWhile (· ≠ chr ']')
      match findField fieldName fields curField with
      | none => (-1, -1)
      | some i =>
        let controlType := fields[i]?.map fun f => strToDataType f.fieldType.bytes
        if controlType = some .integerType ∨ controlType = some .unsignedType then (-1, i)
        else (0, -1)
    else if rest.head? ≠ some (chr ']') then (-1, -1)
    else if staticSize ≤ 0 then (-1, -1)
    else (signed 4 (unsigned 4 staticSize), -1)

/-! ## Type descriptors -/

def isStringName (typ : List UInt8) : Bool :=
  typ.take 6 == chars ['s', 't', 'r', 'i', 'n', 'g'] &&
    match typ[6]? with
    | none => true
    | some b => b == chr '[' || isSpace b

/-- The pointers at the head of a type string and what is behind them. -/
def skipPointers : List UInt8 → Nat × List UInt8
  | [] => (0, [])
  | b :: typ =>
    if b = chr '*' then ((skipPointers typ).1 + 1, (skipPointers typ).2)
    else if isSpace b then skipPointers typ
    else (0, b :: typ)

/-- `gen_FMTypeDesc` on a type without parentheses: the pointers, a pointer for the whole
if a dimension is variable, the dimensions and the element. -/
def genFlatTypeDesc (fields : List FMField) (field : Nat) (typ : List UInt8) :
    List FMTypeDesc :=
  let dataType := (arrayStrToDataType typ).1
  let (pointers, rest) := skipPointers typ
  let elementType : FMTypeEnum :=
    if dataType = .unknownType then .subformat
    else if isStringName rest then .string
    else .simple
  let element : FMTypeDesc :=
    { FMTypeDesc.new elementType with fieldIndex := field, dataType }
  let dims := (List.range (rest.count (chr '['))).map fun dimen =>
    getArraySizeDimen rest fields dimen field
  let arrays := dims.map fun (staticSize, control) =>
    { FMTypeDesc.new .array with
      fieldIndex := field, staticSize := if staticSize = -1 then 0 else staticSize,
      controlFieldIndex := control }
  let varPointer := if dims.any (·.1 = -1) then [FMTypeDesc.new .pointer] else []
  List.replicate pointers { FMTypeDesc.new .pointer with fieldIndex := field } ++ varPointer
    ++ arrays ++ [element]

/-- `gen_FMTypeDesc`.  What the outermost parentheses enclose is described first and takes
the place of the element of the rest, in which it is washed out.  `none` where the
parentheses do not match.  Each call has fewer parentheses to look at, so the length of
the string bounds the depth. -/
def genTypeDesc (fields : List FMField) (field : Nat) : Nat → List UInt8 →
    Option (List FMTypeDesc)
  | 0, _ => none
  | depth + 1, typ =>
    let first := typ.idxOf? (chr '(')
    let last := (typ.reverse.idxOf? (chr ')')).map (typ.length - 1 - ·)
    match first, last with
    | none, none => some (genFlatTypeDesc fields field typ)
    | some i, some j => do
      let inner := if i < j then (typ.drop (i + 1)).take (j - i - 1) else typ.drop (i + 1)
      let washed :=
        if i < j then typ.take i ++ List.replicate (j - i + 1) (chr 'a') ++ typ.drop (j + 1)
        else typ.take j
      let base ← genTypeDesc fields field depth inner
      let root ← genTypeDesc fields field depth washed
      return root.dropLast ++ base
    | _, _ => none

end FFS
