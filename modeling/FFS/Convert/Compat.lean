import FFS.FM.Context
import FFS.FM.SentNames

/-!
# Which target a format matches

`FMformat_compat_cmp` compares a format with the targets of its name by their fields, and
then the prior formats that it says it is compatible with.  A target stands for its index
in the list.  The comparisons are made by name: `FMformat_cmp_diff` sorts both field lists
by name and merges them, and goes on with the lists of subformats, which the subformats of a
loaded format share with it.  `depth` bounds the calls inside each other.
-/

namespace FFS

open Machine

/-! ## Types -/

/-- The length of a base type up to its colon. -/
def baseTypeCount (base : List UInt8) : Nat := (base.takeWhile (· ≠ chr ':')).length

/-- `IO_field_type_eq` -/
def ioFieldTypeEq (str1 str2 : List UInt8) : Bool :=
  let (t1, t1Count) := arrayStrToDataType str1
  let (t2, t2Count) := arrayStrToDataType str2
  if t1Count = -1 ∧ t2Count = -1 then
    let base1 := baseDataType str1
    let base2 := baseDataType str2
    let count := max (baseTypeCount base1) (baseTypeCount base2)
    base1.take count = base2.take count && strchr str1 (chr '[') = strchr str2 (chr '[')
  else t1 = t2 && t1Count = t2Count

/-! ## Fields -/

/-- How many fields (and types) the first format has that the second has not, and the other
way round. -/
structure FormatDiff where
  diff1 : Nat
  diff2 : Nat
deriving DecidableEq, Repr

namespace FormatDiff

def add (d e : FormatDiff) : FormatDiff := ⟨d.diff1 + e.diff1, d.diff2 + e.diff2⟩

def zero : FormatDiff := ⟨0, 0⟩

/-- The order in which `IOformat_list_cmp` prefers what it found. -/
def Better (d e : FormatDiff) : Prop := d.diff2 < e.diff2 ∨ d.diff2 = e.diff2 ∧ d.diff1 < e.diff1

instance (d e : FormatDiff) : Decidable (d.Better e) :=
  inferInstanceAs (Decidable (_ ∨ _))

end FormatDiff

def fieldNameLe (a b : FMField) : Bool := strLe a.fieldName.bytes b.fieldName.bytes

/-- The merge of `FMformat_cmp_diff` with a first field `f1`, `rest` being the merge behind it
and `count` the fields that are left of the first list. -/
def mergeField (f1 : FMField) (count : Nat) (rest : List FMField → FormatDiff) :
    List FMField → FormatDiff
  | [] => ⟨count, 0⟩
  | f2 :: fields2 =>
    if f1.fieldName = f2.fieldName then
      let typeDiff : FormatDiff :=
        if ioFieldTypeEq f1.fieldType.bytes f2.fieldType.bytes then .zero else ⟨1, 1⟩
      typeDiff.add (rest fields2)
    else if fieldNameLe f1 f2 then FormatDiff.add ⟨1, 0⟩ (rest (f2 :: fields2))
    else FormatDiff.add ⟨0, 1⟩ (mergeField f1 count rest fields2)

/-- The merge of `FMformat_cmp_diff` over two field lists in the order of their names. -/
def mergeDiff : List FMField → List FMField → FormatDiff
  | [], fields2 => ⟨0, fields2.length⟩
  | f1 :: fields1, fields2 => mergeField f1 (fields1.length + 1) (mergeDiff fields1) fields2

def sortByName (fields : List FMField) : List FMField :=
  fields.insertionSort fun a b => fieldNameLe a b

/-- `FMformat_cmp_diff` on two lists of fields. -/
def bodyDiff (format1 format2 : FMFormatBody) : FormatDiff :=
  mergeDiff (sortByName format1.fieldList) (sortByName format2.fieldList)

/-! ## Formats -/

/-- A format as it is in memory: where it is, and whether it was loaded. -/
structure FormatObject where
  format : FMFormat
  address : Nat
  loaded : Bool

namespace FormatObject

def bodies (f : FormatObject) : List FMFormatBody := f.format.bodies

/-- The list of subformats of the format numbered `i`.  A subformat has one only if the format
was loaded. -/
def subformatList (f : FormatObject) (i : Nat) : List Nat :=
  if i = 0 ∨ f.loaded = true then othersOf f.bodies else []

end FormatObject

/-- The first format of a list that has the name of another. -/
def sameNamed (formats1 formats2 : List FMFormatBody) (list2 : List Nat) (sub1 : Nat) :
    Option Nat :=
  list2.find? fun sub2 => formats2[sub2]?.map (·.formatName) = formats1[sub1]?.map (·.formatName)

/-- `FMformat_cmp_diff` behind its first test, for the formats numbered `i` and `j`. -/
def formatCmpDiffFrom (f1 f2 : FormatObject) : Nat → Nat → Nat → FormatDiff → Option FormatDiff
  | 0, _, _, _ => none
  | depth + 1, i, j, diff => do
    let b1 ← f1.bodies[i]?
    let b2 ← f2.bodies[j]?
    (f1.subformatList i).foldlM (fun diff sub1 =>
      if sub1 = i then some diff
      else
        match sameNamed f1.bodies f2.bodies (f2.subformatList j) sub1 with
        | none => some diff
        | some sub2 => formatCmpDiffFrom f1 f2 depth sub1 sub2 diff) (diff.add (bodyDiff b1 b2))

/-- `FMformat_cmp_diff` -/
def formatCmpDiff (depth : Nat) (f1 f2 : FormatObject) : Option FormatDiff :=
  if f1.address = f2.address then some .zero else formatCmpDiffFrom f1 f2 depth 0 0 .zero

def maxDiff : Nat := 0xFFFF

/-! ## Prior formats -/

/-- `COMPAT_OPT_INFO` -/
def compatOptInfo : Int32 := 0x45564F4C

/-- The prior format of one block, which begins with an ID. -/
def priorFormat (context : FMContext) (block : List UInt8) : Option (Option StoredFormat) := do
  guard (8 ≤ block.length)
  let length ← idLength (versionOfFormatID block)
  guard (length ≤ block.length)
  return formatFromID context block

/-- `FMget_compat_formats`, without the code that transforms a record.  The list of a format
with no such blocks is empty. -/
def compatFormats (context : FMContext) (format : FMFormatBody) :
    Option (List (Option StoredFormat)) :=
  (format.optInfo.filter (·.infoType = compatOptInfo)).mapM fun info =>
    priorFormat context info.infoBlock

/-- `count_total_IOfield` from the format numbered `i`.  The C code does not return when the
format leads back to itself. -/
def countTotalIOField (formats : List FMFormatBody) : Nat → Nat → Option Nat
  | 0, _ => none
  | depth + 1, i => do
    let f ← formats[i]?
    let below ← (f.fieldSubformats.filterMap id).mapM (countTotalIOField formats depth)
    return f.fieldList.length + below.sum

/-- An integer as a `float`: 24 bits of it, rounded to even. -/
def floatOfNat (n : Nat) : Nat :=
  let unit := 2 ^ (n.log2 + 1 - 24)
  let high := n / unit
  let low := n % unit
  let up := unit < 2 * low ∨ (unit = 2 * low ∧ high % 2 = 1)
  (high + if up then 1 else 0) * unit

/-- `(float) diff / (float) count < 1.0 - 0.8`.  The largest `float` below the bound is
13421772 / 2^26, to which the quotients round that are at most half a unit above it. -/
def belowThreshold (diff count : Nat) : Bool :=
  0 < count && floatOfNat diff * 2 ^ 27 ≤ 26843545 * floatOfNat count

/-! ## The match -/

/-- Where the formats are, and which of them were loaded. -/
structure FormatMemory where
  address : StoredFormat → Nat
  loaded : StoredFormat → Bool

namespace FormatMemory

def object (m : FormatMemory) (f : StoredFormat) : FormatObject :=
  ⟨f.format, m.address f, m.loaded f⟩

/-- `FMformat_cmp_diff` -/
def cmpDiff (m : FormatMemory) (depth : Nat) (format1 format2 : StoredFormat) :
    Option FormatDiff :=
  formatCmpDiff depth (m.object format1) (m.object format2)

/-- `IOformat_list_cmp`: the number of the nearest target, from the one that was the nearest
before.  An entry of the list can be null. -/
def listCmp (m : FormatMemory) (depth : Nat) (format : StoredFormat) :
    List (Option StoredFormat × Nat) → Option Nat × FormatDiff → Option (Option Nat × FormatDiff)
  | [], best => some best
  | (none, _) :: formatList, best => listCmp m depth format formatList best
  | (some target, i) :: formatList, (nearest, compResult) =>
    if target.format.top.formatName ≠ format.format.top.formatName then
      listCmp m depth format formatList (nearest, compResult)
    else do
      let diff ← m.cmpDiff depth format target
      if diff = .zero then return (some i, .zero)
      else
        listCmp m depth format formatList
          (if diff.Better compResult then (some i, diff) else (nearest, compResult))

/-- The loop over the prior versions, up to the first that does not resolve. -/
def priorsCmp (m : FormatMemory) (depth : Nat) (formatList : List (Option StoredFormat)) :
    List (Option StoredFormat × Nat) → (Option Nat × Option Nat) × FormatDiff →
    Option ((Option Nat × Option Nat) × FormatDiff)
  | (some prior, k) :: compats, (nearest, compResult) => do
    let (tmp, compResult) ← m.listCmp depth prior formatList.zipIdx (none, compResult)
    let nearest := if tmp.isSome then (tmp, some k) else nearest
    if compResult = .zero then return (nearest, compResult)
    else priorsCmp m depth formatList compats (nearest, compResult)
  | _, best => some best

/-- `check_compat_thresh` -/
def checkThresh (depth : Nat) (compResult : FormatDiff) (target : StoredFormat) : Option Bool :=
  (countTotalIOField target.format.bodies depth 0).map (belowThreshold compResult.diff2)

/-- `FMformat_compat_cmp`: the number of the target, and that of the prior version that
`older_format` is set to. -/
def compatCmp (m : FormatMemory) (depth : Nat) (context : FMContext) (format : StoredFormat)
    (formatList : List (Option StoredFormat)) : Option (Option Nat × Option Nat) := do
  let (nearest, compResult) ←
    m.listCmp depth format formatList.zipIdx (none, ⟨maxDiff, maxDiff⟩)
  if nearest.isSome ∧ compResult = .zero then return (nearest, none)
  else
    let compats ← compatFormats context format.format.top
    if compats = [] then return (none, none)
    let ((nearest, older), compResult) ←
      m.priorsCmp depth formatList compats.zipIdx ((nearest, none), compResult)
    match nearest with
    | none => return (none, older)
    | some i =>
      let target ← formatList[i]?.join
      let near ← checkThresh depth compResult target
      return if near then (some i, older) else (none, none)

end FormatMemory

end FFS
