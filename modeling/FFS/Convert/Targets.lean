import FFS.Convert.Conversion

/-!
# Targets and decoding

A context keeps a handle for each format that it has met, and the handle remembers which
target the messages of the format are converted to.  `FFS_determine_conversion` decides it.  A
handle stands for its index, and a decode for the conversion it goes through, or none for a
plain copy.  A decision has no result where the C code does not return.
-/

namespace FFS

open Machine

/-- `Conversion_status` -/
inductive ConversionStatus where
  | notChecked
  | conversionSet
  | noneAvailable
deriving DecidableEq, Repr

/-- `FFSTypeHandle` -/
structure FFSTypeHandle where
  body : StoredFormat
  conversion : Option IOConversion
  status : ConversionStatus
  conversionTarget : Option Nat
  isFixedTarget : Bool

structure FFSContext where
  fmc : FMContext
  handleList : List (Option FFSTypeHandle)

namespace FFSContext

/-- `create_FFSContext_FM` -/
def create (fmc : FMContext) : FFSContext := { fmc, handleList := [] }

def handle (c : FFSContext) (i : Nat) : Option FFSTypeHandle := c.handleList[i]?.bind id

def setHandle (c : FFSContext) (i : Nat) (handle : FFSTypeHandle) : FFSContext :=
  { c with handleList := c.handleList.set i (some handle) }

/-- The list with room for an index. -/
def expand (c : FFSContext) (index : Nat) : FFSContext :=
  { c with handleList :=
      c.handleList ++ List.replicate (index + 1 - c.handleList.length) none }

def newHandle (body : StoredFormat) : FFSTypeHandle :=
  { body, conversion := none, status := .notChecked, conversionTarget := none,
    isFixedTarget := false }

/-- `FFSTypeHandle_by_index` -/
def typeHandleByIndex (c : FFSContext) (index : Nat) : FFSContext × Option FFSTypeHandle :=
  let c := c.expand index
  match c.handle index with
  | some handle => (c, some handle)
  | none =>
    match c.fmc.formatList[index]? with
    | none => (c, none)
    | some body => (c.setHandle index (newHandle body), some (newHandle body))

/-- `FFSTypeHandle_from_encode`, which finds the index of the handle. -/
def typeHandleFromEncode (c : FFSContext) (buffer : List UInt8) : FFSContext × Option Nat :=
  match formatFromID c.fmc buffer with
  | none => (c, none)
  | some body =>
    let (c, handle) := c.typeHandleByIndex body.formatIndex
    (c, handle.map fun _ => body.formatIndex)

/-! ## Deciding on a target -/

/-- The targets in the order of their handles. -/
def fixedTargets (c : FFSContext) : List StoredFormat :=
  c.handleList.filterMap fun handle =>
    handle.bind fun handle => if handle.isFixedTarget then some handle.body else none

/-- The formats of a context are where they are listed. -/
def storedMemory : FormatMemory where
  address := StoredFormat.formatIndex
  loaded := StoredFormat.loaded

/-- More calls inside each other than any comparison or count has that ends. -/
def comparisonDepth (c : FFSContext) : Nat :=
  (c.fmc.formatList.map fun entry => entry.format.bodies.length).sum + 2

section

variable (ignoreDefaultValues : Bool)
  (strToVal : List UInt8 → FMDataType → Int32 → Option (List UInt8))

/-- The call of `create_conversion` for a handle's format and one description of a target. -/
def createConversionFor (format : FMFormat) (current : Option ConversionType)
    (structList : List FMStructDesc) (desc : FMStructDesc) : Option (Option IOConversion) :=
  (generalSetup ignoreDefaultValues strToVal format current structList).createConversion
    (format.bodies.length + 1) 0 desc (initialPlan format)

/-- `establish_conversion`: the conversion that the handle has afterwards.  It keeps the one it
has when the list does not describe its format or no conversion can be built. -/
def establishConversion (handle : FFSTypeHandle) (structList : List FMStructDesc) :
    Option (Option IOConversion) :=
  match structList.find? fun desc => desc.formatName = handle.body.format.top.formatName with
  | none => some handle.conversion
  | some desc => do
    let current := handle.conversion.map (·.base.conversionType)
    let conv ← createConversionFor ignoreDefaultValues strToVal handle.body.format current
      structList desc
    return conv.or handle.conversion

/-- `FFS_determine_conversion` -/
def determineConversion (c : FFSContext) (i : Nat) : Option FFSContext := do
  let handle ← c.handle i
  let (nearest, _) ← storedMemory.compatCmp c.comparisonDepth c.fmc handle.body
    (c.fixedTargets.map some)
  match nearest.bind fun n => c.fixedTargets[n]? with
  | none => return c.setHandle i { handle with status := .noneAvailable }
  | some best =>
    let conversion ← establishConversion ignoreDefaultValues strToVal handle
      (buildStructList best.format)
    let (c, target) := c.typeHandleByIndex best.formatIndex
    return c.setHandle i
      { handle with
        conversion, status := .conversionSet,
        conversionTarget := target.map fun _ => best.formatIndex }

/-- A decision if there is none. -/
def determineIfNotChecked (c : FFSContext) (i : Nat) : Option FFSContext := do
  let handle ← c.handle i
  if handle.status = .notChecked then c.determineConversion ignoreDefaultValues strToVal i
  else return c

/-- `check_conversion` -/
def checkConversion (c : FFSContext) (i : Nat) : Option (FFSContext × Bool) := do
  let handle ← c.handle i
  if handle.conversion.isSome then return (c, true)
  else
    let c ← c.determineIfNotChecked ignoreDefaultValues strToVal i
    let handle ← c.handle i
    return (c, handle.status ≠ .noneAvailable)

/-- `FFSdecode` up to the conversion that `FFSinternal_decode` applies, none when it returns 0. -/
def decode (c : FFSContext) (buffer : List UInt8) :
    Option (FFSContext × Option (Option IOConversion)) :=
  match c.typeHandleFromEncode buffer with
  | (c, none) => some (c, none)
  | (c, some i) => do
    let (c, available) ← c.checkConversion ignoreDefaultValues strToVal i
    if available then
      let handle ← c.handle i
      return (c, some handle.conversion)
    else return (c, none)

/-- `FFS_target_from_encode` -/
def targetFromEncode (c : FFSContext) (buffer : List UInt8) : Option (FFSContext × Option Nat) :=
  match c.typeHandleFromEncode buffer with
  | (c, none) => some (c, none)
  | (c, some i) => do
    let c ← c.determineIfNotChecked ignoreDefaultValues strToVal i
    let handle ← c.handle i
    match handle.status with
    | .noneAvailable => return (c, none)
    | .conversionSet => return (c, handle.conversionTarget)
    | .notChecked => none

end

end FFSContext

end FFS
