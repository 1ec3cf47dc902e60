import FFS.FM.Load
import FFS.FM.Registered

/-!
# The format store of a context

A context that serves itself keeps the formats it registered or loaded in a list.
`registerDataFormat` searches the list by representation before it enters a format,
`loadExternalFormat` by ID.  The hash of the IDs is a parameter: `hash bs` is the pair that
`hashlittle2` computes.
-/

namespace FFS

open Machine

structure StoredFormat where
  format : FMFormat
  serverFormatRep : List UInt8
  serverID : List UInt8
  formatIndex : Nat
  /-- Loaded from a representation, not registered. -/
  loaded : Bool := false
deriving DecidableEq

/-- `FMContext` for a context without a master that is its own format server. -/
structure FMContext where
  formatList : List StoredFormat
  nativeColumnMajorArrays : Bool
deriving DecidableEq

/-! ## IDs -/

/-- `generate_format3_server_ID`, which calls its layout version 2.  The length is recorded
in units of 4. -/
def generateFormat3ServerID (hash : List UInt8 → UInt32 × UInt32) (rep : List UInt8) :
    Option (List UInt8) := do
  let length ← recordedRepLength rep
  let (hash1, hash2) := hash (rep.take length)
  return [2, UInt8.ofNat (length / 2 ^ 18)] ++ beBytes 2 (length / 4)
    ++ beBytes 4 hash1.toNat ++ beBytes 4 hash2.toNat

/-- `version_of_format_ID` -/
def versionOfFormatID (id : List UInt8) : Nat :=
  if (id.drop 4).take 4 = [0, 0, 0, 0] then 0 else ((id.head?).map UInt8.toNat).getD 0

/-- `ID_length`.  The C code reads past the table for other versions. -/
def idLength : Nat → Option Nat
  | 0 => some 8
  | 1 => some 10
  | 2 => some 12
  | _ => none

/-- The part of an ID that is compared before the whole: none for version 0 and for versions
the library does not know.  `get_local_format_IOcontext` reads the identifier of version 1
as a signed number, which is never equal to the unsigned one when it is negative. -/
def idShortcut (signedIdentifier : Bool) (buffer id : List UInt8) : Bool :=
  match versionOfFormatID buffer with
  | 1 =>
    let negative := signedIdentifier && (buffer[9]?).any (128 ≤ ·)
    !negative && (id.drop 8).take 2 = (buffer.drop 8).take 2
  | 2 => (id.drop 2).take 2 = (buffer.drop 2).take 2
  | 3 =>
    let top := ((buffer[1]?).map UInt8.toNat).getD 0
    getValue false ((id.drop 2).take 2) = getValue false ((buffer.drop 2).take 2) + top * 2 ^ 16
  | _ => true

/-- The last format whose ID the buffer begins with. -/
def searchByID (signedIdentifier : Bool) (context : FMContext) (buffer : List UInt8) :
    Option StoredFormat :=
  context.formatList.reverse.find? fun entry =>
    idShortcut signedIdentifier buffer entry.serverID &&
      buffer.take entry.serverID.length = entry.serverID

/-- `FMformat_from_ID` -/
def formatFromID (context : FMContext) (buffer : List UInt8) : Option StoredFormat :=
  searchByID false context buffer

/-- `get_local_format_IOcontext` -/
def getLocalFormat (context : FMContext) (buffer : List UInt8) : Option StoredFormat :=
  searchByID true context buffer

/-! ## Registering -/

/-- The comparison of `search_compatible_formats`.  The length that is searched for has its
top bytes, the length of the entry does not. -/
def compatibleRep (searchRepLength : Nat) (rep entryRep : List UInt8) : Bool :=
  valueAt true entryRep 0 2 = some searchRepLength &&
    rep.take searchRepLength = entryRep.take searchRepLength

/-- `search_compatible_formats` -/
def searchCompatibleFormats (context : FMContext) (formatName : CString) (rep : List UInt8) :
    Option StoredFormat := do
  let searchRepLength ← recordedRepLength rep
  context.formatList.find? fun entry =>
    entry.format.top.formatName = formatName &&
      compatibleRep searchRepLength rep entry.serverFormatRep

/-- A format behind the last one of the list. -/
def FMContext.enter (context : FMContext) (format : FMFormat) (rep id : List UInt8)
    (loaded : Bool) : FMContext × StoredFormat :=
  let entry : StoredFormat :=
    { format, serverFormatRep := rep, serverID := id, formatIndex := context.formatList.length,
      loaded }
  ({ context with formatList := context.formatList ++ [entry] }, entry)

/-- `register_data_format` -/
def registerDataFormat (hash : List UInt8 → UInt32 × UInt32) (ignoreDefaultValues : Bool)
    (context : FMContext) (structList : List FMStructDesc) : Option (FMContext × StoredFormat) := do
  let format ← registerFormats context.nativeColumnMajorArrays ignoreDefaultValues structList
  let rep ← buildServerFormatRep format
  match searchCompatibleFormats context format.top.formatName rep with
  | some entry => return (context, entry)
  | none => return context.enter format rep (← generateFormat3ServerID hash rep) false

/-! ## Loading -/

/-- A format with what was in `memory` for all that is derived. -/
def FMFormat.leftWith (memory f : FMFormat) : FMFormat where
  top := { f.top with
    variant := memory.top.variant, recursive := memory.top.recursive,
    varList := memory.top.varList, fieldSubformats := memory.top.fieldSubformats }
  subformats := memory.subformats

/-- `load_external_format_FMcontext`.  `add_format_to_iofile` does not notice that
`generate_var_list` failed or that a subformat was not reached, and enters the format with what was
in memory. -/
def loadExternalFormat (memory : FMFormat) (context : FMContext) (id rep : List UInt8) :
    Option (FMContext × StoredFormat) :=
  match getLocalFormat context id with
  | some entry => some (context, entry)
  | none => (expandFormatFromRep rep).map fun f =>
    context.enter ((deriveLoaded f).getD (memory.leftWith f)) rep id true

/-- `load_external_format_FMcontext` for a format that is there or whose values can be derived. -/
def loadDerivedFormat (context : FMContext) (id rep : List UInt8) :
    Option (FMContext × StoredFormat) :=
  match getLocalFormat context id with
  | some entry => some (context, entry)
  | none => (loadFormat rep).map fun format => context.enter format rep id true

/-- Then it does not matter what was in memory. -/
theorem loadExternalFormat_of_derived {context : FMContext} {id rep : List UInt8}
    {result : FMContext × StoredFormat} (h : loadDerivedFormat context id rep = some result)
    (memory : FMFormat) : loadExternalFormat memory context id rep = some result := by
  unfold loadDerivedFormat at h
  unfold loadExternalFormat
  split at h
  · exact h
  · obtain ⟨format, hformat, hresult⟩ := Option.map_eq_some_iff.mp h
    obtain ⟨f, hexpand, hderive⟩ := Option.bind_eq_some_iff.mp hformat
    rw [hexpand, Option.map_some, hderive, Option.getD_some, hresult]

/-! ## Runs -/

inductive ContextCall where
  | register (structList : List FMStructDesc)
  | load (id rep : List UInt8) (memory : FMFormat)

/-- The representation that a call presents to the context. -/
def ContextCall.rep (ignoreDefaultValues : Bool) (context : FMContext) :
    ContextCall → Option (List UInt8)
  | .register structList =>
    (registerFormats context.nativeColumnMajorArrays ignoreDefaultValues structList).bind
      buildServerFormatRep
  | .load _ rep _ => some rep

/-- A call that fails leaves the context as it was. -/
def ContextCall.apply (hash : List UInt8 → UInt32 × UInt32) (ignoreDefaultValues : Bool)
    (context : FMContext) (call : ContextCall) : FMContext :=
  let result := match call with
    | .register structList => registerDataFormat hash ignoreDefaultValues context structList
    | .load id rep memory => loadExternalFormat memory context id rep
  (result.map Prod.fst).getD context

end FFS
