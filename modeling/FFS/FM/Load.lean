import FFS.FM.Rep

/-!
# Loading a format

A format that comes from elsewhere arrives as its representation.  `deriveLoaded` is the
part of `add_format_to_iofile` that gives the expanded format its derived values.  It
differs from registration: the top format comes first, it is not among the formats a field
can name, and a second loop looks the fields of record types up again.
-/

namespace FFS

open Machine

/-- One round of the second loop of `fill_derived_format_values`: the subformat of a field and
whether the field makes its format variant.  A candidate of the name takes the place of the
subformat that `generate_var_list` chose. -/
def refillVar (formats : List FMFormatBody) (candidates : List Nat) (self : Nat)
    (fmField : FMField) (var : FMVarInfo) (chosen : Option Nat) : Option Nat × Bool :=
  if var.string then (chosen, true)
  else
    let base := baseDataType fmField.fieldType.bytes
    let pointer := var.typeDesc.any (·.type = .pointer)
    if strToDataType base = .unknownType then
      let subformat := (lastNamed formats candidates base).or chosen
      (subformat, var.varArray || (subformatFlags formats self subformat).1 || pointer)
    else (chosen, var.varArray || pointer)

def refillVars (formats : List FMFormatBody) (candidates : List Nat) (self : Nat)
    (f : FMFormatBody) : FMFormatBody :=
  let refilled := (f.fieldList.zip (f.varList.zip f.fieldSubformats)).map
    fun (fmField, var, chosen) => refillVar formats candidates self fmField var chosen
  { f with
    variant := f.variant || refilled.any (·.2), fieldSubformats := refilled.map (·.1) }

/-- `fill_derived_format_values` for the format `f`, which is numbered `self`.  The C code
ignores that `generate_var_list` failed and reads what was not written; here the format is
rejected. -/
def fillDerivedFormatValues (candidates : List Nat) (formats : List FMFormatBody) (self : Nat)
    (f : FMFormatBody) : Option FMFormatBody :=
  (generateVarList candidates formats self { f with variant := false, recursive := false }).map
    (refillVars formats candidates self)

/-- The flags bubble up among the subformats and then once to the top format. -/
def bubbleLoaded (formats : List FMFormatBody) : List FMFormatBody :=
  let count := formats.length - 1
  let once formats :=
    (List.range count).foldl (fun formats i => bubbleVariant formats (i + 1)) formats
  bubbleVariant ((List.range count).foldl (fun formats _ => once formats) formats) 0

/-- `add_format_to_iofile` as far as the format is concerned.  When a subformat cannot be
reached from the top format, the C code leaves a null pointer or a format twice in the list
of subformats. -/
def deriveLoaded (f : FMFormat) : Option FMFormat := do
  let formats := f.bodies
  let candidates := (List.range formats.length).tail
  let formats ← pass (fillDerivedFormatValues candidates) formats (List.range formats.length)
  let order := topoOrderSubformats formats
  guard (order.length < topoArraySize)
  guard (order.length = formats.length)
  match bubbleLoaded (reorder formats order) with
  | [] => none
  | top :: subformats => return { top, subformats }

/-- A format as `load_external_format_FMcontext` makes it from a representation. -/
def loadFormat (rep : List UInt8) : Option FMFormat := do
  let f ← expandFormatFromRep rep
  deriveLoaded f

end FFS
