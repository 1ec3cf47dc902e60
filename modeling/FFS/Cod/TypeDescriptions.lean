import FFS.FM.Format
import FFS.Machine.Unrolling

/-!
# Descriptions of argument types

For a `cod_type_spec` parameter `build_format_list` makes a list of formats from the type of the
argument in front of it.  It goes from a struct type to the types of its fields and keeps no
account of where it has been, and it does so before code is generated, when a struct type that was
declared in the program has no offsets yet.
-/

namespace FFS
namespace Cod

open Machine

/-! ## Types -/

/-- `sm_complex_type`, with the struct types as entries of a table.  An array has a size, or a field
that has it. -/
inductive TypeRef (count : Nat) where
  | null
  | struct (n : Fin count)
  | reference (referenced : TypeRef count)
  | array (size : Option Nat) (element : TypeRef count)
  | declaration (type : TypeRef count)
  | other

structure CodField (count : Nat) where
  name : CString
  stringType : Option CString
  cgSize : Int32
  cgOffset : Int32
  complexType : TypeRef count

structure StructType (count : Nat) where
  id : CString
  fields : List (CodField count)
  cgSize : Int32

variable {count : Nat}

namespace TypeRef

/-- The loop over references, arrays and declarations. -/
def target : TypeRef count → Option (Fin count)
  | struct n => some n
  | reference t => t.target
  | array _ t => t.target
  | declaration t => t.target
  | null => none
  | other => none

/-- A type that is `k` structs of the type `n`, one behind the other. -/
inductive Elements (n : Fin count) : Nat → TypeRef count → Prop where
  | struct : Elements n 1 (struct n)
  | array {k elements : Nat} {size : Option Nat} {t : TypeRef count}
      (hsize : ∀ m ∈ size, elements = m) (ht : Elements n k t) :
      Elements n (elements * k) (array size t)
  | declaration {k : Nat} {t : TypeRef count} (ht : Elements n k t) :
      Elements n k (declaration t)

/-- The types of the places that are come to from a field of a type. -/
def places : TypeRef count → List (TypeRef count)
  | reference t => reference t :: t.places
  | array size t => array size t :: t.places
  | declaration t => declaration t :: t.places
  | t => [t]

end TypeRef

/-! ## The list -/

/-- An entry of the list, with the struct type that it was made from. -/
structure Entry (count : Nat) where
  type : Fin count
  desc : FMStructDesc

/-- `none` where a copy is made of a type string that is not there. -/
def CodField.asFMField (f : CodField count) : Option FMField :=
  f.stringType.map fun fieldType => ⟨f.name, fieldType, f.cgSize, f.cgOffset⟩

/-- `add_field_list`: the entry of a type, and behind it what is added for its fields. -/
def addFieldList (types : Fin count → StructType count) :
    Nat → Fin count → Option (List (Entry count))
  | 0, _ => none
  | fuel + 1, n => do
    let added ← (types n).fields.mapM fun f => do
      let field ← f.asFMField
      let below ← match f.complexType.target with
        | some m => addFieldList types fuel m
        | none => some []
      return (field, below)
    return ⟨n, (types n).id, added.map Prod.fst, (types n).cgSize, []⟩ ::
      (added.map Prod.snd).flatten

/-- `build_format_list`, from the complex type of the argument.  `none` where the list is not
made: there is no struct type where it is looked for, or the recursion does not end. -/
def buildTypeList (types : Fin count → StructType count) (fuel : Nat) (typ : TypeRef count) :
    Option (List (Entry count)) :=
  let typ := match typ with
    | .reference t => t
    | t => t
  let typ := match typ with
    | .declaration t => t
    | t => t
  match typ with
  | .struct n => addFieldList types fuel n
  | _ => none

/-! ## The layout -/

/-- The size with what it lacks to the alignment of doubles. -/
def padded (double size : Int32) : Int32 :=
  size + (double - size % double) % double

/-- The loop that lays the fields out. -/
def layoutLoop (align size : CodField count → Int32) :
    Int32 → List (CodField count) → List (CodField count)
  | _, [] => []
  | last, f :: fs =>
    let offBy := last % align f
    let offset := if offBy ≠ 0 then last + (align f - offBy) else last
    { f with cgOffset := offset, cgSize := size f } ::
      layoutLoop align size (offset + size f) fs

/-- Where that loop ends. -/
def layoutEnd (align size : CodField count → Int32) : Int32 → List (CodField count) → Int32
  | last, [] => last
  | last, f :: fs =>
    let offBy := last % align f
    let offset := if offBy ≠ 0 then last + (align f - offBy) else last
    layoutEnd align size (offset + size f) fs

/-- A struct type is laid out. -/
def relaid (double : Int32) (align size : CodField count → Int32) (t : StructType count) :
    StructType count :=
  { t with
    fields := layoutLoop align size 0 t.fields,
    cgSize := padded double (layoutEnd align size 0 t.fields) }

/-- `cg_preprocess` on a struct type. -/
def cgPreprocess (double : Int32) (align size : CodField count → Int32)
    (t : StructType count) : StructType count :=
  if t.fields.head?.any (·.cgOffset = -1) then relaid double align size t else t

/-- `cg_decl` on a struct type. -/
def cgDecl (double : Int32) (align : CodField count → Int32) (t : StructType count) :
    StructType count :=
  if t.fields.any (·.cgSize ≤ 0) then relaid double align (·.cgSize) t else t

/-- A struct type as the code finds it. -/
def compiled (double : Int32) (align size : CodField count → Int32) (t : StructType count) :
    StructType count :=
  cgDecl double align (cgPreprocess double align size t)

/-- `cg_get_size` of a struct type.  The code takes it for the distance of two elements of an
array. -/
def cgGetSize (double : Int32) (t : StructType count) : Int32 :=
  if t.cgSize % double ≠ 0 then padded double t.cgSize else t.cgSize

/-! ## What the list should be -/

/-- The struct types of the fields of a struct type. -/
def fieldTypes (types : Fin count → StructType count) (n : Fin count) : List (Fin count) :=
  (types n).fields.filterMap (·.complexType.target)

/-- A struct type can be come to from another one. -/
def Reaches (types : Fin count → StructType count) : Fin count → Fin count → Prop :=
  Relation.ReflTransGen fun n m => m ∈ fieldTypes types n

/-- Where the encoder comes to `k` structs one behind the other, they are where the code has them:
the encoder takes the record length of the registered format for their distance. -/
def ElementsRead (types : Fin count → StructType count) (double : Int32)
    (align size : CodField count → Int32) (columnMajor ignoreDefaultValues : Bool)
    (list : List (Entry count)) : Prop :=
  ∀ e ∈ list, ∀ f ∈ (types e.type).fields, ∀ place ∈ f.complexType.places, ∀ e' ∈ list, ∀ k,
    place.Elements e'.type k → ∀ format ∈ newFormat columnMajor ignoreDefaultValues e'.desc,
    ∀ i < k, i * format.recordLength.toInt =
      i * (cgGetSize double (compiled double align size (types e'.type))).toInt

/-- The list is made, it has each struct type once, that of the argument first, with the fields as
the code finds them, it can be registered, and encoding with it reads what the code has put
there. -/
def TypesDescribed (types : Fin count → StructType count) (double : Int32)
    (align size : CodField count → Int32) (columnMajor ignoreDefaultValues : Bool)
    (typ : TypeRef count) : Prop :=
  ∃ fuel list n, buildTypeList types fuel typ = some list ∧ typ.target = some n ∧
    (list.map Entry.type).head? = some n ∧ (list.map Entry.type).Nodup ∧
    (∀ m, m ∈ list.map Entry.type ↔ Reaches types n m) ∧
    (∀ e ∈ list, e.desc.formatName = (types e.type).id ∧
      (compiled double align size (types e.type)).fields.mapM CodField.asFMField =
        some e.desc.fieldList) ∧
    (registerFormats columnMajor ignoreDefaultValues (list.map Entry.desc)).isSome = true ∧
    ElementsRead types double align size columnMajor ignoreDefaultValues list

/-! ## Where it is -/

/-- The types of arguments whose struct type `build_format_list` finds. -/
inductive Direct (n : Fin count) : TypeRef count → Prop where
  | value : Direct n (.struct n)
  | pointer : Direct n (.reference (.struct n))
  | named : Direct n (.declaration (.struct n))
  | pointerToNamed : Direct n (.reference (.declaration (.struct n)))

/-- Code generation leaves the fields as they are. -/
def LaidOut (align : CodField count → Int32) (fields : List (CodField count)) : Prop :=
  fields.head?.all (·.cgOffset ≠ -1) = true ∧
    (fields.any (·.cgSize ≤ 0) = true → layoutLoop align (·.cgSize) 0 fields = fields)

/-- A struct type by its fields. -/
def describe (types : Fin count → StructType count) (n : Fin count) : FMStructDesc :=
  ⟨(types n).id, (types n).fields.filterMap CodField.asFMField, (types n).cgSize, []⟩

structure Describable (types : Fin count → StructType count) (double : Int32)
    (align : CodField count → Int32) (columnMajor ignoreDefaultValues : Bool) (typ : TypeRef count)
    (n : Fin count) : Prop where
  direct : Direct n typ
  unique : PathsUnique (fieldTypes types) n
  typed : ∀ m, Reaches types n m → ∀ f ∈ (types m).fields, f.stringType ≠ none
  laidOut : ∀ m, Reaches types n m → LaidOut align (types m).fields
  registered : ∀ fuel order, preorder (fieldTypes types) fuel n = some order →
    (registerFormats columnMajor ignoreDefaultValues (order.map (describe types))).isSome = true
  spaced : ∀ m m', Reaches types n m → Reaches types n m' → ∀ f ∈ (types m).fields,
    ∀ place ∈ f.complexType.places, ∀ k, place.Elements m' k → 2 ≤ k →
    ∀ format ∈ newFormat columnMajor ignoreDefaultValues (describe types m'),
      format.recordLength = cgGetSize double (cgDecl double align (types m'))

/-! ## The recursion -/

/-- The entry of a type. -/
def entry (types : Fin count → StructType count) (n : Fin count) : Option (Entry count) :=
  ((types n).fields.mapM CodField.asFMField).map fun fields =>
    ⟨n, (types n).id, fields, (types n).cgSize, []⟩

/-- What `add_field_list` does with one field. -/
def addField (types : Fin count → StructType count) (fuel : Nat) (f : CodField count) :
    Option (FMField × List (Entry count)) := do
  let field ← f.asFMField
  let below ← match f.complexType.target with
    | some m => addFieldList types fuel m
    | none => some []
  return (field, below)

theorem addFieldList_succ (types : Fin count → StructType count) (fuel : Nat) (n : Fin count) :
    addFieldList types (fuel + 1) n = ((types n).fields.mapM (addField types fuel)).map
      fun added => ⟨n, (types n).id, added.map Prod.fst, (types n).cgSize, []⟩ ::
        (added.map Prod.snd).flatten := by
  rw [Option.map_eq_bind]
  rfl

theorem addField_eq_some_iff {types : Fin count → StructType count} {fuel : Nat}
    {f : CodField count} {field : FMField} {below : List (Entry count)} :
    addField types fuel f = some (field, below) ↔ f.asFMField = some field ∧
      (f.complexType.target.elim (some []) (addFieldList types fuel)) = some below := by
  rw [addField]
  cases f.asFMField with
  | none => simp
  | some field' =>
    cases f.complexType.target with
    | none => simp
    | some m =>
      cases h : addFieldList types fuel m <;> simp [h]

section

variable {types : Fin count → StructType count} {fuel : Nat}

theorem targets_cons_none {f : CodField count} (fs : List (CodField count))
    (h : f.complexType.target = none) : (f :: fs).filterMap (·.complexType.target) =
      fs.filterMap (·.complexType.target) :=
  List.filterMap_cons_none h

theorem targets_cons_some {f : CodField count} {m : Fin count} (fs : List (CodField count))
    (h : f.complexType.target = some m) : (f :: fs).filterMap (·.complexType.target) =
      m :: fs.filterMap (·.complexType.target) :=
  List.filterMap_cons_some h

theorem fields_of_added
    (ih : ∀ m list, addFieldList types fuel m = some list →
      ∃ order, preorder (fieldTypes types) fuel m = some order ∧
        order.mapM (entry types) = some list)
    {fs : List (CodField count)} {added : List (FMField × List (Entry count))}
    (h : fs.mapM (addField types fuel) = some added) :
    ∃ ls, (fs.filterMap (·.complexType.target)).mapM (preorder (fieldTypes types) fuel) = some ls ∧
      fs.mapM CodField.asFMField = some (added.map Prod.fst) ∧
      ls.flatten.mapM (entry types) = some (added.map Prod.snd).flatten := by
  induction mapM_eq_some_iff.1 h with
  | nil => exact ⟨[], rfl, rfl, rfl⟩
  | @cons f x fs added hf htail ihf =>
    obtain ⟨hfield, hbelow⟩ := addField_eq_some_iff.1 hf
    obtain ⟨ls, hls, hfields, hlist⟩ := ihf (mapM_eq_some_iff.2 htail)
    have hmap : (f :: fs).mapM CodField.asFMField = some ((x :: added).map Prod.fst) := by
      rw [List.mapM_cons, hfield, hfields]
      rfl
    cases htarget : f.complexType.target with
    | none =>
      rw [htarget] at hbelow
      refine ⟨ls, ?_, hmap, ?_⟩
      · rw [targets_cons_none _ htarget, hls]
      · rw [List.map_cons, ← Option.some.inj hbelow, List.flatten_cons, List.nil_append, hlist]
    | some m =>
      rw [htarget] at hbelow
      obtain ⟨order, horder, hentries⟩ := ih m x.2 hbelow
      refine ⟨order :: ls, ?_, hmap, ?_⟩
      · rw [targets_cons_some _ htarget, List.mapM_cons, horder, hls]
        rfl
      · rw [List.flatten_cons, List.mapM_append, hentries, hlist]
        rfl

theorem added_of_fields
    (ih : ∀ m order list, preorder (fieldTypes types) fuel m = some order →
      order.mapM (entry types) = some list → addFieldList types fuel m = some list)
    {fs : List (CodField count)} {ls : List (List (Fin count))} {fields : List FMField}
    {list : List (Entry count)}
    (hls : (fs.filterMap (·.complexType.target)).mapM (preorder (fieldTypes types) fuel) = some ls)
    (hfields : fs.mapM CodField.asFMField = some fields)
    (hlist : ls.flatten.mapM (entry types) = some list) :
    ∃ added, fs.mapM (addField types fuel) = some added ∧ added.map Prod.fst = fields ∧
      (added.map Prod.snd).flatten = list := by
  induction mapM_eq_some_iff.1 hfields generalizing ls list with
  | nil =>
    obtain rfl := Option.some.inj hls
    obtain rfl := Option.some.inj hlist
    exact ⟨[], rfl, rfl, rfl⟩
  | @cons f field fs fields hf htail ihf =>
    cases htarget : f.complexType.target with
    | none =>
      rw [targets_cons_none _ htarget] at hls
      obtain ⟨added, hadded, rfl, rfl⟩ := ihf hls (mapM_eq_some_iff.2 htail) hlist
      have hone : addField types fuel f = some (field, []) :=
        addField_eq_some_iff.2 ⟨hf, by rw [htarget]; rfl⟩
      refine ⟨(field, []) :: added, ?_, rfl, rfl⟩
      rw [List.mapM_cons, hone, hadded]
      rfl
    | some m =>
      rw [targets_cons_some _ htarget, mapM_eq_some_iff, List.forall₂_cons_left_iff] at hls
      obtain ⟨order, ls, horder, hls, rfl⟩ := hls
      rw [List.flatten_cons, List.mapM_append] at hlist
      obtain ⟨below, hbelow, hlist⟩ := Option.bind_eq_some_iff.1 hlist
      obtain ⟨rest, hrest, hlist⟩ := Option.bind_eq_some_iff.1 hlist
      obtain rfl := Option.some.inj hlist
      obtain ⟨added, hadded, rfl, rfl⟩ := ihf (mapM_eq_some_iff.2 hls)
        (mapM_eq_some_iff.2 htail) hrest
      have hone : addField types fuel f = some (field, below) :=
        addField_eq_some_iff.2 ⟨hf, by rw [htarget]; exact ih m order below horder hbelow⟩
      refine ⟨(field, below) :: added, ?_, rfl, rfl⟩
      rw [List.mapM_cons, hone, hadded]
      rfl

/-- The list has the entries of the types in the order in which the recursion comes to them. -/
theorem addFieldList_eq_some_iff {n : Fin count} {list : List (Entry count)} :
    addFieldList types fuel n = some list ↔
      ∃ order, preorder (fieldTypes types) fuel n = some order ∧
        order.mapM (entry types) = some list := by
  induction fuel generalizing n list with
  | zero => simp [addFieldList, preorder]
  | succ fuel ih =>
    rw [addFieldList_succ]
    constructor
    · intro h
      obtain ⟨added, hadded, rfl⟩ := Option.map_eq_some_iff.1 h
      obtain ⟨ls, hls, hfields, hlist⟩ := fields_of_added (fun m list h => ih.1 h) hadded
      refine ⟨n :: ls.flatten, ?_, ?_⟩
      · rw [preorder, fieldTypes, hls]
        rfl
      · rw [List.mapM_cons, entry, hfields, hlist]
        rfl
    · rintro ⟨order, horder, hentries⟩
      obtain ⟨ls, hls, rfl⟩ := Option.map_eq_some_iff.1 horder
      rw [mapM_eq_some_iff, List.forall₂_cons_left_iff] at hentries
      obtain ⟨e, list, he, hlist, rfl⟩ := hentries
      obtain ⟨fields, hfields, rfl⟩ := Option.map_eq_some_iff.1 he
      obtain ⟨added, hadded, rfl, rfl⟩ := added_of_fields
        (fun m order list ho hl => ih.2 ⟨order, ho, hl⟩) hls hfields (mapM_eq_some_iff.2 hlist)
      rw [hadded]
      rfl

theorem buildTypeList_eq_some_iff {typ : TypeRef count} {list : List (Entry count)} :
    buildTypeList types fuel typ = some list ↔
      ∃ n, Direct n typ ∧ addFieldList types fuel n = some list := by
  constructor
  · intro h
    cases typ with
    | struct n => exact ⟨n, .value, h⟩
    | reference t =>
      cases t with
      | struct n => exact ⟨n, .pointer, h⟩
      | declaration t =>
        cases t with
        | struct n => exact ⟨n, .pointerToNamed, h⟩
        | _ => cases h
      | _ => cases h
    | declaration t =>
      cases t with
      | struct n => exact ⟨n, .named, h⟩
      | _ => cases h
    | _ => cases h
  · rintro ⟨n, hn, h⟩
    cases hn with
    | value => exact h
    | pointer => exact h
    | named => exact h
    | pointerToNamed => exact h

end

theorem Direct.target {n : Fin count} {typ : TypeRef count} (h : Direct n typ) :
    typ.target = some n := by
  cases h <;> rfl

/-! ## The entries -/

section

variable {types : Fin count → StructType count}

theorem type_of_entry {n : Fin count} {e : Entry count} (h : entry types n = some e) :
    e.type = n := by
  obtain ⟨fields, -, rfl⟩ := Option.map_eq_some_iff.1 h
  rfl

theorem filterMap_of_mapM {fs : List (CodField count)} {fields : List FMField}
    (h : fs.mapM CodField.asFMField = some fields) :
    fs.filterMap CodField.asFMField = fields := by
  induction mapM_eq_some_iff.1 h with
  | nil => rfl
  | cons hf htail ih =>
    rw [List.filterMap_cons_some hf, ih (mapM_eq_some_iff.2 htail)]

theorem desc_of_entry {n : Fin count} {e : Entry count} (h : entry types n = some e) :
    e.desc = describe types n := by
  obtain ⟨fields, hfields, rfl⟩ := Option.map_eq_some_iff.1 h
  rw [describe, filterMap_of_mapM hfields]

theorem fields_of_entry {n : Fin count} {e : Entry count} (h : entry types n = some e) :
    (types n).fields.mapM CodField.asFMField = some e.desc.fieldList := by
  obtain ⟨fields, hfields, rfl⟩ := Option.map_eq_some_iff.1 h
  exact hfields

theorem entry_isSome_iff {n : Fin count} :
    (∃ e, entry types n = some e) ↔ ∀ f ∈ (types n).fields, f.stringType ≠ none := by
  constructor
  · rintro ⟨e, he⟩ f hf hnone
    obtain ⟨field, -, hfield⟩ := exists_of_mapM_eq_some (fields_of_entry he) hf
    rw [CodField.asFMField, hnone] at hfield
    cases hfield
  · intro h
    obtain ⟨fields, hfields⟩ :
        ∃ fields, (types n).fields.mapM CodField.asFMField = some fields := by
      refine exists_mapM_eq_some fun f hf => ?_
      obtain ⟨fieldType, htype⟩ := Option.ne_none_iff_exists'.1 (h f hf)
      exact ⟨⟨f.name, fieldType, f.cgSize, f.cgOffset⟩, by rw [CodField.asFMField, htype]; rfl⟩
    exact ⟨_, by rw [entry, hfields]; rfl⟩

theorem types_of_entries {order : List (Fin count)} {list : List (Entry count)}
    (h : order.mapM (entry types) = some list) : list.map Entry.type = order := by
  induction mapM_eq_some_iff.1 h with
  | nil => rfl
  | cons he htail ih => rw [List.map_cons, type_of_entry he, ih (mapM_eq_some_iff.2 htail)]

theorem descs_of_entries {order : List (Fin count)} {list : List (Entry count)}
    (h : order.mapM (entry types) = some list) :
    list.map Entry.desc = order.map (describe types) := by
  induction mapM_eq_some_iff.1 h with
  | nil => rfl
  | cons he htail ih =>
    rw [List.map_cons, List.map_cons, desc_of_entry he, ih (mapM_eq_some_iff.2 htail)]

end

/-! ## The fields as they are laid out -/

/-- Laying out changes sizes and offsets only. -/
def Relaid (f g : CodField count) : Prop :=
  g = { f with cgSize := g.cgSize, cgOffset := g.cgOffset }

theorem relaid_refl (fs : List (CodField count)) : List.Forall₂ Relaid fs fs := by
  induction fs with
  | nil => exact .nil
  | cons f fs ih => exact .cons rfl ih

theorem relaid_trans {fs gs hs : List (CodField count)} (h : List.Forall₂ Relaid fs gs)
    (h' : List.Forall₂ Relaid gs hs) : List.Forall₂ Relaid fs hs := by
  induction h generalizing hs with
  | nil =>
    cases h'
    exact .nil
  | cons hg _ ih =>
    cases h' with
    | cons hh htail =>
      refine .cons ?_ (ih htail)
      rw [Relaid] at *
      rw [hh, hg]

theorem layoutLoop_relaid (align size : CodField count → Int32) (last : Int32)
    (fs : List (CodField count)) : List.Forall₂ Relaid fs (layoutLoop align size last fs) := by
  induction fs generalizing last with
  | nil => exact .nil
  | cons f fs ih => exact .cons rfl (ih _)

theorem cgPreprocess_relaid (double : Int32) (align size : CodField count → Int32)
    (t : StructType count) :
    List.Forall₂ Relaid t.fields (cgPreprocess double align size t).fields := by
  rw [cgPreprocess]
  split
  · exact layoutLoop_relaid align size 0 t.fields
  · exact relaid_refl t.fields

theorem cgDecl_relaid (double : Int32) (align : CodField count → Int32) (t : StructType count) :
    List.Forall₂ Relaid t.fields (cgDecl double align t).fields := by
  rw [cgDecl]
  split
  · exact layoutLoop_relaid align _ 0 t.fields
  · exact relaid_refl t.fields

theorem compiled_relaid (double : Int32) (align size : CodField count → Int32)
    (t : StructType count) :
    List.Forall₂ Relaid t.fields (compiled double align size t).fields :=
  relaid_trans (cgPreprocess_relaid double align size t) (cgDecl_relaid double align _)

/-- What the descriptions say of fields settles them. -/
theorem eq_of_relaid {fs gs : List (CodField count)} {fields : List FMField}
    (h : List.Forall₂ Relaid fs gs) (hfs : fs.mapM CodField.asFMField = some fields)
    (hgs : gs.mapM CodField.asFMField = some fields) : gs = fs := by
  induction h generalizing fields with
  | nil => rfl
  | @cons f g fs gs hrel _ ih =>
    rw [mapM_eq_some_iff, List.forall₂_cons_left_iff] at hfs hgs
    obtain ⟨field, fields, hfield, hfields, rfl⟩ := hfs
    obtain ⟨field', fields', hfield', hfields', heq⟩ := hgs
    obtain ⟨rfl, rfl⟩ := List.cons.inj heq
    rw [ih (mapM_eq_some_iff.2 hfields) (mapM_eq_some_iff.2 hfields')]
    obtain ⟨fieldType, -, rfl⟩ := Option.map_eq_some_iff.1 hfield
    obtain ⟨fieldType', -, hsame⟩ := Option.map_eq_some_iff.1 hfield'
    have hsize : g.cgSize = f.cgSize := congrArg FMField.fieldSize hsame
    have hoffset : g.cgOffset = f.cgOffset := congrArg FMField.fieldOffset hsame
    rw [Relaid, hsize, hoffset] at hrel
    rw [hrel]

/-- The first field is put at offset 0. -/
theorem layoutLoop_head (align size : CodField count → Int32) (fs : List (CodField count)) :
    (layoutLoop align size 0 fs).head?.all (·.cgOffset ≠ -1) = true := by
  cases fs with
  | nil => rfl
  | cons f fs =>
    rw [layoutLoop, Int32.zero_mod, if_neg (by decide)]
    rfl

theorem cgPreprocess_of_head (double : Int32) (align size : CodField count → Int32)
    {t : StructType count} (h : t.fields.head?.all (·.cgOffset ≠ -1) = true) :
    cgPreprocess double align size t = t := by
  rw [cgPreprocess, if_neg]
  cases hfields : t.fields with
  | nil => exact Bool.false_ne_true
  | cons f fs =>
    rw [hfields] at h
    simpa using h

theorem cgDecl_head {double : Int32} {align : CodField count → Int32} {t : StructType count}
    (h : t.fields.head?.all (·.cgOffset ≠ -1) = true) :
    (cgDecl double align t).fields.head?.all (·.cgOffset ≠ -1) = true := by
  rw [cgDecl]
  split
  · exact layoutLoop_head align _ t.fields
  · exact h

theorem cgPreprocess_head (double : Int32) (align size : CodField count → Int32)
    (t : StructType count) :
    (cgPreprocess double align size t).fields.head?.all (·.cgOffset ≠ -1) = true := by
  rw [cgPreprocess]
  split
  · exact layoutLoop_head align _ t.fields
  · next hany =>
    cases hfields : t.fields with
    | nil => rfl
    | cons f fs =>
      rw [hfields] at hany
      simpa using hany

theorem compiled_of_laidOut {double : Int32} {align size : CodField count → Int32}
    {t : StructType count} (h : LaidOut align t.fields) :
    compiled double align size t = cgDecl double align t := by
  rw [compiled, cgPreprocess_of_head double align size h.1]

theorem compiled_fields_eq_iff (double : Int32) (align size : CodField count → Int32)
    (t : StructType count) :
    (compiled double align size t).fields = t.fields ↔ LaidOut align t.fields := by
  constructor
  · intro h
    have hhead : t.fields.head?.all (·.cgOffset ≠ -1) = true := by
      rw [← h]
      exact cgDecl_head (cgPreprocess_head double align size t)
    refine ⟨hhead, fun hany => ?_⟩
    rw [compiled, cgPreprocess_of_head double align size hhead, cgDecl, if_pos hany] at h
    exact h
  · intro h
    rw [compiled_of_laidOut h, cgDecl]
    split
    · next hany => exact h.2 hany
    · rfl

theorem compiled_fields_iff {types : Fin count → StructType count} {double : Int32}
    {align size : CodField count → Int32} {n : Fin count} {e : Entry count}
    (h : entry types n = some e) :
    (compiled double align size (types n)).fields.mapM CodField.asFMField =
      some e.desc.fieldList ↔ LaidOut align (types n).fields := by
  rw [← compiled_fields_eq_iff double align size]
  constructor
  · exact eq_of_relaid (compiled_relaid double align size _) (fields_of_entry h)
  · intro heq
    rw [heq]
    exact fields_of_entry h

/-! ## The descriptions -/

section

variable {types : Fin count → StructType count} {double : Int32}
  {align size : CodField count → Int32} {columnMajor ignoreDefaultValues : Bool}

/-- A walk with another count of steps is the same one. -/
theorem preorder_unique {fuel fuel' : Nat} {n : Fin count} {order order' : List (Fin count)}
    (h : preorder (fieldTypes types) fuel n = some order)
    (h' : preorder (fieldTypes types) fuel' n = some order') : order = order' :=
  Option.some.inj ((preorder_mono h (Nat.le_max_left fuel fuel')).symm.trans
    (preorder_mono h' (Nat.le_max_right fuel fuel')))

theorem describable_of_described {typ : TypeRef count}
    (h : TypesDescribed types double align size columnMajor ignoreDefaultValues typ) :
    ∃ n, Describable types double align columnMajor ignoreDefaultValues typ n := by
  obtain ⟨fuel, list, m, hlist, htarget, -, hnodup, -, hfields, hregister, hread⟩ := h
  obtain ⟨n, hdirect, hadd⟩ := buildTypeList_eq_some_iff.1 hlist
  obtain ⟨order, horder, hentries⟩ := addFieldList_eq_some_iff.1 hadd
  rw [types_of_entries hentries] at hnodup
  have hentry : ∀ k, Reaches types n k → ∃ e ∈ list, entry types k = some e := fun k hk =>
    exists_of_mapM_eq_some hentries ((mem_preorder horder).2 hk)
  have hlaidOut : ∀ k, Reaches types n k → LaidOut align (types k).fields := by
    intro k hk
    obtain ⟨e, hmem, he⟩ := hentry k hk
    have hcompiled := (hfields e hmem).2
    rw [type_of_entry he] at hcompiled
    exact (compiled_fields_iff he).1 hcompiled
  refine ⟨n, hdirect, (preorder_nodup_iff horder).1 hnodup, fun k hk => ?_, hlaidOut,
    fun fuel' order' horder' => ?_, fun k k' hk hk' f hf place hplace c hc htwo format hformat => ?_⟩
  · obtain ⟨e, -, he⟩ := hentry k hk
    exact entry_isSome_iff.1 ⟨e, he⟩
  · rw [preorder_unique horder' horder, ← descs_of_entries hentries]
    exact hregister
  · obtain ⟨e, hmem, he⟩ := hentry k hk
    obtain ⟨e', hmem', he'⟩ := hentry k' hk'
    obtain rfl := type_of_entry he
    obtain rfl := type_of_entry he'
    rw [← desc_of_entry he'] at hformat
    have h := hread e hmem f hf place hplace e' hmem' c hc format hformat 1 htwo
    rw [compiled_of_laidOut (hlaidOut _ hk'), Int.ofNat_one, one_mul, one_mul] at h
    exact Int32.toInt_inj.1 h

theorem described_of_describable {typ : TypeRef count} {n : Fin count}
    (h : Describable types double align columnMajor ignoreDefaultValues typ n) :
    TypesDescribed types double align size columnMajor ignoreDefaultValues typ := by
  obtain ⟨fuel, order, horder, hnodup⟩ := preorder_iff.2 h.unique
  obtain ⟨list, hentries⟩ : ∃ list, order.mapM (entry types) = some list :=
    exists_mapM_eq_some fun m hm => entry_isSome_iff.2 (h.typed m ((mem_preorder horder).1 hm))
  have htypes := types_of_entries hentries
  have hreached : ∀ e ∈ list, Reaches types n e.type ∧ e.desc = describe types e.type := by
    intro e he
    obtain ⟨m, hm, hentry⟩ := mem_of_mapM_eq_some hentries he
    rw [type_of_entry hentry]
    exact ⟨(mem_preorder horder).1 hm, desc_of_entry hentry⟩
  refine ⟨fuel, list, n, ?_, h.direct.target, ?_, ?_, fun m => ?_, fun e he => ?_, ?_,
    fun e he f hf place hplace e' he' k hk format hformat i hi => ?_⟩
  · exact buildTypeList_eq_some_iff.2
      ⟨n, h.direct, addFieldList_eq_some_iff.2 ⟨order, horder, hentries⟩⟩
  · rw [htypes]
    cases fuel with
    | zero => cases horder
    | succ fuel =>
      obtain ⟨ls, -, rfl⟩ := Option.map_eq_some_iff.1 horder
      rfl
  · rw [htypes]
    exact hnodup
  · rw [htypes]
    exact mem_preorder horder
  · obtain ⟨m, hm, hentry⟩ := mem_of_mapM_eq_some hentries he
    rw [type_of_entry hentry]
    refine ⟨?_, ?_⟩
    · rw [desc_of_entry hentry]
      rfl
    · exact (compiled_fields_iff hentry).2 (h.laidOut m ((mem_preorder horder).1 hm))
  · rw [descs_of_entries hentries]
    exact h.registered fuel order horder
  · obtain ⟨hreach, hdesc⟩ := hreached e' he'
    cases i with
    | zero => rw [Int.ofNat_zero, zero_mul, zero_mul]
    | succ i =>
      rw [hdesc] at hformat
      rw [compiled_of_laidOut (h.laidOut _ hreach),
        h.spaced _ _ (hreached e he).1 hreach f hf place hplace k hk (by omega) format hformat]

/-- The descriptions of an argument are right just when its struct type is found through at most
one pointer and one name, no struct type is come to on two ways, the fields of those that are
have their type strings and places already, and structs that stand one behind the other have no
space between them that is not in their record length. -/
theorem type_descriptions (typ : TypeRef count) :
    TypesDescribed types double align size columnMajor ignoreDefaultValues typ ↔
      ∃ n, Describable types double align columnMajor ignoreDefaultValues typ n := by
  constructor
  · exact describable_of_described
  · rintro ⟨n, hn⟩
    exact described_of_describable hn

end

/-- `struct n { int v; struct n *p; }` -/
def selfPointing : Fin 1 → StructType 1 := fun _ =>
  ⟨cstr ['n'] (.refl false),
    [⟨cstr ['v'] (.refl false), some (cstr ['i', 'n', 't', 'e', 'g', 'e', 'r'] (.refl false)),
        4, 0, .null⟩,
      ⟨cstr ['p'] (.refl false), some (cstr ['*', 'n'] (.refl false)), 8, 8,
        .reference (.struct 0)⟩], 16⟩

/-- The recursion on a type that points to itself does not end. -/
theorem selfPointing_notDescribed : ¬ TypesDescribed selfPointing 8 (·.cgSize) (·.cgSize) false false
    (.reference (.struct 0)) := by
  intro h
  obtain ⟨n, hn⟩ := describable_of_described h
  obtain rfl : n = 0 := Fin.fin_one_eq_zero n
  have hedge : (fieldTypes selfPointing 0)[0]? = some 0 := rfl
  cases hn.unique 0 [] [0] (.here 0) (.edge hedge (.here 0))

end Cod
end FFS
