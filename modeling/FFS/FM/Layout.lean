import Mathlib
import FFS.Encode.Encode
import FFS.FM.AcceptedFields

/-!
# Where the fields of a record lie

The encoder takes the bytes of a field from its type descriptors.  `register_data_format` checks
for overlaps with an end of its own for each field, which counts one element of an array.
-/

namespace FFS

open Machine

/-! ## The bytes of a field -/

/-- The bytes that a field takes in its record.  A dimension of no static size is behind a
pointer. -/
def inlineSize (formats : List FMFormatBody) (f : FMFormatBody) : List FMTypeDesc → Nat
  | [] => 0
  | desc :: next =>
    match desc.type with
    | .pointer | .string => f.pointerSize
    | .array =>
      if desc.staticSize = 0 then f.pointerSize
      else (desc.staticSize % 2 ^ 64).toNat * inlineSize formats f next
    | .subformat => ((subformatOf formats f desc).map fun sub => sizeOfInt sub.recordLength).getD 0
    | .simple => (f.fieldList[desc.fieldIndex]?.map fun field => sizeOfInt field.fieldSize).getD 0

/-- A field and what is known of its type. -/
abbrev FieldEntry := FMField × FMVarInfo

namespace FieldEntry

variable (formats : List FMFormatBody) (f : FMFormatBody) (entry : FieldEntry)

def offset : Int := entry.1.fieldOffset.toInt

/-- The bytes that the field takes. -/
def taken : Nat := inlineSize formats f entry.2.typeDesc

/-- The bytes that the check for overlaps counts. -/
def counted : Int32 :=
  if entry.2.varArray || (entry.2.typeDesc.head?.map (·.type)) = some .pointer then
    Int32.ofNat sizeofPointer
  else entry.1.fieldSize

/-- Where the field ends. -/
def stop : Int := entry.offset + entry.taken formats f

def extent : Set Int := Set.Ico entry.offset (entry.stop formats f)

/-- The check counts fewer bytes than the field takes. -/
def Undercounted : Prop := entry.counted.toInt < entry.taken formats f

/-- The check counts a size that is not negative and reckons an end that an `int` holds. -/
def Reckoned : Prop :=
  0 ≤ entry.counted.toInt ∧ entry.offset + entry.counted.toInt < 2 ^ 31

instance : Decidable entry.Reckoned := inferInstanceAs (Decidable (_ ∧ _))

end FieldEntry

def FMFormatBody.entries (f : FMFormatBody) : List FieldEntry := f.fieldList.zip f.varList

/-! ## Layouts -/

/-- The fields of a format lie apart from each other and inside its record. -/
structure WellLaidOut (formats : List FMFormatBody) (f : FMFormatBody) : Prop where
  all : f.varList.length = f.fieldList.length
  apart : f.entries.Pairwise fun a b => Disjoint (a.extent formats f) (b.extent formats f)
  inside : ∀ a ∈ f.entries, a.extent formats f ⊆ Set.Ico 0 f.recordLength.toInt

/-- Each field that takes more than is counted still ends before the fields behind it and
before the record does. -/
structure RoomBehind (formats : List FMFormatBody) (f : FMFormatBody) : Prop where
  fields : f.entries.Pairwise fun a b => a.Undercounted formats f →
    a.taken formats f = 0 ∨ b.taken formats f = 0 ∨ a.stop formats f ≤ b.offset
  record : ∀ a ∈ f.entries, a.Undercounted formats f →
    a.taken formats f = 0 ∨ a.stop formats f ≤ f.recordLength.toInt

/-- What the check misses is harmless.  Where it reckons with negative sizes, or with ends that no
`int` holds, it says nothing. -/
def Uncontested (formats : List FMFormatBody) (f : FMFormatBody) : Prop :=
  if ∀ a ∈ f.entries, a.Reckoned then RoomBehind formats f else WellLaidOut formats f

/-! ## What the check says -/

theorem FieldEntry.end_toInt {entry : FieldEntry} (h : entry.Reckoned) :
    (entry.1.fieldOffset + entry.counted).toInt = entry.offset + entry.counted.toInt := by
  obtain ⟨hnonneg, hlt⟩ := h
  have hlow := Int32.le_toInt entry.1.fieldOffset
  have hoffset : entry.offset = entry.1.fieldOffset.toInt := rfl
  rw [hoffset] at hlt ⊢
  rw [Int32.toInt_add]
  exact Int.bmod_eq_of_le (by omega) (by omega)

/-- The entries behind a place of the check, which lie in order up to the last end. -/
theorem lastFieldEnd_spec {formats : List FMFormatBody}
    {rest : List (FMField × FMVarInfo × Option Nat)} {fieldEnd last : Int32}
    (hreckoned : ∀ r ∈ rest, FieldEntry.Reckoned (r.1, r.2.1))
    (h : lastFieldEnd formats fieldEnd rest = some last) :
    (rest.map fun r => (r.1, r.2.1)).Pairwise (fun a b : FieldEntry =>
        a.offset + a.counted.toInt ≤ b.offset) ∧
      (∀ r ∈ rest, fieldEnd.toInt ≤ FieldEntry.offset (r.1, r.2.1) ∧
        FieldEntry.offset (r.1, r.2.1) + (FieldEntry.counted (r.1, r.2.1)).toInt ≤ last.toInt) ∧
      fieldEnd.toInt ≤ last.toInt := by
  induction rest generalizing fieldEnd with
  | nil =>
    cases h
    exact ⟨.nil, by simp, le_refl _⟩
  | cons r rest ih =>
    obtain ⟨field, var, sub⟩ := r
    have hhead : FieldEntry.Reckoned (field, var) := hreckoned (field, var, sub) List.mem_cons_self
    have hnonneg := hhead.1
    rw [lastFieldEnd] at h
    split at h
    · cases h
    · split at h
      · cases h
      · next hoverlap =>
        have hstart : fieldEnd.toInt ≤ FieldEntry.offset (field, var) :=
          Int32.le_iff_toInt_le.mp (Int32.not_lt.mp hoverlap)
        have hend := FieldEntry.end_toInt hhead
        obtain ⟨hpairwise, hbounds, hle⟩ :=
          ih (fun r hr => hreckoned r (List.mem_cons_of_mem _ hr)) h
        have hafter : FieldEntry.offset (field, var) +
            (FieldEntry.counted (field, var)).toInt ≤ last.toInt := by
          rw [← hend]
          exact hle
        have hbehind : ∀ r ∈ rest, FieldEntry.offset (field, var) +
            (FieldEntry.counted (field, var)).toInt ≤ FieldEntry.offset (r.1, r.2.1) := by
          intro r hr
          rw [← hend]
          exact (hbounds r hr).1
        refine ⟨List.pairwise_cons.mpr ⟨?_, hpairwise⟩, ?_, ?_⟩
        · intro b hb
          obtain ⟨r, hr, rfl⟩ := List.mem_map.mp hb
          exact hbehind r hr
        · intro r hr
          rcases List.mem_cons.mp hr with rfl | hr
          · exact ⟨hstart, hafter⟩
          · have hstep := hbehind r hr
            exact ⟨by omega, (hbounds r hr).2⟩
        · omega

/-! ## Accepted formats -/

section
variable {formats : List FMFormatBody} {f : FMFormatBody}

/-- Two fields in order are apart if one is empty or the first ends in time. -/
theorem disjoint_extent_iff {a b : FieldEntry} (h : a.offset ≤ b.offset) :
    Disjoint (a.extent formats f) (b.extent formats f) ↔
      a.taken formats f = 0 ∨ b.taken formats f = 0 ∨ a.stop formats f ≤ b.offset := by
  rw [FieldEntry.extent, FieldEntry.extent, Set.Ico_disjoint_Ico, max_eq_right h, min_le_iff,
    FieldEntry.stop, FieldEntry.stop]
  omega

/-- A field that does not begin before its record is inside if it is empty or ends in time. -/
theorem extent_subset_iff {a : FieldEntry} (h : 0 ≤ a.offset) :
    a.extent formats f ⊆ Set.Ico 0 f.recordLength.toInt ↔
      a.taken formats f = 0 ∨ a.stop formats f ≤ f.recordLength.toInt := by
  rcases Nat.eq_zero_or_pos (a.taken formats f) with hzero | hpos
  · simp [FieldEntry.extent, FieldEntry.stop, hzero]
  · have hlt : a.offset < a.stop formats f := by
      rw [FieldEntry.stop]
      omega
    rw [FieldEntry.extent, Set.Ico_subset_Ico_iff hlt]
    omega

/-- What the check makes sure of where it reckons with proper ends. -/
theorem fieldsFit_spec (hvars : f.varList.length = f.fieldList.length)
    (hsubs : f.fieldSubformats.length = f.fieldList.length)
    (hreckoned : ∀ a ∈ f.entries, a.Reckoned) (h : fieldsFit formats f = true) :
    f.entries.Pairwise (fun a b => a.offset + a.counted.toInt ≤ b.offset) ∧
      ∀ a ∈ f.entries, 0 ≤ a.offset ∧ a.offset + a.counted.toInt ≤ f.recordLength.toInt := by
  have hentries : (f.fieldList.zip (f.varList.zip f.fieldSubformats)).map
      (fun r => (r.1, r.2.1)) = f.entries := by
    have hfst : (f.varList.zip f.fieldSubformats).map Prod.fst = f.varList :=
      List.map_fst_zip (by omega)
    rw [FMFormatBody.entries, ← hfst, List.zip_map_right, hfst]
    rfl
  rw [fieldsFit] at h
  split at h
  · cases h
  · next last hlast =>
    simp only [Bool.not_eq_true', decide_eq_false_iff_not] at h
    have hrecord := Int32.le_iff_toInt_le.mp (Int32.not_lt.mp h)
    have hall : ∀ r ∈ f.fieldList.zip (f.varList.zip f.fieldSubformats),
        FieldEntry.Reckoned (r.1, r.2.1) := by
      intro r hr
      refine hreckoned _ ?_
      rw [← hentries]
      exact List.mem_map_of_mem hr
    obtain ⟨hpairwise, hbounds, -⟩ := lastFieldEnd_spec hall hlast
    rw [hentries] at hpairwise
    refine ⟨hpairwise, fun a ha => ?_⟩
    rw [← hentries] at ha
    obtain ⟨r, hr, rfl⟩ := List.mem_map.mp ha
    obtain ⟨hstart, hend⟩ := hbounds r hr
    exact ⟨hstart, hend.trans hrecord⟩

theorem laidOut_iff_uncontested (hvars : f.varList.length = f.fieldList.length)
    (hsubs : f.fieldSubformats.length = f.fieldList.length) (h : fieldsFit formats f = true) :
    WellLaidOut formats f ↔ Uncontested formats f := by
  rw [Uncontested]
  split
  · next hreckoned =>
    obtain ⟨hpairwise, hbounds⟩ := fieldsFit_spec hvars hsubs hreckoned h
    have horder : f.entries.Pairwise fun a b => a.offset ≤ b.offset := by
      refine hpairwise.imp_of_mem fun ha _ hle => ?_
      have hnonneg := (hreckoned _ ha).1
      omega
    constructor
    · intro hlaid
      refine ⟨?_, fun a ha _ => (extent_subset_iff (hbounds a ha).1).mp (hlaid.inside a ha)⟩
      exact (horder.and hlaid.apart).imp fun hab _ => (disjoint_extent_iff hab.1).mp hab.2
    · intro hroom
      -- A field that is counted in full ends where the check says it does.
      have hcounted : ∀ a : FieldEntry, ¬ a.Undercounted formats f →
          a.stop formats f ≤ a.offset + a.counted.toInt := by
        intro a ha
        rw [FieldEntry.Undercounted] at ha
        rw [FieldEntry.stop]
        omega
      refine ⟨hvars, ?_, fun a ha => ?_⟩
      · refine ((horder.and hpairwise).and hroom.fields).imp ?_
        rintro a b ⟨⟨hle, hend⟩, hfields⟩
        refine (disjoint_extent_iff hle).mpr ?_
        by_cases hunder : a.Undercounted formats f
        · exact hfields hunder
        · exact .inr (.inr ((hcounted a hunder).trans hend))
      · obtain ⟨hstart, hend⟩ := hbounds a ha
        refine (extent_subset_iff hstart).mpr ?_
        by_cases hunder : a.Undercounted formats f
        · exact hroom.record a ha hunder
        · exact .inr ((hcounted a hunder).trans hend)
  · rfl

/-- The formats of an accepted list are laid out as they should be just where the fields that
the check counts too few bytes for leave room for them. -/
theorem registerFormats_laidOut_iff {columnMajor ignoreDefaultValues : Bool}
    {structList : List FMStructDesc} {format : FMFormat}
    (h : registerFormats columnMajor ignoreDefaultValues structList = some format) :
    (∀ f ∈ format.bodies, WellLaidOut format.bodies f) ↔
      ∀ f ∈ format.bodies, Uncontested format.bodies f := by
  obtain ⟨copied, derived, aligned, hregistered⟩ := registration_of_some h
  refine forall₂_congr fun f hf => ?_
  have haccepted := hregistered.acceptedFields hf
  exact laidOut_iff_uncontested haccepted.length_varList haccepted.length_fieldSubformats
    (List.all_eq_true.mp hregistered.fit f hf)

end

/-! ## Examples -/

/-- A path and its points are laid out as they should be. -/
theorem registerFormats_laidOut_iff_path :
    registerFormats false false pathList = some pathFormat ∧
      ∀ f ∈ pathFormat.bodies, WellLaidOut pathFormat.bodies f := by
  refine ⟨registerFormats_pathList,
    (registerFormats_laidOut_iff registerFormats_pathList).mpr fun f hf => ?_⟩
  have hcounted : ∀ f ∈ pathFormat.bodies, ∀ a ∈ f.entries, a.Reckoned ∧
      a.taken pathFormat.bodies f ≤ a.counted.toInt := by decide
  rw [Uncontested, if_pos fun a ha => (hcounted f hf a ha).1]
  refine ⟨List.pairwise_of_forall_mem_list fun a ha _ _ hunder => ?_, fun a ha hunder => ?_⟩
  · exact absurd hunder (not_lt.mpr (hcounted f hf a ha).2)
  · exact absurd hunder (not_lt.mpr (hcounted f hf a ha).2)

/-- Four integers and one that begins behind the first of them. -/
def overlapList : List FMStructDesc :=
  [{ formatName := cstr ['s'] (.refl false),
     fieldList :=
       [{ fieldName := cstr ['a'] (.refl false),
          fieldType := cstr ['i', 'n', 't', 'e', 'g', 'e', 'r', '[', '4', ']'] (.refl false),
          fieldSize := 4, fieldOffset := 0 },
        { fieldName := cstr ['b'] (.refl false),
          fieldType := cstr ['i', 'n', 't', 'e', 'g', 'e', 'r'] (.refl false),
          fieldSize := 4, fieldOffset := 4 }],
     structSize := 16, optInfo := [] }]

/-- The list is accepted, and its fields overlap. -/
theorem overlapList_not_laidOut :
    ∃ format, registerFormats false false overlapList = some format ∧
      ¬ WellLaidOut format.bodies format.top := by
  have hsome : (registerFormats false false overlapList).any (fun format =>
      format.top.entries.map (fun a => (a.offset, a.taken format.bodies format.top)) =
        [(0, 16), (4, 4)]) = true := by decide
  obtain ⟨format, hformat, hentries⟩ := (Option.any_eq_true _ _).mp hsome
  refine ⟨format, hformat, fun hlaid => ?_⟩
  obtain ⟨a, rest, heq, ha, hrest⟩ := List.map_eq_cons_iff.mp (of_decide_eq_true hentries)
  obtain ⟨b, behind, hbehind, hb, -⟩ := List.map_eq_cons_iff.mp hrest
  have hapart := hlaid.apart
  rw [heq, hbehind] at hapart
  have hdisjoint := List.rel_of_pairwise_cons hapart List.mem_cons_self
  obtain ⟨haoffset, hataken⟩ := Prod.mk.inj ha
  obtain ⟨hboffset, hbtaken⟩ := Prod.mk.inj hb
  have hends := (disjoint_extent_iff (by omega)).mp hdisjoint
  rw [FieldEntry.stop] at hends
  omega

end FFS
