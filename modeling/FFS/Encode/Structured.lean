import Mathlib.Data.List.Pairwise
import FFS.Encode.Value

/-!
# Readings of structures

The fields of a C structure lie in it one beside the other.  What is read of a flat field depends
on its bytes alone, and the sizes of a chain on the counts of its dimensions.
-/

namespace FFS

open Machine

/-! ## Structures -/

/-- The fields of a C structure have a size, lie in it one beside the other, and the counts of its
dynamic arrays are fields of simple types.  One that has no part behind it has no pointers. -/
structure Structured (formats : List FMFormatBody) (f : FMFormatBody) : Prop where
  sized : ∀ entry ∈ f.fieldList.zip f.varList,
    (recordExtent formats f entry.2.typeDesc).isSome = true
  inside : ∀ entry ∈ f.fieldList.zip f.varList, InRecord f (pointerSpan formats f entry)
  apart : (f.fieldList.zip f.varList).Pairwise fun entry other =>
    Apart (pointerSpan formats f entry) (pointerSpan formats f other)
  counts : ∀ entry ∈ f.fieldList.zip f.varList, ∀ control ∈ controls f entry.2.typeDesc,
    ∃ counter ∈ f.fieldList.zip f.varList, counter.1 = control ∧
      counter.2.typeDesc.map (·.type) = [.simple] ∧
      recordExtent formats f counter.2.typeDesc = some (controlSize control)
  flat : f.variant = false → ∀ entry ∈ f.fieldList.zip f.varList,
    fieldIsFlat formats f entry.2.typeDesc = some true

instance (formats : List FMFormatBody) (f : FMFormatBody) : Decidable (Structured formats f) :=
  decidable_of_iff (_ ∧ _ ∧ _ ∧ _ ∧ _)
    ⟨fun h => ⟨h.1, h.2.1, h.2.2.1, h.2.2.2.1, h.2.2.2.2⟩, fun h => ⟨h.1, h.2, h.3, h.4, h.5⟩⟩

variable {formats : List FMFormatBody} {f : FMFormatBody}

theorem Apart.symm {a b : Nat × Nat} (h : Apart a b) : Apart b a := Or.symm h

namespace Structured

theorem extent (h : Structured formats f) {entry : FMField × FMVarInfo}
    (hentry : entry ∈ f.fieldList.zip f.varList) :
    recordExtent formats f entry.2.typeDesc = some (pointerSpan formats f entry).2 := by
  obtain ⟨extent, hextent⟩ := Option.isSome_iff_exists.mp (h.sized entry hentry)
  rw [pointerSpan, hextent]
  rfl

theorem beside (h : Structured formats f) {entry other : FMField × FMVarInfo}
    (hentry : entry ∈ f.fieldList.zip f.varList) (hother : other ∈ f.fieldList.zip f.varList)
    (hne : entry ≠ other) : Apart (pointerSpan formats f entry) (pointerSpan formats f other) := by
  have hsymm : Std.Symm fun entry other =>
      Apart (pointerSpan formats f entry) (pointerSpan formats f other) :=
    ⟨fun _ _ => Apart.symm⟩
  exact h.apart.forall hentry hother hne

/-- The field that holds a count. -/
theorem counter (h : Structured formats f) {entry : FMField × FMVarInfo}
    (hentry : entry ∈ f.fieldList.zip f.varList) {control : FMField}
    (hcontrol : control ∈ controls f entry.2.typeDesc) :
    ∃ counter ∈ f.fieldList.zip f.varList, counter.1 = control ∧
      pointerSpan formats f counter = countSpan control ∧
      fieldIsFlat formats f counter.2.typeDesc = some true := by
  obtain ⟨counter, hcounter, rfl, htypes, hextent⟩ := h.counts entry hentry control hcontrol
  refine ⟨counter, hcounter, rfl, ?_, ?_⟩
  · rw [pointerSpan, hextent]
    rfl
  · obtain ⟨desc, next, hchain, hdesc, -⟩ := List.map_eq_cons_iff.mp htypes
    rw [hchain, fieldIsFlat]
    simp only [hdesc]

end Structured

/-! ## Counts -/

/-- Two sets of counts agree on the dimensions of a chain. -/
def SameCounts (c c' : DimenCounts) : List FMTypeDesc → Prop
  | [] => True
  | desc :: next =>
    match desc.type with
    | .array => dimenCount c' desc = dimenCount c desc ∧ SameCounts c c' next
    | .pointer => SameCounts c c' next
    | .string | .subformat | .simple => True

variable {c c' : DimenCounts} {chain element : List FMTypeDesc}

theorem SameCounts.array {desc : FMTypeDesc} {next : List FMTypeDesc}
    (h : SameCounts c c' (desc :: next)) (hdesc : desc.type = .array) :
    dimenCount c' desc = dimenCount c desc ∧ SameCounts c c' next := by
  simpa only [SameCounts, hdesc] using h

theorem SameCounts.pointer {desc : FMTypeDesc} {next : List FMTypeDesc}
    (h : SameCounts c c' (desc :: next)) (hdesc : desc.type = .pointer) :
    SameCounts c c' next := by
  simpa only [SameCounts, hdesc] using h

theorem sameCounts_refl (c : DimenCounts) (chain : List FMTypeDesc) : SameCounts c c chain := by
  induction chain with
  | nil => exact trivial
  | cons desc next ih =>
    rw [SameCounts]
    cases desc.type with
    | array => exact ⟨rfl, ih⟩
    | pointer => exact ih
    | string => exact trivial
    | subformat => exact trivial
    | simple => exact trivial

theorem sizeOfChain_congr (h : SameCounts c c' chain) :
    sizeOfChain formats f c' chain = sizeOfChain formats f c chain := by
  induction chain with
  | nil => rfl
  | cons desc next ih =>
    rw [sizeOfChain, sizeOfChain]
    cases hdesc : desc.type with
    | array => simp only [(h.array hdesc).1, ih (h.array hdesc).2]
    | pointer => rfl
    | string => rfl
    | subformat => rfl
    | simple => rfl

theorem elementsOf_congr (h : SameCounts c c' chain) :
    elementsOf c' chain = elementsOf c chain := by
  induction chain with
  | nil => rfl
  | cons desc next ih =>
    rw [elementsOf, elementsOf]
    by_cases hdesc : desc.type = .array
    · simp only [if_pos hdesc, (h.array hdesc).1, ih (h.array hdesc).2]
    · rw [if_neg hdesc, if_neg hdesc]

/-- The first link of a chain that is an array has a count, and the rest has elements. -/
theorem elementsOf_array {desc : FMTypeDesc} {next : List FMTypeDesc} {count : Nat}
    (hdesc : desc.type = .array) (h : elementsOf c (desc :: next) = some (count, element)) :
    ∃ dimen rest, dimenCount c desc = some dimen ∧ elementsOf c next = some (rest, element) ∧
      count = dimen * rest := by
  simp only [elementsOf, if_pos hdesc, Option.bind_eq_bind, Option.bind_eq_some_iff,
    Option.pure_def, Option.some.injEq, Prod.mk.injEq] at h
  obtain ⟨dimen, hdimen, ⟨rest, element'⟩, hrest, rfl, rfl⟩ := h
  exact ⟨dimen, rest, hdimen, hrest, rfl⟩

theorem elementsOf_other {desc : FMTypeDesc} {next : List FMTypeDesc} {count : Nat}
    (hdesc : desc.type ≠ .array) (h : elementsOf c (desc :: next) = some (count, element)) :
    count = 1 ∧ element = desc :: next := by
  rw [elementsOf, if_neg hdesc] at h
  cases h
  exact ⟨rfl, rfl⟩

/-- What is known of the elements of an array. -/
theorem elementsOf_spec {count : Nat} (h : elementsOf c chain = some (count, element)) :
    (∀ size, sizeOfChain formats f c element = some size →
      sizeOfChain formats f c chain = some (count * size)) ∧
    fieldIsFlat formats f element = fieldIsFlat formats f chain ∧
    (∀ c', SameCounts c c' chain → SameCounts c c' element) ∧
    controls f element ⊆ controls f chain ∧
    ∃ desc next, element = desc :: next ∧ desc.type ≠ .array := by
  induction chain generalizing count with
  | nil => cases h
  | cons desc next ih =>
    by_cases hdesc : desc.type = .array
    · obtain ⟨dimen, rest, hdimen, hrest, rfl⟩ := elementsOf_array hdesc h
      obtain ⟨hsize, hflat, hsame, hsub, hhead⟩ := ih hrest
      refine ⟨fun size hs => ?_, ?_, fun c' hc => hsame c' (hc.array hdesc).2,
        fun control hcontrol => controls_tail f desc next (hsub hcontrol), hhead⟩
      · rw [sizeOfChain]
        simp only [hdesc, hdimen, hsize size hs, Option.bind_eq_bind, Option.bind_some,
          Option.pure_def, Nat.mul_assoc]
      · rw [hflat]
        conv_rhs => rw [fieldIsFlat]
        simp only [hdesc]
    · obtain ⟨rfl, rfl⟩ := elementsOf_other hdesc h
      exact ⟨fun size hs => by rw [hs, Nat.one_mul], rfl, fun _ hc => hc, List.Subset.refl _,
        desc, next, rfl, hdesc⟩

theorem sizeOfChain_of_extent {extent : Nat} (h : recordExtent formats f chain = some extent)
    (c : DimenCounts) : sizeOfChain formats f c chain = some extent := by
  induction chain generalizing extent with
  | nil => cases h
  | cons desc next ih =>
    rw [recordExtent] at h
    rw [sizeOfChain]
    cases hdesc : desc.type with
    | array =>
      simp only [hdesc] at h ⊢
      by_cases hsize : desc.staticSize = 0
      · rw [if_pos hsize] at h
        cases h
      · rw [if_neg hsize] at h
        obtain ⟨rest, hrest, rfl⟩ := Option.map_eq_some_iff.mp h
        rw [ih hrest, dimenCount, if_neg hsize]
        rfl
    | pointer => simpa only [hdesc] using h
    | string => simpa only [hdesc] using h
    | subformat => simpa only [hdesc] using h
    | simple => simpa only [hdesc] using h

/-- The dimensions of a flat field are static. -/
theorem sameCounts_of_flat {extent : Nat} (h : recordExtent formats f chain = some extent)
    (hflat : fieldIsFlat formats f chain = some true) (c c' : DimenCounts) :
    SameCounts c c' chain := by
  induction chain generalizing extent with
  | nil => exact trivial
  | cons desc next ih =>
    rw [recordExtent] at h
    rw [fieldIsFlat] at hflat
    rw [SameCounts]
    cases hdesc : desc.type with
    | array =>
      simp only [hdesc] at h hflat ⊢
      by_cases hsize : desc.staticSize = 0
      · rw [if_pos hsize] at h
        cases h
      · rw [if_neg hsize] at h
        obtain ⟨rest, hrest, -⟩ := Option.map_eq_some_iff.mp h
        exact ⟨by rw [dimenCount, dimenCount, if_neg hsize, if_neg hsize], ih hrest hflat⟩
    | pointer =>
      simp only [hdesc] at hflat
      cases hflat
    | string => exact trivial
    | subformat => exact trivial
    | simple => exact trivial

/-! ## Readings -/

variable {links links' : Links} {m m' : Mem} {fuel : Nat}

theorem fieldIsFlat_of_sized {n : Nat} (h : sizeOfChain formats f c chain = some n) :
    ∃ flat, fieldIsFlat formats f chain = some flat := by
  induction chain generalizing n with
  | nil => cases h
  | cons desc next ih =>
    rw [sizeOfChain] at h
    rw [fieldIsFlat]
    cases hdesc : desc.type with
    | array =>
      simp only [hdesc, Option.bind_eq_bind, Option.bind_eq_some_iff] at h
      obtain ⟨-, -, size, hsize, -⟩ := h
      exact ih hsize
    | pointer => exact ⟨false, rfl⟩
    | string => exact ⟨false, rfl⟩
    | subformat =>
      simp only [hdesc] at h
      obtain ⟨sub, hsub, -⟩ := Option.map_eq_some_iff.mp h
      simp only [subformatOf, Option.bind_eq_bind, Option.bind_eq_some_iff] at hsub
      obtain ⟨entry, hentry, number, hnumber, hformat⟩ := hsub
      exact ⟨!sub.variant, by simp [hentry, hnumber, hformat]⟩
    | simple => exact ⟨true, rfl⟩

/-- Counts that agree on a chain read the same. -/
theorem readValue_congr {addr : Nat} {r : Reading} (h : SameCounts c c' chain) :
    readValue formats links m fuel f c' chain addr r =
      readValue formats links m fuel f c chain addr r := by
  induction fuel generalizing chain addr r with
  | zero => rfl
  | succ fuel ih =>
    cases chain with
    | nil => rfl
    | cons desc next =>
      rw [readValue, readValue]
      cases hdesc : desc.type with
      | array =>
        simp only [elementsOf_congr h]
        cases helements : elementsOf c (desc :: next) with
        | none => rfl
        | some found =>
          obtain ⟨count, element⟩ := found
          have hsame := (@elementsOf_spec formats f _ _ _ _ helements).2.2.1 c' h
          simp only [Option.bind_eq_bind, Option.bind_some, sizeOfChain_congr hsame, ih hsame]
      | pointer =>
        have hsame := h.pointer hdesc
        simp only [sizeOfChain_congr hsame, ih hsame]
      | string => rfl
      | subformat => rfl
      | simple => rfl

/-! ## Flat chains -/

theorem read_eq_of_bytes {a a' n : Nat} (h : ∀ k < n, m' (a' + k) = m (a + k)) :
    m'.read a' n = m.read a n :=
  List.map_congr_left fun k hk => h k (List.mem_range.mp hk)

/-- A part of the same bytes. -/
theorem bytes_sub {a a' n k size : Nat} (h : ∀ i < n, m' (a' + i) = m (a + i))
    (hk : k + size ≤ n) : ∀ i < size, m' (a' + k + i) = m (a + k + i) := by
  intro i hi
  rw [Nat.add_assoc, Nat.add_assoc]
  exact h (k + i) (by omega)

/-- The length of a string depends on its bytes up to the end. -/
theorem stringLength_congr {bound a a' length : Nat}
    (h : stringLength m bound a = some length) (hbytes : ∀ k ≤ length, m' (a' + k) = m (a + k)) :
    stringLength m' bound a' = some length := by
  induction bound generalizing a a' length with
  | zero => cases h
  | succ bound ih =>
    rw [stringLength] at h ⊢
    have hfirst : m' a' = m a := hbytes 0 (Nat.zero_le _)
    rw [hfirst]
    split at h
    · next hend => rw [if_pos hend, h]
    · next hend =>
      obtain ⟨rest, hrest, rfl⟩ := Option.map_eq_some_iff.mp h
      have hnext : stringLength m' bound (a' + 1) = some rest := ih hrest fun k hk => by
        rw [Nat.add_assoc, Nat.add_assoc, Nat.add_comm 1 k]
        exact hbytes (k + 1) (by omega)
      rw [if_neg hend, hnext]
      rfl

/-- A flat chain reads the same wherever its bytes lie, and leaves the reading where it was. -/
def ReadsFlat (formats : List FMFormatBody) (fuel : Nat) : Prop :=
  ∀ {f : FMFormatBody} {chain : List FMTypeDesc} {links links' : Links} {m m' : Mem}
    {c c' : DimenCounts} {addr addr' n : Nat} {r r' t : Reading} {v : Value},
    readValue formats links m fuel f c chain addr r = some (v, t) →
    fieldIsFlat formats f chain = some true → sizeOfChain formats f c chain = some n →
    SameCounts c c' chain → (∀ k < n, m' (addr' + k) = m (addr + k)) →
    t = r ∧ readValue formats links' m' fuel f c' chain addr' r' = some (v, r')

/-- The record of a format that has no part behind it. -/
theorem readEntries_flat (h : Structured formats f) (hflat : f.variant = false)
    (hread : ReadsFlat formats fuel) {addr addr' : Nat} {r r' t : Reading} {v : Value}
    (hbytes : ∀ k < sizeOfInt f.recordLength, m' (addr' + k) = m (addr + k))
    (hrun : readEntries (readValue formats links m fuel f) f m addr r = some (v, t)) :
    t = r ∧
      readEntries (readValue formats links' m' fuel f) f m' addr' r' = some (v, r') := by
  simp only [readEntries, Option.bind_eq_bind, Option.bind_eq_some_iff, Option.pure_def,
    Option.some.injEq] at hrun ⊢
  obtain ⟨⟨values, last⟩, hvalues, heq⟩ := hrun
  cases heq
  have hstep : ∀ entry ∈ f.fieldList.zip f.varList, ∀ s s' value s₁, (s = r ∧ s' = r') →
      readValue formats links m fuel f (countAt f m addr) entry.2.typeDesc
        (addr + sizeOfInt entry.1.fieldOffset) s = some (value, s₁) →
      ∃ t', readValue formats links' m' fuel f (countAt f m' addr') entry.2.typeDesc
        (addr' + sizeOfInt entry.1.fieldOffset) s' = some (value, t') ∧ s₁ = r ∧ t' = r' := by
    rintro entry hentry s s' value s₁ ⟨rfl, rfl⟩ hvalue
    have hextent := h.extent hentry
    have hchain := h.flat hflat entry hentry
    obtain ⟨rfl, hvalue'⟩ := hread hvalue hchain (sizeOfChain_of_extent hextent _)
      (sameCounts_of_flat hextent hchain _ _) (bytes_sub hbytes (h.inside entry hentry))
    exact ⟨s', hvalue', rfl, rfl⟩
  obtain ⟨t', hrun', rfl, rfl⟩ := threaded_related hstep ⟨rfl, rfl⟩ hvalues
  exact ⟨rfl, ⟨values, t'⟩, hrun', rfl⟩

theorem readsFlat (h : ∀ f ∈ formats, Structured formats f) (fuel : Nat) :
    ReadsFlat formats fuel := by
  induction fuel with
  | zero => exact fun hread => by cases hread
  | succ fuel ih =>
    intro f chain links links' m m' c c' addr addr' n r r' t v hread hflat hsize hsame hbytes
    cases chain with
    | nil => cases hread
    | cons desc next =>
      rw [readValue] at hread ⊢
      cases hdesc : desc.type with
      | pointer =>
        simp only [fieldIsFlat, hdesc] at hflat
        cases hflat
      | string =>
        simp only [fieldIsFlat, hdesc] at hflat
        cases hflat
      | array =>
        simp only [hdesc, Option.bind_eq_bind, Option.bind_eq_some_iff, Option.pure_def,
          Option.some.injEq] at hread
        obtain ⟨⟨count, element⟩, helements, size, hs, ⟨values, last⟩, hvalues, heq⟩ := hread
        cases heq
        obtain ⟨hfill, helement, hsub, -, -⟩ :=
          @elementsOf_spec formats f _ _ _ _ helements
        have hfilled : count * size = n := Option.some.inj ((hfill size hs).symm.trans hsize)
        have hstep : ∀ i ∈ List.range count, ∀ s s' value s₁, (s = r ∧ s' = r') →
            readValue formats links m fuel f c element (addr + i * size) s = some (value, s₁) →
            ∃ t', readValue formats links' m' fuel f c' element (addr' + i * size) s' =
              some (value, t') ∧ s₁ = r ∧ t' = r' := by
          rintro i hi s s' value s₁ ⟨rfl, rfl⟩ hvalue
          have hin : i * size + size ≤ n := by
            calc i * size + size = (i + 1) * size := (Nat.succ_mul i size).symm
              _ ≤ count * size := Nat.mul_le_mul_right size (List.mem_range.mp hi)
              _ = n := hfilled
          obtain ⟨rfl, hvalue'⟩ := ih hvalue (helement.trans hflat) hs (hsub c' hsame)
            (bytes_sub hbytes hin)
          exact ⟨s', hvalue', rfl, rfl⟩
        obtain ⟨t', hrun, rfl, rfl⟩ := threaded_related hstep ⟨rfl, rfl⟩ hvalues
        refine ⟨rfl, ?_⟩
        simp only [elementsOf_congr hsame, helements, Option.bind_eq_bind, Option.bind_some,
          sizeOfChain_congr (hsub c' hsame), hs, hrun, Option.pure_def]
      | subformat =>
        simp only [hdesc, Option.bind_eq_bind, Option.bind_eq_some_iff] at hread ⊢
        obtain ⟨sub, hsub, hentries⟩ := hread
        have hn : sizeOfInt sub.recordLength = n := by
          simpa only [sizeOfChain, hdesc, hsub, Option.map_some, Option.some.injEq] using hsize
        have hvariant : sub.variant = false := by
          simp only [subformatOf, Option.bind_eq_bind, Option.bind_eq_some_iff] at hsub
          obtain ⟨entry, hentry, number, rfl, hformat⟩ := hsub
          simpa [fieldIsFlat, hdesc, hentry, hformat] using hflat
        obtain ⟨rfl, hentries'⟩ :=
          @readEntries_flat _ _ _ links' _ _ _ (h sub (mem_of_subformatOf hsub)) hvariant ih _ _ _
            r' _ _ (hn ▸ hbytes) hentries
        exact ⟨rfl, sub, hsub, hentries'⟩
      | simple =>
        simp only [hdesc, Option.bind_eq_bind, Option.bind_eq_some_iff, Option.pure_def,
          Option.some.injEq] at hread ⊢
        obtain ⟨field, hfield, heq⟩ := hread
        cases heq
        have hn : sizeOfInt field.fieldSize = n := by
          simpa only [sizeOfChain, hdesc, hfield, Option.map_some, Option.some.injEq] using hsize
        refine ⟨rfl, field, hfield, ?_⟩
        rw [read_eq_of_bytes (hn ▸ hbytes)]

/-- The fields that count elements lie in their record. -/
theorem Structured.count_inside (hstruct : Structured formats f) {entry : FMField × FMVarInfo}
    (hentry : entry ∈ f.fieldList.zip f.varList) {control : FMField}
    (hcontrol : control ∈ controls f entry.2.typeDesc) :
    sizeOfInt control.fieldOffset + controlSize control ≤ sizeOfInt f.recordLength := by
  obtain ⟨counter, hcounter, rfl, hplace, -⟩ := hstruct.counter hentry hcontrol
  have hin := hstruct.inside counter hcounter
  rw [hplace] at hin
  exact hin

end FFS
