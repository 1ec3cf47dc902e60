import FFS.Encode.Visit

/-!
# The walk in other modes

`FFSencode_no_leaf_copy` reserves room for the target of a pointer where `FFSencode` copies
it, and a buffer of fixed size may have no room for a block.  The walk is otherwise the same.
Here its steps are parameters, and the state has, next to the one of the encoder, the parts of
the message that nothing was copied to.  The walk follows the one of `FFSencode` as long as the
steps do, whatever was in the buffer before.
-/

namespace FFS

open Machine

/-- The state of an encoder, with the offsets of blocks that were reserved and not copied. -/
structure Tracked where
  state : EncodeState
  reserved : List (Nat × Block)

/-- The steps of a walk: to read a pointer, to place what one points to, and to copy a block. -/
structure Mode where
  pointer : Tracked → Nat → Nat → Option Nat
  target : Mem → Tracked → Block → Nat → Option (Tracked × Nat × Nat)
  copy : Mem → Tracked → Block → Nat → Option (Tracked × Nat × Nat)

namespace Tracked

def put (t : Tracked) (offset size value : Nat) : Tracked :=
  { t with state := t.state.quickPutUlong offset size value }

def remember (t : Tracked) (recursive : Bool) (addr offset : Nat) : Tracked :=
  if recursive then { t with state := t.state.addToAddrList addr offset } else t

/-- Bytes of the message, none of them reserved. -/
structure Clear (t : Tracked) (d n : Nat) : Prop where
  inside : d + n ≤ t.state.outputLen
  apart : ∀ entry ∈ t.reserved, d + n ≤ entry.1 ∨ entry.1 + entry.2.length ≤ d

end Tracked

section

variable (mode : Mode) (formats : List FMFormatBody)

/-- `handle_subfields` -/
def walkSubfields (walk : Tracked → List FMTypeDesc → Nat → Nat → Option Tracked)
    (f : FMFormatBody) (t : Tracked) (dataOffset : Nat) : Option Tracked :=
  if !f.variant then some t
  else
    (f.fieldList.zip f.varList).foldlM (fun t (field, var) => do
      if ← fieldIsFlat formats f var.typeDesc then return t
      else walk t var.typeDesc (dataOffset + sizeOfInt field.fieldOffset) dataOffset) t

/-- `handle_subfield` -/
def walkSubfield (mem : Mem) : Nat → FMFormatBody → Tracked → List FMTypeDesc → Nat → Nat →
    Option Tracked
  | 0, _, _, _, _, _ => none
  | _ + 1, _, _, [], _, _ => none
  | fuel + 1, f, t, desc :: next, dataOffset, parentOffset =>
    match desc.type with
    | .pointer => do
      let ptrValue ← mode.pointer t dataOffset f.pointerSize
      if ptrValue = 0 then return t
      else
        match if f.recursive then t.state.searchAddrList ptrValue else none with
        | some previous => return t.put dataOffset f.pointerSize previous
        | none =>
          let size ← determineSize formats f t.state.buf.tmpBuffer parentOffset next
          if size = 0 then return t.put dataOffset f.pointerSize 0
          else
            let flat ← fieldIsFlat formats f next
            let (t, newOffset, tmpDataLoc) ←
              mode.target mem t { leaf := flat, alignment := 8, length := size } ptrValue
            let offset := newOffset - t.state.savedOffsetDifference
            let t := (t.put dataOffset f.pointerSize offset).remember f.recursive ptrValue offset
            if flat then return t
            else walkSubfield mem fuel f t next tmpDataLoc parentOffset
    | .string => do
      let ptrValue ← mode.pointer t dataOffset f.pointerSize
      if ptrValue = 0 then return t
      else
        let length ← stringLength mem fuel ptrValue
        let (t, strOffset, _) ←
          mode.copy mem t { leaf := true, alignment := 1, length := length + 1 } ptrValue
        return t.put dataOffset f.pointerSize (strOffset - t.state.savedOffsetDifference)
    | .array => do
      let (elements, element) ←
        arrayElements f t.state.buf.tmpBuffer parentOffset (desc :: next)
      let elementSize ← determineSize formats f t.state.buf.tmpBuffer parentOffset element
      if ← fieldIsFlat formats f element then return t
      else
        (List.range elements).foldlM (fun t i =>
          walkSubfield mem fuel f t element (dataOffset + i * elementSize) parentOffset) t
    | .subformat => do
      let sub ← subformatOf formats f desc
      walkSubfields formats (walkSubfield mem fuel sub) sub t dataOffset
    | .simple => none

end

/-- `FFSencode_internal` behind the header. -/
def walkRecord (mode : Mode) (mem : Mem) (fuel : Nat) (format : StoredFormat) (data : Nat)
    (t : Tracked) : Option Tracked := do
  let top := format.format.top
  let headerSize := t.state.outputLen
  let (t, baseOffset, _) ← mode.copy mem t
    { leaf := !top.variant, alignment := 1, length := sizeOfInt top.recordLength } data
  if !top.variant then return t
  else
    let t := t.remember top.recursive data baseOffset
    let (t, _, _) ← mode.copy mem t { leaf := false, alignment := 8, length := 0 } 0
    let t ← walkSubfields format.format.bodies (walkSubfield mode format.format.bodies mem fuel top)
      top t baseOffset
    return { t with
      state := t.state.store format.serverID.length (leBytes 8 (t.state.outputLen - headerSize)) }

/-! ## What a walk keeps -/

section

variable {mode : Mode} {formats : List FMFormatBody} {mem : Mem}

/-- A relation that each step of a mode keeps. -/
structure Mode.Keeps (mode : Mode) (mem : Mem) (R : Tracked → Tracked → Prop) : Prop where
  refl : ∀ t, R t t
  trans : ∀ {t t' t''}, R t t' → R t' t'' → R t t''
  put : ∀ {t d n v} value, mode.pointer t d n = some v → R t (t.put d n value)
  target : ∀ {t d n v block addr t' r} value recursive offset,
    mode.pointer t d n = some v → mode.target mem t block addr = some (t', r) →
      R t ((t'.put d n value).remember recursive addr offset)
  copy : ∀ {t d n v block addr t' r} value,
    mode.pointer t d n = some v → mode.copy mem t block addr = some (t', r) →
      R t (t'.put d n value)
  record : ∀ {t block addr t' r}, mode.copy mem t block addr = some (t', r) → R t t'

theorem walkSubfields_keeps {R : Tracked → Tracked → Prop} (hmode : mode.Keeps mem R)
    {walk : Tracked → List FMTypeDesc → Nat → Nat → Option Tracked}
    (hwalk : ∀ {t chain d p t'}, walk t chain d p = some t' → R t t') {f : FMFormatBody}
    {t t' : Tracked} {d : Nat} (h : walkSubfields formats walk f t d = some t') : R t t' := by
  unfold walkSubfields at h
  by_cases hvariant : f.variant = true
  · rw [hvariant, Bool.not_true, if_neg Bool.false_ne_true] at h
    refine foldlM_invariant (R t) (fun {t₁ entry t₂} ht hstep => ?_) (hmode.refl t) h
    obtain ⟨flat, -, hstep⟩ := Option.bind_eq_some_iff.mp hstep
    cases flat with
    | true =>
      cases hstep
      exact ht
    | false => exact hmode.trans ht (hwalk hstep)
  · rw [Bool.eq_false_iff.mpr hvariant, Bool.not_false, if_pos rfl] at h
    cases h
    exact hmode.refl t

/-- A walk keeps what its steps keep. -/
theorem walkSubfield_keeps {R : Tracked → Tracked → Prop} (hmode : mode.Keeps mem R) (fuel : Nat) :
    ∀ {f t chain d p t'}, walkSubfield mode formats mem fuel f t chain d p = some t' → R t t' := by
  induction fuel with
  | zero =>
    intro f t chain d p t' h
    cases h
  | succ fuel ih =>
    intro f t chain d p t' h
    cases chain with
    | nil => cases h
    | cons desc next =>
      rw [walkSubfield] at h
      cases hdesc : desc.type with
      | pointer =>
        simp only [hdesc] at h
        obtain ⟨ptr, hptr, h⟩ := Option.bind_eq_some_iff.mp h
        by_cases hnull : ptr = 0
        · rw [if_pos hnull] at h
          cases h
          exact hmode.refl t
        · rw [if_neg hnull] at h
          cases hfound : (if f.recursive = true then t.state.searchAddrList ptr else none) with
          | some previous =>
            rw [hfound] at h
            cases h
            exact hmode.put previous hptr
          | none =>
            rw [hfound] at h
            obtain ⟨size, -, h⟩ := Option.bind_eq_some_iff.mp h
            by_cases hempty : size = 0
            · rw [if_pos hempty] at h
              cases h
              exact hmode.put 0 hptr
            · rw [if_neg hempty] at h
              obtain ⟨flat, -, h⟩ := Option.bind_eq_some_iff.mp h
              obtain ⟨⟨t₁, newOffset, loc⟩, htarget, h⟩ := Option.bind_eq_some_iff.mp h
              have hstep := hmode.target (newOffset - t₁.state.savedOffsetDifference) f.recursive
                (newOffset - t₁.state.savedOffsetDifference) hptr htarget
              cases flat with
              | true =>
                cases h
                exact hstep
              | false => exact hmode.trans hstep (ih h)
      | string =>
        simp only [hdesc] at h
        obtain ⟨ptr, hptr, h⟩ := Option.bind_eq_some_iff.mp h
        by_cases hnull : ptr = 0
        · rw [if_pos hnull] at h
          cases h
          exact hmode.refl t
        · rw [if_neg hnull] at h
          obtain ⟨length, -, h⟩ := Option.bind_eq_some_iff.mp h
          obtain ⟨⟨t₁, strOffset, loc⟩, hcopy, h⟩ := Option.bind_eq_some_iff.mp h
          cases h
          exact hmode.copy _ hptr hcopy
      | array =>
        simp only [hdesc] at h
        obtain ⟨⟨elements, element⟩, -, h⟩ := Option.bind_eq_some_iff.mp h
        obtain ⟨elementSize, -, h⟩ := Option.bind_eq_some_iff.mp h
        obtain ⟨flat, -, h⟩ := Option.bind_eq_some_iff.mp h
        cases flat with
        | true =>
          cases h
          exact hmode.refl t
        | false =>
          exact foldlM_invariant (R t) (fun ht hstep => hmode.trans ht (ih hstep))
            (hmode.refl t) h
      | subformat =>
        simp only [hdesc] at h
        obtain ⟨sub, -, h⟩ := Option.bind_eq_some_iff.mp h
        exact walkSubfields_keeps hmode ih h
      | simple =>
        simp only [hdesc] at h
        cases h

end

/-- A state with more blocks behind the ones of another. -/
structure EncodeState.Further (s s' : EncodeState) : Prop where
  outputLen : s.outputLen ≤ s'.outputLen
  blocks : s.blocks <+: s'.blocks

namespace EncodeState.Further

variable {s s' s'' : EncodeState}

theorem refl (s : EncodeState) : s.Further s := ⟨Nat.le_refl _, List.prefix_refl _⟩

theorem trans (h : s.Further s') (h' : s'.Further s'') : s.Further s'' :=
  ⟨Nat.le_trans h.outputLen h'.outputLen, h.blocks.trans h'.blocks⟩

theorem put (h : s.Further s') (d n value : Nat) : s.Further (s'.quickPutUlong d n value) :=
  ⟨h.1, h.2⟩

theorem remember (h : s.Further s') (recursive : Bool) (addr offset : Nat) :
    s.Further (if recursive = true then s'.addToAddrList addr offset else s') := by
  cases recursive with
  | true => exact ⟨h.1, h.2⟩
  | false => exact h

theorem addIovec (h : s.Further s') (length : Nat) (base : IOBase) :
    s.Further (s'.addIovec length base) := ⟨h.1, h.2⟩

theorem allocateTmpSpace (s : EncodeState) (length reqAlignment : Nat) :
    s.Further (s.allocateTmpSpace length reqAlignment).1 := by
  cases hend : tmpEnd s.iovec with
  | none =>
    rw [EncodeState.allocateTmpSpace_of_user hend]
    exact ⟨Nat.le_trans (Nat.le_add_right _ _) (Nat.le_add_right _ _), List.prefix_refl _⟩
  | some e =>
    rw [EncodeState.allocateTmpSpace_of_tmp hend]
    exact ⟨Nat.le_trans (Nat.le_add_right _ _) (Nat.le_add_right _ _), List.prefix_refl _⟩

theorem copyDataToTmp (s : EncodeState) (data : List UInt8) (reqAlignment : Nat) :
    s.Further (s.copyDataToTmp data reqAlignment).1 := by
  have hallocated := allocateTmpSpace s data.length reqAlignment
  exact ⟨hallocated.1, hallocated.2⟩

theorem placeBlock (mem : Mem) (s : EncodeState) (block : Block) (addr : Nat) :
    s.Further (s.placeBlock mem block addr).1 := by
  have hadded : s.Further { s with blocks := s.blocks ++ [block] } :=
    ⟨Nat.le_refl _, List.prefix_append _ _⟩
  unfold EncodeState.placeBlock
  dsimp only
  split
  · refine hadded.trans ⟨?_, List.prefix_refl _⟩
    exact Nat.le_trans (Nat.le_add_right _ _) (Nat.le_add_right _ _)
  · exact hadded.trans (copyDataToTmp _ _ _)

end EncodeState.Further

section

variable {formats : List FMFormatBody} {mem : Mem}

theorem handleSubfields_further
    {handle : EncodeState → List FMTypeDesc → Nat → Nat → Option EncodeState}
    (hhandle : ∀ {s chain d p s'}, handle s chain d p = some s' → s.Further s')
    {f : FMFormatBody} {s s' : EncodeState} {d : Nat}
    (h : handleSubfields formats handle f s d = some s') : s.Further s' := by
  unfold handleSubfields at h
  by_cases hvariant : f.variant = true
  · rw [hvariant, Bool.not_true, if_neg Bool.false_ne_true] at h
    refine foldlM_invariant s.Further (fun {s₁ entry s₂} hs hstep => ?_)
      (EncodeState.Further.refl s) h
    obtain ⟨flat, -, hstep⟩ := Option.bind_eq_some_iff.mp hstep
    cases flat with
    | true =>
      cases hstep
      exact hs
    | false => exact hs.trans (hhandle hstep)
  · rw [Bool.eq_false_iff.mpr hvariant, Bool.not_false, if_pos rfl] at h
    cases h
    exact EncodeState.Further.refl s

/-- A walk only adds to a message. -/
theorem handleSubfield_further (fuel : Nat) :
    ∀ {f s chain d p s'}, handleSubfield formats mem fuel f s chain d p = some s' →
      s.Further s' := by
  induction fuel with
  | zero =>
    intro f s chain d p s' h
    cases h
  | succ fuel ih =>
    intro f s chain d p s' h
    have hrefl := EncodeState.Further.refl s
    cases chain with
    | nil => cases h
    | cons desc next =>
      rw [handleSubfield] at h
      cases hdesc : desc.type with
      | pointer =>
        simp only [hdesc] at h
        generalize quickGetUlong s.buf.tmpBuffer d f.pointerSize = ptr at h
        by_cases hnull : ptr = 0
        · rw [if_pos hnull] at h
          cases h
          exact hrefl
        · rw [if_neg hnull] at h
          cases hfound : (if f.recursive = true then s.searchAddrList ptr else none) with
          | some previous =>
            rw [hfound] at h
            cases h
            exact hrefl.put _ _ _
          | none =>
            rw [hfound] at h
            obtain ⟨size, -, h⟩ := Option.bind_eq_some_iff.mp h
            by_cases hempty : size = 0
            · rw [if_pos hempty] at h
              cases h
              exact hrefl.put _ _ _
            · rw [if_neg hempty] at h
              obtain ⟨flat, -, h⟩ := Option.bind_eq_some_iff.mp h
              have hplaced : s.Further (if (s.noLeafCopy && (s.copyAll || !flat)) = true then
                  s.reserveSpaceForDataInTmp size 8
                  else s.placeBlock mem ⟨flat, 8, size⟩ ptr).1 := by
                split
                · exact (EncodeState.Further.allocateTmpSpace s size 8).addIovec _ _
                · exact EncodeState.Further.placeBlock mem s _ ptr
              have hstep := fun value offset =>
                (hplaced.put d f.pointerSize value).remember f.recursive ptr offset
              cases flat with
              | true =>
                cases h
                exact hstep _ _
              | false => exact (hstep _ _).trans (ih h)
      | string =>
        simp only [hdesc] at h
        generalize quickGetUlong s.buf.tmpBuffer d f.pointerSize = ptr at h
        by_cases hnull : ptr = 0
        · rw [if_pos hnull] at h
          cases h
          exact hrefl
        · rw [if_neg hnull] at h
          obtain ⟨length, -, h⟩ := Option.bind_eq_some_iff.mp h
          cases h
          exact (EncodeState.Further.placeBlock mem s _ ptr).put _ _ _
      | array =>
        simp only [hdesc] at h
        obtain ⟨⟨elements, element⟩, -, h⟩ := Option.bind_eq_some_iff.mp h
        obtain ⟨elementSize, -, h⟩ := Option.bind_eq_some_iff.mp h
        obtain ⟨flat, -, h⟩ := Option.bind_eq_some_iff.mp h
        cases flat with
        | true =>
          cases h
          exact hrefl
        | false =>
          exact foldlM_invariant s.Further (fun hs hstep => hs.trans (ih hstep)) hrefl h
      | subformat =>
        simp only [hdesc] at h
        obtain ⟨sub, -, h⟩ := Option.bind_eq_some_iff.mp h
        exact handleSubfields_further ih h
      | simple =>
        simp only [hdesc] at h
        cases h

end

end FFS
