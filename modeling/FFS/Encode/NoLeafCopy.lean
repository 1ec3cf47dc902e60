import FFS.Encode.ModesFollow
import FFS.Encode.VectorEncode

/-!
# No leaf copy

`FFSencode_no_leaf_copy` is to leave out the bytes of blocks that need no walk.  It reserves
every block that a pointer leads to, and then walks those with pointers in them where nothing
was copied.  The message is the one of `FFSencode`, but for flat blocks, exactly for values that
have no other blocks behind pointers.
-/

namespace FFS

open Machine

/-- `FFSencode_no_leaf_copy` -/
def encodeNoLeafCopy (mem : Mem) (fuel : Nat) (b : FFSBuffer) (format : StoredFormat)
    (data : Nat) : Option (FFSBuffer × List UInt8) := do
  let s ← encodeRecord mem fuel format data (initEncodeState true true b)
  return (s.buf, s.buf.tmpBuffer.read 0 s.outputLen)

instance (t : Tracked) (d n : Nat) : Decidable (t.Clear d n) :=
  decidable_of_iff (_ ∧ _) ⟨fun h => ⟨h.1, h.2⟩, fun h => ⟨h.1, h.2⟩⟩

/-- The walk with blocks reserved, which stops at a pointer in bytes that nothing was stored
in. -/
def noLeafMode : Mode where
  pointer t d n := if t.Clear d n then some (quickGetUlong t.state.buf.tmpBuffer d n) else none
  target _ t block _ :=
    let (state, msgOffset, tmpData) :=
      t.state.reserveSpaceForDataInTmp block.length block.alignment
    some ({ state, reserved := t.reserved ++ [(tmpData, block)] }, msgOffset, tmpData)
  copy mem t block addr :=
    let (state, place) := t.state.placeBlock mem block addr
    some ({ t with state }, place)

/-- The beginning of a message in a used buffer. -/
def Tracked.start (noLeafCopy : Bool) (b : FFSBuffer) (format : StoredFormat) : Tracked :=
  { state := (initEncodeState true noLeafCopy b).setupHeader format, reserved := [] }

/-- `FFSencode_no_leaf_copy` follows no pointer that nothing was stored in. -/
def ReadsStored (mem : Mem) (fuel : Nat) (b : FFSBuffer) (format : StoredFormat) (data : Nat) :
    Prop :=
  (walkRecord noLeafMode mem fuel format data (.start true b format)).isSome = true

/-! ## The walk that stops is the walk -/

variable {mem : Mem} {formats : List FMFormatBody}

/-- The state of `FFSencode_no_leaf_copy`. -/
structure Tracked.NoLeaf (t : Tracked) : Prop where
  copyAll : t.state.copyAll = true
  noLeafCopy : t.state.noLeafCopy = true

theorem allocateTmpSpace_flags (s : EncodeState) (length reqAlignment : Nat) :
    (s.allocateTmpSpace length reqAlignment).1.copyAll = s.copyAll ∧
      (s.allocateTmpSpace length reqAlignment).1.noLeafCopy = s.noLeafCopy := by
  cases hend : tmpEnd s.iovec with
  | none =>
    rw [EncodeState.allocateTmpSpace_of_user hend]
    exact ⟨rfl, rfl⟩
  | some e =>
    rw [EncodeState.allocateTmpSpace_of_tmp hend]
    exact ⟨rfl, rfl⟩

theorem placeBlock_eq_copyDataToTmp {s : EncodeState} (h : s.copyAll = true) (block : Block)
    (addr : Nat) :
    s.placeBlock mem block addr =
      { s with blocks := s.blocks ++ [block] }.copyDataToTmp (mem.read addr block.length)
        block.alignment := by
  rw [EncodeState.placeBlock, h]
  rfl

theorem Tracked.NoLeaf.copy {t t' : Tracked} {block : Block} {addr : Nat} {r : Nat × Nat}
    (h : t.NoLeaf) (hcopy : noLeafMode.copy mem t block addr = some (t', r)) :
    t.state.placeBlock mem block addr = (t'.state, r) ∧ t'.NoLeaf := by
  cases hcopy
  have hplace := @placeBlock_eq_copyDataToTmp mem t.state h.copyAll block addr
  have hflags := allocateTmpSpace_flags { t.state with blocks := t.state.blocks ++ [block] }
    (mem.read addr block.length).length block.alignment
  refine ⟨rfl, ?_, ?_⟩
  · show (t.state.placeBlock mem block addr).1.copyAll = true
    rw [hplace]
    exact hflags.1.trans h.copyAll
  · show (t.state.placeBlock mem block addr).1.noLeafCopy = true
    rw [hplace]
    exact hflags.2.trans h.noLeafCopy

theorem Tracked.NoLeaf.target {t t' : Tracked} {block : Block} {addr : Nat} {r : Nat × Nat}
    (h : t.NoLeaf) (htarget : noLeafMode.target mem t block addr = some (t', r)) :
    t.state.reserveSpaceForDataInTmp block.length block.alignment = (t'.state, r) ∧ t'.NoLeaf := by
  cases htarget
  have hflags := allocateTmpSpace_flags t.state block.length block.alignment
  exact ⟨rfl, hflags.1.trans h.copyAll, hflags.2.trans h.noLeafCopy⟩

theorem Tracked.NoLeaf.put {t : Tracked} (h : t.NoLeaf) (d n value : Nat) :
    (t.put d n value).NoLeaf := ⟨h.1, h.2⟩

theorem Tracked.NoLeaf.remember {t : Tracked} (h : t.NoLeaf) (recursive : Bool)
    (addr offset : Nat) : (t.remember recursive addr offset).NoLeaf := by
  cases recursive with
  | true => exact ⟨h.1, h.2⟩
  | false => exact h

theorem state_remember (t : Tracked) (recursive : Bool) (addr offset : Nat) :
    (t.remember recursive addr offset).state =
      if recursive = true then t.state.addToAddrList addr offset else t.state := by
  cases recursive <;> rfl

theorem pointer_eq_some {t : Tracked} {d n v : Nat} (h : noLeafMode.pointer t d n = some v) :
    t.Clear d n ∧ v = quickGetUlong t.state.buf.tmpBuffer d n := by
  unfold noLeafMode at h
  simp only at h
  by_cases hclear : t.Clear d n
  · rw [if_pos hclear, Option.some.injEq] at h
    exact ⟨hclear, h.symm⟩
  · rw [if_neg hclear] at h
    cases h

theorem walkSubfields_erases
    {handle : EncodeState → List FMTypeDesc → Nat → Nat → Option EncodeState}
    {walk : Tracked → List FMTypeDesc → Nat → Nat → Option Tracked}
    (hwalk : ∀ {t chain d p t'}, t.NoLeaf → walk t chain d p = some t' →
      handle t.state chain d p = some t'.state ∧ t'.NoLeaf)
    {f : FMFormatBody} {t t' : Tracked} {d : Nat} (ht : t.NoLeaf)
    (h : walkSubfields formats walk f t d = some t') :
    handleSubfields formats handle f t.state d = some t'.state ∧ t'.NoLeaf := by
  unfold walkSubfields at h
  unfold handleSubfields
  by_cases hvariant : f.variant = true
  · rw [hvariant, Bool.not_true, if_neg Bool.false_ne_true] at h ⊢
    refine foldlM_image Tracked.NoLeaf (fun {t₁ entry t₂} ht hstep => ?_) ht h
    obtain ⟨flat, hflat, hstep⟩ := Option.bind_eq_some_iff.mp hstep
    dsimp only
    rw [hflat]
    cases flat with
    | true =>
      cases hstep
      exact ⟨rfl, ht⟩
    | false => exact hwalk ht hstep
  · rw [Bool.eq_false_iff.mpr hvariant, Bool.not_false, if_pos rfl] at h ⊢
    cases h
    exact ⟨rfl, ht⟩

/-- Where the walk does not stop, it is the one of `FFSencode_no_leaf_copy`. -/
theorem walkSubfield_erases (fuel : Nat) :
    ∀ {f t chain d p t'}, Tracked.NoLeaf t →
      walkSubfield noLeafMode formats mem fuel f t chain d p = some t' →
        handleSubfield formats mem fuel f t.state chain d p = some t'.state ∧ t'.NoLeaf := by
  induction fuel with
  | zero =>
    intro f t chain d p t' _ h
    cases h
  | succ fuel ih =>
    intro f t chain d p t' ht h
    cases chain with
    | nil => cases h
    | cons desc next =>
      rw [walkSubfield] at h
      rw [handleSubfield]
      cases hdesc : desc.type with
      | pointer =>
        simp only [hdesc] at h ⊢
        obtain ⟨ptr, hptr, h⟩ := Option.bind_eq_some_iff.mp h
        rw [← (pointer_eq_some hptr).2]
        by_cases hnull : ptr = 0
        · rw [if_pos hnull] at h ⊢
          cases h
          exact ⟨rfl, ht⟩
        · rw [if_neg hnull] at h ⊢
          cases hfound : (if f.recursive = true then t.state.searchAddrList ptr else none) with
          | some previous =>
            rw [hfound] at h
            cases h
            exact ⟨rfl, ht.put _ _ _⟩
          | none =>
            rw [hfound] at h
            obtain ⟨size, hsize, h⟩ := Option.bind_eq_some_iff.mp h
            rw [hsize]
            by_cases hempty : size = 0
            · rw [if_pos hempty] at h
              cases h
              simp only [hempty, Option.bind_eq_bind, Option.bind_some, if_true]
              exact ⟨rfl, ht.put _ _ _⟩
            · rw [if_neg hempty] at h
              obtain ⟨flat, hflat, h⟩ := Option.bind_eq_some_iff.mp h
              obtain ⟨⟨t₁, r⟩, htarget, h⟩ := Option.bind_eq_some_iff.mp h
              obtain ⟨hreserve, ht₁⟩ := ht.target htarget
              simp only at hreserve
              simp only [Option.bind_eq_bind, Option.bind_some, if_neg hempty, hflat, ht.noLeafCopy,
                ht.copyAll, Bool.true_and, Bool.true_or, if_true, hreserve]
              have ht₂ := fun value => (ht₁.put d f.pointerSize value).remember f.recursive ptr value
              cases flat with
              | true =>
                cases h
                simp only [if_true, state_remember]
                exact ⟨rfl, ht₂ _⟩
              | false =>
                have hnext := ih (ht₂ _) h
                simp only [state_remember] at hnext
                exact hnext
      | string =>
        simp only [hdesc] at h ⊢
        obtain ⟨ptr, hptr, h⟩ := Option.bind_eq_some_iff.mp h
        rw [← (pointer_eq_some hptr).2]
        by_cases hnull : ptr = 0
        · rw [if_pos hnull] at h ⊢
          cases h
          exact ⟨rfl, ht⟩
        · rw [if_neg hnull] at h ⊢
          obtain ⟨length, hlength, h⟩ := Option.bind_eq_some_iff.mp h
          obtain ⟨⟨t₁, r⟩, hcopy, h⟩ := Option.bind_eq_some_iff.mp h
          obtain ⟨hplace, ht₁⟩ := ht.copy hcopy
          cases h
          simp only [Option.bind_eq_bind, hlength, Option.bind_some, hplace]
          exact ⟨rfl, ht₁.put _ _ _⟩
      | array =>
        simp only [hdesc] at h ⊢
        obtain ⟨⟨elements, element⟩, helements, h⟩ := Option.bind_eq_some_iff.mp h
        obtain ⟨elementSize, hsize, h⟩ := Option.bind_eq_some_iff.mp h
        obtain ⟨flat, hflat, h⟩ := Option.bind_eq_some_iff.mp h
        simp only [helements, hsize, hflat, Option.bind_eq_bind, Option.bind_some]
        cases flat with
        | true =>
          cases h
          exact ⟨rfl, ht⟩
        | false => exact foldlM_image Tracked.NoLeaf (fun ht hstep => ih ht hstep) ht h
      | subformat =>
        simp only [hdesc] at h ⊢
        obtain ⟨sub, hsub, h⟩ := Option.bind_eq_some_iff.mp h
        rw [hsub]
        exact walkSubfields_erases ih ht h
      | simple =>
        simp only [hdesc] at h
        cases h

theorem walkRecord_erases {format : StoredFormat} {fuel data : Nat} {s : EncodeState}
    {t t' : Tracked} (hstart : t.state = s.setupHeader format) (ht : t.NoLeaf)
    (h : walkRecord noLeafMode mem fuel format data t = some t') :
    encodeRecord mem fuel format data s = some t'.state := by
  unfold walkRecord at h
  unfold encodeRecord
  dsimp only at h ⊢
  obtain ⟨⟨t₁, r⟩, hcopy, h⟩ := Option.bind_eq_some_iff.mp h
  obtain ⟨hplace, ht₁⟩ := ht.copy hcopy
  rw [← hstart, hplace]
  cases hvariant : format.format.top.variant with
  | false =>
    rw [hvariant] at h
    cases h
    rfl
  | true =>
    simp only [hvariant, Bool.not_true, Bool.false_eq_true, if_false] at h ⊢
    obtain ⟨⟨t₂, r'⟩, hcopy', h⟩ := Option.bind_eq_some_iff.mp h
    obtain ⟨t₃, hwalk, h⟩ := Option.bind_eq_some_iff.mp h
    cases h
    obtain ⟨hplace', ht₂⟩ := (ht₁.remember format.format.top.recursive data r.1).copy hcopy'
    have hwalked := (walkSubfields_erases (walkSubfield_erases fuel) ht₂ hwalk).1
    rw [state_remember] at hplace'
    rw [hplace']
    dsimp only
    rw [hwalked]
    rfl

/-! ## Where the blocks are -/

/-- A block that a pointer leads to.  The base record and strings are not aligned to 8, and the
block that aligns what follows the record is empty. -/
def Block.pointedTo (block : Block) : Bool := block.alignment = 8 && block.length ≠ 0

/-- The blocks behind a header, with their offsets. -/
def placements (header : Nat) : List Block → List (Nat × Block)
  | [] => []
  | block :: rest =>
    let offset := header + alignPad block.alignment header
    (offset, block) :: placements (offset + block.length) rest

/-- The end of the last block. -/
def endOf (header : Nat) (blocks : List Block) : Nat :=
  blocks.foldl (fun len block => len + alignPad block.alignment len + block.length) header

theorem placements_append (header : Nat) (blocks rest : List Block) :
    placements header (blocks ++ rest) =
      placements header blocks ++ placements (endOf header blocks) rest := by
  induction blocks generalizing header with
  | nil => rfl
  | cons block blocks ih =>
    rw [List.cons_append, placements, placements, ih, List.cons_append]
    rfl

theorem endOf_append (header : Nat) (blocks : List Block) (block : Block) :
    endOf header (blocks ++ [block]) =
      endOf header blocks + alignPad block.alignment (endOf header blocks) + block.length := by
  rw [endOf, List.foldl_append]
  rfl

theorem le_endOf (header : Nat) (blocks : List Block) : header ≤ endOf header blocks := by
  induction blocks generalizing header with
  | nil => exact Nat.le_refl header
  | cons block blocks ih =>
    have hle := ih (header + alignPad block.alignment header + block.length)
    show header ≤ endOf (header + alignPad block.alignment header + block.length) blocks
    omega

theorem placements_bounds {header : Nat} {blocks : List Block} :
    ∀ entry ∈ placements header blocks,
      header ≤ entry.1 ∧ entry.1 + entry.2.length ≤ endOf header blocks := by
  induction blocks generalizing header with
  | nil =>
    intro entry hentry
    cases hentry
  | cons block blocks ih =>
    intro entry hentry
    rw [placements] at hentry
    cases List.mem_cons.mp hentry with
    | inl hhead =>
      subst hhead
      exact ⟨Nat.le_add_right _ _, le_endOf _ blocks⟩
    | inr htail =>
      obtain ⟨hbegin, hend⟩ := ih entry htail
      exact ⟨by omega, hend⟩

theorem block_mem_of_placements {header : Nat} {blocks : List Block} {entry : Nat × Block}
    (h : entry ∈ placements header blocks) : entry.2 ∈ blocks := by
  induction blocks generalizing header with
  | nil => cases h
  | cons block blocks ih =>
    rw [placements] at h
    cases List.mem_cons.mp h with
    | inl hhead =>
      subst hhead
      exact List.mem_cons_self
    | inr htail => exact List.mem_cons_of_mem _ (ih htail)

/-- Blocks do not overlap. -/
theorem placements_apart (header : Nat) (blocks : List Block) :
    (placements header blocks).Pairwise fun a b => a.1 + a.2.length ≤ b.1 := by
  induction blocks generalizing header with
  | nil => exact List.Pairwise.nil
  | cons block blocks ih =>
    rw [placements]
    exact List.Pairwise.cons (fun entry hentry => (placements_bounds entry hentry).1) (ih _)

/-- A byte of a block is in no other block. -/
theorem outside_of_placements {header i : Nat} {blocks : List Block} {entry other : Nat × Block}
    (hentry : entry ∈ placements header blocks) (hother : other ∈ placements header blocks)
    (hne : entry ≠ other) (hi : entry.1 ≤ i ∧ i < entry.1 + entry.2.length) :
    i < other.1 ∨ other.1 + other.2.length ≤ i := by
  have happart := placements_apart header blocks
  have hpair := List.Pairwise.forall_of_forall_of_flip (R := fun a b : Nat × Block =>
    a ≠ b → a.1 + a.2.length ≤ b.1 ∨ b.1 + b.2.length ≤ a.1) (fun _ _ hself => absurd rfl hself)
    (happart.imp fun hle _ => .inl hle) (happart.imp fun hle _ => .inr hle) hentry hother hne
  omega

/-! ## The mode follows -/

/-- What is reserved: the blocks that pointers lead to. -/
def NoLeafFits (header : Nat) (len : Nat) (blocks : List Block) (reserved : List (Nat × Block)) :
    Prop :=
  len = endOf header blocks ∧
    reserved = (placements header blocks).filter fun entry => entry.2.pointedTo

/-- Pointers lead to flat blocks only. -/
def OnlyFlat (blocks : List Block) : Prop := ∀ block ∈ blocks, block.pointedTo = true → block.leaf = true

instance (blocks : List Block) : Decidable (OnlyFlat blocks) :=
  inferInstanceAs (Decidable (∀ block ∈ blocks, _))

/-- A block with pointers in it that was not copied. -/
def LeftOut (header : Nat) (s : EncodeState) (t : Tracked) : Prop :=
  ∃ entry ∈ t.reserved, entry ∈ placements header s.blocks ∧ entry.2.leaf = false ∧
    entry.2.length ≠ 0

theorem onlyFlat_append {blocks : List Block} {block : Block} :
    OnlyFlat (blocks ++ [block]) ↔
      OnlyFlat blocks ∧ (block.pointedTo = true → block.leaf = true) := by
  unfold OnlyFlat
  rw [List.forall_mem_append, List.forall_mem_singleton]

/-- The state with padding and room that nothing was stored in. -/
theorem reserve_lengthened {s : EncodeState} (htmp : (tmpEnd s.iovec).isSome = true)
    (hinUse : s.buf.inUseSize = s.outputLen) (length alignment : Nat) :
    let pad := alignPad alignment s.outputLen
    Lengthened s (s.reserveSpaceForDataInTmp length alignment).1 pad length ∧
      (s.reserveSpaceForDataInTmp length alignment).2 = (s.outputLen + pad, s.outputLen + pad) ∧
      ∀ i, s.outputLen + pad ≤ i →
        (s.reserveSpaceForDataInTmp length alignment).1.buf.tmpBuffer i = s.buf.tmpBuffer i := by
  intro pad
  obtain ⟨e, he⟩ := Option.isSome_iff_exists.mp htmp
  unfold EncodeState.reserveSpaceForDataInTmp
  rw [EncodeState.allocateTmpSpace_of_tmp he, hinUse]
  dsimp only [EncodeState.addIovec]
  refine ⟨⟨⟨rfl, rfl, rfl, rfl⟩, rfl, rfl, ?_, fun hi => ?_, fun hk => ?_⟩, rfl, fun i hi => ?_⟩
  · by_cases hlength : length = 0
    · rw [hlength, append_piece_zero, tmpEnd_extendLast _ he]
      rfl
    · rw [tmpEnd_append_tmp _ hlength]
      rfl
  · exact Mem.write_outside (.inl hi)
  · dsimp only
    rw [Mem.write_inside (by omega) (by rw [List.length_replicate]; omega), getD_replicate_zero]
  · exact Mem.write_outside (.inr (by rw [List.length_replicate]; exact hi))

variable {header : Nat} {s : EncodeState} {t : Tracked} {block : Block}

theorem not_pointedTo (h : block.Unreserved) : block.pointedTo = false := by
  unfold Block.pointedTo
  cases h with
  | inl hpacked => rw [hpacked]; rfl
  | inr hempty => rw [hempty.2]; simp

theorem pointedTo_of (halign : block.alignment = 8) (hlength : block.length ≠ 0) :
    block.pointedTo = true := by
  unfold Block.pointedTo
  rw [halign, decide_eq_true hlength]
  rfl

/-- One more block in both. -/
theorem NoLeafFits.append {s' : EncodeState} (h : Twin (NoLeafFits header) s t) {pad : Nat}
    (hpad : pad = alignPad block.alignment s.outputLen)
    (hs : Lengthened s s' pad block.length) (hblocks : s'.blocks = s.blocks ++ [block]) :
    NoLeafFits header s'.outputLen s'.blocks
      (t.reserved ++ if block.pointedTo then [(s.outputLen + pad, block)] else []) := by
  obtain ⟨hlen, hreserved⟩ := h.fits
  subst hpad
  rw [hs.outputLen, hblocks]
  refine ⟨?_, ?_⟩
  · rw [endOf_append, ← hlen]
  · rw [placements_append, List.filter_append, ← hreserved, ← hlen]
    show _ = t.reserved ++ List.filter _ [(s.outputLen + alignPad block.alignment s.outputLen, block)]
    rw [List.filter_singleton]
    cases block.pointedTo <;> rfl

theorem copy_eq (mem : Mem) (t : Tracked) (block : Block) (addr : Nat) :
    noLeafMode.copy mem t block addr =
      some ({ t with state := (t.state.placeBlock mem block addr).1 },
        (t.state.placeBlock mem block addr).2) := rfl

theorem target_eq (mem : Mem) (t : Tracked) (block : Block) (addr : Nat) :
    noLeafMode.target mem t block addr =
      some ({
        state := (t.state.reserveSpaceForDataInTmp block.length block.alignment).1,
        reserved := t.reserved ++
          [((t.state.reserveSpaceForDataInTmp block.length block.alignment).2.2, block)] },
        (t.state.reserveSpaceForDataInTmp block.length block.alignment).2) := rfl

theorem noLeaf_copy (h : Twin (NoLeafFits header) s t) (addr : Nat)
    (hblock : block.Unreserved) :
    ∃ t', noLeafMode.copy mem t block addr = some (t', (s.placeBlock mem block addr).2) ∧
      Twin (NoLeafFits header) (s.placeBlock mem block addr).1 t' ∧ t.Grown t' ∧
      t'.Clear (s.placeBlock mem block addr).2.1 block.length := by
  obtain ⟨hs, hblocks, -⟩ := @placeBlock_lengthened s mem h.copyAll h.tmp h.inUse block addr
  have hfits := NoLeafFits.append h rfl hs hblocks
  rw [not_pointedTo hblock, if_neg Bool.false_ne_true, List.append_nil] at hfits
  obtain ⟨hplace, htwin, hgrown, hclear⟩ := h.copied block addr hfits
  exact ⟨_, congrArg (fun place => some (_, place)) hplace, htwin, hgrown, hclear⟩

theorem noLeaf_target (h : Twin (NoLeafFits header) s t) (addr : Nat) (halign : block.alignment = 8)
    (hlength : block.length ≠ 0) :
    ∃ t', noLeafMode.target mem t block addr = some (t', (s.placeBlock mem block addr).2) ∧
      Twin (NoLeafFits header) (s.placeBlock mem block addr).1 t' ∧ t.Grown t' ∧
      ((s.placeBlock mem block addr).2.1, block) ∈ t'.reserved := by
  obtain ⟨hs, hblocks, hplace, -⟩ := @placeBlock_lengthened s mem h.copyAll h.tmp h.inUse block addr
  obtain ⟨ht, hplace', -⟩ := @reserve_lengthened t.state h.tmp' (h.inUse'.trans h.outputLen.symm)
    block.length block.alignment
  have hfits := NoLeafFits.append h rfl hs hblocks
  rw [pointedTo_of halign hlength, if_pos rfl] at hfits
  rw [h.outputLen] at ht hplace'
  obtain ⟨htwin, hgrown⟩ := h.lengthened hs ht (fun entry hentry => by
    cases List.mem_singleton.mp hentry
    exact ⟨Nat.le_add_right _ _, Nat.le_refl _⟩) (fun k hk hout => by
    have hin := hout _ List.mem_cons_self
    dsimp only at hin
    omega) hfits
  refine ⟨_, ?_, htwin, hgrown, ?_⟩
  · rw [target_eq, hplace', hplace]
  · rw [hplace]
    exact List.mem_append_right _ List.mem_cons_self

theorem noLeafMode_keeps : noLeafMode.Keeps mem fun t t' => t.reserved ⊆ t'.reserved where
  refl _ := List.Subset.refl _
  trans := List.Subset.trans
  put _ _ := List.Subset.refl _
  target {t d n v block addr t' r} value recursive offset _ htarget := by
    cases htarget
    rw [reserved_remember]
    exact List.subset_append_left _ _
  copy {t d n v block addr t' r} value _ hcopy := by
    cases hcopy
    exact List.Subset.refl _
  record {t block addr t' r} hcopy := by
    cases hcopy
    exact List.Subset.refl _

theorem noLeafMode_follows :
    noLeafMode.Follows mem (NoLeafFits header) (fun s => OnlyFlat s.blocks) (LeftOut header) where
  good hfurther hflat := fun block hblock => hflat block (hfurther.blocks.subset hblock)
  bad {s s' t t'} hfurther hreserved hleft := by
    obtain ⟨entry, hentry, hplace, hrest⟩ := hleft
    obtain ⟨more, hmore⟩ := hfurther.blocks
    refine ⟨entry, hreserved hentry, ?_, hrest⟩
    rw [← hmore, placements_append]
    exact List.mem_append_left _ hplace
  grows := noLeafMode_keeps
  pointer _ hclear := if_pos hclear
  copy h hblock _ := noLeaf_copy h _ hblock
  target {s t block addr} h halign hlength hgood := by
    obtain ⟨t', htarget, htwin, hgrown, -⟩ := @noLeaf_target mem _ _ _ _ h addr halign hlength
    refine ⟨t', htarget, htwin, hgrown, fun hleaf => ?_⟩
    rw [(placeBlock_lengthened h.copyAll h.tmp h.inUse block addr).2.1, onlyFlat_append] at hgood
    rw [hgood.2 (pointedTo_of halign hlength)] at hleaf
    cases hleaf
  copyBad {s t block addr t' r} h hflat hblock hnot _ := by
    rw [(placeBlock_lengthened h.copyAll h.tmp h.inUse block addr).2.1, onlyFlat_append] at hnot
    refine absurd ⟨hflat, fun hpointed => ?_⟩ hnot
    rw [not_pointedTo hblock] at hpointed
    cases hpointed
  targetBad {s t block addr t' r} h hflat halign hlength hnot htarget := by
    obtain ⟨t₁, htarget', htwin, -, hmem⟩ := @noLeaf_target mem _ _ _ _ h addr halign hlength
    rw [htarget] at htarget'
    cases htarget'
    rw [(placeBlock_lengthened h.copyAll h.tmp h.inUse block addr).2.1, onlyFlat_append] at hnot
    refine ⟨_, hmem, ?_, ?_, hlength⟩
    · rw [htwin.fits.2] at hmem
      exact (List.mem_filter.mp hmem).1
    · refine Bool.eq_false_iff.mpr fun hleaf => hnot ⟨hflat, fun _ => hleaf⟩

/-! ## What is reserved stays as it was -/

/-- The buffer has the bytes of earlier uses where blocks are reserved, and behind the message. -/
structure Untouched (before : Mem) (header : Nat) (t : Tracked) : Prop where
  copyAll : t.state.copyAll = true
  tmp : (tmpEnd t.state.iovec).isSome = true
  inUse : t.state.buf.inUseSize = t.state.outputLen
  begins : header ≤ t.state.outputLen
  reserved : ∀ entry ∈ t.reserved,
    header ≤ entry.1 ∧ entry.1 + entry.2.length ≤ t.state.outputLen
  kept : ∀ entry ∈ t.reserved, ∀ i, entry.1 ≤ i → i < entry.1 + entry.2.length →
    t.state.buf.tmpBuffer i = before i
  behind : ∀ i, t.state.outputLen ≤ i → t.state.buf.tmpBuffer i = before i

variable {before : Mem}

/-- Bytes stored where nothing is reserved. -/
theorem Untouched.store (h : Untouched before header t) {offset : Nat} {bytes : List UInt8}
    (hinside : offset + bytes.length ≤ t.state.outputLen)
    (hapart : ∀ entry ∈ t.reserved,
      offset + bytes.length ≤ entry.1 ∨ entry.1 + entry.2.length ≤ offset) :
    Untouched before header { t with state := t.state.store offset bytes } := by
  refine { h with kept := fun entry hentry i hbegin hend => ?_, behind := fun i hi => ?_ }
  · have hentryApart := hapart entry hentry
    exact (Mem.write_outside (by omega)).trans (h.kept entry hentry i hbegin hend)
  · exact (Mem.write_outside (.inr (Nat.le_trans hinside hi))).trans (h.behind i hi)

theorem Untouched.put (h : Untouched before header t) {d n : Nat} (hclear : t.Clear d n)
    (value : Nat) : Untouched before header (t.put d n value) := by
  have hwidth := quickSize_le n
  have hinside := hclear.inside
  refine h.store ?_ fun entry hentry => ?_
  · rw [length_leBytes]
    omega
  · have hapart := hclear.apart entry hentry
    rw [length_leBytes]
    omega

theorem Untouched.remember (h : Untouched before header t) (recursive : Bool) (addr offset : Nat) :
    Untouched before header (t.remember recursive addr offset) := by
  cases recursive with
  | true => exact { h with }
  | false => exact h

/-- More room behind the message, some of it reserved. -/
theorem Untouched.lengthened (h : Untouched before header t) {state : EncodeState}
    {added : List (Nat × Block)} {pad length : Nat} (hs : Lengthened t.state state pad length)
    (hadded : ∀ entry ∈ added, t.state.outputLen + pad ≤ entry.1 ∧
      entry.1 + entry.2.length ≤ state.outputLen)
    (hroom : ∀ entry ∈ added, ∀ i, entry.1 ≤ i → i < entry.1 + entry.2.length →
      state.buf.tmpBuffer i = t.state.buf.tmpBuffer i)
    (hbehind : ∀ i, state.outputLen ≤ i → state.buf.tmpBuffer i = t.state.buf.tmpBuffer i) :
    Untouched before header { state, reserved := t.reserved ++ added } := by
  have hlength := hs.outputLen
  have hbegins := h.begins
  constructor
  case copyAll => exact hs.setup.copyAll.trans h.copyAll
  case tmp => exact hs.tmp
  case inUse => exact hs.inUse
  case begins =>
    show header ≤ state.outputLen
    omega
  case reserved =>
    intro entry hentry
    show header ≤ entry.1 ∧ entry.1 + entry.2.length ≤ state.outputLen
    cases List.mem_append.mp hentry with
    | inl hold =>
      obtain ⟨hbegin, hend⟩ := h.reserved entry hold
      exact ⟨hbegin, by omega⟩
    | inr hnew =>
      obtain ⟨hbegin, hend⟩ := hadded entry hnew
      exact ⟨by omega, hend⟩
  case kept =>
    intro entry hentry i hbegin hend
    cases List.mem_append.mp hentry with
    | inl hold =>
      have hinside := (h.reserved entry hold).2
      exact (hs.old (by omega)).trans (h.kept entry hold i hbegin hend)
    | inr hnew =>
      have hafter := (hadded entry hnew).1
      exact (hroom entry hnew i hbegin hend).trans (h.behind i (by omega))
  case behind =>
    intro i hi
    have hi : state.outputLen ≤ i := hi
    exact (hbehind i hi).trans (h.behind i (by omega))

/-- Nothing is stored behind a block that is copied. -/
theorem placeBlock_past {s : EncodeState} (hcopyAll : s.copyAll = true)
    (htmp : (tmpEnd s.iovec).isSome = true) (hinUse : s.buf.inUseSize = s.outputLen)
    (block : Block) (addr i : Nat) (hi : (s.placeBlock mem block addr).1.outputLen ≤ i) :
    (s.placeBlock mem block addr).1.buf.tmpBuffer i = s.buf.tmpBuffer i := by
  obtain ⟨e, he⟩ := Option.isSome_iff_exists.mp htmp
  rw [placeBlock_eq_copyDataToTmp hcopyAll] at hi ⊢
  have heq := @EncodeState.copyDataToTmp_of_tmp { s with blocks := s.blocks ++ [block] } e he
    (mem.read addr block.length) block.alignment
  rw [heq] at hi ⊢
  dsimp only at hi ⊢
  rw [Mem.write_outside (.inr (by omega)),
    Mem.write_outside (.inr (by rw [List.length_replicate]; omega))]

theorem Untouched.copy (h : Untouched before header t) {addr : Nat} {t' : Tracked} {r : Nat × Nat}
    (hcopy : noLeafMode.copy mem t block addr = some (t', r)) :
    Untouched before header t' ∧ t.Grown t' := by
  rw [copy_eq] at hcopy
  obtain ⟨rfl, -⟩ := Prod.mk.inj (Option.some.inj hcopy)
  have hs := (@placeBlock_lengthened t.state mem h.copyAll h.tmp h.inUse block addr).1
  have hpast := @placeBlock_past mem t.state h.copyAll h.tmp h.inUse block addr
  have huntouched := @Untouched.lengthened _ _ _ h _ [] _ _ hs (fun _ hentry => nomatch hentry)
    (fun _ hentry => nomatch hentry) hpast
  rw [List.append_nil] at huntouched
  have hlength := hs.outputLen
  refine ⟨huntouched, ?_, fun _ hentry => .inl hentry⟩
  show t.state.outputLen ≤ (t.state.placeBlock mem block addr).1.outputLen
  omega

theorem Untouched.target (h : Untouched before header t) {addr : Nat} {t' : Tracked}
    {r : Nat × Nat} (htarget : noLeafMode.target mem t block addr = some (t', r)) :
    Untouched before header t' ∧ t.Grown t' := by
  rw [target_eq] at htarget
  obtain ⟨hs, hplace, hroom⟩ := @reserve_lengthened t.state h.tmp h.inUse block.length
    block.alignment
  rw [hplace] at htarget
  cases htarget
  have hlength := hs.outputLen
  constructor
  · refine h.lengthened hs (fun entry hentry => ?_) (fun entry hentry i hbegin _ => ?_)
      fun i hi => hroom i (by omega)
    · cases List.mem_singleton.mp hentry
      exact ⟨Nat.le_refl _, Nat.le_of_eq hlength.symm⟩
    · cases List.mem_singleton.mp hentry
      exact hroom i hbegin
  · refine ⟨by dsimp only; omega, fun entry hentry => ?_⟩
    cases List.mem_append.mp hentry with
    | inl hold => exact .inl hold
    | inr hnew =>
      cases List.mem_singleton.mp hnew
      exact .inr (Nat.le_add_right _ _)

/-- A walk that reads pointers where something was stored, and whose steps leave what is behind
the message as it was, does so too. -/
theorem untouched_keeps {mode : Mode} (hpointer : mode.pointer = noLeafMode.pointer)
    (hcopy : ∀ {t block addr t' r}, mode.copy mem t block addr = some (t', r) →
      Untouched before header t → Untouched before header t' ∧ t.Grown t')
    (htarget : ∀ {t block addr t' r}, mode.target mem t block addr = some (t', r) →
      Untouched before header t → Untouched before header t' ∧ t.Grown t') :
    mode.Keeps mem fun t t' => Untouched before header t → Untouched before header t' where
  refl _ h := h
  trans h h' := fun hstart => h' (h hstart)
  put value hptr h := h.put (pointer_eq_some (hpointer ▸ hptr)).1 value
  target value recursive offset hptr hplace h := by
    obtain ⟨huntouched, hgrown⟩ := htarget hplace h
    exact (huntouched.put ((pointer_eq_some (hpointer ▸ hptr)).1.grown hgrown) value).remember
      recursive _ offset
  copy value hptr hplace h := by
    obtain ⟨huntouched, hgrown⟩ := hcopy hplace h
    exact huntouched.put ((pointer_eq_some (hpointer ▸ hptr)).1.grown hgrown) value
  record hplace h := (hcopy hplace h).1

theorem untouched_start (b : FFSBuffer) (format : StoredFormat) (noLeafCopy : Bool) :
    Untouched b.tmpBuffer (headerBytes format).length (.start noLeafCopy b format) where
  copyAll := rfl
  tmp := rfl
  inUse := Nat.zero_add _
  begins := Nat.le_refl _
  reserved _ hentry := nomatch hentry
  kept _ hentry := nomatch hentry
  behind _ hi := Mem.write_outside (.inr ((Nat.zero_add _).symm ▸ hi))

theorem walkRecord_untouched {mode : Mode} {format : StoredFormat} {fuel data : Nat}
    {t' : Tracked}
    (hkeeps : mode.Keeps mem fun t t' => Untouched before (headerBytes format).length t →
      Untouched before (headerBytes format).length t')
    (hstart : Untouched before (headerBytes format).length t)
    (h : walkRecord mode mem fuel format data t = some t') :
    Untouched before (headerBytes format).length t' := by
  unfold walkRecord at h
  dsimp only at h
  obtain ⟨⟨t₁, r⟩, hcopy, h⟩ := Option.bind_eq_some_iff.mp h
  have hbase := hkeeps.record hcopy hstart
  cases hvariant : format.format.top.variant with
  | false =>
    rw [hvariant] at h
    cases h
    exact hbase
  | true =>
    simp only [hvariant, Bool.not_true, Bool.false_eq_true, if_false] at h
    obtain ⟨⟨t₂, r'⟩, hcopy', h⟩ := Option.bind_eq_some_iff.mp h
    obtain ⟨t₃, hwalk, h⟩ := Option.bind_eq_some_iff.mp h
    cases h
    have haligned := hkeeps.record hcopy' (hbase.remember format.format.top.recursive data r.1)
    have hwalked := walkSubfields_keeps hkeeps (walkSubfield_keeps hkeeps fuel) hwalk haligned
    have hheader := length_headerBytes_of_variant hvariant
    have hbegins := hwalked.begins
    refine hwalked.store ?_ fun entry hentry => ?_
    · rw [length_leBytes]
      omega
    · have hentryBegins := (hwalked.reserved entry hentry).1
      rw [length_leBytes]
      omega

/-! ## Both messages -/

/-- A byte of a flat block that a pointer leads to. -/
def InFlat (header : Nat) (blocks : List Block) (i : Nat) : Prop :=
  ∃ entry ∈ placements header blocks, entry.2.pointedTo = true ∧ entry.2.leaf = true ∧
    entry.1 ≤ i ∧ i < entry.1 + entry.2.length

/-- `FFSencode_no_leaf_copy` returns the message of `FFSencode` but for flat blocks, and follows
no pointer that nothing was stored in. -/
def NoLeafCopyRight (mem : Mem) (fuel : Nat) (format : StoredFormat) (data : Nat)
    (blocks : List Block) (b₁ b₂ : FFSBuffer) : Prop :=
  ∃ b₁' message b₂' message',
    encode mem fuel b₁ format data = some (b₁', message) ∧
    encodeNoLeafCopy mem fuel b₂ format data = some (b₂', message') ∧
    message'.length = message.length ∧
    (∀ i, ¬ InFlat (headerBytes format).length blocks i → message'[i]? = message[i]?) ∧
    ReadsStored mem fuel b₂ format data

theorem encodeRecord_of_visit {format : StoredFormat} {fuel data : Nat} {blocks : List Block}
    (hlaid : ∀ f ∈ format.format.bodies, LaidOut format.format.bodies f)
    (hvisit : visitRecord mem fuel format data = some blocks) (b : FFSBuffer) :
    ∃ s, encodeRecord mem fuel format data (initEncodeState true false b) = some s ∧
      s.blocks = blocks := by
  have hblocks := @encodeRecord_visits mem format hlaid fuel b data
  rw [hvisit] at hblocks
  generalize encodeRecord mem fuel format data (initEncodeState true false b) = r at hblocks ⊢
  cases hblocks with
  | some heq => exact ⟨_, rfl, heq⟩

theorem noLeaf_tracks {format : StoredFormat} {fuel data : Nat}
    (hlaid : ∀ f ∈ format.format.bodies, LaidOut format.format.bodies f) (b₁ b₂ : FFSBuffer) :
    Tracks (NoLeafFits (headerBytes format).length) (fun s => OnlyFlat s.blocks)
      (LeftOut (headerBytes format).length) (.start true b₂ format)
      (encodeRecord mem fuel format data (initEncodeState true false b₁))
      (walkRecord noLeafMode mem fuel format data (.start true b₂ format)) :=
  walkRecord_tracks noLeafMode_follows hlaid (Twin.setupHeader b₁ b₂ format true ⟨rfl, rfl⟩)
    fun _ hblock => nomatch hblock

theorem encodeNoLeafCopy_of_walk {format : StoredFormat} {fuel data : Nat} {b : FFSBuffer}
    {t : Tracked} (h : walkRecord noLeafMode mem fuel format data (.start true b format) = some t) :
    encodeNoLeafCopy mem fuel b format data =
      some (t.state.buf, t.state.buf.tmpBuffer.read 0 t.state.outputLen) :=
  bind_eq_of_eq_some (walkRecord_erases rfl ⟨rfl, rfl⟩ h) rfl

theorem noLeafCopyRight_of_onlyFlat {format : StoredFormat} {fuel data : Nat} {blocks : List Block}
    (hlaid : ∀ f ∈ format.format.bodies, LaidOut format.format.bodies f)
    (hvisit : visitRecord mem fuel format data = some blocks) (hflat : OnlyFlat blocks)
    (b₁ b₂ : FFSBuffer) : NoLeafCopyRight mem fuel format data blocks b₁ b₂ := by
  obtain ⟨s, hs, rfl⟩ := encodeRecord_of_visit hlaid hvisit b₁
  obtain ⟨t, ht, htwin, -⟩ := (noLeaf_tracks hlaid b₁ b₂ s hs).1 hflat
  refine ⟨_, _, _, _, bind_eq_of_eq_some hs rfl, encodeNoLeafCopy_of_walk ht, ?_, ?_, ?_⟩
  · rw [Mem.length_read, Mem.length_read, htwin.outputLen]
  · intro i hout
    rw [htwin.outputLen, getElem?_read, getElem?_read]
    by_cases hi : i < s.outputLen
    · rw [if_pos hi, if_pos hi, htwin.agree i hi fun entry hentry => ?_]
      rw [htwin.fits.2] at hentry
      obtain ⟨hplace, hpointed⟩ := List.mem_filter.mp hentry
      by_contra hin
      refine hout ⟨entry, hplace, hpointed, ?_, by omega, by omega⟩
      exact hflat _ (block_mem_of_placements hplace) hpointed
    · rw [if_neg hi, if_neg hi]
  · unfold ReadsStored
    rw [ht]
    rfl

theorem onlyFlat_of_noLeafCopyRight {format : StoredFormat} {fuel data : Nat} {blocks : List Block}
    (hlaid : ∀ f ∈ format.format.bodies, LaidOut format.format.bodies f)
    (hvisit : visitRecord mem fuel format data = some blocks)
    (hright : ∀ b₁ b₂, NoLeafCopyRight mem fuel format data blocks b₁ b₂) : OnlyFlat blocks := by
  by_contra hnot
  -- every byte of the used buffer differs from the one of the message
  let b₁ : FFSBuffer := { tmpBuffer := fun _ => 0, inUseSize := 0 }
  obtain ⟨s, hs, rfl⟩ := encodeRecord_of_visit hlaid hvisit b₁
  let b₂ : FFSBuffer := { tmpBuffer := fun i => s.buf.tmpBuffer i + 1, inUseSize := 0 }
  obtain ⟨b₁', message, b₂', message', hencode, hnoLeaf, hlength, hsame, hstored⟩ := hright b₁ b₂
  obtain ⟨t, ht⟩ := Option.isSome_iff_exists.mp hstored
  obtain ⟨entry, hentry, hplace, hleaf, hpos⟩ := (noLeaf_tracks hlaid b₁ b₂ s hs).2 hnot t ht
  have huntouched := walkRecord_untouched (untouched_keeps rfl (fun hplace h => h.copy hplace)
    fun hplace h => h.target hplace) (untouched_start b₂ format true) ht
  have hinside := (huntouched.reserved entry hentry).2
  have hbyte := huntouched.kept entry hentry entry.1 (Nat.le_refl _) (by omega)
  cases (bind_eq_of_eq_some hs rfl).symm.trans hencode
  cases (encodeNoLeafCopy_of_walk ht).symm.trans hnoLeaf
  rw [Mem.length_read, Mem.length_read] at hlength
  have hat := hsame entry.1 fun ⟨other, hother, _, hotherLeaf, hbegin, hend⟩ => by
    have hne : entry ≠ other := by
      intro heq
      rw [heq, hotherLeaf] at hleaf
      cases hleaf
    have hout := outside_of_placements hplace hother hne (i := entry.1) ⟨Nat.le_refl _, by omega⟩
    omega
  rw [getElem?_read, getElem?_read, if_pos (by omega), if_pos (by omega), hbyte] at hat
  have hne : s.buf.tmpBuffer entry.1 + 1 ≠ s.buf.tmpBuffer entry.1 := by simp
  exact hne (Option.some.inj hat)

/-- `FFSencode_no_leaf_copy` is right, whatever the buffers held before, if and only if no
pointer leads to a block with pointers in it. -/
theorem noLeafCopyRight_iff {format : StoredFormat} {fuel data : Nat} {blocks : List Block}
    (hlaid : ∀ f ∈ format.format.bodies, LaidOut format.format.bodies f)
    (hvisit : visitRecord mem fuel format data = some blocks) :
    (∀ b₁ b₂, NoLeafCopyRight mem fuel format data blocks b₁ b₂) ↔ OnlyFlat blocks :=
  ⟨onlyFlat_of_noLeafCopyRight hlaid hvisit, noLeafCopyRight_of_onlyFlat hlaid hvisit⟩

/-! ## A pointer to a record with a string -/

/-- A pointer to a record that has a string. -/
def nestedList : List FMStructDesc :=
  [{ formatName := cstr ['t', 'o', 'p'] (.refl false),
     fieldList := [
       { fieldName := cstr ['p'] (.refl false), fieldType := cstr ['*', 'a'] (.refl false),
         fieldSize := 8, fieldOffset := 0 }],
     structSize := 8, optInfo := [] },
   { formatName := cstr ['a'] (.refl false),
     fieldList := [
       { fieldName := cstr ['t'] (.refl false),
         fieldType := cstr ['s', 't', 'r', 'i', 'n', 'g'] (.refl false),
         fieldSize := 8, fieldOffset := 0 }],
     structSize := 8, optInfo := [] }]

def nestedFormat : Option StoredFormat :=
  (registerDataFormat hashlittle2 false { formatList := [], nativeColumnMajorArrays := false }
    nestedList).map Prod.snd

/-- The pointer at 100, the record at 200 and the string `x` at 300. -/
def nestedMem : Mem :=
  ((Mem.write (fun _ => 0) 100 (leBytes 8 200)).write 200 (leBytes 8 300)).write 300 [120, 0]

def clearBuffer : FFSBuffer := { tmpBuffer := fun _ => 0, inUseSize := 0 }

def nestedBlocks : List Block := [⟨false, 1, 8⟩, ⟨false, 8, 0⟩, ⟨false, 8, 8⟩, ⟨true, 1, 2⟩]

theorem nestedFormat_visit : nestedFormat.any (fun format =>
    decide (∀ f ∈ format.format.bodies, LaidOut format.format.bodies f) &&
      visitRecord nestedMem 8 format 100 == some nestedBlocks) = true := by
  decide +kernel

theorem noLeafCopyRight_iff_nested : ∃ format, nestedFormat = some format ∧
    ((∀ b₁ b₂, NoLeafCopyRight nestedMem 8 format 100 nestedBlocks b₁ b₂) ↔
      OnlyFlat nestedBlocks) := by
  obtain ⟨format, hformat, hfacts⟩ := (Option.any_eq_true _ _).mp nestedFormat_visit
  obtain ⟨hlaid, hvisit⟩ := Bool.and_eq_true_iff.mp hfacts
  exact ⟨format, hformat, noLeafCopyRight_iff (of_decide_eq_true hlaid) (eq_of_beq hvisit)⟩

def nestedShorter (format : StoredFormat) : Bool :=
  (encode nestedMem 8 clearBuffer format 100).any fun r₁ =>
    (encodeNoLeafCopy nestedMem 8 clearBuffer format 100).any fun r₂ =>
      r₂.2.length != r₁.2.length

theorem nestedFormat_shorter : nestedFormat.any nestedShorter = true := by
  decide +kernel

/-- In a clear buffer the pointer to the string is read as null, and the string is left out. -/
theorem encodeNoLeafCopy_shorter : ∃ format b₁ message b₂ message',
    nestedFormat = some format ∧
      encode nestedMem 8 clearBuffer format 100 = some (b₁, message) ∧
      encodeNoLeafCopy nestedMem 8 clearBuffer format 100 = some (b₂, message') ∧
      message'.length ≠ message.length := by
  obtain ⟨format, hformat, hshorter⟩ := (Option.any_eq_true _ _).mp nestedFormat_shorter
  obtain ⟨⟨b₁, message⟩, hencode, hshorter⟩ := (Option.any_eq_true _ _).mp hshorter
  obtain ⟨⟨b₂, message'⟩, hnoLeaf, hshorter⟩ := (Option.any_eq_true _ _).mp hshorter
  exact ⟨format, b₁, message, b₂, message', hformat, hencode, hnoLeaf, bne_iff_ne.mp hshorter⟩

end FFS
