import FFS.Encode.Modes

/-!
# Modes that follow

A walk in another mode is at each step where the one of `FFSencode` is: its message has the
same length, and the same bytes but for the blocks that were reserved.  What the mode does at
a step is assumed here, `Mode.Follows`; that the whole walk follows is proved from it.
-/

namespace FFS

open Machine

/-- The same message but for what is reserved.  `Fits` relates its length and
its blocks to what is. -/
structure Twin (Fits : Nat → List Block → List (Nat × Block) → Prop) (s : EncodeState)
    (t : Tracked) : Prop where
  copyAll : s.copyAll = true
  noLeafCopy : s.noLeafCopy = false
  copyAll' : t.state.copyAll = true
  inUse : s.buf.inUseSize = s.outputLen
  inUse' : t.state.buf.inUseSize = s.outputLen
  tmp : (tmpEnd s.iovec).isSome = true
  tmp' : (tmpEnd t.state.iovec).isSome = true
  outputLen : t.state.outputLen = s.outputLen
  addrList : t.state.addrList = s.addrList
  saved : t.state.savedOffsetDifference = s.savedOffsetDifference
  agree : ∀ i < s.outputLen,
    (∀ entry ∈ t.reserved, i < entry.1 ∨ entry.1 + entry.2.length ≤ i) →
      t.state.buf.tmpBuffer i = s.buf.tmpBuffer i
  inside : ∀ entry ∈ t.reserved, entry.1 + entry.2.length ≤ s.outputLen
  fits : Fits s.outputLen s.blocks t.reserved

/-- A message that only got longer. -/
structure Tracked.Grown (t t' : Tracked) : Prop where
  outputLen : t.state.outputLen ≤ t'.state.outputLen
  reserved : ∀ entry ∈ t'.reserved, entry ∈ t.reserved ∨ t.state.outputLen ≤ entry.1

namespace Tracked

variable {t t' t'' : Tracked} {d n : Nat}

theorem Grown.refl (t : Tracked) : t.Grown t := ⟨Nat.le_refl _, fun _ h => .inl h⟩

theorem Grown.trans (h : t.Grown t') (h' : t'.Grown t'') : t.Grown t'' := by
  refine ⟨Nat.le_trans h.outputLen h'.outputLen, fun entry hentry => ?_⟩
  cases h'.reserved entry hentry with
  | inl hold => exact h.reserved entry hold
  | inr hnew => exact .inr (Nat.le_trans h.outputLen hnew)

theorem Clear.grown (h : t.Clear d n) (hgrown : t.Grown t') : t'.Clear d n := by
  refine ⟨Nat.le_trans h.inside hgrown.outputLen, fun entry hentry => ?_⟩
  cases hgrown.reserved entry hentry with
  | inl hold => exact h.apart entry hold
  | inr hnew => exact .inl (Nat.le_trans h.inside hnew)

theorem Clear.sub {k m : Nat} (h : t.Clear d n) (hle : k + m ≤ n) : t.Clear (d + k) m := by
  refine ⟨Nat.le_trans (by omega) h.inside, fun entry hentry => ?_⟩
  have hapart := h.apart entry hentry
  omega

theorem grown_put (t : Tracked) (d n value : Nat) : t.Grown (t.put d n value) :=
  ⟨Nat.le_refl _, fun _ h => .inl h⟩

theorem grown_remember (t : Tracked) (recursive : Bool) (addr offset : Nat) :
    t.Grown (t.remember recursive addr offset) := by
  cases recursive with
  | true => exact ⟨Nat.le_refl _, fun _ h => .inl h⟩
  | false => exact Grown.refl t

end Tracked

variable {Fits : Nat → List Block → List (Nat × Block) → Prop} {s s' : EncodeState} {t t' : Tracked}

theorem Twin.byte {d n k : Nat} (h : Twin Fits s t) (hclear : t.Clear d n) (hk : k < n) :
    t.state.buf.tmpBuffer (d + k) = s.buf.tmpBuffer (d + k) := by
  have hinside := hclear.inside
  have hlength := h.outputLen
  refine h.agree _ (by omega) fun entry hentry => ?_
  have hapart := hclear.apart entry hentry
  omega

theorem Twin.read {d n k m : Nat} (h : Twin Fits s t) (hclear : t.Clear d n) (hkm : k + m ≤ n) :
    t.state.buf.tmpBuffer.read (d + k) m = s.buf.tmpBuffer.read (d + k) m := by
  refine List.map_congr_left fun x hx => ?_
  have hx := List.mem_range.mp hx
  rw [Nat.add_assoc]
  exact h.byte hclear (by omega)

theorem Twin.quickGetUlong {d n : Nat} (h : Twin Fits s t) (hclear : t.Clear d n) :
    quickGetUlong t.state.buf.tmpBuffer d n = FFS.quickGetUlong s.buf.tmpBuffer d n := by
  have hread := h.read (k := 0) (m := quickSize n) hclear (by have := quickSize_le n; omega)
  exact congrArg leValue hread

theorem Twin.put (h : Twin Fits s t) (d n value : Nat) :
    Twin Fits (s.quickPutUlong d n value) (t.put d n value) := by
  refine { h with agree := fun i hi hout => ?_ }
  have hsame := h.agree i hi hout
  show t.state.buf.tmpBuffer.write d _ i = s.buf.tmpBuffer.write d _ i
  by_cases hin : d ≤ i ∧ i < d + (leBytes (quickSize n) value).length
  · rw [Mem.write_inside hin.1 hin.2, Mem.write_inside hin.1 hin.2]
  · rw [Mem.write_outside (by omega), Mem.write_outside (by omega), hsame]

theorem Twin.remember (h : Twin Fits s t) (recursive : Bool) (addr offset : Nat) :
    Twin Fits (if recursive = true then s.addToAddrList addr offset else s)
      (t.remember recursive addr offset) := by
  cases recursive with
  | true =>
    refine { h with addrList := ?_ }
    show t.state.addrList ++ _ = s.addrList ++ _
    rw [h.addrList]
  | false => exact h

theorem Twin.searchAddrList (h : Twin Fits s t) (addr : Nat) :
    t.state.searchAddrList addr = s.searchAddrList addr := by
  rw [EncodeState.searchAddrList, EncodeState.searchAddrList, h.addrList]

/-! ## Steps that follow -/

/-- A block that is copied in every mode: the base record, the padding behind it or a string. -/
def Block.Unreserved (block : Block) : Prop :=
  block.alignment = 1 ∨ (block.alignment = 8 ∧ block.length = 0)

/-- The steps of a mode follow those of `FFSencode` as long as the state is good, and leave a
bad one behind otherwise. -/
structure Mode.Follows (mode : Mode) (mem : Mem)
    (Fits : Nat → List Block → List (Nat × Block) → Prop) (Good : EncodeState → Prop)
    (Bad : EncodeState → Tracked → Prop) : Prop where
  good : ∀ {s s'}, s.Further s' → Good s' → Good s
  bad : ∀ {s s' t t'}, s.Further s' → t.reserved ⊆ t'.reserved → Bad s t → Bad s' t'
  grows : mode.Keeps mem fun t t' => t.reserved ⊆ t'.reserved
  pointer : ∀ {s t d n}, Twin Fits s t → t.Clear d n →
    mode.pointer t d n = some (quickGetUlong t.state.buf.tmpBuffer d n)
  copy : ∀ {s t block addr}, Twin Fits s t → block.Unreserved →
    Good (s.placeBlock mem block addr).1 →
    ∃ t', mode.copy mem t block addr = some (t', (s.placeBlock mem block addr).2) ∧
      Twin Fits (s.placeBlock mem block addr).1 t' ∧ t.Grown t' ∧
      t'.Clear (s.placeBlock mem block addr).2.1 block.length
  target : ∀ {s t block addr}, Twin Fits s t → block.alignment = 8 → block.length ≠ 0 →
    Good (s.placeBlock mem block addr).1 →
    ∃ t', mode.target mem t block addr = some (t', (s.placeBlock mem block addr).2) ∧
      Twin Fits (s.placeBlock mem block addr).1 t' ∧ t.Grown t' ∧
      (block.leaf = false → t'.Clear (s.placeBlock mem block addr).2.1 block.length)
  copyBad : ∀ {s t block addr t' r}, Twin Fits s t → Good s →
    block.Unreserved → ¬ Good (s.placeBlock mem block addr).1 →
    mode.copy mem t block addr = some (t', r) →
      Bad (s.placeBlock mem block addr).1 t'
  targetBad : ∀ {s t block addr t' r}, Twin Fits s t → Good s →
    block.alignment = 8 → block.length ≠ 0 → ¬ Good (s.placeBlock mem block addr).1 →
    mode.target mem t block addr = some (t', r) →
      Bad (s.placeBlock mem block addr).1 t'

section

variable {mode : Mode} {mem : Mem} {Good : EncodeState → Prop} {Bad : EncodeState → Tracked → Prop}

/-- The result of a walk and the one of `FFSencode`. -/
def Tracks (Fits : Nat → List Block → List (Nat × Block) → Prop) (Good : EncodeState → Prop)
    (Bad : EncodeState → Tracked → Prop) (t : Tracked) (r : Option EncodeState)
    (r' : Option Tracked) : Prop :=
  ∀ s', r = some s' → (Good s' → ∃ t', r' = some t' ∧ Twin Fits s' t' ∧ t.Grown t') ∧
    (¬ Good s' → ∀ t', r' = some t' → Bad s' t')

theorem tracks_none : Tracks Fits Good Bad t none r' := fun _ h => nomatch h

theorem Twin.tracks (h : Twin Fits s' t') (hgood : Good s') (hgrown : t.Grown t') :
    Tracks Fits Good Bad t (some s') (some t') := by
  intro s'' hs
  cases hs
  exact ⟨fun _ => ⟨t', rfl, h, hgrown⟩, fun hnot => absurd hgood hnot⟩

theorem Tracks.trans {r : Option EncodeState} {r' : Option Tracked} (hgrown : t.Grown t')
    (h : Tracks Fits Good Bad t' r r') : Tracks Fits Good Bad t r r' := by
  intro s' hs
  refine ⟨fun hgood => ?_, (h s' hs).2⟩
  obtain ⟨t'', ht, htwin, hgrown'⟩ := (h s' hs).1 hgood
  exact ⟨t'', ht, htwin, hgrown.trans hgrown'⟩

/-- One walk behind another. -/
theorem Tracks.bind (hmode : mode.Follows mem Fits Good Bad) {r : Option EncodeState}
    {r' : Option Tracked} {k : EncodeState → Option EncodeState} {k' : Tracked → Option Tracked}
    (h : Tracks Fits Good Bad t r r')
    (hfurther : ∀ {s s'}, k s = some s' → s.Further s')
    (hkeeps : ∀ {t t'}, k' t = some t' → t.reserved ⊆ t'.reserved)
    (hk : ∀ {s₁ t₁}, Twin Fits s₁ t₁ → Good s₁ → t.Grown t₁ →
      Tracks Fits Good Bad t₁ (k s₁) (k' t₁)) :
    Tracks Fits Good Bad t (r >>= k) (r' >>= k') := by
  intro s' hs
  obtain ⟨s₁, hs₁, hs⟩ := Option.bind_eq_some_iff.mp hs
  obtain ⟨hgoes, hfails⟩ := h s₁ hs₁
  by_cases hgood : Good s₁
  · obtain ⟨t₁, ht₁, htwin, hgrown⟩ := hgoes hgood
    rw [ht₁]
    exact (hk htwin hgood hgrown).trans hgrown s' hs
  · refine ⟨fun hgood' => absurd (hmode.good (hfurther hs) hgood') hgood, fun _ t' ht => ?_⟩
    obtain ⟨t₁, ht₁, ht⟩ := Option.bind_eq_some_iff.mp ht
    exact hmode.bad (hfurther hs) (hkeeps ht) (hfails hgood t₁ ht₁)

theorem tracks_foldlM {α : Type} {as : List α} (hmode : mode.Follows mem Fits Good Bad)
    {step : EncodeState → α → Option EncodeState} {step' : Tracked → α → Option Tracked}
    (hfurther : ∀ {s a s'}, step s a = some s' → s.Further s')
    (hkeeps : ∀ {t a t'}, step' t a = some t' → t.reserved ⊆ t'.reserved)
    (hstep : ∀ a ∈ as, ∀ {s₁ t₁}, Twin Fits s₁ t₁ → Good s₁ → t.Grown t₁ →
      Tracks Fits Good Bad t₁ (step s₁ a) (step' t₁ a))
    (h : Twin Fits s t') (hgood : Good s) (hgrown : t.Grown t') :
    Tracks Fits Good Bad t' (as.foldlM step s) (as.foldlM step' t') := by
  induction as generalizing s t' with
  | nil => exact h.tracks hgood (Tracked.Grown.refl t')
  | cons a as ih =>
    rw [List.foldlM_cons, List.foldlM_cons]
    refine (hstep a List.mem_cons_self h hgood hgrown).bind hmode ?_ ?_ ?_
    · intro s s' hs
      exact foldlM_invariant s.Further (fun hs hnext => hs.trans (hfurther hnext))
        (EncodeState.Further.refl s) hs
    · intro t t' ht
      exact foldlM_invariant (fun t' => t.reserved ⊆ t'.reserved)
        (fun ht hnext => List.Subset.trans ht (hkeeps hnext)) (List.Subset.refl _) ht
    · intro s₁ t₁ htwin hgood' hgrown'
      exact ih (fun b hb => hstep b (List.mem_cons_of_mem _ hb)) htwin hgood'
        (hgrown.trans hgrown')

/-! ## The walk -/

variable {formats : List FMFormatBody} {f : FMFormatBody}

/-- Where both walks are: at bytes of the message, in a record with the counts of its arrays. -/
structure Level (formats : List FMFormatBody) (f : FMFormatBody) (s : EncodeState) (t : Tracked)
    (chain : List FMTypeDesc) (d p : Nat) : Prop where
  parent : t.Clear p (sizeOfInt f.recordLength)
  inRecord : ∀ control ∈ controls f chain,
    sizeOfInt control.fieldOffset + controlSize control ≤ sizeOfInt f.recordLength
  sized : ∃ n, determineSize formats f s.buf.tmpBuffer p chain = some n ∧ t.Clear d n ∧
    ∀ control ∈ controls f chain,
      p + sizeOfInt control.fieldOffset + controlSize control ≤ d ∨
        d + n ≤ p + sizeOfInt control.fieldOffset

theorem Level.sameControls {chain : List FMTypeDesc} {d p : Nat} (h : Twin Fits s t)
    (hlevel : Level formats f s t chain d p) :
    SameControls f s.buf.tmpBuffer t.state.buf.tmpBuffer p p chain :=
  fun control hcontrol => h.read hlevel.parent (hlevel.inRecord control hcontrol)

/-- Walks of the same chain from twins. -/
def AllTrack (mode : Mode) (mem : Mem) (Fits : Nat → List Block → List (Nat × Block) → Prop)
    (Good : EncodeState → Prop) (Bad : EncodeState → Tracked → Prop)
    (formats : List FMFormatBody) (fuel : Nat) : Prop :=
  ∀ {f : FMFormatBody} {s : EncodeState} {t : Tracked} {chain : List FMTypeDesc} {d p : Nat},
    Twin Fits s t → Good s → Level formats f s t chain d p →
      Tracks Fits Good Bad t (handleSubfield formats mem fuel f s chain d p)
        (walkSubfield mode formats mem fuel f t chain d p)

theorem subfields_track (hmode : mode.Follows mem Fits Good Bad)
    {handle : EncodeState → List FMTypeDesc → Nat → Nat → Option EncodeState}
    {walk : Tracked → List FMTypeDesc → Nat → Nat → Option Tracked} {d : Nat}
    (hfurther : ∀ {s chain d p s'}, handle s chain d p = some s' → s.Further s')
    (hkeeps : ∀ {t chain d p t'}, walk t chain d p = some t' → t.reserved ⊆ t'.reserved)
    (hhandle : ∀ {s t chain e}, Twin Fits s t → Good s → Level formats f s t chain e d →
      Tracks Fits Good Bad t (handle s chain e d) (walk t chain e d))
    (hlaid : LaidOut formats f) (h : Twin Fits s t) (hgood : Good s)
    (hclear : t.Clear d (sizeOfInt f.recordLength)) :
    Tracks Fits Good Bad t (handleSubfields formats handle f s d)
      (walkSubfields formats walk f t d) := by
  unfold handleSubfields walkSubfields
  by_cases hvariant : f.variant = true
  · rw [hvariant, Bool.not_true, if_neg Bool.false_ne_true, if_neg Bool.false_ne_true]
    refine tracks_foldlM (t := t) hmode ?_ ?_ ?_ h hgood (Tracked.Grown.refl t)
    · intro s entry s' hs
      obtain ⟨flat, -, hs⟩ := Option.bind_eq_some_iff.mp hs
      cases flat with
      | true =>
        cases hs
        exact EncodeState.Further.refl s
      | false => exact hfurther hs
    · intro t entry t' ht
      obtain ⟨flat, -, ht⟩ := Option.bind_eq_some_iff.mp ht
      cases flat with
      | true =>
        cases ht
        exact List.Subset.refl _
      | false => exact hkeeps ht
    · intro entry hmem s₁ t₁ htwin hgood₁ hgrown
      dsimp only
      cases hflat : fieldIsFlat formats f entry.2.typeDesc with
      | none => exact tracks_none
      | some flat =>
        cases flat with
        | true => exact htwin.tracks hgood₁ (Tracked.Grown.refl t₁)
        | false =>
          obtain ⟨hentry, hextent⟩ := hlaid.entry hmem hflat
          have hrecord := hclear.grown hgrown
          refine hhandle htwin hgood₁ ⟨hrecord, ?_, _, determineSize_of_extent hextent _ _,
            hrecord.sub (hlaid.inside _ hentry), ?_⟩
          · exact fun control hcontrol => (hlaid.counts _ hentry control hcontrol).1
          · intro control hcontrol
            have hapart := (hlaid.counts _ hentry control hcontrol).2 _ hentry
            simp only [Apart, countSpan, pointerSpan] at hapart ⊢
            omega
  · rw [Bool.eq_false_iff.mpr hvariant, Bool.not_false, if_pos rfl, if_pos rfl]
    exact h.tracks hgood (Tracked.Grown.refl t)

/-- A message with padding and room for a block behind its end. -/
structure Lengthened (s s' : EncodeState) (pad length : Nat) : Prop where
  setup : SameSetup s s'
  outputLen : s'.outputLen = s.outputLen + pad + length
  inUse : s'.buf.inUseSize = s'.outputLen
  tmp : (tmpEnd s'.iovec).isSome = true
  old : ∀ {i}, i < s.outputLen → s'.buf.tmpBuffer i = s.buf.tmpBuffer i
  zeroes : ∀ {k}, k < pad → s'.buf.tmpBuffer (s.outputLen + k) = 0

theorem placeBlock_lengthened (hcopyAll : s.copyAll = true) (htmp : (tmpEnd s.iovec).isSome = true)
    (hinUse : s.buf.inUseSize = s.outputLen) (block : Block) (addr : Nat) :
    let pad := alignPad block.alignment s.outputLen
    Lengthened s (s.placeBlock mem block addr).1 pad block.length ∧
      (s.placeBlock mem block addr).1.blocks = s.blocks ++ [block] ∧
      (s.placeBlock mem block addr).2 = (s.outputLen + pad, s.outputLen + pad) ∧
      ∀ {k}, k < block.length →
        (s.placeBlock mem block addr).1.buf.tmpBuffer (s.outputLen + pad + k) = mem (addr + k) := by
  intro pad
  obtain ⟨e, he⟩ := Option.isSome_iff_exists.mp htmp
  obtain ⟨happended, hblocks, hresult⟩ := @placeBlock_appended mem s e hcopyAll he block addr
  obtain ⟨hsetup, houtput, hend, htmp', hold, hzeroes, hbytes⟩ := happended
  rw [hinUse] at hend hold hzeroes hbytes hresult
  rw [Mem.length_read] at houtput hend hbytes
  refine ⟨⟨hsetup, houtput, hend.trans houtput.symm, htmp', hold, hzeroes⟩, hblocks, hresult,
    fun hk => ?_⟩
  rw [hbytes hk, getD_read hk]

/-- Where a block is placed: behind the message, which stays as it was. -/
theorem Twin.placeBlock (h : Twin Fits s t) (block : Block) (addr : Nat) :
    (s.placeBlock mem block addr).2.2 = (s.placeBlock mem block addr).2.1 ∧
      s.outputLen ≤ (s.placeBlock mem block addr).2.1 ∧
      ∀ i < s.outputLen,
        (s.placeBlock mem block addr).1.buf.tmpBuffer i = s.buf.tmpBuffer i := by
  obtain ⟨hs, -, hresult, -⟩ := @placeBlock_lengthened s mem h.copyAll h.tmp h.inUse block addr
  rw [hresult]
  exact ⟨rfl, Nat.le_add_right _ _, fun i hi => hs.old hi⟩

/-- Both messages get longer by a block, which is the same unless it is reserved. -/
theorem Twin.lengthened (h : Twin Fits s t) {state : EncodeState} {added : List (Nat × Block)}
    {pad length : Nat} (hs : Lengthened s s' pad length)
    (ht : Lengthened t.state state pad length)
    (hadded : ∀ entry ∈ added,
      s.outputLen ≤ entry.1 ∧ entry.1 + entry.2.length ≤ s.outputLen + pad + length)
    (hbytes : ∀ k < length, (∀ entry ∈ added, s.outputLen + pad + k < entry.1 ∨
        entry.1 + entry.2.length ≤ s.outputLen + pad + k) →
      state.buf.tmpBuffer (s.outputLen + pad + k) = s'.buf.tmpBuffer (s.outputLen + pad + k))
    (hfits : Fits s'.outputLen s'.blocks (t.reserved ++ added)) :
    Twin Fits s' { state, reserved := t.reserved ++ added } ∧
      t.Grown { state, reserved := t.reserved ++ added } := by
  have hlength := ht.outputLen
  rw [h.outputLen] at hlength
  have hsame : state.outputLen = s'.outputLen := hlength.trans hs.outputLen.symm
  constructor
  · constructor
    case copyAll => rw [hs.setup.copyAll, h.copyAll]
    case noLeafCopy => rw [hs.setup.noLeafCopy, h.noLeafCopy]
    case copyAll' => exact ht.setup.copyAll.trans h.copyAll'
    case inUse => exact hs.inUse
    case inUse' => exact ht.inUse.trans hsame
    case tmp => exact hs.tmp
    case tmp' => exact ht.tmp
    case outputLen => exact hsame
    case addrList =>
      rw [hs.setup.addrList]
      exact ht.setup.addrList.trans h.addrList
    case saved =>
      rw [hs.setup.saved]
      exact ht.setup.saved.trans h.saved
    case agree =>
      intro i hi hout
      rw [hs.outputLen] at hi
      show state.buf.tmpBuffer i = s'.buf.tmpBuffer i
      by_cases hbefore : i < s.outputLen
      · rw [hs.old hbefore, ht.old (h.outputLen.symm ▸ hbefore)]
        exact h.agree i hbefore fun entry hentry => hout entry (List.mem_append_left _ hentry)
      · by_cases hpadding : i < s.outputLen + pad
        · have hzero := hs.zeroes (k := i - s.outputLen) (by omega)
          have hzero' := ht.zeroes (k := i - s.outputLen) (by omega)
          rw [h.outputLen] at hzero'
          rw [Nat.add_sub_cancel' (by omega)] at hzero hzero'
          rw [hzero, hzero']
        · have hblock := hbytes (i - (s.outputLen + pad)) (by omega)
          rw [Nat.add_sub_cancel' (by omega)] at hblock
          exact hblock fun entry hentry => hout entry (List.mem_append_right _ hentry)
    case inside =>
      intro entry hentry
      rw [hs.outputLen]
      cases List.mem_append.mp hentry with
      | inl hold =>
        have hle := h.inside entry hold
        omega
      | inr hnew => exact (hadded entry hnew).2
    case fits => exact hfits
  · refine ⟨?_, fun entry hentry => ?_⟩
    · show t.state.outputLen ≤ state.outputLen
      rw [hlength, h.outputLen]
      omega
    · rw [h.outputLen]
      cases List.mem_append.mp hentry with
      | inl hold => exact .inl hold
      | inr hnew => exact .inr (hadded entry hnew).1

/-- The block is copied in both. -/
theorem Twin.copied (h : Twin Fits s t) (block : Block) (addr : Nat)
    (hfits : Fits (s.placeBlock mem block addr).1.outputLen (s.placeBlock mem block addr).1.blocks
      t.reserved) :
    (t.state.placeBlock mem block addr).2 = (s.placeBlock mem block addr).2 ∧
      Twin Fits (s.placeBlock mem block addr).1
        { t with state := (t.state.placeBlock mem block addr).1 } ∧
      t.Grown { t with state := (t.state.placeBlock mem block addr).1 } ∧
      Tracked.Clear { t with state := (t.state.placeBlock mem block addr).1 }
        (s.placeBlock mem block addr).2.1 block.length := by
  obtain ⟨hs, -, hresult, hbytes⟩ := @placeBlock_lengthened s mem h.copyAll h.tmp h.inUse block addr
  obtain ⟨ht, -, hresult', hbytes'⟩ := @placeBlock_lengthened t.state mem h.copyAll' h.tmp'
    (h.inUse'.trans h.outputLen.symm) block addr
  have houtput := ht.outputLen
  rw [h.outputLen] at ht hresult' hbytes' houtput
  have hlengthened := @Twin.lengthened Fits s _ t h _ [] _ _ hs ht (fun _ hentry => nomatch hentry)
    (fun k hk _ => (hbytes' hk).trans (hbytes hk).symm) (by rwa [List.append_nil])
  rw [List.append_nil] at hlengthened
  refine ⟨hresult'.trans hresult.symm, hlengthened.1, hlengthened.2, ?_, fun entry hentry => ?_⟩
  · show _ ≤ (t.state.placeBlock mem block addr).1.outputLen
    rw [houtput, hresult]
  · have hle := h.inside entry hentry
    rw [hresult]
    exact .inr (by omega)

/-- The target of a pointer, once the pointer is replaced. -/
theorem Level.target {desc : FMTypeDesc} {next : List FMTypeDesc} {d p n size : Nat}
    (h : Twin Fits s t) (hparent : t.Clear p (sizeOfInt f.recordLength))
    (hrecord : ∀ control ∈ controls f (desc :: next),
      sizeOfInt control.fieldOffset + controlSize control ≤ sizeOfInt f.recordLength)
    (hapart : ∀ control ∈ controls f (desc :: next),
      p + sizeOfInt control.fieldOffset + controlSize control ≤ d ∨
        d + n ≤ p + sizeOfInt control.fieldOffset)
    (hsize : determineSize formats f s.buf.tmpBuffer p next = some size) (flat : Bool)
    (ptr offset : Nat) (hgrown : t.Grown t')
    (hclear : t'.Clear (s.placeBlock mem ⟨flat, 8, size⟩ ptr).2.1 size) :
    Level formats f ((s.placeBlock mem ⟨flat, 8, size⟩ ptr).1.quickPutUlong d n offset) t' next
      (s.placeBlock mem ⟨flat, 8, size⟩ ptr).2.2 p := by
  obtain ⟨hloc, hbehind, hold⟩ := @Twin.placeBlock _ _ _ mem h ⟨flat, 8, size⟩ ptr
  have hcontrols := fun control hcontrol => hrecord control (controls_tail f desc next hcontrol)
  have hend := hparent.inside
  rw [h.outputLen] at hend
  refine ⟨hparent.grown hgrown, hcontrols, size, ?_, hloc ▸ hclear, ?_⟩
  · rw [determineSize_congr (m := s.buf.tmpBuffer) (p := p) fun control hcontrol => ?_, hsize]
    have hin := hcontrols control hcontrol
    have hbeside := hapart control (controls_tail f desc next hcontrol)
    have hwidth := quickSize_le n
    have hput : ((s.placeBlock mem ⟨flat, 8, size⟩ ptr).1.quickPutUlong d n offset).buf.tmpBuffer.read
        (p + sizeOfInt control.fieldOffset) (controlSize control) =
          (s.placeBlock mem ⟨flat, 8, size⟩ ptr).1.buf.tmpBuffer.read
            (p + sizeOfInt control.fieldOffset) (controlSize control) := by
      refine Mem.read_write_of_disjoint ?_
      rw [length_leBytes]
      omega
    rw [hput]
    exact Mem.read_congr fun i _ hi => hold i (by omega)
  · intro control hcontrol
    have hin := hcontrols control hcontrol
    rw [hloc]
    exact .inl (by omega)

theorem good_put (hmode : mode.Follows mem Fits Good Bad) (hgood : Good s) (d n value : Nat) :
    Good (s.quickPutUlong d n value) :=
  @Mode.Follows.good _ _ _ _ _ hmode (s.quickPutUlong d n value) s
    ⟨Nat.le_refl _, List.prefix_refl _⟩ hgood

theorem good_remember (hmode : mode.Follows mem Fits Good Bad) (hgood : Good s) (recursive : Bool)
    (addr offset : Nat) : Good (if recursive = true then s.addToAddrList addr offset else s) := by
  cases recursive with
  | true =>
    exact @Mode.Follows.good _ _ _ _ _ hmode (s.addToAddrList addr offset) s
      ⟨Nat.le_refl _, List.prefix_refl _⟩ hgood
  | false => exact hgood

theorem Level.remember {chain : List FMTypeDesc} {d p : Nat} (h : Level formats f s t chain d p)
    (recursive : Bool) (addr offset : Nat) :
    Level formats f (if recursive = true then s.addToAddrList addr offset else s)
      (t.remember recursive addr offset) chain d p := by
  obtain ⟨hparent, hrecord, n, hn, hclear, hapart⟩ := h
  have hgrown := t.grown_remember recursive addr offset
  refine ⟨hparent.grown hgrown, hrecord, n, ?_, hclear.grown hgrown, hapart⟩
  cases recursive <;> exact hn

/-- What a pointer leads to. -/
theorem target_tracks {fuel : Nat} {desc : FMTypeDesc} {next : List FMTypeDesc} {d p size : Nat}
    {flat : Bool} (hmode : mode.Follows mem Fits Good Bad)
    (ih : AllTrack mode mem Fits Good Bad formats fuel) (h : Twin Fits s t) (hgood : Good s)
    (hparent : t.Clear p (sizeOfInt f.recordLength))
    (hrecord : ∀ control ∈ controls f (desc :: next),
      sizeOfInt control.fieldOffset + controlSize control ≤ sizeOfInt f.recordLength)
    (hapart : ∀ control ∈ controls f (desc :: next),
      p + sizeOfInt control.fieldOffset + controlSize control ≤ d ∨
        d + f.pointerSize ≤ p + sizeOfInt control.fieldOffset)
    (hsize : determineSize formats f s.buf.tmpBuffer p next = some size) (hpos : size ≠ 0)
    (ptr : Nat) :
    let block : Block := { leaf := flat, alignment := 8, length := size }
    let r := s.placeBlock mem block ptr
    let offset := r.2.1 - r.1.savedOffsetDifference
    let s₁ := if f.recursive = true then
        (r.1.quickPutUlong d f.pointerSize offset).addToAddrList ptr offset
      else r.1.quickPutUlong d f.pointerSize offset
    Tracks Fits Good Bad t
      (if flat = true then some s₁ else handleSubfield formats mem fuel f s₁ next r.2.2 p)
      ((mode.target mem t block ptr).bind fun r' =>
        let offset := r'.2.1 - r'.1.state.savedOffsetDifference
        let t₁ := (r'.1.put d f.pointerSize offset).remember f.recursive ptr offset
        if flat = true then some t₁
        else walkSubfield mode formats mem fuel f t₁ next r'.2.2 p) := by
  intro block r offset s₁
  by_cases hplaced : Good r.1
  · obtain ⟨t₁, htarget, htwin, hgrown, hclear⟩ := hmode.target h rfl hpos hplaced
    have hsaved : t₁.state.savedOffsetDifference = r.1.savedOffsetDifference := htwin.saved
    have hlater := (hgrown.trans (t₁.grown_put d f.pointerSize offset)).trans
      (Tracked.grown_remember _ f.recursive ptr offset)
    have hstep := (htwin.put d f.pointerSize offset).remember f.recursive ptr offset
    have hgood₁ := good_remember hmode (good_put hmode hplaced d f.pointerSize offset)
      f.recursive ptr offset
    simp only [show s.placeBlock mem block ptr = r from rfl] at htarget
    rw [htarget, Option.bind_some]
    dsimp only
    rw [hsaved]
    cases flat with
    | true => exact hstep.tracks hgood₁ hlater
    | false =>
      refine (ih hstep hgood₁ ?_).trans hlater
      exact (Level.target h hparent hrecord hapart hsize false ptr offset
        (hgrown.trans (t₁.grown_put d f.pointerSize offset))
        ((hclear rfl).grown (t₁.grown_put d f.pointerSize offset))).remember f.recursive ptr offset
  · intro s' hs
    have hfurther : r.1.Further s' := by
      have hfirst := ((EncodeState.Further.refl r.1).put d f.pointerSize offset).remember
        f.recursive ptr offset
      cases flat with
      | true =>
        rw [← show s₁ = s' from Option.some.inj hs]
        exact hfirst
      | false => exact hfirst.trans (handleSubfield_further fuel hs)
    refine ⟨fun hgood' => absurd (hmode.good hfurther hgood') hplaced, fun _ t' ht => ?_⟩
    obtain ⟨⟨t₁, r'⟩, htarget, ht⟩ := Option.bind_eq_some_iff.mp ht
    have hbad := hmode.targetBad h hgood rfl hpos hplaced htarget
    refine hmode.bad hfurther ?_ hbad
    have hfirst : t₁.reserved ⊆ ((t₁.put d f.pointerSize
        (r'.1 - t₁.state.savedOffsetDifference)).remember f.recursive ptr
          (r'.1 - t₁.state.savedOffsetDifference)).reserved := by
      cases f.recursive <;> exact List.Subset.refl _
    cases flat with
    | true =>
      cases ht
      exact hfirst
    | false => exact List.Subset.trans hfirst (walkSubfield_keeps hmode.grows fuel ht)

theorem pointer_tracks {fuel : Nat} {desc : FMTypeDesc} {next : List FMTypeDesc} {d p : Nat}
    (hmode : mode.Follows mem Fits Good Bad) (hdesc : desc.type = .pointer)
    (ih : AllTrack mode mem Fits Good Bad formats fuel) (h : Twin Fits s t) (hgood : Good s)
    (hlevel : Level formats f s t (desc :: next) d p) :
    Tracks Fits Good Bad t (handleSubfield formats mem (fuel + 1) f s (desc :: next) d p)
      (walkSubfield mode formats mem (fuel + 1) f t (desc :: next) d p) := by
  have hsame := (hlevel.sameControls h).tail
  obtain ⟨n, hn, hclear, hapart⟩ := hlevel.sized
  have hsize : n = f.pointerSize := by
    simpa [determineSize, hdesc] using hn.symm
  subst hsize
  have hrefl := Tracked.Grown.refl t
  have hstay := fun value => @Twin.tracks _ _ t _ Good Bad (h.put d f.pointerSize value)
    (good_put hmode hgood d f.pointerSize value) (t.grown_put d f.pointerSize value)
  rw [handleSubfield, walkSubfield]
  simp only [hdesc, hmode.pointer h hclear, h.quickGetUlong hclear, h.searchAddrList,
    determineSize_congr hsame, h.noLeafCopy, Bool.false_and, Bool.false_eq_true, if_false,
    Option.bind_eq_bind, Option.bind_some]
  generalize quickGetUlong s.buf.tmpBuffer d f.pointerSize = ptr
  by_cases hnull : ptr = 0
  · rw [if_pos hnull, if_pos hnull]
    exact h.tracks hgood hrefl
  · rw [if_neg hnull, if_neg hnull]
    cases hfound : (if f.recursive = true then s.searchAddrList ptr else none) with
    | some previous => exact hstay previous
    | none =>
      cases hsize : determineSize formats f s.buf.tmpBuffer p next with
      | none => exact tracks_none
      | some size =>
        simp only [Option.bind_some]
        by_cases hempty : size = 0
        · rw [if_pos hempty, if_pos hempty]
          exact hstay 0
        · rw [if_neg hempty, if_neg hempty]
          cases fieldIsFlat formats f next with
          | none => exact tracks_none
          | some flat =>
            simp only [Option.bind_some]
            exact target_tracks hmode ih h hgood hlevel.parent hlevel.inRecord hapart hsize
              hempty ptr

/-- A block that is copied in both, and what comes behind it. -/
theorem copy_tracks (hmode : mode.Follows mem Fits Good Bad) {block : Block} {addr : Nat}
    (hblock : block.Unreserved) (h : Twin Fits s t) (hgood : Good s)
    {r : Option EncodeState} {k : Tracked × Nat × Nat → Option Tracked}
    (hfurther : ∀ {s'}, r = some s' → (s.placeBlock mem block addr).1.Further s')
    (hkeeps : ∀ {t₁ place t'}, k (t₁, place) = some t' → t₁.reserved ⊆ t'.reserved)
    (hk : ∀ {t₁}, Good (s.placeBlock mem block addr).1 →
      Twin Fits (s.placeBlock mem block addr).1 t₁ → t.Grown t₁ →
      t₁.Clear (s.placeBlock mem block addr).2.1 block.length →
        Tracks Fits Good Bad t₁ r (k (t₁, (s.placeBlock mem block addr).2))) :
    Tracks Fits Good Bad t r ((mode.copy mem t block addr).bind k) := by
  by_cases hplaced : Good (s.placeBlock mem block addr).1
  · obtain ⟨t₁, hcopy, htwin, hgrown, hclear⟩ := hmode.copy h hblock hplaced
    rw [hcopy, Option.bind_some]
    exact (hk hplaced htwin hgrown hclear).trans hgrown
  · intro s' hs
    refine ⟨fun hgood' => absurd (hmode.good (hfurther hs) hgood') hplaced, fun _ t' ht => ?_⟩
    obtain ⟨⟨t₁, place⟩, hcopy, ht⟩ := Option.bind_eq_some_iff.mp ht
    exact hmode.bad (hfurther hs) (hkeeps ht) (hmode.copyBad h hgood hblock hplaced hcopy)

theorem string_tracks {fuel : Nat} {desc : FMTypeDesc} {next : List FMTypeDesc} {d p : Nat}
    (hmode : mode.Follows mem Fits Good Bad) (hdesc : desc.type = .string) (h : Twin Fits s t)
    (hgood : Good s) (hlevel : Level formats f s t (desc :: next) d p) :
    Tracks Fits Good Bad t (handleSubfield formats mem (fuel + 1) f s (desc :: next) d p)
      (walkSubfield mode formats mem (fuel + 1) f t (desc :: next) d p) := by
  obtain ⟨n, hn, hclear, -⟩ := hlevel.sized
  have hsize : n = f.pointerSize := by
    simpa [determineSize, hdesc] using hn.symm
  subst hsize
  rw [handleSubfield, walkSubfield]
  simp only [hdesc, hmode.pointer h hclear, h.quickGetUlong hclear, Option.bind_eq_bind,
    Option.bind_some]
  generalize quickGetUlong s.buf.tmpBuffer d f.pointerSize = ptr
  by_cases hnull : ptr = 0
  · rw [if_pos hnull, if_pos hnull]
    exact h.tracks hgood (Tracked.Grown.refl t)
  · rw [if_neg hnull, if_neg hnull]
    cases stringLength mem fuel ptr with
    | none => exact tracks_none
    | some length =>
      simp only [Option.bind_some]
      refine copy_tracks hmode (.inl rfl) h hgood (fun hs => ?_) (fun ht => ?_)
        fun hplaced htwin _ _ => ?_
      · cases hs
        exact (EncodeState.Further.refl _).put d f.pointerSize _
      · cases ht
        exact List.Subset.refl _
      · dsimp only
        rw [htwin.saved]
        exact (htwin.put d f.pointerSize _).tracks
          (good_put hmode hplaced d f.pointerSize _) (Tracked.grown_put _ _ _ _)

theorem array_tracks {fuel : Nat} {desc : FMTypeDesc} {next : List FMTypeDesc} {d p : Nat}
    (hmode : mode.Follows mem Fits Good Bad) (hdesc : desc.type = .array)
    (ih : AllTrack mode mem Fits Good Bad formats fuel) (h : Twin Fits s t) (hgood : Good s)
    (hlevel : Level formats f s t (desc :: next) d p) :
    Tracks Fits Good Bad t (handleSubfield formats mem (fuel + 1) f s (desc :: next) d p)
      (walkSubfield mode formats mem (fuel + 1) f t (desc :: next) d p) := by
  have hsame := hlevel.sameControls h
  obtain ⟨n, hn, hclear, hapart⟩ := hlevel.sized
  rw [handleSubfield, walkSubfield]
  simp only [hdesc, arrayElements_congr hsame]
  cases helements : arrayElements f s.buf.tmpBuffer p (desc :: next) with
  | none => exact tracks_none
  | some found =>
    obtain ⟨elements, element⟩ := found
    obtain ⟨hfill, hsub⟩ := @determineSize_of_elements formats f _ _ _ _ _ helements
    simp only [Option.bind_eq_bind, Option.bind_some]
    rw [determineSize_element helements t.state.buf.tmpBuffer s.buf.tmpBuffer p p]
    cases hsize : determineSize formats f s.buf.tmpBuffer p element with
    | none => exact tracks_none
    | some size =>
      have hfilled : elements * size = n := Option.some.inj ((hfill size hsize).symm.trans hn)
      simp only [Option.bind_some]
      cases fieldIsFlat formats f element with
      | none => exact tracks_none
      | some flat =>
        cases flat with
        | true => exact h.tracks hgood (Tracked.Grown.refl t)
        | false =>
          refine tracks_foldlM (t := t) hmode (handleSubfield_further fuel)
            (walkSubfield_keeps hmode.grows fuel) (fun i hi {s₁ t₁} htwin hgood₁ hgrown => ?_)
            h hgood (Tracked.Grown.refl t)
          have hi : i < elements := List.mem_range.mp hi
          have hin : i * size + size ≤ n := by
            calc i * size + size = (i + 1) * size := (Nat.succ_mul i size).symm
              _ ≤ elements * size := Nat.mul_le_mul_right size hi
              _ = n := hfilled
          refine ih htwin hgood₁ ⟨hlevel.parent.grown hgrown, ?_, size, ?_,
            (hclear.sub hin).grown hgrown, ?_⟩
          · exact fun control hcontrol => hlevel.inRecord control (hsub hcontrol)
          · rw [determineSize_element helements _ s.buf.tmpBuffer _ p, hsize]
          · intro control hcontrol
            have hbeside := hapart control (hsub hcontrol)
            omega

/-- The walk in a mode that follows. -/
theorem walkSubfield_tracks (hmode : mode.Follows mem Fits Good Bad)
    (hlaid : ∀ f ∈ formats, LaidOut formats f) (fuel : Nat) :
    AllTrack mode mem Fits Good Bad formats fuel := by
  induction fuel with
  | zero => exact fun _ _ _ => tracks_none
  | succ fuel ih =>
    intro f s t chain d p h hgood hlevel
    cases chain with
    | nil => exact tracks_none
    | cons desc next =>
      cases hdesc : desc.type with
      | pointer => exact pointer_tracks hmode hdesc ih h hgood hlevel
      | string => exact string_tracks hmode hdesc h hgood hlevel
      | array => exact array_tracks hmode hdesc ih h hgood hlevel
      | subformat =>
        obtain ⟨n, hn, hclear, -⟩ := hlevel.sized
        rw [handleSubfield, walkSubfield]
        simp only [hdesc]
        cases hsub : subformatOf formats f desc with
        | none => exact tracks_none
        | some sub =>
          have hsize : n = sizeOfInt sub.recordLength := by
            simpa [determineSize, hdesc, hsub] using hn.symm
          subst hsize
          exact subfields_track hmode (handleSubfield_further fuel)
            (walkSubfield_keeps hmode.grows fuel) ih (hlaid sub (mem_of_subformatOf hsub)) h
            hgood hclear
      | simple =>
        rw [handleSubfield, walkSubfield]
        simp only [hdesc]
        exact tracks_none

/-! ## The record -/

/-- The header is stored, and nothing else. -/
theorem Twin.setupHeader (b b' : FFSBuffer) (format : StoredFormat) (noLeafCopy : Bool)
    (hfits : Fits (headerBytes format).length [] []) :
    Twin Fits ((initEncodeState true false b).setupHeader format)
      { state := (initEncodeState true noLeafCopy b').setupHeader format, reserved := [] } := by
  constructor
  case copyAll => rfl
  case noLeafCopy => rfl
  case copyAll' => rfl
  case inUse => exact Nat.zero_add _
  case inUse' => exact Nat.zero_add _
  case tmp => rfl
  case tmp' => rfl
  case outputLen => rfl
  case addrList => rfl
  case saved => rfl
  case agree =>
    intro i hi _
    show Mem.write _ 0 _ i = Mem.write _ 0 _ i
    have hi : i < 0 + (headerBytes format).length := (Nat.zero_add _).symm ▸ hi
    rw [Mem.write_inside (Nat.zero_le i) hi, Mem.write_inside (Nat.zero_le i) hi]
  case inside =>
    intro entry hentry
    cases hentry
  case fits => exact hfits

/-- The same bytes stored at the same place of both. -/
theorem Twin.store (h : Twin Fits s t) (offset : Nat) (bytes : List UInt8) :
    Twin Fits (s.store offset bytes) { t with state := t.state.store offset bytes } := by
  refine { h with agree := fun i hi hout => ?_ }
  have hsame := h.agree i hi hout
  show t.state.buf.tmpBuffer.write offset bytes i = s.buf.tmpBuffer.write offset bytes i
  by_cases hin : offset ≤ i ∧ i < offset + bytes.length
  · rw [Mem.write_inside hin.1 hin.2, Mem.write_inside hin.1 hin.2]
  · rw [Mem.write_outside (by omega), Mem.write_outside (by omega), hsame]

theorem reserved_remember (t : Tracked) (recursive : Bool) (addr offset : Nat) :
    (t.remember recursive addr offset).reserved = t.reserved := by
  cases recursive <;> rfl

section

variable {top : FMFormatBody} {fuel offset place header : Nat}

theorem variable_further
    (h : ((handleSubfields formats (handleSubfield formats mem fuel top) top
        (s.placeBlock mem ⟨false, 8, 0⟩ 0).1 offset).bind fun s =>
          some (s.store place (leBytes 8 (s.outputLen - header)))) = some s') :
    s.Further s' := by
  obtain ⟨s₁, hwalk, hs⟩ := Option.bind_eq_some_iff.mp h
  cases hs
  have hwalked := handleSubfields_further (handleSubfield_further fuel) hwalk
  exact (EncodeState.Further.placeBlock mem s _ 0).trans ⟨hwalked.1, hwalked.2⟩

theorem encodeRecord_further {format : StoredFormat} {data : Nat}
    (h : encodeRecord mem fuel format data s = some s') : (s.setupHeader format).Further s' := by
  unfold encodeRecord at h
  dsimp only at h
  have hbase := EncodeState.Further.placeBlock mem (s.setupHeader format)
    ⟨!format.format.top.variant, 1, sizeOfInt format.format.top.recordLength⟩ data
  cases hvariant : format.format.top.variant with
  | false =>
    rw [hvariant] at h hbase
    cases h
    exact hbase
  | true =>
    simp only [hvariant, Bool.not_true, Bool.false_eq_true, if_false] at h hbase
    exact (hbase.remember format.format.top.recursive data _).trans (variable_further h)

theorem variable_keeps (hmode : mode.Follows mem Fits Good Bad)
    (h : ((mode.copy mem t ⟨false, 8, 0⟩ 0).bind fun r =>
        (walkSubfields formats (walkSubfield mode formats mem fuel top) top r.1 offset).bind
          fun t => some { t with
            state := t.state.store place (leBytes 8 (t.state.outputLen - header)) }) = some t') :
    t.reserved ⊆ t'.reserved := by
  obtain ⟨⟨t₁, r⟩, hcopy, h⟩ := Option.bind_eq_some_iff.mp h
  obtain ⟨t₂, hwalk, ht⟩ := Option.bind_eq_some_iff.mp h
  have hkept : t₁.reserved ⊆ t₂.reserved :=
    walkSubfields_keeps hmode.grows (walkSubfield_keeps hmode.grows fuel) hwalk
  cases ht
  exact List.Subset.trans (hmode.grows.record hcopy) hkept

/-- The fields with pointers of a record that was copied. -/
theorem variable_tracks (hmode : mode.Follows mem Fits Good Bad)
    (hlaid : ∀ f ∈ formats, LaidOut formats f) (htop : LaidOut formats top) (h : Twin Fits s t)
    (hgood : Good s) (hclear : t.Clear offset (sizeOfInt top.recordLength)) :
    Tracks Fits Good Bad t
      ((handleSubfields formats (handleSubfield formats mem fuel top) top
        (s.placeBlock mem ⟨false, 8, 0⟩ 0).1 offset).bind fun s =>
          some (s.store place (leBytes 8 (s.outputLen - header))))
      ((mode.copy mem t ⟨false, 8, 0⟩ 0).bind fun r =>
        (walkSubfields formats (walkSubfield mode formats mem fuel top) top r.1 offset).bind
          fun t => some { t with
            state := t.state.store place (leBytes 8 (t.state.outputLen - header)) }) := by
  have hfurther : ∀ {s s' : EncodeState},
      some (s.store place (leBytes 8 (s.outputLen - header))) = some s' → s.Further s' := by
    intro s s' hs
    cases hs
    exact ⟨Nat.le_refl _, List.prefix_refl _⟩
  refine copy_tracks hmode (.inr ⟨rfl, rfl⟩) h hgood (fun hs => ?_) (fun ht => ?_)
    fun {t₁} hplaced htwin hgrown _ => ?_
  · obtain ⟨s₁, hwalk, hs⟩ := Option.bind_eq_some_iff.mp hs
    exact (handleSubfields_further (handleSubfield_further fuel) hwalk).trans (hfurther hs)
  · rename_i t₁ _ _
    obtain ⟨t₂, hwalk, ht⟩ := Option.bind_eq_some_iff.mp ht
    have hkept : t₁.reserved ⊆ t₂.reserved :=
      walkSubfields_keeps hmode.grows (walkSubfield_keeps hmode.grows fuel) hwalk
    cases ht
    exact hkept
  · refine Tracks.bind hmode (subfields_track hmode (handleSubfield_further fuel)
      (walkSubfield_keeps hmode.grows fuel) (walkSubfield_tracks hmode hlaid fuel) htop htwin
      hplaced (hclear.grown hgrown)) hfurther (fun ht => ?_) fun {s₂ t₂} htwin₂ hgood₂ _ => ?_
    · cases ht
      exact List.Subset.refl _
    · have hsame : (s₂.store place (leBytes 8 (s₂.outputLen - header))).Further s₂ :=
        ⟨Nat.le_refl _, List.prefix_refl _⟩
      rw [htwin₂.outputLen]
      exact (htwin₂.store place _).tracks (hmode.good hsame hgood₂)
        ⟨Nat.le_refl _, fun _ h => .inl h⟩

end

/-- A record behind the header. -/
theorem walkRecord_tracks {format : StoredFormat} {fuel data : Nat}
    (hmode : mode.Follows mem Fits Good Bad)
    (hlaid : ∀ f ∈ format.format.bodies, LaidOut format.format.bodies f)
    (h : Twin Fits (s.setupHeader format) t) (hgood : Good (s.setupHeader format)) :
    Tracks Fits Good Bad t (encodeRecord mem fuel format data s)
      (walkRecord mode mem fuel format data t) := by
  unfold encodeRecord walkRecord
  dsimp only
  rw [h.outputLen]
  generalize s.setupHeader format = s₀ at *
  cases hvariant : format.format.top.variant with
  | false =>
    refine copy_tracks hmode (.inl rfl) h hgood (fun hs => ?_) (fun ht => ?_)
      fun hplaced htwin _ _ => ?_
    · cases hs
      exact EncodeState.Further.refl _
    · cases ht
      exact List.Subset.refl _
    · exact htwin.tracks hplaced (Tracked.Grown.refl _)
  | true =>
    simp only [Bool.not_true, Bool.false_eq_true, if_false]
    refine copy_tracks hmode (.inl rfl) h hgood (fun hs => ?_) (fun ht => ?_)
      fun {t₁} hplaced htwin hgrown hclear => ?_
    · exact ((EncodeState.Further.refl _).remember format.format.top.recursive data _).trans
        (variable_further hs)
    · rw [← reserved_remember _ format.format.top.recursive data _]
      exact variable_keeps hmode ht
    · have hlater := t₁.grown_remember format.format.top.recursive data
        (s₀.placeBlock mem ⟨false, 1, sizeOfInt format.format.top.recordLength⟩ data).2.1
      refine (variable_tracks hmode hlaid (hlaid _ List.mem_cons_self)
        (htwin.remember format.format.top.recursive data _) ?_ (hclear.grown hlater)).trans hlater
      exact good_remember hmode hplaced format.format.top.recursive data _

end

end FFS
