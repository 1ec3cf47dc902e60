import FFS.Encode.Encode

/-!
# Placing a block

`FFSencode` and `FFSencode_vector` place the same blocks in different ways.  The state of the
one simulates the state of the other: each byte of the message lies at some place of the
vector, where it has the value that it has in the contiguous message.  The exception are
strays, bytes of padding that the vector takes in without clearing them.
-/

namespace FFS

open Machine

/-! ## Where the segments end -/

/-- The end of the last segment if that lies in the temporary buffer. -/
def tmpEnd (iovec : List InternalIovec) : Option Nat :=
  match iovec.getLast? with
  | some ⟨len, .tmp offset⟩ => some (offset + len)
  | _ => none

theorem tmpEnd_append_tmp (iovec : List InternalIovec) {len : Nat} (h : len ≠ 0) (offset : Nat) :
    tmpEnd (iovec ++ Segment.piece len (.tmp offset)) = some (offset + len) := by
  rw [tmpEnd, Segment.piece, if_neg h, List.getLast?_concat]

theorem tmpEnd_append_zeroes (iovec : List InternalIovec) {len : Nat} (h : len ≠ 0) :
    tmpEnd (iovec ++ Segment.piece len .zeroes) = none := by
  rw [tmpEnd, Segment.piece, if_neg h, List.getLast?_concat]

theorem tmpEnd_append_user (iovec : List InternalIovec) {len : Nat} (h : len ≠ 0) (addr : Nat) :
    tmpEnd (iovec ++ Segment.piece len (.user addr)) = none := by
  rw [tmpEnd, Segment.piece, if_neg h, List.getLast?_concat]

theorem append_piece_zero (iovec : List InternalIovec) (base : IOBase) :
    iovec ++ Segment.piece 0 base = iovec := List.append_nil _

theorem getLast?_of_tmpEnd {iovec : List InternalIovec} {e : Nat} (h : tmpEnd iovec = some e) :
    ∃ offset len, iovec.getLast? = some ⟨len, .tmp offset⟩ ∧ offset + len = e := by
  unfold tmpEnd at h
  split at h
  · next len offset hlast => exact ⟨offset, len, hlast, Option.some.inj h⟩
  · cases h

theorem tmpEnd_extendLast {iovec : List InternalIovec} {e : Nat} (n : Nat)
    (h : tmpEnd iovec = some e) : tmpEnd (Segment.extendLast iovec n) = some (e + n) := by
  obtain ⟨offset, len, hlast, rfl⟩ := getLast?_of_tmpEnd h
  rw [tmpEnd, Segment.getLast?_extendLast n hlast]
  exact congrArg some (Nat.add_assoc offset len n).symm

/-! ## What the operations do -/

namespace EncodeState

/-- Space behind a segment of the buffer, which takes in the padding. -/
theorem allocateTmpSpace_of_tmp {s : EncodeState} {e : Nat} (h : tmpEnd s.iovec = some e)
    (length reqAlignment : Nat) :
    let pad := alignPad reqAlignment s.outputLen
    s.allocateTmpSpace length reqAlignment =
      ({ s with
          outputLen := s.outputLen + pad + length, iovec := Segment.extendLast s.iovec pad,
          buf := { tmpBuffer := s.buf.tmpBuffer.write s.buf.inUseSize (List.replicate pad 0),
                   inUseSize := s.buf.inUseSize + pad + length } },
        s.outputLen + pad, s.buf.inUseSize + pad) := by
  obtain ⟨offset, len, hlast, -⟩ := getLast?_of_tmpEnd h
  intro pad
  have hdef : alignPad reqAlignment s.outputLen = pad := rfl
  clear_value pad
  unfold allocateTmpSpace
  by_cases hpad : pad = 0
  · simp only [addToTmpBuffer, hdef, hpad, if_true, Segment.extendLast_zero, List.replicate_zero,
      Mem.write_nil, Nat.add_zero]
  · simp only [addToTmpBuffer, hdef, if_neg hpad, hlast, Option.map_some, store,
      Nat.add_comm length, Nat.add_assoc]

/-- Space behind a segment that does not lie in the buffer, after a pad of zeroes. -/
theorem allocateTmpSpace_of_user {s : EncodeState} (h : tmpEnd s.iovec = none)
    (length reqAlignment : Nat) :
    let pad := alignPad reqAlignment s.outputLen
    s.allocateTmpSpace length reqAlignment =
      ({ s with
          outputLen := s.outputLen + pad + length,
          iovec := s.iovec ++ Segment.piece pad .zeroes,
          buf := { s.buf with inUseSize := s.buf.inUseSize + pad + length } },
        s.outputLen + pad, s.buf.inUseSize) := by
  intro pad
  have hdef : alignPad reqAlignment s.outputLen = pad := rfl
  clear_value pad
  unfold allocateTmpSpace
  by_cases hpad : pad = 0
  · simp only [addToTmpBuffer, hdef, hpad, if_true, append_piece_zero, Nat.add_zero]
  · have hpiece : Segment.piece pad IOBase.zeroes = [⟨pad, .zeroes⟩] := if_neg hpad
    have hother : ∀ offset, s.iovec.getLast?.map Segment.base ≠ some (.tmp offset) := by
      intro offset hlast
      obtain ⟨last, hlast, hbase⟩ := Option.map_eq_some_iff.mp hlast
      unfold tmpEnd at h
      rw [hlast] at h
      cases last
      simp only at hbase
      subst hbase
      cases h
    simp only [addToTmpBuffer, hdef, if_neg hpad, hpiece, Nat.add_comm length, Nat.add_assoc]

theorem copyDataToTmp_of_tmp {s : EncodeState} {e : Nat} (h : tmpEnd s.iovec = some e)
    (data : List UInt8) (reqAlignment : Nat) :
    let pad := alignPad reqAlignment s.outputLen
    s.copyDataToTmp data reqAlignment =
      ({ s with
          outputLen := s.outputLen + pad + data.length,
          iovec := Segment.extendLast s.iovec pad ++
            Segment.piece data.length (.tmp (s.buf.inUseSize + pad)),
          buf :=
            { tmpBuffer :=
                (s.buf.tmpBuffer.write s.buf.inUseSize (List.replicate pad 0)).write
                  (s.buf.inUseSize + pad) data,
              inUseSize := s.buf.inUseSize + pad + data.length } },
        s.outputLen + pad, s.buf.inUseSize + pad) := by
  unfold copyDataToTmp
  rw [allocateTmpSpace_of_tmp h]
  rfl

theorem copyDataToTmp_of_user {s : EncodeState} (h : tmpEnd s.iovec = none)
    (data : List UInt8) (reqAlignment : Nat) :
    let pad := alignPad reqAlignment s.outputLen
    s.copyDataToTmp data reqAlignment =
      ({ s with
          outputLen := s.outputLen + pad + data.length,
          iovec := s.iovec ++ Segment.piece pad .zeroes ++
            Segment.piece data.length (.tmp s.buf.inUseSize),
          buf :=
            { tmpBuffer := s.buf.tmpBuffer.write s.buf.inUseSize data,
              inUseSize := s.buf.inUseSize + pad + data.length } },
        s.outputLen + pad, s.buf.inUseSize) := by
  unfold copyDataToTmp
  rw [allocateTmpSpace_of_user h]
  rfl

end EncodeState

/-! ## Strays -/

/-- What the temporary buffer of a vector is used for: the length of the message, the part of
the buffer that is reserved, the end of the last segment if that lies in the buffer, and the
places that padding took in without clearing them. -/
structure TmpUse where
  outputLen : Nat
  inUseSize : Nat
  tmpEnd : Option Nat
  strays : List Nat

/-- A block that is left where it is takes no room in the buffer.  A copied block behind one
that was left has its padding reserved behind it, and is not the end of what is reserved. -/
def TmpUse.place (u : TmpUse) (block : Block) : TmpUse :=
  let pad := alignPad block.alignment u.outputLen
  let outputLen := u.outputLen + pad + block.length
  if block.leaf then
    { u with outputLen, tmpEnd := if pad + block.length = 0 then u.tmpEnd else none }
  else
    let inUseSize := u.inUseSize + pad + block.length
    match u.tmpEnd with
    | some e =>
      { outputLen, inUseSize, tmpEnd := some inUseSize,
        strays := u.strays ++ (List.range (min pad (u.inUseSize - e))).map (e + ·) }
    | none => { u with outputLen, inUseSize, tmpEnd := some (u.inUseSize + block.length) }

/-- The use after the header. -/
def TmpUse.start (header : Nat) : TmpUse :=
  { outputLen := header, inUseSize := header, tmpEnd := some header, strays := [] }

/-- Where nothing has been stored yet. -/
def TmpUse.limit (u : TmpUse) : Nat := u.tmpEnd.getD u.inUseSize

/-! ## Simulation -/

/-- The place of a byte of the message. -/
def placeIn (iovec : List InternalIovec) (i : Nat) : Option IOBase :=
  (Segment.locate iovec i).map fun place => place.1.shift place.2

def EncodeState.place (s : EncodeState) (i : Nat) : Option IOBase := placeIn s.iovec i

theorem lt_of_placeIn {iovec : List InternalIovec} {i : Nat} {base : IOBase}
    (h : placeIn iovec i = some base) : i < Segment.total iovec := by
  by_contra hle
  rw [placeIn, Segment.locate_eq_none_iff.mpr (Nat.le_of_not_lt hle)] at h
  cases h

/-- The places of a list with one more segment. -/
theorem placeIn_append_piece {iovec : List InternalIovec} {len i : Nat} {base' base : IOBase} :
    placeIn (iovec ++ Segment.piece len base') i = some base ↔
      placeIn iovec i = some base ∨
        ∃ k, k < len ∧ i = Segment.total iovec + k ∧ base = base'.shift k := by
  have hright : ∀ k, k < len →
      placeIn (iovec ++ Segment.piece len base') (Segment.total iovec + k) =
        some (base'.shift k) := by
    intro k hk
    rw [placeIn, Segment.locate_append_right (by omega), Nat.add_sub_cancel_left,
      Segment.locate_piece base' hk]
    rfl
  constructor
  · intro h
    by_cases hi : i < Segment.total iovec
    · rw [placeIn, Segment.locate_append_left hi] at h
      exact .inl h
    · have hlt := lt_of_placeIn h
      rw [Segment.total_append, Segment.total_piece] at hlt
      refine .inr ⟨i - Segment.total iovec, by omega, by omega, ?_⟩
      have hplace := hright (i - Segment.total iovec) (by omega)
      rw [Nat.add_sub_cancel' (by omega)] at hplace
      exact Option.some.inj (h.symm.trans hplace)
  · rintro (h | ⟨k, hk, rfl, rfl⟩)
    · rw [placeIn, Segment.locate_append_left (lt_of_placeIn h)]
      exact h
    · exact hright k hk

/-- The places of a list whose last segment takes in more bytes of the buffer. -/
theorem placeIn_extendLast {iovec : List InternalIovec} {n i e : Nat} {base : IOBase}
    (hend : tmpEnd iovec = some e) :
    placeIn (Segment.extendLast iovec n) i = some base ↔
      placeIn iovec i = some base ∨
        ∃ k, k < n ∧ i = Segment.total iovec + k ∧ base = .tmp (e + k) := by
  obtain ⟨offset, len, hlast, hlen⟩ := getLast?_of_tmpEnd hend
  have hright : ∀ k, k < n →
      placeIn (Segment.extendLast iovec n) (Segment.total iovec + k) = some (.tmp (e + k)) := by
    intro k hk
    rw [placeIn, Segment.locate_extendLast_right hlast hk]
    simp only [Option.map_some, IOBase.shift, Option.some.injEq, IOBase.tmp.injEq]
    omega
  constructor
  · intro h
    by_cases hi : i < Segment.total iovec
    · rw [placeIn, Segment.locate_extendLast_left hi] at h
      exact .inl h
    · have hlt := lt_of_placeIn h
      rw [Segment.total_extendLast n hlast] at hlt
      refine .inr ⟨i - Segment.total iovec, by omega, by omega, ?_⟩
      have hplace := hright (i - Segment.total iovec) (by omega)
      rw [Nat.add_sub_cancel' (by omega)] at hplace
      exact Option.some.inj (h.symm.trans hplace)
  · rintro (h | ⟨k, hk, rfl, rfl⟩)
    · rw [placeIn, Segment.locate_extendLast_left (lt_of_placeIn h)]
      exact h
    · exact hright k hk

/-- The use of the buffer behind the blocks that were placed. -/
def EncodeState.use (header : Nat) (s : EncodeState) : TmpUse :=
  s.blocks.foldl TmpUse.place (.start header)

/-- A place of the vector agrees with the contiguous message, a stray with what the buffer had
there before. -/
def AgreesAt (mem before m₁ m₂ : Mem) (strays : List Nat) (i : Nat) : IOBase → Prop
  | .tmp j => if j ∈ strays then m₁ i = 0 ∧ m₂ j = before j else m₂ j = m₁ i
  | .user addr => mem addr = m₁ i
  | .zeroes => m₁ i = 0

/-- The state of `FFSencode` and the one of `FFSencode_vector` after the same blocks. -/
structure Sim (mem before : Mem) (header : Nat) (s₁ s₂ : EncodeState) : Prop where
  copyAll₁ : s₁.copyAll = true
  copyAll₂ : s₂.copyAll = false
  noLeafCopy₁ : s₁.noLeafCopy = false
  noLeafCopy₂ : s₂.noLeafCopy = false
  outputLen : s₂.outputLen = s₁.outputLen
  addrList : s₂.addrList = s₁.addrList
  saved : s₂.savedOffsetDifference = s₁.savedOffsetDifference
  blocks : s₂.blocks = s₁.blocks
  inUse₁ : s₁.buf.inUseSize = s₁.outputLen
  tmp₁ : (tmpEnd s₁.iovec).isSome = true
  total : Segment.total s₂.iovec = s₂.outputLen
  useLen : (s₂.use header).outputLen = s₂.outputLen
  useSize : (s₂.use header).inUseSize = s₂.buf.inUseSize
  useEnd : (s₂.use header).tmpEnd = tmpEnd s₂.iovec
  limit : (s₂.use header).limit ≤ s₂.buf.inUseSize
  agree : ∀ {i base}, s₂.place i = some base →
    AgreesAt mem before s₁.buf.tmpBuffer s₂.buf.tmpBuffer (s₂.use header).strays i base
  inj : ∀ {i i' j}, s₂.place i = some (.tmp j) → s₂.place i' = some (.tmp j) → i = i'
  below : ∀ {i j}, s₂.place i = some (.tmp j) → j < (s₂.use header).limit
  strays : ∀ j ∈ (s₂.use header).strays, ∃ i, s₂.place i = some (.tmp j)
  untouched : ∀ j, (s₂.use header).limit ≤ j → s₂.buf.tmpBuffer j = before j

/-- What was placed stays in place, and no stray. -/
structure Grows (header : Nat) (s s' : EncodeState) : Prop where
  place : ∀ {i}, i < s.outputLen → s'.place i = s.place i
  outputLen : s.outputLen ≤ s'.outputLen
  strays : ∀ {i j}, s.place i = some (.tmp j) → j ∉ (s.use header).strays →
    j ∉ (s'.use header).strays

/-- A part of the message at `d₁` that lies in the buffer at `d₂`. -/
structure Frame (header : Nat) (s : EncodeState) (d₁ d₂ n : Nat) : Prop where
  inside : d₁ + n ≤ s.outputLen
  place : ∀ {k}, k < n → s.place (d₁ + k) = some (.tmp (d₂ + k))
  strays : ∀ {k}, k < n → d₂ + k ∉ (s.use header).strays

variable {mem before : Mem} {header : Nat} {s s' s₁ s₂ : EncodeState}

theorem Grows.refl (header : Nat) (s : EncodeState) : Grows header s s :=
  ⟨fun _ => rfl, Nat.le_refl _, fun _ h => h⟩

theorem Sim.lt_of_place (h : Sim mem before header s₁ s₂) {i : Nat} {base : IOBase}
    (hplace : s₂.place i = some base) : i < s₂.outputLen := by
  rw [← h.total]
  exact lt_of_placeIn hplace

theorem Sim.exists_place (h : Sim mem before header s₁ s₂) {i : Nat} (hi : i < s₂.outputLen) :
    ∃ base, s₂.place i = some base := by
  rw [← h.total] at hi
  cases hlocate : Segment.locate s₂.iovec i with
  | none => exact absurd (Segment.locate_eq_none_iff.mp hlocate) (Nat.not_le.mpr hi)
  | some place => exact ⟨place.1.shift place.2, by rw [EncodeState.place, placeIn, hlocate]; rfl⟩

theorem Grows.trans {s'' : EncodeState} (hsim : Sim mem before header s₁ s)
    (h : Grows header s s') (h' : Grows header s' s'') : Grows header s s'' := by
  refine ⟨fun hi => ?_, Nat.le_trans h.outputLen h'.outputLen, fun hplace hnot => ?_⟩
  · rw [h'.place (Nat.lt_of_lt_of_le hi h.outputLen), h.place hi]
  · exact h'.strays ((h.place (hsim.lt_of_place hplace)).trans hplace) (h.strays hplace hnot)

theorem Frame.grows {d₁ d₂ n : Nat} (hframe : Frame header s d₁ d₂ n)
    (hsim : Sim mem before header s₁ s) (h : Grows header s s') : Frame header s' d₁ d₂ n := by
  refine ⟨Nat.le_trans hframe.inside h.outputLen, fun hk => ?_,
    fun hk => h.strays (hframe.place hk) (hframe.strays hk)⟩
  rw [h.place (hsim.lt_of_place (hframe.place hk)), hframe.place hk]

theorem Frame.sub {d₁ d₂ n k m : Nat} (hframe : Frame header s d₁ d₂ n) (h : k + m ≤ n) :
    Frame header s (d₁ + k) (d₂ + k) m := by
  refine ⟨by have := hframe.inside; omega, fun {x} hx => ?_, fun {x} hx => ?_⟩
  · rw [Nat.add_assoc, Nat.add_assoc, hframe.place (by omega)]
  · rw [Nat.add_assoc]
    exact hframe.strays (by omega)

/-- A frame has the same bytes in both buffers. -/
theorem Frame.byte {d₁ d₂ n k : Nat} (hframe : Frame header s₂ d₁ d₂ n)
    (h : Sim mem before header s₁ s₂) (hk : k < n) :
    s₂.buf.tmpBuffer (d₂ + k) = s₁.buf.tmpBuffer (d₁ + k) := by
  have hagree := h.agree (hframe.place hk)
  rw [AgreesAt, if_neg (hframe.strays hk)] at hagree
  exact hagree

theorem Frame.read {d₁ d₂ n k m : Nat} (hframe : Frame header s₂ d₁ d₂ n)
    (h : Sim mem before header s₁ s₂) (hkm : k + m ≤ n) :
    s₂.buf.tmpBuffer.read (d₂ + k) m = s₁.buf.tmpBuffer.read (d₁ + k) m := by
  refine List.map_congr_left fun x hx => ?_
  have hx := List.mem_range.mp hx
  rw [Nat.add_assoc, Nat.add_assoc]
  exact hframe.byte h (by omega)

/-- The same bytes stored in a frame of both. -/
theorem Sim.store {d₁ d₂ n : Nat} (h : Sim mem before header s₁ s₂)
    (hframe : Frame header s₂ d₁ d₂ n) {bytes : List UInt8} (hlength : bytes.length ≤ n) :
    Sim mem before header (s₁.store d₁ bytes) (s₂.store d₂ bytes) ∧
      Grows header s₂ (s₂.store d₂ bytes) := by
  refine ⟨{ h with agree := ?_, untouched := ?_ },
    ⟨fun _ => rfl, Nat.le_refl _, fun _ hnot => hnot⟩⟩
  · intro i base hplace
    have hagree := h.agree (i := i) hplace
    by_cases hi : d₁ ≤ i ∧ i < d₁ + bytes.length
    · have hk : i - d₁ < n := by omega
      have hd : d₁ + (i - d₁) = i := by omega
      have hbase := hframe.place hk
      rw [hd] at hbase
      cases hbase.symm.trans hplace
      have hnot : d₂ + (i - d₁) ∉ ((s₂.store d₂ bytes).use header).strays := hframe.strays hk
      rw [AgreesAt, if_neg hnot]
      show Mem.write _ _ _ _ = Mem.write _ _ _ _
      rw [Mem.write_inside hi.1 hi.2, Mem.write_inside (by omega) (by omega),
        Nat.add_sub_cancel_left]
    · have hsame : (s₁.store d₁ bytes).buf.tmpBuffer i = s₁.buf.tmpBuffer i :=
        Mem.write_outside (by omega)
      cases base with
      | tmp j =>
        have hj : (s₂.store d₂ bytes).buf.tmpBuffer j = s₂.buf.tmpBuffer j := by
          refine Mem.write_outside ?_
          by_contra hin
          have hk : j - d₂ < n := by omega
          have hbase := hframe.place hk
          rw [show d₂ + (j - d₂) = j by omega] at hbase
          have heq := h.inj hbase hplace
          omega
        rw [AgreesAt, hsame, hj]
        exact hagree
      | user addr => exact hagree.trans hsame.symm
      | zeroes => exact hsame.trans hagree
  · intro j hj
    refine (Mem.write_outside ?_).trans (h.untouched j hj)
    by_contra hin
    have hk : j - d₂ < n := by omega
    have hbelow := h.below (hframe.place hk)
    have hj' : (s₂.use header).limit ≤ j := hj
    omega

/-! ## One more block -/

/-- What does not change when a block is placed. -/
structure SameSetup (s s' : EncodeState) : Prop where
  copyAll : s'.copyAll = s.copyAll
  noLeafCopy : s'.noLeafCopy = s.noLeafCopy
  addrList : s'.addrList = s.addrList
  saved : s'.savedOffsetDifference = s.savedOffsetDifference

/-- A block that the contiguous message has behind its end and the vector at new places. -/
structure Extension (mem before : Mem) (header : Nat) (s₁ s₂ s₁' s₂' : EncodeState)
    (New : Nat → IOBase → Prop) : Prop where
  setup₁ : SameSetup s₁ s₁'
  setup₂ : SameSetup s₂ s₂'
  blocks : s₂'.blocks = s₁'.blocks
  outputLen : s₂'.outputLen = s₁'.outputLen
  grows : s₂.outputLen ≤ s₂'.outputLen
  inUse₁ : s₁'.buf.inUseSize = s₁'.outputLen
  tmp₁ : (tmpEnd s₁'.iovec).isSome = true
  total : Segment.total s₂'.iovec = s₂'.outputLen
  useLen : (s₂'.use header).outputLen = s₂'.outputLen
  useSize : (s₂'.use header).inUseSize = s₂'.buf.inUseSize
  useEnd : (s₂'.use header).tmpEnd = tmpEnd s₂'.iovec
  limit : (s₂'.use header).limit ≤ s₂'.buf.inUseSize
  limit_le : (s₂.use header).limit ≤ (s₂'.use header).limit
  place : ∀ {i base}, s₂'.place i = some base ↔ s₂.place i = some base ∨ New i base
  old₁ : ∀ {i}, i < s₁.outputLen → s₁'.buf.tmpBuffer i = s₁.buf.tmpBuffer i
  old₂ : ∀ {j}, j < (s₂.use header).limit → s₂'.buf.tmpBuffer j = s₂.buf.tmpBuffer j
  new_le : ∀ {i base}, New i base → s₂.outputLen ≤ i
  new : ∀ {i base}, New i base →
    AgreesAt mem before s₁'.buf.tmpBuffer s₂'.buf.tmpBuffer (s₂'.use header).strays i base
  inj : ∀ {i i' j}, New i (.tmp j) → New i' (.tmp j) → i = i'
  above : ∀ {i j}, New i (.tmp j) → (s₂.use header).limit ≤ j ∧ j < (s₂'.use header).limit
  strays : (s₂.use header).strays ⊆ (s₂'.use header).strays
  newStrays : ∀ j ∈ (s₂'.use header).strays,
    j ∈ (s₂.use header).strays ∨ ∃ i, New i (.tmp j)
  untouched : ∀ j, (s₂'.use header).limit ≤ j → s₂'.buf.tmpBuffer j = before j

theorem Extension.sim {s₁' s₂' : EncodeState} {New : Nat → IOBase → Prop}
    (h : Sim mem before header s₁ s₂)
    (hext : Extension mem before header s₁ s₂ s₁' s₂' New) :
    Sim mem before header s₁' s₂' ∧ Grows header s₂ s₂' := by
  have hstray : ∀ {i j}, s₂.place i = some (.tmp j) →
      (j ∈ (s₂'.use header).strays ↔ j ∈ (s₂.use header).strays) := by
    intro i j hplace
    refine ⟨fun hj => ?_, fun hj => hext.strays hj⟩
    rcases hext.newStrays j hj with hold | ⟨i', hnew⟩
    · exact hold
    · exact absurd (h.below hplace) (Nat.not_lt.mpr (hext.above hnew).1)
  refine ⟨?_, ?_⟩
  · constructor
    case copyAll₁ => rw [hext.setup₁.copyAll, h.copyAll₁]
    case copyAll₂ => rw [hext.setup₂.copyAll, h.copyAll₂]
    case noLeafCopy₁ => rw [hext.setup₁.noLeafCopy, h.noLeafCopy₁]
    case noLeafCopy₂ => rw [hext.setup₂.noLeafCopy, h.noLeafCopy₂]
    case outputLen => exact hext.outputLen
    case addrList => rw [hext.setup₁.addrList, hext.setup₂.addrList, h.addrList]
    case saved => rw [hext.setup₁.saved, hext.setup₂.saved, h.saved]
    case blocks => exact hext.blocks
    case inUse₁ => exact hext.inUse₁
    case tmp₁ => exact hext.tmp₁
    case total => exact hext.total
    case useLen => exact hext.useLen
    case useSize => exact hext.useSize
    case useEnd => exact hext.useEnd
    case limit => exact hext.limit
    case untouched => exact hext.untouched
    case agree =>
      intro i base hplace
      rcases hext.place.mp hplace with hold | hnew
      · have hagree := h.agree hold
        have hi : i < s₁.outputLen := h.outputLen ▸ h.lt_of_place hold
        cases base with
        | tmp j =>
          simp only [AgreesAt, hstray hold, hext.old₁ hi, hext.old₂ (h.below hold)]
          exact hagree
        | user addr => exact hagree.trans (hext.old₁ hi).symm
        | zeroes => exact (hext.old₁ hi).trans hagree
      · exact hext.new hnew
    case inj =>
      intro i i' j hplace hplace'
      rcases hext.place.mp hplace with hold | hnew <;>
        rcases hext.place.mp hplace' with hold' | hnew'
      · exact h.inj hold hold'
      · exact absurd (h.below hold) (Nat.not_lt.mpr (hext.above hnew').1)
      · exact absurd (h.below hold') (Nat.not_lt.mpr (hext.above hnew).1)
      · exact hext.inj hnew hnew'
    case below =>
      intro i j hplace
      rcases hext.place.mp hplace with hold | hnew
      · exact Nat.lt_of_lt_of_le (h.below hold) hext.limit_le
      · exact (hext.above hnew).2
    case strays =>
      intro j hj
      rcases hext.newStrays j hj with hold | ⟨i, hnew⟩
      · obtain ⟨i, hi⟩ := h.strays j hold
        exact ⟨i, hext.place.mpr (.inl hi)⟩
      · exact ⟨i, hext.place.mpr (.inr hnew)⟩
  · refine ⟨fun {i} hi => ?_, hext.grows, fun hplace hnot => ?_⟩
    · obtain ⟨base, hbase⟩ := h.exists_place hi
      rw [hbase, hext.place.mpr (.inl hbase)]
    · rwa [hstray hplace]

/-- The contiguous message has the padding and the block behind its end. -/
structure Appended (s s' : EncodeState) (pad : Nat) (data : List UInt8) : Prop where
  setup : SameSetup s s'
  outputLen : s'.outputLen = s.outputLen + pad + data.length
  inUse : s'.buf.inUseSize = s.buf.inUseSize + pad + data.length
  tmp : (tmpEnd s'.iovec).isSome = true
  old : ∀ {i}, i < s.buf.inUseSize → s'.buf.tmpBuffer i = s.buf.tmpBuffer i
  zeroes : ∀ {k}, k < pad → s'.buf.tmpBuffer (s.buf.inUseSize + k) = 0
  bytes : ∀ {k}, k < data.length →
    s'.buf.tmpBuffer (s.buf.inUseSize + pad + k) = data.getD k 0

theorem getD_replicate_zero {n k : Nat} : (List.replicate n (0 : UInt8)).getD k 0 = 0 := by
  rw [List.getD_eq_getElem?_getD, List.getElem?_replicate]
  split <;> rfl

/-- Zeroes and then data behind what a memory has. -/
theorem write_pad_data {m : Mem} {a pad : Nat} {data : List UInt8} :
    (∀ {i}, i < a → ((m.write a (List.replicate pad 0)).write (a + pad) data) i = m i) ∧
    (∀ {k}, k < pad → ((m.write a (List.replicate pad 0)).write (a + pad) data) (a + k) = 0) ∧
    (∀ {k}, k < data.length →
      ((m.write a (List.replicate pad 0)).write (a + pad) data) (a + pad + k) =
        data.getD k 0) := by
  refine ⟨fun hi => ?_, fun hk => ?_, fun hk => ?_⟩
  · rw [Mem.write_outside (by omega), Mem.write_outside (by omega)]
  · rw [Mem.write_outside (by omega), Mem.write_inside (by omega)
      (by rw [List.length_replicate]; omega), getD_replicate_zero]
  · rw [Mem.write_inside (by omega) (by omega), Nat.add_sub_cancel_left]

theorem copyDataToTmp_appended {e : Nat} (h : tmpEnd s.iovec = some e) (data : List UInt8)
    (reqAlignment : Nat) :
    Appended s (s.copyDataToTmp data reqAlignment).1 (alignPad reqAlignment s.outputLen) data := by
  rw [EncodeState.copyDataToTmp_of_tmp h]
  obtain ⟨hold, hpad, hdata⟩ := @write_pad_data s.buf.tmpBuffer s.buf.inUseSize
    (alignPad reqAlignment s.outputLen) data
  refine ⟨⟨rfl, rfl, rfl, rfl⟩, rfl, rfl, ?_, hold, hpad, hdata⟩
  by_cases hlength : data.length = 0
  · rw [hlength, append_piece_zero, tmpEnd_extendLast _ h]
    rfl
  · rw [tmpEnd_append_tmp _ hlength]
    rfl

theorem getD_read {m : Mem} {a n k : Nat} (h : k < n) : (m.read a n).getD k 0 = m (a + k) := by
  have hlength : k < (m.read a n).length := by rwa [Mem.length_read]
  rw [List.getD_eq_getElem _ _ hlength, Mem.getElem_read]

theorem use_of_blocks {block : Block} (h : s'.blocks = s.blocks ++ [block]) :
    s'.use header = (s.use header).place block := by
  rw [EncodeState.use, h, List.foldl_append]
  rfl

theorem place_leaf {u : TmpUse} {block : Block} (h : block.leaf = true) :
    u.place block =
      { u with
        outputLen := u.outputLen + alignPad block.alignment u.outputLen + block.length,
        tmpEnd := if alignPad block.alignment u.outputLen + block.length = 0 then u.tmpEnd
          else none } := by
  rw [TmpUse.place, h]
  rfl

/-- The state of `FFSencode` behind a block. -/
theorem placeBlock_appended {e : Nat} (hcopyAll : s.copyAll = true) (h : tmpEnd s.iovec = some e)
    (block : Block) (addr : Nat) :
    Appended s (s.placeBlock mem block addr).1 (alignPad block.alignment s.outputLen)
        (mem.read addr block.length) ∧
      (s.placeBlock mem block addr).1.blocks = s.blocks ++ [block] ∧
      (s.placeBlock mem block addr).2 =
        (s.outputLen + alignPad block.alignment s.outputLen,
          s.buf.inUseSize + alignPad block.alignment s.outputLen) := by
  have hplace : s.placeBlock mem block addr =
      { s with blocks := s.blocks ++ [block] }.copyDataToTmp (mem.read addr block.length)
        block.alignment := by
    rw [EncodeState.placeBlock, hcopyAll]
    rfl
  rw [hplace]
  have happended := @copyDataToTmp_appended { s with blocks := s.blocks ++ [block] } e h
    (mem.read addr block.length) block.alignment
  have heq := @EncodeState.copyDataToTmp_of_tmp { s with blocks := s.blocks ++ [block] } e h
    (mem.read addr block.length) block.alignment
  refine ⟨⟨⟨happended.setup.copyAll, happended.setup.noLeafCopy, happended.setup.addrList,
    happended.setup.saved⟩, happended.outputLen, happended.inUse, happended.tmp, happended.old,
    happended.zeroes, happended.bytes⟩, ?_, ?_⟩
  · rw [heq]
  · rw [heq]

/-- The places of a block that is left, behind a pad of zeroes. -/
def LeftAt (start pad len addr i : Nat) (base : IOBase) : Prop :=
  (∃ k, k < pad ∧ i = start + k ∧ base = .zeroes) ∨
    ∃ k, k < len ∧ i = start + pad + k ∧ base = .user (addr + k)

theorem tmpEnd_append_left (iovec : List InternalIovec) (pad len addr : Nat) :
    tmpEnd (iovec ++ Segment.piece pad .zeroes ++ Segment.piece len (.user addr)) =
      if pad + len = 0 then tmpEnd iovec else none := by
  by_cases hlen : len = 0
  · subst hlen
    rw [append_piece_zero, Nat.add_zero]
    by_cases hpad : pad = 0
    · subst hpad
      rw [append_piece_zero, if_pos rfl]
    · rw [tmpEnd_append_zeroes _ hpad, if_neg hpad]
  · rw [tmpEnd_append_user _ hlen, if_neg (by omega)]

theorem extension_left {s₁' s₂' : EncodeState} {block : Block} {addr : Nat}
    (h : Sim mem before header s₁ s₂) (hleaf : block.leaf = true)
    (happended : Appended s₁ s₁' (alignPad block.alignment s₁.outputLen)
      (mem.read addr block.length))
    (hblocks : s₁'.blocks = s₁.blocks ++ [block])
    (hstate : s₂' = { s₂ with
      blocks := s₂.blocks ++ [block],
      outputLen := s₂.outputLen + alignPad block.alignment s₁.outputLen + block.length,
      iovec := s₂.iovec ++ Segment.piece (alignPad block.alignment s₁.outputLen) .zeroes ++
        Segment.piece block.length (.user addr) }) :
    Extension mem before header s₁ s₂ s₁' s₂'
      (LeftAt s₂.outputLen (alignPad block.alignment s₁.outputLen) block.length addr) := by
  have huse : s₂'.use header =
      { s₂.use header with
        outputLen := s₂.outputLen + alignPad block.alignment s₁.outputLen + block.length,
        tmpEnd := if alignPad block.alignment s₁.outputLen + block.length = 0 then
          (s₂.use header).tmpEnd else none } := by
    rw [@use_of_blocks header s₂ s₂' block (by rw [hstate]), place_leaf hleaf, h.useLen,
      h.outputLen]
  generalize alignPad block.alignment s₁.outputLen = pad at *
  have hlength : (mem.read addr block.length).length = block.length := Mem.length_read _ _ _
  have hinUse := h.inUse₁
  have houtput := h.outputLen
  have hold := h.limit
  have hlimit : (s₂.use header).limit ≤ (s₂'.use header).limit ∧
      (s₂'.use header).limit ≤ s₂.buf.inUseSize := by
    rw [huse]
    by_cases hzero : pad + block.length = 0
    · simp only [TmpUse.limit, if_pos hzero]
      exact ⟨Nat.le_refl _, hold⟩
    · have hnone : TmpUse.limit { s₂.use header with
          outputLen := s₂.outputLen + pad + block.length,
          tmpEnd := if pad + block.length = 0 then (s₂.use header).tmpEnd else none } =
            s₂.buf.inUseSize := by
        simp only [TmpUse.limit, if_neg hzero, Option.getD_none, h.useSize]
      rw [hnone]
      exact ⟨hold, Nat.le_refl _⟩
  constructor
  case setup₁ => exact happended.setup
  case setup₂ => rw [hstate]; exact ⟨rfl, rfl, rfl, rfl⟩
  case blocks => rw [hstate, hblocks, ← h.blocks]
  case outputLen => rw [hstate, happended.outputLen, hlength, houtput]
  case grows => rw [hstate]; simp only; omega
  case inUse₁ => rw [happended.inUse, happended.outputLen, hinUse]
  case tmp₁ => exact happended.tmp
  case total =>
    rw [hstate, Segment.total_append, Segment.total_append, Segment.total_piece,
      Segment.total_piece, h.total]
  case useLen => rw [huse, hstate]
  case useSize => rw [huse, hstate]; exact h.useSize
  case useEnd => rw [huse, hstate, tmpEnd_append_left, ← h.useEnd]
  case limit =>
    have hsize : s₂'.buf.inUseSize = s₂.buf.inUseSize := by rw [hstate]
    rw [hsize]
    exact hlimit.2
  case limit_le => exact hlimit.1
  case place =>
    intro i base
    rw [hstate]
    show placeIn _ i = some base ↔ placeIn _ i = some base ∨ _
    rw [placeIn_append_piece, placeIn_append_piece, Segment.total_append, Segment.total_piece,
      h.total, or_assoc]
    rfl
  case old₁ =>
    intro i hi
    exact happended.old (hinUse ▸ hi)
  case old₂ =>
    intro j _
    rw [hstate]
  case new_le =>
    rintro i base (⟨k, hk, rfl, rfl⟩ | ⟨k, hk, rfl, rfl⟩) <;> omega
  case new =>
    rintro i base (⟨k, hk, rfl, rfl⟩ | ⟨k, hk, rfl, rfl⟩)
    · have hzero := happended.zeroes hk
      rwa [hinUse, ← houtput] at hzero
    · have hbyte := happended.bytes (by rw [hlength]; exact hk)
      rw [hinUse, ← houtput, getD_read hk] at hbyte
      exact hbyte.symm
  case inj =>
    rintro i i' j (⟨k, hk, rfl, hbase⟩ | ⟨k, hk, rfl, hbase⟩) <;> cases hbase
  case above =>
    rintro i j (⟨k, hk, rfl, hbase⟩ | ⟨k, hk, rfl, hbase⟩) <;> cases hbase
  case strays => rw [huse]; exact List.Subset.refl _
  case newStrays =>
    intro j hj
    rw [huse] at hj
    exact .inl hj
  case untouched =>
    intro j hj
    rw [hstate]
    exact h.untouched j (Nat.le_trans hlimit.1 hj)

/-- A block that `FFSencode_vector` leaves where it is. -/
theorem placeBlock_leaf (h : Sim mem before header s₁ s₂) {block : Block}
    (hleaf : block.leaf = true) (addr : Nat) :
    (s₂.placeBlock mem block addr).2.1 = (s₁.placeBlock mem block addr).2.1 ∧
      Sim mem before header (s₁.placeBlock mem block addr).1 (s₂.placeBlock mem block addr).1 ∧
      Grows header s₂ (s₂.placeBlock mem block addr).1 := by
  obtain ⟨e, he⟩ := Option.isSome_iff_exists.mp h.tmp₁
  obtain ⟨happended, hblocks, hresult⟩ := @placeBlock_appended mem s₁ e h.copyAll₁ he block addr
  have hplace : s₂.placeBlock mem block addr =
      (({ s₂ with blocks := s₂.blocks ++ [block] }.addDataIovec addr block.length
          block.alignment).1,
        ({ s₂ with blocks := s₂.blocks ++ [block] }.addDataIovec addr block.length
          block.alignment).2, 0) := by
    rw [EncodeState.placeBlock, h.copyAll₂, hleaf]
    rfl
  refine ⟨?_, Extension.sim h (extension_left h hleaf happended hblocks ?_)⟩
  · rw [hresult, hplace, ← h.outputLen]
    rfl
  · rw [hplace, ← h.outputLen]
    rfl

/-- The places of a block that is copied: its padding in the buffer or in zeroes, and its
bytes in the buffer. -/
def CopiedAt (start pad len : Nat) (padAt : Nat → IOBase) (loc i : Nat) (base : IOBase) : Prop :=
  (∃ k, k < pad ∧ i = start + k ∧ base = padAt k) ∨
    ∃ k, k < len ∧ i = start + pad + k ∧ base = .tmp (loc + k)

theorem place_tmp {u : TmpUse} {block : Block} {e : Nat} (h : block.leaf = false)
    (he : u.tmpEnd = some e) :
    u.place block =
      { outputLen := u.outputLen + alignPad block.alignment u.outputLen + block.length,
        inUseSize := u.inUseSize + alignPad block.alignment u.outputLen + block.length,
        tmpEnd := some (u.inUseSize + alignPad block.alignment u.outputLen + block.length),
        strays := u.strays ++ (List.range
          (min (alignPad block.alignment u.outputLen) (u.inUseSize - e))).map (e + ·) } := by
  rw [TmpUse.place, h, he]
  rfl

theorem place_user {u : TmpUse} {block : Block} (h : block.leaf = false)
    (he : u.tmpEnd = none) :
    u.place block =
      { u with
        outputLen := u.outputLen + alignPad block.alignment u.outputLen + block.length,
        inUseSize := u.inUseSize + alignPad block.alignment u.outputLen + block.length,
        tmpEnd := some (u.inUseSize + block.length) } := by
  rw [TmpUse.place, h, he]
  rfl

/-- A copied block behind another segment of the buffer. -/
theorem extension_tmp {s₁' s₂' : EncodeState} {block : Block} {addr e : Nat}
    (h : Sim mem before header s₁ s₂) (hleaf : block.leaf = false)
    (he : tmpEnd s₂.iovec = some e) (hlen : block.length ≠ 0 ∨ e = s₂.buf.inUseSize)
    (happended : Appended s₁ s₁' (alignPad block.alignment s₁.outputLen)
      (mem.read addr block.length))
    (hblocks : s₁'.blocks = s₁.blocks ++ [block])
    (hstate : s₂' = { s₂ with
      blocks := s₂.blocks ++ [block],
      outputLen := s₂.outputLen + alignPad block.alignment s₁.outputLen + block.length,
      iovec := Segment.extendLast s₂.iovec (alignPad block.alignment s₁.outputLen) ++
        Segment.piece block.length
          (.tmp (s₂.buf.inUseSize + alignPad block.alignment s₁.outputLen)),
      buf :=
        { tmpBuffer :=
            (s₂.buf.tmpBuffer.write s₂.buf.inUseSize
              (List.replicate (alignPad block.alignment s₁.outputLen) 0)).write
                (s₂.buf.inUseSize + alignPad block.alignment s₁.outputLen)
                (mem.read addr block.length),
          inUseSize := s₂.buf.inUseSize + alignPad block.alignment s₁.outputLen +
            block.length } }) :
    Extension mem before header s₁ s₂ s₁' s₂'
      (CopiedAt s₂.outputLen (alignPad block.alignment s₁.outputLen) block.length
        (fun k => .tmp (e + k))
        (s₂.buf.inUseSize + alignPad block.alignment s₁.outputLen)) := by
  have hend : (s₂.use header).tmpEnd = some e := h.useEnd.trans he
  have huse := @use_of_blocks header s₂ s₂' block (by rw [hstate])
  rw [place_tmp hleaf hend, h.useLen, h.useSize, h.outputLen] at huse
  have hle : e ≤ s₂.buf.inUseSize := by
    have hlimit := h.limit
    rwa [TmpUse.limit, hend, Option.getD_some] at hlimit
  generalize alignPad block.alignment s₁.outputLen = pad at *
  have hlength : (mem.read addr block.length).length = block.length := Mem.length_read _ _ _
  have hinUse := h.inUse₁
  have houtput := h.outputLen
  have hlimit : (s₂.use header).limit = e := by rw [TmpUse.limit, hend]; rfl
  have hlimit' : (s₂'.use header).limit = s₂.buf.inUseSize + pad + block.length := by
    rw [huse]; rfl
  have hstrays : ∀ j, j ∈ (s₂'.use header).strays ↔ j ∈ (s₂.use header).strays ∨
      ∃ k, k < pad ∧ e + k < s₂.buf.inUseSize ∧ j = e + k := by
    intro j
    rw [huse]
    simp only [List.mem_append, List.mem_map, List.mem_range, lt_min_iff]
    constructor
    · rintro (hj | ⟨k, ⟨hk, hk'⟩, rfl⟩)
      · exact .inl hj
      · exact .inr ⟨k, hk, by omega, rfl⟩
    · rintro (hj | ⟨k, hk, hk', rfl⟩)
      · exact .inl hj
      · exact .inr ⟨k, ⟨hk, by omega⟩, rfl⟩
  have hbelow : ∀ j ∈ (s₂.use header).strays, j < e := by
    intro j hj
    obtain ⟨i, hi⟩ := h.strays j hj
    exact hlimit ▸ h.below hi
  obtain ⟨hold, hpad, hdata⟩ :=
    @write_pad_data s₂.buf.tmpBuffer s₂.buf.inUseSize pad (mem.read addr block.length)
  constructor
  case setup₁ => exact happended.setup
  case setup₂ => rw [hstate]; exact ⟨rfl, rfl, rfl, rfl⟩
  case blocks => rw [hstate, hblocks, ← h.blocks]
  case outputLen => rw [hstate, happended.outputLen, hlength, houtput]
  case grows => rw [hstate]; simp only; omega
  case inUse₁ => rw [happended.inUse, happended.outputLen, hinUse]
  case tmp₁ => exact happended.tmp
  case total =>
    obtain ⟨offset, len, hlast, -⟩ := getLast?_of_tmpEnd he
    rw [hstate, Segment.total_append, Segment.total_piece, Segment.total_extendLast _ hlast,
      h.total]
  case useLen => rw [huse, hstate, houtput]
  case useSize => rw [huse, hstate]
  case useEnd =>
    rw [huse, hstate]
    by_cases hzero : block.length = 0
    · have hcontiguous := hlen.resolve_left (not_not.mpr hzero)
      rw [hzero, append_piece_zero, tmpEnd_extendLast _ he, hcontiguous]
      rfl
    · rw [tmpEnd_append_tmp _ hzero]
  case limit =>
    have hsize : s₂'.buf.inUseSize = s₂.buf.inUseSize + pad + block.length := by rw [hstate]
    rw [hlimit', hsize]
  case limit_le => rw [hlimit, hlimit']; omega
  case place =>
    intro i base
    obtain ⟨offset, len, hlast, -⟩ := getLast?_of_tmpEnd he
    rw [hstate]
    show placeIn _ i = some base ↔ placeIn _ i = some base ∨ _
    rw [placeIn_append_piece, placeIn_extendLast he, Segment.total_extendLast _ hlast, h.total,
      or_assoc]
    rfl
  case old₁ =>
    intro i hi
    exact happended.old (hinUse ▸ hi)
  case old₂ =>
    intro j hj
    rw [hlimit] at hj
    rw [hstate]
    exact hold (by omega)
  case new_le =>
    rintro i base (⟨k, hk, rfl, rfl⟩ | ⟨k, hk, rfl, rfl⟩) <;> omega
  case new =>
    rintro i base (⟨k, hk, rfl, rfl⟩ | ⟨k, hk, rfl, rfl⟩)
    · have hzero := happended.zeroes hk
      rw [hinUse, ← houtput] at hzero
      by_cases hstray : e + k < s₂.buf.inUseSize
      · rw [AgreesAt, if_pos ((hstrays _).mpr (.inr ⟨k, hk, hstray, rfl⟩))]
        refine ⟨hzero, ?_⟩
        rw [hstate]
        exact (hold hstray).trans (h.untouched _ (by omega))
      · have hnot : e + k ∉ (s₂'.use header).strays := by
          intro hj
          rcases (hstrays _).mp hj with hj | ⟨k', _, hk', heq⟩
          · have := hbelow _ hj
            omega
          · omega
        rw [AgreesAt, if_neg hnot, hzero, hstate]
        have hcleared := @hpad (e + k - s₂.buf.inUseSize) (by omega)
        rwa [Nat.add_sub_cancel' (by omega)] at hcleared
    · have hnot : s₂.buf.inUseSize + pad + k ∉ (s₂'.use header).strays := by
        intro hj
        rcases (hstrays _).mp hj with hj | ⟨k', _, hk', heq⟩
        · have := hbelow _ hj
          omega
        · omega
      have hbyte := happended.bytes (by rw [hlength]; exact hk)
      rw [hinUse, ← houtput] at hbyte
      rw [AgreesAt, if_neg hnot, hbyte, hstate]
      exact hdata (by rw [hlength]; exact hk)
  case inj =>
    rintro i i' j (⟨k, hk, rfl, hbase⟩ | ⟨k, hk, rfl, hbase⟩)
      (⟨k', hk', rfl, hbase'⟩ | ⟨k', hk', rfl, hbase'⟩) <;>
      cases hbase <;> simp only [IOBase.tmp.injEq] at hbase' <;> omega
  case above =>
    rintro i j (⟨k, hk, rfl, hbase⟩ | ⟨k, hk, rfl, hbase⟩) <;> cases hbase <;> omega
  case strays => exact fun j hj => (hstrays j).mpr (.inl hj)
  case newStrays =>
    intro j hj
    rcases (hstrays j).mp hj with hj | ⟨k, hk, -, rfl⟩
    · exact .inl hj
    · exact .inr ⟨_, .inl ⟨k, hk, rfl, rfl⟩⟩
  case untouched =>
    intro j hj
    rw [hlimit'] at hj
    have hnone : s₂'.buf.tmpBuffer j = s₂.buf.tmpBuffer j := by
      rw [hstate]
      show Mem.write _ _ _ _ = _
      rw [Mem.write_outside (by rw [hlength]; omega),
        Mem.write_outside (by rw [List.length_replicate]; omega)]
    rw [hnone]
    exact h.untouched j (by omega)

/-- A copied block behind one that was left. -/
theorem extension_user {s₁' s₂' : EncodeState} {block : Block} {addr : Nat}
    (h : Sim mem before header s₁ s₂) (hleaf : block.leaf = false)
    (he : tmpEnd s₂.iovec = none) (hlen : block.length ≠ 0)
    (happended : Appended s₁ s₁' (alignPad block.alignment s₁.outputLen)
      (mem.read addr block.length))
    (hblocks : s₁'.blocks = s₁.blocks ++ [block])
    (hstate : s₂' = { s₂ with
      blocks := s₂.blocks ++ [block],
      outputLen := s₂.outputLen + alignPad block.alignment s₁.outputLen + block.length,
      iovec := s₂.iovec ++ Segment.piece (alignPad block.alignment s₁.outputLen) .zeroes ++
        Segment.piece block.length (.tmp s₂.buf.inUseSize),
      buf :=
        { tmpBuffer := s₂.buf.tmpBuffer.write s₂.buf.inUseSize (mem.read addr block.length),
          inUseSize := s₂.buf.inUseSize + alignPad block.alignment s₁.outputLen +
            block.length } }) :
    Extension mem before header s₁ s₂ s₁' s₂'
      (CopiedAt s₂.outputLen (alignPad block.alignment s₁.outputLen) block.length
        (fun _ => .zeroes) s₂.buf.inUseSize) := by
  have hend : (s₂.use header).tmpEnd = none := h.useEnd.trans he
  have huse := @use_of_blocks header s₂ s₂' block (by rw [hstate])
  rw [place_user hleaf hend, h.useLen, h.useSize, h.outputLen] at huse
  generalize alignPad block.alignment s₁.outputLen = pad at *
  have hlength : (mem.read addr block.length).length = block.length := Mem.length_read _ _ _
  have hinUse := h.inUse₁
  have houtput := h.outputLen
  have hlimit : (s₂.use header).limit = s₂.buf.inUseSize := by
    rw [TmpUse.limit, hend, Option.getD_none, h.useSize]
  have hlimit' : (s₂'.use header).limit = s₂.buf.inUseSize + block.length := by
    rw [huse]; rfl
  have hstrays : (s₂'.use header).strays = (s₂.use header).strays := by rw [huse]
  have hbelow : ∀ j ∈ (s₂.use header).strays, j < s₂.buf.inUseSize := by
    intro j hj
    obtain ⟨i, hi⟩ := h.strays j hj
    exact hlimit ▸ h.below hi
  constructor
  case setup₁ => exact happended.setup
  case setup₂ => rw [hstate]; exact ⟨rfl, rfl, rfl, rfl⟩
  case blocks => rw [hstate, hblocks, ← h.blocks]
  case outputLen => rw [hstate, happended.outputLen, hlength, houtput]
  case grows => rw [hstate]; simp only; omega
  case inUse₁ => rw [happended.inUse, happended.outputLen, hinUse]
  case tmp₁ => exact happended.tmp
  case total =>
    rw [hstate, Segment.total_append, Segment.total_append, Segment.total_piece,
      Segment.total_piece, h.total]
  case useLen => rw [huse, hstate, houtput]
  case useSize => rw [huse, hstate]
  case useEnd => rw [huse, hstate, tmpEnd_append_tmp _ hlen]
  case limit =>
    have hsize : s₂'.buf.inUseSize = s₂.buf.inUseSize + pad + block.length := by rw [hstate]
    rw [hlimit', hsize]
    omega
  case limit_le => rw [hlimit, hlimit']; omega
  case place =>
    intro i base
    rw [hstate]
    show placeIn _ i = some base ↔ placeIn _ i = some base ∨ _
    rw [placeIn_append_piece, placeIn_append_piece, Segment.total_append, Segment.total_piece,
      h.total, or_assoc]
    rfl
  case old₁ =>
    intro i hi
    exact happended.old (hinUse ▸ hi)
  case old₂ =>
    intro j hj
    rw [hlimit] at hj
    rw [hstate]
    exact Mem.write_outside (by omega)
  case new_le =>
    rintro i base (⟨k, hk, rfl, rfl⟩ | ⟨k, hk, rfl, rfl⟩) <;> omega
  case new =>
    rintro i base (⟨k, hk, rfl, rfl⟩ | ⟨k, hk, rfl, rfl⟩)
    · have hzero := happended.zeroes hk
      rwa [hinUse, ← houtput] at hzero
    · have hnot : s₂.buf.inUseSize + k ∉ (s₂'.use header).strays := by
        rw [hstrays]
        intro hj
        have := hbelow _ hj
        omega
      have hbyte := happended.bytes (by rw [hlength]; exact hk)
      rw [hinUse, ← houtput] at hbyte
      rw [AgreesAt, if_neg hnot, hbyte, hstate]
      show Mem.write _ _ _ _ = _
      rw [Mem.write_inside (by omega) (by rw [hlength]; omega), Nat.add_sub_cancel_left]
  case inj =>
    rintro i i' j (⟨k, hk, rfl, hbase⟩ | ⟨k, hk, rfl, hbase⟩)
      (⟨k', hk', rfl, hbase'⟩ | ⟨k', hk', rfl, hbase'⟩)
    · cases hbase
    · cases hbase
    · cases hbase'
    · simp only [IOBase.tmp.injEq] at hbase hbase'
      omega
  case above =>
    rintro i j (⟨k, hk, rfl, hbase⟩ | ⟨k, hk, rfl, hbase⟩)
    · cases hbase
    · cases hbase
      omega
  case strays => rw [hstrays]; exact List.Subset.refl _
  case newStrays =>
    intro j hj
    rw [hstrays] at hj
    exact .inl hj
  case untouched =>
    intro j hj
    rw [hlimit'] at hj
    have hsame : s₂'.buf.tmpBuffer j = s₂.buf.tmpBuffer j := by
      rw [hstate]
      exact Mem.write_outside (by rw [hlength]; omega)
    rw [hsame]
    exact h.untouched j (by omega)

/-- Strays lie below what is reserved. -/
theorem lt_of_mem_strays (h : Sim mem before header s₁ s₂) {block : Block}
    (hleaf : block.leaf = false) {s₂' : EncodeState}
    (hblocks : s₂'.blocks = s₂.blocks ++ [block]) {j : Nat}
    (hj : j ∈ (s₂'.use header).strays) : j < s₂.buf.inUseSize := by
  have hold : j ∈ (s₂.use header).strays → j < s₂.buf.inUseSize := by
    intro hj
    obtain ⟨i, hi⟩ := h.strays j hj
    exact Nat.lt_of_lt_of_le (h.below hi) h.limit
  rw [use_of_blocks hblocks] at hj
  cases hend : (s₂.use header).tmpEnd with
  | none =>
    rw [place_user hleaf hend] at hj
    exact hold hj
  | some e =>
    rw [place_tmp hleaf hend] at hj
    rcases List.mem_append.mp hj with hj | hj
    · exact hold hj
    · obtain ⟨k, hk, rfl⟩ := List.mem_map.mp hj
      have hk := List.mem_range.mp hk
      have hsize := h.useSize
      omega

/-- A block that is copied by both is at the same place of the message and in a frame. -/
theorem placeBlock_copied (h : Sim mem before header s₁ s₂) {block : Block}
    (hleaf : block.leaf = false)
    (hlen : block.length ≠ 0 ∨ tmpEnd s₂.iovec = some s₂.buf.inUseSize) (addr : Nat) :
    (s₂.placeBlock mem block addr).2.1 = (s₁.placeBlock mem block addr).2.1 ∧
      (s₁.placeBlock mem block addr).2.2 = (s₁.placeBlock mem block addr).2.1 ∧
      s₂.outputLen ≤ (s₁.placeBlock mem block addr).2.1 ∧
      Sim mem before header (s₁.placeBlock mem block addr).1 (s₂.placeBlock mem block addr).1 ∧
      Grows header s₂ (s₂.placeBlock mem block addr).1 ∧
      Frame header (s₂.placeBlock mem block addr).1 (s₁.placeBlock mem block addr).2.1
        (s₂.placeBlock mem block addr).2.2 block.length := by
  obtain ⟨e₁, he₁⟩ := Option.isSome_iff_exists.mp h.tmp₁
  obtain ⟨happended, hblocks, hresult⟩ := @placeBlock_appended mem s₁ e₁ h.copyAll₁ he₁ block addr
  have hplace : s₂.placeBlock mem block addr =
      { s₂ with blocks := s₂.blocks ++ [block] }.copyDataToTmp (mem.read addr block.length)
        block.alignment := by
    rw [EncodeState.placeBlock, hleaf, Bool.and_false]
    rfl
  have hoffset : (s₁.placeBlock mem block addr).2.1 =
      s₂.outputLen + alignPad block.alignment s₁.outputLen := by rw [hresult, h.outputLen]
  have hsame : (s₁.placeBlock mem block addr).2.2 = (s₁.placeBlock mem block addr).2.1 := by
    rw [hresult, h.inUse₁]
  have hlength : (mem.read addr block.length).length = block.length := Mem.length_read _ _ _
  have hframe : ∀ {s₂' : EncodeState} {padAt : Nat → IOBase} {loc : Nat},
      s₂'.blocks = s₂.blocks ++ [block] → s₂.buf.inUseSize ≤ loc →
      Extension mem before header s₁ s₂ (s₁.placeBlock mem block addr).1 s₂'
        (CopiedAt s₂.outputLen (alignPad block.alignment s₁.outputLen) block.length padAt loc) →
      Frame header s₂' (s₁.placeBlock mem block addr).2.1 loc block.length := by
    intro s₂' padAt loc hblocks₂ hloc hext
    refine ⟨?_, fun {k} hk => hext.place.mpr (.inr (.inr ⟨k, hk, ?_, rfl⟩)),
      fun {k} _ hj => ?_⟩
    · have hout := happended.outputLen
      rw [hext.outputLen, hout, hoffset, hlength, h.outputLen]
    · rw [hoffset]
    · have := lt_of_mem_strays h hleaf hblocks₂ hj
      omega
  cases hend : tmpEnd s₂.iovec with
  | some e =>
    have hcopy := @EncodeState.copyDataToTmp_of_tmp { s₂ with blocks := s₂.blocks ++ [block] } e
      hend (mem.read addr block.length) block.alignment
    rw [hlength] at hcopy
    rw [← hplace] at hcopy
    have hext := extension_tmp h hleaf hend
      (hlen.imp_right fun heq => Option.some.inj (hend.symm.trans heq)) happended hblocks
      (show (s₂.placeBlock mem block addr).1 = _ by rw [hcopy, ← h.outputLen])
    obtain ⟨hsim, hgrows⟩ := Extension.sim h hext
    refine ⟨?_, hsame, by omega, hsim, hgrows, ?_⟩
    · rw [hcopy, hoffset, ← h.outputLen]
    · have hloc : (s₂.placeBlock mem block addr).2.2 =
          s₂.buf.inUseSize + alignPad block.alignment s₁.outputLen := by rw [hcopy, ← h.outputLen]
      rw [hloc]
      exact hframe (by rw [hcopy]) (by omega) hext
  | none =>
    have hcopy := @EncodeState.copyDataToTmp_of_user { s₂ with blocks := s₂.blocks ++ [block] }
      hend (mem.read addr block.length) block.alignment
    rw [hlength] at hcopy
    rw [← hplace] at hcopy
    have hnonempty : block.length ≠ 0 := by
      refine hlen.resolve_right fun heq => ?_
      rw [hend] at heq
      cases heq
    have hext := extension_user h hleaf hend hnonempty happended hblocks
      (show (s₂.placeBlock mem block addr).1 = _ by rw [hcopy, ← h.outputLen])
    obtain ⟨hsim, hgrows⟩ := Extension.sim h hext
    refine ⟨?_, hsame, by omega, hsim, hgrows, ?_⟩
    · rw [hcopy, hoffset, ← h.outputLen]
    · have hloc : (s₂.placeBlock mem block addr).2.2 = s₂.buf.inUseSize := by rw [hcopy]
      rw [hloc]
      exact hframe (by rw [hcopy]) (Nat.le_refl _) hext

end FFS
