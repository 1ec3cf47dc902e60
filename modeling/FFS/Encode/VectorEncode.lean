import FFS.FM.Hash
import FFS.Encode.Visit

/-!
# The message in one place and in several

`FFSencode` and `FFSencode_vector` begin with the same header and place the same blocks, so
that the segments of the vector hold the message.  They do not where padding takes in bytes of
the temporary buffer that an earlier use has left there.
-/

namespace FFS

open Machine

variable {mem : Mem}

/-! ## From the header on -/

theorem place_setupHeader (copyAll : Bool) (b : FFSBuffer) (format : StoredFormat) {i : Nat}
    {base : IOBase} :
    ((initEncodeState copyAll false b).setupHeader format).place i = some base ↔
      i < (headerBytes format).length ∧ base = .tmp i := by
  show placeIn [⟨(headerBytes format).length, .tmp 0⟩] i = some base ↔ _
  by_cases hi : i < (headerBytes format).length
  · rw [placeIn, Segment.locate_singleton (show _ < Segment.len _ from hi)]
    simp only [Option.map_some, IOBase.shift, Nat.zero_add, Option.some.injEq, hi, true_and]
    exact eq_comm
  · have hnone := Segment.locate_eq_none_iff.mpr
      (show Segment.total [⟨(headerBytes format).length, IOBase.tmp 0⟩] ≤ i by
        rw [Segment.total_singleton]; exact Nat.le_of_not_lt hi)
    rw [placeIn, hnone]
    simp [hi]

/-- Both modes store the header at the beginning of the buffer. -/
theorem sim_setupHeader (b₁ b₂ : FFSBuffer) (format : StoredFormat) :
    Sim mem b₂.tmpBuffer (headerBytes format).length
      ((initEncodeState true false b₁).setupHeader format)
      ((initEncodeState false false b₂).setupHeader format) := by
  constructor
  case copyAll₁ => rfl
  case copyAll₂ => rfl
  case noLeafCopy₁ => rfl
  case noLeafCopy₂ => rfl
  case outputLen => rfl
  case addrList => rfl
  case saved => rfl
  case blocks => rfl
  case inUse₁ => exact Nat.zero_add _
  case tmp₁ => rfl
  case total => exact Segment.total_singleton _
  case useLen => rfl
  case useSize => exact (Nat.zero_add _).symm
  case useEnd => exact congrArg some (Nat.zero_add _).symm
  case limit => exact Nat.le_of_eq (Nat.zero_add _).symm
  case agree =>
    intro i base hplace
    obtain ⟨hi, rfl⟩ := (place_setupHeader false b₂ format).mp hplace
    show Mem.write _ 0 _ i = Mem.write _ 0 _ i
    rw [Mem.write_inside (Nat.zero_le i) (by omega), Mem.write_inside (Nat.zero_le i) (by omega)]
  case inj =>
    intro i i' j hplace hplace'
    obtain ⟨-, hbase⟩ := (place_setupHeader false b₂ format).mp hplace
    obtain ⟨-, hbase'⟩ := (place_setupHeader false b₂ format).mp hplace'
    simp only [IOBase.tmp.injEq] at hbase hbase'
    omega
  case below =>
    intro i j hplace
    obtain ⟨hi, hbase⟩ := (place_setupHeader false b₂ format).mp hplace
    cases hbase
    exact hi
  case strays =>
    intro j hj
    cases hj
  case untouched =>
    intro j hj
    have hj : (headerBytes format).length ≤ j := hj
    exact Mem.write_outside (.inr (show 0 + _ ≤ j by omega))

theorem frame_setupHeader (b : FFSBuffer) (format : StoredFormat) :
    Frame (headerBytes format).length ((initEncodeState false false b).setupHeader format) 0 0
      (headerBytes format).length := by
  refine ⟨Nat.le_of_eq (Nat.zero_add _), fun {k} hk => ?_, fun _ hj => nomatch hj⟩
  exact (place_setupHeader false b format).mpr ⟨by omega, rfl⟩

theorem length_headerBytes_of_variant {format : StoredFormat}
    (h : format.format.top.variant = true) :
    format.serverID.length + 8 ≤ (headerBytes format).length := by
  unfold headerBytes
  rw [h]
  simp only [if_true, List.length_append, List.length_replicate]
  omega

/-- A copied block ends what is reserved of the buffer, and directly behind the header lies as
far in the buffer as in the message. -/
theorem placeBlock_behind {before : Mem} {header e : Nat} {s₁ s₂ : EncodeState}
    (h : Sim mem before header s₁ s₂) (he : tmpEnd s₂.iovec = some e) {block : Block}
    (hleaf : block.leaf = false) (addr : Nat) :
    let r := s₂.placeBlock mem block addr
    ((r.1.use header).tmpEnd = some (r.1.use header).inUseSize) ∧
      (s₂.buf.inUseSize = s₂.outputLen → r.2.2 = r.2.1) := by
  intro r
  have hplace : r = { s₂ with blocks := s₂.blocks ++ [block] }.copyDataToTmp
      (mem.read addr block.length) block.alignment := by
    show s₂.placeBlock mem block addr = _
    rw [EncodeState.placeBlock, hleaf, Bool.and_false]
    rfl
  rw [@EncodeState.copyDataToTmp_of_tmp { s₂ with blocks := s₂.blocks ++ [block] } e he] at hplace
  constructor
  · have hblocks : r.1.blocks = s₂.blocks ++ [block] := by rw [hplace]
    rw [use_of_blocks hblocks, place_tmp hleaf (h.useEnd.trans he)]
  · intro hsize
    rw [hplace]
    simp only [hsize]

/-- The root of a recursive format, and the padding behind the record. -/
theorem align_follow {before : Mem} {header : Nat} {s₁ s₂ : EncodeState} (recursive : Bool)
    (h : Sim mem before header s₁ s₂) (hend : tmpEnd s₂.iovec = some s₂.buf.inUseSize)
    (data offset : Nat) :
    let align : Block := { leaf := false, alignment := 8, length := 0 }
    let t₁ := (if recursive = true then s₁.addToAddrList data offset else s₁).placeBlock mem align 0
    let t₂ := (if recursive = true then s₂.addToAddrList data offset else s₂).placeBlock mem align 0
    Sim mem before header t₁.1 t₂.1 ∧ Grows header s₂ t₂.1 := by
  intro align t₁ t₂
  obtain ⟨hsim, hgrows⟩ : Sim mem before header
        (if recursive = true then s₁.addToAddrList data offset else s₁)
        (if recursive = true then s₂.addToAddrList data offset else s₂) ∧
      Grows header s₂ (if recursive = true then s₂.addToAddrList data offset else s₂) := by
    cases recursive with
    | true => exact h.addToAddrList data offset
    | false => exact ⟨h, Grows.refl header s₂⟩
  have hend' : tmpEnd (if recursive = true then s₂.addToAddrList data offset else s₂).iovec =
      some (if recursive = true then s₂.addToAddrList data offset else s₂).buf.inUseSize := by
    cases recursive <;> exact hend
  obtain ⟨-, -, -, hsim', hgrows', -⟩ :=
    placeBlock_copied hsim (show align.leaf = false from rfl) (.inr hend') 0
  exact ⟨hsim', hgrows.trans h hgrows'⟩

/-- Both modes place the blocks of the record, or both find no end. -/
theorem encodeRecord_follow {format : StoredFormat}
    (hlaid : ∀ f ∈ format.format.bodies, LaidOut format.format.bodies f) (fuel : Nat)
    (b₁ b₂ : FFSBuffer) (data : Nat) :
    Option.Rel (Sim mem b₂.tmpBuffer (headerBytes format).length)
      (encodeRecord mem fuel format data (initEncodeState true false b₁))
      (encodeRecord mem fuel format data (initEncodeState false false b₂)) := by
  have hstart := @sim_setupHeader mem b₁ b₂ format
  have hheader := frame_setupHeader b₂ format
  have hend : tmpEnd ((initEncodeState false false b₂).setupHeader format).iovec =
      some ((initEncodeState false false b₂).setupHeader format).buf.inUseSize := rfl
  have hsize : ((initEncodeState false false b₂).setupHeader format).buf.inUseSize =
      ((initEncodeState false false b₂).setupHeader format).outputLen := Nat.zero_add _
  unfold encodeRecord
  dsimp only
  rw [← hstart.outputLen]
  generalize (initEncodeState true false b₁).setupHeader format = s₁ at *
  generalize (initEncodeState false false b₂).setupHeader format = s₂ at *
  cases hvariant : format.format.top.variant with
  | false =>
    let base : Block :=
      { leaf := true, alignment := 1, length := sizeOfInt format.format.top.recordLength }
    obtain ⟨-, hsim, -⟩ := placeBlock_leaf hstart (show base.leaf = true from rfl) data
    exact .some hsim
  | true =>
    let base : Block :=
      { leaf := false, alignment := 1, length := sizeOfInt format.format.top.recordLength }
    have hleaf : base.leaf = false := rfl
    obtain ⟨hoffset, hloc, -, hsim, hgrows, hframe⟩ :=
      placeBlock_copied hstart hleaf (.inr hend) data
    obtain ⟨hbehind, hplace⟩ := placeBlock_behind hstart hend hleaf data
    rw [hplace hsize, hoffset] at hframe
    simp only [Bool.not_true, Bool.false_eq_true, if_false]
    rw [hoffset]
    generalize s₁.placeBlock mem base data = r₁ at *
    generalize s₂.placeBlock mem base data = r₂ at *
    have hend' : tmpEnd r₂.1.iovec = some r₂.1.buf.inUseSize := by
      rw [← hsim.useEnd, hbehind, hsim.useSize]
    obtain ⟨halign, hgrows'⟩ :=
      align_follow format.format.top.recursive hsim hend' data r₁.2.1
    have hwalk := handleSubfields_follow (handleSubfield_follows hlaid fuel)
      (hlaid _ List.mem_cons_self) halign (hframe.grows hsim hgrows')
    have hheader' := (hheader.grows hstart hgrows).grows hsim hgrows'
    generalize EncodeState.placeBlock mem _ _ 0 = t₁ at *
    generalize EncodeState.placeBlock mem _ _ 0 = t₂ at *
    generalize handleSubfields _ _ _ t₁.1 _ = walked₁ at hwalk ⊢
    generalize handleSubfields _ _ _ t₂.1 _ = walked₂ at hwalk ⊢
    cases hwalk with
    | none => exact .none
    | some hresult =>
      obtain ⟨hfinal, hgrows''⟩ := hresult
      have hlength := (hheader'.grows halign hgrows'').sub (length_headerBytes_of_variant hvariant)
      rw [Nat.zero_add] at hlength
      refine .some ?_
      rw [hfinal.outputLen]
      exact (hfinal.store hlength (Nat.le_of_eq (length_leBytes 8 _))).1

/-! ## The segments -/

theorem getElem?_vectorBytes (mem : Mem) (b : FFSBuffer) (segments : List InternalIovec)
    (i : Nat) :
    (vectorBytes mem b segments)[i]? =
      (placeIn segments i).map (IOBase.byte mem b.tmpBuffer) := by
  rw [vectorBytes, Segment.getElem?_gather, placeIn, Option.map_map]
  rfl

theorem getElem?_read (m : Mem) (n i : Nat) :
    (m.read 0 n)[i]? = if i < n then some (m i) else none := by
  rw [Mem.read, List.getElem?_map]
  split
  · next hi => rw [List.getElem?_range hi, Option.map_some, Nat.zero_add]
  · next hi => rw [List.getElem?_eq_none (by rw [List.length_range]; omega), Option.map_none]

/-- The segments hold the message if there is nothing but zeroes where padding went astray. -/
theorem vectorBytes_eq_iff {before : Mem} {header : Nat} {s₁ s₂ : EncodeState}
    (h : Sim mem before header s₁ s₂) :
    vectorBytes mem s₂.buf s₂.iovec = s₁.buf.tmpBuffer.read 0 s₁.outputLen ↔
      ∀ j ∈ (s₂.use header).strays, before j = 0 := by
  constructor
  · intro heq j hj
    obtain ⟨i, hplace⟩ := h.strays j hj
    have hagree := h.agree hplace
    rw [AgreesAt, if_pos hj] at hagree
    have hi := h.lt_of_place hplace
    rw [h.outputLen] at hi
    have hbyte := congrArg (fun bytes : List UInt8 => bytes[i]?) heq
    simp only [getElem?_vectorBytes, getElem?_read, if_pos hi] at hbyte
    rw [show placeIn s₂.iovec i = some (.tmp j) from hplace] at hbyte
    have hbyte : s₂.buf.tmpBuffer j = s₁.buf.tmpBuffer i := Option.some.inj hbyte
    rw [← hagree.2, hbyte, hagree.1]
  · intro hzero
    refine List.ext_getElem? fun i => ?_
    rw [getElem?_vectorBytes, getElem?_read]
    by_cases hi : i < s₁.outputLen
    · rw [if_pos hi]
      obtain ⟨base, hplace⟩ := h.exists_place (h.outputLen ▸ hi)
      have hagree := h.agree hplace
      rw [show placeIn s₂.iovec i = some base from hplace]
      refine congrArg some ?_
      cases base with
      | user addr => exact hagree
      | zeroes => exact hagree.symm
      | tmp j =>
        show s₂.buf.tmpBuffer j = s₁.buf.tmpBuffer i
        by_cases hj : j ∈ (s₂.use header).strays
        · rw [AgreesAt, if_pos hj] at hagree
          rw [hagree.2, hagree.1, hzero j hj]
        · rw [AgreesAt, if_neg hj] at hagree
          exact hagree
    · rw [if_neg hi]
      have hnone : placeIn s₂.iovec i = none := by
        rw [placeIn, Segment.locate_eq_none_iff.mpr (by rw [h.total, h.outputLen]; omega)]
        rfl
      rw [hnone]
      rfl

/-- Where padding takes in bytes that it does not clear, when these blocks follow a header. -/
def strays (header : Nat) (blocks : List Block) : List Nat :=
  (blocks.foldl TmpUse.place (.start header)).strays

/-- A value whose pointers come to an end is encoded in both modes. -/
theorem encodeRecord_both {format : StoredFormat} {fuel data : Nat} {blocks : List Block}
    (hlaid : ∀ f ∈ format.format.bodies, LaidOut format.format.bodies f)
    (hvisit : visitRecord mem fuel format data = some blocks) (b₁ b₂ : FFSBuffer) :
    ∃ s₁ s₂, encodeRecord mem fuel format data (initEncodeState true false b₁) = some s₁ ∧
      encodeRecord mem fuel format data (initEncodeState false false b₂) = some s₂ ∧
      Sim mem b₂.tmpBuffer (headerBytes format).length s₁ s₂ ∧ s₂.blocks = blocks := by
  have hblocks := @encodeRecord_visits mem format hlaid fuel b₁ data
  have hfollow := @encodeRecord_follow mem format hlaid fuel b₁ b₂ data
  rw [hvisit] at hblocks
  generalize encodeRecord mem fuel format data (initEncodeState true false b₁) = r₁ at *
  generalize encodeRecord mem fuel format data (initEncodeState false false b₂) = r₂ at *
  cases hblocks with
  | some heq =>
    cases hfollow with
    | some hsim => exact ⟨_, _, rfl, rfl, hsim, hsim.blocks.trans heq⟩

/-- The vector is the message if and only if the buffer was clear where padding went astray. -/
theorem encodeVector_eq_encode_iff {format : StoredFormat} {fuel data : Nat} {blocks : List Block}
    (hlaid : ∀ f ∈ format.format.bodies, LaidOut format.format.bodies f)
    (hvisit : visitRecord mem fuel format data = some blocks) (b₁ b₂ : FFSBuffer) :
    ∃ b₁' message b₂' segments,
      encode mem fuel b₁ format data = some (b₁', message) ∧
      encodeVector mem fuel b₂ format data = some (b₂', segments) ∧
      (vectorBytes mem b₂' segments = message ↔
        ∀ j ∈ strays (headerBytes format).length blocks, b₂.tmpBuffer j = 0) := by
  obtain ⟨s₁, s₂, h₁, h₂, hsim, hblocks⟩ := encodeRecord_both hlaid hvisit b₁ b₂
  have hiff := vectorBytes_eq_iff hsim
  rw [EncodeState.use, hblocks] at hiff
  exact ⟨_, _, _, _, bind_eq_of_eq_some h₁ rfl, bind_eq_of_eq_some h₂ rfl, hiff⟩

/-! ## Records that are not packed -/

theorem dvd_add_alignPad (length : Nat) : 8 ∣ length + alignPad 8 length := by
  unfold alignPad
  omega

/-! ## Packed records -/

/-- A string and two pointers to records of 12 bytes, which a compiler packs when told to. -/
def packedList : List FMStructDesc :=
  [{ formatName := cstr ['t', 'o', 'p'] (.refl false),
     fieldList := [
       { fieldName := cstr ['s'] (.refl false),
         fieldType := cstr ['s', 't', 'r', 'i', 'n', 'g'] (.refl false),
         fieldSize := 8, fieldOffset := 0 },
       { fieldName := cstr ['p'] (.refl false), fieldType := cstr ['*', 'a'] (.refl false),
         fieldSize := 12, fieldOffset := 8 },
       { fieldName := cstr ['q'] (.refl false), fieldType := cstr ['*', 'a'] (.refl false),
         fieldSize := 12, fieldOffset := 16 }],
     structSize := 24, optInfo := [] },
   { formatName := cstr ['a'] (.refl false),
     fieldList := [
       { fieldName := cstr ['t'] (.refl false),
         fieldType := cstr ['s', 't', 'r', 'i', 'n', 'g'] (.refl false),
         fieldSize := 8, fieldOffset := 0 },
       { fieldName := cstr ['n'] (.refl false),
         fieldType := cstr ['i', 'n', 't', 'e', 'g', 'e', 'r'] (.refl false),
         fieldSize := 4, fieldOffset := 8 }],
     structSize := 12, optInfo := [] }]

def packedFormat : Option StoredFormat :=
  (registerDataFormat hashlittle2 false { formatList := [], nativeColumnMajorArrays := false }
    packedList).map Prod.snd

/-- The record at 100, the string `x` at 200 and both pointers to the record at 300. -/
def packedMem : Mem :=
  ((Mem.write (fun _ => 0) 100 (leBytes 8 200 ++ leBytes 8 300 ++ leBytes 8 300)).write 200
    [120, 0]).write 308 (leBytes 4 7)

/-- A buffer with the bytes of earlier uses. -/
def usedBuffer : FFSBuffer := { tmpBuffer := fun _ => 255, inUseSize := 0 }

def packedDiffers (format : StoredFormat) : Bool :=
  (encode packedMem 4 usedBuffer format 100).any fun r₁ =>
    (encodeVector packedMem 4 usedBuffer format 100).any fun r₂ =>
      vectorBytes packedMem r₂.1 r₂.2 != r₁.2

/-- The blocks of the packed record. -/
def packedBlocks : List Block :=
  [⟨false, 1, 24⟩, ⟨false, 8, 0⟩, ⟨true, 1, 2⟩, ⟨false, 8, 12⟩, ⟨false, 8, 12⟩]

theorem packedFormat_visit : packedFormat.any (fun format =>
    decide (∀ f ∈ format.format.bodies, LaidOut format.format.bodies f) &&
      visitRecord packedMem 4 format 100 == some packedBlocks) = true := by
  decide +kernel

theorem encodeVector_eq_encode_iff_packed : ∃ format, packedFormat = some format ∧
    ∃ b₁' message b₂' segments,
      encode packedMem 4 usedBuffer format 100 = some (b₁', message) ∧
      encodeVector packedMem 4 usedBuffer format 100 = some (b₂', segments) ∧
      (vectorBytes packedMem b₂' segments = message ↔
        ∀ j ∈ strays (headerBytes format).length packedBlocks, usedBuffer.tmpBuffer j = 0) := by
  obtain ⟨format, hformat, hfacts⟩ := (Option.any_eq_true _ _).mp packedFormat_visit
  obtain ⟨hlaid, hvisit⟩ := Bool.and_eq_true_iff.mp hfacts
  exact ⟨format, hformat, encodeVector_eq_encode_iff (of_decide_eq_true hlaid) (eq_of_beq hvisit)
    usedBuffer usedBuffer⟩

theorem packedFormat_differs : packedFormat.any packedDiffers = true := by
  decide +kernel

/-- The four bytes of padding behind the first record are those of the used buffer. -/
theorem encodeVector_ne_encode : ∃ format b₁ message b₂ segments,
    packedFormat = some format ∧
      encode packedMem 4 usedBuffer format 100 = some (b₁, message) ∧
      encodeVector packedMem 4 usedBuffer format 100 = some (b₂, segments) ∧
      vectorBytes packedMem b₂ segments ≠ message := by
  obtain ⟨format, hformat, hdiffers⟩ := (Option.any_eq_true _ _).mp packedFormat_differs
  obtain ⟨⟨b₁, message⟩, hencode, hdiffers⟩ := (Option.any_eq_true _ _).mp hdiffers
  obtain ⟨⟨b₂, segments⟩, hvector, hdiffers⟩ := (Option.any_eq_true _ _).mp hdiffers
  exact ⟨format, b₁, message, b₂, segments, hformat, hencode, hvector, bne_iff_ne.mp hdiffers⟩

end FFS
