import FFS.Encode.ModesFollow
import FFS.Encode.NoLeafCopy
import FFS.Machine.Runs

/-!
# Buffers of fixed size

`create_fixed_FFSBuffer` makes a buffer of storage that belongs to the caller, with a negative
size.  A first message that fits is the one of `FFSencode` in a buffer that grows.  There is no
message after it: the bytes in use are not reset, and what does not fit is copied all the same.
-/

namespace FFS

open Machine

/-- An `FFSBuffer` with its `tmp_buffer_size`, which is negative for storage of the caller. -/
structure SizedBuffer where
  tmpBufferSize : Int
  buf : FFSBuffer

/-- `create_fixed_FFSBuffer`, with the bytes that the storage has. -/
def createFixedFFSBuffer (bytes : Mem) (size : Nat) : SizedBuffer :=
  { tmpBufferSize := -(size : Int), buf := { tmpBuffer := bytes, inUseSize := 0 } }

/-- `make_tmp_buffer` of size 0 -/
def SizedBuffer.makeTmpBuffer (b : SizedBuffer) : SizedBuffer :=
  if b.tmpBufferSize < 0 then b
  else
    { tmpBufferSize := if b.tmpBufferSize = 0 then 1024 else b.tmpBufferSize
      buf := { b.buf with inUseSize := 0 } }

/-- A block is copied to storage of size `n`.  Where `add_to_tmp_buffer` fails the copy goes on
to an offset that was never set, unless there is nothing to copy. -/
def placeInFixed (n : Nat) (mem : Mem) (t : Tracked) (block : Block) (addr : Nat) :
    Option (Tracked × Nat × Nat) :=
  let pad := alignPad block.alignment t.state.outputLen
  if t.state.buf.inUseSize + (block.length + pad) ≤ n then
    let (state, place) := t.state.placeBlock mem block addr
    some ({ t with state }, place)
  else if block.length = 0 then some (t, 2 ^ 64 - 1, 0)
  else none

/-- Pointers are read and replaced in the message. -/
def fixedMode (n : Nat) : Mode where
  pointer := noLeafMode.pointer
  target := placeInFixed n
  copy := placeInFixed n

/-- `FFSencode`.  There is no result when it stores outside of the caller's storage or
reallocates it, and an empty one when it returns `NULL`. -/
def encodeSized (mem : Mem) (fuel : Nat) (b : SizedBuffer) (format : StoredFormat) (data : Nat) :
    Option (SizedBuffer × Option (List UInt8)) :=
  let b := b.makeTmpBuffer
  if b.tmpBufferSize < 0 then
    let n := b.tmpBufferSize.natAbs
    let s := { initEncodeState true false b.buf with buf := b.buf }
    if n < s.buf.inUseSize + (headerBytes format).length then none
    else do
      let t ← walkRecord (fixedMode n) mem fuel format data ⟨s.setupHeader format, []⟩
      -- `roundup_tmp_buffer` calls `realloc` unless the size is a multiple of 8
      if format.format.top.variant ∧ n % 8 ≠ 0 then none
      else
        return ({ b with buf := t.state.buf },
          some (t.state.buf.tmpBuffer.read 0 t.state.outputLen))
  else do
    let (buf, message) ← encode mem fuel b.buf format data
    let grown := max b.tmpBufferSize buf.inUseSize
    let size := if format.format.top.variant then grown + (8 - grown) % 8 else grown
    return ({ tmpBufferSize := size, buf }, some message)

/-- A value to encode whose pointers come to an end, with the blocks of its message. -/
structure EncodeCall where
  mem : Mem
  fuel : Nat
  format : StoredFormat
  data : Nat
  blocks : List Block
  laidOut : ∀ f ∈ format.format.bodies, LaidOut format.format.bodies f
  visit : visitRecord mem fuel format data = some blocks

namespace EncodeCall

/-- The size of the message. -/
def size (call : EncodeCall) : Nat := endOf (headerBytes call.format).length call.blocks

/-- `FFSencode` in a buffer that grows. -/
def message (call : EncodeCall) (b : FFSBuffer) : Option (List UInt8) :=
  (encode call.mem call.fuel b call.format call.data).map Prod.snd

def run (call : EncodeCall) (b : SizedBuffer) : Option (SizedBuffer × Option (List UInt8)) :=
  encodeSized call.mem call.fuel b call.format call.data

/-- The next state of a buffer. -/
def step (b : SizedBuffer) (call : EncodeCall) : Option SizedBuffer := (call.run b).map Prod.fst

/-- A call returns the message if it has at most `n` bytes, and `NULL` otherwise.  Storage of the
caller stays the caller's, and nothing is stored behind its `n` bytes. -/
def Right (n : Nat) (b : SizedBuffer) (call : EncodeCall) : Prop :=
  ∀ grown, ∃ message, call.message grown = some message ∧
    ∃ b', call.run b = some (b', if message.length ≤ n then some message else none) ∧
      (b.tmpBufferSize < 0 → b'.tmpBufferSize = b.tmpBufferSize ∧
        ∀ i, n ≤ i → b'.buf.tmpBuffer i = b.buf.tmpBuffer i)

/-- The first use of storage that the message fits in, of a size that is not rounded up. -/
structure Meets (n : Nat) (b : SizedBuffer) (call : EncodeCall) : Prop where
  first : b.buf.inUseSize = 0
  fits : call.size ≤ n
  rounded : call.format.format.top.variant = true → 8 ∣ n

end EncodeCall

/-! ## The mode follows -/

/-- Nothing is reserved, and the length is the one of the blocks. -/
def FixedFits (header len : Nat) (blocks : List Block) (reserved : List (Nat × Block)) : Prop :=
  len = endOf header blocks ∧ reserved = []

variable {mem : Mem} {n header : Nat} {s : EncodeState} {t : Tracked} {block : Block}

theorem placeInFixed_of_fits (h : Twin (FixedFits header) s t) (addr : Nat)
    (hgood : (s.placeBlock mem block addr).1.outputLen ≤ n) :
    ∃ t', placeInFixed n mem t block addr = some (t', (s.placeBlock mem block addr).2) ∧
      Twin (FixedFits header) (s.placeBlock mem block addr).1 t' ∧ t.Grown t' ∧
      t'.Clear (s.placeBlock mem block addr).2.1 block.length := by
  obtain ⟨hs, hblocks, -⟩ := @placeBlock_lengthened s mem h.copyAll h.tmp h.inUse block addr
  obtain ⟨hlen, hreserved⟩ := h.fits
  have hlength := hs.outputLen
  have hfits : FixedFits header (s.placeBlock mem block addr).1.outputLen
      (s.placeBlock mem block addr).1.blocks t.reserved := by
    refine ⟨?_, hreserved⟩
    rw [hlength, hblocks, endOf_append, ← hlen]
  obtain ⟨hplace, htwin, hgrown, hclear⟩ := h.copied block addr hfits
  refine ⟨_, ?_, htwin, hgrown, hclear⟩
  unfold placeInFixed
  rw [h.inUse', h.outputLen, if_pos (by omega)]
  exact congrArg (fun place => some (_, place)) hplace

theorem reserved_placeInFixed {addr : Nat} {t' : Tracked} {r : Nat × Nat}
    (h : placeInFixed n mem t block addr = some (t', r)) : t.reserved ⊆ t'.reserved := by
  unfold placeInFixed at h
  dsimp only at h
  split at h
  · cases h
    exact List.Subset.refl _
  · split at h
    · cases h
      exact List.Subset.refl _
    · cases h

theorem fixedMode_keeps : (fixedMode n).Keeps mem fun t t' => t.reserved ⊆ t'.reserved where
  refl _ := List.Subset.refl _
  trans := List.Subset.trans
  put _ _ := List.Subset.refl _
  target {t d k v block addr t' r} _ recursive _ _ htarget := by
    have hkept : t.reserved ⊆ t'.reserved := reserved_placeInFixed htarget
    rw [reserved_remember]
    exact hkept
  copy {t d k v block addr t' r} _ _ hcopy := by
    have hkept : t.reserved ⊆ t'.reserved := reserved_placeInFixed hcopy
    exact hkept
  record hcopy := reserved_placeInFixed hcopy

theorem fixedMode_follows :
    (fixedMode n).Follows mem (FixedFits header) (fun s => s.outputLen ≤ n) fun _ _ => True where
  good hfurther hgood := Nat.le_trans hfurther.outputLen hgood
  bad _ _ hbad := hbad
  grows := fixedMode_keeps
  pointer _ hclear := if_pos hclear
  copy h _ hgood := placeInFixed_of_fits h _ hgood
  target h _ _ hgood := by
    obtain ⟨t', htarget, htwin, hgrown, hclear⟩ := placeInFixed_of_fits h _ hgood
    exact ⟨t', htarget, htwin, hgrown, fun _ => hclear⟩
  copyBad _ _ _ _ _ := trivial
  targetBad _ _ _ _ _ _ := trivial

/-- Nothing is stored behind the message. -/
theorem placeInFixed_untouched {before : Mem} {addr : Nat} {t' : Tracked} {r : Nat × Nat}
    (hplace : placeInFixed n mem t block addr = some (t', r)) (h : Untouched before header t) :
    Untouched before header t' ∧ t.Grown t' := by
  unfold placeInFixed at hplace
  dsimp only at hplace
  split at hplace
  · exact h.copy hplace
  · split at hplace
    · cases hplace
      exact ⟨h, .refl t⟩
    · cases hplace

/-! ## One call -/

namespace EncodeCall

variable (call : EncodeCall)

/-- The walk in storage that the message fits in. -/
theorem walk (grown b : FFSBuffer) {s : EncodeState}
    (hs : encodeRecord call.mem call.fuel call.format call.data
      (initEncodeState true false grown) = some s) (hfits : s.outputLen ≤ n) :
    ∃ t, walkRecord (fixedMode n) call.mem call.fuel call.format call.data
        (.start false b call.format) = some t ∧
      Twin (FixedFits (headerBytes call.format).length) s t := by
  have htwin : Twin (FixedFits (headerBytes call.format).length) _ _ :=
    Twin.setupHeader grown b call.format false ⟨rfl, rfl⟩
  have hstart := Nat.le_trans (encodeRecord_further hs).outputLen hfits
  obtain ⟨t, ht, htwin', -⟩ :=
    (walkRecord_tracks fixedMode_follows call.laidOut htwin hstart s hs).1 hfits
  exact ⟨t, ht, htwin'⟩

/-- The message in a buffer that grows. -/
theorem exists_message (grown : FFSBuffer) :
    ∃ s, encodeRecord call.mem call.fuel call.format call.data
        (initEncodeState true false grown) = some s ∧ s.outputLen = call.size ∧
      call.message grown = some (s.buf.tmpBuffer.read 0 s.outputLen) := by
  obtain ⟨s, hs, hblocks⟩ := encodeRecord_of_visit call.laidOut call.visit grown
  obtain ⟨t, -, htwin⟩ := call.walk grown grown hs (Nat.le_refl s.outputLen)
  refine ⟨s, hs, ?_, ?_⟩
  · rw [htwin.fits.1, hblocks]
    rfl
  · rw [message, encode, hs]
    rfl

/-- The message is the same in the storage. -/
theorem exists_walk (grown b : FFSBuffer) (hfits : call.size ≤ n) :
    ∃ t, walkRecord (fixedMode n) call.mem call.fuel call.format call.data
        (.start false b call.format) = some t ∧
      call.message grown = some (t.state.buf.tmpBuffer.read 0 t.state.outputLen) := by
  obtain ⟨s, hs, hsize, hmessage⟩ := call.exists_message grown
  obtain ⟨t, ht, htwin⟩ := call.walk grown b hs (hsize.symm ▸ hfits)
  refine ⟨t, ht, ?_⟩
  rw [hmessage, htwin.outputLen]
  refine congrArg some (Mem.read_congr fun i _ hi => (htwin.agree i (by omega) ?_).symm)
  rw [htwin.fits.2]
  intro entry hentry
  cases hentry

theorem header_le_size : (headerBytes call.format).length ≤ call.size := le_endOf _ _

end EncodeCall

/-- A buffer that was made with `n` bytes of the caller. -/
def SizedBuffer.Owned (n : Nat) (b : SizedBuffer) : Prop :=
  b.tmpBufferSize = -(n : Int) ∨ (n = 0 ∧ 0 ≤ b.tmpBufferSize)

namespace EncodeCall

variable {call : EncodeCall} {b b' : SizedBuffer}

theorem run_fixed (hsize : b.tmpBufferSize = -(n : Int)) (hpos : 0 < n)
    (hfirst : b.buf.inUseSize = 0) :
    call.run b =
      if n < (headerBytes call.format).length then none
      else (walkRecord (fixedMode n) call.mem call.fuel call.format call.data
          (.start false b.buf call.format)).bind fun t =>
        if call.format.format.top.variant ∧ n % 8 ≠ 0 then none
        else some ({ b with buf := t.state.buf },
          some (t.state.buf.tmpBuffer.read 0 t.state.outputLen)) := by
  obtain ⟨size, buffer, inUse⟩ := b
  dsimp only at hsize hfirst
  subst hsize hfirst
  have hneg : -(n : Int) < 0 := by omega
  unfold run encodeSized SizedBuffer.makeTmpBuffer
  rw [if_pos hneg]
  dsimp only
  rw [if_pos hneg, Int.natAbs_neg, Int.natAbs_natCast, Nat.zero_add]
  rfl

theorem run_growable (hsize : 0 ≤ b.tmpBufferSize) :
    ∃ message size buf, call.message { b.buf with inUseSize := 0 } = some message ∧
      call.run b = some ({ tmpBufferSize := size, buf }, some message) ∧ 0 ≤ size := by
  obtain ⟨s, hs, -, hmessage⟩ := call.exists_message { b.buf with inUseSize := 0 }
  have hnot : ¬ b.tmpBufferSize < 0 := by omega
  have hgrown : ¬ (if b.tmpBufferSize = 0 then 1024 else b.tmpBufferSize) < 0 := by
    split <;> omega
  unfold run encodeSized SizedBuffer.makeTmpBuffer
  rw [if_neg hnot]
  dsimp only
  rw [if_neg hgrown, encode, hs]
  refine ⟨_, _, _, hmessage, rfl, ?_⟩
  have hmax : 0 ≤ max (if b.tmpBufferSize = 0 then 1024 else b.tmpBufferSize)
      (s.buf.inUseSize : Int) := by
    omega
  split
  · have hpad := Int.emod_nonneg (8 - max (if b.tmpBufferSize = 0 then 1024 else b.tmpBufferSize)
      (s.buf.inUseSize : Int)) (by decide : (8 : Int) ≠ 0)
    omega
  · exact hmax

/-- The bytes of a message do not depend on the buffer. -/
theorem message_congr (call : EncodeCall) (b b' : FFSBuffer) : call.message b = call.message b' := by
  obtain ⟨t, ht, hmessage⟩ := call.exists_walk b b' (Nat.le_refl call.size)
  obtain ⟨t', ht', hmessage'⟩ := call.exists_walk b' b' (Nat.le_refl call.size)
  cases ht.symm.trans ht'
  rw [hmessage, hmessage']

theorem length_message {grown : FFSBuffer} {message : List UInt8}
    (h : call.message grown = some message) : message.length = call.size := by
  obtain ⟨s, -, hsize, hmessage⟩ := call.exists_message grown
  cases h.symm.trans hmessage
  rw [Mem.length_read, hsize]

/-- What a call returns is never `NULL`. -/
theorem run_eq_some {r : Option (List UInt8)} (hb : b.Owned n) (hfirst : b.buf.inUseSize = 0)
    (h : call.run b = some (b', r)) :
    r.isSome = true ∧ b'.Owned n ∧ (call.format.format.top.variant = true → 8 ∣ n) := by
  by_cases hgrowable : 0 ≤ b.tmpBufferSize
  · obtain ⟨message, size, buf, -, hrun, hsize⟩ := call.run_growable hgrowable
    cases hrun.symm.trans h
    have hzero : n = 0 := by
      cases hb with
      | inl hfixed => omega
      | inr hempty => exact hempty.1
    exact ⟨rfl, .inr ⟨hzero, hsize⟩, fun _ => hzero ▸ Nat.dvd_zero 8⟩
  · have hfixed : b.tmpBufferSize = -(n : Int) := hb.resolve_right fun hempty => hgrowable hempty.2
    rw [run_fixed hfixed (by omega) hfirst] at h
    by_cases hheader : n < (headerBytes call.format).length
    · rw [if_pos hheader] at h
      cases h
    · rw [if_neg hheader] at h
      obtain ⟨t, -, h⟩ := Option.bind_eq_some_iff.mp h
      by_cases hrounded : call.format.format.top.variant = true ∧ n % 8 ≠ 0
      · rw [if_pos hrounded] at h
        cases h
      · rw [if_neg hrounded] at h
        cases h
        exact ⟨rfl, .inl hfixed, fun hvariant => by
          by_contra hnot
          exact hrounded ⟨hvariant, by omega⟩⟩

theorem right_of_meets (hb : b.Owned n) (h : call.Meets n b) : call.Right n b := by
  intro grown
  by_cases hgrowable : 0 ≤ b.tmpBufferSize
  · obtain ⟨message, size, buf, hmessage, hrun, -⟩ := call.run_growable hgrowable
    refine ⟨message, (call.message_congr _ _).trans hmessage, { tmpBufferSize := size, buf }, ?_,
      fun hneg => absurd hneg (Int.not_lt.mpr hgrowable)⟩
    rw [hrun, if_pos (length_message hmessage ▸ h.fits)]
  · have hfixed : b.tmpBufferSize = -(n : Int) := hb.resolve_right fun hempty => hgrowable hempty.2
    obtain ⟨t, ht, hmessage⟩ := call.exists_walk grown b.buf h.fits
    have hheader : ¬ n < (headerBytes call.format).length :=
      Nat.not_lt.mpr (Nat.le_trans call.header_le_size h.fits)
    have hrounded : ¬ (call.format.format.top.variant = true ∧ n % 8 ≠ 0) := by
      intro ⟨hvariant, hodd⟩
      exact hodd (Nat.mod_eq_zero_of_dvd (h.rounded hvariant))
    refine ⟨_, hmessage, { b with buf := t.state.buf }, ?_, fun _ => ⟨rfl, fun i hi => ?_⟩⟩
    · rw [run_fixed hfixed (by omega) h.first, if_neg hheader, ht, Option.bind_some,
        if_neg hrounded, if_pos (length_message hmessage ▸ h.fits)]
    · have hkeeps := @untouched_keeps call.mem (headerBytes call.format).length b.buf.tmpBuffer
        (fixedMode n) rfl placeInFixed_untouched placeInFixed_untouched
      have huntouched := walkRecord_untouched hkeeps (untouched_start b.buf call.format false) ht
      have hsize := length_message hmessage
      rw [Mem.length_read] at hsize
      exact huntouched.behind i (hsize ▸ Nat.le_trans h.fits hi)

/-- The first call returns what it should if and only if the message fits, and the size is a
multiple of 8 where it would be rounded up. -/
theorem right_iff_meets (hb : b.Owned n) (hfirst : b.buf.inUseSize = 0) :
    call.Right n b ↔ call.Meets n b := by
  refine ⟨fun hright => ?_, right_of_meets hb⟩
  obtain ⟨message, hmessage, b', hrun, -⟩ := hright b.buf
  obtain ⟨hsome, -, hrounded⟩ := run_eq_some hb hfirst hrun
  refine ⟨hfirst, ?_, hrounded⟩
  rw [← length_message hmessage]
  by_contra hnot
  rw [if_neg hnot] at hsome
  cases hsome

end EncodeCall

/-! ## All calls -/

/-- Every call of a sequence returns what it should. -/
def CallsRight (n : Nat) (b : SizedBuffer) (calls : List EncodeCall) : Prop :=
  ∀ front call rest, calls = front ++ call :: rest →
    ∃ b', run EncodeCall.step b front = some b' ∧ call.Right n b'

theorem createFixedFFSBuffer_owned (bytes : Mem) (n : Nat) :
    (createFixedFFSBuffer bytes n).Owned n := .inl rfl

theorem callsRight_of_meets {n : Nat} {b : SizedBuffer} {calls : List EncodeCall} (hb : b.Owned n)
    (h : RunMeets EncodeCall.step (fun b call => call.Meets n b) b calls) :
    CallsRight n b calls := by
  intro front call rest hcalls
  subst hcalls
  obtain ⟨b', hrun, hb'⟩ := run_invariant (SizedBuffer.Owned n) (fun b call hb hmeets => by
    obtain ⟨message, -, b', hrun, -⟩ := EncodeCall.right_of_meets hb hmeets b.buf
    exact ⟨b', congrArg (Option.map Prod.fst) hrun,
      (EncodeCall.run_eq_some hb hmeets.first hrun).2.1⟩) hb (runMeets_left h)
  exact ⟨b', hrun, EncodeCall.right_of_meets hb' (runMeets_append h hrun).2.1⟩

/-- Calls that all meet the condition are right, and the first one only when it does. -/
theorem fixedBuffer_right (n : Nat) (bytes : Mem) :
    (∀ calls, RunMeets EncodeCall.step (fun b call => call.Meets n b)
      (createFixedFFSBuffer bytes n) calls → CallsRight n (createFixedFFSBuffer bytes n) calls) ∧
    ∀ call, EncodeCall.Right n (createFixedFFSBuffer bytes n) call ↔
      call.Meets n (createFixedFFSBuffer bytes n) :=
  ⟨fun _ => callsRight_of_meets (createFixedFFSBuffer_owned bytes n),
    fun _ => EncodeCall.right_iff_meets (createFixedFFSBuffer_owned bytes n) rfl⟩

/-! ## A pointer to a record with a string -/

theorem nestedFormat_fits : nestedFormat.any (fun format =>
    decide (endOf (headerBytes format).length nestedBlocks ≤ 4096)) = true := by
  decide +kernel

theorem fixedBuffer_right_nested : ∃ call : EncodeCall, nestedFormat = some call.format ∧
    call.mem = nestedMem ∧ CallsRight 4096 (createFixedFFSBuffer (fun _ => 0) 4096) [call] := by
  obtain ⟨format, hformat, hfacts⟩ := (Option.any_eq_true _ _).mp nestedFormat_visit
  obtain ⟨hlaid, hvisit⟩ := Bool.and_eq_true_iff.mp hfacts
  have hsize : endOf (headerBytes format).length nestedBlocks ≤ 4096 := by
    have hfits := nestedFormat_fits
    rw [hformat] at hfits
    exact of_decide_eq_true hfits
  refine ⟨{ mem := nestedMem, fuel := 8, format, data := 100, blocks := nestedBlocks,
            laidOut := of_decide_eq_true hlaid, visit := eq_of_beq hvisit }, hformat, rfl, ?_⟩
  exact (fixedBuffer_right 4096 (fun _ => 0)).1 _ ⟨⟨rfl, hsize, fun _ => by decide⟩,
    fun _ _ => trivial⟩

/-! ## A record with a number -/

def numberList : List FMStructDesc :=
  [{ formatName := cstr ['t', 'o', 'p'] (.refl false),
     fieldList := [
       { fieldName := cstr ['n'] (.refl false),
         fieldType := cstr ['i', 'n', 't', 'e', 'g', 'e', 'r'] (.refl false),
         fieldSize := 4, fieldOffset := 0 }],
     structSize := 4, optInfo := [] }]

def numberFormat : Option StoredFormat :=
  (registerDataFormat hashlittle2 false { formatList := [], nativeColumnMajorArrays := false }
    numberList).map Prod.snd

/-- A record at 100 with a number. -/
def numberMem (number : Nat) : Mem := Mem.write (fun _ => 0) 100 (leBytes 4 number)

def secondDiffers (format : StoredFormat) : Bool :=
  (encodeSized (numberMem 1) 1 (createFixedFFSBuffer (fun _ => 0) 4096) format 100).any fun r₁ =>
    (encodeSized (numberMem 2) 1 r₁.1 format 100).any fun r₂ =>
      (encode (numberMem 2) 1 clearBuffer format 100).any fun r =>
        decide (r.2.length ≤ 4096) && r₂.2 != some r.2

theorem numberFormat_secondDiffers : numberFormat.any secondDiffers = true := by
  decide +kernel

/-- The second call returns the message of the first. -/
theorem fixedBuffer_second_not_right : ∃ format b₁ first b₂ second b message,
    numberFormat = some format ∧
      encodeSized (numberMem 1) 1 (createFixedFFSBuffer (fun _ => 0) 4096) format 100 =
        some (b₁, first) ∧
      encodeSized (numberMem 2) 1 b₁ format 100 = some (b₂, second) ∧
      encode (numberMem 2) 1 clearBuffer format 100 = some (b, message) ∧
      message.length ≤ 4096 ∧ second ≠ some message := by
  obtain ⟨format, hformat, hdiffers⟩ := (Option.any_eq_true _ _).mp numberFormat_secondDiffers
  obtain ⟨⟨b₁, first⟩, hfirst, hdiffers⟩ := (Option.any_eq_true _ _).mp hdiffers
  obtain ⟨⟨b₂, second⟩, hsecond, hdiffers⟩ := (Option.any_eq_true _ _).mp hdiffers
  obtain ⟨⟨b, message⟩, hmessage, hdiffers⟩ := (Option.any_eq_true _ _).mp hdiffers
  obtain ⟨hlength, hne⟩ := Bool.and_eq_true_iff.mp hdiffers
  exact ⟨format, b₁, first, b₂, second, b, message, hformat, hfirst, hsecond, hmessage,
    of_decide_eq_true hlength, bne_iff_ne.mp hne⟩

end FFS
