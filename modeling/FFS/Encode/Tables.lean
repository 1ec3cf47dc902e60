import FFS.Encode.Placing
import FFS.Machine.Runs
import FFS.Machine.RoomTable

/-!
# The tables of the encoder

`encode_state` keeps the segments of a message and the addresses of its blocks in two arrays,
which are on the stack at first and move to the heap when they are full.  Here are the arrays
with the room that they have, and the calls that add to them.  What is copied into the buffer
does not matter for them, and how much of the buffer is in use does.
-/

namespace FFS

open Machine

/-- An alignment that the assertions let through. -/
def Alignment : Type := { n : Nat // n ∈ [1, 2, 4, 8, 16] }

namespace Alignment

def one : Alignment := ⟨1, .head _⟩

def eight : Alignment := ⟨8, .tail _ (.tail _ (.tail _ (.head _)))⟩

end Alignment

def intMax : Nat := 2 ^ 31 - 1

def stackArraySize : Nat := 100

/-- What memory has in it before it is written, and a local variable that is not set. -/
structure Fresh where
  iovec : Nat → InternalIovec
  addr : Nat → Nat × Nat
  offset : Nat

structure EncodeTables where
  iovec : RoomTable InternalIovec
  mallocVecSize : Nat
  addrList : RoomTable (Nat × Nat)
  addrListIsStack : Bool
  mallocAddrSize : Nat
  outputLen : Int
  tmpBufferSize : Int
  inUseSize : Nat

namespace EncodeTables

/-! ## Operations -/

/-- `add_to_tmp_buffer` -/
def addToTmpBuffer (s : EncodeTables) (size : Nat) : Option (EncodeTables × Nat) :=
  if s.tmpBufferSize < 0 ∧ s.tmpBufferSize.natAbs < s.inUseSize + size then none
  else some ({ s with inUseSize := s.inUseSize + size }, s.inUseSize)

/-- `ensure_writev_room`, without a result where `malloc_vec_size` overflows. -/
def ensureWritevRoom (fresh : Fresh) (s : EncodeTables) (addCount : Nat) : Option EncodeTables :=
  if s.mallocVecSize = 0 ∧ stackArraySize - addCount ≤ s.iovec.count then
    let size := 2 * stackArraySize + addCount
    some { s with iovec := s.iovec.moved fresh.iovec size, mallocVecSize := size }
  else if s.mallocVecSize ≠ 0 ∧ s.mallocVecSize - addCount ≤ s.iovec.count then
    let size := s.mallocVecSize * 2
    if size ≤ intMax then
      some { s with iovec := s.iovec.resized fresh.iovec size, mallocVecSize := size }
    else none
  else some s

def pad (s : EncodeTables) (alignment : Alignment) : Nat :=
  ((alignment.val - s.outputLen) % alignment.val).toNat

def setIovec (s : EncodeTables) (iovec : RoomTable InternalIovec) : EncodeTables := { s with iovec }

/-- The pad in front of a block, behind the last segment if that is in the buffer too. -/
def padTmp (s : EncodeTables) (pad tmpData : Nat) : Option (EncodeTables × Nat) :=
  if pad = 0 then some (s, tmpData)
  else
    match s.iovec.cells[s.iovec.count - 1]?.map Segment.base with
    | some (.tmp _) =>
      (s.iovec.changeLast fun last => { last with len := last.len + pad }).map fun iovec =>
        (s.setIovec iovec, tmpData + pad)
    | _ => (s.iovec.push ⟨pad, .zeroes⟩).map fun iovec => (s.setIovec iovec, tmpData)

/-- `allocate_tmp_space`: the place in the buffer is none where it returns -1. -/
def allocateTmpSpace (fresh : Fresh) (s : EncodeTables) (length : Nat) (alignment : Alignment) :
    Option (EncodeTables × Option Nat) := do
  let pad := s.pad alignment
  let s ← s.ensureWritevRoom fresh 2
  match s.addToTmpBuffer (length + pad) with
  | none => return (s, none)
  | some (s, tmpData) =>
    let (s, tmpData) ← s.padTmp pad tmpData
    return ({ s with outputLen := s.outputLen + (length + pad : Nat) }, some tmpData)

/-- One more segment, unless it is empty. -/
def addIovec (s : EncodeTables) (length : Nat) (base : IOBase) : Option EncodeTables :=
  if length = 0 then some s else (s.iovec.push ⟨length, base⟩).map s.setIovec

/-- `reserve_space_for_data_in_tmp`.  The place in the buffer is not set where there is none. -/
def reserveSpaceForDataInTmp (fresh : Fresh) (s : EncodeTables) (length : Nat)
    (alignment : Alignment) : Option EncodeTables := do
  let (s, tmpData) ← s.allocateTmpSpace fresh length alignment
  s.addIovec length (.tmp (tmpData.getD fresh.offset))

/-- `copy_data_to_tmp` does the same to the tables. -/
def copyDataToTmp (fresh : Fresh) (s : EncodeTables) (length : Nat) (alignment : Alignment) :
    Option EncodeTables := s.reserveSpaceForDataInTmp fresh length alignment

/-- `add_data_iovec` -/
def addDataIovec (fresh : Fresh) (s : EncodeTables) (addr length : Nat) (alignment : Alignment) :
    Option EncodeTables := do
  let pad := s.pad alignment
  let s ← s.ensureWritevRoom fresh 2
  let s ← s.addIovec pad .zeroes
  let s := { s with outputLen := s.outputLen + pad }
  let s ← s.addIovec length (.user addr)
  return { s with outputLen := s.outputLen + length }

/-- How many elements are marshalled by calls of `copy_array_element`. -/
def marshalledCount (elementCount : Int) (elements : List Int) : Nat :=
  elements.foldl (fun (marshalled : Nat) element =>
    if element < 0 ∨ elementCount ≤ element then marshalled
    else if (marshalled : Int) = elementCount then marshalled
    else marshalled + 1) 0

/-- The part of `handle_subfield` for an array that is subsampled: `elements` are the arguments of
the calls of `copy_array_element`. -/
def subsample (fresh : Fresh) (s : EncodeTables) (size elementSize : Nat) (elements : List Int) :
    Option EncodeTables := do
  let marshalled := marshalledCount (signed 4 (unsigned 4 (size / elementSize))) elements
  let (s, tmpData) ← s.allocateTmpSpace fresh size .eight
  let s ←
    if size = 0 then some s
    else (s.iovec.push ⟨marshalled * elementSize, .tmp (tmpData.getD fresh.offset)⟩).map s.setIovec
  return { s with
    outputLen := s.outputLen - (size - (marshalled * elementSize : Nat))
    inUseSize := s.inUseSize - (size - marshalled * elementSize) }

def setAddrList (s : EncodeTables) (addrList : RoomTable (Nat × Nat)) : EncodeTables :=
  { s with addrList }

/-- `add_to_addr_list`, without a result where `addr_list_cnt` overflows. -/
def addToAddrList (fresh : Fresh) (s : EncodeTables) (addr offset : Nat) : Option EncodeTables :=
  let s :=
    if s.addrListIsStack then
      if s.addrList.count = stackArraySize then
        { s with
          addrListIsStack := false, mallocAddrSize := 2 * stackArraySize
          addrList := s.addrList.moved fresh.addr (2 * stackArraySize) }
      else s
    else if s.addrList.count = s.mallocAddrSize then
      { s with
        mallocAddrSize := s.mallocAddrSize * 2
        addrList := s.addrList.resized fresh.addr (s.mallocAddrSize * 2) }
    else s
  if s.addrList.count < intMax then (s.addrList.push (addr, offset)).map s.setAddrList else none

/-- The entry for the record, which is added without a look at the room. -/
def addRoot (s : EncodeTables) (addr offset : Nat) : Option EncodeTables :=
  (s.addrList.push (addr, offset)).map s.setAddrList

/-! ## Runs -/

/-- A call that adds a block, or the address of one. -/
inductive Placing where
  | copy (length : Nat) (alignment : Alignment)
  | reserve (length : Nat) (alignment : Alignment)
  | leave (addr length : Nat) (alignment : Alignment)
  | subsample (size elementSize : Nat) (elements : List Int)
  | address (addr offset : Nat)

def place (fresh : Fresh) (s : EncodeTables) : Placing → Option EncodeTables
  | .copy length alignment => s.copyDataToTmp fresh length alignment
  | .reserve length alignment => s.reserveSpaceForDataInTmp fresh length alignment
  | .leave addr length alignment => s.addDataIovec fresh addr length alignment
  | .subsample size elementSize elements => s.subsample fresh size elementSize elements
  | .address addr offset => s.addToAddrList fresh addr offset

end EncodeTables

open EncodeTables

/-- What `FFSencode_internal` and `FFSencode_vector` do with one `encode_state`: the header, whose
place in the buffer is `tmpData`, the record, which is left where it is or copied, its address,
and the blocks behind it. -/
structure Encoding where
  tmpBufferSize : Int
  inUseSize : Nat
  tmpData : Nat
  headerSize : Nat
  leaves : Bool
  recursive : Bool
  data : Nat
  recordLength : Nat
  placings : List Placing

namespace Encoding

/-- The state behind `setup_header`. -/
def start (fresh : Fresh) (enc : Encoding) : EncodeTables where
  iovec :=
    ⟨((List.range stackArraySize).map fresh.iovec).set 0 ⟨enc.headerSize, .tmp enc.tmpData⟩, 1⟩
  mallocVecSize := 0
  addrList := ⟨(List.range stackArraySize).map fresh.addr, 0⟩
  addrListIsStack := true
  mallocAddrSize := 0
  outputLen := enc.headerSize
  tmpBufferSize := enc.tmpBufferSize
  inUseSize := enc.inUseSize

def record (enc : Encoding) : Placing :=
  if enc.leaves then .leave enc.data enc.recordLength .one else .copy enc.recordLength .one

/-- The state behind the record. -/
def recorded (fresh : Fresh) (enc : Encoding) : Option EncodeTables := do
  let s ← (enc.start fresh).place fresh enc.record
  if enc.recursive then s.addRoot enc.data enc.headerSize else return s

end Encoding

/-- A call that goes well: both tables have room for their entries, the entries from before are
there, the last segment with its pad, and the length is that of all segments. -/
structure EncodeTables.Follows (s s' : EncodeTables) : Prop where
  iovecRoom : s'.iovec.count ≤ s'.iovec.room
  addrRoom : s'.addrList.count ≤ s'.addrList.room
  iovecKept : ∃ n, Segment.extendLast s.iovec.entries n <+: s'.iovec.entries
  addrKept : s.addrList.entries <+: s'.addrList.entries
  total : s'.outputLen = Segment.total s'.iovec.entries

/-- Every call of an encoding goes well. -/
def Encoding.TablesRight (fresh : Fresh) (enc : Encoding) : Prop :=
  ∃ s, enc.recorded fresh = some s ∧ (enc.start fresh).Follows s ∧
    RunMeets (place fresh) (fun s placing => ∃ s', s.place fresh placing = some s' ∧ s.Follows s')
      s enc.placings

/-- How many segments there may be before another call. -/
def maxSegments : Nat := 202 * 2 ^ 23 - 2

namespace EncodeTables

def HasSpace (s : EncodeTables) (size : Nat) : Prop :=
  s.tmpBufferSize < 0 → s.inUseSize + size ≤ s.tmpBufferSize.natAbs

/-- The condition on a call: the block fits into a buffer that does not grow, and the tables do
not get too large for their sizes. -/
def Placing.Fits (s : EncodeTables) : Placing → Prop
  | .copy length alignment =>
    s.iovec.count < maxSegments ∧ (length = 0 ∨ s.HasSpace (length + s.pad alignment))
  | .reserve length alignment =>
    s.iovec.count < maxSegments ∧ (length = 0 ∨ s.HasSpace (length + s.pad alignment))
  | .leave _ _ _ => s.iovec.count < maxSegments
  | .subsample size _ _ =>
    s.iovec.count < maxSegments ∧ (size = 0 ∨ s.HasSpace (size + s.pad .eight))
  | .address _ _ => s.addrList.count < intMax

end EncodeTables

/-- Every call of an encoding meets its condition. -/
def Encoding.Fits (fresh : Fresh) (enc : Encoding) : Prop :=
  enc.record.Fits (enc.start fresh) ∧ ∀ s, enc.recorded fresh = some s →
    RunMeets (place fresh) (fun s placing => placing.Fits s) s enc.placings

theorem marshalledCount_zero (elements : List Int) :
    EncodeTables.marshalledCount 0 elements = 0 := by
  induction elements with
  | nil => rfl
  | cons element elements ih =>
    rw [EncodeTables.marshalledCount, List.foldl_cons, if_pos (by omega)]
    exact ih

/-! ## Room for two more segments -/

/-- The array of segments has the room that is noted for it. -/
structure VecSound (t : RoomTable InternalIovec) (size : Nat) : Prop where
  room : t.room = if size = 0 then stackArraySize else size
  doubled : size = 0 ∨ ∃ k ≤ 23, size = 202 * 2 ^ k
  count : t.count ≤ t.room
  pos : 0 < t.count

theorem two_pow_le_of_le {k n : Nat} (h : k ≤ n) : 2 ^ k ≤ 2 ^ n :=
  Nat.pow_le_pow_right (by decide) h

/-- A size that is not the last one can be doubled. -/
theorem lt_of_doubled {k : Nat} (h : 202 * 2 ^ k - 2 < maxSegments) (hk : k ≤ 23) : k < 23 := by
  apply Nat.lt_of_le_of_ne hk
  intro heq
  subst heq
  exact Nat.lt_irrefl _ h

theorem doubled_le {k : Nat} (h : k < 23) : 202 * 2 ^ k * 2 ≤ intMax := by
  have hle : 2 ^ k * 2 ≤ 2 ^ 23 := by
    rw [← Nat.pow_succ]
    exact two_pow_le_of_le h
  have hmax : 202 * 2 ^ 23 ≤ intMax := by decide
  omega

section

variable {fresh : Fresh} {s : EncodeTables}

theorem exists_ensure (fresh : Fresh) (h : VecSound s.iovec s.mallocVecSize)
    (hmax : s.iovec.count < maxSegments) :
    ∃ t size, s.ensureWritevRoom fresh 2 = some { s with iovec := t, mallocVecSize := size } ∧
      VecSound t size ∧ t.entries = s.iovec.entries ∧ t.count = s.iovec.count ∧
      t.count + 2 ≤ t.room := by
  obtain ⟨hroom, hdoubled, hcount, hpos⟩ := h
  rw [ensureWritevRoom]
  by_cases hstack : s.mallocVecSize = 0
  · rw [if_pos hstack] at hroom
    by_cases hfull : stackArraySize - 2 ≤ s.iovec.count
    · rw [if_pos ⟨hstack, hfull⟩]
      have hle : s.iovec.count ≤ 2 * stackArraySize + 2 := by
        rw [hroom] at hcount
        omega
      have hmoved := RoomTable.room_moved fresh.iovec hcount hle
      refine ⟨_, _, rfl, ⟨hmoved, .inr ⟨0, by decide, rfl⟩, ?_, hpos⟩,
        RoomTable.entries_moved _ _ hcount, rfl, ?_⟩
      · rw [hmoved]
        exact hle
      · rw [hmoved]
        rw [hroom] at hcount
        exact Nat.add_le_add_right (Nat.le_trans hcount (by decide)) 2
    · rw [if_neg (fun e => hfull e.2), if_neg (fun e => e.1 hstack)]
      refine ⟨s.iovec, s.mallocVecSize, rfl, ⟨?_, hdoubled, hcount, hpos⟩, rfl, rfl, ?_⟩
      · rw [if_pos hstack]
        exact hroom
      · rw [hroom]
        have hstackSize : stackArraySize = 100 := rfl
        omega
  · rw [if_neg hstack] at hroom
    rw [if_neg (fun e => hstack e.1)]
    obtain ⟨k, hk, hsize⟩ := hdoubled.resolve_left hstack
    have hpow : 0 < 2 ^ k := Nat.two_pow_pos k
    by_cases hfull : s.mallocVecSize - 2 ≤ s.iovec.count
    · rw [if_pos ⟨hstack, hfull⟩]
      have hlt : k < 23 := lt_of_doubled (by omega) hk
      dsimp only
      rw [if_pos (hsize ▸ doubled_le hlt)]
      have hgrown : s.iovec.room ≤ s.mallocVecSize * 2 := by omega
      have hresized := RoomTable.room_resized fresh.iovec hgrown
      refine ⟨_, _, rfl, ⟨?_, .inr ⟨k + 1, hlt, ?_⟩, ?_, hpos⟩,
        RoomTable.entries_resized _ hcount hgrown, rfl, ?_⟩
      · rw [if_neg (by omega)]
        exact hresized
      · rw [hsize, Nat.pow_succ, Nat.mul_assoc]
      · rw [hresized]
        exact Nat.le_trans hcount hgrown
      · rw [hresized]
        change s.iovec.count + 2 ≤ _
        omega
    · rw [if_neg (fun e => hfull e.2)]
      refine ⟨s.iovec, s.mallocVecSize, rfl, ⟨?_, hdoubled, hcount, hpos⟩, rfl, rfl, by omega⟩
      rw [if_neg hstack]
      exact hroom

theorem ensure_eq_none (h : VecSound s.iovec s.mallocVecSize)
    (hmax : ¬ s.iovec.count < maxSegments) : s.ensureWritevRoom fresh 2 = none := by
  obtain ⟨hroom, hdoubled, hcount, -⟩ := h
  have hlarge : 202 * 2 ^ 23 ≤ s.iovec.count + 2 := by
    have hmaxSegments : maxSegments = 202 * 2 ^ 23 - 2 := rfl
    omega
  have hstack : s.mallocVecSize ≠ 0 := by
    intro hzero
    rw [if_pos hzero] at hroom
    have hstackSize : stackArraySize = 100 := rfl
    omega
  rw [if_neg hstack] at hroom
  obtain ⟨k, hk, hsize⟩ := hdoubled.resolve_left hstack
  have hpow : 2 ^ k ≤ 2 ^ 23 := two_pow_le_of_le hk
  rw [ensureWritevRoom, if_neg (fun e => hstack e.1), if_pos ⟨hstack, by omega⟩]
  dsimp only
  apply if_neg
  have hint : intMax = 2147483647 := rfl
  omega

end

/-! ## What a call adds -/

/-- Segments behind those from before, of which the last may have got a pad. -/
def Grown (before behind : List InternalIovec) : Prop :=
  ∃ n, Segment.extendLast before n <+: behind

theorem grown_of_prefix {before behind : List InternalIovec} (h : before <+: behind) :
    Grown before behind := ⟨0, by rwa [Segment.extendLast_zero]⟩

theorem Grown.trans_prefix {before between behind : List InternalIovec} (h : Grown before between)
    (hbehind : between <+: behind) : Grown before behind := by
  obtain ⟨n, hn⟩ := h
  exact ⟨n, hn.trans hbehind⟩

/-- Segments are added to a state, and nothing else of its tables changes. -/
structure Adds (s s' : EncodeTables) (room len : Nat) : Prop where
  vec : VecSound s'.iovec s'.mallocVecSize
  spare : s'.iovec.count + room ≤ s'.iovec.room
  grown : Grown s.iovec.entries s'.iovec.entries
  total : Segment.total s'.iovec.entries = Segment.total s.iovec.entries + len
  addrList : s'.addrList = s.addrList
  addrListIsStack : s'.addrListIsStack = s.addrListIsStack
  mallocAddrSize : s'.mallocAddrSize = s.mallocAddrSize

section

variable {fresh : Fresh} {s s' s'' : EncodeTables}

theorem Adds.trans {room room' len len' : Nat} (h : Adds s s' room len)
    (h' : Adds s' s'' room' len') ( hprefix : s'.iovec.entries <+: s''.iovec.entries) :
    Adds s s'' room' (len + len') where
  vec := h'.vec
  spare := h'.spare
  grown := h.grown.trans_prefix hprefix
  total := by
    rw [h'.total, h.total]
    omega
  addrList := h'.addrList.trans h.addrList
  addrListIsStack := h'.addrListIsStack.trans h.addrListIsStack
  mallocAddrSize := h'.mallocAddrSize.trans h.mallocAddrSize

/-- A segment is added where there is room for it. -/
theorem exists_pushed (room : Nat) (h : VecSound s.iovec s.mallocVecSize)
    (hspare : s.iovec.count + (room + 1) ≤ s.iovec.room) (len : Nat) (base : IOBase) :
    ∃ s', (s.iovec.push ⟨len, base⟩).map s.setIovec = some s' ∧ Adds s s' room len ∧
      s'.iovec.entries = s.iovec.entries ++ [⟨len, base⟩] ∧ s'.outputLen = s.outputLen := by
  obtain ⟨t, ht, hentries, hcount, hroom⟩ :=
    RoomTable.exists_push (⟨len, base⟩ : InternalIovec) (t := s.iovec) (by omega)
  rw [ht]
  refine ⟨s.setIovec t, rfl, ⟨⟨?_, h.doubled, ?_, ?_⟩, ?_, ?_, ?_, rfl, rfl, rfl⟩, hentries, rfl⟩
  · exact hroom.trans h.room
  · change t.count ≤ t.room
    omega
  · change 0 < t.count
    omega
  · change t.count + room ≤ t.room
    omega
  · apply grown_of_prefix
    change s.iovec.entries <+: t.entries
    rw [hentries]
    exact List.prefix_append _ _
  · change Segment.total t.entries = _
    rw [hentries, Segment.total_append, Segment.total_singleton]

theorem exists_addIovec (room : Nat) (h : VecSound s.iovec s.mallocVecSize)
    (hspare : s.iovec.count + (room + 1) ≤ s.iovec.room) (len : Nat) (base : IOBase) :
    ∃ s', s.addIovec len base = some s' ∧ Adds s s' room len ∧
      s.iovec.entries <+: s'.iovec.entries ∧ s'.outputLen = s.outputLen := by
  rw [addIovec]
  by_cases hlen : len = 0
  · subst hlen
    rw [if_pos rfl]
    exact ⟨s, rfl, ⟨h, by omega, grown_of_prefix (List.prefix_refl _), rfl, rfl, rfl, rfl⟩,
      List.prefix_refl _, rfl⟩
  · rw [if_neg hlen]
    obtain ⟨s', hs', hadds, hentries, houtput⟩ := exists_pushed _ h hspare len base
    refine ⟨s', hs', hadds, ?_, houtput⟩
    rw [hentries]
    exact List.prefix_append _ _

/-- The last entry and the ones in front of it. -/
theorem exists_last (h : VecSound s.iovec s.mallocVecSize) :
    ∃ front last, s.iovec.entries = front ++ [last] ∧
      s.iovec.cells[s.iovec.count - 1]? = some last := by
  have hlength := RoomTable.length_entries h.count
  have hne : s.iovec.entries ≠ [] := by
    intro hnil
    rw [hnil] at hlength
    have hpos := h.pos
    rw [← hlength] at hpos
    exact Nat.lt_irrefl _ hpos
  refine ⟨_, _, (List.dropLast_concat_getLast hne).symm, ?_⟩
  rw [← List.getLast?_eq_some_getLast, List.getLast?_eq_getElem?, hlength, RoomTable.entries,
    List.getElem?_take, if_pos (Nat.sub_lt h.pos Nat.one_pos)]

theorem exists_padTmp (h : VecSound s.iovec s.mallocVecSize)
    (hspare : s.iovec.count + 2 ≤ s.iovec.room) (pad tmpData : Nat) :
    ∃ s' loc, s.padTmp pad tmpData = some (s', loc) ∧ Adds s s' 1 pad ∧
      s'.outputLen = s.outputLen := by
  rw [padTmp]
  by_cases hpad : pad = 0
  · subst hpad
    rw [if_pos rfl]
    exact ⟨s, tmpData, rfl,
      ⟨h, by omega, grown_of_prefix (List.prefix_refl _), rfl, rfl, rfl, rfl⟩, rfl⟩
  rw [if_neg hpad]
  have hpushed : ∃ s' loc, ((s.iovec.push ⟨pad, .zeroes⟩).map fun iovec =>
      (s.setIovec iovec, tmpData)) = some (s', loc) ∧ Adds s s' 1 pad ∧
        s'.outputLen = s.outputLen := by
    obtain ⟨s', hs', hadds, -, houtput⟩ := exists_pushed _ h hspare pad .zeroes
    obtain ⟨t, ht, rfl⟩ := Option.map_eq_some_iff.mp hs'
    rw [ht]
    exact ⟨_, tmpData, rfl, hadds, houtput⟩
  obtain ⟨front, last, hentries, hlast⟩ := exists_last h
  rw [hlast, Option.map_some]
  cases hbase : last.base with
  | user addr => exact hpushed
  | zeroes => exact hpushed
  | tmp offset =>
    obtain ⟨t, ht, hchanged, hcount, hroom⟩ := RoomTable.exists_changeLast
      (fun segment : InternalIovec => { segment with len := segment.len + pad }) h.count hentries
    dsimp only
    rw [ht]
    have hextend : Segment.extendLast s.iovec.entries pad = t.entries := by
      rw [hchanged, hentries, Segment.extendLast_of_getLast? pad List.getLast?_concat,
        List.dropLast_concat]
    refine ⟨s.setIovec t, tmpData + pad, rfl,
      ⟨⟨hroom.trans h.room, h.doubled, ?_, ?_⟩, ?_, ⟨pad, ?_⟩, ?_, rfl, rfl, rfl⟩, rfl⟩
    · change t.count ≤ t.room
      omega
    · change 0 < t.count
      exact hcount ▸ h.pos
    · change t.count + 1 ≤ t.room
      omega
    · change _ <+: t.entries
      rw [hextend]
    · change Segment.total t.entries = _
      rw [← hextend, hentries]
      exact Segment.total_extendLast pad List.getLast?_concat

theorem addToTmpBuffer_eq {size : Nat} (h : s.HasSpace size) :
    s.addToTmpBuffer size = some ({ s with inUseSize := s.inUseSize + size }, s.inUseSize) := by
  apply if_neg
  rintro ⟨hfixed, hlt⟩
  exact Nat.not_lt.mpr (h hfixed) hlt

theorem addToTmpBuffer_eq_none {size : Nat} (h : ¬ s.HasSpace size) :
    s.addToTmpBuffer size = none := by
  apply if_pos
  rw [HasSpace, Classical.not_imp] at h
  exact ⟨h.1, Nat.not_le.mp h.2⟩

/-- `ensure_writev_room` adds nothing. -/
theorem exists_ensured (fresh : Fresh) (h : VecSound s.iovec s.mallocVecSize)
    (hmax : s.iovec.count < maxSegments) :
    ∃ t size, s.ensureWritevRoom fresh 2 = some { s with iovec := t, mallocVecSize := size } ∧
      Adds s { s with iovec := t, mallocVecSize := size } 2 0 ∧ t.entries = s.iovec.entries := by
  obtain ⟨t, size, ht, hvec, hentries, -, hspare⟩ := exists_ensure fresh h hmax
  refine ⟨t, size, ht, ⟨hvec, hspare, grown_of_prefix ?_, ?_, rfl, rfl, rfl⟩, hentries⟩
  · change _ <+: t.entries
    rw [hentries]
  · change Segment.total t.entries = _
    rw [hentries]
    rfl

/-- `allocate_tmp_space` in a buffer with space for the block. -/
theorem exists_allocate (fresh : Fresh) (h : VecSound s.iovec s.mallocVecSize)
    (hmax : s.iovec.count < maxSegments)
    {length : Nat} {alignment : Alignment} (hspace : s.HasSpace (length + s.pad alignment)) :
    ∃ s' loc, s.allocateTmpSpace fresh length alignment = some (s', some loc) ∧
      Adds s s' 1 (s.pad alignment) ∧
      s'.outputLen = s.outputLen + (length + s.pad alignment : Nat) := by
  obtain ⟨t, size, ht, hensured, hentries⟩ := exists_ensured fresh h hmax
  have hspace' : HasSpace { s with iovec := t, mallocVecSize := size }
      (length + s.pad alignment) := hspace
  obtain ⟨s', loc, hs', hadds, houtput⟩ := exists_padTmp (s := { s with
    iovec := t, mallocVecSize := size, inUseSize := s.inUseSize + (length + s.pad alignment) })
    hensured.vec hensured.spare (s.pad alignment) s.inUseSize
  refine ⟨{ s' with outputLen := s'.outputLen + (length + s.pad alignment : Nat) }, loc, ?_, ?_,
    congrArg (· + ((length + s.pad alignment : Nat) : Int)) houtput⟩
  · rw [allocateTmpSpace]
    dsimp only
    rw [ht, Option.bind_eq_bind, Option.bind_some, addToTmpBuffer_eq hspace']
    dsimp only
    rw [hs']
    rfl
  · obtain ⟨hvec, hspare, hgrown, htotal, hlist, hisStack, hsize⟩ := hadds
    rw [show RoomTable.entries _ = s.iovec.entries from hentries] at hgrown htotal
    exact ⟨hvec, hspare, hgrown, htotal, hlist, hisStack, hsize⟩

/-- `allocate_tmp_space` in a buffer without space for the block. -/
theorem exists_allocate_none (fresh : Fresh) (h : VecSound s.iovec s.mallocVecSize)
    (hmax : s.iovec.count < maxSegments) {length : Nat} {alignment : Alignment}
    (hspace : ¬ s.HasSpace (length + s.pad alignment)) :
    ∃ s', s.allocateTmpSpace fresh length alignment = some (s', none) ∧ Adds s s' 2 0 ∧
      s'.outputLen = s.outputLen := by
  obtain ⟨t, size, ht, hensured, -⟩ := exists_ensured fresh h hmax
  have hspace' : ¬ HasSpace { s with iovec := t, mallocVecSize := size }
      (length + s.pad alignment) := hspace
  refine ⟨_, ?_, hensured, rfl⟩
  rw [allocateTmpSpace]
  dsimp only
  rw [ht, Option.bind_eq_bind, Option.bind_some, addToTmpBuffer_eq_none hspace']
  rfl

theorem allocate_eq_none (h : VecSound s.iovec s.mallocVecSize)
    (hmax : ¬ s.iovec.count < maxSegments) (length : Nat) (alignment : Alignment) :
    s.allocateTmpSpace fresh length alignment = none := by
  rw [allocateTmpSpace]
  dsimp only
  rw [ensure_eq_none h hmax]
  rfl

/-- Segments are added, and the length of the message grows by what they have. -/
def AddsEvenly (s s' : EncodeTables) : Prop :=
  ∃ room len, Adds s s' room len ∧ s'.outputLen = s.outputLen + (len : Nat)

theorem exists_reserve (fresh : Fresh) (h : VecSound s.iovec s.mallocVecSize)
    (hmax : s.iovec.count < maxSegments)
    {length : Nat} {alignment : Alignment}
    (hspace : length = 0 ∨ s.HasSpace (length + s.pad alignment)) :
    ∃ s', s.reserveSpaceForDataInTmp fresh length alignment = some s' ∧ AddsEvenly s s' := by
  rw [reserveSpaceForDataInTmp]
  by_cases hfits : s.HasSpace (length + s.pad alignment)
  · obtain ⟨s₁, loc, hs₁, hadds, houtput⟩ := exists_allocate fresh h hmax hfits
    obtain ⟨s₂, hs₂, hadds', hprefix, houtput'⟩ :=
      exists_addIovec _ hadds.vec hadds.spare length (.tmp loc)
    refine ⟨s₂, ?_, 0, s.pad alignment + length, hadds.trans hadds' hprefix, ?_⟩
    · rw [hs₁]
      exact hs₂
    · rw [houtput', houtput, Nat.add_comm]
  · obtain ⟨s₁, hs₁, hadds, houtput⟩ := exists_allocate_none fresh h hmax hfits
    refine ⟨s₁, ?_, 2, 0, hadds, houtput.trans (Int.add_zero _).symm⟩
    rw [hs₁, hspace.resolve_right hfits]
    rfl

/-- A block without space is added to the segments, and its length is missing. -/
theorem reserve_uneven (h : VecSound s.iovec s.mallocVecSize) (hmax : s.iovec.count < maxSegments)
    {length : Nat} {alignment : Alignment}
    (hspace : ¬ s.HasSpace (length + s.pad alignment))
    (hs' : s.reserveSpaceForDataInTmp fresh length alignment = some s') :
    s'.outputLen = s.outputLen ∧
      Segment.total s'.iovec.entries = Segment.total s.iovec.entries + length := by
  obtain ⟨s₁, hs₁, hadds, houtput⟩ := exists_allocate_none fresh h hmax hspace
  obtain ⟨s₂, hs₂, hadds', -, houtput'⟩ :=
    exists_addIovec 1 hadds.vec hadds.spare length (.tmp fresh.offset)
  rw [reserveSpaceForDataInTmp, hs₁] at hs'
  cases hs'.symm.trans hs₂
  refine ⟨houtput'.trans houtput, ?_⟩
  rw [hadds'.total, hadds.total]
  rfl

theorem exists_leave (h : VecSound s.iovec s.mallocVecSize) (hmax : s.iovec.count < maxSegments)
    (addr length : Nat) (alignment : Alignment) :
    ∃ s', s.addDataIovec fresh addr length alignment = some s' ∧ AddsEvenly s s' := by
  rw [addDataIovec]
  dsimp only
  obtain ⟨t, size, ht, hensured, hentries⟩ := exists_ensured fresh h hmax
  obtain ⟨s₁, hs₁, hadds₁, hprefix₁, houtput₁⟩ :=
    exists_addIovec 1 hensured.vec hensured.spare (s.pad alignment) .zeroes
  obtain ⟨s₂, hs₂, hadds₂, hprefix₂, houtput₂⟩ := exists_addIovec 0
    (s := { s₁ with outputLen := s₁.outputLen + (s.pad alignment : Nat) })
    hadds₁.vec hadds₁.spare length (.user addr)
  rw [ht, Option.bind_eq_bind, Option.bind_some, hs₁, Option.bind_some, hs₂]
  have hgrown : Adds s s₁ 1 (0 + s.pad alignment) := hensured.trans hadds₁ hprefix₁
  obtain ⟨hvec, hspare, hgrown₂, htotal, hlist, hisStack, hsize⟩ := hadds₂
  have hadds : Adds s₁ { s₂ with outputLen := s₂.outputLen + (length : Nat) } 0 length :=
    ⟨hvec, hspare, hgrown₂, htotal, hlist, hisStack, hsize⟩
  refine ⟨_, rfl, 0, _, hgrown.trans hadds hprefix₂, ?_⟩
  change s₂.outputLen + (length : Nat) = _
  rw [houtput₂]
  change s₁.outputLen + _ + _ = _
  rw [houtput₁]
  push_cast
  omega

theorem exists_subsample (fresh : Fresh) (h : VecSound s.iovec s.mallocVecSize)
    (hmax : s.iovec.count < maxSegments) {size : Nat}
    (hspace : size = 0 ∨ s.HasSpace (size + s.pad .eight)) (elementSize : Nat)
    (elements : List Int) :
    ∃ s', s.subsample fresh size elementSize elements = some s' ∧ AddsEvenly s s' := by
  rw [subsample]
  dsimp only
  generalize hkept : marshalledCount (signed 4 (unsigned 4 (size / elementSize))) elements *
    elementSize = kept
  by_cases hsize : size = 0
  · subst hsize
    have hnone : kept = 0 := by
      rw [← hkept, Nat.cast_zero, Int.zero_ediv, show signed 4 (unsigned 4 0) = 0 from rfl,
        marshalledCount_zero, Nat.zero_mul]
    subst hnone
    by_cases hfits : s.HasSpace (0 + s.pad .eight)
    · obtain ⟨s₁, loc, hs₁, hadds, houtput⟩ := exists_allocate fresh h hmax hfits
      rw [hs₁]
      obtain ⟨hvec, hspare, hgrown, htotal, hlist, hisStack, hvecSize⟩ := hadds
      refine ⟨_, rfl, 1, s.pad .eight,
        ⟨hvec, hspare, hgrown, htotal, hlist, hisStack, hvecSize⟩, ?_⟩
      change s₁.outputLen - _ = _
      rw [houtput]
      push_cast
      omega
    · obtain ⟨s₁, hs₁, hadds, houtput⟩ := exists_allocate_none fresh h hmax hfits
      rw [hs₁]
      obtain ⟨hvec, hspare, hgrown, htotal, hlist, hisStack, hvecSize⟩ := hadds
      refine ⟨_, rfl, 2, 0, ⟨hvec, hspare, hgrown, htotal, hlist, hisStack, hvecSize⟩, ?_⟩
      change s₁.outputLen - _ = _
      rw [houtput]
      push_cast
      omega
  · obtain ⟨s₁, loc, hs₁, hadds, houtput⟩ :=
      exists_allocate fresh h hmax (hspace.resolve_left hsize)
    obtain ⟨s₂, hs₂, hadds', hentries, houtput'⟩ :=
      exists_pushed _ hadds.vec hadds.spare kept (.tmp loc)
    rw [hs₁, Option.bind_eq_bind, Option.bind_some, if_neg hsize, Option.getD_some, hs₂]
    have hgrown : Adds s s₂ 0 (s.pad .eight + kept) :=
      hadds.trans hadds' (hentries ▸ List.prefix_append _ _)
    obtain ⟨hvec, hspare, hgrown, htotal, hlist, hisStack, hvecSize⟩ := hgrown
    refine ⟨_, rfl, 0, _, ⟨hvec, hspare, hgrown, htotal, hlist, hisStack, hvecSize⟩, ?_⟩
    change s₂.outputLen - _ = _
    rw [houtput', houtput]
    push_cast
    omega

/-- Room for an array without space in the buffer is taken from the length, and its elements are
not in it. -/
theorem subsample_uneven (h : VecSound s.iovec s.mallocVecSize)
    (hmax : s.iovec.count < maxSegments) {size elementSize : Nat} {elements : List Int}
    (hsize : size ≠ 0) (hspace : ¬ s.HasSpace (size + s.pad .eight))
    (hs' : s.subsample fresh size elementSize elements = some s') :
    s'.outputLen + size - Segment.total s'.iovec.entries =
      s.outputLen - Segment.total s.iovec.entries := by
  rw [subsample] at hs'
  dsimp only at hs'
  generalize marshalledCount (signed 4 (unsigned 4 (size / elementSize))) elements *
    elementSize = kept at hs'
  obtain ⟨s₁, hs₁, hadds, houtput⟩ := exists_allocate_none fresh h hmax hspace
  obtain ⟨s₂, hs₂, hadds', hentries, houtput'⟩ :=
    exists_pushed 1 hadds.vec hadds.spare kept (.tmp fresh.offset)
  rw [hs₁, Option.bind_eq_bind, Option.bind_some, if_neg hsize, Option.getD_none, hs₂] at hs'
  cases hs'
  change s₂.outputLen - _ + _ - (Segment.total s₂.iovec.entries : Int) = _
  rw [houtput', houtput, hadds'.total, hadds.total]
  push_cast
  omega

end

namespace EncodeTables

/-! ## The list of addresses -/

/-- The array of addresses has the room that is noted for it. -/
structure AddrSound (t : RoomTable (Nat × Nat)) (isStack : Bool) (size : Nat) : Prop where
  room : t.room = if isStack then stackArraySize else size
  size : isStack = false → 0 < size
  count : t.count ≤ t.room

section

variable {fresh : Fresh} {s s' : EncodeTables}

/-- An address is added, and nothing else of the tables changes. -/
structure AddsAddress (s s' : EncodeTables) : Prop where
  addr : AddrSound s'.addrList s'.addrListIsStack s'.mallocAddrSize
  kept : s.addrList.entries <+: s'.addrList.entries
  iovec : s'.iovec = s.iovec
  mallocVecSize : s'.mallocVecSize = s.mallocVecSize
  outputLen : s'.outputLen = s.outputLen

/-- An address is added where there is room for it. -/
theorem exists_addRoot (h : AddrSound s.addrList s.addrListIsStack s.mallocAddrSize)
    (hspare : s.addrList.count < s.addrList.room) (addr offset : Nat) :
    ∃ s', s.addRoot addr offset = some s' ∧ AddsAddress s s' := by
  obtain ⟨t, ht, hentries, hcount, hroom⟩ := RoomTable.exists_push (addr, offset) hspare
  rw [addRoot, ht]
  refine ⟨s.setAddrList t, rfl, ⟨hroom.trans h.room, h.size, ?_⟩, ?_, rfl, rfl, rfl⟩
  · change t.count ≤ t.room
    omega
  · change s.addrList.entries <+: t.entries
    rw [hentries]
    exact List.prefix_append _ _

/-- The list with room for one more address. -/
def roomForAddr (fresh : Fresh) (s : EncodeTables) : EncodeTables :=
  if s.addrListIsStack then
    if s.addrList.count = stackArraySize then
      { s with
        addrListIsStack := false, mallocAddrSize := 2 * stackArraySize
        addrList := s.addrList.moved fresh.addr (2 * stackArraySize) }
    else s
  else if s.addrList.count = s.mallocAddrSize then
    { s with
      mallocAddrSize := s.mallocAddrSize * 2
      addrList := s.addrList.resized fresh.addr (s.mallocAddrSize * 2) }
  else s

theorem addToAddrList_eq (addr offset : Nat) : s.addToAddrList fresh addr offset =
    if (s.roomForAddr fresh).addrList.count < intMax then
      (s.roomForAddr fresh).addRoot addr offset
    else none := rfl

theorem roomForAddr_spec (fresh : Fresh)
    (h : AddrSound s.addrList s.addrListIsStack s.mallocAddrSize) :
    AddrSound (s.roomForAddr fresh).addrList (s.roomForAddr fresh).addrListIsStack
        (s.roomForAddr fresh).mallocAddrSize ∧
      (s.roomForAddr fresh).addrList.count < (s.roomForAddr fresh).addrList.room ∧
      (s.roomForAddr fresh).addrList.entries = s.addrList.entries ∧
      (s.roomForAddr fresh).addrList.count = s.addrList.count ∧
      (s.roomForAddr fresh).iovec = s.iovec ∧
      (s.roomForAddr fresh).mallocVecSize = s.mallocVecSize ∧
      (s.roomForAddr fresh).outputLen = s.outputLen := by
  obtain ⟨hroom, hsize, hcount⟩ := h
  have hstackSize : stackArraySize = 100 := rfl
  rw [roomForAddr]
  by_cases hstack : s.addrListIsStack
  · rw [if_pos hstack]
    rw [if_pos hstack] at hroom
    by_cases hfull : s.addrList.count = stackArraySize
    · rw [if_pos hfull]
      have hmoved : (s.addrList.moved fresh.addr (2 * stackArraySize)).room = 2 * stackArraySize :=
        RoomTable.room_moved _ hcount (by omega)
      refine ⟨⟨hmoved, fun _ => (by decide : 0 < 2 * stackArraySize), ?_⟩, ?_,
        RoomTable.entries_moved _ _ hcount, rfl, rfl, rfl, rfl⟩
      · rw [hmoved]
        change s.addrList.count ≤ _
        omega
      · rw [hmoved]
        change s.addrList.count < _
        omega
    · rw [if_neg hfull]
      refine ⟨⟨?_, hsize, hcount⟩, by omega, rfl, rfl, rfl, rfl, rfl⟩
      rw [if_pos hstack]
      exact hroom
  · rw [if_neg hstack]
    rw [if_neg hstack] at hroom
    have hpos := hsize (Bool.eq_false_iff.mpr hstack)
    by_cases hfull : s.addrList.count = s.mallocAddrSize
    · rw [if_pos hfull]
      have hle : s.addrList.room ≤ s.mallocAddrSize * 2 := by omega
      have hresized : (s.addrList.resized fresh.addr (s.mallocAddrSize * 2)).room =
          s.mallocAddrSize * 2 := RoomTable.room_resized _ hle
      refine ⟨⟨?_, fun _ => Nat.mul_pos hpos (by decide), ?_⟩, ?_,
        RoomTable.entries_resized _ hcount hle, rfl, rfl, rfl, rfl⟩
      · rw [hresized, if_neg hstack]
      · rw [hresized]
        change s.addrList.count ≤ _
        omega
      · rw [hresized]
        change s.addrList.count < _
        omega
    · rw [if_neg hfull]
      refine ⟨⟨?_, hsize, hcount⟩, by omega, rfl, rfl, rfl, rfl, rfl⟩
      rw [if_neg hstack]
      exact hroom

theorem exists_addToAddrList (fresh : Fresh)
    (h : AddrSound s.addrList s.addrListIsStack s.mallocAddrSize)
    (hmax : s.addrList.count < intMax) (addr offset : Nat) :
    ∃ s', s.addToAddrList fresh addr offset = some s' ∧ AddsAddress s s' := by
  obtain ⟨hsound, hspare, hentries, hcount, hiovec, hsize, houtput⟩ :=
    roomForAddr_spec fresh h
  obtain ⟨s', hs', hadds⟩ := exists_addRoot hsound hspare addr offset
  refine ⟨s', ?_, hadds.addr, hentries ▸ hadds.kept, hadds.iovec.trans hiovec,
    hadds.mallocVecSize.trans hsize, hadds.outputLen.trans houtput⟩
  rw [addToAddrList_eq, if_pos (hcount ▸ hmax)]
  exact hs'

theorem addToAddrList_eq_none (h : AddrSound s.addrList s.addrListIsStack s.mallocAddrSize)
    (hmax : ¬ s.addrList.count < intMax) (addr offset : Nat) :
    s.addToAddrList fresh addr offset = none := by
  rw [addToAddrList_eq]
  apply if_neg
  obtain ⟨-, -, -, hcount, -⟩ := roomForAddr_spec fresh h
  rw [hcount]
  exact hmax

end

end EncodeTables

/-! ## Every encoding -/

/-- The invariant of the tables. -/
structure EncodeTables.Sound (s : EncodeTables) : Prop where
  vec : VecSound s.iovec s.mallocVecSize
  addr : AddrSound s.addrList s.addrListIsStack s.mallocAddrSize
  total : s.outputLen = Segment.total s.iovec.entries

namespace EncodeTables

section

variable {fresh : Fresh} {s s' : EncodeTables}

theorem Sound.addsEvenly (h : s.Sound) (hadds : AddsEvenly s s') : s'.Sound ∧ s.Follows s' := by
  obtain ⟨room, len, hadds, houtput⟩ := hadds
  have htotal : s'.outputLen = Segment.total s'.iovec.entries := by
    rw [houtput, h.total, hadds.total]
    push_cast
    rfl
  have haddr : AddrSound s'.addrList s'.addrListIsStack s'.mallocAddrSize := by
    rw [hadds.addrList, hadds.addrListIsStack, hadds.mallocAddrSize]
    exact h.addr
  refine ⟨⟨hadds.vec, haddr, htotal⟩, hadds.vec.count, haddr.count, hadds.grown, ?_, htotal⟩
  rw [hadds.addrList]

theorem Sound.addsAddress (h : s.Sound) (hadds : AddsAddress s s') : s'.Sound ∧ s.Follows s' := by
  have htotal : s'.outputLen = Segment.total s'.iovec.entries := by
    rw [hadds.outputLen, hadds.iovec]
    exact h.total
  have hvec : VecSound s'.iovec s'.mallocVecSize := by
    rw [hadds.iovec, hadds.mallocVecSize]
    exact h.vec
  refine ⟨⟨hvec, hadds.addr, htotal⟩, hvec.count, hadds.addr.count, grown_of_prefix ?_,
    hadds.kept, htotal⟩
  rw [hadds.iovec]

/-- A call that meets its condition goes well, and keeps the invariant. -/
theorem Sound.place (fresh : Fresh) (h : s.Sound) {placing : Placing} (hfits : placing.Fits s) :
    ∃ s', s.place fresh placing = some s' ∧ s'.Sound ∧ s.Follows s' := by
  cases placing with
  | copy length alignment =>
    obtain ⟨s', hs', hadds⟩ := exists_reserve fresh h.vec hfits.1 hfits.2
    exact ⟨s', hs', h.addsEvenly hadds⟩
  | reserve length alignment =>
    obtain ⟨s', hs', hadds⟩ := exists_reserve fresh h.vec hfits.1 hfits.2
    exact ⟨s', hs', h.addsEvenly hadds⟩
  | leave addr length alignment =>
    obtain ⟨s', hs', hadds⟩ := exists_leave h.vec hfits addr length alignment
    exact ⟨s', hs', h.addsEvenly hadds⟩
  | subsample size elementSize elements =>
    obtain ⟨s', hs', hadds⟩ :=
      exists_subsample fresh h.vec hfits.1 hfits.2 elementSize elements
    exact ⟨s', hs', h.addsEvenly hadds⟩
  | address addr offset =>
    obtain ⟨s', hs', hadds⟩ := exists_addToAddrList fresh h.addr hfits addr offset
    exact ⟨s', hs', h.addsAddress hadds⟩

theorem reserve_fits (h : s.Sound) {length : Nat} {alignment : Alignment}
    (hs' : s.reserveSpaceForDataInTmp fresh length alignment = some s')
    (hfollowed : s'.outputLen = Segment.total s'.iovec.entries) :
    s.iovec.count < maxSegments ∧ (length = 0 ∨ s.HasSpace (length + s.pad alignment)) := by
  have hmax : s.iovec.count < maxSegments := by
    by_contra hmax
    rw [reserveSpaceForDataInTmp, allocate_eq_none h.vec hmax] at hs'
    cases hs'
  refine ⟨hmax, ?_⟩
  by_contra hspace
  obtain ⟨hlength, hspace⟩ := not_or.mp hspace
  obtain ⟨houtput, htotal⟩ := reserve_uneven h.vec hmax hspace hs'
  have hbefore := h.total
  omega

/-- A call behind which the length is that of the segments meets its condition. -/
theorem Sound.fits (h : s.Sound) {placing : Placing} (hs' : s.place fresh placing = some s')
    (hfollowed : s'.outputLen = Segment.total s'.iovec.entries) : placing.Fits s := by
  cases placing with
  | copy length alignment => exact reserve_fits h hs' hfollowed
  | reserve length alignment => exact reserve_fits h hs' hfollowed
  | leave addr length alignment =>
    change s.iovec.count < maxSegments
    by_contra hmax
    change s.addDataIovec fresh addr length alignment = some s' at hs'
    rw [addDataIovec] at hs'
    dsimp only at hs'
    rw [ensure_eq_none h.vec hmax] at hs'
    cases hs'
  | subsample size elementSize elements =>
    change s.subsample fresh size elementSize elements = some s' at hs'
    have hmax : s.iovec.count < maxSegments := by
      by_contra hmax
      rw [subsample] at hs'
      dsimp only at hs'
      rw [allocate_eq_none h.vec hmax] at hs'
      cases hs'
    refine ⟨hmax, ?_⟩
    by_contra hspace
    obtain ⟨hsize, hspace⟩ := not_or.mp hspace
    have hmissing := subsample_uneven h.vec hmax hsize hspace hs'
    have hbefore := h.total
    omega
  | address addr offset =>
    change s.addrList.count < intMax
    by_contra hmax
    cases (addToAddrList_eq_none h.addr hmax addr offset).symm.trans hs'

theorem Sound.fits_iff (h : s.Sound) (placing : Placing) :
    placing.Fits s ↔ ∃ s', s.place fresh placing = some s' ∧ s.Follows s' := by
  constructor
  · intro hfits
    obtain ⟨s', hs', -, hfollows⟩ := h.place fresh hfits
    exact ⟨s', hs', hfollows⟩
  · rintro ⟨s', hs', hfollows⟩
    exact h.fits hs' hfollows.total

end

end EncodeTables

namespace Encoding

variable {fresh : Fresh} {enc : Encoding}

theorem start_sound (fresh : Fresh) (enc : Encoding) : (enc.start fresh).Sound where
  vec := ⟨rfl, .inl rfl, (by decide : 1 ≤ stackArraySize), Nat.one_pos⟩
  addr := ⟨rfl, fun h => (Bool.noConfusion h), Nat.zero_le _⟩
  total := (Int.natCast_inj.mpr (Nat.add_zero _)).symm

theorem exists_record (hfits : enc.record.Fits (enc.start fresh)) :
    ∃ s, (enc.start fresh).place fresh enc.record = some s ∧ AddsEvenly (enc.start fresh) s := by
  have hvec := (enc.start_sound fresh).vec
  rw [record] at hfits ⊢
  cases hleaves : enc.leaves with
  | true =>
    rw [hleaves] at hfits
    exact exists_leave hvec hfits _ _ _
  | false =>
    rw [hleaves] at hfits
    exact exists_reserve fresh hvec hfits.1 hfits.2

/-- The first address has room without a look at it. -/
theorem exists_recorded (hfits : enc.record.Fits (enc.start fresh)) :
    ∃ s, enc.recorded fresh = some s ∧ s.Sound ∧ (enc.start fresh).Follows s := by
  obtain ⟨s, hs, hadds⟩ := exists_record hfits
  obtain ⟨hsound, hfollows⟩ := (enc.start_sound fresh).addsEvenly hadds
  rw [recorded, hs, Option.bind_eq_bind, Option.bind_some]
  by_cases hrecursive : enc.recursive
  · rw [if_pos hrecursive]
    have hspare : s.addrList.count < s.addrList.room := by
      obtain ⟨_, _, hadds, -⟩ := hadds
      rw [hadds.addrList]
      exact (by decide : 0 < stackArraySize)
    obtain ⟨s', hs', hadded⟩ := exists_addRoot hsound.addr hspare enc.data enc.headerSize
    obtain ⟨hsound', hfollows'⟩ := hsound.addsAddress hadded
    refine ⟨s', hs', hsound', hfollows'.iovecRoom, hfollows'.addrRoom, ?_,
      hfollows.addrKept.trans hfollows'.addrKept, hfollows'.total⟩
    rw [hadded.iovec]
    exact hfollows.iovecKept
  · rw [if_neg hrecursive]
    exact ⟨s, rfl, hsound, hfollows⟩

theorem fits_record_of_recorded {s : EncodeTables} (h : enc.recorded fresh = some s)
    (hfollows : (enc.start fresh).Follows s) : enc.record.Fits (enc.start fresh) := by
  obtain ⟨s₁, hs₁, hrest⟩ := Option.bind_eq_some_iff.mp h
  apply (enc.start_sound fresh).fits hs₁
  by_cases hrecursive : enc.recursive
  · rw [if_pos hrecursive] at hrest
    obtain ⟨t, ht, rfl⟩ := Option.map_eq_some_iff.mp hrest
    exact hfollows.total
  · rw [if_neg hrecursive] at hrest
    cases hrest
    exact hfollows.total

/-- Behind the record, the calls that go well are the ones that meet their conditions. -/
theorem runMeets_iff_fits {s : EncodeTables} (h : s.Sound) (placings : List Placing) :
    RunMeets (place fresh) (fun s placing => ∃ s', s.place fresh placing = some s' ∧ s.Follows s')
        s placings ↔
      RunMeets (place fresh) (fun s placing => placing.Fits s) s placings := by
  apply runMeets_congr Sound ?_ ?_ h
  · intro s placing hs
    exact (hs.fits_iff placing).symm
  · intro s placing s' hs hfits hs'
    obtain ⟨s'', hs'', hsound, -⟩ := hs.place fresh hfits
    cases hs'.symm.trans hs''
    exact hsound

end Encoding

/-- The tables of the encoder hold what is added to them, in every encoding in which each block
finds its space and the tables do not get too large, and in no other. -/
theorem encoderTables_right_iff (fresh : Fresh) (enc : Encoding) :
    enc.TablesRight fresh ↔ enc.Fits fresh := by
  constructor
  · rintro ⟨s, hs, hfollows, hmeets⟩
    have hfits := Encoding.fits_record_of_recorded hs hfollows
    obtain ⟨s', hs', hsound, -⟩ := Encoding.exists_recorded hfits
    cases hs.symm.trans hs'
    refine ⟨hfits, fun s' hs'' => ?_⟩
    cases hs.symm.trans hs''
    exact (Encoding.runMeets_iff_fits hsound _).mp hmeets
  · rintro ⟨hfits, hmeets⟩
    obtain ⟨s, hs, hsound, hfollows⟩ := Encoding.exists_recorded hfits
    exact ⟨s, hs, hfollows, (Encoding.runMeets_iff_fits hsound _).mpr (hmeets s hs)⟩

/-- A record of eight bytes behind a header of eight, for storage of `n` bytes. -/
def eightBytes (n : Nat) : Encoding where
  tmpBufferSize := -(n : Int)
  inUseSize := 8
  tmpData := 0
  headerSize := 8
  leaves := false
  recursive := false
  data := 0
  recordLength := 8
  placings := []

/-- Storage of the caller that has room for the header alone. -/
theorem encoderTables_not_right : ¬ ∀ (fresh : Fresh) (enc : Encoding), enc.TablesRight fresh := by
  intro h
  obtain ⟨s, hs, hfollows, -⟩ := h ⟨fun _ => ⟨0, .zeroes⟩, fun _ => (0, 0), 0⟩ (eightBytes 8)
  have hfits := Encoding.fits_record_of_recorded hs hfollows
  have hspace := hfits.2.resolve_left (by decide) (by decide)
  exact absurd hspace (by decide)

end FFS
