import Mathlib.Data.Option.Basic
import FFS.Encode.Structured

/-!
# The state of an encoder beside a reading

The encoder remembers the targets of recursive formats by their addresses, a reading of the value
by the words of the pointers.  In the message the words are offsets, and the same target has the
same number in both.
-/

namespace FFS

open Machine

/-! ## The sizes of a host's format -/

/-- A format of the host. -/
def OnHost (f : FMFormatBody) : Prop := f.byteReversal = false ∧ f.pointerSize = sizeofPointer
deriving Decidable

variable {formats : List FMFormatBody} {f : FMFormatBody} {m m' mem : Mem} {p p' parent : Nat}
  {chain element : List FMTypeDesc}

/-- What a count is made of. -/
theorem countAt_spec {desc : FMTypeDesc} {count : Nat} (h : countAt f m p desc = some count) :
    ∃ control, controlOf f desc = some control ∧
      quickSize (sizeOfInt control.fieldSize) = sizeOfInt control.fieldSize ∧
      count = getValue f.byteReversal
        (m.read (p + sizeOfInt control.fieldOffset) (sizeOfInt control.fieldSize)) := by
  simp only [countAt, Option.bind_eq_bind, Option.bind_eq_some_iff, Option.pure_def,
    Option.some.injEq, Option.guard_eq_some'] at h
  obtain ⟨control, hcontrol, -, hsize, -, -, rfl⟩ := h
  exact ⟨control, hcontrol, by rw [quickSize, if_pos hsize], rfl⟩

theorem dimenSize_of_count (hhost : OnHost f) {desc : FMTypeDesc} {count : Nat}
    (h : dimenCount (countAt f m p) desc = some count) : dimenSize f m p desc = some count := by
  unfold dimenCount at h
  unfold dimenSize
  split
  · next hstatic =>
    rw [if_pos hstatic] at h
    obtain ⟨control, hcontrol, hsize, rfl⟩ := countAt_spec h
    simp only [hcontrol, Option.bind_eq_bind, Option.bind_some, Option.pure_def, quickGetUlong,
      hsize, hhost.1]
    rfl
  · next hstatic => rwa [if_neg hstatic] at h

theorem determineSize_of_sized (hhost : OnHost f) {n : Nat}
    (h : sizeOfChain formats f (countAt f m p) chain = some n) :
    determineSize formats f m p chain = some n := by
  induction chain generalizing n with
  | nil => cases h
  | cons desc next ih =>
    rw [sizeOfChain] at h
    rw [determineSize]
    cases hdesc : desc.type with
    | array =>
      simp only [hdesc, Option.bind_eq_bind, Option.bind_eq_some_iff, Option.pure_def,
        Option.some.injEq] at h ⊢
      obtain ⟨dimen, hdimen, size, hsize, rfl⟩ := h
      exact ⟨dimen, dimenSize_of_count hhost hdimen, size, ih hsize, rfl⟩
    | pointer => simpa only [hdesc] using h
    | string => simpa only [hdesc] using h
    | subformat => simpa only [hdesc] using h
    | simple => simpa only [hdesc] using h

theorem arrayElements_of_elementsOf (hhost : OnHost f) {count : Nat}
    (h : elementsOf (countAt f m p) chain = some (count, element)) :
    arrayElements f m p chain = some (count, element) := by
  induction chain generalizing count with
  | nil => cases h
  | cons desc next ih =>
    rw [arrayElements]
    by_cases hdesc : desc.type = .array
    · obtain ⟨dimen, rest, hdimen, hrest, rfl⟩ := elementsOf_array hdesc h
      simp only [if_pos hdesc, dimenSize_of_count hhost hdimen, ih hrest, Option.bind_eq_bind,
        Option.bind_some, Option.pure_def]
    · obtain ⟨rfl, rfl⟩ := elementsOf_other hdesc h
      rw [if_neg hdesc]

/-- Copies of a record with the same control fields have the same counts. -/
theorem sameCounts_of_controls (h : SameControls f m m' p p' chain) :
    SameCounts (countAt f m p) (countAt f m' p') chain := by
  induction chain with
  | nil => exact trivial
  | cons desc next ih =>
    rw [SameCounts]
    cases hdesc : desc.type with
    | array =>
      refine ⟨?_, ih h.tail⟩
      unfold dimenCount
      split
      · next hstatic =>
        unfold countAt
        cases hcontrol : controlOf f desc with
        | none => rfl
        | some control =>
          have hread := h control (mem_controls_head next hdesc hstatic hcontrol)
          simp only [Option.bind_eq_bind, Option.bind_some]
          by_cases hsize : sizeOfInt control.fieldSize = 1 ∨ sizeOfInt control.fieldSize = 2 ∨
              sizeOfInt control.fieldSize = 4 ∨ sizeOfInt control.fieldSize = 8
          · have hquick : controlSize control = sizeOfInt control.fieldSize := by
              rw [controlSize, quickSize, if_pos hsize]
            rw [hquick] at hread
            rw [hread]
          · simp only [guard, if_neg hsize]
            rfl
      · rfl
    | pointer => exact ih h.tail
    | string => exact trivial
    | subformat => exact trivial
    | simple => exact trivial

/-! ## What was seen -/

theorem Reading.find_spec {r : Reading} {word number : Nat} {kind : Kind}
    (h : r.find word = some (number, kind)) : r.seen[number]? = some (word, kind) := by
  simp only [Reading.find, Option.bind_eq_some_iff, Option.map_eq_some_iff] at h
  obtain ⟨number', hindex, entry, hentry, heq⟩ := h
  cases heq
  obtain ⟨hlt, hword, -⟩ := List.findIdx?_eq_some_iff_getElem.mp hindex
  rw [List.getElem?_eq_getElem hlt] at hentry ⊢
  cases hentry
  rw [← of_decide_eq_true hword]

theorem Reading.find_none {r : Reading} {word : Nat} (h : r.find word = none) :
    word ∉ r.seen.map Prod.fst := by
  intro hmem
  obtain ⟨entry, hentry, hword⟩ := List.mem_map.mp hmem
  unfold Reading.find at h
  cases hindex : r.seen.findIdx? (·.1 = word) with
  | none =>
    have hnot := List.findIdx?_eq_none_iff.mp hindex entry hentry
    simp [hword] at hnot
  | some number =>
    obtain ⟨hlt, -⟩ := List.findIdx?_eq_some_iff_getElem.mp hindex
    rw [hindex, Option.bind_some, List.getElem?_eq_getElem hlt] at h
    cases h

theorem Reading.find_eq_none {r : Reading} {word : Nat} (h : word ∉ r.seen.map Prod.fst) :
    r.find word = none := by
  cases hfind : r.find word with
  | none => rfl
  | some found =>
    have hget := r.find_spec hfind
    exact absurd (List.mem_map_of_mem (List.mem_of_getElem? hget)) h

/-- The number of a word, where no word was seen twice. -/
theorem Reading.find_of_getElem {r : Reading} {word number : Nat} {kind : Kind}
    (hnodup : (r.seen.map Prod.fst).Nodup) (h : r.seen[number]? = some (word, kind)) :
    r.find word = some (number, kind) := by
  cases hfind : r.find word with
  | none => exact absurd (List.mem_map_of_mem (List.mem_of_getElem? h)) (r.find_none hfind)
  | some found =>
    obtain ⟨number', kind'⟩ := found
    have hget := r.find_spec hfind
    have hone : (r.seen.map Prod.fst)[number]? = some word := by rw [List.getElem?_map, h]; rfl
    have htwo : (r.seen.map Prod.fst)[number']? = some word := by rw [List.getElem?_map, hget]; rfl
    have hlt : number < (r.seen.map Prod.fst).length := (List.getElem?_eq_some_iff.mp hone).1
    obtain rfl : number = number' := (List.getElem?_inj hlt hnodup).mp (hone.trans htwo.symm)
    rw [h] at hget
    cases hget
    rfl

/-! ## The encoder -/

/-- A target of a recursive format: its address, its offset in the message and what it is. -/
structure Encoded where
  addr : Nat
  offset : Nat
  kind : Kind

/-- A reading in the memory of the application that has come to some targets. -/
def nativeReading (seen : List Encoded) : Reading := ⟨0, seen.map fun e => (e.addr, e.kind)⟩

/-- A reading of the message that has come as far as an encoder. -/
def messageReading (header : Nat) (s : EncodeState) (seen : List Encoded) : Reading :=
  ⟨s.outputLen - header, seen.map fun e => (e.offset, e.kind)⟩

/-- A state of `FFSencode` that has placed some targets.  The record that is encoded is remembered
besides them. -/
structure Beside (root : Option Nat) (header : Nat) (s : EncodeState) (seen : List Encoded) :
    Prop where
  copyAll : s.copyAll = true
  noLeafCopy : s.noLeafCopy = false
  inUse : s.buf.inUseSize = s.outputLen
  tmp : (tmpEnd s.iovec).isSome = true
  saved : s.savedOffsetDifference = header
  aligned : 8 ∣ header ∧ header < s.outputLen
  addrList : ∃ first, s.addrList = first ++ seen.map (fun e => (e.addr, e.offset)) ∧
    ∀ entry ∈ first, root = some entry.1
  addrs : (seen.map Encoded.addr).Nodup
  offsets : (seen.map Encoded.offset).Nodup
  behind : ∀ e ∈ seen, e.offset ≠ 0 ∧ e.offset + header < s.outputLen
  notRoot : ∀ e ∈ seen, root ≠ some e.addr

namespace Beside

variable {root : Option Nat} {header : Nat} {s : EncodeState} {seen : List Encoded}

theorem entry_of_mem (h : Beside root header s seen) {e : Encoded} (he : e ∈ seen)
    {entry : Nat × Nat} (hentry : entry ∈ s.addrList) (haddr : entry.1 = e.addr) :
    entry.2 = e.offset := by
  obtain ⟨first, heq, hfirst⟩ := h.addrList
  rw [heq] at hentry
  rcases List.mem_append.mp hentry with hmem | hmem
  · exact absurd (haddr ▸ hfirst entry hmem) (h.notRoot e he)
  · obtain ⟨e', he', rfl⟩ := List.mem_map.mp hmem
    rw [List.inj_on_of_nodup_map h.addrs he' he haddr]

/-- The encoder finds the targets that it has placed. -/
theorem search (h : Beside root header s seen) {e : Encoded} (he : e ∈ seen) :
    s.searchAddrList e.addr = some e.offset := by
  obtain ⟨first, heq, -⟩ := h.addrList
  have hmem : (e.addr, e.offset) ∈ s.addrList := by
    rw [heq]
    exact List.mem_append_right first (List.mem_map_of_mem he)
  have hsome : (s.addrList.reverse.find? fun entry => entry.1 = e.addr).isSome = true :=
    List.find?_isSome.mpr ⟨_, List.mem_reverse.mpr hmem, decide_eq_true rfl⟩
  obtain ⟨entry, hentry⟩ := Option.isSome_iff_exists.mp hsome
  have haddr : entry.1 = e.addr := by simpa using List.find?_some hentry
  have hfound := List.mem_reverse.mp (List.mem_of_find?_eq_some hentry)
  rw [EncodeState.searchAddrList, hentry, Option.map_some, h.entry_of_mem he hfound haddr]

/-- It finds no other, but for the record itself. -/
theorem search_none (h : Beside root header s seen) {addr : Nat}
    (hnew : addr ∉ seen.map Encoded.addr) (hroot : root ≠ some addr) :
    s.searchAddrList addr = none := by
  obtain ⟨first, heq, hfirst⟩ := h.addrList
  rw [EncodeState.searchAddrList, Option.map_eq_none_iff, List.find?_eq_none]
  intro entry hentry haddr
  rw [List.mem_reverse, heq] at hentry
  obtain rfl := of_decide_eq_true haddr
  rcases List.mem_append.mp hentry with hmem | hmem
  · exact hroot (hfirst entry hmem)
  · obtain ⟨e, he, rfl⟩ := List.mem_map.mp hmem
    exact hnew (List.mem_map_of_mem he)

theorem put (h : Beside root header s seen) (d n value : Nat) :
    Beside root header (s.quickPutUlong d n value) seen :=
  ⟨h.1, h.2, h.3, h.4, h.5, h.6, h.7, h.8, h.9, h.10, h.11⟩

/-- One more target. -/
theorem remember (h : Beside root header s seen) {e : Encoded}
    (hnew : e.addr ∉ seen.map Encoded.addr) (hroot : root ≠ some e.addr)
    (hoffset : ∀ e' ∈ seen, e'.offset < e.offset) (hpos : e.offset ≠ 0)
    (hbehind : e.offset + header < s.outputLen) :
    Beside root header (s.addToAddrList e.addr e.offset) (seen ++ [e]) := by
  obtain ⟨first, heq, hfirst⟩ := h.addrList
  refine ⟨h.1, h.2, h.3, h.4, h.5, h.6, ⟨first, ?_, hfirst⟩, ?_, ?_, ?_, ?_⟩
  · show s.addrList ++ _ = _
    rw [heq, List.map_append, List.append_assoc]
    rfl
  · rw [List.map_append]
    exact h.addrs.append (List.nodup_singleton _) (List.disjoint_singleton.mpr hnew)
  · rw [List.map_append]
    refine h.offsets.append (List.nodup_singleton _) (List.disjoint_singleton.mpr fun hmem => ?_)
    obtain ⟨e', he', hsame⟩ := List.mem_map.mp hmem
    exact absurd (hoffset e' he') (by omega)
  · intro e' he'
    rcases List.mem_append.mp he' with hmem | hmem
    · exact h.behind e' hmem
    · rw [List.mem_singleton.mp hmem]
      exact ⟨hpos, hbehind⟩
  · intro e' he'
    rcases List.mem_append.mp he' with hmem | hmem
    · exact h.notRoot e' hmem
    · rw [List.mem_singleton.mp hmem]
      exact hroot

/-- A block behind what is in the message. -/
theorem place (h : Beside root header s seen) (block : Block) (addr : Nat) :
    let r := s.placeBlock mem block addr
    Beside root header r.1 seen ∧ Keeps [] s r.1 ∧ r.2.2 = r.2.1 ∧
      r.2.1 = s.outputLen + alignPad block.alignment s.outputLen ∧
      r.1.outputLen = r.2.1 + block.length ∧
      ∀ {k}, k < block.length → r.1.buf.tmpBuffer (r.2.1 + k) = mem (addr + k) := by
  intro r
  have hvisited : Visited s ⟨s.addrList.map Prod.fst, s.blocks⟩ :=
    ⟨h.copyAll, h.noLeafCopy, h.inUse, h.tmp, rfl, rfl⟩
  obtain ⟨hv, hkeeps, hloc, -, hend, hbytes⟩ := @Visited.placeBlock s mem _ hvisited block addr
  obtain ⟨e, he⟩ := Option.isSome_iff_exists.mp h.tmp
  obtain ⟨happended, -, hresult⟩ := @placeBlock_appended mem s e h.copyAll he block addr
  have hle := hkeeps.outputLen
  refine ⟨⟨hv.copyAll, hv.noLeafCopy, hv.inUse, hv.tmp, ?_, ?_, ?_, h.addrs, h.offsets,
    fun e he => ⟨(h.behind e he).1, Nat.lt_of_lt_of_le (h.behind e he).2 hle⟩, h.notRoot⟩, hkeeps,
    hloc, ?_, hend.symm, hbytes⟩
  · rw [happended.setup.saved, h.saved]
  · exact ⟨h.aligned.1, Nat.lt_of_lt_of_le h.aligned.2 hle⟩
  · rw [happended.setup.addrList]
    exact h.addrList
  · rw [show r.2 = _ from hresult]

end Beside

/-- The header ends on a multiple of 8, so that the padding is the one of the message behind it. -/
theorem alignPad_sub {alignment header len : Nat} (h : alignment ∣ header) (hle : header ≤ len) :
    alignPad alignment (len - header) = alignPad alignment len := by
  obtain ⟨k, rfl⟩ := h
  obtain ⟨rest, rfl⟩ := Nat.exists_eq_add_of_le hle
  rw [alignPad, alignPad, Nat.add_sub_cancel_left, Nat.mul_add_mod]

end FFS
