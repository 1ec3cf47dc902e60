import FFS.Encode.Vectors

/-!
# What is copied to the buffer

The addresses in a vector are those of a buffer that may move.  The vector is followed through
each loop as the list of its entries, next to what the buffer keeps when it moves: everything
that is in use, at the same distance from its beginning.
-/

namespace FFS

open Machine

structure FFSEncodeVec where
  iovBase : Nat
  iovLen : Nat
deriving DecidableEq

/-- The bytes of a table with its last entry. -/
def tableSize (n : Nat) : Nat := sizeofFFSEncodeVec * (n + 1)

/-- The table at an address. -/
structure Table (p : Process) (vec : Nat) (segments : List FFSEncodeVec) : Prop where
  entry : ∀ {i : Nat} {s : FFSEncodeVec}, segments[i]? = some s →
    p.iovBase vec i = s.iovBase ∧ p.iovLen vec i = s.iovLen
  last : p.iovBase vec segments.length = 0

variable {p q : Process} {vec vec' : Nat} {segments segments' : List FFSEncodeVec}

theorem lt_length_of_getElem? {α : Type} {l : List α} {i : Nat} {a : α} (h : l[i]? = some a) :
    i < l.length := (List.getElem?_eq_some_iff.mp h).1

theorem read_eq_of_shift {m m' : Mem} {v v' n k len : Nat}
    (h : ∀ k < n, m' (v' + k) = m (v + k)) (hk : k + len ≤ n) :
    m'.read (v' + k) len = m.read (v + k) len := by
  refine List.map_congr_left fun x hx => ?_
  have hx := List.mem_range.mp hx
  rw [Nat.add_assoc, Nat.add_assoc]
  exact h (k + x) (by omega)

/-- A table that was moved. -/
theorem Table.moved (h : Table p vec segments)
    (hsame : ∀ k < tableSize segments.length, q.mem (vec' + k) = p.mem (vec + k)) :
    Table q vec' segments := by
  unfold tableSize sizeofFFSEncodeVec at hsame
  have hbase : ∀ i ≤ segments.length, q.iovBase vec' i = p.iovBase vec i := by
    intro i hi
    refine congrArg leValue (read_eq_of_shift hsame ?_)
    unfold sizeofFFSEncodeVec
    omega
  have hlen : ∀ i < segments.length, q.iovLen vec' i = p.iovLen vec i := by
    intro i hi
    unfold Process.iovLen sizeofFFSEncodeVec
    rw [Nat.add_assoc, Nat.add_assoc]
    exact congrArg leValue (read_eq_of_shift hsame (by omega))
  refine ⟨fun {i s} hs => ?_, ?_⟩
  · have hi := lt_length_of_getElem? hs
    rw [hbase i (Nat.le_of_lt hi), hlen i hi]
    exact h.entry hs
  · rw [hbase _ (Nat.le_refl _), h.last]

/-- A table has one list of entries. -/
theorem Table.unique (h : Table p vec segments) (h' : Table p vec segments')
    (hlength : segments'.length = segments.length) : segments' = segments := by
  refine List.ext_getElem? fun i => ?_
  by_cases hi : i < segments.length
  · have hs := List.getElem?_eq_getElem hi
    have hs' := List.getElem?_eq_getElem (hlength ▸ hi)
    obtain ⟨hbase, hlen⟩ := h.entry hs
    obtain ⟨hbase', hlen'⟩ := h'.entry hs'
    rw [hs, hs', Option.some.injEq]
    cases hfirst : segments[i]
    cases hsecond : segments'[i]
    simp only [hfirst, hsecond] at hbase hlen hbase' hlen'
    rw [FFSEncodeVec.mk.injEq]
    exact ⟨hbase'.symm.trans hbase, hlen'.symm.trans hlen⟩
  · rw [List.getElem?_eq_none (by omega), List.getElem?_eq_none (by omega)]

/-- The table with one address changed. -/
theorem Table.set (h : Table p vec segments) {i value : Nat} {s : FFSEncodeVec}
    (hs : segments[i]? = some s) (hvalue : value < 2 ^ 64) :
    Table (p.setIovBase vec i value) vec (segments.set i { s with iovBase := value }) := by
  have hi := lt_length_of_getElem? hs
  have hother : ∀ {j}, j ≠ i → (p.setIovBase vec i value).iovBase vec j = p.iovBase vec j := by
    intro j hj
    refine congrArg leValue (Mem.read_write_of_disjoint ?_)
    rw [length_leBytes]
    unfold sizeofFFSEncodeVec
    omega
  have hlen : ∀ j, (p.setIovBase vec i value).iovLen vec j = p.iovLen vec j := by
    intro j
    refine congrArg leValue (Mem.read_write_of_disjoint ?_)
    rw [length_leBytes]
    unfold sizeofFFSEncodeVec
    omega
  have hself : (p.setIovBase vec i value).iovBase vec i = value := by
    unfold Process.iovBase Process.setIovBase
    rw [Mem.read_write_of_length (length_leBytes 8 value), leValue_leBytes]
    exact Nat.mod_eq_of_lt hvalue
  refine ⟨fun {j t} ht => ?_, ?_⟩
  · rw [List.getElem?_set] at ht
    by_cases hj : i = j
    · subst hj
      rw [if_pos rfl, if_pos hi] at ht
      cases ht
      exact ⟨hself, (hlen i).trans (h.entry hs).2⟩
    · rw [if_neg hj] at ht
      rw [hother (Ne.symm hj), hlen]
      exact h.entry ht
  · rw [List.length_set, hother (by omega), h.last]

/-! ## Growing -/

/-- A block is placed behind the numbers up to its size, which are not addresses, and beside
what the application uses. -/
structure Allocator.Sound (a : Allocator) (live : Nat → Prop) (bound : Nat) : Prop where
  high : ∀ p size, 0 < size → size ≤ bound → size + 1 < a.place p size
  low : ∀ p size, 0 < size → size ≤ bound → a.place p size + size < 2 ^ 63
  live : ∀ p size, 0 < size → size ≤ bound → ∀ x, live x →
    x < a.place p size ∨ a.place p size + size ≤ x

/-- A buffer beside what the application uses. -/
structure Process.Apart (p : Process) (live : Nat → Prop) : Prop where
  high : p.tmpBufferSize ≠ 0 → p.tmpBufferSize + 1 < p.tmpBuffer
  low : p.tmpBuffer + p.tmpBufferSize < 2 ^ 63
  used : p.tmpBufferInUseSize ≤ p.tmpBufferSize
  live : ∀ x, live x → x < p.tmpBuffer ∨ p.tmpBuffer + p.tmpBufferSize ≤ x

variable {a : Allocator} {live : Nat → Prop} {bound : Nat}

/-- The buffer after an addition of `size` bytes. -/
structure Added (p q : Process) (live : Nat → Prop) (size : Nat) : Prop where
  stays : size + p.tmpBufferInUseSize ≤ p.tmpBufferSize → q.tmpBuffer = p.tmpBuffer
  inUse : q.tmpBufferInUseSize = size + p.tmpBufferInUseSize
  size : q.tmpBufferSize = max p.tmpBufferSize (size + p.tmpBufferInUseSize)
  apart : q.Apart live
  live : ∀ x, live x → q.mem x = p.mem x
  kept : ∀ k < p.tmpBufferSize, q.mem (q.tmpBuffer + k) = p.mem (p.tmpBuffer + k)

theorem added_of_sound (hsound : a.Sound live bound) (h : p.Apart live) {size : Nat}
    (hpos : 0 < size + p.tmpBufferInUseSize) (hbound : size + p.tmpBufferInUseSize ≤ bound) :
    Added p (p.addToTmpBuffer a size).1 live size := by
  unfold Process.addToTmpBuffer
  generalize hneeded : size + p.tmpBufferInUseSize = needed at *
  by_cases hgrow : p.tmpBufferSize < needed
  · simp only [if_pos hgrow]
    have hhigh := hsound.high p needed hpos hbound
    have hlow := hsound.low p needed hpos hbound
    have hlive := hsound.live p needed hpos hbound
    constructor
    case inUse => exact hneeded.symm
    case size => rw [hneeded]; exact (Nat.max_eq_right (Nat.le_of_lt hgrow)).symm
    case apart => exact ⟨fun _ => hhigh, hlow, Nat.le_refl _, hlive⟩
    case live =>
      intro x hx
      have hnew := hlive x hx
      have hold := h.live x hx
      simp only [Process.realloc]
      rw [if_neg (by omega), if_neg (by omega)]
    case kept =>
      intro k hk
      simp only [Process.realloc]
      rw [if_pos (by omega), Nat.add_sub_cancel_left]
    case stays =>
      intro hstays
      omega
  · simp only [if_neg hgrow]
    rw [if_neg (by omega)]
    refine ⟨fun _ => rfl, hneeded.symm, ?_, ⟨h.high, h.low, Nat.le_of_not_lt hgrow, h.live⟩,
      fun _ _ => rfl, fun _ _ => rfl⟩
    rw [hneeded]
    exact (Nat.max_eq_left (Nat.le_of_not_lt hgrow)).symm

/-! ## The loops -/

/-- The first `i` entries of one list and the others of another. -/
def blend (i : Nat) (before after : List FFSEncodeVec) : List FFSEncodeVec :=
  after.take i ++ before.drop i

variable {before after : List FFSEncodeVec}

theorem length_blend {i : Nat} (h : after.length = before.length) :
    (blend i before after).length = before.length := by
  rw [blend, List.length_append, List.length_take, List.length_drop]
  omega

theorem blend_zero : blend 0 before after = before := rfl

theorem blend_length (h : after.length = before.length) :
    blend before.length before after = after := by
  rw [blend, List.drop_length, List.append_nil, ← h, List.take_length]

theorem getElem?_blend {i : Nat} (hi : i < before.length) (h : after.length = before.length) :
    (blend i before after)[i]? = before[i]? := by
  rw [blend, List.getElem?_append_right (by rw [List.length_take]; omega), List.length_take,
    List.getElem?_drop]
  congr 1
  omega

theorem blend_succ {i : Nat} {s : FFSEncodeVec} (hs : after[i]? = some s)
    (h : after.length = before.length) :
    blend (i + 1) before after = (blend i before after).set i s := by
  have hi := lt_length_of_getElem? hs
  refine List.ext_getElem? fun j => ?_
  rw [List.getElem?_set, length_blend h]
  unfold blend
  by_cases hj : i = j
  · subst hj
    rw [if_pos rfl, if_pos (h ▸ hi), List.getElem?_append_left (by rw [List.length_take]; omega),
      List.getElem?_take_of_lt (by omega), hs]
  · rw [if_neg hj]
    by_cases hlt : j < i
    · rw [List.getElem?_append_left (by rw [List.length_take]; omega),
        List.getElem?_append_left (by rw [List.length_take]; omega),
        List.getElem?_take_of_lt (by omega), List.getElem?_take_of_lt hlt]
    · rw [List.getElem?_append_right (by rw [List.length_take]; omega),
        List.getElem?_append_right (by rw [List.length_take]; omega), List.length_take,
        List.length_take, List.getElem?_drop, List.getElem?_drop]
      congr 1
      omega

theorem blend_succ_of_eq {i : Nat} (h : after.length = before.length)
    (hsame : before[i]? = after[i]?) : blend (i + 1) before after = blend i before after := by
  cases hs : after[i]? with
  | none =>
    have hlength := List.getElem?_eq_none_iff.mp hs
    rw [blend, blend, List.take_of_length_le hlength, List.take_of_length_le (by omega),
      List.drop_of_length_le (by omega), List.drop_of_length_le (by omega)]
  | some s =>
    have hi := lt_length_of_getElem? hs
    rw [blend_succ hs h]
    refine List.ext_getElem? fun j => ?_
    rw [List.getElem?_set]
    by_cases hj : i = j
    · subst hj
      rw [if_pos rfl, if_pos (by rw [length_blend h]; omega), getElem?_blend (by omega) h, hsame,
        hs]
    · rw [if_neg hj]

/-- The same process but for a table with `n` entries. -/
structure Rewritten (p q : Process) (vec n : Nat) : Prop where
  tmpBuffer : q.tmpBuffer = p.tmpBuffer
  size : q.tmpBufferSize = p.tmpBufferSize
  inUse : q.tmpBufferInUseSize = p.tmpBufferInUseSize
  mem : ∀ x, x < vec ∨ vec + tableSize n ≤ x → q.mem x = p.mem x

theorem Rewritten.refl (p : Process) (vec n : Nat) : Rewritten p p vec n :=
  ⟨rfl, rfl, rfl, fun _ _ => rfl⟩

theorem Rewritten.setIovBase {n i : Nat} (h : Rewritten p q vec n) (hi : i < n) (value : Nat) :
    Rewritten p (q.setIovBase vec i value) vec n := by
  refine ⟨h.tmpBuffer, h.size, h.inUse, fun x hx => (Mem.write_outside ?_).trans (h.mem x hx)⟩
  rw [length_leBytes]
  unfold tableSize sizeofFFSEncodeVec at *
  omega

/-- What one round of a loop that only changes addresses leaves behind. -/
structure Rewriting (p : Process) (off i : Nat) (before after : List FFSEncodeVec)
    (s : CopyAll) : Prop where
  offset : s.vecOffset = off
  rewritten : Rewritten p s.process (p.tmpBuffer + off) before.length
  table : Table s.process (p.tmpBuffer + off) (blend i before after)

theorem Rewriting.vec_eq {off i : Nat} {s : CopyAll}
    (h : Rewriting p off i before after s) : s.vec = p.tmpBuffer + off := by
  rw [CopyAll.vec, h.offset, h.rewritten.tmpBuffer]

/-- One entry more. -/
theorem Rewriting.step {off i : Nat} {s : CopyAll}
    (h : Rewriting p off i before after s) (hlength : after.length = before.length)
    {e e' : FFSEncodeVec} (he : before[i]? = some e) (he' : after[i]? = some e')
    (hlen : e'.iovLen = e.iovLen) (hsmall : e'.iovBase < 2 ^ 64) (alreadyIn : List Bool) :
    Rewriting p off (i + 1) before after
      { s with process := s.process.setIovBase s.vec i e'.iovBase, alreadyIn } := by
  have hi := lt_length_of_getElem? he
  rw [h.vec_eq]
  refine ⟨h.offset, h.rewritten.setIovBase hi _, ?_⟩
  rw [blend_succ he' hlength]
  have hset := h.table.set ((getElem?_blend hi hlength).trans he) hsmall
  have hentry : { e with iovBase := e'.iovBase } = e' := by
    cases e
    cases e'
    cases hlen
    rfl
  rw [hentry] at hset
  exact hset

/-- An entry that stays as it is. -/
theorem Rewriting.skip {off i : Nat} {s : CopyAll}
    (h : Rewriting p off i before after s) (hlength : after.length = before.length)
    {e : FFSEncodeVec} (he : before[i]? = some e) (he' : after[i]? = some e)
    (alreadyIn : List Bool) :
    Rewriting p off (i + 1) before after { s with alreadyIn } := by
  have hi := lt_length_of_getElem? he
  refine ⟨h.offset, h.rewritten, ?_⟩
  rw [blend_succ_of_eq hlength (he.trans he'.symm)]
  exact h.table

/-- What the loop reads of its entry. -/
theorem Rewriting.entry {off i : Nat} {s : CopyAll} (h : Rewriting p off i before after s)
    (hlength : after.length = before.length) {e : FFSEncodeVec} (he : before[i]? = some e) :
    s.process.iovBase s.vec i = e.iovBase ∧ s.process.iovLen s.vec i = e.iovLen := by
  have hi := lt_length_of_getElem? he
  rw [h.vec_eq]
  exact h.table.entry ((getElem?_blend hi hlength).trans he)

theorem Rewriting.more {off i : Nat} {s : CopyAll} (h : Rewriting p off i before after s)
    (hlength : after.length = before.length) (hbase : ∀ e ∈ before, e.iovBase ≠ 0)
    (hi : i < before.length) : s.more i = true := by
  have he := List.getElem?_eq_getElem hi
  rw [CopyAll.more, (h.entry hlength he).1]
  exact bne_iff_ne.mpr (hbase _ (List.mem_of_getElem? he))

theorem Rewriting.not_more {off : Nat} {s : CopyAll}
    (h : Rewriting p off before.length before after s) (hlength : after.length = before.length) :
    s.more before.length = false := by
  have hlast := h.table.last
  rw [length_blend hlength] at hlast
  rw [CopyAll.more, h.vec_eq, hlast]
  rfl

/-- An entry behind the first loop. -/
def remapped (p : Process) (s : FFSEncodeVec) : FFSEncodeVec :=
  if p.inBuffer s.iovBase then { s with iovBase := s.iovBase - p.tmpBuffer + 1 } else s

theorem iovBase_lt (p : Process) (vec i : Nat) : p.iovBase vec i < 2 ^ 64 := by
  have hlt := leValue_lt (p.mem.read (vec + sizeofFFSEncodeVec * i) 8)
  rw [Mem.length_read] at hlt
  exact hlt

theorem Table.iovBase_lt (h : Table p vec segments) {i : Nat} {s : FFSEncodeVec}
    (hs : segments[i]? = some s) : s.iovBase < 2 ^ 64 := by
  rw [← (h.entry hs).1]
  exact FFS.iovBase_lt p vec i

theorem Rewritten.inBuffer {n : Nat} (h : Rewritten p q vec n) (addr : Nat) :
    q.inBuffer addr = p.inBuffer addr := by
  rw [Process.inBuffer, Process.inBuffer, h.tmpBuffer, h.size]

/-- The first loop before its entry `i`. -/
structure Remapping (p : Process) (segments : List FFSEncodeVec) (off i : Nat) (s : CopyAll) :
    Prop where
  rewriting : Rewriting p off i segments (segments.map (remapped p)) s
  alreadyIn : s.alreadyIn = (segments.take i).map fun s => p.inBuffer s.iovBase

theorem Remapping.step {off i : Nat} {s : CopyAll} (h : Remapping p segments off i s)
    (hhigh : 0 < p.tmpBuffer) (htable : Table p (p.tmpBuffer + off) segments)
    (hi : i < segments.length) : Remapping p segments off (i + 1) (s.remap i) := by
  obtain ⟨hrewriting, halready⟩ := h
  have hlength : (segments.map (remapped p)).length = segments.length := List.length_map ..
  have he := List.getElem?_eq_getElem hi
  have he' : (segments.map (remapped p))[i]? = some (remapped p segments[i]) := by
    rw [List.getElem?_map, he]
    rfl
  have hread := (hrewriting.entry hlength he).1
  have hadded : s.alreadyIn ++ [p.inBuffer segments[i].iovBase] =
      (segments.take (i + 1)).map fun s => p.inBuffer s.iovBase := by
    rw [halready, List.take_add_one, he, List.map_append]
    rfl
  unfold CopyAll.remap
  simp only [hread, hrewriting.rewritten.inBuffer, hrewriting.rewritten.tmpBuffer]
  refine ⟨?_, hadded⟩
  by_cases hinside : p.inBuffer segments[i].iovBase = true
  · rw [if_pos hinside]
    have hsmall := htable.iovBase_lt he
    have hstep := hrewriting.step hlength he he' (by rw [remapped, if_pos hinside])
      (by rw [remapped, if_pos hinside]; simp only; omega)
      (s.alreadyIn ++ [p.inBuffer segments[i].iovBase])
    rwa [remapped, if_pos hinside] at hstep
  · rw [if_neg hinside]
    exact hrewriting.skip hlength he (he'.trans (by rw [remapped, if_neg hinside])) _

/-- The first loop. -/
theorem remap_loop {off fuel : Nat} (htable : Table p (p.tmpBuffer + off) segments)
    (hbase : ∀ s ∈ segments, s.iovBase ≠ 0) (hhigh : 0 < p.tmpBuffer)
    (hfuel : segments.length < fuel) :
    ∃ s, forWhile CopyAll.more CopyAll.remap fuel
        { process := p, vecOffset := off, alreadyIn := [] } 0 = some (s, segments.length) ∧
      Remapping p segments off segments.length s := by
  have hlength : (segments.map (remapped p)).length = segments.length := List.length_map ..
  refine forWhile_spec (Remapping p segments off)
    (fun i hi s hs => hs.rewriting.more hlength hbase hi)
    (fun i hi s hs => hs.step hhigh htable hi) (fun s hs => hs.rewriting.not_more hlength)
    (Nat.zero_le _) hfuel ⟨⟨rfl, Rewritten.refl p _ _, htable⟩, rfl⟩

/-- An entry behind the last loop. -/
def unmapped (p : Process) (s : FFSEncodeVec) : FFSEncodeVec :=
  if s.iovBase ≤ p.tmpBufferSize then { s with iovBase := s.iovBase + p.tmpBuffer - 1 } else s

theorem Rewriting.unmap {off i : Nat} {s : CopyAll}
    (h : Rewriting p off i segments (segments.map (unmapped p)) s)
    (hbase : ∀ s ∈ segments, s.iovBase ≠ 0) (hlow : p.tmpBuffer + p.tmpBufferSize < 2 ^ 63)
    (hi : i < segments.length) :
    Rewriting p off (i + 1) segments (segments.map (unmapped p)) (s.unmap i) := by
  have hlength : (segments.map (unmapped p)).length = segments.length := List.length_map ..
  have he := List.getElem?_eq_getElem hi
  have he' : (segments.map (unmapped p))[i]? = some (unmapped p segments[i]) := by
    rw [List.getElem?_map, he]
    rfl
  have hpos := hbase _ (List.mem_of_getElem? he)
  unfold CopyAll.unmap
  simp only [(h.entry hlength he).1, h.rewritten.size, h.rewritten.tmpBuffer]
  by_cases hmark : segments[i].iovBase ≤ p.tmpBufferSize
  · have hsigned : signed 8 segments[i].iovBase = segments[i].iovBase :=
      signed_of_lt (by omega)
    rw [if_pos ⟨by rw [hsigned]; omega, hmark⟩]
    have hstep := h.step hlength he he' (by rw [unmapped, if_pos hmark])
      (by rw [unmapped, if_pos hmark]; simp only; omega) s.alreadyIn
    rwa [unmapped, if_pos hmark] at hstep
  · rw [if_neg (fun hand => hmark hand.2)]
    exact h.skip hlength he (he'.trans (by rw [unmapped, if_neg hmark])) s.alreadyIn

/-- The last loop. -/
theorem unmap_loop {off fuel : Nat} {alreadyIn : List Bool}
    (htable : Table p (p.tmpBuffer + off) segments) (hbase : ∀ s ∈ segments, s.iovBase ≠ 0)
    (hlow : p.tmpBuffer + p.tmpBufferSize < 2 ^ 63) (hfuel : segments.length < fuel) :
    ∃ s, forWhile CopyAll.more CopyAll.unmap fuel
        { process := p, vecOffset := off, alreadyIn } 0 = some (s, segments.length) ∧
      Rewriting p off segments.length segments (segments.map (unmapped p)) s := by
  have hlength : (segments.map (unmapped p)).length = segments.length := List.length_map ..
  exact forWhile_spec (fun i s => Rewriting p off i segments (segments.map (unmapped p)) s)
    (fun i hi s hs => hs.more hlength hbase hi) (fun i hi s hs => hs.unmap hbase hlow hi)
    (fun s hs => hs.not_more hlength) (Nat.zero_le _) hfuel ⟨rfl, Rewritten.refl p _ _, htable⟩

/-! ## The loop that copies -/

/-- The segments outside the buffer. -/
def external (p : Process) (segments : List FFSEncodeVec) : List FFSEncodeVec :=
  segments.filter fun s => !p.inBuffer s.iovBase

def totalLen (segments : List FFSEncodeVec) : Nat := (segments.map FFSEncodeVec.iovLen).sum

/-- What is in use of the buffer when the loop comes to entry `i`. -/
def usedAt (p : Process) (segments : List FFSEncodeVec) (i : Nat) : Nat :=
  p.tmpBufferInUseSize + totalLen (external p (segments.take i))

theorem external_append (p : Process) (segments segments' : List FFSEncodeVec) :
    external p (segments ++ segments') = external p segments ++ external p segments' :=
  List.filter_append ..

theorem totalLen_append (segments segments' : List FFSEncodeVec) :
    totalLen (segments ++ segments') = totalLen segments + totalLen segments' := by
  rw [totalLen, List.map_append, List.sum_append]
  rfl

theorem usedAt_succ {i : Nat} {s : FFSEncodeVec} (hs : segments[i]? = some s) :
    usedAt p segments (i + 1) =
      usedAt p segments i + if p.inBuffer s.iovBase then 0 else s.iovLen := by
  have hone : totalLen (external p [s]) = if p.inBuffer s.iovBase then 0 else s.iovLen := by
    cases hinside : p.inBuffer s.iovBase <;> simp [totalLen, external, hinside]
  rw [usedAt, usedAt, List.take_add_one, hs, Option.toList_some, external_append,
    totalLen_append, hone, Nat.add_assoc]

theorem usedAt_le_succ (p : Process) (segments : List FFSEncodeVec) (i : Nat) :
    usedAt p segments i ≤ usedAt p segments (i + 1) := by
  cases hs : segments[i]? with
  | some s =>
    rw [usedAt_succ hs]
    exact Nat.le_add_right _ _
  | none =>
    have hlength := List.getElem?_eq_none_iff.mp hs
    rw [usedAt, usedAt, List.take_of_length_le hlength, List.take_of_length_le (by omega)]

theorem usedAt_mono {i j : Nat} (h : i ≤ j) : usedAt p segments i ≤ usedAt p segments j := by
  induction h with
  | refl => exact Nat.le_refl _
  | step _ ih => exact Nat.le_trans ih (usedAt_le_succ p segments _)

/-- Where the loop that copies puts a segment, as an offset in the buffer. -/
def finalOffset (p : Process) (segments : List FFSEncodeVec) (i : Nat) (s : FFSEncodeVec) : Nat :=
  if p.inBuffer s.iovBase then s.iovBase - p.tmpBuffer else usedAt p segments i

theorem finalOffset_inside {i : Nat} {s : FFSEncodeVec} (h : p.inBuffer s.iovBase = true) :
    finalOffset p segments i s = s.iovBase - p.tmpBuffer := if_pos h

theorem finalOffset_outside {i : Nat} {s : FFSEncodeVec} (h : p.inBuffer s.iovBase = false) :
    finalOffset p segments i s = usedAt p segments i := by
  rw [finalOffset, h, if_neg Bool.false_ne_true]

/-- The entries behind the loop that copies: the offset in the buffer, plus one. -/
def collected (p : Process) (segments : List FFSEncodeVec) : List FFSEncodeVec :=
  segments.mapIdx fun i s => { s with iovBase := finalOffset p segments i s + 1 }

theorem length_collected : (collected p segments).length = segments.length :=
  List.length_mapIdx

theorem getElem?_collected {i : Nat} {s : FFSEncodeVec} (hs : segments[i]? = some s) :
    (collected p segments)[i]? = some { s with iovBase := finalOffset p segments i s + 1 } := by
  rw [collected, List.getElem?_mapIdx, hs]
  rfl

/-- The loop that copies before its entry `i`. -/
structure Collecting (p : Process) (segments : List FFSEncodeVec) (live : Nat → Prop)
    (off i : Nat) (s : CopyAll) : Prop where
  offset : s.vecOffset = off
  alreadyIn : s.alreadyIn = segments.map fun s => p.inBuffer s.iovBase
  inUse : s.process.tmpBufferInUseSize = usedAt p segments i
  size : s.process.tmpBufferSize = max p.tmpBufferSize (usedAt p segments i)
  apart : s.process.Apart live
  live : ∀ x, live x → s.process.mem x = p.mem x
  table : Table s.process (s.process.tmpBuffer + off)
    (blend i (segments.map (remapped p)) (collected p segments))
  kept : ∀ k < p.tmpBufferInUseSize, k < off ∨ off + tableSize segments.length ≤ k →
    s.process.mem (s.process.tmpBuffer + k) = p.mem (p.tmpBuffer + k)
  copied : ∀ j < i, ∀ e, segments[j]? = some e → p.inBuffer e.iovBase = false →
    ∀ k < e.iovLen, s.process.mem (s.process.tmpBuffer + usedAt p segments j + k) =
      p.mem (e.iovBase + k)

/-- A vector in the buffer, with what the application uses outside of it. -/
structure Held (p : Process) (segments : List FFSEncodeVec) (live : Nat → Prop) (off : Nat) :
    Prop where
  inUse : off + tableSize segments.length ≤ p.tmpBufferInUseSize
  live : ∀ e ∈ segments, p.inBuffer e.iovBase = false → ∀ k < e.iovLen, live (e.iovBase + k)

variable {off : Nat}

theorem le_usedAt (p : Process) (segments : List FFSEncodeVec) (i : Nat) :
    p.tmpBufferInUseSize ≤ usedAt p segments i := Nat.le_add_right _ _

/-- A segment behind what is in use, and its entry. -/
def Process.append (q : Process) (off i used : Nat) (e : FFSEncodeVec) : Process :=
  (q.memcpy (q.tmpBuffer + used) e.iovBase e.iovLen).setIovBase (q.tmpBuffer + off) i (used + 1)

theorem append_mem {i used x : Nat} {e : FFSEncodeVec}
    (hentry : x < q.tmpBuffer + off + 16 * i ∨ q.tmpBuffer + off + 16 * i + 8 ≤ x)
    (hdata : x < q.tmpBuffer + used ∨ q.tmpBuffer + used + e.iovLen ≤ x) :
    (q.append off i used e).mem x = q.mem x := by
  unfold Process.append Process.setIovBase Process.memcpy sizeofFFSEncodeVec
  simp only
  rw [Mem.write_outside (by rw [length_leBytes]; exact hentry),
    Mem.write_outside (by rw [Mem.length_read]; exact hdata)]

theorem append_data {i used k n : Nat} {e : FFSEncodeVec} (hi : i < n)
    (hused : off + tableSize n ≤ used) (hk : k < e.iovLen) :
    (q.append off i used e).mem (q.tmpBuffer + used + k) = q.mem (e.iovBase + k) := by
  unfold tableSize sizeofFFSEncodeVec at hused
  unfold Process.append Process.setIovBase Process.memcpy sizeofFFSEncodeVec
  simp only
  rw [Mem.write_outside (by rw [length_leBytes]; omega),
    Mem.write_inside (by omega) (by rw [Mem.length_read]; omega), Nat.add_sub_cancel_left,
    List.getD_eq_getElem _ _ (by rw [Mem.length_read]; exact hk), Mem.getElem_read]

theorem append_table {i used : Nat} {e : FFSEncodeVec} {entries : List FFSEncodeVec}
    (h : Table q (q.tmpBuffer + off) entries) (he : entries[i]? = some e)
    (hused : off + tableSize entries.length ≤ used) (hsmall : used + 1 < 2 ^ 64) :
    Table (q.append off i used e) (q.tmpBuffer + off)
      (entries.set i { e with iovBase := used + 1 }) := by
  refine Table.set (h.moved fun k hk => ?_) he hsmall
  refine Mem.write_outside ?_
  rw [Mem.length_read]
  omega

/-- A segment outside is copied, after the buffer has grown for it. -/
theorem Collecting.copyExternal_eq {i : Nat} {s : CopyAll} {e : FFSEncodeVec}
    (h : Collecting p segments live off i s) (he : segments[i]? = some e)
    (hout : p.inBuffer e.iovBase = false)
    (hbefore : s.process.iovLen (s.process.tmpBuffer + off) i = e.iovLen)
    (hafter : Table (s.process.addToTmpBuffer a e.iovLen).1
      ((s.process.addToTmpBuffer a e.iovLen).1.tmpBuffer + off)
      (blend i (segments.map (remapped p)) (collected p segments)))
    (hentry : (blend i (segments.map (remapped p)) (collected p segments))[i]? = some e) :
    s.copyExternal a i =
      { s with process :=
        (s.process.addToTmpBuffer a e.iovLen).1.append off i (usedAt p segments i) e } := by
  have halready : s.alreadyIn[i]? = some false := by
    rw [h.alreadyIn, List.getElem?_map, he, Option.map_some, hout]
  obtain ⟨hbase, hlen⟩ := hafter.entry hentry
  unfold CopyAll.copyExternal CopyAll.vec Process.append
  rw [if_pos halready, h.offset, hbefore, ← h.inUse]
  simp only [hbase, hlen]
  rfl

theorem tableSize_pos (n : Nat) : 0 < tableSize n := by
  unfold tableSize sizeofFFSEncodeVec
  omega

/-- One entry more of the segments outside. -/
theorem Collecting.external {i : Nat} {s : CopyAll} {e : FFSEncodeVec}
    (hp : Held p segments live off) (hsound : a.Sound live bound)
    (hbound : usedAt p segments segments.length ≤ bound)
    (h : Collecting p segments live off i s) (he : segments[i]? = some e)
    (hout : p.inBuffer e.iovBase = false) :
    Collecting p segments live off (i + 1) (s.copyExternal a i) := by
  have hi := lt_length_of_getElem? he
  have hin := hp.inUse
  have hstart := le_usedAt p segments i
  have hpos := tableSize_pos segments.length
  have hsucc := usedAt_succ (p := p) he
  rw [hout, if_neg Bool.false_ne_true] at hsucc
  have hmono : usedAt p segments (i + 1) ≤ usedAt p segments segments.length :=
    usedAt_mono (Nat.succ_le_of_lt hi)
  have hlengths : (collected p segments).length = (segments.map (remapped p)).length := by
    rw [length_collected, List.length_map]
  have hblend := length_blend (i := i) hlengths
  rw [List.length_map] at hblend
  have hentry : (blend i (segments.map (remapped p)) (collected p segments))[i]? = some e := by
    rw [getElem?_blend (by rw [List.length_map]; exact hi) hlengths, List.getElem?_map, he,
      Option.map_some, remapped, hout]
    rfl
  have hadded := @added_of_sound s.process a live bound hsound h.apart e.iovLen
    (by rw [h.inUse]; omega) (by rw [h.inUse]; omega)
  have hfits := h.apart.used
  rw [h.inUse] at hfits
  have htable : Table (s.process.addToTmpBuffer a e.iovLen).1
      ((s.process.addToTmpBuffer a e.iovLen).1.tmpBuffer + off) _ := h.table.moved fun k hk => by
      rw [hblend] at hk
      rw [Nat.add_assoc, Nat.add_assoc]
      exact hadded.kept (off + k) (by omega)
  rw [h.copyExternal_eq he hout (h.table.entry hentry).2 htable hentry]
  generalize (s.process.addToTmpBuffer a e.iovLen).1 = q at *
  have hsize := hadded.size
  have hlow := hadded.apart.low
  unfold tableSize sizeofFFSEncodeVec at hin hpos
  constructor
  case offset => exact h.offset
  case alreadyIn => exact h.alreadyIn
  case inUse =>
    rw [hsucc, Nat.add_comm, ← h.inUse]
    exact hadded.inUse
  case size =>
    show q.tmpBufferSize = _
    rw [hsize, h.size, h.inUse, hsucc]
    omega
  case apart => exact ⟨hadded.apart.high, hlow, hadded.apart.used, hadded.apart.live⟩
  case live =>
    intro x hx
    have hbeside := hadded.apart.live x hx
    rw [h.inUse] at hsize
    rw [append_mem (by omega) (by omega), hadded.live x hx, h.live x hx]
  case table =>
    have hcollected := getElem?_collected (p := p) he
    rw [finalOffset_outside hout] at hcollected
    rw [blend_succ hcollected hlengths]
    refine append_table htable hentry ?_ (by omega)
    rw [hblend]
    unfold tableSize sizeofFFSEncodeVec
    omega
  case kept =>
    intro k hk houtside
    unfold tableSize sizeofFFSEncodeVec at houtside
    show (q.append off i (usedAt p segments i) e).mem (q.tmpBuffer + k) = _
    rw [append_mem (by omega) (by omega), hadded.kept k (by omega)]
    exact h.kept k hk (by unfold tableSize sizeofFFSEncodeVec; omega)
  case copied =>
    intro j hj f hf hfout k hk
    show (q.append off i (usedAt p segments i) e).mem (q.tmpBuffer + usedAt p segments j + k) = _
    by_cases hlast : j = i
    · subst hlast
      cases he.symm.trans hf
      rw [append_data (n := segments.length) hi
        (by unfold tableSize sizeofFFSEncodeVec; omega) hk]
      have hlive := hp.live e (List.mem_of_getElem? he) hout k hk
      rw [hadded.live _ hlive, h.live _ hlive]
    · have hjsucc := usedAt_succ (p := p) hf
      rw [hfout, if_neg Bool.false_ne_true] at hjsucc
      have hjmono : usedAt p segments (j + 1) ≤ usedAt p segments i := usedAt_mono (by omega)
      have hjstart := le_usedAt p segments j
      rw [append_mem (by omega) (by omega), Nat.add_assoc, hadded.kept _ (by omega),
        ← Nat.add_assoc]
      exact h.copied j (by omega) f hf hfout k hk

/-- An entry that lies in the buffer already. -/
theorem Collecting.inside {i : Nat} {s : CopyAll} {e : FFSEncodeVec}
    (h : Collecting p segments live off i s) (he : segments[i]? = some e)
    (hin : p.inBuffer e.iovBase = true) :
    Collecting p segments live off (i + 1) (s.copyExternal a i) := by
  have halready : s.alreadyIn[i]? = some true := by
    rw [h.alreadyIn, List.getElem?_map, he, Option.map_some, hin]
  have hstay : s.copyExternal a i = s := by
    unfold CopyAll.copyExternal
    rw [halready, if_neg (by decide)]
  have hsucc : usedAt p segments (i + 1) = usedAt p segments i := by
    rw [usedAt_succ he, hin]
    rfl
  have hlengths : (collected p segments).length = (segments.map (remapped p)).length := by
    rw [length_collected, List.length_map]
  have hcollected := getElem?_collected (p := p) he
  have hremapped : (segments.map (remapped p))[i]? = (collected p segments)[i]? := by
    rw [hcollected, finalOffset_inside hin, List.getElem?_map, he, Option.map_some, remapped,
      if_pos hin]
  rw [hstay]
  constructor
  case offset => exact h.offset
  case alreadyIn => exact h.alreadyIn
  case inUse => rw [hsucc, h.inUse]
  case size => rw [hsucc, h.size]
  case apart => exact h.apart
  case live => exact h.live
  case table =>
    rw [blend_succ_of_eq hlengths hremapped]
    exact h.table
  case kept => exact h.kept
  case copied =>
    intro j hj f hf hfout k hk
    have hne : j ≠ i := by
      intro hji
      subst hji
      cases he.symm.trans hf
      exact Bool.false_ne_true (hfout.symm.trans hin)
    exact h.copied j (by omega) f hf hfout k hk

theorem Collecting.step {i : Nat} {s : CopyAll} (hp : Held p segments live off)
    (hsound : a.Sound live bound) (hbound : usedAt p segments segments.length ≤ bound)
    (h : Collecting p segments live off i s) (hi : i < segments.length) :
    Collecting p segments live off (i + 1) (s.copyExternal a i) := by
  have he := List.getElem?_eq_getElem hi
  cases hin : p.inBuffer segments[i].iovBase with
  | true => exact h.inside he hin
  | false => exact h.external hp hsound hbound he hin

theorem remapped_ne {e : FFSEncodeVec} (h : e.iovBase ≠ 0) : (remapped p e).iovBase ≠ 0 := by
  unfold remapped
  by_cases hin : p.inBuffer e.iovBase = true
  · rw [if_pos hin]
    exact Nat.succ_ne_zero _
  · rw [if_neg hin]
    exact h

theorem Collecting.more {i : Nat} {s : CopyAll} (h : Collecting p segments live off i s)
    (hbase : ∀ e ∈ segments, e.iovBase ≠ 0) (hi : i < segments.length) :
    s.more i = true := by
  have hlengths : (collected p segments).length = (segments.map (remapped p)).length := by
    rw [length_collected, List.length_map]
  have he := List.getElem?_eq_getElem hi
  have hentry : (blend i (segments.map (remapped p)) (collected p segments))[i]? =
      some (remapped p segments[i]) := by
    rw [getElem?_blend (by rw [List.length_map]; exact hi) hlengths, List.getElem?_map, he]
    rfl
  rw [CopyAll.more, CopyAll.vec, h.offset, (h.table.entry hentry).1]
  exact bne_iff_ne.mpr (remapped_ne (hbase _ (List.mem_of_getElem? he)))

theorem Collecting.not_more {s : CopyAll} (h : Collecting p segments live off segments.length s) :
    s.more segments.length = false := by
  have hlengths : (collected p segments).length = (segments.map (remapped p)).length := by
    rw [length_collected, List.length_map]
  have hlast := h.table.last
  rw [length_blend hlengths, List.length_map] at hlast
  rw [CopyAll.more, CopyAll.vec, h.offset, hlast]
  rfl

/-- The copying starts with the entries of the first loop. -/
theorem Remapping.collecting {s : CopyAll} (hp : Held p segments live off) (hapart : p.Apart live)
    (h : Remapping p segments off segments.length s) : Collecting p segments live off 0 s := by
  obtain ⟨⟨hoffset, hrewritten, htable⟩, halready⟩ := h
  have hlength : (segments.map (remapped p)).length = segments.length := List.length_map ..
  rw [blend_length hlength] at htable
  rw [List.take_length] at halready
  have hin := hp.inUse
  have hused := hapart.used
  have hpos := tableSize_pos segments.length
  have hzero : usedAt p segments 0 = p.tmpBufferInUseSize := by
    rw [usedAt]
    rfl
  constructor
  case offset => exact hoffset
  case alreadyIn => exact halready
  case inUse => rw [hzero, hrewritten.inUse]
  case size =>
    rw [hzero, hrewritten.size]
    omega
  case apart =>
    refine ⟨?_, ?_, ?_, ?_⟩
    · rw [hrewritten.size, hrewritten.tmpBuffer]
      exact hapart.high
    · rw [hrewritten.size, hrewritten.tmpBuffer]
      exact hapart.low
    · rw [hrewritten.size, hrewritten.inUse]
      exact hused
    · rw [hrewritten.size, hrewritten.tmpBuffer]
      exact hapart.live
  case live =>
    intro x hx
    have hbeside := hapart.live x hx
    exact hrewritten.mem x (by omega)
  case table =>
    rw [blend_zero, hrewritten.tmpBuffer]
    exact htable
  case kept =>
    intro k _ houtside
    rw [hrewritten.tmpBuffer]
    exact hrewritten.mem _ (by omega)
  case copied =>
    intro j hj
    omega

/-- The loop that copies. -/
theorem collect_loop {fuel : Nat} {s : CopyAll} (hp : Held p segments live off)
    (hsound : a.Sound live bound) (hbound : usedAt p segments segments.length ≤ bound)
    (hbase : ∀ e ∈ segments, e.iovBase ≠ 0) (hfuel : segments.length < fuel)
    (h : Collecting p segments live off 0 s) :
    ∃ s', forWhile CopyAll.more (CopyAll.copyExternal a) fuel s 0 =
        some (s', segments.length) ∧ Collecting p segments live off segments.length s' :=
  forWhile_spec (Collecting p segments live off) (fun _ hi _ hs => hs.more hbase hi)
    (fun _ hi _ hs => hs.step hp hsound hbound hi) (fun _ hs => hs.not_more) (Nat.zero_le _)
    hfuel h

/-- What `copy_all_to_FFSBuffer` leaves behind. -/
structure Gathered (p q : Process) (segments : List FFSEncodeVec) (off : Nat) : Prop where
  size : q.tmpBufferSize = max p.tmpBufferSize (usedAt p segments segments.length)
  low : q.tmpBuffer + q.tmpBufferSize < 2 ^ 63
  used : usedAt p segments segments.length ≤ q.tmpBufferSize
  high : q.tmpBufferSize + 1 < q.tmpBuffer
  table : Table q (q.tmpBuffer + off) ((collected p segments).map (unmapped q))
  kept : ∀ k < p.tmpBufferInUseSize, k < off ∨ off + tableSize segments.length ≤ k →
    q.mem (q.tmpBuffer + k) = p.mem (p.tmpBuffer + k)
  copied : ∀ {j : Nat} {e : FFSEncodeVec}, segments[j]? = some e → p.inBuffer e.iovBase = false →
    ∀ k < e.iovLen, q.mem (q.tmpBuffer + usedAt p segments j + k) = p.mem (e.iovBase + k)

theorem collected_ne {e : FFSEncodeVec} (h : e ∈ collected p segments) : e.iovBase ≠ 0 := by
  rw [collected, List.mem_mapIdx] at h
  obtain ⟨i, hi, he⟩ := h
  rw [← he]
  exact Nat.succ_ne_zero _

theorem Collecting.gathered {s s' : CopyAll} (hp : Held p segments live off)
    (h : Collecting p segments live off segments.length s)
    (h' : Rewriting s.process off segments.length (collected p segments)
      ((collected p segments).map (unmapped s.process)) s') :
    Gathered p s'.process segments off := by
  obtain ⟨_, hrewritten, htable⟩ := h'
  have hin := hp.inUse
  have hused := h.apart.used
  have hpos := tableSize_pos segments.length
  have hstart := le_usedAt p segments segments.length
  have hhigh := h.apart.high
  have hlength : ((collected p segments).map (unmapped s.process)).length =
      (collected p segments).length := List.length_map ..
  have hunmapped : unmapped s'.process = unmapped s.process := by
    funext e
    rw [unmapped, unmapped, hrewritten.size, hrewritten.tmpBuffer]
  have hblend := blend_length hlength
  rw [length_collected] at hblend
  rw [hblend] at htable
  have hmem := hrewritten.mem
  rw [length_collected] at hmem
  rw [h.inUse] at hused
  constructor
  case size => rw [hrewritten.size, h.size]
  case low =>
    rw [hrewritten.tmpBuffer, hrewritten.size]
    exact h.apart.low
  case used =>
    rw [hrewritten.size]
    exact hused
  case high =>
    rw [hrewritten.tmpBuffer, hrewritten.size]
    exact hhigh (by omega)
  case table =>
    rw [hunmapped, hrewritten.tmpBuffer]
    exact htable
  case kept =>
    intro k hk houtside
    rw [hrewritten.tmpBuffer, hmem _ (by omega)]
    exact h.kept k hk houtside
  case copied =>
    intro j e he hout k hk
    have hj := le_usedAt p segments j
    rw [hrewritten.tmpBuffer, hmem _ (by omega)]
    exact h.copied j (lt_length_of_getElem? he) e he hout k hk

/-- `copy_all_to_FFSBuffer` ends, with every segment gathered. -/
theorem copyAllToFFSBuffer_gathers {fuel : Nat} (hp : Held p segments live off)
    (hapart : p.Apart live) (hsound : a.Sound live bound)
    (hbound : usedAt p segments segments.length ≤ bound)
    (htable : Table p (p.tmpBuffer + off) segments) (hbase : ∀ e ∈ segments, e.iovBase ≠ 0)
    (hfuel : segments.length < fuel) :
    ∃ q, copyAllToFFSBuffer a fuel p (p.tmpBuffer + off) = some (q, q.tmpBuffer + off) ∧
      Gathered p q segments off := by
  have hin := hp.inUse
  have hused := hapart.used
  have hpos := tableSize_pos segments.length
  have hhigh := hapart.high (by omega)
  have hvec : p.inBuffer (p.tmpBuffer + off) = true := by
    rw [Process.inBuffer, Bool.and_eq_true, decide_eq_true_eq, decide_eq_true_eq]
    omega
  obtain ⟨s₁, hfirst, hremapping⟩ := remap_loop htable hbase (by omega) hfuel
  obtain ⟨s₂, hsecond, hcollecting⟩ := collect_loop hp hsound hbound hbase hfuel
    (hremapping.collecting hp hapart)
  have hcollected : Table s₂.process (s₂.process.tmpBuffer + off) (collected p segments) := by
    have hlengths : (collected p segments).length = (segments.map (remapped p)).length := by
      rw [length_collected, List.length_map]
    have hblend := blend_length hlengths
    rw [List.length_map] at hblend
    rw [← hblend]
    exact hcollecting.table
  obtain ⟨s₃, hthird, hrewriting⟩ := @unmap_loop _ _ off fuel s₂.alreadyIn
    hcollected (fun _ => collected_ne) hcollecting.apart.low (by rw [length_collected]; exact hfuel)
  rw [length_collected] at hthird hrewriting
  refine ⟨s₃.process, ?_, hcollecting.gathered hp hrewriting⟩
  have hvec₃ : s₃.vec = s₃.process.tmpBuffer + off := by rw [CopyAll.vec, hrewriting.offset]
  have hstart : (⟨s₂.process, off, s₂.alreadyIn⟩ : CopyAll) = s₂ := by rw [← hcollecting.offset]
  rw [hstart] at hthird
  rw [copyAllToFFSBuffer, if_pos hvec, Nat.add_sub_cancel_left]
  simp only [hfirst, hsecond, hthird, Option.bind_eq_bind, Option.bind_some, ← hvec₃]
  rfl

end FFS
