import Mathlib.Algebra.Order.BigOperators.Group.List
import FFS.Encode.VectorsCopied

/-!
# Vectors stay what they were

`copy_vector_to_FFSBuffer` leaves the addresses of a vector as they are, also where the buffer
has to move for the vector: a segment in the buffer is then left behind.  The marks of
`copy_all_to_FFSBuffer` are told from addresses by their size, and the mark of an empty segment
at the very end of the buffer is one too large.
-/

namespace FFS

open Machine

/-- What is in use once the vector is in the buffer. -/
def startSize (p : Process) (vec n : Nat) : Nat :=
  if p.inBuffer vec then p.tmpBufferInUseSize
  else (n + 2) * sizeofFFSEncodeVec + p.tmpBufferInUseSize

/-- There is room for the buffer at another address. -/
structure FreeAt (p : Process) (live : Nat → Prop) (bound far : Nat) : Prop where
  high : bound + 1 < far
  low : far + bound < 2 ^ 63
  live : ∀ x, live x → x < far ∨ far + bound ≤ x
  beside : p.tmpBuffer + p.tmpBufferSize ≤ far ∨ far + bound ≤ p.tmpBuffer

/-- A vector as `FFSencode_vector` and its callers build it.  `live` is what the application
uses outside of the buffer. -/
structure WellBuilt (p : Process) (vec : Nat) (segments : List FFSEncodeVec) (live : Nat → Prop)
    (bound : Nat) : Prop where
  table : Table p vec segments
  base_ne : ∀ e ∈ segments, e.iovBase ≠ 0
  apart : p.Apart live
  vecIn : p.inBuffer vec = true →
    vec + tableSize segments.length ≤ p.tmpBuffer + p.tmpBufferInUseSize
  vecOut : p.inBuffer vec = false → ∀ k < tableSize segments.length, live (vec + k)
  inside : ∀ e ∈ segments, p.inBuffer e.iovBase = true → ∀ k < e.iovLen,
    e.iovBase + k < p.tmpBuffer + p.tmpBufferInUseSize ∧
      (e.iovBase + k < vec ∨ vec + tableSize segments.length ≤ e.iovBase + k)
  outside : ∀ e ∈ segments, p.inBuffer e.iovBase = false →
    live e.iovBase ∧ ∀ k < e.iovLen, live (e.iovBase + k)
  fits : startSize p vec segments.length + totalLen (external p segments) ≤ bound
  free : ∃ far, FreeAt p live bound far

variable {p q r : Process} {vec vec' off bound fuel : Nat} {segments segments' : List FFSEncodeVec}
  {a : Allocator} {live : Nat → Prop}

/-- The vector in the buffer, before its segments are copied. -/
structure VectorPlaced (p r : Process) (segments : List FFSEncodeVec) (live : Nat → Prop)
    (off start : Nat) : Prop where
  inUse : r.tmpBufferInUseSize = start
  size : r.tmpBufferSize = max p.tmpBufferSize start
  more : p.tmpBufferInUseSize ≤ start
  apart : r.Apart live
  table : Table r (r.tmpBuffer + off) segments
  fits : off + tableSize segments.length ≤ start
  stays : start ≤ p.tmpBufferSize → r.tmpBuffer = p.tmpBuffer
  live : ∀ x, live x → r.mem x = p.mem x
  kept : ∀ k < p.tmpBufferInUseSize, r.mem (r.tmpBuffer + k) = p.mem (p.tmpBuffer + k)
  clear : ∀ e ∈ segments, p.inBuffer e.iovBase = true → ∀ k < e.iovLen,
    e.iovBase - p.tmpBuffer + k < p.tmpBufferInUseSize ∧
      (e.iovBase - p.tmpBuffer + k < off ∨
        off + tableSize segments.length ≤ e.iovBase - p.tmpBuffer + k)

theorem inBuffer_iff {addr : Nat} :
    p.inBuffer addr = true ↔ p.tmpBuffer ≤ addr ∧ addr < p.tmpBuffer + p.tmpBufferSize := by
  rw [Process.inBuffer, Bool.and_eq_true, decide_eq_true_eq, decide_eq_true_eq]

theorem Process.Apart.inBuffer_live (h : p.Apart live) {addr : Nat} (hlive : live addr) :
    p.inBuffer addr = false := by
  refine Bool.eq_false_iff.mpr fun hin => ?_
  have hin := inBuffer_iff.mp hin
  have hbeside := h.live addr hlive
  omega

/-- Where a vector of the application goes. -/
def roundedUp (offset : Nat) : Nat :=
  if offset % sizeofFFSEncodeVec ≠ 0 then
    offset + (sizeofFFSEncodeVec - offset % sizeofFFSEncodeVec)
  else offset

theorem roundedUp_bounds (offset : Nat) : offset ≤ roundedUp offset ∧ roundedUp offset < offset + 16 := by
  unfold roundedUp sizeofFFSEncodeVec
  by_cases hremainder : offset % 16 ≠ 0
  · rw [if_pos hremainder]
    omega
  · rw [if_neg hremainder]
    omega

/-- A vector of the application behind what was in use. -/
def Process.appendVector (a : Allocator) (p : Process) (vec n : Nat) : Process :=
  let q := (p.addToTmpBuffer a ((n + 2) * sizeofFFSEncodeVec)).1
  q.memcpy (q.tmpBuffer + roundedUp p.tmpBufferInUseSize) vec (tableSize n)

theorem Table.count (h : Table p vec segments) (hbase : ∀ e ∈ segments, e.iovBase ≠ 0)
    (hfuel : segments.length < fuel) :
    forWhile (fun _ i => p.iovBase vec i != 0) (fun _ _ => ()) fuel () 0 =
      some ((), segments.length) := by
  obtain ⟨_, hcount, -⟩ := @forWhile_spec Unit (fun _ i => p.iovBase vec i != 0) (fun _ _ => ())
    segments.length (fun _ _ => True) (fun i hi _ _ => by
      have he := List.getElem?_eq_getElem hi
      rw [(h.entry he).1]
      exact bne_iff_ne.mpr (hbase _ (List.mem_of_getElem? he)))
    (fun _ _ _ _ => trivial) (fun _ _ => by rw [h.last]; rfl) fuel 0 () (Nat.zero_le _) hfuel trivial
  exact hcount

theorem copyVectorToFFSBuffer_outside (h : Table p vec segments)
    (hbase : ∀ e ∈ segments, e.iovBase ≠ 0) (hfuel : segments.length < fuel)
    (hout : p.inBuffer vec = false) :
    copyVectorToFFSBuffer a fuel p vec =
      some (p.appendVector a vec segments.length,
        (p.appendVector a vec segments.length).tmpBuffer + roundedUp p.tmpBufferInUseSize) := by
  rw [copyVectorToFFSBuffer, hout, if_neg Bool.false_ne_true, h.count hbase hfuel]
  unfold Process.appendVector tableSize
  rw [Nat.mul_comm sizeofFFSEncodeVec]
  rfl

/-- The vector is brought to the buffer. -/
theorem copyVectorToFFSBuffer_places (h : WellBuilt p vec segments live bound)
    (hsound : a.Sound live bound) (hfuel : segments.length < fuel) :
    ∃ r off, copyVectorToFFSBuffer a fuel p vec = some (r, r.tmpBuffer + off) ∧
      VectorPlaced p r segments live off (startSize p vec segments.length) := by
  have hused := h.apart.used
  have hpos := tableSize_pos segments.length
  cases hvec : p.inBuffer vec with
  | true =>
    have hwithin := inBuffer_iff.mp hvec
    have hin := h.vecIn hvec
    have hoff : p.tmpBuffer + (vec - p.tmpBuffer) = vec := by omega
    refine ⟨p, vec - p.tmpBuffer, ?_, ?_⟩
    · rw [copyVectorToFFSBuffer, if_pos hvec, hoff]
    rw [startSize, if_pos hvec]
    refine ⟨rfl, (Nat.max_eq_left hused).symm, Nat.le_refl _, h.apart, ?_, by omega,
      fun _ => rfl, fun _ _ => rfl, fun _ _ => rfl, fun e he hein k hk => ?_⟩
    · rw [hoff]
      exact h.table
    · have hclear := h.inside e he hein k hk
      have hewithin := inBuffer_iff.mp hein
      omega
  | false =>
    refine ⟨_, _, copyVectorToFFSBuffer_outside h.table h.base_ne hfuel hvec, ?_⟩
    have hfits := h.fits
    have hrounded := roundedUp_bounds p.tmpBufferInUseSize
    rw [startSize, hvec, if_neg Bool.false_ne_true] at hfits ⊢
    have hadded := @added_of_sound p a live bound hsound h.apart
      ((segments.length + 2) * sizeofFFSEncodeVec) (by unfold sizeofFFSEncodeVec; omega) (by omega)
    unfold Process.appendVector
    generalize (p.addToTmpBuffer a ((segments.length + 2) * sizeofFFSEncodeVec)).1 = q at *
    have htable : tableSize segments.length + 16 =
        (segments.length + 2) * sizeofFFSEncodeVec := by
      unfold tableSize sizeofFFSEncodeVec
      omega
    have hqused := hadded.apart.used
    rw [hadded.inUse] at hqused
    have hlive : ∀ x, live x → x < q.tmpBuffer ∨ q.tmpBuffer + q.tmpBufferSize ≤ x :=
      hadded.apart.live
    constructor
    case inUse => exact hadded.inUse
    case size => exact hadded.size
    case more => omega
    case apart => exact ⟨hadded.apart.high, hadded.apart.low, hadded.apart.used, hlive⟩
    case table =>
      refine h.table.moved fun k hk => ?_
      show (q.mem.write _ _) (q.tmpBuffer + roundedUp p.tmpBufferInUseSize + k) = _
      rw [Mem.write_inside (by omega) (by rw [Mem.length_read]; omega), Nat.add_sub_cancel_left,
        List.getD_eq_getElem _ _ (by rw [Mem.length_read]; exact hk), Mem.getElem_read]
      exact hadded.live _ (h.vecOut hvec k hk)
    case fits => omega
    case stays => exact hadded.stays
    case live =>
      intro x hx
      have hbeside := hlive x hx
      exact (Mem.write_outside (by rw [Mem.length_read]; omega)).trans (hadded.live x hx)
    case kept =>
      intro k hk
      refine (Mem.write_outside ?_).trans (hadded.kept k (by omega))
      show q.tmpBuffer + k < _ ∨ _
      omega
    case clear =>
      intro e he hein k hk
      have hclear := h.inside e he hein k hk
      have hewithin := inBuffer_iff.mp hein
      omega

/-! ## What both calls promise -/

/-- A segment with the same bytes. -/
structure SameSegment (p q : Process) (e e' : FFSEncodeVec) : Prop where
  len : e'.iovLen = e.iovLen
  bytes : q.mem.read e'.iovBase e'.iovLen = p.mem.read e.iovBase e.iovLen

/-- A vector in the buffer with the same segments. -/
structure VectorKept (p q : Process) (vec' : Nat) (segments segments' : List FFSEncodeVec) :
    Prop where
  within : q.tmpBuffer ≤ vec' ∧
    vec' + tableSize segments'.length ≤ q.tmpBuffer + q.tmpBufferSize
  table : Table q vec' segments'
  base_ne : ∀ e ∈ segments', e.iovBase ≠ 0
  same : List.Forall₂ (SameSegment p q) segments segments'

/-- A segment in the buffer, at its old place if it was there before. -/
structure SegmentInside (p q : Process) (e e' : FFSEncodeVec) : Prop where
  within : q.tmpBuffer ≤ e'.iovBase ∧ e'.iovBase + e'.iovLen ≤ q.tmpBuffer + q.tmpBufferSize
  stays : p.inBuffer e.iovBase = true → e'.iovBase + p.tmpBuffer = e.iovBase + q.tmpBuffer

/-- Both calls, one after the other. -/
def CopiesRight (a : Allocator) (fuel : Nat) (p : Process) (vec : Nat)
    (segments : List FFSEncodeVec) : Prop :=
  ∃ p₁ vec₁ segments₁ p₂ vec₂ segments₂,
    copyVectorToFFSBuffer a fuel p vec = some (p₁, vec₁) ∧
    copyAllToFFSBuffer a fuel p₁ vec₁ = some (p₂, vec₂) ∧
    VectorKept p p₁ vec₁ segments segments₁ ∧
    VectorKept p p₂ vec₂ segments segments₂ ∧
    List.Forall₂ (SegmentInside p p₂) segments segments₂

/-- An empty segment is copied last, to the very end of the buffer. -/
def EndsFull (p : Process) (vec : Nat) (segments : List FFSEncodeVec) : Prop :=
  (∃ e ∈ (external p segments).getLast?, e.iovLen = 0) ∧
    p.tmpBufferSize ≤ startSize p vec segments.length + totalLen (external p segments)

/-- The buffer has room for the vector or none of the segments, and its end is not marked. -/
def Copyable (p : Process) (vec : Nat) (segments : List FFSEncodeVec) : Prop :=
  (startSize p vec segments.length ≤ p.tmpBufferSize ∨
      ∀ e ∈ segments, p.inBuffer e.iovBase = false) ∧
    ¬ EndsFull p vec segments

/-- A segment is in the buffer before the vector is brought to it exactly when it is after. -/
structure SameInside (p r : Process) (segments : List FFSEncodeVec) : Prop where
  inside : ∀ e ∈ segments, r.inBuffer e.iovBase = p.inBuffer e.iovBase
  stays : ∀ e ∈ segments, p.inBuffer e.iovBase = true → r.tmpBuffer = p.tmpBuffer

theorem VectorPlaced.sameInside (h : WellBuilt p vec segments live bound)
    (hplaced : VectorPlaced p r segments live off (startSize p vec segments.length))
    (hroom : startSize p vec segments.length ≤ p.tmpBufferSize ∨
      ∀ e ∈ segments, p.inBuffer e.iovBase = false) : SameInside p r segments := by
  cases hroom with
  | inl hroom =>
    refine ⟨fun e _ => ?_, fun _ _ _ => hplaced.stays hroom⟩
    rw [Process.inBuffer, Process.inBuffer, hplaced.stays hroom, hplaced.size,
      Nat.max_eq_left hroom]
  | inr hnone =>
    refine ⟨fun e he => ?_, fun e he hin => ?_⟩
    · rw [hnone e he]
      exact hplaced.apart.inBuffer_live (h.outside e he (hnone e he)).1
    · exact absurd ((hnone e he).symm.trans hin) Bool.false_ne_true

theorem external_congr (h : SameInside p r segments) :
    external r segments = external p segments := by
  refine List.filter_congr fun e he => ?_
  rw [h.inside e he]

theorem usedAt_of_sameInside (h : SameInside p r segments) (i : Nat) :
    usedAt r segments i = r.tmpBufferInUseSize + totalLen (external p (segments.take i)) := by
  rw [usedAt, external_congr ⟨fun e he => h.inside e (List.mem_of_mem_take he),
    fun e he => h.stays e (List.mem_of_mem_take he)⟩]

/-- The vector in the buffer holds what the loops of `copy_all_to_FFSBuffer` need. -/
theorem VectorPlaced.held (h : WellBuilt p vec segments live bound)
    (hplaced : VectorPlaced p r segments live off (startSize p vec segments.length))
    (hsame : SameInside p r segments) : Held r segments live off :=
  ⟨hplaced.inUse ▸ hplaced.fits,
    fun e he hout => (h.outside e he ((hsame.inside e he).symm.trans hout)).2⟩

theorem getElem?_unmapped {i : Nat} {e : FFSEncodeVec} (he : segments[i]? = some e)
    (hlow : finalOffset r segments i e < q.tmpBufferSize) :
    ((collected r segments).map (unmapped q))[i]? =
      some { e with iovBase := q.tmpBuffer + finalOffset r segments i e } := by
  rw [List.getElem?_map, getElem?_collected he, Option.map_some, unmapped,
    if_pos (Nat.succ_le_of_lt hlow)]
  refine congrArg (fun base => some (FFSEncodeVec.mk base e.iovLen)) ?_
  show finalOffset r segments i e + 1 + q.tmpBuffer - 1 = _
  omega

/-- An entry whose mark is too large stays a mark. -/
theorem getElem?_unmapped_of_le {i : Nat} {e : FFSEncodeVec} (he : segments[i]? = some e)
    (hhigh : q.tmpBufferSize ≤ finalOffset r segments i e) :
    ((collected r segments).map (unmapped q))[i]? =
      some { e with iovBase := finalOffset r segments i e + 1 } := by
  rw [List.getElem?_map, getElem?_collected he, Option.map_some, unmapped,
    if_neg (Nat.not_le_of_lt (Nat.lt_succ_of_le hhigh))]

/-! ## Segments at the end -/

/-- Unless an empty segment comes last, every copied one begins before the end. -/
theorem usedAt_lt {i : Nat} {e : FFSEncodeVec} (he : segments[i]? = some e)
    (hout : r.inBuffer e.iovBase = false)
    (hlast : ∀ f ∈ (external r segments).getLast?, f.iovLen ≠ 0) :
    usedAt r segments i < usedAt r segments segments.length := by
  have hsplit : external r segments =
      external r (segments.take i) ++ external r (segments.drop i) := by
    rw [← external_append, List.take_append_drop]
  have hmem : e ∈ external r (segments.drop i) := by
    refine List.mem_filter.mpr ⟨?_, by rw [hout]; rfl⟩
    exact List.mem_of_getElem? (i := 0) (by rw [List.getElem?_drop]; exact he)
  have hne := List.ne_nil_of_mem hmem
  have hpos : 0 < totalLen (external r (segments.drop i)) := by
    have hmemLast := List.getLast_mem hne
    have hlastLen := hlast ((external r (segments.drop i)).getLast hne) (by
      rw [hsplit, List.getLast?_append_of_ne_nil _ hne, List.getLast?_eq_some_getLast hne]
      rfl)
    have hle := List.single_le_sum
      (l := (external r (segments.drop i)).map FFSEncodeVec.iovLen) (fun _ _ => Nat.zero_le _) _
      (List.mem_map_of_mem hmemLast)
    unfold totalLen
    omega
  rw [usedAt, usedAt, List.take_length, hsplit, totalLen_append]
  omega

/-- The empty segment that comes last begins at the end. -/
theorem exists_usedAt_eq {e : FFSEncodeVec} (he : (external r segments).getLast? = some e)
    (hempty : e.iovLen = 0) :
    ∃ i, segments[i]? = some e ∧ r.inBuffer e.iovBase = false ∧
      usedAt r segments i = usedAt r segments segments.length := by
  obtain ⟨front, hfront⟩ := List.getLast?_eq_some_iff.mp he
  obtain ⟨before, behind, hsegments, -, hbehind⟩ := List.filter_eq_append_iff.mp hfront
  obtain ⟨skipped, rest, hrest, -, hkept, hnone⟩ := List.filter_eq_cons_iff.mp hbehind
  subst hsegments hrest
  have hassoc : before ++ (skipped ++ e :: rest) = (before ++ skipped) ++ ([e] ++ rest) := by
    simp only [List.append_assoc, List.cons_append, List.nil_append]
  rw [hassoc]
  refine ⟨(before ++ skipped).length, ?_, ?_, ?_⟩
  · rw [List.getElem?_append_right (Nat.le_refl _), Nat.sub_self]
    rfl
  · exact Bool.not_eq_true' _ ▸ hkept
  · have hone : totalLen (external r [e]) = 0 := by
      cases hout : r.inBuffer e.iovBase <;> simp [totalLen, external, hout, hempty]
    have hrestLen : totalLen (external r rest) = 0 := by
      rw [external, hnone]
      rfl
    rw [usedAt, usedAt, List.take_length, List.take_left, external_append r (before ++ skipped),
      totalLen_append, external_append r [e], totalLen_append, hone, hrestLen]
    rfl

/-! ## Where both calls keep their promise -/

theorem Mem.read_eq {m m' : Mem} {v v' n : Nat} (h : ∀ k < n, m' (v' + k) = m (v + k)) :
    m'.read v' n = m.read v n :=
  List.map_congr_left fun k hk => h k (List.mem_range.mp hk)

/-- The bytes of a segment behind both calls. -/
theorem Gathered.bytes (h : WellBuilt p vec segments live bound)
    (hplaced : VectorPlaced p r segments live off (startSize p vec segments.length))
    (hsame : SameInside p r segments) (hgathered : Gathered r q segments off) {i : Nat}
    {e : FFSEncodeVec} (he : segments[i]? = some e) :
    ∀ k < e.iovLen,
      q.mem (q.tmpBuffer + finalOffset r segments i e + k) = p.mem (e.iovBase + k) := by
  intro k hk
  have hmem := List.mem_of_getElem? he
  cases hin : p.inBuffer e.iovBase with
  | true =>
    have hwithin := inBuffer_iff.mp hin
    have hclear := hplaced.clear e hmem hin k hk
    have hmore := hplaced.more
    have haddr : p.tmpBuffer + (e.iovBase - p.tmpBuffer + k) = e.iovBase + k := by omega
    rw [finalOffset_inside ((hsame.inside e hmem).trans hin), hsame.stays e hmem hin,
      Nat.add_assoc, hgathered.kept _ (by rw [hplaced.inUse]; omega) hclear.2,
      hplaced.kept _ hclear.1, haddr]
  | false =>
    have hrout := (hsame.inside e hmem).trans hin
    rw [finalOffset_outside hrout, hgathered.copied he hrout k hk]
    exact hplaced.live _ ((h.outside e hmem hin).2 k hk)

/-- Unless the buffer ends with a mark, each segment begins before its end. -/
theorem Gathered.finalOffset_lt
    (hplaced : VectorPlaced p r segments live off (startSize p vec segments.length))
    (hsame : SameInside p r segments) (hgathered : Gathered r q segments off)
    (hends : ¬ EndsFull p vec segments) {i : Nat} {e : FFSEncodeVec}
    (he : segments[i]? = some e) : finalOffset r segments i e < q.tmpBufferSize := by
  have hsize := hgathered.size
  cases hin : r.inBuffer e.iovBase with
  | true =>
    have hwithin := inBuffer_iff.mp hin
    rw [finalOffset_inside hin]
    omega
  | false =>
    rw [finalOffset_outside hin]
    have hlast : usedAt r segments segments.length =
        startSize p vec segments.length + totalLen (external p segments) := by
      rw [usedAt_of_sameInside hsame, hplaced.inUse, List.take_length]
    by_cases hempty : ∃ f ∈ (external p segments).getLast?, f.iovLen = 0
    · have hroom : startSize p vec segments.length + totalLen (external p segments) <
          p.tmpBufferSize := Nat.lt_of_not_le fun hfull => hends ⟨hempty, hfull⟩
      have hi := lt_length_of_getElem? he
      have hmono : usedAt r segments i ≤ usedAt r segments segments.length :=
        usedAt_mono (Nat.le_of_lt hi)
      have hrsize := hplaced.size
      omega
    · have hlt := usedAt_lt he hin fun f hf hzero => by
        rw [external_congr hsame] at hf
        exact hempty ⟨f, hf, hzero⟩
      omega

/-- A segment ends within the buffer. -/
theorem Gathered.finalOffset_add_le
    (hplaced : VectorPlaced p r segments live off (startSize p vec segments.length))
    (hsame : SameInside p r segments) (hgathered : Gathered r q segments off) {i : Nat}
    {e : FFSEncodeVec} (he : segments[i]? = some e)
    (hlt : finalOffset r segments i e < q.tmpBufferSize) :
    finalOffset r segments i e + e.iovLen ≤ q.tmpBufferSize := by
  have hmem := List.mem_of_getElem? he
  cases hin : p.inBuffer e.iovBase with
  | true =>
    have hrin := (hsame.inside e hmem).trans hin
    rw [finalOffset_inside hrin, hsame.stays e hmem hin] at hlt ⊢
    by_cases hempty : e.iovLen = 0
    · omega
    · have hclear := hplaced.clear e hmem hin (e.iovLen - 1) (by omega)
      have hmore := hplaced.more
      have hused := hgathered.used
      have hstart := le_usedAt r segments segments.length
      rw [hplaced.inUse] at hstart
      omega
  | false =>
    have hrout := (hsame.inside e hmem).trans hin
    have hsucc := usedAt_succ (p := r) he
    rw [hrout, if_neg Bool.false_ne_true] at hsucc
    have hmono : usedAt r segments (i + 1) ≤ usedAt r segments segments.length :=
      usedAt_mono (lt_length_of_getElem? he)
    have hused := hgathered.used
    rw [finalOffset_outside hrout]
    omega

/-- The vector after the first call. -/
theorem VectorPlaced.vectorKept (h : WellBuilt p vec segments live bound)
    (hplaced : VectorPlaced p r segments live off (startSize p vec segments.length))
    (hsame : SameInside p r segments) :
    VectorKept p r (r.tmpBuffer + off) segments segments := by
  have hfits := hplaced.fits
  have hsize := hplaced.size
  refine ⟨by omega, hplaced.table, h.base_ne, List.forall₂_same.mpr fun e he => ⟨rfl, ?_⟩⟩
  refine Mem.read_eq fun k hk => ?_
  cases hin : p.inBuffer e.iovBase with
  | true =>
    have hwithin := inBuffer_iff.mp hin
    have hclear := hplaced.clear e he hin k hk
    have hkept := hplaced.kept _ hclear.1
    have haddr : p.tmpBuffer + (e.iovBase - p.tmpBuffer + k) = e.iovBase + k := by omega
    rwa [hsame.stays e he hin, haddr] at hkept
  | false => exact hplaced.live _ ((h.outside e he hin).2 k hk)

theorem forall₂_of_getElem? {α β : Type} {R : α → β → Prop} {xs : List α} {ys : List β}
    (hlength : ys.length = xs.length)
    (h : ∀ (i : Nat) x, xs[i]? = some x → ∃ y, ys[i]? = some y ∧ R x y) : List.Forall₂ R xs ys := by
  refine List.forall₂_iff_get.mpr ⟨hlength.symm, fun i hi hi' => ?_⟩
  obtain ⟨y, hy, hR⟩ := h i xs[i] (List.getElem?_eq_getElem hi)
  rw [List.getElem?_eq_getElem hi', Option.some.injEq] at hy
  rw [List.get_eq_getElem, List.get_eq_getElem, hy]
  exact hR

/-- Both calls keep their promise where the buffer has room. -/
theorem copiesRight_of_copyable (h : WellBuilt p vec segments live bound)
    (hsound : a.Sound live bound) (hfuel : segments.length < fuel)
    (hcopyable : Copyable p vec segments) : CopiesRight a fuel p vec segments := by
  unfold CopiesRight
  obtain ⟨r, off, hfirst, hplaced⟩ := copyVectorToFFSBuffer_places h hsound hfuel
  have hsame := hplaced.sameInside h hcopyable.1
  have hbound : usedAt r segments segments.length ≤ bound := by
    rw [usedAt_of_sameInside hsame, hplaced.inUse, List.take_length]
    exact h.fits
  obtain ⟨q, hsecond, hgathered⟩ := copyAllToFFSBuffer_gathers (hplaced.held h hsame)
    hplaced.apart hsound hbound hplaced.table h.base_ne hfuel
  have hlength : ((collected r segments).map (unmapped q)).length = segments.length := by
    rw [List.length_map, length_collected]
  have hentry : ∀ (i : Nat) e, segments[i]? = some e → ((collected r segments).map (unmapped q))[i]? =
      some { e with iovBase := q.tmpBuffer + finalOffset r segments i e } := fun i e he =>
    getElem?_unmapped he (hgathered.finalOffset_lt hplaced hsame hcopyable.2 he)
  refine ⟨r, _, segments, q, _, _, hfirst, hsecond, hplaced.vectorKept h hsame,
    ⟨?_, hgathered.table, ?_, ?_⟩, ?_⟩
  · have hfits := hplaced.fits
    have hused := hgathered.used
    have hstart := le_usedAt r segments segments.length
    rw [hplaced.inUse] at hstart
    rw [hlength]
    omega
  · intro e he
    obtain ⟨i, hi⟩ := List.mem_iff_getElem?.mp he
    have hlt := lt_length_of_getElem? hi
    rw [hlength] at hlt
    have hhigh := hgathered.high
    rw [hentry i _ (List.getElem?_eq_getElem hlt), Option.some.injEq] at hi
    rw [← hi]
    show q.tmpBuffer + _ ≠ 0
    omega
  · refine forall₂_of_getElem? hlength fun i e he => ⟨_, hentry i e he, rfl, ?_⟩
    exact Mem.read_eq (hgathered.bytes h hplaced hsame he)
  · refine forall₂_of_getElem? hlength fun i e he => ⟨_, hentry i e he, ?_, fun hin => ?_⟩
    · have hlt := hgathered.finalOffset_lt hplaced hsame hcopyable.2 he
      have hle := hgathered.finalOffset_add_le hplaced hsame he hlt
      show q.tmpBuffer ≤ q.tmpBuffer + _ ∧ q.tmpBuffer + _ + e.iovLen ≤ _
      omega
    · have hmem := List.mem_of_getElem? he
      have hwithin := inBuffer_iff.mp hin
      show q.tmpBuffer + finalOffset r segments i e + p.tmpBuffer = _
      rw [finalOffset_inside ((hsame.inside e hmem).trans hin), hsame.stays e hmem hin]
      omega

/-! ## Where they do not -/

/-- The buffer moves to `far`, and what is no longer used is overwritten. -/
def farAllocator (far : Nat) : Allocator :=
  { place := fun _ _ => far, fill := fun p _ x => p.mem x + 1 }

theorem farAllocator_sound {far : Nat} (h : FreeAt p live bound far) :
    (farAllocator far).Sound live bound := by
  have hhigh := h.high
  have hlow := h.low
  refine ⟨fun _ size _ hsize => ?_, fun _ size _ hsize => ?_, fun _ size _ hsize x hx => ?_⟩
  · show size + 1 < far
    omega
  · show far + size < 2 ^ 63
    omega
  · show x < far ∨ far + size ≤ x
    have hbeside := h.live x hx
    omega

theorem forall₂_entry {α β : Type} {R : α → β → Prop} {xs : List α} {ys : List β} {i : Nat}
    {x : α} {y : β} (h : List.Forall₂ R xs ys) (hx : xs[i]? = some x) (hy : ys[i]? = some y) :
    R x y := by
  obtain ⟨hi, hx⟩ := List.getElem?_eq_some_iff.mp hx
  obtain ⟨hi', hy⟩ := List.getElem?_eq_some_iff.mp hy
  rw [← hx, ← hy]
  exact (List.forall₂_iff_get.mp h).2 i hi hi'

/-- What is promised of a segment after the first call. -/
theorem CopiesRight.sameSegment {i vec₁ : Nat} {e e₁ : FFSEncodeVec}
    (h : CopiesRight a fuel p vec segments)
    (hfirst : copyVectorToFFSBuffer a fuel p vec = some (r, vec₁))
    (htable : Table r vec₁ segments') (hlength : segments'.length = segments.length)
    (he : segments[i]? = some e) (he₁ : segments'[i]? = some e₁) : SameSegment p r e e₁ := by
  obtain ⟨_, _, s₁, _, _, _, hfirst', -, hkept, -, -⟩ := h
  cases hfirst.symm.trans hfirst'
  have hs₁ : s₁ = segments' :=
    htable.unique hkept.table (hkept.same.length_eq.symm.trans hlength.symm)
  exact forall₂_entry (hs₁ ▸ hkept.same) he he₁

/-- What is promised of a segment after the second call. -/
theorem CopiesRight.segmentInside {i vec₁ vec₂ : Nat} {e e₂ : FFSEncodeVec}
    (h : CopiesRight a fuel p vec segments)
    (hfirst : copyVectorToFFSBuffer a fuel p vec = some (r, vec₁))
    (hsecond : copyAllToFFSBuffer a fuel r vec₁ = some (q, vec₂))
    (htable : Table q vec₂ segments') (hlength : segments'.length = segments.length)
    (he : segments[i]? = some e) (he₂ : segments'[i]? = some e₂) : SegmentInside p q e e₂ := by
  obtain ⟨_, _, _, _, _, s₂, hfirst', hsecond', -, hkept, hinside⟩ := h
  cases hfirst.symm.trans hfirst'
  cases hsecond.symm.trans hsecond'
  have hs₂ : s₂ = segments' :=
    htable.unique hkept.table (hkept.same.length_eq.symm.trans hlength.symm)
  exact forall₂_entry (hs₂ ▸ hinside) he he₂

/-- The mark of an empty segment at the very end stays in the vector. -/
theorem not_copiesRight_of_endsFull (h : WellBuilt p vec segments live bound)
    (hsound : a.Sound live bound) (hfuel : segments.length < fuel)
    (hroom : startSize p vec segments.length ≤ p.tmpBufferSize ∨
      ∀ e ∈ segments, p.inBuffer e.iovBase = false) (hends : EndsFull p vec segments) :
    ¬ CopiesRight a fuel p vec segments := by
  intro hright
  obtain ⟨⟨e, he, hempty⟩, hfull⟩ := hends
  obtain ⟨r, off, hfirst, hplaced⟩ := copyVectorToFFSBuffer_places h hsound hfuel
  have hsame := hplaced.sameInside h hroom
  have hlast : usedAt r segments segments.length =
      startSize p vec segments.length + totalLen (external p segments) := by
    rw [usedAt_of_sameInside hsame, hplaced.inUse, List.take_length]
  obtain ⟨q, hsecond, hgathered⟩ := copyAllToFFSBuffer_gathers (hplaced.held h hsame)
    hplaced.apart hsound (by rw [hlast]; exact h.fits) hplaced.table h.base_ne hfuel
  rw [← external_congr hsame] at he
  obtain ⟨i, hi, hout, hend⟩ := exists_usedAt_eq he hempty
  have hsize := hgathered.size
  rw [hplaced.size] at hsize
  have hoffset : finalOffset r segments i e = q.tmpBufferSize := by
    rw [finalOffset_outside hout, hend, hsize]
    omega
  have hmark := (hright.segmentInside hfirst hsecond hgathered.table
    (by rw [List.length_map, length_collected]) hi
    (getElem?_unmapped_of_le hi (Nat.le_of_eq hoffset.symm))).within.1
  have hhigh := hgathered.high
  simp only at hmark
  omega

theorem realloc_old {size x : Nat} (hnew : x < a.place p size ∨ a.place p size + size ≤ x)
    (hold : p.tmpBuffer ≤ x ∧ x < p.tmpBuffer + p.tmpBufferSize) :
    (p.realloc a size).mem x = a.fill p size x := by
  simp only [Process.realloc]
  rw [if_neg (by omega), if_pos (Or.inr hold)]

/-- The buffer has moved, and its old bytes are gone. -/
theorem appendVector_far {far n x : Nat} (hfree : FreeAt p live bound far)
    (hx : p.inBuffer x = true)
    (hgrow : p.tmpBufferSize < (n + 2) * sizeofFFSEncodeVec + p.tmpBufferInUseSize)
    (hbound : (n + 2) * sizeofFFSEncodeVec + p.tmpBufferInUseSize ≤ bound) :
    (p.appendVector (farAllocator far) vec n).tmpBuffer = far ∧
      (p.appendVector (farAllocator far) vec n).mem x = p.mem x + 1 := by
  have hwithin := inBuffer_iff.mp hx
  have hbeside := hfree.beside
  have hrounded := roundedUp_bounds p.tmpBufferInUseSize
  have hmoved : (p.addToTmpBuffer (farAllocator far) ((n + 2) * sizeofFFSEncodeVec)).1 =
      { p.realloc (farAllocator far) ((n + 2) * sizeofFFSEncodeVec + p.tmpBufferInUseSize) with
        tmpBufferInUseSize := (n + 2) * sizeofFFSEncodeVec + p.tmpBufferInUseSize } := by
    unfold Process.addToTmpBuffer
    simp only [if_pos hgrow]
  unfold Process.appendVector
  simp only [hmoved]
  refine ⟨rfl, (Mem.write_outside ?_).trans ?_⟩
  · show x < far + _ ∨ far + _ + _ ≤ x
    rw [Mem.length_read]
    unfold tableSize
    unfold sizeofFFSEncodeVec at *
    omega
  · refine realloc_old ?_ hwithin
    show x < far ∨ far + _ ≤ x
    omega

theorem totalLen_external (h : ∀ e ∈ segments, p.inBuffer e.iovBase = true → e.iovLen = 0) :
    totalLen (external p segments) = totalLen segments := by
  induction segments with
  | nil => rfl
  | cons e segments ih =>
    have ih := ih fun f hf => h f (List.mem_cons_of_mem _ hf)
    have hone : totalLen (external p [e]) = totalLen [e] := by
      cases hin : p.inBuffer e.iovBase with
      | true => simp [totalLen, external, hin, h e List.mem_cons_self hin]
      | false => simp [totalLen, external, hin]
    rw [← List.singleton_append, external_append, totalLen_append, totalLen_append, hone, ih]

/-- A segment in a buffer that moves is left behind. -/
theorem not_copiesRight_of_moved {far : Nat} (h : WellBuilt p vec segments live bound)
    (hfree : FreeAt p live bound far) (hfuel : segments.length < fuel) {e : FFSEncodeVec}
    (he : e ∈ segments) (hin : p.inBuffer e.iovBase = true)
    (hgrow : p.tmpBufferSize < startSize p vec segments.length) :
    ¬ CopiesRight (farAllocator far) fuel p vec segments := by
  intro hright
  have hsound := farAllocator_sound hfree
  have hused := h.apart.used
  have hfits := h.fits
  have hout : p.inBuffer vec = false := by
    refine Bool.eq_false_iff.mpr fun hvec => ?_
    rw [startSize, if_pos hvec] at hgrow
    omega
  obtain ⟨r, off, hfirst, hplaced⟩ := copyVectorToFFSBuffer_places h hsound hfuel
  have hstart := hgrow
  have hstartBound := hfits
  rw [startSize, hout, if_neg Bool.false_ne_true] at hstart hstartBound
  have hmoved : ∀ x, p.inBuffer x = true → r.tmpBuffer = far ∧ r.mem x = p.mem x + 1 := by
    have hr := hfirst.symm.trans (copyVectorToFFSBuffer_outside h.table h.base_ne hfuel hout)
    rw [Option.some.injEq, Prod.mk.injEq] at hr
    rw [hr.1]
    exact fun x hx => appendVector_far hfree hx hstart (by omega)
  by_cases hbytes : ∃ f ∈ segments, p.inBuffer f.iovBase = true ∧ f.iovLen ≠ 0
  · -- the bytes of the segment are those of a block that is free
    obtain ⟨f, hf, hfin, hflen⟩ := hbytes
    obtain ⟨i, hi⟩ := List.mem_iff_getElem?.mp hf
    have hsame := (hright.sameSegment hfirst hplaced.table rfl hi hi).bytes
    have hbyte := Mem.eq_of_read_eq hsame (x := f.iovBase) (Nat.le_refl _) (by omega)
    rw [(hmoved _ hfin).2] at hbyte
    exact absurd hbyte (by simp)
  · -- an empty segment is taken for one outside, and is given another place
    have hzero : ∀ f ∈ segments, p.inBuffer f.iovBase = true → f.iovLen = 0 := fun f hf hfin =>
      Classical.not_not.mp fun hne => hbytes ⟨f, hf, hfin, hne⟩
    have hrtmp := (hmoved _ hin).1
    have hrout : ∀ f ∈ segments, r.inBuffer f.iovBase = false := by
      intro f hf
      refine Bool.eq_false_iff.mpr fun hfr => ?_
      cases hfp : p.inBuffer f.iovBase with
      | true =>
        have hfr := inBuffer_iff.mp hfr
        have hfp := inBuffer_iff.mp hfp
        have hbeside := hfree.beside
        have hsize := hplaced.size
        omega
      | false =>
        have hlive := hplaced.apart.inBuffer_live (h.outside f hf hfp).1
        exact Bool.false_ne_true (hlive.symm.trans hfr)
    have hheld : Held r segments live off := by
      refine ⟨hplaced.inUse ▸ hplaced.fits, fun f hf _ k hk => ?_⟩
      cases hfp : p.inBuffer f.iovBase with
      | true =>
        have hflen := hzero f hf hfp
        omega
      | false => exact (h.outside f hf hfp).2 k hk
    have hbound : usedAt r segments segments.length ≤ bound := by
      have hnone : external r segments = segments :=
        List.filter_eq_self.mpr fun f hf => by rw [hrout f hf]; rfl
      rw [usedAt, List.take_length, hnone, hplaced.inUse, ← totalLen_external hzero]
      exact h.fits
    obtain ⟨q, hsecond, hgathered⟩ := copyAllToFFSBuffer_gathers hheld hplaced.apart hsound
      hbound hplaced.table h.base_ne hfuel
    obtain ⟨i, hi⟩ := List.mem_iff_getElem?.mp he
    have hlength : ((collected r segments).map (unmapped q)).length = segments.length := by
      rw [List.length_map, length_collected]
    have hoffset : finalOffset r segments i e = usedAt r segments i :=
      finalOffset_outside (hrout e he)
    have hused := le_usedAt r segments i
    have hmono : usedAt r segments i ≤ usedAt r segments segments.length :=
      usedAt_mono (Nat.le_of_lt (lt_length_of_getElem? hi))
    have hqused := hgathered.used
    have hwithin := inBuffer_iff.mp hin
    rw [hplaced.inUse] at hused
    by_cases hlt : finalOffset r segments i e < q.tmpBufferSize
    · have hstays := (hright.segmentInside hfirst hsecond hgathered.table hlength hi
        (getElem?_unmapped hi hlt)).stays hin
      simp only at hstays
      omega
    · have hmark := (hright.segmentInside hfirst hsecond hgathered.table hlength hi
        (getElem?_unmapped_of_le hi (Nat.le_of_not_lt hlt))).within.1
      have hhigh := hgathered.high
      simp only at hmark
      omega

/-- Both calls keep their promise, wherever the buffer moves to, exactly where the buffer has
room for the vector or none of its segments, and no empty segment is copied to its very end. -/
theorem copiesRight_iff (h : WellBuilt p vec segments live bound)
    (hfuel : segments.length < fuel) :
    (∀ a, Allocator.Sound a live bound → CopiesRight a fuel p vec segments) ↔
      Copyable p vec segments := by
  refine ⟨fun hright => ?_, fun hcopyable a hsound =>
    copiesRight_of_copyable h hsound hfuel hcopyable⟩
  obtain ⟨far, hfree⟩ := h.free
  have hsound := farAllocator_sound hfree
  have hfar := hright (farAllocator far) hsound
  have hroom : startSize p vec segments.length ≤ p.tmpBufferSize ∨
      ∀ e ∈ segments, p.inBuffer e.iovBase = false := by
    by_cases hroom : startSize p vec segments.length ≤ p.tmpBufferSize
    · exact Or.inl hroom
    · refine Or.inr fun e he => Bool.eq_false_iff.mpr fun hin => ?_
      exact not_copiesRight_of_moved h hfree hfuel he hin (Nat.lt_of_not_le hroom) hfar
  exact ⟨hroom, fun hends => not_copiesRight_of_endsFull h hsound hfuel hroom hends hfar⟩

/-! A vector of the application for the message that fills a buffer of 1024 bytes, and for 24 bytes
of the application. -/

def messageSegments : List FFSEncodeVec :=
  [{ iovBase := 65536, iovLen := 1024 }, { iovBase := 4144, iovLen := 24 }]

def messageVec : Nat := 4096

def messageMem : Mem :=
  fun x => (leBytes 8 65536 ++ leBytes 8 1024 ++ leBytes 8 4144 ++ leBytes 8 24).getD
    (x - messageVec) 0

def messageProcess (size : Nat) : Process where
  mem := messageMem
  tmpBuffer := 65536
  tmpBufferSize := size
  tmpBufferInUseSize := 1024

def messageLive (x : Nat) : Prop := messageVec ≤ x ∧ x < messageVec + 72

theorem messageTable (size : Nat) :
    Table (messageProcess size) messageVec messageSegments := by
  have hentries : ∀ s ∈ messageSegments.zipIdx,
      leValue (messageMem.read (messageVec + sizeofFFSEncodeVec * s.2) 8) = s.1.iovBase ∧
        leValue (messageMem.read (messageVec + sizeofFFSEncodeVec * s.2 + 8) 8) = s.1.iovLen := by
    decide
  have hlast : leValue (messageMem.read (messageVec + sizeofFFSEncodeVec * 2) 8) = 0 := by
    decide
  have hlength : messageSegments.length = 2 := rfl
  have hmem : (messageProcess size).mem = messageMem := by rw [messageProcess]
  refine ⟨fun {i e} he => ?_, by simp only [Process.iovBase, hlength, hmem, hlast]⟩
  simp only [Process.iovBase, Process.iovLen, hmem]
  exact hentries (e, i) (List.mem_zipIdx_iff_getElem?.mpr he)

theorem messageProcess_free {size : Nat} (h : size ≤ 2048) :
    FreeAt (messageProcess size) messageLive 2048 131072 := by
  refine ⟨by decide, by decide, fun x hx => Or.inl ?_, Or.inl ?_⟩
  · unfold messageLive messageVec at hx
    omega
  · show 65536 + size ≤ 131072
    omega

theorem messageProcess_wellBuilt {size : Nat} (hlow : 1024 ≤ size) (hhigh : size ≤ 2048) :
    WellBuilt (messageProcess size) messageVec messageSegments messageLive 2048 := by
  have hout : (messageProcess size).inBuffer messageVec = false :=
    Bool.eq_false_iff.mpr fun hin =>
      absurd (inBuffer_iff.mp hin).1 (show ¬ 65536 ≤ 4096 by decide)
  have hin : (messageProcess size).inBuffer 65536 = true := inBuffer_iff.mpr
    ⟨Nat.le_refl _, show 65536 < 65536 + size by omega⟩
  have hbeside : (messageProcess size).inBuffer 4144 = false :=
    Bool.eq_false_iff.mpr fun hin =>
      absurd (inBuffer_iff.mp hin).1 (show ¬ 65536 ≤ 4144 by decide)
  have hexternal : external (messageProcess size) messageSegments =
      [{ iovBase := 4144, iovLen := 24 }] := by
    simp only [external, messageSegments, List.filter_cons, hin, hbeside, List.filter_nil]
    rfl
  constructor
  case table => exact messageTable size
  case base_ne =>
    decide
  case apart =>
    refine ⟨fun _ => ?_, ?_, hlow, fun x hx => Or.inl ?_⟩
    · show size + 1 < 65536
      omega
    · show 65536 + size < 2 ^ 63
      omega
    · unfold messageLive messageVec at hx
      show x < 65536
      omega
  case vecIn =>
    intro hvec
    exact absurd (hout.symm.trans hvec) Bool.false_ne_true
  case vecOut =>
    intro _ k hk
    have hk : k < 48 := hk
    unfold messageLive
    omega
  case inside =>
    intro e he hinside k hk
    obtain rfl | rfl : e = ⟨65536, 1024⟩ ∨ e = ⟨4144, 24⟩ := by simpa [messageSegments] using he
    · show 65536 + k < 65536 + 1024 ∧ (65536 + k < 4096 ∨ 4096 + 48 ≤ 65536 + k)
      have hk : k < 1024 := hk
      omega
    · exact absurd (hbeside.symm.trans hinside) Bool.false_ne_true
  case outside =>
    intro e he hnot
    obtain rfl | rfl : e = ⟨65536, 1024⟩ ∨ e = ⟨4144, 24⟩ := by simpa [messageSegments] using he
    · exact absurd (hnot.symm.trans hin) Bool.false_ne_true
    · refine ⟨by unfold messageLive; decide, fun k hk => ?_⟩
      have hk : k < 24 := hk
      show 4096 ≤ 4144 + k ∧ 4144 + k < 4096 + 72
      omega
  case fits =>
    rw [startSize, hout, hexternal]
    show 4 * 16 + 1024 + 24 ≤ 2048
    decide
  case free => exact ⟨131072, messageProcess_free hhigh⟩

theorem copiesRight_iff_message :
    Copyable (messageProcess 2048) messageVec messageSegments ∧
      ((∀ a, Allocator.Sound a messageLive 2048 →
          CopiesRight a 3 (messageProcess 2048) messageVec messageSegments) ↔
        Copyable (messageProcess 2048) messageVec messageSegments) := by
  refine ⟨⟨Or.inl (by decide), ?_⟩, copiesRight_iff
    (messageProcess_wellBuilt (by decide) (Nat.le_refl _)) (by decide)⟩
  intro hends
  obtain ⟨e, he, hempty⟩ := hends.1
  have hlast : (external (messageProcess 2048) messageSegments).getLast? = some ⟨4144, 24⟩ := by
    decide
  cases hlast.symm.trans he
  cases hempty

theorem not_copiesRight_message :
    WellBuilt (messageProcess 1024) messageVec messageSegments messageLive 2048 ∧
      (farAllocator 131072).Sound messageLive 2048 ∧
      ¬ CopiesRight (farAllocator 131072) 3 (messageProcess 1024) messageVec messageSegments := by
  have hbuilt := messageProcess_wellBuilt (Nat.le_refl 1024) (by decide)
  have hfree : FreeAt (messageProcess 1024) messageLive 2048 131072 :=
    messageProcess_free (by decide)
  refine ⟨hbuilt, farAllocator_sound hfree, ?_⟩
  exact not_copiesRight_of_moved hbuilt hfree (by decide) List.mem_cons_self (by decide) (by decide)

end FFS
