import FFS.Machine.Integers
import FFS.Machine.Scatter

/-!
# Vectored transfers

`unix_writev_func` and `unix_readv_func` over a descriptor that moves as many bytes in a call as
it likes, or reports an error.  A schedule is what the system answers to one call after the
other.  A function whose schedule is used up is still waiting.
-/

namespace FFS
namespace UnixIO

open Machine

/-- `EAGAIN`, which is `EWOULDBLOCK` too. -/
def eagain : Nat := 11

def eintr : Nat := 4

/-- An `int` that is assigned `x`. -/
@[irreducible] def int (x : Int) : Int := IntType.i.wrap x

/-- Where a function stands: its schedule is used up, or it has returned a `size_t` with what it
stored for `errno_p` and `result_p`, or it has gone beyond its vector. -/
inductive Progress where
  | waiting
  | returned (result : Nat) (errnoP : Option Nat) (resultP : Option String)
  | outOfVector
deriving DecidableEq

/-! ## Writing -/

/-- An answer of `writev`. -/
inductive WriteEvent where
  | transfer (n : Nat)
  | failed (errno : Nat)
deriving DecidableEq

/-- The locals of `unix_writev_func`, and `errno`. -/
structure WritevState where
  iov : List (Segment Nat)
  iovleft : Nat
  left : Int
  errno : Nat

/-- `iov[iovcnt - iovleft]` -/
def block (iov : List (Segment Nat)) (iovleft : Nat) : Option (Segment Nat) :=
  if iovleft ≤ iov.length then iov[iov.length - iovleft]? else none

/-- The loop that goes past the blocks that `iget` bytes have touched. -/
def skipBlocks (iov : List (Segment Nat)) : Nat → Int → Option (Nat × Int)
  | 0, iget => if 0 < iget then none else some (0, iget)
  | iovleft + 1, iget =>
    if 0 < iget then
      (block iov (iovleft + 1)).bind fun b => skipBlocks iov iovleft (int (iget - b.len))
    else some (iovleft + 1, iget)

/-- The vector behind `iget` bytes: the last block that was touched is cut when part of it is
left. -/
def cutBlocks (iov : List (Segment Nat)) (iovleft : Nat) (iget : Int) :
    Option (List (Segment Nat) × Nat) := do
  let (iovleft, iget) ← skipBlocks iov iovleft iget
  if iget < 0 then
    let iovleft := iovleft + 1
    let b ← block iov iovleft
    let iget := int (iget + b.len)
    return (iov.set (iov.length - iovleft)
      ⟨((b.len - iget) % 2 ^ 64).toNat, (b.base + iget).toNat⟩, iovleft)
  else return (iov, iovleft)

/-- A round of the loop, when `writev` has returned `iget`. -/
def writevRound (s : WritevState) (iget : Int) : WritevState ⊕ Progress :=
  if iget = -1 ∧ s.errno ≠ eagain then
    .inr (.returned (s.iov.length - s.iovleft) (some s.errno) none)
  else
    let iget := if iget = -1 then 0 else iget
    if iget = s.left then .inr (.returned s.iov.length none none)
    else
      match cutBlocks s.iov s.iovleft iget with
      | none => .inr .outOfVector
      | some (iov, iovleft) =>
        .inl { s with iov := iov, iovleft := iovleft, left := int (s.left - iget) }

/-- What `writev` was asked and did: the bytes it took, the vectors it was given and the errors
it reported. -/
structure WritevRun where
  accepted : List UInt8
  offered : List (List (Segment Nat))
  errors : List Nat
  progress : Progress

/-- A call of `writev` with `vector`: the bytes that are taken, `iget` and `errno`. -/
def writev (m : Mem) (vector : List (Segment Nat)) (errno : Nat) :
    WriteEvent → List UInt8 × Int × Nat
  | .transfer n =>
    let accepted := (Segment.bytes m vector).take n
    (accepted, int accepted.length, errno)
  | .failed errno => ([], -1, errno)

def WriteEvent.errors : WriteEvent → List Nat
  | .transfer _ => []
  | .failed errno => [errno]

def writevLoop (m : Mem) : WritevState → List WriteEvent → WritevRun
  | s, [] => ⟨[], [], [], if 0 < s.left then .waiting else .returned s.iov.length none none⟩
  | s, event :: events =>
    if 0 < s.left then
      let vector := s.iov.drop (s.iov.length - s.iovleft)
      let (accepted, iget, errno) := writev m vector s.errno event
      let run := match writevRound { s with errno := errno } iget with
        | .inl s => writevLoop m s events
        | .inr progress => ⟨[], [], [], progress⟩
      ⟨accepted ++ run.accepted, vector :: run.offered, event.errors ++ run.errors, run.progress⟩
    else ⟨[], [], [], .returned s.iov.length none none⟩

/-- `unix_writev_func` -/
def unixWritevFunc (m : Mem) (iov : List (Segment Nat)) (events : List WriteEvent) : WritevRun :=
  let left := iov.foldl (fun left b => int (left + b.len)) 0
  writevLoop m ⟨iov, iov.length, left, 0⟩ events

/-! ## Reading -/

/-- An answer of `readv`. -/
inductive ReadEvent where
  | deliver (bytes : List UInt8)
  | failed (errno : Nat)
deriving DecidableEq

/-- The loop that goes past the blocks that `iget` bytes have filled, or cuts one.  The vector
begins at `iov` and has `icount` blocks. -/
def advanceBlocks : List (Segment Nat) → Int → Option (List (Segment Nat))
  | [], iget => if 0 < iget then none else some []
  | b :: iov, iget =>
    if 0 < iget then
      if b.len ≤ iget then advanceBlocks iov (int (iget - b.len))
      else some (⟨(b.len - iget).toNat, (b.base + iget).toNat⟩ :: iov)
    else some (b :: iov)

/-- The locals of `unix_readv_func`, `errno` and what `errno_p` was given. -/
structure ReadvState where
  iov : List (Segment Nat)
  errno : Nat
  errnoP : Option Nat

/-- A round of the loop, when `readv` has returned `iget`. -/
def readvRound (s : ReadvState) (iget : Int) : ReadvState ⊕ Progress :=
  if iget = 0 then .inr (.returned 0 (some 0) (some "End of file"))
  else if iget = -1 then
    if s.errno ≠ eagain ∧ s.errno ≠ eintr then .inr (.returned (2 ^ 64 - 1) (some s.errno) none)
    else .inl { s with errnoP := some 0 }
  else
    match advanceBlocks s.iov iget with
    | none => .inr .outOfVector
    | some iov => .inl { s with iov := iov }

/-- What `readv` was asked and did, and memory at the end.  `ended` says that it had nothing to
deliver. -/
structure ReadvRun where
  memory : Mem
  delivered : List UInt8
  offered : List (List (Segment Nat))
  errors : List Nat
  ended : Bool
  progress : Progress

/-- A call of `readv` with `vector`: the bytes that are delivered, `iget` and `errno`. -/
def readv (vector : List (Segment Nat)) (errno : Nat) : ReadEvent → List UInt8 × Int × Nat
  | .deliver bytes =>
    let delivered := bytes.take (Segment.total vector)
    (delivered, int delivered.length, errno)
  | .failed errno => ([], -1, errno)

def ReadEvent.errors : ReadEvent → List Nat
  | .deliver _ => []
  | .failed errno => [errno]

def ReadEvent.ended : ReadEvent → Bool
  | .deliver bytes => bytes.isEmpty
  | .failed _ => false

def readvLoop (origIcount : Nat) : Mem → ReadvState → List ReadEvent → ReadvRun
  | m, s, [] =>
    ⟨m, [], [], [], false, if s.iov = [] then .returned origIcount s.errnoP none else .waiting⟩
  | m, s, event :: events =>
    if s.iov = [] then ⟨m, [], [], [], false, .returned origIcount s.errnoP none⟩
    else
      let (delivered, iget, errno) := readv s.iov s.errno event
      let stored := Segment.fill m s.iov delivered
      let run := match readvRound { s with errno := errno } iget with
        | .inl s => readvLoop origIcount stored s events
        | .inr progress => ⟨stored, [], [], [], false, progress⟩
      ⟨run.memory, delivered ++ run.delivered, s.iov :: run.offered, event.errors ++ run.errors,
        event.ended || run.ended, run.progress⟩

/-- `unix_readv_func` -/
def unixReadvFunc (m : Mem) (iov : List (Segment Nat)) (events : List ReadEvent) : ReadvRun :=
  readvLoop iov.length m ⟨iov, 0, none⟩ events

/-! ## The blocks behind a transfer -/

theorem int_of_small {x : Int} (hlow : -2 ^ 31 ≤ x) (hhigh : x < 2 ^ 31) : int x = x := by
  unfold int
  exact IntType.wrap_of_inRange ⟨hlow, hhigh⟩

theorem int_int (x : Int) : int (int x) = int x := by
  unfold int
  exact IntType.wrap_wrap _ x

theorem int_lt (x : Int) : int x < 2 ^ 31 := by
  unfold int
  exact (IntType.inRange_wrap .i x).2

theorem skipBlocks_stop (iov : List (Segment Nat)) (iovleft : Nat) {iget : Int} (h : ¬ 0 < iget) :
    skipBlocks iov iovleft iget = some (iovleft, iget) := by
  cases iovleft with
  | zero => exact if_neg h
  | succ iovleft => exact if_neg h

theorem block_succ {iov : List (Segment Nat)} {iovleft : Nat} (h : iovleft + 1 ≤ iov.length) :
    ∃ b, block iov (iovleft + 1) = some b ∧
      iov.drop (iov.length - (iovleft + 1)) = b :: iov.drop (iov.length - iovleft) := by
  have hindex : iov.length - (iovleft + 1) < iov.length := by omega
  refine ⟨iov[iov.length - (iovleft + 1)], ?_, ?_⟩
  · rw [block, if_pos h, List.getElem?_eq_getElem hindex]
  · rw [List.drop_eq_getElem_cons hindex]
    congr 2
    omega

/-- The loop over blocks leaves the vector behind the bytes. -/
theorem cutBlocks_advance {iov : List (Segment Nat)} {iovleft n : Nat}
    (hleft : iovleft ≤ iov.length)
    (hn : n ≤ Segment.total (iov.drop (iov.length - iovleft)))
    (hsmall : Segment.total (iov.drop (iov.length - iovleft)) < 2 ^ 31) :
    ∃ iov' iovleft', cutBlocks iov iovleft n = some (iov', iovleft') ∧
      iov'.length = iov.length ∧ iovleft' ≤ iov.length ∧
      iov'.drop (iov.length - iovleft') =
        Segment.advance (iov.drop (iov.length - iovleft)) n := by
  induction iovleft generalizing n with
  | zero =>
    rw [Nat.sub_zero, List.drop_length] at hn ⊢
    have hzero : n = 0 := Nat.le_zero.mp hn
    subst hzero
    exact ⟨iov, 0, rfl, rfl, Nat.zero_le _, by rw [Nat.sub_zero, List.drop_length]; rfl⟩
  | succ iovleft ih =>
    obtain ⟨b, hblock, hdrop⟩ := block_succ hleft
    rw [hdrop, Segment.total_cons] at hn hsmall
    rw [hdrop]
    by_cases hzero : n = 0
    · subst hzero
      refine ⟨iov, iovleft + 1, rfl, rfl, hleft, ?_⟩
      rw [Segment.advance_zero, hdrop]
    have hpos : (0 : Int) < n := by omega
    by_cases hwhole : b.len ≤ n
    · -- The block is done with.
      have hsub : int ((n : Int) - b.len) = ((n - b.len : Nat) : Int) := by
        rw [int_of_small (by omega) (by omega)]
        omega
      have hskip : cutBlocks iov (iovleft + 1) n = cutBlocks iov iovleft (n - b.len : Nat) := by
        unfold cutBlocks
        rw [skipBlocks, if_pos hpos, hblock, Option.bind_some, hsub]
      rw [hskip, Segment.advance, if_neg hzero, if_pos hwhole]
      exact ih (by omega) (by omega) (by omega)
    · -- Part of the block is left.
      have hsub : int ((n : Int) - b.len) = n - b.len := int_of_small (by omega) (by omega)
      have hback : int ((n : Int) - b.len + b.len) = n := by
        rw [Int.sub_add_cancel]
        exact int_of_small (by omega) (by omega)
      have hlen : (((b.len : Int) - n) % 2 ^ 64).toNat = b.len - n := by omega
      have hbase : ((b.base : Int) + n).toNat = b.base + n := by omega
      have hcut : cutBlocks iov (iovleft + 1) n =
          some (iov.set (iov.length - (iovleft + 1)) ⟨b.len - n, b.base + n⟩, iovleft + 1) := by
        have hneg : (n : Int) - b.len < 0 := by omega
        unfold cutBlocks
        rw [skipBlocks, if_pos hpos, hblock, Option.bind_some, hsub,
          skipBlocks_stop iov iovleft (by omega)]
        simp only [Option.bind_eq_bind, Option.bind_some, if_pos hneg, hblock, hback, hlen, hbase]
        rfl
      refine ⟨_, _, hcut, List.length_set, hleft, ?_⟩
      rw [Segment.advance, if_neg hzero, if_neg hwhole, List.drop_set,
        if_neg (Nat.lt_irrefl _), hdrop, Nat.sub_self]
      rfl

/-! ## Writing -/

/-- What a run of the writer may do from a vector on: `count` is returned when the bytes that were
taken are those of the vector. -/
structure Sends (m : Mem) (count : Nat) (vector : List (Segment Nat)) (run : WritevRun) :
    Prop where
  inVector : run.progress ≠ .outOfVector
  exact : ∀ errnoP resultP, run.progress = .returned count errnoP resultP →
    run.accepted = Segment.bytes m vector
  refused : ∀ errno ∈ run.errors, errno ≠ eagain →
    ∃ result errnoP resultP, run.progress = .returned result errnoP resultP ∧ result ≠ count
  inside : ∀ offer ∈ run.offered, ∀ x, Segment.Covers offer x → Segment.Covers vector x

/-- The state of the writer with `vector` before it. -/
structure WritevAt (s : WritevState) (vector : List (Segment Nat)) : Prop where
  inside : s.iovleft ≤ s.iov.length
  ahead : s.iov.drop (s.iov.length - s.iovleft) = vector
  left : s.left = Segment.total vector
  small : Segment.total vector < 2 ^ 31

theorem WritevAt.iovleft_pos {s : WritevState} {vector : List (Segment Nat)}
    (h : WritevAt s vector) (hleft : 0 < s.left) : 0 < s.iovleft := by
  by_contra hzero
  have hnone : s.iovleft = 0 := by omega
  have hahead := h.ahead
  rw [hnone, Nat.sub_zero, List.drop_length] at hahead
  have htotal := h.left
  rw [← hahead] at htotal
  simp [Segment.total] at htotal
  omega

/-- A round after `n` bytes of the vector: it was the last one, or the rest is before the
writer. -/
theorem writevRound_taken {s : WritevState} {vector : List (Segment Nat)} (h : WritevAt s vector)
    {n : Nat} (hn : n ≤ Segment.total vector) :
    (n = Segment.total vector ∧
      writevRound s n = .inr (.returned s.iov.length none none)) ∨
    ∃ s', writevRound s n = .inl s' ∧ WritevAt s' (Segment.advance vector n) ∧
      s'.iov.length = s.iov.length := by
  have hahead := h.ahead
  have hsmall := h.small
  have hleft := h.left
  have hnot : ¬ ((n : Int) = -1 ∧ s.errno ≠ eagain) := by omega
  have hkeep : (if (n : Int) = -1 then (0 : Int) else n) = n := if_neg (by omega)
  by_cases hlast : n = Segment.total vector
  · refine .inl ⟨hlast, ?_⟩
    rw [writevRound, if_neg hnot, hkeep, if_pos (by omega)]
  · subst hahead
    obtain ⟨iov, iovleft, hcut, hlength, hinside, hdrop⟩ := cutBlocks_advance h.inside hn hsmall
    refine .inr ⟨{ s with iov := iov, iovleft := iovleft, left := int (s.left - n) }, ?_, ?_,
      hlength⟩
    · rw [writevRound, if_neg hnot, hkeep, if_neg (by omega), hcut]
    · have htotal := Segment.total_advance hn
      refine ⟨by rw [hlength]; exact hinside, by rw [hlength]; exact hdrop, ?_, by omega⟩
      show int (s.left - n) = _
      rw [int_of_small (by omega) (by omega), htotal]
      omega

/-- A round after an error ends the function but for a call that would block. -/
theorem writevRound_failed {s : WritevState} {vector : List (Segment Nat)} (h : WritevAt s vector)
    (hleft : 0 < s.left) : writevRound s (-1) =
      if s.errno = eagain then .inl s
      else .inr (.returned (s.iov.length - s.iovleft) (some s.errno) none) := by
  unfold writevRound
  by_cases heagain : s.errno = eagain
  · rw [if_neg (by simp [heagain]), if_pos rfl, if_neg (by omega), if_pos heagain]
    have hstop : cutBlocks s.iov s.iovleft 0 = some (s.iov, s.iovleft) := by
      unfold cutBlocks
      rw [skipBlocks_stop _ _ (by decide)]
      rfl
    have hsmall := h.small
    have htotal := h.left
    rw [hstop, Int.sub_zero, int_of_small (by omega) (by omega)]
  · rw [if_pos ⟨rfl, heagain⟩, if_neg heagain]

theorem sends_done {m : Mem} {count : Nat} {vector : List (Segment Nat)}
    (h : Segment.total vector = 0) :
    Sends m count vector ⟨[], [], [], .returned count none none⟩ := by
  have hnone : Segment.bytes m vector = [] := by
    rw [← List.length_eq_zero_iff, Segment.length_bytes, h]
  refine ⟨fun hout => ?_, fun _ _ _ => hnone.symm, fun errno hmem => ?_, fun offer hmem => ?_⟩
  · cases hout
  · cases hmem
  · cases hmem

/-- A call that takes the first bytes, and a run from what is left. -/
theorem sends_more {m : Mem} {count n : Nat} {vector : List (Segment Nat)} {run : WritevRun}
    {errors : List Nat} (herrors : ∀ errno ∈ errors, errno = eagain)
    (h : Sends m count (Segment.advance vector n) run) :
    Sends m count vector ⟨(Segment.bytes m vector).take n ++ run.accepted,
      vector :: run.offered, errors ++ run.errors, run.progress⟩ := by
  refine ⟨h.inVector, fun errnoP resultP hdone => ?_, fun errno hmem hother => ?_,
    fun offer hmem x hx => ?_⟩
  · show _ ++ run.accepted = _
    rw [h.exact errnoP resultP hdone, Segment.bytes_advance, List.take_append_drop]
  · cases List.mem_append.mp hmem with
    | inl hhere => exact absurd (herrors errno hhere) hother
    | inr hrest => exact h.refused errno hrest hother
  · cases List.mem_cons.mp hmem with
    | inl hhere =>
      subst hhere
      exact hx
    | inr hrest => exact Segment.covers_advance (h.inside offer hrest x hx)

section Loop

variable {m : Mem} {s s' : WritevState} {vector : List (Segment Nat)} {event : WriteEvent}
  {events : List WriteEvent} {accepted : List UInt8} {iget : Int} {errno : Nat}

theorem writevLoop_next (hleft : 0 < s.left)
    (hahead : s.iov.drop (s.iov.length - s.iovleft) = vector)
    (hcall : writev m vector s.errno event = (accepted, iget, errno))
    (hround : writevRound { s with errno := errno } iget = .inl s') :
    writevLoop m s (event :: events) = ⟨accepted ++ (writevLoop m s' events).accepted,
      vector :: (writevLoop m s' events).offered,
      event.errors ++ (writevLoop m s' events).errors,
      (writevLoop m s' events).progress⟩ := by
  rw [writevLoop, if_pos hleft, hahead]
  simp only [hcall, hround]

theorem writevLoop_stop (hleft : 0 < s.left)
    (hahead : s.iov.drop (s.iov.length - s.iovleft) = vector) {progress : Progress}
    (hcall : writev m vector s.errno event = (accepted, iget, errno))
    (hround : writevRound { s with errno := errno } iget = .inr progress) :
    writevLoop m s (event :: events) = ⟨accepted, [vector], event.errors, progress⟩ := by
  rw [writevLoop, if_pos hleft, hahead]
  simp only [hcall, hround, List.append_nil]

end Loop

theorem sends_transfer {m : Mem} {s : WritevState} {vector : List (Segment Nat)}
    (h : WritevAt s vector) (hleft : 0 < s.left) {n : Nat} {events : List WriteEvent}
    (ih : ∀ {s' : WritevState} {vector' : List (Segment Nat)}, WritevAt s' vector' →
      Sends m s'.iov.length vector' (writevLoop m s' events)) :
    Sends m s.iov.length vector (writevLoop m s (.transfer n :: events)) := by
  have hsmall := h.small
  have hlen : ((Segment.bytes m vector).take n).length = min n (Segment.total vector) := by
    rw [List.length_take, Segment.length_bytes]
  have hint : int ((Segment.bytes m vector).take n).length =
      (min n (Segment.total vector) : Nat) := by
    rw [hlen]
    exact int_of_small (by omega) (by omega)
  have hcall : writev m vector s.errno (.transfer n) = ((Segment.bytes m vector).take n,
      ((min n (Segment.total vector) : Nat) : Int), s.errno) := by
    rw [writev, hint]
  have htake : (Segment.bytes m vector).take n =
      (Segment.bytes m vector).take (min n (Segment.total vector)) := by
    rw [← List.take_take, ← Segment.length_bytes m vector, List.take_length]
  obtain ⟨hlast, hround⟩ | ⟨s', hround, hat, hlength⟩ :=
    writevRound_taken h (Nat.min_le_right n (Segment.total vector))
  · rw [writevLoop_stop hleft h.ahead hcall hround]
    refine ⟨fun hout => ?_, fun _ _ _ => ?_, fun errno hmem => ?_, fun offer hmem x hx => ?_⟩
    · cases hout
    · show (Segment.bytes m vector).take n = _
      rw [htake, hlast, ← Segment.length_bytes m vector, List.take_length]
    · cases hmem
    · cases List.mem_singleton.mp hmem
      exact hx
  · rw [writevLoop_next hleft h.ahead hcall hround, htake]
    have hrest := ih hat
    rw [hlength] at hrest
    exact @sends_more _ _ _ _ _ [] (fun _ hmem => by cases hmem) hrest

theorem sends_failed {m : Mem} {s : WritevState} {vector : List (Segment Nat)}
    (h : WritevAt s vector) (hleft : 0 < s.left) {errno : Nat} {events : List WriteEvent}
    (ih : ∀ {s' : WritevState} {vector' : List (Segment Nat)}, WritevAt s' vector' →
      Sends m s'.iov.length vector' (writevLoop m s' events)) :
    Sends m s.iov.length vector (writevLoop m s (.failed errno :: events)) := by
  have hat : WritevAt { s with errno := errno } vector := ⟨h.inside, h.ahead, h.left, h.small⟩
  have hround := writevRound_failed hat hleft
  have hcall : writev m vector s.errno (.failed errno) = ([], -1, errno) := rfl
  by_cases heagain : errno = eagain
  · rw [if_pos heagain] at hround
    rw [writevLoop_next hleft h.ahead hcall hround]
    have hrest := ih hat
    rw [← Segment.advance_zero vector] at hrest
    refine @sends_more m _ 0 _ _ [errno] (fun other hmem => ?_) hrest
    rw [List.mem_singleton.mp hmem]
    exact heagain
  · rw [if_neg heagain] at hround
    rw [writevLoop_stop hleft h.ahead hcall hround]
    have hpos := h.iovleft_pos hleft
    have hinside := h.inside
    have hfewer : s.iov.length - s.iovleft ≠ s.iov.length := by omega
    refine ⟨fun hout => ?_, fun _ _ hdone => ?_, fun _ _ _ => ⟨_, _, _, rfl, hfewer⟩,
      fun offer hmem x hx => ?_⟩
    · cases hout
    · exact absurd (Progress.returned.inj hdone).1 hfewer
    · cases List.mem_singleton.mp hmem
      exact hx

/-- The writer keeps its promise from every vector that an `int` can count. -/
theorem sends_loop {m : Mem} {s : WritevState} {vector : List (Segment Nat)}
    (h : WritevAt s vector) (events : List WriteEvent) :
    Sends m s.iov.length vector (writevLoop m s events) := by
  induction events generalizing s vector with
  | nil =>
    unfold writevLoop
    by_cases hleft : 0 < s.left
    · rw [if_pos hleft]
      refine ⟨fun hout => ?_, fun _ _ hdone => ?_, fun errno hmem => ?_, fun offer hmem => ?_⟩
      · cases hout
      · cases hdone
      · cases hmem
      · cases hmem
    · rw [if_neg hleft]
      exact sends_done (by have := h.left; omega)
  | cons event events ih =>
    by_cases hleft : 0 < s.left
    · cases event with
      | transfer n => exact sends_transfer h hleft ih
      | failed errno => exact sends_failed h hleft ih
    · rw [writevLoop, if_neg hleft]
      exact sends_done (by have := h.left; omega)

theorem int_add (x : Int) (y : Nat) : int (int x + y) = int (x + y) := by
  unfold int
  rw [← IntType.wrap_add, IntType.wrap_wrap, IntType.wrap_add]

/-- The lengths are summed in an `int`. -/
theorem sum_left (iov : List (Segment Nat)) (left : Int) :
    int (iov.foldl (fun left b => int (left + b.len)) left) = int (left + Segment.total iov) := by
  induction iov generalizing left with
  | nil => simp [Segment.total]
  | cons b iov ih =>
    rw [List.foldl_cons, ih, int_add, Segment.total_cons]
    congr 1
    omega

theorem sum_left_zero (iov : List (Segment Nat)) :
    iov.foldl (fun left b => int (left + b.len)) 0 = int (Segment.total iov) := by
  have hsum := sum_left iov 0
  rw [Int.zero_add] at hsum
  rw [← hsum]
  obtain rfl | ⟨front, b, rfl⟩ := List.eq_nil_or_concat' iov
  · exact (@int_of_small 0 (by omega) (by omega)).symm
  · rw [List.foldl_concat]
    exact (int_int _).symm

theorem unixWritevFunc_sends (m : Mem) {iov : List (Segment Nat)}
    (hsmall : Segment.total iov < 2 ^ 31) (events : List WriteEvent) :
    Sends m iov.length iov (unixWritevFunc m iov events) := by
  have hat : WritevAt ⟨iov, iov.length, int (Segment.total iov), 0⟩ iov := by
    refine ⟨Nat.le_refl _, ?_, ?_, hsmall⟩
    · show iov.drop (iov.length - iov.length) = iov
      rw [Nat.sub_self, List.drop_zero]
    · show int (Segment.total iov) = _
      exact int_of_small (by omega) (by omega)
  unfold unixWritevFunc
  rw [sum_left_zero]
  exact sends_loop hat events

/-- A total that the `int` does not hold is taken for the sum that it holds, or for nothing. -/
theorem not_sends_of_large (m : Mem) {iov : List (Segment Nat)}
    (hlarge : 2 ^ 31 ≤ Segment.total iov) :
    ∃ events, ¬ Sends m iov.length iov (unixWritevFunc m iov events) := by
  have hhigh := int_lt (Segment.total iov)
  have hbytes : 2 ^ 31 ≤ (Segment.bytes m iov).length := by rwa [Segment.length_bytes]
  by_cases hleft : 0 < int (Segment.total iov)
  · refine ⟨[.transfer (int (Segment.total iov)).toNat], fun h => ?_⟩
    have hlen : ((Segment.bytes m iov).take (int (Segment.total iov)).toNat).length =
        (int (Segment.total iov)).toNat := by
      rw [List.length_take]
      omega
    have hint : int ((Segment.bytes m iov).take (int (Segment.total iov)).toNat).length =
        int (Segment.total iov) := by
      rw [hlen, Int.toNat_of_nonneg (Int.le_of_lt hleft)]
      exact int_int _
    have hahead : iov.drop (iov.length - iov.length) = iov := by
      rw [Nat.sub_self, List.drop_zero]
    have hcall : writev m iov 0 (.transfer (int (Segment.total iov)).toNat) =
        ((Segment.bytes m iov).take (int (Segment.total iov)).toNat, int (Segment.total iov),
          0) := by
      rw [writev, hint]
    have hround : writevRound ⟨iov, iov.length, int (Segment.total iov), 0⟩
        (int (Segment.total iov)) = .inr (.returned iov.length none none) := by
      have hkeep : int (Segment.total iov) ≠ -1 := by omega
      rw [writevRound, if_neg fun hboth => hkeep hboth.1, if_neg hkeep, if_pos rfl]
    have hrun : writevLoop m ⟨iov, iov.length, int (Segment.total iov), 0⟩
        [.transfer (int (Segment.total iov)).toNat] = ⟨_, _, _, _⟩ :=
      writevLoop_stop hleft hahead hcall hround
    unfold unixWritevFunc at h
    rw [sum_left_zero, hrun] at h
    have hexact := congrArg List.length (h.exact none none rfl)
    rw [hlen] at hexact
    omega
  · refine ⟨[], fun h => ?_⟩
    unfold unixWritevFunc at h
    rw [sum_left_zero, writevLoop, if_neg hleft] at h
    have hexact := congrArg List.length (h.exact none none rfl)
    rw [List.length_nil] at hexact
    omega

/-! ## Reading -/

/-- What a run of the reader may do from a vector on, with memory `m`: `count` is returned when
what was delivered is as long as the vector and lies in its segments. -/
structure Fills (m : Mem) (count : Nat) (vector : List (Segment Nat)) (run : ReadvRun) :
    Prop where
  inVector : run.progress ≠ .outOfVector
  exact : ∀ errnoP resultP, run.progress = .returned count errnoP resultP →
    run.delivered.length = Segment.total vector ∧
      run.memory = Segment.fill m vector run.delivered
  refused : (∃ errno ∈ run.errors, errno ≠ eagain ∧ errno ≠ eintr) ∨ run.ended = true →
    ∃ result errnoP resultP, run.progress = .returned result errnoP resultP ∧ result ≠ count
  inside : ∀ offer ∈ run.offered, ∀ x, Segment.Covers offer x → Segment.Covers vector x
  outside : ∀ x, ¬ Segment.Covers vector x → run.memory x = m x

/-- No call delivers more than an `int` counts. -/
def Counted (vector : List (Segment Nat)) (events : List ReadEvent) : Prop :=
  Segment.total vector < 2 ^ 31 ∨ ∀ bytes, .deliver bytes ∈ events → bytes.length < 2 ^ 31

/-- The loop over blocks leaves the vector behind the bytes, of any lengths. -/
theorem advanceBlocks_eq {vector : List (Segment Nat)} {n : Nat} (hn : n ≤ Segment.total vector)
    (hint : n < 2 ^ 31) : advanceBlocks vector n = some (Segment.advance vector n) := by
  induction vector generalizing n with
  | nil =>
    have hzero : n = 0 := Nat.le_zero.mp hn
    subst hzero
    rfl
  | cons b vector ih =>
    rw [Segment.total_cons] at hn
    unfold advanceBlocks Segment.advance
    by_cases hzero : n = 0
    · rw [if_neg (by omega), if_pos hzero]
    rw [if_pos (by omega), if_neg hzero]
    by_cases hwhole : b.len ≤ n
    · have hsub : int ((n : Int) - b.len) = ((n - b.len : Nat) : Int) := by
        rw [int_of_small (by omega) (by omega)]
        omega
      rw [if_pos (by omega), if_pos hwhole, hsub]
      exact ih (by omega) (by omega)
    · have hlen : ((b.len : Int) - n).toNat = b.len - n := by omega
      have hbase : ((b.base : Int) + n).toNat = b.base + n := by omega
      rw [if_neg (by omega), if_neg hwhole, hlen, hbase]

section Loop

variable {m : Mem} {s s' : ReadvState} {event : ReadEvent} {events : List ReadEvent}
  {delivered : List UInt8} {iget : Int} {errno count : Nat}

theorem readvLoop_next (hmore : s.iov ≠ [])
    (hcall : readv s.iov s.errno event = (delivered, iget, errno))
    (hround : readvRound { s with errno := errno } iget = .inl s') :
    readvLoop count m s (event :: events) =
      let run := readvLoop count (Segment.fill m s.iov delivered) s' events
      ⟨run.memory, delivered ++ run.delivered, s.iov :: run.offered, event.errors ++ run.errors,
        event.ended || run.ended, run.progress⟩ := by
  rw [readvLoop, if_neg hmore]
  simp only [hcall, hround]

theorem readvLoop_stop (hmore : s.iov ≠ []) {progress : Progress}
    (hcall : readv s.iov s.errno event = (delivered, iget, errno))
    (hround : readvRound { s with errno := errno } iget = .inr progress) :
    readvLoop count m s (event :: events) =
      ⟨Segment.fill m s.iov delivered, delivered, [s.iov], event.errors, event.ended,
        progress⟩ := by
  rw [readvLoop, if_neg hmore]
  simp only [hcall, hround, List.append_nil, Bool.or_false]

end Loop

theorem fills_done {m : Mem} {count : Nat} (errnoP : Option Nat) :
    Fills m count [] ⟨m, [], [], [], false, .returned count errnoP none⟩ := by
  refine ⟨fun hout => ?_, fun _ _ _ => ⟨rfl, rfl⟩, fun hbad => ?_, fun offer hmem => ?_,
    fun _ _ => rfl⟩
  · cases hout
  · obtain ⟨errno, hmem, -⟩ | hended := hbad
    · cases hmem
    · cases hended
  · cases hmem

/-- A call that has stored some bytes, after which another result than `count` is returned. -/
theorem fills_refused {m : Mem} {count result : Nat} {vector : List (Segment Nat)}
    (delivered : List UInt8) (errors : List Nat) (ended : Bool) (errnoP : Option Nat)
    (resultP : Option String) (hresult : result ≠ count) :
    Fills m count vector ⟨Segment.fill m vector delivered, delivered, [vector], errors, ended,
      .returned result errnoP resultP⟩ := by
  refine ⟨fun hout => ?_, fun _ _ hdone => ?_, fun _ => ⟨_, _, _, rfl, hresult⟩,
    fun offer hmem x hx => ?_, fun x hx => Segment.fill_outside hx⟩
  · cases hout
  · exact absurd (Progress.returned.inj hdone).1 hresult
  · cases List.mem_singleton.mp hmem
    exact hx

/-- A call that stores some bytes, and a run from what is left. -/
theorem fills_more {m : Mem} {count : Nat} {vector : List (Segment Nat)} {run : ReadvRun}
    {delivered : List UInt8} {errors : List Nat} {ended : Bool}
    (hlen : delivered.length ≤ Segment.total vector)
    (herrors : ∀ errno ∈ errors, errno = eagain ∨ errno = eintr) (hended : ended = false)
    (h : Fills (Segment.fill m vector delivered) count
      (Segment.advance vector delivered.length) run) :
    Fills m count vector ⟨run.memory, delivered ++ run.delivered, vector :: run.offered,
      errors ++ run.errors, ended || run.ended, run.progress⟩ := by
  refine ⟨h.inVector, fun errnoP resultP hdone => ?_, fun hbad => h.refused ?_,
    fun offer hmem x hx => ?_, fun x hx => ?_⟩
  · obtain ⟨hrest, hmemory⟩ := h.exact errnoP resultP hdone
    rw [Segment.total_advance hlen] at hrest
    refine ⟨?_, ?_⟩
    · show (delivered ++ run.delivered).length = _
      rw [List.length_append]
      omega
    · show run.memory = _
      rw [hmemory, Segment.fill_append]
  · obtain ⟨errno, hmem, hother⟩ | hend := hbad
    · refine .inl ⟨errno, ?_, hother⟩
      cases List.mem_append.mp hmem with
      | inl hhere =>
        cases herrors errno hhere with
        | inl heagain => exact absurd heagain hother.1
        | inr heintr => exact absurd heintr hother.2
      | inr hrest => exact hrest
    · refine .inr ?_
      rwa [hended] at hend
  · cases List.mem_cons.mp hmem with
    | inl hhere =>
      subst hhere
      exact hx
    | inr hrest => exact Segment.covers_advance (h.inside offer hrest x hx)
  · show run.memory x = m x
    rw [h.outside x fun hcover => hx (Segment.covers_advance hcover), Segment.fill_outside hx]

theorem length_advance (vector : List (Segment Nat)) (n : Nat) :
    (Segment.advance vector n).length ≤ vector.length := by
  induction vector generalizing n with
  | nil => exact Nat.le_refl _
  | cons b vector ih =>
    unfold Segment.advance
    split
    · exact Nat.le_refl _
    split
    · have hrest := ih (n - b.len)
      rw [List.length_cons]
      omega
    · exact Nat.le_refl _

theorem Counted.tail {vector vector' : List (Segment Nat)} {event : ReadEvent}
    {events : List ReadEvent} (h : Counted vector (event :: events))
    (htotal : Segment.total vector' ≤ Segment.total vector) : Counted vector' events := by
  cases h with
  | inl hsmall => exact .inl (by omega)
  | inr hall => exact .inr fun bytes hmem => hall bytes (List.mem_cons_of_mem _ hmem)

section Loop

variable {m : Mem} {s : ReadvState} {events : List ReadEvent} {count : Nat}
  (hfew : s.iov.length ≤ count) (hcount : count < 2 ^ 31) (hmore : s.iov ≠ [])
  (ih : ∀ {m' : Mem} {s' : ReadvState}, s'.iov.length ≤ count → Counted s'.iov events →
    Fills m' count s'.iov (readvLoop count m' s' events))
include hfew hmore ih

theorem fills_deliver {bytes : List UInt8} (hcounted : Counted s.iov (.deliver bytes :: events)) :
    Fills m count s.iov (readvLoop count m s (.deliver bytes :: events)) := by
  have hlen : (bytes.take (Segment.total s.iov)).length =
      min (Segment.total s.iov) bytes.length := List.length_take
  have hsmall : (bytes.take (Segment.total s.iov)).length < 2 ^ 31 := by
    cases hcounted with
    | inl hvector => omega
    | inr hall =>
      have hbytes := hall bytes List.mem_cons_self
      omega
  have htotal : (bytes.take (Segment.total s.iov)).length ≤ Segment.total s.iov := by omega
  have hint := @int_of_small (bytes.take (Segment.total s.iov)).length (by omega) (by omega)
  have hcall : readv s.iov s.errno (.deliver bytes) = (bytes.take (Segment.total s.iov),
      ((bytes.take (Segment.total s.iov)).length : Int), s.errno) := by
    rw [readv, hint]
  by_cases hnothing : (bytes.take (Segment.total s.iov)).length = 0
  · have hround : readvRound { s with errno := s.errno }
        ((bytes.take (Segment.total s.iov)).length : Int) =
          .inr (.returned 0 (some 0) (some "End of file")) := by
      rw [readvRound, if_pos (by omega)]
    rw [readvLoop_stop hmore hcall hround]
    refine fills_refused _ _ _ _ _ ?_
    have hpos := List.length_pos_iff.mpr hmore
    omega
  · have hround : readvRound { s with errno := s.errno }
        ((bytes.take (Segment.total s.iov)).length : Int) =
          .inl { s with iov :=
            Segment.advance s.iov (bytes.take (Segment.total s.iov)).length } := by
      rw [readvRound, if_neg (by omega), if_neg (by omega), advanceBlocks_eq htotal hsmall]
    rw [readvLoop_next hmore hcall hround]
    have hended : (ReadEvent.deliver bytes).ended = false := by
      cases bytes with
      | nil => exact absurd (by rw [List.take_nil, List.length_nil]) hnothing
      | cons b bytes => rfl
    refine fills_more htotal (fun _ hmem => by cases hmem) hended
      (@ih _ ⟨Segment.advance s.iov _, s.errno, s.errnoP⟩ ?_ ?_)
    · exact Nat.le_trans (length_advance s.iov _) hfew
    · refine hcounted.tail ?_
      rw [Segment.total_advance htotal]
      omega

include hcount in
theorem fills_failed {errno : Nat} (hcounted : Counted s.iov (.failed errno :: events)) :
    Fills m count s.iov (readvLoop count m s (.failed errno :: events)) := by
  have hcall : readv s.iov s.errno (.failed errno) = ([], -1, errno) := rfl
  by_cases hserious : errno ≠ eagain ∧ errno ≠ eintr
  · have hround : readvRound { s with errno := errno } (-1) =
        .inr (.returned (2 ^ 64 - 1) (some errno) none) := by
      rw [readvRound, if_neg (by decide), if_pos rfl, if_pos hserious]
    rw [readvLoop_stop hmore hcall hround]
    exact fills_refused _ _ _ _ _ (by omega)
  · have hround : readvRound { s with errno := errno } (-1) =
        .inl { s with errno := errno, errnoP := some 0 } := by
      rw [readvRound, if_neg (by decide), if_pos rfl, if_neg hserious]
    rw [readvLoop_next hmore hcall hround]
    have hblock : errno = eagain ∨ errno = eintr := by omega
    refine @fills_more _ _ _ _ [] [errno] _ (Nat.zero_le _) (fun other hmem => ?_) rfl ?_
    · rw [List.mem_singleton.mp hmem]
      exact hblock
    · rw [Segment.fill_nil, List.length_nil, Segment.advance_zero]
      exact @ih m { s with errno := errno, errnoP := some 0 } hfew
        (hcounted.tail (Nat.le_refl _))

end Loop

/-- The reader keeps its promise from every vector. -/
theorem fills_loop {m : Mem} {s : ReadvState} {events : List ReadEvent} {count : Nat}
    (hfew : s.iov.length ≤ count) (hcount : count < 2 ^ 31) (hcounted : Counted s.iov events) :
    Fills m count s.iov (readvLoop count m s events) := by
  induction events generalizing m s with
  | nil =>
    unfold readvLoop
    by_cases hdone : s.iov = []
    · rw [if_pos hdone, hdone]
      exact fills_done s.errnoP
    · rw [if_neg hdone]
      refine ⟨fun hout => ?_, fun _ _ hret => ?_, fun hbad => ?_, fun offer hmem => ?_,
        fun _ _ => rfl⟩
      · cases hout
      · cases hret
      · obtain ⟨errno, hmem, -⟩ | hended := hbad
        · cases hmem
        · cases hended
      · cases hmem
  | cons event events ih =>
    by_cases hdone : s.iov = []
    · rw [readvLoop, if_pos hdone, hdone]
      exact fills_done s.errnoP
    · cases event with
      | deliver bytes => exact fills_deliver hfew hdone ih hcounted
      | failed errno => exact fills_failed hfew hcount hdone ih hcounted

/-! ## Both directions -/

/-- The two functions keep their promises under every schedule exactly when an `int` holds the
total length; the reader does for every total when no call delivers more than an `int` counts. -/
theorem vectored_transfer {iov : List (Segment Nat)} (hcount : iov.length < 2 ^ 31) :
    (((∀ m events, Sends m iov.length iov (unixWritevFunc m iov events)) ∧
        ∀ m events, Fills m iov.length iov (unixReadvFunc m iov events)) ↔
      Segment.total iov < 2 ^ 31) ∧
    ∀ m events, Counted iov events → Fills m iov.length iov (unixReadvFunc m iov events) := by
  have hreads : ∀ m events, Counted iov events →
      Fills m iov.length iov (unixReadvFunc m iov events) :=
    fun m events hcounted => @fills_loop m ⟨iov, 0, none⟩ _ _ (Nat.le_refl _) hcount hcounted
  refine ⟨⟨fun h => ?_, fun hsmall => ⟨fun m events => ?_, fun m events => ?_⟩⟩, hreads⟩
  · by_contra hlarge
    obtain ⟨events, hnot⟩ := not_sends_of_large (fun _ => 0) (Nat.le_of_not_lt hlarge)
    exact hnot (h.1 _ events)
  · exact unixWritevFunc_sends m hsmall events
  · exact hreads m events (.inl hsmall)

/-- A message in two segments with an empty one between them. -/
def message : List (Segment Nat) := [⟨3, 0⟩, ⟨0, 8⟩, ⟨5, 16⟩]

theorem vectored_transfer_message :
    (((∀ m events, Sends m message.length message (unixWritevFunc m message events)) ∧
        ∀ m events, Fills m message.length message (unixReadvFunc m message events)) ↔
      Segment.total message < 2 ^ 31) ∧
    ∀ m events, Counted message events →
      Fills m message.length message (unixReadvFunc m message events) :=
  vectored_transfer (by decide)

/-- A segment of 2 GiB. -/
def twoGiB : List (Segment Nat) := [⟨2147483648, 0⟩]

/-- It is reported as written before any of it is. -/
theorem twoGiB_not_written :
    (unixWritevFunc (fun _ => 0) twoGiB []).progress = .returned twoGiB.length none none ∧
    (unixWritevFunc (fun _ => 0) twoGiB []).accepted = [] ∧
    ¬ Sends (fun _ => 0) twoGiB.length twoGiB (unixWritevFunc (fun _ => 0) twoGiB []) := by
  have hsum : int (Segment.total twoGiB) = -2147483648 := by
    unfold int
    decide
  have hrun : unixWritevFunc (fun _ => 0) twoGiB [] =
      ⟨[], [], [], .returned twoGiB.length none none⟩ := by
    unfold unixWritevFunc
    rw [sum_left_zero, hsum]
    rfl
  rw [hrun]
  refine ⟨rfl, rfl, fun h => ?_⟩
  have hexact := congrArg List.length (h.exact none none rfl)
  rw [Segment.length_bytes] at hexact
  exact absurd hexact (by decide)

end UnixIO
end FFS
