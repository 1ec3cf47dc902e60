import FFS.Machine.Mem

/-!
# Messages in segments

A message that is written with one call lies in several places.  A segment is a length and
the base it counts from, and a list of segments stands for the bytes at its places one after
the other.
-/

namespace Machine

/-- `len` bytes from `base` on. -/
structure Segment (β : Type) where
  len : Nat
  base : β
deriving DecidableEq, Repr

namespace Segment

variable {β : Type}

def total (segments : List (Segment β)) : Nat := (segments.map Segment.len).sum

/-- The segment that has byte number `i` of the message, and how far into it. -/
def locate : List (Segment β) → Nat → Option (β × Nat)
  | [], _ => none
  | segment :: segments, i =>
    if i < segment.len then some (segment.base, i) else locate segments (i - segment.len)

/-- The message, when `byte base k` is byte number `k` from a base. -/
def gather (byte : β → Nat → UInt8) (segments : List (Segment β)) : List UInt8 :=
  segments.flatMap fun segment => (List.range segment.len).map (byte segment.base)

/-- A segment, none for no bytes. -/
def piece (len : Nat) (base : β) : List (Segment β) := if len = 0 then [] else [⟨len, base⟩]

/-- The last segment with `n` more bytes. -/
def extendLast (segments : List (Segment β)) (n : Nat) : List (Segment β) :=
  match segments.getLast? with
  | none => segments
  | some last => segments.dropLast ++ [{ last with len := last.len + n }]

@[simp] theorem total_append (segments segments' : List (Segment β)) :
    total (segments ++ segments') = total segments + total segments' := by
  simp [total]

@[simp] theorem total_singleton (segment : Segment β) : total [segment] = segment.len := by
  simp [total]

@[simp] theorem total_piece (len : Nat) (base : β) : total (piece len base) = len := by
  unfold piece
  split
  · next h => exact h.symm
  · exact total_singleton _

theorem locate_append_left {segments segments' : List (Segment β)} {i : Nat}
    (h : i < total segments) : locate (segments ++ segments') i = locate segments i := by
  induction segments generalizing i with
  | nil => simp [total] at h
  | cons segment segments ih =>
    rw [List.cons_append, locate, locate]
    split
    · rfl
    · next hi =>
      apply ih
      simp only [total, List.map_cons, List.sum_cons] at h ⊢
      omega

theorem locate_append_right {segments segments' : List (Segment β)} {i : Nat}
    (h : total segments ≤ i) :
    locate (segments ++ segments') i = locate segments' (i - total segments) := by
  induction segments generalizing i with
  | nil => rfl
  | cons segment segments ih =>
    simp only [total, List.map_cons, List.sum_cons] at h
    rw [List.cons_append, locate, if_neg (by omega), ih (by simp only [total]; omega)]
    congr 1
    simp only [total, List.map_cons, List.sum_cons]
    omega

theorem locate_singleton {segment : Segment β} {i : Nat} (h : i < segment.len) :
    locate [segment] i = some (segment.base, i) := if_pos h

theorem locate_piece {len i : Nat} (base : β) (h : i < len) :
    locate (piece len base) i = some (base, i) := by
  rw [piece, if_neg (by omega)]
  exact locate_singleton h

theorem locate_eq_none_iff {segments : List (Segment β)} {i : Nat} :
    locate segments i = none ↔ total segments ≤ i := by
  induction segments generalizing i with
  | nil => simp [locate, total]
  | cons segment segments ih =>
    rw [locate]
    simp only [total, List.map_cons, List.sum_cons] at ih ⊢
    split
    · simp only [reduceCtorEq, false_iff]
      omega
    · rw [ih]
      omega

theorem eq_append_of_getLast? {segments : List (Segment β)} {last : Segment β}
    (h : segments.getLast? = some last) : segments = segments.dropLast ++ [last] :=
  (List.dropLast_append_getLast? last h).symm

theorem extendLast_of_getLast? {segments : List (Segment β)} {last : Segment β} (n : Nat)
    (h : segments.getLast? = some last) :
    extendLast segments n = segments.dropLast ++ [{ last with len := last.len + n }] := by
  rw [extendLast, h]

theorem extendLast_zero (segments : List (Segment β)) : extendLast segments 0 = segments := by
  cases h : segments.getLast? with
  | none => rw [extendLast, h]
  | some last =>
    rw [extendLast_of_getLast? 0 h]
    exact (eq_append_of_getLast? h).symm

theorem getLast?_extendLast {segments : List (Segment β)} {last : Segment β} (n : Nat)
    (h : segments.getLast? = some last) :
    (extendLast segments n).getLast? = some { last with len := last.len + n } := by
  rw [extendLast_of_getLast? n h, List.getLast?_concat]

theorem total_extendLast {segments : List (Segment β)} {last : Segment β} (n : Nat)
    (h : segments.getLast? = some last) : total (extendLast segments n) = total segments + n := by
  have hsplit := congrArg total (eq_append_of_getLast? h)
  rw [extendLast_of_getLast? n h, total_append, total_singleton]
  rw [total_append, total_singleton] at hsplit
  show total segments.dropLast + (last.len + n) = total segments + n
  omega

/-- What was in place stays there. -/
theorem locate_extendLast_left {segments : List (Segment β)} {n i : Nat}
    (h : i < total segments) : locate (extendLast segments n) i = locate segments i := by
  cases hlast : segments.getLast? with
  | none => rw [extendLast, hlast]
  | some last =>
    have hsplit := eq_append_of_getLast? hlast
    have htotal := congrArg total hsplit
    rw [total_append, total_singleton] at htotal
    rw [extendLast_of_getLast? n hlast]
    by_cases hi : i < total segments.dropLast
    · rw [locate_append_left hi]
      conv_rhs => rw [hsplit]
      rw [locate_append_left hi]
    · rw [locate_append_right (Nat.le_of_not_lt hi),
        locate_singleton (show _ < last.len + n by omega)]
      conv_rhs => rw [hsplit]
      rw [locate_append_right (Nat.le_of_not_lt hi), locate_singleton (by omega)]

/-- The new bytes follow the last segment. -/
theorem locate_extendLast_right {segments : List (Segment β)} {last : Segment β} {n k : Nat}
    (h : segments.getLast? = some last) (hk : k < n) :
    locate (extendLast segments n) (total segments + k) = some (last.base, last.len + k) := by
  have htotal := congrArg total (eq_append_of_getLast? h)
  rw [total_append, total_singleton] at htotal
  rw [extendLast_of_getLast? n h, locate_append_right (by omega), locate_singleton]
  · simp only [Option.some.injEq, Prod.mk.injEq, true_and]
    omega
  · show total segments + k - total segments.dropLast < last.len + n
    omega

theorem getElem?_gather (byte : β → Nat → UInt8) (segments : List (Segment β)) (i : Nat) :
    (gather byte segments)[i]? = (locate segments i).map fun place => byte place.1 place.2 := by
  induction segments generalizing i with
  | nil => rfl
  | cons segment segments ih =>
    rw [gather, List.flatMap_cons, locate, List.getElem?_append]
    simp only [List.length_map, List.length_range]
    split
    · next hi => simp [List.getElem?_range hi]
    · exact ih _

end Segment

end Machine
