import FFS.Machine.Segments

/-!
# Transfers in parts

A vector of segments of memory is sent or filled by calls that each move some bytes.  `advance`
is the vector that is left after `n` bytes, and a transfer in parts is the transfer at once.
-/

namespace Machine
namespace Segment

/-- The bytes that a vector stands for. -/
def bytes (m : Mem) (vector : List (Segment Nat)) : List UInt8 :=
  gather (fun a k => m (a + k)) vector

/-- Memory after `bs` has been put into the segments in their order. -/
def fill : Mem → List (Segment Nat) → List UInt8 → Mem
  | m, [], _ => m
  | m, segment :: rest, bs => fill (m.write segment.base (bs.take segment.len)) rest
      (bs.drop segment.len)

/-- What is left of a vector after its first `n` bytes. -/
def advance : List (Segment Nat) → Nat → List (Segment Nat)
  | [], _ => []
  | segment :: rest, n =>
    if n = 0 then segment :: rest
    else if segment.len ≤ n then advance rest (n - segment.len)
    else ⟨segment.len - n, segment.base + n⟩ :: rest

/-- The address is in a segment. -/
def Covers (vector : List (Segment Nat)) (x : Nat) : Prop :=
  ∃ segment ∈ vector, segment.base ≤ x ∧ x < segment.base + segment.len

theorem bytes_cons (m : Mem) (segment : Segment Nat) (rest : List (Segment Nat)) :
    bytes m (segment :: rest) = m.read segment.base segment.len ++ bytes m rest := rfl

theorem total_cons (segment : Segment Nat) (rest : List (Segment Nat)) :
    total (segment :: rest) = segment.len + total rest := by
  simp [total]

@[simp] theorem length_bytes (m : Mem) (vector : List (Segment Nat)) :
    (bytes m vector).length = total vector := by
  induction vector with
  | nil => rfl
  | cons segment rest ih => rw [bytes_cons, total_cons, List.length_append, Mem.length_read, ih]

@[simp] theorem advance_zero (vector : List (Segment Nat)) : advance vector 0 = vector := by
  cases vector with
  | nil => rfl
  | cons segment rest => exact if_pos rfl

theorem total_advance {vector : List (Segment Nat)} {n : Nat} (h : n ≤ total vector) :
    total (advance vector n) = total vector - n := by
  induction vector generalizing n with
  | nil => simp [advance, total] at h ⊢
  | cons segment rest ih =>
    rw [total_cons] at h ⊢
    unfold advance
    split
    · rw [total_cons]
      omega
    split
    · rw [ih (by omega)]
      omega
    · rw [total_cons]
      dsimp only
      omega

/-- The bytes that are left are those behind the first ones. -/
theorem bytes_advance (m : Mem) (vector : List (Segment Nat)) (n : Nat) :
    bytes m (advance vector n) = (bytes m vector).drop n := by
  induction vector generalizing n with
  | nil => simp [advance, bytes, gather]
  | cons segment rest ih =>
    unfold advance
    split
    · next hzero => rw [hzero, List.drop_zero]
    split
    · next hwhole =>
      have hread : (m.read segment.base segment.len).drop n = [] :=
        List.drop_eq_nil_of_le (by rw [Mem.length_read]; exact hwhole)
      rw [ih, bytes_cons, List.drop_append, hread, Mem.length_read, List.nil_append]
    · next hcut =>
      have hsplit : segment.len = n + (segment.len - n) := by omega
      rw [bytes_cons, bytes_cons, hsplit, Mem.read_add, List.append_assoc,
        List.drop_left' (Mem.length_read m _ n), Nat.add_sub_cancel_left]

theorem fill_nil (m : Mem) (vector : List (Segment Nat)) : fill m vector [] = m := by
  induction vector generalizing m with
  | nil => rfl
  | cons segment rest ih =>
    rw [fill, List.take_nil, List.drop_nil, Mem.write_nil, ih]

/-- Two parts, one behind the other, are one. -/
theorem fill_append (m : Mem) (vector : List (Segment Nat)) (xs ys : List UInt8) :
    fill m vector (xs ++ ys) = fill (fill m vector xs) (advance vector xs.length) ys := by
  induction vector generalizing m xs with
  | nil => rfl
  | cons segment rest ih =>
    unfold advance
    split
    · next hzero =>
      rw [List.eq_nil_of_length_eq_zero hzero, fill_nil, List.nil_append]
    split
    · next hwhole =>
      rw [fill, fill, List.take_append_of_le_length hwhole, List.drop_append_of_le_length hwhole,
        ih, List.length_drop]
    · next hcut =>
      have hshort : xs.length ≤ segment.len := by omega
      rw [fill, fill, fill, List.take_append, List.drop_append, List.take_of_length_le hshort,
        List.drop_eq_nil_of_le hshort, List.nil_append, fill_nil, Mem.write_append]

theorem covers_advance {vector : List (Segment Nat)} {n x : Nat} (h : Covers (advance vector n) x) :
    Covers vector x := by
  induction vector generalizing n with
  | nil => exact h
  | cons segment rest ih =>
    unfold advance at h
    split at h
    · exact h
    split at h
    · obtain ⟨place, hmem, hx⟩ := ih h
      exact ⟨place, List.mem_cons_of_mem _ hmem, hx⟩
    · obtain ⟨place, hmem, hlow, hhigh⟩ := h
      cases List.mem_cons.mp hmem with
      | inl hplace =>
        subst hplace
        dsimp only at hlow hhigh
        exact ⟨segment, List.mem_cons_self, by omega, by omega⟩
      | inr hrest => exact ⟨place, List.mem_cons_of_mem _ hrest, hlow, hhigh⟩

/-- Nothing is stored outside of the segments. -/
theorem fill_outside {m : Mem} {vector : List (Segment Nat)} {bs : List UInt8} {x : Nat}
    (h : ¬ Covers vector x) : fill m vector bs x = m x := by
  induction vector generalizing m bs with
  | nil => rfl
  | cons segment rest ih =>
    have hrest : ¬ Covers rest x := by
      rintro ⟨place, hmem, hx⟩
      exact h ⟨place, List.mem_cons_of_mem _ hmem, hx⟩
    have hhead : x < segment.base ∨ segment.base + (bs.take segment.len).length ≤ x := by
      by_contra hin
      refine h ⟨segment, List.mem_cons_self, ?_⟩
      rw [List.length_take] at hin
      omega
    rw [fill, ih hrest, Mem.write_outside hhead]

end Segment
end Machine
