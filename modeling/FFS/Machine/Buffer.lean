import FFS.Machine.Bytes
import FFS.Machine.CString
import FFS.Machine.Fallible

/-!
# Reading a buffer

A program reads a buffer at offsets it found elsewhere in it.  `span` is such a read,
with `none` where it would leave the buffer, and `Holds` says what a read finds.  A
buffer that is put together from parts holds each part at the sum of the lengths before.
-/

namespace Machine

/-- The `n` bytes at `offset` of a buffer, when it has them. -/
def span (buffer : List UInt8) (offset n : Nat) : Option (List UInt8) :=
  if offset + n ≤ buffer.length then some ((buffer.drop offset).take n) else none

/-- The integer of `w` bytes at `offset`. -/
def valueAt (bigEndian : Bool) (buffer : List UInt8) (offset w : Nat) : Option Nat :=
  (span buffer offset w).map (getValue bigEndian)

def byteAt (buffer : List UInt8) (offset : Nat) : Option Nat :=
  buffer[offset]?.map UInt8.toNat

/-- The string that begins at `offset`. -/
def stringAt (buffer : List UInt8) (offset : Nat) : Option CString :=
  readString (buffer.drop offset)

theorem take_of_span {buffer bs : List UInt8} {offset n : Nat} (h : span buffer offset n = some bs) :
    offset + n ≤ buffer.length ∧ (buffer.drop offset).take n = bs := by
  rw [span] at h
  split at h
  · next hle =>
    cases h
    exact ⟨hle, rfl⟩
  · cases h

theorem length_of_span {buffer bs : List UInt8} {offset n : Nat}
    (h : span buffer offset n = some bs) : bs.length = n := by
  obtain ⟨hle, rfl⟩ := take_of_span h
  rw [List.length_take, List.length_drop]
  omega

/-! ### Reads of a prefix -/

theorem span_append {buffer bs : List UInt8} {offset n : Nat} (rest : List UInt8)
    (h : span buffer offset n = some bs) : span (buffer ++ rest) offset n = some bs := by
  rw [span] at h
  split at h
  · next hle =>
    rw [span, if_pos (by rw [List.length_append]; omega), ← h,
      List.drop_append_of_le_length (by omega),
      List.take_append_of_le_length (by rw [List.length_drop]; omega)]
  · cases h

theorem valueAt_append {e : Bool} {buffer : List UInt8} {offset w v : Nat} (rest : List UInt8)
    (h : valueAt e buffer offset w = some v) : valueAt e (buffer ++ rest) offset w = some v := by
  rw [valueAt, Option.map_eq_some_iff] at h
  obtain ⟨bs, hbs, hv⟩ := h
  rw [valueAt, span_append rest hbs, Option.map_some, hv]

theorem byteAt_append {buffer : List UInt8} {offset v : Nat} (rest : List UInt8)
    (h : byteAt buffer offset = some v) : byteAt (buffer ++ rest) offset = some v := by
  rw [byteAt, Option.map_eq_some_iff] at h
  obtain ⟨b, hb, hv⟩ := h
  have hlt := (List.getElem?_eq_some_iff.mp hb).1
  rw [byteAt, List.getElem?_append_left hlt, hb, Option.map_some, hv]

/-! ### What a buffer holds -/

/-- The buffer has `bs` at `offset`. -/
def Holds (buffer : List UInt8) (offset : Nat) (bs : List UInt8) : Prop :=
  ∃ before behind, buffer = before ++ bs ++ behind ∧ before.length = offset

theorem holds_mid (before bs behind : List UInt8) :
    Holds (before ++ bs ++ behind) before.length bs :=
  ⟨before, behind, rfl, rfl⟩

theorem holds_self (bs behind : List UInt8) : Holds (bs ++ behind) 0 bs :=
  ⟨[], behind, rfl, rfl⟩

theorem Holds.at_eq {buffer bs : List UInt8} {offset offset' : Nat} (h : Holds buffer offset bs)
    (he : offset = offset') : Holds buffer offset' bs := he ▸ h

theorem Holds.drop {buffer bs : List UInt8} {offset : Nat} (h : Holds buffer offset bs) :
    ∃ behind, buffer.drop offset = bs ++ behind := by
  obtain ⟨before, behind, rfl, rfl⟩ := h
  exact ⟨behind, by rw [List.append_assoc, List.drop_left]⟩

theorem Holds.le {buffer bs : List UInt8} {offset : Nat} (h : Holds buffer offset bs) :
    offset + bs.length ≤ buffer.length := by
  obtain ⟨before, behind, rfl, rfl⟩ := h
  simp only [List.length_append]
  omega

theorem Holds.span {buffer bs : List UInt8} {offset n : Nat} (h : Holds buffer offset bs)
    (hn : bs.length = n) : span buffer offset n = some bs := by
  obtain ⟨behind, hdrop⟩ := h.drop
  rw [Machine.span, if_pos (by have := h.le; omega), hdrop, List.take_left' hn]

theorem holds_append {buffer xs ys : List UInt8} {offset : Nat} :
    Holds buffer offset (xs ++ ys) ↔
      Holds buffer offset xs ∧ Holds buffer (offset + xs.length) ys := by
  constructor
  · rintro ⟨before, behind, rfl, rfl⟩
    refine ⟨⟨before, ys ++ behind, by simp, rfl⟩, ⟨before ++ xs, behind, by simp, by simp⟩⟩
  · rintro ⟨hx, hy⟩
    obtain ⟨before, behind, rfl, rfl⟩ := hx
    obtain ⟨behind', hdrop⟩ := hy.drop
    rw [← List.length_append, List.drop_left] at hdrop
    exact ⟨before, behind', by rw [hdrop]; simp, rfl⟩

theorem Holds.valueAt {e : Bool} {buffer : List UInt8} {offset w v : Nat}
    (h : Holds buffer offset (putBytes e w v)) : valueAt e buffer offset w = some (v % 256 ^ w) := by
  rw [Machine.valueAt, h.span (length_putBytes e w v), Option.map_some, getValue_putBytes]

theorem Holds.byteAt {buffer : List UInt8} {offset : Nat} {b : UInt8}
    (h : Holds buffer offset [b]) : byteAt buffer offset = some b.toNat := by
  obtain ⟨before, behind, rfl, rfl⟩ := h
  simp [Machine.byteAt]

theorem Holds.stringAt {buffer : List UInt8} {offset : Nat} {s : CString}
    (h : Holds buffer offset s.stored) : stringAt buffer offset = some s := by
  obtain ⟨behind, hdrop⟩ := h.drop
  rw [Machine.stringAt, hdrop, readString_stored]

end Machine
