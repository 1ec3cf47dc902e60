import Mathlib.Data.List.GetD
import FFS.Machine.Bytes

/-!
# Byte memory

A memory is a function from addresses to bytes, so that a write is visible in
the range it covers and nowhere else.  `read` and `write` move lists of bytes;
the lemmas below are the frame facts a proof about pointers needs.
-/

namespace Machine

abbrev Mem := Nat → UInt8

namespace Mem

/-- The `n` bytes at `a`. -/
def read (m : Mem) (a n : Nat) : List UInt8 := (List.range n).map fun i => m (a + i)

/-- `m` with `bs` stored at `a`. -/
def write (m : Mem) (a : Nat) (bs : List UInt8) : Mem := fun x =>
  if a ≤ x ∧ x < a + bs.length then bs.getD (x - a) 0 else m x

@[simp] theorem length_read (m : Mem) (a n : Nat) : (read m a n).length = n := by
  simp [read]

theorem getElem_read {m : Mem} {a n i : Nat} (h : i < (read m a n).length) :
    (read m a n)[i] = m (a + i) := by
  simp [read]

/-- A byte of what was read. -/
theorem getElem?_of_read {m : Mem} {a n i : Nat} {bytes : List UInt8} (h : read m a n = bytes)
    (hi : i < n) : bytes[i]? = some (m (a + i)) := by
  rw [← h, List.getElem?_eq_getElem (by rwa [length_read]), getElem_read]

theorem read_zero (m : Mem) (a : Nat) : read m a 0 = [] := rfl

theorem read_add (m : Mem) (a n k : Nat) :
    read m a (n + k) = read m a n ++ read m (a + n) k := by
  rw [read, read, read, List.range_add, List.map_append, List.map_map]
  congr 1
  exact List.map_congr_left fun i _ => by simp [Nat.add_assoc]

theorem take_read {m : Mem} {a n k : Nat} (h : k ≤ n) : (read m a n).take k = read m a k := by
  obtain ⟨rest, rfl⟩ := Nat.exists_eq_add_of_le h
  rw [read_add, List.take_left' (length_read m a k)]

/-- A range read in two parts. -/
theorem read_eq_append {m : Mem} {a n k : Nat} {xs ys : List UInt8} (hx : xs.length = n) :
    read m a (n + k) = xs ++ ys ↔ read m a n = xs ∧ read m (a + n) k = ys := by
  rw [read_add]
  constructor
  · intro h
    exact List.append_inj h (by rw [length_read, hx])
  · rintro ⟨hl, hr⟩
    rw [hl, hr]

theorem read_succ (m : Mem) (a n : Nat) : read m a (n + 1) = m a :: read m (a + 1) n := by
  rw [Nat.add_comm n 1, read_add]
  rfl

theorem read_congr {m m' : Mem} {a n : Nat} (h : ∀ x, a ≤ x → x < a + n → m x = m' x) :
    read m a n = read m' a n :=
  List.map_congr_left fun i hi => h _ (by omega) (by have := List.mem_range.mp hi; omega)

theorem eq_of_read_eq {m m' : Mem} {a n : Nat} (h : read m a n = read m' a n) {x : Nat}
    (hax : a ≤ x) (hxn : x < a + n) : m x = m' x := by
  have hx : x - a < (read m a n).length := by rw [length_read]; omega
  have hx' : x - a < (read m' a n).length := by rw [length_read]; omega
  have he : (read m a n)[x - a] = (read m' a n)[x - a] := by simp only [h]
  rw [getElem_read, getElem_read] at he
  rwa [Nat.add_sub_cancel' hax] at he

theorem write_inside {m : Mem} {a x : Nat} {bs : List UInt8} (hax : a ≤ x)
    (hx : x < a + bs.length) : write m a bs x = bs.getD (x - a) 0 :=
  if_pos ⟨hax, hx⟩

theorem write_outside {m : Mem} {a x : Nat} {bs : List UInt8}
    (h : x < a ∨ a + bs.length ≤ x) : write m a bs x = m x :=
  if_neg (by omega)

@[simp] theorem write_nil (m : Mem) (a : Nat) : write m a [] = m := by
  funext x
  exact write_outside (by simp; omega)

/-- Reading back what was just written. -/
theorem read_write_self (m : Mem) (a : Nat) (bs : List UInt8) :
    read (write m a bs) a bs.length = bs := by
  apply List.ext_getElem (by simp)
  intro i h1 h2
  rw [getElem_read, write_inside (by omega) (by omega), Nat.add_sub_cancel_left,
    List.getD_eq_getElem _ _ h2]

theorem read_write_of_length {m : Mem} {a n : Nat} {bs : List UInt8} (h : bs.length = n) :
    read (write m a bs) a n = bs := by
  subst h
  exact read_write_self m a bs

/-- A write leaves every disjoint range as it found it. -/
theorem read_write_of_disjoint {m : Mem} {a b n : Nat} {bs : List UInt8}
    (h : b + n ≤ a ∨ a + bs.length ≤ b) : read (write m a bs) b n = read m b n :=
  read_congr fun x hbx hxn => write_outside (by omega)

/-- Reading part of what was written. -/
theorem read_write_sub {m : Mem} {a b n : Nat} {bs : List UInt8} (hab : a ≤ b)
    (hn : b + n ≤ a + bs.length) : read (write m a bs) b n = (bs.drop (b - a)).take n := by
  apply List.ext_getElem
  · rw [length_read, List.length_take, List.length_drop]
    omega
  · intro i h1 h2
    have hi : i < n := by rwa [length_read] at h1
    rw [getElem_read, write_inside (by omega) (by omega), List.getElem_take, List.getElem_drop,
      List.getD_eq_getElem _ _ (by omega)]
    congr 1
    omega

theorem write_append (m : Mem) (a : Nat) (bs cs : List UInt8) :
    write m a (bs ++ cs) = write (write m a bs) (a + bs.length) cs := by
  funext x
  by_cases hb : a ≤ x ∧ x < a + bs.length
  · rw [write_inside hb.1 (by rw [List.length_append]; omega),
      write_outside (m := write m a bs) (by omega), write_inside hb.1 hb.2,
      List.getD_append _ _ _ _ (by omega)]
  · by_cases hc : a + bs.length ≤ x ∧ x < a + bs.length + cs.length
    · rw [write_inside (by omega) (by rw [List.length_append]; omega),
        write_inside hc.1 hc.2, List.getD_append_right _ _ _ _ (by omega)]
      congr 1
      omega
    · rw [write_outside (by rw [List.length_append]; omega), write_outside (by omega),
        write_outside (by omega)]

/-- Writing back what a range already holds changes nothing. -/
theorem write_read (m : Mem) (a n : Nat) : write m a (read m a n) = m := by
  funext x
  by_cases h : a ≤ x ∧ x < a + n
  · rw [write_inside h.1 (by rw [length_read]; omega),
      List.getD_eq_getElem _ _ (by rw [length_read]; omega), getElem_read,
      Nat.add_sub_cancel' h.1]
  · exact write_outside (by rw [length_read]; omega)

end Mem

end Machine
