import Mathlib.Data.List.Basic
import FFS.Machine.Fallible

/-!
# Tables that are moved when they are full

A table is an array and the number of its entries.  The array has more cells than entries, and
a write behind its last cell has no result.  A full table is moved to a larger array, or
reallocated, and the cells behind its entries are what the memory had.
-/

namespace Machine

structure RoomTable (α : Type) where
  cells : List α
  count : Nat

namespace RoomTable

variable {α : Type} {t t' : RoomTable α}

def room (t : RoomTable α) : Nat := t.cells.length

def entries (t : RoomTable α) : List α := t.cells.take t.count

/-- `t[i] = a` -/
def write (t : RoomTable α) (i : Nat) (a : α) : Option (RoomTable α) :=
  if i < t.room then some { t with cells := t.cells.set i a } else none

/-- `t[count] = a; count++` -/
def push (t : RoomTable α) (a : α) : Option (RoomTable α) :=
  (t.write t.count a).map fun t => { t with count := t.count + 1 }

/-- The last entry with a change. -/
def changeLast (t : RoomTable α) (f : α → α) : Option (RoomTable α) :=
  if t.count = 0 then none
  else (t.cells[t.count - 1]?).bind fun a => t.write (t.count - 1) (f a)

/-- A new array to which the entries are copied one by one. -/
def moved (t : RoomTable α) (fresh : Nat → α) (room : Nat) : RoomTable α :=
  { t with cells := t.entries ++ ((List.range room).map fresh).drop t.count }

/-- The array after `realloc`. -/
def resized (t : RoomTable α) (fresh : Nat → α) (room : Nat) : RoomTable α :=
  { t with cells := t.cells.take room ++ ((List.range room).map fresh).drop t.room }

theorem length_entries (h : t.count ≤ t.room) : t.entries.length = t.count := by
  rw [entries, List.length_take]
  exact Nat.min_eq_left h

theorem push_eq (a : α) (h : t.count < t.room) :
    t.push a = some ⟨t.cells.set t.count a, t.count + 1⟩ := by
  rw [push, write, if_pos h]
  rfl

/-- An entry is added where there is room for it. -/
theorem exists_push (a : α) (h : t.count < t.room) :
    ∃ t', t.push a = some t' ∧ t'.entries = t.entries ++ [a] ∧ t'.count = t.count + 1 ∧
      t'.room = t.room := by
  refine ⟨_, push_eq a h, ?_, rfl, List.length_set⟩
  change (t.cells.set t.count a).take (t.count + 1) = t.cells.take t.count ++ [a]
  have hlt : t.count < (t.cells.set t.count a).length := by
    rw [List.length_set]
    exact h
  rw [List.take_succ_eq_append_getElem hlt, List.getElem_set_self,
    List.take_set_of_le (Nat.le_refl _)]

theorem exists_changeLast (f : α → α) (h : t.count ≤ t.room) {front : List α} {a : α}
    (hentries : t.entries = front ++ [a]) :
    ∃ t', t.changeLast f = some t' ∧ t'.entries = front ++ [f a] ∧ t'.count = t.count ∧
      t'.room = t.room := by
  have hcount : t.count = front.length + 1 := by
    rw [← length_entries h, hentries, List.length_append]
    rfl
  have hlast : t.cells[t.count - 1]? = some a := by
    have hget : t.entries[front.length]? = some a := by
      rw [hentries, List.getElem?_concat_length]
    rw [entries, List.getElem?_take] at hget
    rw [hcount, Nat.add_sub_cancel]
    rw [if_pos (by omega)] at hget
    exact hget
  have hlt : t.count - 1 < t.room := by omega
  refine ⟨⟨t.cells.set (t.count - 1) (f a), t.count⟩, ?_, ?_, rfl, List.length_set⟩
  · rw [changeLast, if_neg (by omega), hlast, Option.bind_some, write, if_pos hlt]
  · change (t.cells.set (t.count - 1) (f a)).take t.count = front ++ [f a]
    have htake : t.cells.take t.count = front ++ [a] := hentries
    rw [List.take_set, htake, hcount, Nat.add_sub_cancel, List.set_append_right _ _ (Nat.le_refl _),
      Nat.sub_self]
    rfl

theorem room_moved (fresh : Nat → α) {room : Nat} (h : t.count ≤ t.room)
    (hroom : t.count ≤ room) : (t.moved fresh room).room = room := by
  simp only [moved, RoomTable.room, List.length_append, List.length_drop, List.length_map,
    List.length_range]
  rw [length_entries h]
  omega

theorem entries_moved (fresh : Nat → α) (room : Nat) (h : t.count ≤ t.room) :
    (t.moved fresh room).entries = t.entries := by
  have hlength := length_entries h
  rw [moved, entries]
  dsimp only
  rw [List.take_append_of_le_length (Nat.le_of_eq hlength.symm),
    List.take_of_length_le (Nat.le_of_eq hlength)]

theorem room_resized (fresh : Nat → α) {room : Nat} (hroom : t.room ≤ room) :
    (t.resized fresh room).room = room := by
  simp only [resized, RoomTable.room, List.length_append, List.length_drop, List.length_map,
    List.length_range, List.length_take] at hroom ⊢
  omega

theorem entries_resized (fresh : Nat → α) {room : Nat} (h : t.count ≤ t.room)
    (hroom : t.room ≤ room) : (t.resized fresh room).entries = t.entries := by
  rw [resized, entries]
  dsimp only
  rw [List.take_of_length_le hroom, List.take_append_of_le_length h]
  rfl

end RoomTable

end Machine
