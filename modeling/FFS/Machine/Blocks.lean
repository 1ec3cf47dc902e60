import FFS.Machine.Buffer
import FFS.Machine.Mem

/-!
# Blocks of memory

A program may read what lies in one of the blocks that it was given.  A read that leaves its block
has no result.
-/

namespace Machine

/-- A memory with the blocks that can be read, each by its start and its length. -/
structure Blocks where
  bytes : Mem
  ranges : List (Nat × Nat)

namespace Blocks

/-- A memory of one block. -/
def single (start : Nat) (content : List UInt8) : Blocks where
  bytes := fun x => content.getD (x - start) 0
  ranges := [(start, content.length)]

/-- The range lies in one block. -/
def covers (s : Blocks) (a n : Nat) : Bool :=
  n = 0 || s.ranges.any fun r => r.1 ≤ a && a + n ≤ r.1 + r.2

def load (s : Blocks) (a n : Nat) : Option (List UInt8) :=
  if s.covers a n then some (s.bytes.read a n) else none

/-- The string at an address, when a zero ends it in the same block. -/
def string (s : Blocks) (a : Nat) : Option CString :=
  (s.ranges.find? fun r => r.1 ≤ a && a < r.1 + r.2).bind fun r =>
    readString (s.bytes.read a (r.1 + r.2 - a))

theorem load_eq_some_iff {s : Blocks} {a n : Nat} {bs : List UInt8} :
    s.load a n = some bs ↔ s.covers a n = true ∧ s.bytes.read a n = bs := by
  rw [load]
  split
  · next h => simp [h]
  · next h => simp [h]

theorem length_of_load {s : Blocks} {a n : Nat} {bs : List UInt8} (h : s.load a n = some bs) :
    bs.length = n := by
  rw [← (load_eq_some_iff.mp h).2, Mem.length_read]

/-- Part of a range that can be read can be read. -/
theorem covers_sub {s : Blocks} {a n b k : Nat} (h : s.covers a n = true) (hab : a ≤ b)
    (hk : b + k ≤ a + n) : s.covers b k = true := by
  simp only [covers, Bool.or_eq_true, decide_eq_true_eq, List.any_eq_true, Bool.and_eq_true] at h ⊢
  rcases h with rfl | ⟨r, hr, hlow, hhigh⟩
  · exact .inl (by omega)
  · exact .inr ⟨r, hr, by omega, by omega⟩

end Blocks

end Machine
