import Mathlib.Data.List.Basic
import Mathlib.Tactic.Ring
import Mathlib.Tactic.Linarith

/-!
# Fixed-width integers as bytes

A C program stores an integer as a fixed number of bytes in one of two orders.
`leBytes` and `beBytes` are the two stores and `leValue` and `beValue` the two
loads.  Everything here is about lists of bytes, over any width.
-/

namespace Machine

/-- The `w` low bytes of `v`, least significant first. -/
def leBytes : Nat → Nat → List UInt8
  | 0, _ => []
  | w + 1, v => UInt8.ofNat v :: leBytes w (v / 256)

/-- The number whose bytes, least significant first, are `bs`. -/
def leValue : List UInt8 → Nat
  | [] => 0
  | b :: bs => b.toNat + 256 * leValue bs

/-- The `w` low bytes of `v` in network order. -/
def beBytes (w v : Nat) : List UInt8 := (leBytes w v).reverse

def beValue (bs : List UInt8) : Nat := leValue bs.reverse

/-- The bytes of a stored integer, in the writer's order. -/
def putBytes (bigEndian : Bool) (w v : Nat) : List UInt8 :=
  if bigEndian then beBytes w v else leBytes w v

def getValue (bigEndian : Bool) (bs : List UInt8) : Nat :=
  if bigEndian then beValue bs else leValue bs

@[simp] theorem length_leBytes (w v : Nat) : (leBytes w v).length = w := by
  induction w generalizing v with
  | zero => rfl
  | succ w ih => simp [leBytes, ih]

@[simp] theorem length_beBytes (w v : Nat) : (beBytes w v).length = w := by
  simp [beBytes]

@[simp] theorem length_putBytes (e : Bool) (w v : Nat) : (putBytes e w v).length = w := by
  cases e <;> simp [putBytes]

theorem leValue_leBytes (w v : Nat) : leValue (leBytes w v) = v % 256 ^ w := by
  induction w generalizing v with
  | zero => simp [leBytes, leValue, Nat.mod_one]
  | succ w ih =>
    rw [leBytes, leValue, ih, Nat.pow_succ, Nat.mul_comm _ 256, Nat.mod_mul]
    simp

theorem leValue_lt (bs : List UInt8) : leValue bs < 256 ^ bs.length := by
  induction bs with
  | nil => simp [leValue]
  | cons b bs ih =>
    have hb := b.toNat_lt
    rw [leValue, List.length_cons, Nat.pow_succ]
    omega

theorem leBytes_leValue (bs : List UInt8) : leBytes bs.length (leValue bs) = bs := by
  induction bs with
  | nil => rfl
  | cons b bs ih =>
    have hb := b.toNat_lt
    have hhead : UInt8.ofNat (b.toNat + 256 * leValue bs) = b := by
      apply UInt8.toNat_inj.mp
      rw [UInt8.toNat_ofNat']
      omega
    have htail : (b.toNat + 256 * leValue bs) / 256 = leValue bs := by omega
    rw [List.length_cons, leValue, leBytes, hhead, htail, ih]

theorem beValue_beBytes (w v : Nat) : beValue (beBytes w v) = v % 256 ^ w := by
  rw [beValue, beBytes, List.reverse_reverse, leValue_leBytes]

theorem beBytes_beValue (bs : List UInt8) : beBytes bs.length (beValue bs) = bs := by
  have h := leBytes_leValue bs.reverse
  rw [List.length_reverse] at h
  rw [beBytes, beValue, h, List.reverse_reverse]

theorem beValue_lt (bs : List UInt8) : beValue bs < 256 ^ bs.length := by
  have h := leValue_lt bs.reverse
  rwa [List.length_reverse] at h

/-- A store followed by a load in the same order reduces the value to the width. -/
theorem getValue_putBytes (e : Bool) (w v : Nat) : getValue e (putBytes e w v) = v % 256 ^ w := by
  cases e
  · exact leValue_leBytes w v
  · exact beValue_beBytes w v

theorem getValue_lt (e : Bool) (bs : List UInt8) : getValue e bs < 256 ^ bs.length := by
  cases e
  · exact leValue_lt bs
  · exact beValue_lt bs

theorem leBytes_getValue (swap : Bool) (bytes : List UInt8) :
    leBytes bytes.length (getValue swap bytes) = if swap then bytes.reverse else bytes := by
  cases swap with
  | true =>
    have h := leBytes_leValue bytes.reverse
    rwa [List.length_reverse] at h
  | false => exact leBytes_leValue bytes

theorem leValue_append (xs ys : List UInt8) :
    leValue (xs ++ ys) = leValue xs + 256 ^ xs.length * leValue ys := by
  induction xs with
  | nil => simp [leValue]
  | cons x xs ih =>
    rw [List.cons_append, leValue, leValue, ih, List.length_cons, Nat.pow_succ]
    ring

theorem leValue_append_mod (xs ys : List UInt8) :
    leValue (xs ++ ys) % 256 ^ xs.length = leValue xs := by
  rw [leValue_append, Nat.add_mul_mod_self_left, Nat.mod_eq_of_lt (leValue_lt xs)]

theorem leBytes_mod (w v : Nat) : leBytes w (v % 256 ^ w) = leBytes w v := by
  have h := leBytes_leValue (leBytes w v)
  rwa [length_leBytes, leValue_leBytes] at h

theorem beBytes_inj {w x y : Nat} (h : beBytes w x = beBytes w y) :
    x % 256 ^ w = y % 256 ^ w := by
  rw [← beValue_beBytes, ← beValue_beBytes, h]

theorem leBytes_inj {w x y : Nat} (h : leBytes w x = leBytes w y) :
    x % 256 ^ w = y % 256 ^ w := by
  rw [← leValue_leBytes, ← leValue_leBytes, h]

theorem leBytes_eq_iff {w x y : Nat} : leBytes w x = leBytes w y ↔ x % 256 ^ w = y % 256 ^ w := by
  refine ⟨leBytes_inj, fun h => ?_⟩
  rw [← leBytes_mod, h, leBytes_mod]

/-! ### Two's complement -/

/-- A `w`-byte pattern read as a signed integer. -/
def signed (w : Nat) (v : Nat) : Int := Int.bmod v (256 ^ w)

/-- The `w`-byte pattern of a signed integer. -/
def unsigned (w : Nat) (x : Int) : Nat := (x % (256 ^ w : Nat)).toNat

/-- `x` is a value of the signed `w`-byte integer type. -/
def FitsSigned (w : Nat) (x : Int) : Prop :=
  -((256 ^ w : Nat) / 2 : Int) ≤ x ∧ x < ((256 ^ w : Nat) / 2 : Int)

instance (w : Nat) (x : Int) : Decidable (FitsSigned w x) :=
  inferInstanceAs (Decidable (_ ∧ _))

/-- A pattern without the sign bit is its own value. -/
theorem signed_of_lt {w v : Nat} (hv : v < 256 ^ w / 2) : signed w v = v := by
  have hmod : (v : Int) % (256 ^ w : Nat) = v := Int.emod_eq_of_lt (by omega) (by omega)
  rw [signed, Int.bmod_def, hmod, if_pos (by omega)]

theorem signed_of_nonneg {w v : Nat} (hv : v < 256 ^ w) (h : 0 ≤ signed w v) :
    signed w v = v := by
  have hmod : (v : Int) % (256 ^ w : Nat) = v := Int.emod_eq_of_lt (by omega) (by omega)
  rw [signed, Int.bmod_def, hmod] at h ⊢
  split at h
  · rw [if_pos ‹_›]
  · omega

theorem unsigned_lt (w : Nat) (x : Int) : unsigned w x < 256 ^ w := by
  have hpos : (0 : Int) < (256 ^ w : Nat) := by exact_mod_cast Nat.pow_pos (by decide)
  have h := Int.emod_lt_of_pos x hpos
  have h0 := Int.emod_nonneg x (Int.ne_of_gt hpos)
  unfold unsigned
  omega

theorem unsigned_natCast (n v : Nat) : unsigned n (v : Int) = v % 256 ^ n := by
  rw [unsigned, ← Int.natCast_emod, Int.toNat_natCast]

/-- Bytes that both widths have do not depend on the sign. -/
theorem unsigned_signed {n w : Nat} (h : n ≤ w) (v : Nat) :
    unsigned n (signed w v) = v % 256 ^ n := by
  have hdvd : ((256 ^ n : Nat) : Int) ∣ (256 ^ w : Nat) := by
    exact_mod_cast Nat.pow_dvd_pow 256 h
  have hmod : signed w v % (256 ^ n : Nat) = (v : Int) % (256 ^ n : Nat) := by
    rw [← Int.emod_emod_of_dvd (signed w v) hdvd, signed, Int.bmod_emod,
      Int.emod_emod_of_dvd _ hdvd]
  rw [unsigned, hmod, ← Int.natCast_emod, Int.toNat_natCast]

theorem signed_unsigned {w : Nat} {x : Int} (hw : 0 < w) (h : FitsSigned w x) :
    signed w (unsigned w x) = x := by
  have hpos : (0 : Int) < (256 ^ w : Nat) := by exact_mod_cast Nat.pow_pos (by decide)
  have h0 := Int.emod_nonneg x (Int.ne_of_gt hpos)
  have hcast : ((unsigned w x : Nat) : Int) = x % (256 ^ w : Nat) := by
    unfold unsigned
    omega
  have heven : (256 ^ w : Nat) % 2 = 0 := by
    obtain ⟨k, rfl⟩ : ∃ k, w = k + 1 := ⟨w - 1, by omega⟩
    rw [Nat.pow_succ]
    omega
  obtain ⟨h1, h2⟩ := h
  rw [signed, hcast, Int.emod_bmod]
  exact Int.bmod_eq_of_le_mul_two (by omega) (by omega)

end Machine
