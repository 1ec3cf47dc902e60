import FFS.Machine.Integers
import FFS.Machine.Mem
import Mathlib.Logic.Function.Basic

/-!
# Moving integers between registers and memory

Straight code that loads, converts and stores integers.  As in the register machine, an
instruction reads a register at its type, that is, the low bits, and writes a value of its type.
Memory has the low byte of a value first.
-/

namespace Machine

namespace IntType

/-- The size of a type in bytes. -/
def bytes (t : IntType) : Nat := t.width / 8

theorem pow_bytes (t : IntType) : 256 ^ t.bytes = 2 ^ t.width := by cases t <;> rfl

theorem natCast_pow_bytes (t : IntType) : ((256 ^ t.bytes : Nat) : Int) = 2 ^ t.width := by
  rw [pow_bytes]
  push_cast
  rfl

/-- The value of the low bytes of `x`. -/
theorem wrap_eq (t : IntType) (x : Int) :
    t.wrap x = if t.signed then Machine.signed t.bytes (Machine.unsigned t.bytes x)
      else Machine.unsigned t.bytes x := by
  have hpos : (0 : Int) < (2 : Int) ^ t.width := pow_pos (by decide) _
  have hvalue : ((Machine.unsigned t.bytes x : Nat) : Int) = x % 2 ^ t.width := by
    rw [Machine.unsigned, natCast_pow_bytes]
    exact Int.toNat_of_nonneg (Int.emod_nonneg x (Int.ne_of_gt hpos))
  rw [wrap]
  by_cases hsigned : t.signed = true
  · rw [if_pos hsigned, if_pos hsigned, Machine.signed, hvalue, ← natCast_pow_bytes,
      Int.emod_bmod, pow_bytes]
  · rw [if_neg hsigned, if_neg hsigned, hvalue]

/-- A value keeps the bytes that its type has. -/
theorem unsigned_wrap {t : IntType} {n : Nat} (h : n ≤ t.bytes) (x : Int) :
    Machine.unsigned n (t.wrap x) = Machine.unsigned n x := by
  have hdvd : ((256 ^ n : Nat) : Int) ∣ 2 ^ t.width := by
    rw [← natCast_pow_bytes]
    exact_mod_cast Nat.pow_dvd_pow 256 h
  rw [Machine.unsigned, Machine.unsigned, ← Int.emod_emod_of_dvd (t.wrap x) hdvd, wrap_emod,
    Int.emod_emod_of_dvd _ hdvd]

end IntType

theorem unsigned_mod {n k : Nat} (h : n ≤ k) (x : Int) : unsigned k x % 256 ^ n = unsigned n x := by
  have hdvd : ((256 ^ n : Nat) : Int) ∣ (256 ^ k : Nat) := by
    exact_mod_cast Nat.pow_dvd_pow 256 h
  have hpos : (0 : Int) < (256 ^ k : Nat) := by exact_mod_cast Nat.pow_pos (by decide)
  have hcast : ((unsigned k x : Nat) : Int) = x % (256 ^ k : Nat) :=
    Int.toNat_of_nonneg (Int.emod_nonneg x (Int.ne_of_gt hpos))
  rw [← unsigned_natCast, hcast, unsigned, unsigned, Int.emod_emod_of_dvd _ hdvd]

/-- The sign of a value that is extended shows when its top bit is set. -/
theorem unsigned_signed_eq_iff {n k v : Nat} (hn : 0 < n) (hk : n < k) (hv : v < 256 ^ n) :
    unsigned k (signed n v) = v ↔ v < 256 ^ n / 2 := by
  have hpow : 256 ^ n < 256 ^ k := Nat.pow_lt_pow_right (by decide) hk
  constructor
  · intro heq
    by_contra hle
    have hmod : (v : Int) % (256 ^ n : Nat) = v := Int.emod_eq_of_lt (by omega) (by omega)
    have heven : 256 ^ n % 2 = 0 := by
      obtain ⟨j, rfl⟩ := Nat.exists_eq_succ_of_ne_zero (Nat.ne_of_gt hn)
      rw [Nat.pow_succ]
      omega
    have hneg : signed n v = (v : Int) - (256 ^ n : Nat) := by
      rw [signed, Int.bmod_def, hmod, if_neg (by omega)]
    have hshift : ((v : Int) - (256 ^ n : Nat)) % (256 ^ k : Nat) =
        (v : Int) - (256 ^ n : Nat) + (256 ^ k : Nat) := by
      rw [← Int.add_emod_right]
      exact Int.emod_eq_of_lt (by omega) (by omega)
    rw [unsigned, hneg, hshift] at heq
    omega
  · intro hlt
    rw [signed_of_lt hlt, unsigned_natCast, Nat.mod_eq_of_lt (by omega)]

/-! ## Instructions -/

variable {R : Type}

/-- Loads, loads with the bytes swapped, stores, swaps, conversions and arithmetic. -/
inductive Transfer (R : Type) where
  | ld (t : IntType) (dest base : R) (offset : Nat)
  | ldbs (t : IntType) (dest base : R) (offset : Nat)
  | st (t : IntType) (src base : R) (offset : Nat)
  | bswap (t : IntType) (dest src : R)
  | cv (source target : IntType) (dest src : R)
  | arith (op : ArithOp) (t : IntType) (dest left right : R)
  | arithi (op : ArithOp) (t : IntType) (dest left : R) (imm : Int)

/-- Registers and memory. -/
structure RegMem (R : Type) where
  regs : R → Int
  mem : Mem

namespace RegMem

/-- The address at an offset from a register. -/
def address (s : RegMem R) (base : R) (offset : Nat) : Nat :=
  (IntType.ul.wrap (s.regs base)).toNat + offset

variable [DecidableEq R]

def set (s : RegMem R) (dest : R) (v : Int) : RegMem R :=
  { s with regs := Function.update s.regs dest v }

@[simp] theorem set_mem (s : RegMem R) (dest : R) (v : Int) : (s.set dest v).mem = s.mem := rfl

@[simp] theorem set_self (s : RegMem R) (dest : R) (v : Int) : (s.set dest v).regs dest = v :=
  Function.update_self ..

theorem set_of_ne (s : RegMem R) {dest r : R} (h : r ≠ dest) (v : Int) :
    (s.set dest v).regs r = s.regs r := Function.update_of_ne h ..

end RegMem

variable [DecidableEq R]

/-- One instruction. -/
def Transfer.exec (s : RegMem R) : Transfer R → Option (RegMem R)
  | ld t dest base offset =>
    some (s.set dest (t.wrap (leValue (s.mem.read (s.address base offset) t.bytes))))
  | ldbs t dest base offset =>
    some (s.set dest (t.wrap (beValue (s.mem.read (s.address base offset) t.bytes))))
  | st t src base offset =>
    some { s with
      mem := s.mem.write (s.address base offset) (leBytes t.bytes (unsigned t.bytes (s.regs src))) }
  | bswap t dest src =>
    some (s.set dest (t.wrap (beValue (leBytes t.bytes (unsigned t.bytes (s.regs src))))))
  | cv source target dest src => some (s.set dest (target.wrap (source.wrap (s.regs src))))
  | arith op t dest left right =>
    (op.machine t (t.wrap (s.regs left)) (t.wrap (s.regs right))).map (s.set dest)
  | arithi op t dest left imm =>
    (op.machine t (t.wrap (s.regs left)) (t.wrap imm)).map (s.set dest)

/-- Straight code. -/
def runTransfers (code : List (Transfer R)) (s : RegMem R) : Option (RegMem R) :=
  code.foldlM Transfer.exec s

@[simp] theorem runTransfers_nil (s : RegMem R) : runTransfers [] s = some s := rfl

theorem runTransfers_cons (i : Transfer R) (code : List (Transfer R)) (s : RegMem R) :
    runTransfers (i :: code) s = (i.exec s).bind (runTransfers code) := List.foldlM_cons ..

theorem runTransfers_append (code code' : List (Transfer R)) (s : RegMem R) :
    runTransfers (code ++ code') s = (runTransfers code s).bind (runTransfers code') :=
  List.foldlM_append

/-! ## What code leaves in a register -/

/-- The code leaves in the low `n` bytes of a register what `f` says of the state it starts in.
It keeps memory and the registers `keep`. -/
def Leaves (code : List (Transfer R)) (keep : List R) (r : R) (n : Nat) (f : RegMem R → Nat) :
    Prop :=
  ∀ s, ∃ s', runTransfers code s = some s' ∧ s'.mem = s.mem ∧
    (∀ x ∈ keep, s'.regs x = s.regs x) ∧ unsigned n (s'.regs r) = f s

variable {code code' : List (Transfer R)} {keep keep' : List R} {r r' dest src base : R}
  {n n' : Nat} {f f' : RegMem R → Nat}

/-- One instruction that sets a register which is not kept. -/
theorem leaves_one {i : Transfer R} (hnew : dest ∉ keep) (v : RegMem R → Int)
    (hexec : ∀ s, i.exec s = some (s.set dest (v s))) (hvalue : ∀ s, unsigned n (v s) = f s) :
    Leaves [i] keep dest n f := by
  intro s
  refine ⟨s.set dest (v s), ?_, rfl, fun x hx => ?_, ?_⟩
  · rw [runTransfers_cons, hexec]
    rfl
  · exact s.set_of_ne (ne_of_mem_of_not_mem hx hnew) _
  · rw [RegMem.set_self, hvalue]

theorem leaves_ld (hnew : dest ∉ keep) (t : IntType) (base : R) (offset : Nat) :
    Leaves [.ld t dest base offset] keep dest t.bytes
      fun s => leValue (s.mem.read (s.address base offset) t.bytes) := by
  refine leaves_one hnew _ (fun s => rfl) fun s => ?_
  have hlt := leValue_lt (s.mem.read (s.address base offset) t.bytes)
  rw [Mem.length_read] at hlt
  rw [IntType.unsigned_wrap (Nat.le_refl _), unsigned_natCast, Nat.mod_eq_of_lt hlt]

theorem leaves_ldbs (hnew : dest ∉ keep) (t : IntType) (base : R) (offset : Nat) :
    Leaves [.ldbs t dest base offset] keep dest t.bytes
      fun s => beValue (s.mem.read (s.address base offset) t.bytes) := by
  refine leaves_one hnew _ (fun s => rfl) fun s => ?_
  have hlt := beValue_lt (s.mem.read (s.address base offset) t.bytes)
  rw [Mem.length_read] at hlt
  rw [IntType.unsigned_wrap (Nat.le_refl _), unsigned_natCast, Nat.mod_eq_of_lt hlt]

/-- A swap turns the bytes around. -/
theorem leaves_bswap (hnew : dest ∉ keep) (t : IntType) (src : R) :
    Leaves [.bswap t dest src] keep dest t.bytes
      fun s => beValue (leBytes t.bytes (unsigned t.bytes (s.regs src))) := by
  refine leaves_one hnew _ (fun s => rfl) fun s => ?_
  have hlt := beValue_lt (leBytes t.bytes (unsigned t.bytes (s.regs src)))
  rw [length_leBytes] at hlt
  rw [IntType.unsigned_wrap (Nat.le_refl _), unsigned_natCast, Nat.mod_eq_of_lt hlt]

theorem leaves_cv (hnew : dest ∉ keep) (source : IntType) {target : IntType}
    (h : n ≤ target.bytes) (src : R) :
    Leaves [.cv source target dest src] keep dest n
      fun s => unsigned n (source.wrap (s.regs src)) :=
  leaves_one hnew _ (fun _ => rfl) fun _ => IntType.unsigned_wrap h _

/-! ### Halves -/

theorem toNat_ofInt_wrap (z : Int) :
    (BitVec.ofInt 64 (IntType.l.wrap z)).toNat = (z % 2 ^ 64).toNat := by
  have hmod : IntType.l.wrap z % 2 ^ 64 = z % 2 ^ 64 := IntType.wrap_emod .l z
  rw [BitVec.toNat_ofInt]
  exact congrArg Int.toNat hmod

/-- Two halves of 32 bits put together. -/
theorem unsigned_or_halves {high low : Nat} (hlow : low < 2 ^ 32) {x y : Int}
    (hvalue : high * 2 ^ 32 + low < 2 ^ 64)
    (hx : x % 2 ^ 64 = ((high * 2 ^ 32 : Nat) : Int)) (hy : y % 2 ^ 64 = (low : Int)) :
    unsigned 8 (ArithOp.bitwise .or .l (IntType.l.wrap x) (IntType.l.wrap y)) =
      high * 2 ^ 32 + low := by
  have hor : high <<< 32 ||| low = high * 2 ^ 32 + low := by
    rw [← Nat.shiftLeft_add_eq_or_of_lt hlow, Nat.shiftLeft_eq]
  have hbits : (BitVec.ofInt 64 (IntType.l.wrap x) |||
      BitVec.ofInt 64 (IntType.l.wrap y)).toNat = high * 2 ^ 32 + low := by
    rw [BitVec.toNat_or, toNat_ofInt_wrap, toNat_ofInt_wrap, hx, hy, Int.toNat_natCast,
      Int.toNat_natCast, ← hor, Nat.shiftLeft_eq]
  have hwrap : ArithOp.bitwise .or .l (IntType.l.wrap x) (IntType.l.wrap y) =
      IntType.l.wrap (high * 2 ^ 32 + low : Nat) := congrArg (fun v : Nat => IntType.l.wrap v) hbits
  rw [hwrap, IntType.unsigned_wrap (Nat.le_refl 8), unsigned_natCast]
  exact Nat.mod_eq_of_lt hvalue

/-- Only the low half of a value is left by the shift. -/
theorem shifted_half {x : Nat} (hx : x < 256 ^ 4) :
    IntType.l.wrap (IntType.i.wrap x) * 2 ^ 32 % 2 ^ 64 = ((x * 2 ^ 32 : Nat) : Int) := by
  have hwide : IntType.l.wrap (IntType.i.wrap x) % 2 ^ 64 = IntType.i.wrap x % 2 ^ 64 :=
    IntType.wrap_emod .l _
  have hlow : IntType.i.wrap x % 2 ^ 32 = (x : Int) % 2 ^ 32 := IntType.wrap_emod .i x
  omega

theorem lower_half {y : Nat} (hy : y < 256 ^ 4) : IntType.u.wrap y % 2 ^ 64 = (y : Int) := by
  have hlow : IntType.u.wrap y = (y : Int) % 2 ^ 32 := rfl
  omega

theorem beValue_append (xs ys : List UInt8) :
    beValue (xs ++ ys) = beValue xs * 256 ^ ys.length + beValue ys := by
  rw [beValue, List.reverse_append, leValue_append, List.length_reverse, Nat.mul_comm, Nat.add_comm]
  rfl

/-- A value of 8 bytes with the high byte first, loaded as two of 4. -/
theorem leaves_halves {high : R} (hr : r ∉ keep) (hhigh : high ∉ keep) (hne : r ≠ high)
    (hbase : base ∈ keep) (offset : Nat) :
    Leaves [.ldbs .i high base offset, .ldbs .u r base (offset + 4),
        .arithi .lsh .l high high 32, .arith .or .l r high r] keep r 8
      fun s => beValue (s.mem.read (s.address base offset) 8) := by
  intro s
  have hbytes : s.mem.read (s.address base offset) 8 =
      s.mem.read (s.address base offset) 4 ++ s.mem.read (s.address base offset + 4) 4 :=
    Mem.read_add s.mem _ 4 4
  have hupper := beValue_lt (s.mem.read (s.address base offset) 4)
  have hlower := beValue_lt (s.mem.read (s.address base offset + 4) 4)
  rw [Mem.length_read] at hupper hlower
  generalize hx : beValue (s.mem.read (s.address base offset) 4) = x at hupper
  generalize hy : beValue (s.mem.read (s.address base offset + 4) 4) = y at hlower
  let s₁ := s.set high (IntType.i.wrap x)
  let s₂ := s₁.set r (IntType.u.wrap y)
  let s₃ := s₂.set high (IntType.l.wrap (IntType.l.wrap (IntType.i.wrap x) * 2 ^ 32))
  let s₄ := s₃.set r (ArithOp.bitwise .or .l (IntType.l.wrap (s₃.regs high))
    (IntType.l.wrap (IntType.u.wrap y)))
  have hload : (Transfer.ldbs .i high base offset).exec s = some s₁ := by
    show some (s.set high (IntType.i.wrap (beValue (s.mem.read (s.address base offset) 4)))) = _
    rw [hx]
  have hload' : (Transfer.ldbs .u r base (offset + 4)).exec s₁ = some s₂ := by
    have haddress : s₁.address base (offset + 4) = s.address base offset + 4 := by
      rw [RegMem.address, s.set_of_ne (ne_of_mem_of_not_mem hbase hhigh), RegMem.address,
        Nat.add_assoc]
    show some (s₁.set r (IntType.u.wrap (beValue (s.mem.read _ 4)))) = _
    rw [haddress, hy]
  have hshift : (Transfer.arithi .lsh .l high high 32).exec s₂ = some s₃ := by
    have hreg : s₂.regs high = IntType.i.wrap x := by
      rw [s₁.set_of_ne hne.symm, RegMem.set_self]
    show (ArithOp.machine .lsh .l (IntType.l.wrap (s₂.regs high)) 32).map (s₂.set high) = _
    rw [hreg]
    rfl
  have hor : (Transfer.arith .or .l r high r).exec s₃ = some s₄ := by
    have hreg : s₃.regs r = IntType.u.wrap y := by
      rw [s₂.set_of_ne hne, RegMem.set_self]
    show some (s₃.set r (ArithOp.bitwise .or .l _ (IntType.l.wrap (s₃.regs r)))) = _
    rw [hreg]
  refine ⟨s₄, ?_, rfl, fun z hz => ?_, ?_⟩
  · rw [runTransfers_cons, hload, Option.bind_some, runTransfers_cons, hload', Option.bind_some,
      runTransfers_cons, hshift, Option.bind_some, runTransfers_cons, hor]
    rfl
  · have hzr : z ≠ r := ne_of_mem_of_not_mem hz hr
    have hzhigh : z ≠ high := ne_of_mem_of_not_mem hz hhigh
    rw [s₃.set_of_ne hzr, s₂.set_of_ne hzhigh, s₁.set_of_ne hzr, s.set_of_ne hzhigh]
  · show _ = beValue (s.mem.read (s.address base offset) 8)
    rw [RegMem.set_self, RegMem.set_self, IntType.wrap_wrap, hbytes, beValue_append, hx, hy,
      Mem.length_read]
    have hvalue : x * 2 ^ 32 + y < 2 ^ 64 := by omega
    exact unsigned_or_halves hlower hvalue (shifted_half hupper) (lower_half hlower)

/-- Code behind code: the second part may use what the first left. -/
theorem Leaves.andThen (h : Leaves code keep r n f) (h' : Leaves code' keep' r' n' f')
    (hkeep : ∀ x ∈ keep, x ∈ keep') {g : RegMem R → Nat}
    (hvalue : ∀ s s', s'.mem = s.mem → (∀ x ∈ keep, s'.regs x = s.regs x) →
      unsigned n (s'.regs r) = f s → f' s' = g s) :
    Leaves (code ++ code') keep r' n' g := by
  intro s
  obtain ⟨s₁, hrun, hmem, hregs, hleft⟩ := h s
  obtain ⟨s₂, hrun', hmem', hregs', hleft'⟩ := h' s₁
  refine ⟨s₂, ?_, hmem'.trans hmem, fun x hx => ?_, ?_⟩
  · rw [runTransfers_append, hrun]
    exact hrun'
  · rw [hregs' x (hkeep x hx), hregs x hx]
  · rw [hleft', hvalue s s₁ hmem hregs hleft]

theorem Leaves.congr (h : Leaves code keep r n f) (heq : ∀ s, f s = f' s) :
    Leaves code keep r n f' := by
  intro s
  obtain ⟨s', hrun, hmem, hregs, hleft⟩ := h s
  exact ⟨s', hrun, hmem, hregs, hleft.trans (heq s)⟩

/-- What is left is stored at an address that the code keeps. -/
theorem Leaves.stored {t : IntType} (h : Leaves code keep r t.bytes f) (hbase : base ∈ keep)
    (offset : Nat) (s : RegMem R) :
    ∃ s', runTransfers (code ++ [.st t r base offset]) s = some s' ∧
      s'.mem = s.mem.write (s.address base offset) (leBytes t.bytes (f s)) := by
  obtain ⟨s', hrun, hmem, hregs, hleft⟩ := h s
  refine ⟨{ s' with
    mem := s'.mem.write (s'.address base offset) (leBytes t.bytes (unsigned t.bytes (s'.regs r))) },
    ?_, ?_⟩
  · rw [runTransfers_append, hrun]
    rfl
  · show s'.mem.write (s'.address base offset) _ = _
    rw [hleft, hmem, RegMem.address, RegMem.address, hregs base hbase]

end Machine
