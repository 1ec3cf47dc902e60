import Mathlib.Algebra.Group.Int.Defs
import Mathlib.Data.List.Basic
import Mathlib.Data.List.TakeWhile

/-!
# C strings

A C string is a list of bytes without a zero.  `CString.stored` is what it occupies in
memory and `readString` is what a program finds that walks to the next zero.  The
functions on raw byte lists below are the ones of the C library that take a string
apart.
-/

namespace Machine

structure CString where
  bytes : List UInt8
  noNul : 0 ∉ bytes
deriving DecidableEq

namespace CString

@[ext] theorem ext {s t : CString} (h : s.bytes = t.bytes) : s = t := by
  cases s
  cases t
  cases h
  rfl

def length (s : CString) : Nat := s.bytes.length

/-- The bytes of a string with the zero that ends it. -/
def stored (s : CString) : List UInt8 := s.bytes ++ [0]

@[simp] theorem length_stored (s : CString) : s.stored.length = s.length + 1 := by
  simp [stored, length]

/-- The string up to the first byte that fails `p`. -/
def takeWhile (p : UInt8 → Bool) (s : CString) : CString where
  bytes := s.bytes.takeWhile p
  noNul h := s.noNul (List.takeWhile_subset p h)

end CString

/-- The string at the head of a buffer, `none` when no zero ends it. -/
def readString (buffer : List UInt8) : Option CString :=
  if 0 ∈ buffer then
    some { bytes := buffer.takeWhile (· ≠ 0),
           noNul := fun h => by simpa using List.mem_takeWhile_imp h }
  else none

theorem takeWhile_stored {bytes : List UInt8} (h : 0 ∉ bytes) (rest : List UInt8) :
    (bytes ++ 0 :: rest).takeWhile (· ≠ 0) = bytes := by
  induction bytes with
  | nil => rfl
  | cons b bs ih =>
    have hb : b ≠ 0 := fun e => h (by simp [e])
    have hbs : 0 ∉ bs := fun e => h (List.mem_cons_of_mem b e)
    rw [List.cons_append, List.takeWhile_cons, if_pos (by simpa using hb), ih hbs]

theorem readString_stored (s : CString) (rest : List UInt8) :
    readString (s.stored ++ rest) = some s := by
  have hmem : (0 : UInt8) ∈ s.stored ++ rest := by simp [CString.stored]
  rw [readString, if_pos hmem]
  congr 1
  ext1
  rw [CString.stored, List.append_assoc]
  exact takeWhile_stored s.noNul rest

/-! ### Characters -/

def chr (c : Char) : UInt8 := UInt8.ofNat c.toNat

def chars (cs : List Char) : List UInt8 := cs.map chr

/-- A string literal. -/
def cstr (cs : List Char) (h : (chars cs).contains 0 = false) : CString where
  bytes := chars cs
  noNul := by simpa using h

def isSpace (b : UInt8) : Bool := b == chr ' ' || (chr '\t' ≤ b && b ≤ chr '\r')

def toLower (b : UInt8) : UInt8 := if chr 'A' ≤ b ∧ b ≤ chr 'Z' then b + 32 else b

/-- `strcmp(s, t) <= 0` -/
def strLe : List UInt8 → List UInt8 → Bool
  | [], _ => true
  | _ :: _, [] => false
  | a :: s, b :: t => a < b || (a == b && strLe s t)

theorem strLe_total (s t : List UInt8) : strLe s t = true ∨ strLe t s = true := by
  induction s generalizing t with
  | nil => exact .inl rfl
  | cons a s ih =>
    cases t with
    | nil => exact .inr rfl
    | cons b t =>
      simp only [strLe, Bool.or_eq_true, decide_eq_true_eq, Bool.and_eq_true, beq_iff_eq]
      by_cases h : a = b
      · exact (ih t).imp (fun hle => .inr ⟨h, hle⟩) fun hle => .inr ⟨h.symm, hle⟩
      · exact (UInt8.lt_or_lt_of_ne h).imp .inl .inl

theorem strLe_antisymm {s t : List UInt8} (h : strLe s t = true) (h' : strLe t s = true) :
    s = t := by
  induction s generalizing t with
  | nil =>
    cases t with
    | nil => rfl
    | cons b t => cases h'
  | cons a s ih =>
    cases t with
    | nil => cases h
    | cons b t =>
      simp only [strLe, Bool.or_eq_true, decide_eq_true_eq, Bool.and_eq_true, beq_iff_eq] at h h'
      have hab : a = b := by
        cases h with
        | inl hlt => exact h'.elim (fun hgt => absurd hgt (UInt8.lt_asymm hlt)) fun h => h.1.symm
        | inr h => exact h.1
      subst hab
      rw [ih (h.resolve_left (UInt8.lt_irrefl a)).2 (h'.resolve_left (UInt8.lt_irrefl a)).2]

theorem strLe_trans {s t u : List UInt8} (h : strLe s t = true) (h' : strLe t u = true) :
    strLe s u = true := by
  induction s generalizing t u with
  | nil => rfl
  | cons a s ih =>
    cases t with
    | nil => cases h
    | cons b t =>
      cases u with
      | nil => cases h'
      | cons c u =>
        simp only [strLe, Bool.or_eq_true, decide_eq_true_eq, Bool.and_eq_true,
          beq_iff_eq] at h h' ⊢
        cases h with
        | inl hab =>
          exact .inl (h'.elim (fun hbc => UInt8.lt_trans hab hbc) fun hbc => hbc.1 ▸ hab)
        | inr hab =>
          obtain ⟨rfl, hst⟩ := hab
          exact h'.imp id fun hbc => ⟨hbc.1, ih hst hbc.2⟩

/-- `strchr`: the string from the first occurrence of a character on. -/
def strchr (s : List UInt8) (c : UInt8) : Option (List UInt8) :=
  match s.dropWhile (· ≠ c) with
  | [] => none
  | t => some t

theorem other_of_notMem {value : List UInt8} {c : UInt8} (h : c ∉ value) :
    ∀ b ∈ value, decide (b ≠ c) = true := by
  intro b hb
  refine decide_eq_true fun heq => h ?_
  rwa [← heq]

theorem strchr_append {value behind : List UInt8} {c : UInt8} (h : c ∉ value) :
    strchr (value ++ c :: behind) c = some (c :: behind) := by
  have hdrop : (value ++ c :: behind).dropWhile (· ≠ c) = c :: behind := by
    rw [List.dropWhile_append_of_pos (other_of_notMem h)]
    exact List.dropWhile_cons_of_neg (by simp)
  rw [strchr, hdrop]

theorem takeWhile_append_other {value behind : List UInt8} {c : UInt8} (h : c ∉ value) :
    (value ++ c :: behind).takeWhile (· ≠ c) = value := by
  rw [List.takeWhile_append_of_pos (other_of_notMem h), List.takeWhile_cons_of_neg (by simp),
    List.append_nil]

/-- A fact about bytes that is checked for each of them. -/
theorem forall_byte {P : UInt8 → Prop} (h : ∀ n < 256, P (UInt8.ofNat n)) (b : UInt8) : P b := by
  have hb := h b.toNat b.toNat_lt
  rwa [UInt8.ofNat_toNat] at hb

/-! ### Numbers -/

def digitValue (b : UInt8) : Option Nat :=
  if chr '0' ≤ b ∧ b ≤ chr '9' then some (b - chr '0').toNat
  else if chr 'a' ≤ toLower b ∧ toLower b ≤ chr 'z' then some ((toLower b - chr 'a').toNat + 10)
  else none

def isDigitOf (base : Nat) (b : UInt8) : Bool :=
  match digitValue b with
  | some d => d < base
  | none => false

/-- The value of the digits at the head of a string and what follows them. -/
def scanDigits (base : Nat) : Nat → List UInt8 → Nat × List UInt8
  | value, [] => (value, [])
  | value, b :: s =>
    match digitValue b with
    | none => (value, b :: s)
    | some d => if d < base then scanDigits base (value * base + d) s else (value, b :: s)

/-- A number out of the range of `long` is replaced by the nearest one in it. -/
def clampLong (x : Int) : Int := max (-2 ^ 63) (min x (2 ^ 63 - 1))

/-- The base announced by a prefix, and what follows the prefix. -/
def numberBase : List UInt8 → Nat × List UInt8
  | a :: b :: d :: s =>
    if a = chr '0' ∧ toLower b = chr 'x' ∧ isDigitOf 16 d then (16, d :: s)
    else (if a = chr '0' then 8 else 10, a :: b :: d :: s)
  | a :: s => (if a = chr '0' then 8 else 10, a :: s)
  | [] => (10, [])

/-- `strtol`: the value and the rest of the string, which is all of it when there is no
number.  Base 0 takes the base from the prefix. -/
def strtol (base : Nat) (s : List UInt8) : Int × List UInt8 :=
  let t := s.dropWhile isSpace
  let negative := t.head? = some (chr '-')
  let unsigned := if t.head? = some (chr '-') ∨ t.head? = some (chr '+') then t.tail else t
  let (base, body) := if base = 0 then numberBase unsigned else (base, unsigned)
  let (value, rest) := scanDigits base 0 body
  if rest.length = body.length then (0, s)
  else (clampLong (if negative then -value else value), rest)

end Machine
