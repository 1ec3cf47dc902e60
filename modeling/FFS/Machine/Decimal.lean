import FFS.Machine.CString
import Mathlib.Algebra.Group.Nat.Defs

/-!
# Decimal numbers

`decimal n` is what `%d` prints for `n`, and `strtol` reads it back.
-/

namespace Machine

def digitByte (d : Nat) : UInt8 := chr '0' + UInt8.ofNat d

/-- The digits of a number, at most so many. -/
def digits : Nat → Nat → List UInt8
  | 0, _ => []
  | bound + 1, n => (if n / 10 = 0 then [] else digits bound (n / 10)) ++ [digitByte (n % 10)]

/-- `%d` -/
def decimal (n : Int) : List UInt8 :=
  if n < 0 then chr '-' :: digits (n.natAbs + 1) n.natAbs else digits (n.natAbs + 1) n.natAbs

theorem digitByte_spec : ∀ d < 10, digitValue (digitByte d) = some d ∧
    isSpace (digitByte d) = false ∧ digitByte d ≠ chr '-' ∧ digitByte d ≠ chr '+' := by
  decide

/-- What comes behind a number. -/
def EndsNumber (rest : List UInt8) : Prop := ∀ b ∈ rest.head?, isDigitOf 10 b = false

instance : (rest : List UInt8) → Decidable (EndsNumber rest)
  | [] => isTrue fun _ hb => nomatch hb
  | b :: _ => decidable_of_iff (isDigitOf 10 b = false)
      ⟨fun h _ hb => Option.some.inj hb ▸ h, fun h => h b rfl⟩

theorem endsNumber_nil : EndsNumber [] := by
  intro b hb
  cases hb

theorem scanDigits_of_ends {rest : List UInt8} (h : EndsNumber rest) (value : Nat) :
    scanDigits 10 value rest = (value, rest) := by
  cases rest with
  | nil => rfl
  | cons b rest =>
    have hb := h b rfl
    rw [scanDigits]
    unfold isDigitOf at hb
    cases hdigit : digitValue b with
    | none => rfl
    | some d =>
      rw [hdigit] at hb
      dsimp only
      rw [if_neg (of_decide_eq_false hb)]

theorem scanDigits_digits {bound n : Nat} (h : n < bound) (rest : List UInt8) :
    scanDigits 10 0 (digits bound n ++ rest) = scanDigits 10 n rest := by
  induction bound generalizing n rest with
  | zero => omega
  | succ bound ih =>
    have hdigit := digitByte_spec (n % 10) (Nat.mod_lt n (by decide))
    have hstep : ∀ value, scanDigits 10 value ([digitByte (n % 10)] ++ rest) =
        scanDigits 10 (value * 10 + n % 10) rest := by
      intro value
      rw [List.singleton_append, scanDigits, hdigit.1]
      dsimp only
      rw [if_pos (Nat.mod_lt n (by decide))]
    rw [digits]
    by_cases hlast : n / 10 = 0
    · rw [if_pos hlast, List.nil_append, hstep]
      congr 1
      omega
    · rw [if_neg hlast, List.append_assoc, ih (by omega), hstep]
      congr 1
      omega

theorem digits_head {bound n : Nat} (h : n < bound) :
    ∃ d rest, d < 10 ∧ digits bound n = digitByte d :: rest := by
  induction bound generalizing n with
  | zero => omega
  | succ bound ih =>
    rw [digits]
    by_cases hlast : n / 10 = 0
    · rw [if_pos hlast]
      exact ⟨n % 10, [], Nat.mod_lt n (by decide), rfl⟩
    · obtain ⟨d, rest, hd, heq⟩ := ih (n := n / 10) (by omega)
      rw [if_neg hlast, heq]
      exact ⟨d, _, hd, rfl⟩

theorem digits_all {bound n : Nat} : (digits bound n).all (isDigitOf 10) = true := by
  have hdigit : ∀ d < 10, isDigitOf 10 (digitByte d) = true := by decide
  induction bound generalizing n with
  | zero => rfl
  | succ bound ih =>
    rw [digits, List.all_append]
    have hlast := hdigit (n % 10) (Nat.mod_lt n (by decide))
    by_cases hsmall : n / 10 = 0
    · rw [if_pos hsmall, List.all_cons, hlast]
      rfl
    · rw [if_neg hsmall, ih, List.all_cons, hlast]
      rfl

/-- Only the number 0 begins with the digit 0. -/
theorem digits_leading {bound n : Nat} (h : n < bound)
    (hzero : (digits bound n).head? = some (chr '0')) : n = 0 := by
  have hdigit : ∀ d < 10, digitByte d = chr '0' → d = 0 := by decide
  induction bound generalizing n with
  | zero => omega
  | succ bound ih =>
    rw [digits] at hzero
    by_cases hsmall : n / 10 = 0
    · rw [if_pos hsmall, List.nil_append, List.head?_cons, Option.some.injEq] at hzero
      have hlast := hdigit _ (Nat.mod_lt n (by decide)) hzero
      omega
    · obtain ⟨d, rest, -, hrest⟩ := @digits_head bound (n / 10) (by omega)
      rw [if_neg hsmall, hrest, List.cons_append, List.head?_cons] at hzero
      refine absurd (ih (n := n / 10) (by omega) ?_) hsmall
      rw [hrest, List.head?_cons, hzero]

theorem length_digits_le {bound n k : Nat} (hk : 0 < k) (h : n < 10 ^ k) :
    (digits bound n).length ≤ k := by
  induction bound generalizing n k with
  | zero => exact Nat.zero_le k
  | succ bound ih =>
    rw [digits, List.length_append]
    by_cases hlast : n / 10 = 0
    · rw [if_pos hlast]
      exact hk
    · rw [if_neg hlast]
      obtain ⟨k, rfl⟩ : ∃ k', k = k' + 1 := ⟨k - 1, by omega⟩
      rw [Nat.pow_succ] at h
      have hpos : 0 < k := by
        rcases Nat.eq_zero_or_pos k with rfl | hpos
        · omega
        · exact hpos
      exact Nat.succ_le_succ (ih hpos (by omega))

theorem length_decimal_le {n : Int} {k : Nat} (hk : 0 < k) (h : n.natAbs < 10 ^ k) :
    (decimal n).length ≤ k + 1 := by
  have hdigits : (digits (n.natAbs + 1) n.natAbs).length ≤ k := length_digits_le hk h
  rw [decimal]
  by_cases hneg : n < 0
  · rw [if_pos hneg]
    exact Nat.succ_le_succ hdigits
  · rw [if_neg hneg]
    exact Nat.le_succ_of_le hdigits

theorem digits_noNul {bound n : Nat} : 0 ∉ digits bound n := by
  intro hmem
  have hzero : isDigitOf 10 0 = false := by decide
  have hdigit := List.all_eq_true.mp (@digits_all bound n) 0 hmem
  rw [hzero] at hdigit
  cases hdigit

theorem decimal_noNul (n : Int) : 0 ∉ decimal n := by
  rw [decimal]
  by_cases hneg : n < 0
  · rw [if_pos hneg, List.mem_cons, not_or]
    exact ⟨by decide, digits_noNul⟩
  · rw [if_neg hneg]
    exact digits_noNul

/-! ## Addresses -/

def lowerDigit (d : Nat) : UInt8 :=
  if d < 10 then digitByte d else chr 'a' + UInt8.ofNat (d - 10)

/-- The hexadecimal digits of a number, at most so many. -/
def lowerDigits : Nat → Nat → List UInt8
  | 0, _ => []
  | bound + 1, n =>
    (if n / 16 = 0 then [] else lowerDigits bound (n / 16)) ++ [lowerDigit (n % 16)]

/-- `%p` on an address that is not null. -/
def pointerText (address : UInt64) : List UInt8 :=
  chars ['0', 'x'] ++ lowerDigits 16 address.toNat

theorem length_lowerDigits_le (bound n : Nat) : (lowerDigits bound n).length ≤ bound := by
  induction bound generalizing n with
  | zero => exact Nat.le_refl 0
  | succ bound ih =>
    rw [lowerDigits, List.length_append]
    by_cases hlast : n / 16 = 0
    · rw [if_pos hlast]
      exact Nat.succ_le_succ (Nat.zero_le bound)
    · rw [if_neg hlast]
      exact Nat.succ_le_succ (ih _)

theorem lowerDigits_noNul (bound n : Nat) : 0 ∉ lowerDigits bound n := by
  have hdigit : ∀ d < 16, (0 : UInt8) ≠ lowerDigit d := by decide
  induction bound generalizing n with
  | zero => exact List.not_mem_nil
  | succ bound ih =>
    rw [lowerDigits, List.mem_append, not_or, List.mem_singleton]
    refine ⟨?_, hdigit _ (Nat.mod_lt n (by decide))⟩
    by_cases hlast : n / 16 = 0
    · rw [if_pos hlast]
      exact List.not_mem_nil
    · rw [if_neg hlast]
      exact ih _

theorem length_pointerText_le (address : UInt64) : (pointerText address).length ≤ 18 := by
  have hdigits := length_lowerDigits_le 16 address.toNat
  rw [pointerText, List.length_append]
  exact Nat.add_le_add_left hdigits 2

theorem pointerText_noNul (address : UInt64) : 0 ∉ pointerText address := by
  rw [pointerText, List.mem_append, not_or]
  exact ⟨by decide, lowerDigits_noNul _ _⟩

/-- A printed number is read back. -/
theorem strtol_decimal (n : Int) {rest : List UInt8} (h : EndsNumber rest) :
    strtol 10 (decimal n ++ rest) = (clampLong n, rest) := by
  obtain ⟨d, ds, hd, hdigits⟩ := digits_head (Nat.lt_succ_self n.natAbs)
  obtain ⟨-, hspace, hminus, hplus⟩ := digitByte_spec d hd
  have hscan : scanDigits 10 0 (digitByte d :: ds ++ rest) = (n.natAbs, rest) := by
    rw [← hdigits, scanDigits_digits (Nat.lt_succ_self _), scanDigits_of_ends h]
  have hlonger : ¬ rest.length = (digitByte d :: ds ++ rest).length := by
    rw [List.length_append, List.length_cons]
    omega
  have hten : ¬ (10 : Nat) = 0 := by decide
  unfold decimal
  by_cases hneg : n < 0
  · have hvalue : -(n.natAbs : Int) = n := by omega
    have hsign : isSpace (chr '-') = false := by decide
    rw [if_pos hneg, hdigits, strtol, List.cons_append,
      List.dropWhile_cons_of_neg (by rw [hsign]; decide)]
    simp only [List.head?_cons, true_or, if_true, List.tail_cons, hten, if_false,
      hscan, if_neg hlonger, hvalue]
  · have hvalue : (n.natAbs : Int) = n := by omega
    rw [if_neg hneg, hdigits, strtol, List.cons_append,
      List.dropWhile_cons_of_neg (by rw [hspace]; decide)]
    rw [List.cons_append] at hscan hlonger
    simp only [List.head?_cons, Option.some.injEq, hminus, hplus, or_self, if_false,
      hten, hscan, if_neg hlonger, hvalue]

theorem decimal_inj {m n : Int} (hm : clampLong m = m) (hn : clampLong n = n)
    (h : decimal m = decimal n) : m = n := by
  have hread : strtol 10 (decimal m ++ []) = strtol 10 (decimal n ++ []) := by rw [h]
  rw [strtol_decimal m endsNumber_nil, strtol_decimal n endsNumber_nil, hm, hn] at hread
  exact (Prod.mk.inj hread).1

/-! ## What a number takes -/

theorem scanDigits_suffix (base value : Nat) (s : List UInt8) :
    ∃ front, s = front ++ (scanDigits base value s).2 ∧ ∀ b ∈ front, (digitValue b).isSome := by
  induction s generalizing value with
  | nil => exact ⟨[], rfl, by simp⟩
  | cons b s ih =>
    rw [scanDigits]
    cases hdigit : digitValue b with
    | none => exact ⟨[], rfl, by simp⟩
    | some d =>
      dsimp only
      split
      · obtain ⟨front, hfront, hdigits⟩ := ih (value * base + d)
        refine ⟨b :: front, by rw [List.cons_append, ← hfront], ?_⟩
        intro c hc
        rcases List.mem_cons.mp hc with rfl | hc
        · rw [hdigit]
          rfl
        · exact hdigits c hc
      · exact ⟨[], rfl, by simp⟩

theorem numberBase_suffix (s : List UInt8) : ∃ front, s = front ++ (numberBase s).2 ∧
    ∀ b ∈ front, b = chr '0' ∨ toLower b = chr 'x' := by
  match s with
  | [] => exact ⟨[], rfl, by simp⟩
  | [a] => exact ⟨[], rfl, by simp⟩
  | [a, b] => exact ⟨[], rfl, by simp⟩
  | a :: b :: d :: rest =>
    rw [numberBase]
    split
    · next h =>
      refine ⟨[a, b], rfl, ?_⟩
      intro c hc
      rcases List.mem_cons.mp hc with rfl | hc
      · exact .inl h.1
      · rw [List.mem_singleton.mp hc]
        exact .inr h.2.1
    · exact ⟨[], rfl, by simp⟩

/-- The byte is no part of a number, whatever its base. -/
def Unnumbered (b : UInt8) : Prop :=
  isSpace b = false ∧ b ≠ chr '-' ∧ b ≠ chr '+' ∧ b ≠ chr '0' ∧ toLower b ≠ chr 'x' ∧
    digitValue b = none

/-- What `strtol` scans for digits, and what it makes of them. -/
theorem exists_strtol (base : Nat) (s : List UInt8) : ∃ front body start value,
    s = front ++ body ∧ (∀ b, Unnumbered b → b ∉ front) ∧
      strtol base s =
        if (scanDigits start 0 body).2.length = body.length then (0, s)
        else (value, (scanDigits start 0 body).2) := by
  let t := s.dropWhile isSpace
  let unsigned := if t.head? = some (chr '-') ∨ t.head? = some (chr '+') then t.tail else t
  let start := if base = 0 then numberBase unsigned else (base, unsigned)
  have hspaces : s = s.takeWhile isSpace ++ t := (List.takeWhile_append_dropWhile).symm
  have hsign : ∃ sign, t = sign ++ unsigned ∧ ∀ b ∈ sign, b = chr '-' ∨ b = chr '+' := by
    by_cases h : t.head? = some (chr '-') ∨ t.head? = some (chr '+')
    · have htail : unsigned = t.tail := if_pos h
      cases ht : t with
      | nil => rw [ht] at h; simp at h
      | cons b rest =>
        rw [ht] at h htail
        refine ⟨[b], by rw [htail]; rfl, ?_⟩
        intro c hc
        rw [List.mem_singleton.mp hc]
        simpa using h
    · exact ⟨[], by rw [List.nil_append]; exact (if_neg h).symm, by simp⟩
  have hstart : ∃ front, unsigned = front ++ start.2 ∧
      ∀ b ∈ front, b = chr '0' ∨ toLower b = chr 'x' := by
    by_cases h : base = 0
    · have hbase : start = numberBase unsigned := if_pos h
      rw [hbase]
      exact numberBase_suffix unsigned
    · have hbase : start = (base, unsigned) := if_neg h
      rw [hbase]
      exact ⟨[], rfl, by simp⟩
  obtain ⟨sign, ht, hsign⟩ := hsign
  obtain ⟨front, hfront, hannounced⟩ := hstart
  refine ⟨s.takeWhile isSpace ++ sign ++ front, start.2, start.1, _, ?_, ?_, rfl⟩
  · rw [List.append_assoc, List.append_assoc, ← hfront, ← ht]
    exact hspaces
  · rintro b ⟨hspace, hminus, hplus, hzero, hx, -⟩ hmem
    simp only [List.mem_append] at hmem
    rcases hmem with (hmem | hmem) | hmem
    · have hbspace := List.mem_takeWhile_imp hmem
      rw [hspace] at hbspace
      cases hbspace
    · exact (hsign b hmem).elim hminus hplus
    · exact (hannounced b hmem).elim hzero hx

/-- `strtol` does not go past such a byte. -/
theorem strtol_suffix (base : Nat) (s : List UInt8) :
    ∃ front, s = front ++ (strtol base s).2 ∧ ∀ b, Unnumbered b → b ∉ front := by
  obtain ⟨front, body, start, value, hbody, hfront, hstrtol⟩ := exists_strtol base s
  obtain ⟨digits, hdigits, hall⟩ := scanDigits_suffix start 0 body
  rw [hstrtol]
  split
  · exact ⟨[], rfl, by simp⟩
  · refine ⟨front ++ digits, ?_, ?_⟩
    · rw [List.append_assoc, ← hdigits]
      exact hbody
    · intro b hb hmem
      rcases List.mem_append.mp hmem with hmem | hmem
      · exact hfront b hb hmem
      · have hbdigit := hall b hmem
        rw [hb.2.2.2.2.2] at hbdigit
        cases hbdigit

/-- Without a number there is no value. -/
theorem strtol_eq_zero {base : Nat} {s : List UInt8} (h : (strtol base s).2.length = s.length) :
    (strtol base s).1 = 0 := by
  obtain ⟨front, body, start, value, hbody, -, hstrtol⟩ := exists_strtol base s
  obtain ⟨digits, hdigits, -⟩ := scanDigits_suffix start 0 body
  rw [hstrtol] at h ⊢
  split
  · rfl
  · next hne =>
    have hlength : (scanDigits start 0 body).2.length = s.length := by rwa [if_neg hne] at h
    have hs := congrArg List.length hbody
    have hsplit := congrArg List.length hdigits
    rw [List.length_append] at hs hsplit
    omega

end Machine
