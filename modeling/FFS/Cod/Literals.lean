import Mathlib.Data.Nat.Prime.Basic
import FFS.Machine.Decimal
import FFS.Machine.Integers

/-!
# Integer constants

The lexer keeps the spelling of a constant.  `type_of_int_const_string` reads it for its type and
`cg_expr` reads it again for its value.  Both take the base from the prefix, a suffix only counts
where it has an `l`, and the digits of a binary constant go on to the end of the spelling.
-/

namespace FFS
namespace Cod

open Machine

/-! ## Reading a spelling -/

/-- `sscanf` with `%ld`. -/
def sscanfLd (s : List UInt8) : Option Int :=
  let result := strtol 10 s
  if result.2.length = s.length then none else some result.1

/-- `sscanf` with `%lo` and `%lx` on a spelling that begins with neither a blank nor a sign.
A hexadecimal number may have its prefix. -/
def sscanfUnsigned (base : Nat) (s : List UInt8) : Option Int :=
  let body := if base = 16 ∧ (numberBase s).1 = 16 then (numberBase s).2 else s
  let result := scanDigits base 0 body
  if result.2.length = body.length then none
  else some (IntType.wrap .l (min result.1 (2 ^ 64 - 1) : Nat))

/-- The loop over the digits of a binary constant. -/
def binaryLoop (i : Int) : List UInt8 → Int
  | [] => i
  | b :: s =>
    binaryLoop (IntType.wrap .l (IntType.wrap .l (2 * i) + if b = chr '1' then 1 else 0)) s

/-- The `long` that `type_of_int_const_string` and `cg_expr` read. -/
def constantLong (val : List UInt8) : Option Int :=
  if val.head? = some (chr '0') then
    if val.tail.head? = some (chr 'x') then sscanfUnsigned 16 (val.drop 2)
    else if val.tail.head? = some (chr 'b') then some (binaryLoop 0 (val.drop 2))
    else sscanfUnsigned 8 val
  else sscanfLd val

def isU (b : UInt8) : Bool := b = chr 'U' ∨ b = chr 'u'

def isL (b : UInt8) : Bool := b = chr 'l' ∨ b = chr 'L'

/-- The characters at the end that are looked at for a suffix. -/
def suffixPlaces (val : List UInt8) : List UInt8 :=
  val.reverse.take (if 3 < val.length then 3 else if 2 < val.length then 2 else 1)

/-- `type_of_int_const_string` -/
def typeOfIntConstString (val : List UInt8) : Option IntType :=
  (constantLong val).map fun i =>
    let hex := val.head? = some (chr '0')
    if (suffixPlaces val).any isL = false then
      if IntType.wrap .i i = i then .i
      else if hex ∧ IntType.wrap .u i = i then .u
      else .l
    else if (suffixPlaces val).any isU then .ul
    else .l

/-- What `dill_setu` leaves of an immediate.  It is made for an `unsigned int`, and `wide` tells
whether it keeps the rest of a larger one. -/
def setu (wide : Bool) (i : Int) : Int :=
  if wide then IntType.wrap .ul i else IntType.wrap .u i

/-- `cg_expr` on an integer constant: the type of the register and the value that is put there. -/
def loadInteger (wide : Bool) (val : List UInt8) : Option (IntType × Int) := do
  let typ ← typeOfIntConstString val
  let i ← constantLong val
  match typ with
  | .i => some (typ, IntType.wrap .i i)
  | .u | .ul => some (typ, setu wide i)
  | _ => some (typ, IntType.wrap .l i)

/-! ## The constants of C -/

inductive Base where
  | decimal
  | octal
  | hex
  | binary
deriving DecidableEq, Repr

namespace Base

def radix : Base → Nat
  | decimal => 10
  | octal => 8
  | hex => 16
  | binary => 2

/-- The prefix of the constants that the lexer takes. -/
def start : Base → List UInt8
  | decimal => []
  | octal => [chr '0']
  | hex => [chr '0', chr 'x']
  | binary => [chr '0', chr 'b']

end Base

/-- The suffixes `IS` of the lexer, and none. -/
def integerSuffixes : List (List UInt8) :=
  let u := [[chr 'u'], [chr 'U']]
  let l := [[chr 'l'], [chr 'L'], [chr 'l', chr 'l'], [chr 'L', chr 'L']]
  [[]] ++ u ++ l ++ u.flatMap (fun x => l.map (x ++ ·)) ++ l.flatMap (fun x => u.map (x ++ ·))

theorem noSuffix : [] ∈ integerSuffixes := List.mem_cons_self

/-- An integer constant.  The digits of an octal one follow its first zero. -/
structure IntLiteral where
  base : Base
  digits : List UInt8
  suffix : List UInt8
  allDigits : ∀ b ∈ digits, isDigitOf base.radix b = true
  nonempty : base ≠ .octal → digits ≠ []
  leading : base = .decimal → digits.head? ≠ some (chr '0')
  hasSuffix : suffix ∈ integerSuffixes

namespace IntLiteral

def text (lit : IntLiteral) : List UInt8 := lit.base.start ++ lit.digits ++ lit.suffix

def value (lit : IntLiteral) : Nat := (scanDigits lit.base.radix 0 lit.digits).1

def hasU (lit : IntLiteral) : Bool := lit.suffix.any isU

def hasL (lit : IntLiteral) : Bool := lit.suffix.any isL

/-- The types that C tries for a constant, with `long` for `long long`. -/
def candidates (decimal hasU hasL : Bool) : List IntType :=
  match hasU, hasL with
  | false, false => if decimal then [.i, .l] else [.i, .u, .l, .ul]
  | true, false => [.u, .ul]
  | false, true => if decimal then [.l] else [.l, .ul]
  | true, true => [.ul]

/-- The type of a constant, the first that holds the value. -/
def cType (lit : IntLiteral) : Option IntType :=
  (candidates (lit.base = .decimal) lit.hasU lit.hasL).find? fun t => t.InRange lit.value

/-- The constants that are read as C does.  A decimal one with `u` has `l` as well, another one
without `u` has no bit 63, with `u` alone it has bit 31 as its highest, and a binary one with a
suffix is zero.  One with both suffixes goes through `dill_setu`. -/
def Loads (lit : IntLiteral) (wide : Bool) : Prop :=
  match lit.base with
  | .decimal => lit.hasU = true →
      lit.hasL = true ∧ (lit.value < 2 ^ 32 ∨ wide = true ∧ lit.value < 2 ^ 63)
  | .octal | .hex =>
    match lit.hasU, lit.hasL with
    | false, _ => lit.value < 2 ^ 63
    | true, false => 2 ^ 31 ≤ lit.value ∧ lit.value < 2 ^ 32
    | true, true => lit.value < 2 ^ 32 ∨ wide = true
  | .binary =>
    if lit.suffix = [] then lit.value < 2 ^ 63 else lit.value = 0 ∧ lit.hasL = true

end IntLiteral

/-! ## Reading digits -/

theorem isDigitOf_some {base : Nat} {b : UInt8} (h : isDigitOf base b = true) :
    ∃ d, digitValue b = some d ∧ d < base := by
  unfold isDigitOf at h
  cases hdigit : digitValue b with
  | none =>
    rw [hdigit] at h
    cases h
  | some d =>
    rw [hdigit] at h
    exact ⟨d, rfl, of_decide_eq_true h⟩

theorem isDigitOf_mono {base base' : Nat} {b : UInt8} (hbase : base ≤ base')
    (h : isDigitOf base b = true) : isDigitOf base' b = true := by
  obtain ⟨d, hd, hlt⟩ := isDigitOf_some h
  unfold isDigitOf
  rw [hd]
  exact decide_eq_true (lt_of_lt_of_le hlt hbase)

/-- Digits in front of something else. -/
theorem scanDigits_append {base : Nat} {ds rest : List UInt8}
    (hds : ∀ b ∈ ds, isDigitOf base b = true) (hrest : ∀ b ∈ rest.head?, isDigitOf base b = false)
    (value : Nat) :
    scanDigits base value (ds ++ rest) = ((scanDigits base value ds).1, rest) := by
  induction ds generalizing value with
  | nil =>
    rw [List.nil_append, scanDigits]
    cases rest with
    | nil => rfl
    | cons b rest =>
      have hb := hrest b rfl
      unfold isDigitOf at hb
      rw [scanDigits]
      cases hdigit : digitValue b with
      | none => rfl
      | some d =>
        rw [hdigit] at hb
        dsimp only
        rw [if_neg (of_decide_eq_false hb)]
  | cons b ds ih =>
    have hb := hds b List.mem_cons_self
    have hds : ∀ b ∈ ds, isDigitOf base b = true := fun c hc => hds c (List.mem_cons_of_mem b hc)
    unfold isDigitOf at hb
    rw [List.cons_append, scanDigits, scanDigits]
    cases hdigit : digitValue b with
    | none =>
      rw [hdigit] at hb
      cases hb
    | some d =>
      rw [hdigit] at hb
      dsimp only
      rw [if_pos (of_decide_eq_true hb), if_pos (of_decide_eq_true hb)]
      exact ih hds _

/-- A suffix is short and has a `u` or an `l`, and no letter of it is a digit, a prefix or a
one. -/
theorem suffix_spec : ∀ suffix ∈ integerSuffixes, suffix.length ≤ 3 ∧
    (suffix ≠ [] → suffix.any isU = true ∨ suffix.any isL = true) ∧ ∀ b ∈ suffix,
      isDigitOf 16 b = false ∧ isDigitOf 10 b = false ∧ isDigitOf 8 b = false ∧
        toLower b ≠ chr 'x' ∧ b ≠ chr '1' := by
  decide +kernel

theorem suffix_letters {suffix : List UInt8} (h : suffix ∈ integerSuffixes) : ∀ b ∈ suffix,
    isDigitOf 16 b = false ∧ isDigitOf 10 b = false ∧ isDigitOf 8 b = false ∧
      toLower b ≠ chr 'x' ∧ b ≠ chr '1' :=
  (suffix_spec suffix h).2.2

/-- What else a digit is not, and the value of a binary one. -/
theorem digit_spec (b : UInt8) :
    (isDigitOf 16 b = true → toLower b ≠ chr 'x' ∧ isU b = false ∧ isL b = false) ∧
    (isDigitOf 10 b = true → isSpace b = false ∧ b ≠ chr '-' ∧ b ≠ chr '+') ∧
    (isDigitOf 2 b = true → digitValue b = some (if b = chr '1' then 1 else 0)) := by
  refine forall_byte (P := fun b =>
    (isDigitOf 16 b = true → toLower b ≠ chr 'x' ∧ isU b = false ∧ isL b = false) ∧
    (isDigitOf 10 b = true → isSpace b = false ∧ b ≠ chr '-' ∧ b ≠ chr '+') ∧
    (isDigitOf 2 b = true → digitValue b = some (if b = chr '1' then 1 else 0))) ?_ b
  decide +kernel

theorem hex_digit_ne_x (b : UInt8) (h : isDigitOf 16 b = true) : toLower b ≠ chr 'x' :=
  ((digit_spec b).1 h).1

theorem decimal_digit (b : UInt8) : isDigitOf 10 b = true →
    isSpace b = false ∧ b ≠ chr '-' ∧ b ≠ chr '+' :=
  (digit_spec b).2.1

/-- Without an `x` there is no prefix. -/
theorem numberBase_ne_hex {s : List UInt8} (h : ∀ b ∈ s, toLower b ≠ chr 'x') :
    (numberBase s).1 ≠ 16 := by
  have hother : ∀ a : UInt8, (if a = chr '0' then 8 else 10 : Nat) ≠ 16 := by
    intro a
    split <;> decide
  match s, h with
  | [], _ => decide
  | [a], _ => exact hother a
  | [a, b], _ => exact hother a
  | a :: b :: d :: s, h =>
    rw [numberBase,
      if_neg fun hx => h b (List.mem_cons_of_mem a List.mem_cons_self) hx.2.1]
    exact hother a

theorem sscanfUnsigned_digits {base : Nat} {ds rest : List UInt8} (hne : ds ≠ [])
    (hds : ∀ b ∈ ds, isDigitOf base b = true) (hrest : ∀ b ∈ rest.head?, isDigitOf base b = false)
    (hnoX : base = 16 → ∀ b ∈ ds ++ rest, toLower b ≠ chr 'x') :
    sscanfUnsigned base (ds ++ rest) =
      some (IntType.wrap .l (min (scanDigits base 0 ds).1 (2 ^ 64 - 1) : Nat)) := by
  have hbody : ¬ (base = 16 ∧ (numberBase (ds ++ rest)).1 = 16) := by
    intro hboth
    obtain ⟨rfl, hbase⟩ := hboth
    exact numberBase_ne_hex (hnoX rfl) hbase
  have hpos := List.length_pos_iff.mpr hne
  rw [sscanfUnsigned, if_neg hbody, scanDigits_append hds hrest]
  dsimp only
  rw [if_neg (by rw [List.length_append]; omega)]

theorem sscanfLd_digits {ds rest : List UInt8} (hne : ds ≠ [])
    (hds : ∀ b ∈ ds, isDigitOf 10 b = true) (hrest : ∀ b ∈ rest.head?, isDigitOf 10 b = false) :
    sscanfLd (ds ++ rest) = some ((min (scanDigits 10 0 ds).1 (2 ^ 63 - 1) : Nat) : Int) := by
  obtain ⟨d, ds', rfl⟩ := List.exists_cons_of_ne_nil hne
  obtain ⟨hspace, hminus, hplus⟩ := decimal_digit d (hds d List.mem_cons_self)
  have hscan := scanDigits_append hds hrest 0
  have hstart : ((d :: ds') ++ rest).dropWhile isSpace = (d :: ds') ++ rest := by
    rw [List.cons_append, List.dropWhile_cons_of_neg (by rw [hspace]; exact Bool.false_ne_true)]
  have hlength : rest.length ≠ (d :: ds' ++ rest).length := by
    rw [List.length_append, List.length_cons]
    omega
  have hlong : clampLong ((scanDigits 10 0 (d :: ds')).1 : Int) =
      (min (scanDigits 10 0 (d :: ds')).1 (2 ^ 63 - 1) : Nat) := by
    rw [clampLong]
    omega
  have hstrtol : strtol 10 (d :: ds' ++ rest) =
      (((min (scanDigits 10 0 (d :: ds')).1 (2 ^ 63 - 1) : Nat) : Int), rest) := by
    have hhead : (d :: ds' ++ rest).head? = some d := rfl
    have hsign : ¬ (some d = some (chr '-') ∨ some d = some (chr '+')) := by
      rintro (h | h)
      · exact hminus (Option.some.inj h)
      · exact hplus (Option.some.inj h)
    unfold strtol
    rw [hstart]
    dsimp only
    rw [hhead, if_neg hsign, if_neg (show ¬ (10 : Nat) = 0 by decide)]
    dsimp only
    rw [hscan]
    dsimp only
    rw [if_neg hlength, if_neg fun h => hsign (.inl h), hlong]
  rw [sscanfLd, hstrtol]
  dsimp only
  rw [if_neg hlength]

theorem wrap_double (x c : Int) :
    IntType.wrap .l (IntType.wrap .l (2 * IntType.wrap .l x) + c) =
      IntType.wrap .l (2 * x + c) := by
  simp only [IntType.wrap, IntType.signed, IntType.width, if_true, Int.bmod_def]
  omega

theorem binary_digit (b : UInt8) : isDigitOf 2 b = true →
    digitValue b = some (if b = chr '1' then 1 else 0) :=
  (digit_spec b).2.2

/-- The loop goes through the digits and doubles for each letter behind them. -/
theorem binaryLoop_digits {ds rest : List UInt8} (hds : ∀ b ∈ ds, isDigitOf 2 b = true)
    (hrest : ∀ b ∈ rest, b ≠ chr '1') (x : Nat) :
    binaryLoop (IntType.wrap .l x) (ds ++ rest) =
      IntType.wrap .l (((scanDigits 2 x ds).1 * 2 ^ rest.length : Nat)) := by
  induction ds generalizing x with
  | nil =>
    rw [List.nil_append, scanDigits]
    dsimp only
    induction rest generalizing x with
    | nil => rw [binaryLoop, List.length_nil, pow_zero, Nat.mul_one]
    | cons b rest ih =>
      have hb := hrest b List.mem_cons_self
      have hrest := fun c hc => hrest c (List.mem_cons_of_mem b hc)
      have hdouble : IntType.wrap .l (2 * (x : Int) + 0) = IntType.wrap .l (2 * x : Nat) := by
        rw [Int.add_zero]
        rfl
      have hpower : 2 * x * 2 ^ rest.length = x * 2 ^ (rest.length + 1) := by ring
      rw [binaryLoop, if_neg hb, wrap_double, hdouble, ih hrest, List.length_cons, hpower]
  | cons b ds ih =>
    have hb := hds b List.mem_cons_self
    have hds := fun c hc => hds c (List.mem_cons_of_mem b hc)
    rw [List.cons_append, binaryLoop, wrap_double, scanDigits, binary_digit b hb]
    dsimp only
    by_cases hone : b = chr '1'
    · rw [if_pos hone, if_pos hone, if_pos (by decide), ← ih hds]
      congr 2
      omega
    · rw [if_neg hone, if_neg hone, if_pos (by decide), ← ih hds]
      congr 2
      omega

/-! ## Integer constants -/

theorem constantLong_hex (s : List UInt8) :
    constantLong (chr '0' :: chr 'x' :: s) = sscanfUnsigned 16 s :=
  (if_pos rfl).trans (if_pos rfl)

theorem constantLong_binary (s : List UInt8) :
    constantLong (chr '0' :: chr 'b' :: s) = some (binaryLoop 0 s) :=
  (if_pos rfl).trans ((if_neg (show ¬ some (chr 'b') = some (chr 'x') by decide)).trans
    (if_pos rfl))

theorem constantLong_octal {s : List UInt8} (hx : s.head? ≠ some (chr 'x'))
    (hb : s.head? ≠ some (chr 'b')) :
    constantLong (chr '0' :: s) = sscanfUnsigned 8 (chr '0' :: s) :=
  (if_pos rfl).trans ((if_neg hx).trans (if_neg hb))

namespace IntLiteral

variable (lit : IntLiteral)

/-- The `long` that is read for a constant. -/
def readLong : Int :=
  match lit.base with
  | .decimal => (min lit.value (2 ^ 63 - 1) : Nat)
  | .octal | .hex => IntType.wrap .l (min lit.value (2 ^ 64 - 1) : Nat)
  | .binary => IntType.wrap .l (lit.value * 2 ^ lit.suffix.length : Nat)

theorem constantLong_text : constantLong lit.text = some lit.readLong := by
  have hletters := suffix_letters lit.hasSuffix
  have hdigits := lit.allDigits
  unfold text readLong value
  cases hbase : lit.base with
  | decimal =>
    have hne := lit.nonempty (by rw [hbase]; decide)
    have hleading := lit.leading hbase
    rw [hbase] at hdigits
    obtain ⟨d, ds, hcons⟩ := List.exists_cons_of_ne_nil hne
    have hhead : (Base.decimal.start ++ lit.digits ++ lit.suffix).head? ≠ some (chr '0') := by
      rw [hcons] at hleading ⊢
      exact hleading
    rw [constantLong, if_neg hhead]
    exact sscanfLd_digits hne hdigits fun b hb => (hletters b (List.mem_of_mem_head? hb)).2.1
  | octal =>
    rw [hbase] at hdigits
    have hzero : ∀ b ∈ chr '0' :: lit.digits, isDigitOf 8 b = true := by
      intro b hb
      rcases List.mem_cons.mp hb with rfl | hb
      · decide
      · exact hdigits b hb
    have hhead : ∀ c : UInt8, isDigitOf 8 c = false → c ∉ lit.suffix →
        (lit.digits ++ lit.suffix).head? ≠ some c := by
      intro c hc hsuffix hhead
      rcases List.mem_append.mp (List.mem_of_mem_head? hhead) with hmem | hmem
      · exact Bool.false_ne_true (hc.symm.trans (hdigits c hmem))
      · exact hsuffix hmem
    have hx : chr 'x' ∉ lit.suffix := fun hmem => (hletters _ hmem).2.2.2.1 (by decide)
    have hb : chr 'b' ∉ lit.suffix := fun hmem => absurd (hletters _ hmem).1 (by decide)
    have hscan := sscanfUnsigned_digits (List.cons_ne_nil _ _) hzero
      (fun b hb => (hletters b (List.mem_of_mem_head? hb)).2.2.1) (fun h => absurd h (by decide))
    exact (constantLong_octal (hhead _ (by decide) hx) (hhead _ (by decide) hb)).trans hscan
  | hex =>
    have hne := lit.nonempty (by rw [hbase]; decide)
    rw [hbase] at hdigits
    refine (constantLong_hex _).trans (sscanfUnsigned_digits hne hdigits
      (fun b hb => (hletters b (List.mem_of_mem_head? hb)).1) fun _ b hb => ?_)
    rcases List.mem_append.mp hb with hb | hb
    · exact hex_digit_ne_x b (hdigits b hb)
    · exact (hletters b hb).2.2.2.1
  | binary =>
    rw [hbase] at hdigits
    have hloop := binaryLoop_digits hdigits (fun b hb => (hletters b hb).2.2.2.2) 0
    exact (constantLong_binary _).trans (congrArg some hloop)

end IntLiteral

/-! ## The type -/

theorem any_suffixPlaces {p : UInt8 → Bool} {front suffix : List UInt8}
    (hfront : ∀ b ∈ front, p b = false) (hne : front ≠ []) (hlength : suffix.length ≤ 3) :
    (suffixPlaces (front ++ suffix)).any p = suffix.any p := by
  have hpos := List.length_pos_iff.mpr hne
  have htotal : (front ++ suffix).length = front.length + suffix.length := List.length_append
  obtain ⟨k, hk, hplaces⟩ : ∃ k, suffix.length ≤ k ∧
      suffixPlaces (front ++ suffix) = (front ++ suffix).reverse.take k := by
    refine ⟨_, ?_, rfl⟩
    split
    · omega
    · split <;> omega
  have hnone : (front.reverse.take (k - suffix.reverse.length)).any p = false := by
    refine List.any_eq_false.mpr fun b hb => ?_
    rw [hfront b (List.mem_reverse.mp (List.mem_of_mem_take hb))]
    exact Bool.false_ne_true
  rw [hplaces, List.reverse_append, List.take_append,
    List.take_of_length_le (by rw [List.length_reverse]; exact hk), List.any_append, hnone,
    Bool.or_false, List.any_reverse]

theorem hex_digit_plain (b : UInt8) (h : isDigitOf 16 b = true) : isU b = false ∧ isL b = false :=
  ((digit_spec b).1 h).2

/-- The type that is found from what is read. -/
def typeFor (decimal hasU hasL : Bool) (i : Int) : IntType :=
  if hasL = false then
    if IntType.wrap .i i = i then .i
    else if decimal = false ∧ IntType.wrap .u i = i then .u
    else .l
  else if hasU = true then .ul
  else .l

/-- The value that a register of a type gets. -/
def loaded (wide : Bool) (typ : IntType) (i : Int) : Int :=
  match typ with
  | .i => IntType.wrap .i i
  | .u | .ul => setu wide i
  | _ => IntType.wrap .l i

namespace IntLiteral

variable (lit : IntLiteral)

theorem isDigitOf_hex {base : Base} {b : UInt8} (h : isDigitOf base.radix b = true) :
    isDigitOf 16 b = true :=
  isDigitOf_mono (by cases base <;> decide) h

theorem start_subset (base : Base) : base.start ⊆ [chr '0', chr 'x', chr 'b'] := by
  cases base <;> decide

theorem forall_start {p : UInt8 → Bool}
    (h : p (chr '0') = false ∧ p (chr 'x') = false ∧ p (chr 'b') = false) :
    ∀ b ∈ [chr '0', chr 'x', chr 'b'], p b = false := by
  simp only [List.forall_mem_cons]
  exact ⟨h.1, h.2.1, h.2.2, nofun⟩

theorem any_places {p : UInt8 → Bool} (hdigit : ∀ b, isDigitOf 16 b = true → p b = false)
    (hstart : ∀ b ∈ [chr '0', chr 'x', chr 'b'], p b = false) :
    (suffixPlaces lit.text).any p = lit.suffix.any p := by
  have hshort : ∀ suffix ∈ integerSuffixes, suffix.length ≤ 3 := fun suffix h =>
    (suffix_spec suffix h).1
  refine any_suffixPlaces (fun b hb => ?_) ?_ (hshort _ lit.hasSuffix)
  · rcases List.mem_append.mp hb with hb | hb
    · exact hstart b (start_subset _ hb)
    · exact hdigit b (isDigitOf_hex (lit.allDigits b hb))
  · intro hnil
    obtain ⟨hstartNil, hdigitsNil⟩ := List.append_eq_nil_iff.mp hnil
    by_cases hoctal : lit.base = .octal
    · rw [hoctal] at hstartNil
      cases hstartNil
    · exact lit.nonempty hoctal hdigitsNil

theorem head_text : (lit.text.head? = some (chr '0')) ↔ lit.base ≠ .decimal := by
  unfold text
  cases hbase : lit.base with
  | decimal =>
    obtain ⟨d, ds, hcons⟩ := List.exists_cons_of_ne_nil (lit.nonempty (by rw [hbase]; decide))
    have hleading := lit.leading hbase
    rw [hcons] at hleading ⊢
    exact ⟨fun h => absurd h hleading, fun h => absurd rfl h⟩
  | octal | hex | binary => exact ⟨fun _ => by decide, fun _ => rfl⟩

theorem typeOfIntConstString_text : typeOfIntConstString lit.text =
    some (typeFor (lit.base = .decimal) lit.hasU lit.hasL lit.readLong) := by
  have hu : (suffixPlaces lit.text).any isU = lit.hasU :=
    any_places lit (fun b hb => (hex_digit_plain b hb).1) (forall_start ⟨rfl, rfl, rfl⟩)
  have hl : (suffixPlaces lit.text).any isL = lit.hasL :=
    any_places lit (fun b hb => (hex_digit_plain b hb).2) (forall_start ⟨rfl, rfl, rfl⟩)
  rw [typeOfIntConstString, constantLong_text, Option.map_some, hu, hl]
  congr 1
  unfold typeFor
  by_cases hdecimal : lit.base = .decimal
  · have hhead := (lit.head_text).not.mpr (not_not_intro hdecimal)
    simp only [hdecimal, hhead, decide_true, Bool.true_eq_false, false_and]
  · have hhead := lit.head_text.mpr hdecimal
    simp only [hdecimal, hhead, decide_false, true_and]

theorem loadInteger_text (wide : Bool) : loadInteger wide lit.text =
    let typ := typeFor (lit.base = .decimal) lit.hasU lit.hasL lit.readLong
    some (typ, loaded wide typ lit.readLong) := by
  rw [loadInteger, typeOfIntConstString_text, constantLong_text]
  dsimp only [Option.bind_eq_bind, Option.bind_some]
  generalize typeFor (lit.base = .decimal) lit.hasU lit.hasL lit.readLong = typ
  cases typ <;> rfl

end IntLiteral

/-! ## Type and value -/

theorem wrap_eq_self_iff {t : IntType} {x : Int} : t.wrap x = x ↔ t.InRange x :=
  ⟨fun h => h ▸ t.inRange_wrap x, IntType.wrap_of_inRange⟩

theorem inRange_i (v : Nat) : IntType.InRange .i v ↔ v < 2 ^ 31 := by
  show (-2 ^ 31 ≤ (v : Int) ∧ (v : Int) < 2 ^ 31) ↔ _
  omega

theorem inRange_u (v : Nat) : IntType.InRange .u v ↔ v < 2 ^ 32 := by
  show (0 ≤ (v : Int) ∧ (v : Int) < 2 ^ 32) ↔ _
  omega

theorem inRange_l (v : Nat) : IntType.InRange .l v ↔ v < 2 ^ 63 := by
  show (-2 ^ 63 ≤ (v : Int) ∧ (v : Int) < 2 ^ 63) ↔ _
  omega

theorem inRange_ul (v : Nat) : IntType.InRange .ul v ↔ v < 2 ^ 64 := by
  have hhigh : IntType.high .ul = ((2 ^ 64 : Nat) : Int) := rfl
  rw [IntType.InRange, hhigh, Int.ofNat_lt]
  exact and_iff_right (Int.natCast_nonneg v)

/-- The first type of a list that holds a number. -/
def firstType (decimal hasU hasL : Bool) (v : Nat) : Option IntType :=
  (IntLiteral.candidates decimal hasU hasL).find? fun t => t.InRange v

theorem firstType_eq (decimal hasU hasL : Bool) (v : Nat) :
    firstType decimal hasU hasL v =
      match hasU, hasL with
      | false, false =>
        if v < 2 ^ 31 then some .i
        else if decimal = false ∧ v < 2 ^ 32 then some .u
        else if v < 2 ^ 63 then some .l
        else if decimal = false ∧ v < 2 ^ 64 then some .ul
        else none
      | true, false => if v < 2 ^ 32 then some .u else if v < 2 ^ 64 then some .ul else none
      | false, true =>
        if v < 2 ^ 63 then some .l
        else if decimal = false ∧ v < 2 ^ 64 then some .ul
        else none
      | true, true => if v < 2 ^ 64 then some .ul else none := by
  have hfind : ∀ (p : IntType → Bool) (t : IntType) (l : List IntType),
      (t :: l).find? p = if p t = true then some t else l.find? p := by
    intro p t l
    by_cases hp : p t = true
    · rw [List.find?_cons_of_pos hp, if_pos hp]
    · rw [List.find?_cons_of_neg hp, if_neg hp]
  unfold firstType
  cases decimal <;> cases hasU <;> cases hasL <;>
    simp only [IntLiteral.candidates, if_true, if_false, Bool.false_eq_true, Bool.true_eq_false,
      hfind, List.find?_nil, decide_eq_true_eq, inRange_i, inRange_u, inRange_l, inRange_ul,
      true_and, false_and]

/-- What becomes of a number that is read as it is. -/
theorem typeFor_nat (decimal hasU hasL : Bool) (v : Nat) : typeFor decimal hasU hasL v =
    if hasL = false then
      if v < 2 ^ 31 then .i else if decimal = false ∧ v < 2 ^ 32 then .u else .l
    else if hasU = true then .ul else .l := by
  unfold typeFor
  simp only [wrap_eq_self_iff, inRange_i, inRange_u]

theorem setu_nat (wide : Bool) (v : Nat) :
    setu wide v = v ↔ v < 2 ^ 32 ∨ wide = true ∧ v < 2 ^ 64 := by
  unfold setu
  cases wide with
  | false =>
    rw [if_neg Bool.false_ne_true, wrap_eq_self_iff, inRange_u]
    simp
  | true =>
    rw [if_pos rfl, wrap_eq_self_iff, inRange_ul]
    simp only [true_and]
    omega

theorem setu_negative (wide : Bool) {v : Nat} (h : 2 ^ 63 ≤ v) (hv : v < 2 ^ 64) :
    setu wide ((v : Int) - 2 ^ 64) = v ↔ wide = true := by
  unfold setu
  cases wide with
  | false =>
    rw [if_neg Bool.false_ne_true]
    refine iff_of_false (fun heq => ?_) Bool.false_ne_true
    have hrange := IntType.inRange_wrap .u ((v : Int) - 2 ^ 64)
    rw [heq, inRange_u] at hrange
    omega
  | true =>
    have hwrap : IntType.wrap .ul ((v : Int) - 2 ^ 64) = IntType.wrap .ul v := by
      refine IntType.wrap_congr ?_
      rw [show IntType.width .ul = 64 from rfl]
      omega
    rw [if_pos rfl, hwrap, IntType.wrap_of_inRange ((inRange_ul v).mpr hv)]
    exact iff_of_true rfl rfl

/-- Without `u` a number that a `long` holds gets its type and its value. -/
theorem plain_loads {decimal hasL : Bool} {v : Nat} {t : IntType} (wide : Bool)
    (ht : firstType decimal false hasL v = some t) (hv : v < 2 ^ 63) :
    typeFor decimal false hasL v = t ∧ loaded wide t v = v := by
  have hvalue : ∀ t' : IntType, t'.InRange v → (t' = .i ∨ t' = .u ∨ t' = .l) →
      loaded wide t' v = v := by
    intro t' hrange ht'
    rcases ht' with rfl | rfl | rfl
    · exact IntType.wrap_of_inRange hrange
    · exact (setu_nat wide v).mpr (.inl ((inRange_u v).mp hrange))
    · exact IntType.wrap_of_inRange hrange
  rw [firstType_eq] at ht
  rw [typeFor_nat]
  cases hasL with
  | false =>
    dsimp only at ht
    rw [if_pos hv] at ht
    rw [if_pos rfl]
    by_cases h31 : v < 2 ^ 31
    · rw [if_pos h31] at ht ⊢
      cases ht
      exact ⟨rfl, hvalue .i ((inRange_i v).mpr h31) (.inl rfl)⟩
    · rw [if_neg h31] at ht ⊢
      by_cases h32 : decimal = false ∧ v < 2 ^ 32
      · rw [if_pos h32] at ht ⊢
        cases ht
        exact ⟨rfl, hvalue .u ((inRange_u v).mpr h32.2) (.inr (.inl rfl))⟩
      · rw [if_neg h32] at ht ⊢
        cases ht
        exact ⟨rfl, hvalue .l ((inRange_l v).mpr hv) (.inr (.inr rfl))⟩
  | true =>
    dsimp only at ht
    rw [if_pos hv] at ht
    cases ht
    exact ⟨rfl, hvalue .l ((inRange_l v).mpr hv) (.inr (.inr rfl))⟩

/-- With both suffixes the type is right. -/
theorem firstType_both {decimal : Bool} {v : Nat} {t : IntType}
    (ht : firstType decimal true true v = some t) : t = .ul ∧ v < 2 ^ 64 := by
  rw [firstType_eq] at ht
  dsimp only at ht
  by_cases h64 : v < 2 ^ 64
  · rw [if_pos h64] at ht
    exact ⟨(Option.some.inj ht).symm, h64⟩
  · rw [if_neg h64] at ht
    cases ht

/-- With `u` alone the type is one of two. -/
theorem firstType_u {decimal : Bool} {v : Nat} {t : IntType}
    (ht : firstType decimal true false v = some t) :
    (t = .u ∧ v < 2 ^ 32) ∨ (t = .ul ∧ 2 ^ 32 ≤ v ∧ v < 2 ^ 64) := by
  rw [firstType_eq] at ht
  dsimp only at ht
  by_cases h32 : v < 2 ^ 32
  · rw [if_pos h32] at ht
    exact .inl ⟨(Option.some.inj ht).symm, h32⟩
  · rw [if_neg h32] at ht
    by_cases h64 : v < 2 ^ 64
    · rw [if_pos h64] at ht
      exact .inr ⟨(Option.some.inj ht).symm, by omega, h64⟩
    · rw [if_neg h64] at ht
      cases ht

theorem typeFor_u_ne (decimal : Bool) (i : Int) : typeFor decimal true false i ≠ .ul := by
  unfold typeFor
  rw [if_pos rfl]
  split
  · decide
  · split <;> decide

/-- A decimal constant is read as it is, up to the largest `long`. -/
theorem decimal_loads {hasU hasL : Bool} {v : Nat} {t : IntType}
    (ht : firstType true hasU hasL v = some t) (wide : Bool) :
    (typeFor true hasU hasL (min v (2 ^ 63 - 1) : Nat) = t ∧
      loaded wide t (min v (2 ^ 63 - 1) : Nat) = v) ↔
      (hasU = true → hasL = true ∧ (v < 2 ^ 32 ∨ wide = true ∧ v < 2 ^ 63)) := by
  cases hasU with
  | false =>
    have hv : v < 2 ^ 63 := by
      by_contra hlarge
      rw [firstType_eq] at ht
      cases hasL with
      | false =>
        dsimp only at ht
        rw [if_neg (by omega), if_neg fun h => Bool.noConfusion h.1, if_neg hlarge,
          if_neg fun h => Bool.noConfusion h.1] at ht
        cases ht
      | true =>
        dsimp only at ht
        rw [if_neg hlarge, if_neg fun h => Bool.noConfusion h.1] at ht
        cases ht
    rw [show min v (2 ^ 63 - 1) = v by omega]
    exact iff_of_true (plain_loads wide ht hv) fun h => Bool.noConfusion h
  | true =>
    cases hasL with
    | false =>
      refine iff_of_false (fun hboth => ?_) fun h => Bool.noConfusion (h rfl).1
      rcases firstType_u ht with ⟨rfl, -⟩ | ⟨rfl, -⟩
      · have htype := hboth.1
        rw [typeFor_nat, if_pos rfl] at htype
        split at htype
        · cases htype
        · rw [if_neg fun h => Bool.noConfusion h.1] at htype
          cases htype
      · exact typeFor_u_ne true _ hboth.1
    | true =>
      obtain ⟨rfl, h64⟩ := firstType_both ht
      have hcond : (true = true → true = true ∧ (v < 2 ^ 32 ∨ wide = true ∧ v < 2 ^ 63)) ↔
          (v < 2 ^ 32 ∨ wide = true ∧ v < 2 ^ 63) := by simp
      rw [hcond, and_iff_right (show typeFor true true true _ = .ul from rfl)]
      show setu wide (min v (2 ^ 63 - 1) : Nat) = v ↔ _
      by_cases hv : v < 2 ^ 63
      · rw [show min v (2 ^ 63 - 1) = v by omega, setu_nat]
        refine or_congr_right (and_congr_right fun _ => ?_)
        omega
      · refine iff_of_false (fun heq => ?_) (by rintro (h | h) <;> omega)
        rw [show min v (2 ^ 63 - 1) = 2 ^ 63 - 1 by omega] at heq
        unfold setu at heq
        cases wide with
        | false =>
          have hrange := IntType.inRange_wrap .u ((2 ^ 63 - 1 : Nat) : Int)
          rw [if_neg Bool.false_ne_true] at heq
          rw [heq, inRange_u] at hrange
          omega
        | true =>
          rw [if_pos rfl, IntType.wrap_of_inRange ((inRange_ul _).mpr (by omega))] at heq
          omega

theorem firstType_lt {decimal hasU hasL : Bool} {v : Nat} {t : IntType}
    (ht : firstType decimal hasU hasL v = some t) : v < 2 ^ 64 := by
  have hfound := List.find?_some (p := fun t : IntType => decide (t.InRange v)) ht
  have hrange := (of_decide_eq_true hfound).2
  have hbound : t.high ≤ 2 ^ 64 := by cases t <;> decide
  have hv : (v : Int) < 2 ^ 64 := lt_of_lt_of_le hrange hbound
  exact_mod_cast hv

/-- With bit 63 the number is read as a negative one. -/
theorem wrap_large {v : Nat} (h : 2 ^ 63 ≤ v) (hv : v < 2 ^ 64) :
    IntType.wrap .l v = (v : Int) - 2 ^ 64 := by
  have hrange : IntType.InRange .l ((v : Int) - 2 ^ 64) := by
    show -2 ^ 63 ≤ (v : Int) - 2 ^ 64 ∧ (v : Int) - 2 ^ 64 < 2 ^ 63
    omega
  have hwrap : IntType.wrap .l v = IntType.wrap .l ((v : Int) - 2 ^ 64) := by
    refine IntType.wrap_congr ?_
    rw [show IntType.width .l = 64 from rfl]
    omega
  rw [hwrap, IntType.wrap_of_inRange hrange]

/-- A negative number has a signed type, unless the suffixes are both there. -/
theorem typeFor_negative (decimal hasU hasL : Bool) {i : Int} (h : i < 0)
    (hboth : hasL = true → hasU = false) : typeFor decimal hasU hasL i ≠ .u ∧
      typeFor decimal hasU hasL i ≠ .ul := by
  unfold typeFor
  cases hasL with
  | false =>
    rw [if_pos rfl]
    by_cases hi : IntType.wrap .i i = i
    · rw [if_pos hi]
      exact ⟨by decide, by decide⟩
    · rw [if_neg hi, if_neg fun hu => ?_]
      · exact ⟨by decide, by decide⟩
      · have hrange := wrap_eq_self_iff.mp hu.2
        have hlow : (0 : Int) ≤ i := hrange.1
        omega
  | true =>
    rw [hboth rfl]
    exact ⟨show IntType.l ≠ .u by decide, show IntType.l ≠ .ul by decide⟩

/-- A constant that is not decimal, without `u`, is read with its high bit as a sign. -/
theorem signed_loads {hasL : Bool} {v : Nat} {t : IntType}
    (ht : firstType false false hasL v = some t) (wide : Bool) :
    (typeFor false false hasL (IntType.wrap .l v) = t ∧
      loaded wide t (IntType.wrap .l v) = v) ↔ v < 2 ^ 63 := by
  have h64 := firstType_lt ht
  by_cases hv : v < 2 ^ 63
  · rw [IntType.wrap_of_inRange ((inRange_l v).mpr hv)]
    exact iff_of_true (plain_loads wide ht hv) hv
  · rw [wrap_large (Nat.le_of_not_lt hv) h64]
    refine iff_of_false (fun h => ?_) hv
    have ht' : t = .ul := by
      rw [firstType_eq] at ht
      cases hasL with
      | false =>
        dsimp only at ht
        rw [if_neg (by omega), if_neg fun h => absurd h.2 (by omega), if_neg hv,
          if_pos ⟨rfl, h64⟩] at ht
        exact (Option.some.inj ht).symm
      | true =>
        dsimp only at ht
        rw [if_neg hv, if_pos ⟨rfl, h64⟩] at ht
        exact (Option.some.inj ht).symm
    exact (typeFor_negative false false hasL (by omega) (fun _ => rfl)).2 (h.1.trans ht')

/-- With `u` alone it must have bit 31 as its highest. -/
theorem unsigned_loads {v : Nat} {t : IntType} (ht : firstType false true false v = some t)
    (wide : Bool) : (typeFor false true false (IntType.wrap .l v) = t ∧
      loaded wide t (IntType.wrap .l v) = v) ↔ 2 ^ 31 ≤ v ∧ v < 2 ^ 32 := by
  have h64 := firstType_lt ht
  rcases firstType_u ht with ⟨rfl, h32⟩ | ⟨rfl, h32, -⟩
  · rw [IntType.wrap_of_inRange ((inRange_l v).mpr (by omega)), typeFor_nat, if_pos rfl]
    by_cases h31 : v < 2 ^ 31
    · rw [if_pos h31]
      exact iff_of_false (fun h => IntType.noConfusion h.1) (by omega)
    · rw [if_neg h31, if_pos ⟨rfl, h32⟩]
      have hvalue : loaded wide .u v = v := (setu_nat wide v).mpr (.inl h32)
      exact iff_of_true ⟨rfl, hvalue⟩ ⟨Nat.le_of_not_lt h31, h32⟩
  · exact iff_of_false (fun h => typeFor_u_ne false _ h.1) (by omega)

/-- With both suffixes it goes through `dill_setu`. -/
theorem both_loads {v : Nat} {t : IntType} (ht : firstType false true true v = some t)
    (wide : Bool) : (typeFor false true true (IntType.wrap .l v) = t ∧
      loaded wide t (IntType.wrap .l v) = v) ↔ v < 2 ^ 32 ∨ wide = true := by
  obtain ⟨rfl, h64⟩ := firstType_both ht
  rw [and_iff_right (show typeFor false true true _ = .ul from rfl)]
  show setu wide (IntType.wrap .l v) = v ↔ _
  by_cases hv : v < 2 ^ 63
  · rw [IntType.wrap_of_inRange ((inRange_l v).mpr hv), setu_nat]
    exact or_congr_right (and_iff_left h64)
  · rw [wrap_large (Nat.le_of_not_lt hv) h64, setu_negative wide (Nat.le_of_not_lt hv) h64]
    exact (or_iff_right (by omega)).symm

/-- A number that is doubled a few times has other low bits than before, unless it is zero. -/
theorem eq_zero_of_doubled {v k w : Nat} (hk : k ≠ 0) (hv : v < 2 ^ w)
    (h : v * 2 ^ k % 2 ^ w = v) : v = 0 := by
  have hpow : 2 ^ k = (2 ^ k - 1) + 1 := by
    have hpos := Nat.two_pow_pos k
    omega
  have hdvd : 2 ^ w ∣ v * (2 ^ k - 1) := by
    have hsplit : v * 2 ^ k = v * (2 ^ k - 1) + v := by
      conv_lhs => rw [hpow, Nat.mul_succ]
    have hdvd := Nat.dvd_sub_mod (n := 2 ^ w) (v * 2 ^ k)
    rwa [h, hsplit, Nat.add_sub_cancel] at hdvd
  have hodd : Nat.Coprime (2 ^ w) (2 ^ k - 1) := by
    refine Nat.Coprime.pow_left w (Nat.coprime_two_left.mpr ?_)
    obtain ⟨j, rfl⟩ := Nat.exists_eq_succ_of_ne_zero hk
    refine Nat.odd_iff.mpr ?_
    have hpos := Nat.two_pow_pos j
    rw [pow_succ]
    omega
  exact Nat.eq_zero_of_dvd_of_lt (hodd.dvd_of_dvd_mul_right hdvd) hv

/-- What a register gets agrees with what is read in its low bits. -/
theorem wrap_nat_eq {t : IntType} {n v : Nat} (h : t.wrap (IntType.wrap .l n) = (v : Int)) :
    n % 2 ^ t.width = v % 2 ^ t.width := by
  have hwrap : t.wrap n = (v : Int) := by
    rw [← h]
    exact (IntType.wrap_wrap_of_le (by cases t <;> decide) n).symm
  have hmod := t.wrap_emod n
  rw [hwrap] at hmod
  exact_mod_cast hmod.symm

/-- A binary constant with a suffix is read as another one, unless it is zero. -/
theorem binary_loads {hasU hasL : Bool} {v k : Nat} {t : IntType}
    (ht : firstType false hasU hasL v = some t) (wide : Bool) (hk : k ≠ 0)
    (hsuffix : hasU = true ∨ hasL = true) :
    (typeFor false hasU hasL (IntType.wrap .l (v * 2 ^ k : Nat)) = t ∧
      loaded wide t (IntType.wrap .l (v * 2 ^ k : Nat)) = v) ↔ v = 0 ∧ hasL = true := by
  have h64 := firstType_lt ht
  constructor
  · rintro ⟨htype, hvalue⟩
    obtain ⟨t', hv, hlow⟩ : ∃ t' : IntType, v < 2 ^ t'.width ∧
        t'.wrap (IntType.wrap .l (v * 2 ^ k : Nat)) = (v : Int) := by
      have hsetu : setu wide (IntType.wrap .l (v * 2 ^ k : Nat)) = v →
          ∃ t' : IntType, v < 2 ^ t'.width ∧
            t'.wrap (IntType.wrap .l (v * 2 ^ k : Nat)) = (v : Int) := by
        intro hvalue
        unfold setu at hvalue
        cases wide with
        | false =>
          rw [if_neg Bool.false_ne_true] at hvalue
          exact ⟨.u, (inRange_u v).mp (hvalue ▸ IntType.inRange_wrap .u _), hvalue⟩
        | true =>
          rw [if_pos rfl] at hvalue
          exact ⟨.ul, h64, hvalue⟩
      cases t with
      | i =>
        have hrange : IntType.InRange .i v := by
          have hvalue : IntType.wrap .i (IntType.wrap .l (v * 2 ^ k : Nat)) = (v : Int) := hvalue
          exact hvalue ▸ IntType.inRange_wrap .i _
        exact ⟨.i, lt_trans ((inRange_i v).mp hrange) (by decide), hvalue⟩
      | u | ul => exact hsetu hvalue
      | c | uc | s | us | l => exact ⟨.l, h64, hvalue⟩
    have hmod := wrap_nat_eq hlow
    rw [Nat.mod_eq_of_lt hv] at hmod
    obtain rfl := eq_zero_of_doubled hk hv hmod
    refine ⟨rfl, ?_⟩
    by_contra hno
    obtain rfl := Bool.eq_false_of_not_eq_true hno
    obtain rfl := hsuffix.resolve_right Bool.false_ne_true
    have ht' : t = .u := by
      rcases firstType_u ht with ⟨rfl, -⟩ | ⟨-, h32, -⟩
      · rfl
      · omega
    rw [Nat.zero_mul, IntType.wrap_of_inRange ((inRange_l 0).mpr (by decide)), typeFor_nat, ht']
      at htype
    cases htype
  · rintro ⟨rfl, rfl⟩
    rw [Nat.zero_mul, IntType.wrap_of_inRange ((inRange_l 0).mpr (by decide))]
    cases hasU with
    | false => exact plain_loads wide ht (by decide)
    | true =>
      obtain ⟨rfl, -⟩ := firstType_both ht
      exact ⟨rfl, (setu_nat wide 0).mpr (.inl (by decide))⟩

namespace IntLiteral

variable (lit : IntLiteral)

theorem unsuffixed {t : IntType} (ht : firstType false lit.hasU lit.hasL lit.value = some t)
    (wide : Bool) : (typeFor false lit.hasU lit.hasL (IntType.wrap .l lit.value) = t ∧
      loaded wide t (IntType.wrap .l lit.value) = lit.value) ↔
      match lit.hasU, lit.hasL with
      | false, _ => lit.value < 2 ^ 63
      | true, false => 2 ^ 31 ≤ lit.value ∧ lit.value < 2 ^ 32
      | true, true => lit.value < 2 ^ 32 ∨ wide = true := by
  generalize lit.hasU = hasU at ht ⊢
  generalize lit.hasL = hasL at ht ⊢
  cases hasU with
  | false => exact signed_loads ht wide
  | true =>
    cases hasL with
    | false => exact unsigned_loads ht wide
    | true => exact both_loads ht wide

/-- An integer constant of C is loaded with its type and its value under the condition, and only
then. -/
theorem loads_iff {t : IntType} (ht : lit.cType = some t) (wide : Bool) :
    loadInteger wide lit.text = some (t, (lit.value : Int)) ↔ lit.Loads wide := by
  have hload := lit.loadInteger_text wide
  dsimp only at hload
  rw [hload, Option.some.injEq, Prod.mk.injEq]
  have hsame : ∀ {decimal hasU hasL : Bool} {i : Int} {v : Nat},
      (typeFor decimal hasU hasL i = t ∧
        loaded wide (typeFor decimal hasU hasL i) i = v) ↔
      (typeFor decimal hasU hasL i = t ∧ loaded wide t i = v) := by
    intro decimal hasU hasL i v
    exact and_congr_right fun h => by rw [h]
  rw [hsame]
  unfold cType at ht
  unfold readLong Loads
  cases hbase : lit.base with
  | decimal =>
    rw [hbase] at ht
    exact @decimal_loads lit.hasU _ _ _ ht wide
  | octal | hex =>
    rw [hbase] at ht
    have h64 : lit.value < 2 ^ 64 := @firstType_lt _ lit.hasU lit.hasL _ _ ht
    dsimp only
    rw [show min lit.value (2 ^ 64 - 1) = lit.value by omega]
    exact unsuffixed lit ht wide
  | binary =>
    rw [hbase] at ht
    dsimp only
    by_cases hnone : lit.suffix = []
    · rw [hnone, List.length_nil, pow_zero, Nat.mul_one, if_pos rfl]
      have hu : lit.hasU = false := by rw [hasU, hnone]; rfl
      have hl : lit.hasL = false := by rw [hasL, hnone]; rfl
      rw [hu, hl] at ht ⊢
      exact signed_loads ht wide
    · rw [if_neg hnone]
      exact @binary_loads lit.hasU lit.hasL _ _ _ ht wide
        (List.length_pos_iff.mpr hnone).ne' ((suffix_spec _ lit.hasSuffix).2.1 hnone)

end IntLiteral

end Cod
end FFS
