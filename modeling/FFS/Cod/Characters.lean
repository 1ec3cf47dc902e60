import FFS.Cod.Literals

/-!
# Character and string constants

A character constant is kept as it is spelled and read by `cg_expr`, while the bytes of a string
are made by the lexer.  The two have tables of escapes that differ from C's and from each other,
and in a string an octal escape ends at the last digit that follows it.
-/

namespace FFS
namespace Cod

open Machine

/-! ## Character constants -/

def skipIf (c : UInt8) (s : List UInt8) : List UInt8 := if s.head? = some c then s.tail else s

/-- An escape in a character constant, behind the backslash. -/
def characterEscape (s : List UInt8) : Option Int :=
  match s with
  | [] => none
  | c :: rest =>
    if isDigitOf 8 c then sscanfUnsigned 8 s
    else if c = chr 'x' then sscanfUnsigned 16 rest
    else if c = chr '\\' then some 0o134
    else if c = chr '\'' then some 0o47
    else if c = chr '"' then some 0o42
    else if c = chr '?' then some 0o77
    else if c = chr 'a' then some 0o7
    else if c = chr 'b' then some 0o10
    else if c = chr 'f' then some 0o6
    else if c = chr 'n' then some 0o12
    else if c = chr 'r' then some 0o15
    else if c = chr 't' then some 0o11
    else some 0

/-- `cg_expr` on a character constant: the value that is put into an `int` register. -/
def loadCharacter (val : List UInt8) : Option Int :=
  let val := skipIf (chr 'U') (skipIf (chr 'u') (skipIf (chr 'L') val))
  match val.tail with
  | [] => none
  | b :: s =>
    (if b = chr '\\' then characterEscape s else some (IntType.wrap .c b.toNat)).map
      (IntType.wrap .i)

/-! ## String constants -/

/-- What the lexer does next in a string.  What it reports as an error is not accepted. -/
inductive LexStep where
  | close
  | error
  | append (b : UInt8) (rest : List UInt8)

/-- The byte for a letter behind a backslash. -/
def escapedByte (c : UInt8) : UInt8 :=
  if c = chr 'n' then 0o12
  else if c = chr 't' then 0o11
  else if c = chr 'r' then 0o15
  else if c = chr 'b' then 0o10
  else if c = chr 'f' then 0o14
  else c

/-- A number that `sscanf` reads into an `int` and that must be a byte. -/
def escapedNumber (base : Nat) (digits rest : List UInt8) : LexStep :=
  let result := IntType.wrap .i (min (scanDigits base 0 digits).1 (2 ^ 64 - 1) : Nat)
  if 0xff < result then .error else .append (UInt8.ofNat (IntType.wrap .uc result).toNat) rest

/-- The rules of `string_cond` for a backslash.  Of rules that match the longest is taken, and of
as long ones the first. -/
def lexEscape (s : List UInt8) : LexStep :=
  match s with
  | [] => .error
  | c :: rest =>
    let hexes := rest.takeWhile (isDigitOf 16)
    let octals := (s.take 3).takeWhile (isDigitOf 8)
    let decimals := s.takeWhile (isDigitOf 10)
    if c = chr 'x' ∧ hexes ≠ [] then escapedNumber 16 hexes (rest.drop hexes.length)
    else if octals.length < decimals.length then .error
    else if octals ≠ [] then escapedNumber 8 octals (s.drop octals.length)
    else .append (escapedByte c) rest

def lexStep (s : List UInt8) : LexStep :=
  match s with
  | [] => .error
  | b :: rest =>
    if b = chr '"' then .close
    else if b = chr '\n' then .error
    else if b = chr '\\' then lexEscape rest
    else .append b rest

/-- The bytes of a string, from behind its first quote. -/
def lexString : Nat → List UInt8 → Option (List UInt8)
  | 0, _ => none
  | fuel + 1, s =>
    match lexStep s with
    | .close => some []
    | .error => none
    | .append b rest => (lexString fuel rest).map (b :: ·)

/-- `cg_expr` on a string constant: what `strdup` makes of the bytes. -/
def loadString (val : List UInt8) : Option (List UInt8) :=
  (lexString (val.length + 1) val).map fun bytes => bytes.takeWhile (· ≠ 0) ++ [0]

/-! ## The constants of C -/

/-- One element of a character or string constant.  `named` is a universal character name of 4 or
8 digits. -/
inductive CharItem where
  | plain (b : UInt8)
  | simple (letter : UInt8)
  | octal (digits : List UInt8)
  | hex (digits : List UInt8)
  | named (long : Bool) (c : Char)
deriving DecidableEq

/-- The simple escapes of C. -/
def simpleEscapes : List (UInt8 × UInt8) :=
  [(chr '\'', 39), (chr '"', 34), (chr '?', 63), (chr '\\', 92), (chr 'a', 7), (chr 'b', 8),
   (chr 'f', 12), (chr 'n', 10), (chr 'r', 13), (chr 't', 9), (chr 'v', 11)]

def simpleValue (letter : UInt8) : UInt8 := (simpleEscapes.lookup letter).getD 0

def hexDigit (d : Nat) : UInt8 :=
  if d < 10 then chr '0' + UInt8.ofNat d else chr 'a' + UInt8.ofNat (d - 10)

/-- A number of so many hexadecimal digits. -/
def hexDigits : Nat → Nat → List UInt8
  | 0, _ => []
  | n + 1, v => hexDigits n (v / 16) ++ [hexDigit (v % 16)]

namespace CharItem

def text : CharItem → List UInt8
  | plain b => [b]
  | simple letter => [chr '\\', letter]
  | octal digits => chr '\\' :: digits
  | hex digits => chr '\\' :: chr 'x' :: digits
  | named false c => chr '\\' :: chr 'u' :: hexDigits 4 c.toNat
  | named true c => chr '\\' :: chr 'U' :: hexDigits 8 c.toNat

/-- The number of an octal or hexadecimal escape. -/
def number : CharItem → Nat
  | octal digits => (scanDigits 8 0 digits).1
  | hex digits => (scanDigits 16 0 digits).1
  | _ => 0

/-- An element of a constant in these quotes. -/
def Proper (quote : UInt8) : CharItem → Prop
  | plain b => b ≠ quote ∧ b ≠ chr '\\' ∧ b ≠ chr '\n' ∧ b ≠ 0
  | simple letter => letter ∈ simpleEscapes.map Prod.fst
  | octal digits => digits ≠ [] ∧ digits.length ≤ 3 ∧ ∀ b ∈ digits, isDigitOf 8 b = true
  | hex digits => digits ≠ [] ∧ ∀ b ∈ digits, isDigitOf 16 b = true
  | named long c =>
    (long = false → c.toNat < 2 ^ 16) ∧ (0xa0 ≤ c.toNat ∨ c.toNat ∈ [0x24, 0x40, 0x60])

/-- The element ends in front of this byte. -/
def EndsAt (next : UInt8) : CharItem → Prop
  | octal digits => digits.length < 3 → isDigitOf 8 next = false
  | hex _ => isDigitOf 16 next = false
  | _ => True

/-- The bytes of an element in a string. -/
def bytes : CharItem → List UInt8
  | plain b => [b]
  | simple letter => [simpleValue letter]
  | octal digits => [UInt8.ofNat (number (octal digits))]
  | hex digits => [UInt8.ofNat (number (hex digits))]
  | named _ c => String.utf8EncodeChar c

end CharItem

inductive CharPrefix where
  | none
  | wide
  | char16
  | char32
deriving DecidableEq, Repr

namespace CharPrefix

def text : CharPrefix → List UInt8
  | none => []
  | wide => [chr 'L']
  | char16 => [chr 'u']
  | char32 => [chr 'U']

/-- The type of a character: `char`, `wchar_t`, `char16_t` and `char32_t`. -/
def type : CharPrefix → IntType
  | none => .c
  | wide => .i
  | char16 => .us
  | char32 => .u

end CharPrefix

namespace CharItem

/-- The value of a character constant. -/
def cValue (start : CharPrefix) : CharItem → Option Int
  | plain b => if start = .none ∨ b < 128 then some (IntType.wrap .c b.toNat) else none
  | simple letter => some (simpleValue letter).toNat
  | named _ _ => none
  | item => if item.number < 2 ^ start.type.width then some (start.type.wrap item.number) else none

/-- The characters that are read as C does. -/
def Reads (start : CharPrefix) : CharItem → Prop
  | plain _ | named _ _ => True
  | simple letter => letter ≠ chr 'f' ∧ letter ≠ chr 'v'
  | item => (start = .none → item.number < 128) ∧ (start = .char32 → item.number < 2 ^ 31)

end CharItem

/-- The spelling of a character constant. -/
def characterText (start : CharPrefix) (item : CharItem) : List UInt8 :=
  start.text ++ chr '\'' :: (item.text ++ [chr '\''])

/-- The first byte of what follows an element of a string, which may be its closing quote. -/
def nextByte : List CharItem → UInt8
  | [] => chr '"'
  | item :: _ => item.text.headD 0

/-- The elements of a string.  Each ends where the next one begins, and a number is a byte. -/
def ProperString : List CharItem → Prop
  | [] => True
  | item :: items =>
    item.Proper (chr '"') ∧ item.number < 256 ∧ item.EndsAt (nextByte items) ∧ ProperString items

/-- The spelling of a string from behind its first quote. -/
def stringText (items : List CharItem) : List UInt8 := items.flatMap CharItem.text ++ [chr '"']

/-- An element in front of this byte that is read as C does. -/
def CharItem.ReadsBefore (next : UInt8) : CharItem → Prop
  | plain _ => True
  | simple letter => letter ≠ chr 'a' ∧ letter ≠ chr 'v'
  | octal digits => number (octal digits) ≠ 0 ∧ isDigitOf 10 next = false
  | hex digits => number (hex digits) ≠ 0
  | named _ _ => False

/-- Every element of the string is read as C does. -/
def StringReads : List CharItem → Prop
  | [] => True
  | item :: items => item.ReadsBefore (nextByte items) ∧ StringReads items

/-! ## Reading a character -/

/-- The prefix and the quote are skipped. -/
theorem loadCharacter_text (start : CharPrefix) (s : List UInt8) :
    loadCharacter (start.text ++ chr '\'' :: s) =
      match s with
      | [] => none
      | b :: s =>
        (if b = chr '\\' then characterEscape s else some (IntType.wrap .c b.toNat)).map
          (IntType.wrap .i) := by
  cases start <;> rfl

/-- C's numbers in a character fit in a register. -/
theorem wrap_small {v : Nat} (h : v < 2 ^ 63) :
    IntType.wrap .l (min v (2 ^ 64 - 1) : Nat) = v := by
  rw [show min v (2 ^ 64 - 1) = v by omega]
  exact IntType.wrap_of_inRange ((inRange_l v).mpr h)

theorem quote_no_digit : isDigitOf 16 (chr '\'') = false ∧ isDigitOf 8 (chr '\'') = false ∧
    toLower (chr '\'') ≠ chr 'x' := by
  decide

theorem characterEscape_octal {digits : List UInt8} (hne : digits ≠ [])
    (hdigits : ∀ b ∈ digits, isDigitOf 8 b = true) (hv : (scanDigits 8 0 digits).1 < 2 ^ 63) :
    characterEscape (digits ++ [chr '\'']) = some ((scanDigits 8 0 digits).1 : Int) := by
  obtain ⟨d, ds, rfl⟩ := List.exists_cons_of_ne_nil hne
  have hrest : ∀ b ∈ [chr '\''].head?, isDigitOf 8 b = false := by
    intro b hb
    rw [← Option.some.inj hb]
    exact quote_no_digit.2.1
  have hscan := sscanfUnsigned_digits hne hdigits hrest fun h => absurd h (by decide)
  rw [List.cons_append] at hscan ⊢
  rw [characterEscape, if_pos (hdigits d List.mem_cons_self), hscan, wrap_small hv]

theorem characterEscape_hex {digits : List UInt8} (hne : digits ≠ [])
    (hdigits : ∀ b ∈ digits, isDigitOf 16 b = true) (hv : (scanDigits 16 0 digits).1 < 2 ^ 63) :
    characterEscape (chr 'x' :: (digits ++ [chr '\''])) =
      some ((scanDigits 16 0 digits).1 : Int) := by
  have hrest : ∀ b ∈ [chr '\''].head?, isDigitOf 16 b = false := by
    intro b hb
    rw [← Option.some.inj hb]
    exact quote_no_digit.1
  have hnoX : ∀ b ∈ digits ++ [chr '\''], toLower b ≠ chr 'x' := by
    intro b hb
    rcases List.mem_append.mp hb with hb | hb
    · exact hex_digit_ne_x b (hdigits b hb)
    · rw [List.mem_singleton.mp hb]
      exact quote_no_digit.2.2
  rw [characterEscape, if_neg (by decide), if_pos rfl,
    sscanfUnsigned_digits hne hdigits hrest fun _ => hnoX, wrap_small hv]

/-- The table of `cg_expr` differs from C's in two letters. -/
theorem characterEscape_simple : ∀ letter ∈ simpleEscapes.map Prod.fst, ∀ rest : List UInt8,
    characterEscape (letter :: rest) = some
      (if letter = chr 'f' then 6 else if letter = chr 'v' then 0
        else ((simpleValue letter).toNat : Int)) := by
  intro letter hletter rest
  simp only [simpleEscapes, List.map_cons, List.map_nil, List.mem_cons, List.not_mem_nil,
    or_false] at hletter
  rcases hletter with rfl | rfl | rfl | rfl | rfl | rfl | rfl | rfl | rfl | rfl | rfl <;> rfl

/-- A number is kept in an `int`, where the type of the constant may have less or no sign. -/
theorem wrap_number (start : CharPrefix) {v : Nat} (hv : v < 2 ^ start.type.width) :
    IntType.wrap .i v = start.type.wrap v ↔
      (start = .none → v < 128) ∧ (start = .char32 → v < 2 ^ 31) := by
  cases start <;> simp only [CharPrefix.type, IntType.width] at hv ⊢ <;>
    simp only [IntType.wrap, IntType.signed, IntType.width, if_true, if_false, Int.bmod_def,
      reduceCtorEq, Bool.false_eq_true, false_implies, true_implies, and_true, true_and,
      iff_true] <;>
    omega

/-- The bytes of a spelling behind its backslash. -/
theorem loadCharacter_escape (start : CharPrefix) (s : List UInt8) :
    loadCharacter (start.text ++ chr '\'' :: chr '\\' :: s) =
      (characterEscape s).map (IntType.wrap .i) := by
  rw [loadCharacter_text]
  exact congrArg (Option.map (IntType.wrap .i)) (if_pos rfl)

/-- The table of `cg_expr` has another `\f` and `\v`, and that of the lexer no `\a` and no
`\v`. -/
theorem simple_spec : ∀ letter ∈ simpleEscapes.map Prod.fst,
    (IntType.wrap .i (if letter = chr 'f' then 6 else if letter = chr 'v' then 0
      else ((simpleValue letter).toNat : Int)) = (simpleValue letter).toNat ↔
      letter ≠ chr 'f' ∧ letter ≠ chr 'v') ∧
    simpleValue letter ≠ 0 ∧
    (escapedByte letter = simpleValue letter ↔ letter ≠ chr 'a' ∧ letter ≠ chr 'v') := by
  decide +kernel

namespace CharItem

theorem number_reads {start : CharPrefix} {v : Nat} {x : Int} {s : List UInt8}
    (hx : (if v < 2 ^ start.type.width then some (start.type.wrap v) else none) = some x)
    (hs : v < 2 ^ 63 → characterEscape s = some (v : Int)) :
    loadCharacter (start.text ++ chr '\'' :: chr '\\' :: s) = some x ↔
      (start = .none → v < 128) ∧ (start = .char32 → v < 2 ^ 31) := by
  by_cases hv : v < 2 ^ start.type.width
  · have hlong : v < 2 ^ 63 :=
      lt_of_lt_of_le hv (Nat.pow_le_pow_right (by omega) (by cases start <;> decide))
    rw [if_pos hv] at hx
    rw [loadCharacter_escape, hs hlong, Option.map_some, ← hx, Option.some_inj]
    exact wrap_number start hv
  · rw [if_neg hv] at hx
    cases hx

/-- A constant is read as C does when its escape is in both tables and its number keeps its
value in an `int`. -/
theorem reads_iff {start : CharPrefix} {item : CharItem} {x : Int}
    (hproper : item.Proper (chr '\'')) (hx : item.cValue start = some x) :
    loadCharacter (characterText start item) = some x ↔ item.Reads start := by
  unfold characterText
  cases item with
  | plain b =>
    obtain ⟨hquote, hslash, -⟩ := hproper
    have hload : loadCharacter (start.text ++ chr '\'' :: ([b] ++ [chr '\''])) =
        some (IntType.wrap .i (IntType.wrap .c b.toNat)) := by
      rw [loadCharacter_text]
      exact congrArg (Option.map (IntType.wrap .i)) (if_neg hslash)
    have hchar : IntType.wrap .i (IntType.wrap .c b.toNat) = IntType.wrap .c b.toNat := by
      have hrange := IntType.inRange_wrap .c b.toNat
      refine IntType.wrap_of_inRange ?_
      simp only [IntType.InRange, IntType.low, IntType.high, IntType.signed, IntType.width,
        if_true] at hrange ⊢
      omega
    have hvalue : IntType.wrap .c b.toNat = x := by
      rw [cValue] at hx
      by_cases hb : start = .none ∨ b < 128
      · rw [if_pos hb] at hx
        exact Option.some.inj hx
      · rw [if_neg hb] at hx
        cases hx
    rw [text, hload, hchar, hvalue]
    exact iff_of_true rfl trivial
  | simple letter =>
    have hvalue : ((simpleValue letter).toNat : Int) = x := Option.some.inj hx
    have hletter : letter ∈ simpleEscapes.map Prod.fst := hproper
    rw [text, List.cons_append, List.cons_append, loadCharacter_escape,
      characterEscape_simple letter hletter, Option.map_some, Option.some_inj, ← hvalue]
    exact (simple_spec letter hletter).1
  | octal digits =>
    obtain ⟨hne, -, hdigits⟩ := hproper
    exact number_reads (v := number (octal digits)) hx (characterEscape_octal hne hdigits)
  | hex digits =>
    obtain ⟨hne, hdigits⟩ := hproper
    exact number_reads (v := number (hex digits)) hx (characterEscape_hex hne hdigits)
  | named long c => cases hx

end CharItem

/-! ## Reading a string -/

/-- A step that does not give the byte of an element: an error, a zero, which ends the string, or
a byte that C does not have there. -/
def LexStep.Misses (item : CharItem) : LexStep → Prop
  | append b _ => b = 0 ∨ item.bytes.head? ≠ some b
  | _ => True

theorem nextByte_stringText (items : List CharItem) :
    (stringText items).head? = some (nextByte items) := by
  cases items with
  | nil => rfl
  | cons item items => cases item with
    | named long c => cases long <;> rfl
    | _ => rfl

theorem lexStep_escape (s : List UInt8) : lexStep (chr '\\' :: s) = lexEscape s := by
  rw [lexStep, if_neg (by decide), if_neg (by decide), if_pos rfl]

theorem takeWhile_append_head {p : UInt8 → Bool} {ds rest : List UInt8}
    (hds : ∀ b ∈ ds, p b = true) (hrest : ∀ b ∈ rest.head?, p b = false) :
    (ds ++ rest).takeWhile p = ds := by
  rw [List.takeWhile_append_of_pos hds]
  cases rest with
  | nil => exact List.append_nil ds
  | cons b rest =>
    have hb : ¬ p b = true := by
      rw [hrest b rfl]
      exact Bool.false_ne_true
    rw [List.takeWhile_cons_of_neg hb, List.append_nil]

/-- A number that is a byte is that byte. -/
theorem escapedNumber_byte {base : Nat} {digits : List UInt8} (rest : List UInt8)
    (hv : (scanDigits base 0 digits).1 < 256) :
    escapedNumber base digits rest =
      .append (UInt8.ofNat (scanDigits base 0 digits).1) rest := by
  have hi : IntType.wrap .i (min (scanDigits base 0 digits).1 (2 ^ 64 - 1) : Nat) =
      (scanDigits base 0 digits).1 := by
    rw [show min (scanDigits base 0 digits).1 (2 ^ 64 - 1) = (scanDigits base 0 digits).1 by omega]
    exact IntType.wrap_of_inRange ((inRange_i _).mpr (by omega))
  have huc : IntType.wrap .uc ((scanDigits base 0 digits).1 : Int) =
      (scanDigits base 0 digits).1 := by
    refine IntType.wrap_of_inRange ?_
    simp only [IntType.InRange, IntType.low, IntType.high, IntType.signed, IntType.width,
      Bool.false_eq_true, if_false]
    omega
  rw [escapedNumber, hi, if_neg (by omega), huc, Int.toNat_natCast]

theorem lexEscape_hex {digits rest : List UInt8} (hne : digits ≠ [])
    (hdigits : ∀ b ∈ digits, isDigitOf 16 b = true)
    (hrest : ∀ b ∈ rest.head?, isDigitOf 16 b = false) (hv : (scanDigits 16 0 digits).1 < 256) :
    lexEscape (chr 'x' :: (digits ++ rest)) =
      .append (UInt8.ofNat (scanDigits 16 0 digits).1) rest := by
  rw [lexEscape, takeWhile_append_head hdigits hrest, if_pos ⟨rfl, hne⟩, List.drop_left]
  exact escapedNumber_byte rest hv

/-- An octal escape ends in front of a digit that is not octal, or the rule for an error takes
all the digits. -/
theorem lexEscape_octal {digits rest : List UInt8} {next : UInt8} (hne : digits ≠ [])
    (hlength : digits.length ≤ 3) (hdigits : ∀ b ∈ digits, isDigitOf 8 b = true)
    (hnext : rest.head? = some next) (hends : digits.length < 3 → isDigitOf 8 next = false)
    (hv : (scanDigits 8 0 digits).1 < 256) :
    lexEscape (digits ++ rest) =
      if isDigitOf 10 next = true then .error
      else .append (UInt8.ofNat (scanDigits 8 0 digits).1) rest := by
  obtain ⟨d, ds, rfl⟩ := List.exists_cons_of_ne_nil hne
  obtain ⟨rest, rfl⟩ : ∃ t, rest = next :: t := by
    cases rest with
    | nil => cases hnext
    | cons b t => exact ⟨t, by rw [Option.some.inj hnext]⟩
  have hd : d ≠ chr 'x' := by
    intro h
    have hdigit := hdigits d List.mem_cons_self
    rw [h] at hdigit
    exact absurd hdigit (by decide)
  have hoctals : ((d :: ds ++ next :: rest).take 3).takeWhile (isDigitOf 8) = d :: ds := by
    rw [List.take_append, List.take_of_length_le hlength]
    refine takeWhile_append_head hdigits fun b hb => ?_
    by_cases hfull : (d :: ds).length < 3
    · obtain ⟨k, hk⟩ : ∃ k, 3 - (d :: ds).length = k + 1 := ⟨2 - (d :: ds).length, by omega⟩
      rw [hk, List.take_succ_cons, List.head?_cons] at hb
      rw [← Option.some.inj hb]
      exact hends hfull
    · rw [show 3 - (d :: ds).length = 0 by omega] at hb
      cases hb
  have hdecimal : ∀ b ∈ d :: ds, isDigitOf 10 b = true :=
    fun b hb => isDigitOf_mono (by decide) (hdigits b hb)
  have hdecimals : (d :: ds).length < ((d :: ds ++ next :: rest).takeWhile (isDigitOf 10)).length ↔
      isDigitOf 10 next = true := by
    rw [List.takeWhile_append_of_pos hdecimal, List.length_append]
    by_cases hn : isDigitOf 10 next = true
    · rw [List.takeWhile_cons_of_pos hn]
      exact iff_of_true (Nat.lt_add_of_pos_right (Nat.succ_pos _)) hn
    · rw [List.takeWhile_cons_of_neg hn, List.length_nil]
      exact iff_of_false (by omega) hn
  rw [List.cons_append, lexEscape, if_neg fun h => hd h.1, ← List.cons_append, hoctals]
  by_cases hn : isDigitOf 10 next = true
  · rw [if_pos (hdecimals.mpr hn), if_pos hn]
  · rw [if_neg (mt hdecimals.mp hn), if_neg hn, if_pos hne, List.drop_left]
    exact escapedNumber_byte _ hv

theorem lexEscape_simple : ∀ letter ∈ simpleEscapes.map Prod.fst, ∀ rest : List UInt8,
    lexEscape (letter :: rest) = .append (escapedByte letter) rest := by
  intro letter hletter rest
  simp only [simpleEscapes, List.map_cons, List.map_nil, List.mem_cons, List.not_mem_nil,
    or_false] at hletter
  rcases hletter with rfl | rfl | rfl | rfl | rfl | rfl | rfl | rfl | rfl | rfl | rfl <;> rfl

/-- The letter of a character name stays in the string. -/
theorem lexEscape_named (long : Bool) (c : Char) (rest : List UInt8) :
    ∃ s, lexStep ((CharItem.named long c).text ++ rest) =
      .append (if long then chr 'U' else chr 'u') s := by
  cases long <;> exact ⟨_, rfl⟩

theorem utf8_head {c : Char} (h : 0xa0 ≤ c.toNat) :
    ∀ b ∈ (String.utf8EncodeChar c).head?, 0xc0 ≤ b.toNat := by
  have hc : ¬ c.val.toNat ≤ 127 := by
    intro hle
    have hval : c.toNat = c.val.toNat := rfl
    omega
  intro b hb
  rw [String.utf8EncodeChar, if_neg hc] at hb
  split at hb
  · rw [List.head?_cons] at hb
    rw [← Option.some.inj hb, UInt8.toNat_ofNat']
    omega
  · split at hb
    · rw [List.head?_cons] at hb
      rw [← Option.some.inj hb, UInt8.toNat_ofNat']
      omega
    · rw [List.head?_cons] at hb
      rw [← Option.some.inj hb, UInt8.toNat_ofNat']
      omega

theorem named_head {long : Bool} {c : Char}
    (hc : 0xa0 ≤ c.toNat ∨ c.toNat ∈ [0x24, 0x40, 0x60]) :
    (String.utf8EncodeChar c).head? ≠ some (if long then chr 'U' else chr 'u') := by
  rcases hc with hc | hc
  · intro h
    have hhead := utf8_head hc _ h
    cases long <;> exact absurd hhead (by decide)
  · rw [← Char.ofNat_toNat c]
    revert hc
    generalize c.toNat = n
    revert n
    cases long <;> decide

namespace CharItem

theorem text_ne_nil (item : CharItem) : item.text ≠ [] := by
  cases item with
  | named long c => cases long <;> exact List.cons_ne_nil _ _
  | _ => exact List.cons_ne_nil _ _

theorem bytes_ne_nil (item : CharItem) : item.bytes ≠ [] := by
  cases item with
  | named long c => exact String.utf8EncodeChar_ne_nil
  | _ => exact List.cons_ne_nil _ _

/-- A step gives the byte of an element that is read as C does, and misses any other. -/
theorem step_reads {item : CharItem} {rest : List UInt8} {next : UInt8}
    (hproper : item.Proper (chr '"')) (hv : item.number < 256) (hnext : rest.head? = some next)
    (hends : item.EndsAt next) :
    (item.ReadsBefore next ∧ ∃ b, b ≠ 0 ∧ item.bytes = [b] ∧
      lexStep (item.text ++ rest) = .append b rest) ∨
    (¬ item.ReadsBefore next ∧ (lexStep (item.text ++ rest)).Misses item) := by
  have hzero : ∀ v < 256, UInt8.ofNat v = 0 ↔ v = 0 := by
    intro v hv
    rw [← UInt8.toNat_inj, UInt8.toNat_ofNat', Nat.mod_eq_of_lt hv]
    rfl
  cases item with
  | plain b =>
    obtain ⟨hquote, hslash, hline, hb⟩ := hproper
    refine .inl ⟨trivial, b, hb, rfl, ?_⟩
    rw [text, List.cons_append, lexStep, if_neg hquote, if_neg hline, if_neg hslash,
      List.nil_append]
  | simple letter =>
    have hletter : letter ∈ simpleEscapes.map Prod.fst := hproper
    obtain ⟨-, hne, heq⟩ := simple_spec letter hletter
    have hstep : lexStep ((simple letter).text ++ rest) = .append (escapedByte letter) rest := by
      rw [text, List.cons_append, lexStep_escape]
      exact lexEscape_simple letter hletter rest
    rw [hstep]
    by_cases hreads : letter ≠ chr 'a' ∧ letter ≠ chr 'v'
    · exact .inl ⟨hreads, simpleValue letter, hne, rfl, by rw [heq.mpr hreads]⟩
    · refine .inr ⟨hreads, .inr fun h => hreads (heq.mp ?_)⟩
      exact (Option.some.inj h).symm
  | octal digits =>
    obtain ⟨hne, hlength, hdigits⟩ := hproper
    have hstep : lexStep ((octal digits).text ++ rest) = if isDigitOf 10 next = true then .error
        else .append (UInt8.ofNat (number (octal digits))) rest := by
      rw [text, List.cons_append, lexStep_escape]
      exact lexEscape_octal hne hlength hdigits hnext hends hv
    rw [hstep]
    by_cases hn : isDigitOf 10 next = true
    · rw [if_pos hn]
      exact .inr ⟨fun h => absurd (h.2.symm.trans hn) (by decide), trivial⟩
    · rw [if_neg hn]
      by_cases h0 : number (octal digits) = 0
      · exact .inr ⟨fun h => h.1 h0, .inl ((hzero _ hv).mpr h0)⟩
      · refine .inl ⟨⟨h0, Bool.not_eq_true _ ▸ hn⟩, _, mt (hzero _ hv).mp h0, rfl, rfl⟩
  | hex digits =>
    obtain ⟨hne, hdigits⟩ := hproper
    have hrest : ∀ b ∈ rest.head?, isDigitOf 16 b = false := by
      intro b hb
      rw [hnext] at hb
      rw [← Option.some.inj hb]
      exact hends
    have hstep : lexStep ((hex digits).text ++ rest) =
        .append (UInt8.ofNat (number (hex digits))) rest := by
      rw [text, List.cons_append, List.cons_append, lexStep_escape]
      exact lexEscape_hex hne hdigits hrest hv
    rw [hstep]
    by_cases h0 : number (hex digits) = 0
    · exact .inr ⟨fun h => h h0, .inl ((hzero _ hv).mpr h0)⟩
    · exact .inl ⟨h0, _, mt (hzero _ hv).mp h0, rfl, rfl⟩
  | named long c =>
    obtain ⟨s, hs⟩ := lexEscape_named long c rest
    rw [hs]
    exact .inr ⟨id, .inr (named_head hproper.2)⟩

end CharItem

theorem takeWhile_nonzero {b : UInt8} (hb : b ≠ 0) (bytes : List UInt8) :
    (b :: bytes).takeWhile (· ≠ 0) = b :: bytes.takeWhile (· ≠ 0) :=
  List.takeWhile_cons_of_pos (decide_eq_true hb)

/-- A string up to its first zero is C's when every element is read as C does. -/
theorem lexString_reads : ∀ (items : List CharItem) (fuel : Nat), ProperString items →
    items.length < fuel →
    ((lexString fuel (stringText items)).map (·.takeWhile (· ≠ 0)) =
      some (items.flatMap CharItem.bytes) ↔ StringReads items)
  | [], fuel + 1, _, _ => iff_of_true rfl trivial
  | item :: items, fuel + 1, ⟨hproper, hv, hends, hitems⟩, hfuel => by
    have htext : stringText (item :: items) = item.text ++ stringText items := by
      rw [stringText, stringText, List.flatMap_cons, List.append_assoc]
    rw [htext, lexString, List.flatMap_cons, StringReads]
    rcases item.step_reads hproper hv (nextByte_stringText items) hends with
      ⟨hreads, b, hb, hbytes, hstep⟩ | ⟨hreads, hmiss⟩
    · have ih := lexString_reads items fuel hitems (Nat.lt_of_succ_lt_succ hfuel)
      rw [hstep, hbytes, and_iff_right hreads, ← ih]
      dsimp only
      rw [Option.map_map]
      cases lexString fuel (stringText items) with
      | none => exact iff_of_false nofun nofun
      | some bytes =>
        rw [Option.map_some, Option.map_some, Option.some_inj, Option.some_inj,
          Function.comp_apply, takeWhile_nonzero hb, List.singleton_append]
        exact ⟨fun h => (List.cons.inj h).2, fun h => by rw [h]⟩
    · refine iff_of_false ?_ fun h => hreads h.1
      obtain ⟨c, cs, hc⟩ := List.exists_cons_of_ne_nil item.bytes_ne_nil
      rw [hc, List.cons_append]
      cases hstep : lexStep (item.text ++ stringText items) with
      | close => exact fun h => absurd (Option.some.inj h) nofun
      | error => exact nofun
      | append b s =>
        rw [hstep] at hmiss
        dsimp only
        rw [Option.map_map]
        cases lexString fuel s with
        | none => exact nofun
        | some bytes =>
          intro h
          rw [Option.map_some, Option.some_inj, Function.comp_apply] at h
          rcases hmiss with hzero | hother
          · rw [hzero, List.takeWhile_cons_of_neg (by decide)] at h
            cases h
          · by_cases hb : b = 0
            · rw [hb, List.takeWhile_cons_of_neg (by decide)] at h
              cases h
            · rw [takeWhile_nonzero hb] at h
              exact hother (by rw [hc, (List.cons.inj h).1]; rfl)

theorem length_lt_stringText (items : List CharItem) :
    items.length < (stringText items).length := by
  rw [stringText, List.length_append, List.length_singleton, Nat.lt_succ_iff]
  induction items with
  | nil => exact Nat.zero_le _
  | cons item items ih =>
    have hpos := List.length_pos_iff.mpr item.text_ne_nil
    rw [List.flatMap_cons, List.length_append, List.length_cons]
    omega

theorem loadString_iff {items : List CharItem} (hproper : ProperString items) :
    loadString (stringText items) = some (items.flatMap CharItem.bytes ++ [0]) ↔
      StringReads items := by
  have hlength := length_lt_stringText items
  rw [← lexString_reads items _ hproper (Nat.lt_succ_of_lt hlength), loadString]
  cases lexString ((stringText items).length + 1) (stringText items) with
  | none => exact iff_of_false nofun nofun
  | some bytes =>
    rw [Option.map_some, Option.map_some, Option.some_inj, Option.some_inj, List.append_left_inj]

/-! ## Literals -/

/-- Every literal is read as C does under its condition: an integer constant whose value C gives a
type, a character constant that C gives a value, and a string. -/
theorem literals_as_in_c (wide : Bool) :
    (∀ (lit : IntLiteral) (t : IntType), lit.cType = some t →
      (loadInteger wide lit.text = some (t, (lit.value : Int)) ↔ lit.Loads wide)) ∧
    (∀ (start : CharPrefix) (item : CharItem) (x : Int), item.Proper (chr '\'') →
      item.cValue start = some x →
      (loadCharacter (characterText start item) = some x ↔ item.Reads start)) ∧
    (∀ items : List CharItem, ProperString items →
      (loadString (stringText items) = some (items.flatMap CharItem.bytes ++ [0]) ↔
        StringReads items)) :=
  ⟨fun lit _ ht => lit.loads_iff ht wide, fun _ _ _ hproper hx => CharItem.reads_iff hproper hx,
    fun _ hproper => loadString_iff hproper⟩

/-- `0x10` -/
def sixteen : IntLiteral where
  base := .hex
  digits := [chr '1', chr '0']
  suffix := []
  allDigits := by decide +kernel
  nonempty := by decide
  leading := by decide
  hasSuffix := noSuffix

theorem literals_as_in_c_sixteen :
    loadInteger true sixteen.text = some (.i, (sixteen.value : Int)) ∧
    loadCharacter (characterText .wide (.simple (chr 'n'))) = some 10 ∧
    loadString (stringText [.hex [chr '4', chr '1'], .plain (chr ' ')]) = some [65, 32, 0] :=
  have h := literals_as_in_c true
  ⟨(h.1 sixteen .i (by decide)).mpr (show sixteen.value < 2 ^ 63 by decide),
    (h.2.1 .wide (.simple (chr 'n')) 10
      (show chr 'n' ∈ simpleEscapes.map Prod.fst by decide) (by decide)).mpr
      ⟨by decide, by decide⟩,
    (h.2.2 [.hex [chr '4', chr '1'], .plain (chr ' ')]
      ⟨⟨by decide, by decide +kernel⟩, by decide, show isDigitOf 16 (chr ' ') = false by decide,
        ⟨by decide, by decide, by decide, by decide⟩, by decide, trivial, trivial⟩).mpr
      ⟨show CharItem.number (.hex [chr '4', chr '1']) ≠ 0 by decide, trivial, trivial⟩⟩

/-- `5u` -/
def fiveUnsigned : IntLiteral where
  base := .decimal
  digits := [chr '5']
  suffix := [chr 'u']
  allDigits := by decide +kernel
  nonempty := by decide
  leading := by decide
  hasSuffix := by decide

/-- A `u` alone does not count, so that `5u` is an `int`.  `'\v'` is read as zero, `"\a"` as the
letter, and the octal escape of `"\1019"` as an error. -/
theorem unsigned_suffix_lost :
    fiveUnsigned.cType = some .u ∧
    loadInteger false fiveUnsigned.text = some (.i, 5) ∧
    loadInteger true fiveUnsigned.text = some (.i, 5) ∧
    CharItem.cValue .none (.simple (chr 'v')) = some 11 ∧
    loadCharacter (characterText .none (.simple (chr 'v'))) = some 0 ∧
    CharItem.bytes (.simple (chr 'a')) = [7] ∧
    loadString (stringText [.simple (chr 'a')]) = some [chr 'a', 0] ∧
    loadString (stringText [.octal [chr '1', chr '0', chr '1'], .plain (chr '9')]) = none := by
  decide

end Cod
end FFS
