import FFS.Machine.CString

/-!
# JSON

`Json.Text v t` says that the bytes `t` are a text of the value `v`.  A value has many texts:
blanks stand between the tokens, and a character of a string may be escaped.  Strings are
bytes, and a number is the text that it has.
-/

namespace Machine

inductive Json where
  | null
  | bool (value : Bool)
  | number (text : List UInt8)
  | string (value : List UInt8)
  | array (items : List Json)
  | object (members : List (List UInt8 × Json))

namespace Json

def IsBlank (b : UInt8) : Prop := b = chr ' ' ∨ b = chr '\t' ∨ b = chr '\n' ∨ b = chr '\r'

/-- Blanks. -/
def Blank (t : List UInt8) : Prop := ∀ b ∈ t, IsBlank b

/-- A byte that a string may have as it is. -/
def IsPlain (b : UInt8) : Prop := chr ' ' ≤ b ∧ b ≠ chr '"' ∧ b ≠ chr '\\'

instance (b : UInt8) : Decidable (IsPlain b) := inferInstanceAs (Decidable (_ ∧ _))

/-- The letters of escapes, with what they stand for. -/
def escapes : List (UInt8 × UInt8) :=
  [(chr '"', chr '"'), (chr '\\', chr '\\'), (chr '/', chr '/'), (chr 'b', 8), (chr 'f', 12),
   (chr 'n', 10), (chr 'r', 13), (chr 't', 9)]

/-- `\u` and four digits. -/
def UnicodeEscape (t : List UInt8) (value : Nat) : Prop :=
  ∃ digits, t = chr '\\' :: chr 'u' :: digits ∧ digits.length = 4 ∧
    digits.all (isDigitOf 16) = true ∧ value = (scanDigits 16 0 digits).1

/-- The text of a character of a string, and its bytes. -/
inductive CharText : List UInt8 → List UInt8 → Prop where
  | plain {b} (h : IsPlain b) : CharText [b] [b]
  | escaped {c b} (h : (c, b) ∈ escapes) : CharText [chr '\\', c] [b]
  | unicode {t} {c : Char} (h : UnicodeEscape t c.toNat) : CharText t (String.utf8EncodeChar c)
  | surrogates {t t' high low} {c : Char} (h : UnicodeEscape t (0xD800 + high))
      (h' : UnicodeEscape t' (0xDC00 + low)) (hlow : low < 0x400)
      (hc : c.toNat = 0x10000 + high * 0x400 + low) : CharText (t ++ t') (String.utf8EncodeChar c)

/-- The texts of a string, between quotes. -/
def StringText (value t : List UInt8) : Prop :=
  ∃ cs : List (List UInt8 × List UInt8), (∀ c ∈ cs, CharText c.1 c.2) ∧
    value = cs.flatMap Prod.snd ∧ t = chr '"' :: (cs.flatMap Prod.fst ++ [chr '"'])

def Digits (t : List UInt8) : Prop := t ≠ [] ∧ t.all (isDigitOf 10) = true

/-- The texts of numbers. -/
def NumberText (t : List UInt8) : Prop :=
  ∃ sign int frac exp, t = sign ++ int ++ frac ++ exp ∧ (sign = [] ∨ sign = [chr '-']) ∧
    Digits int ∧ (int.head? = some (chr '0') → int.length = 1) ∧
    (frac = [] ∨ ∃ ds, frac = chr '.' :: ds ∧ Digits ds) ∧
    (exp = [] ∨ ∃ e s ds, exp = e :: (s ++ ds) ∧ (e = chr 'e' ∨ e = chr 'E') ∧
      (s = [] ∨ s = [chr '+'] ∨ s = [chr '-']) ∧ Digits ds)

mutual

inductive Text : Json → List UInt8 → Prop where
  | null : Text .null (chars "null".toList)
  | true : Text (.bool true) (chars "true".toList)
  | false : Text (.bool false) (chars "false".toList)
  | number {t} (h : NumberText t) : Text (.number t) t
  | string {value t} (h : StringText value t) : Text (.string value) t
  | array {items t} (h : Items items t) : Text (.array items) (chr '[' :: (t ++ [chr ']']))
  | object {members t} (h : Members members t) :
      Text (.object members) (chr '{' :: (t ++ [chr '}']))

inductive Items : List Json → List UInt8 → Prop where
  | none {t} (h : Blank t) : Items [] t
  | last {v t before behind} (hbefore : Blank before) (hbehind : Blank behind) (h : Text v t) :
      Items [v] (before ++ t ++ behind)
  | cons {v t before behind items rest} (hbefore : Blank before) (hbehind : Blank behind)
      (h : Text v t) (hrest : Items items rest) (hne : items ≠ []) :
      Items (v :: items) (before ++ t ++ behind ++ chr ',' :: rest)

inductive Members : List (List UInt8 × Json) → List UInt8 → Prop where
  | none {t} (h : Blank t) : Members [] t
  | last {key v t} (h : Member key v t) : Members [(key, v)] t
  | cons {key v t members rest} (h : Member key v t) (hrest : Members members rest)
      (hne : members ≠ []) : Members ((key, v) :: members) (t ++ chr ',' :: rest)

inductive Member : List UInt8 → Json → List UInt8 → Prop where
  | mk {key v k t b₁ b₂ b₃ b₄} (h₁ : Blank b₁) (h₂ : Blank b₂) (h₃ : Blank b₃) (h₄ : Blank b₄)
      (hkey : StringText key k) (h : Text v t) :
      Member key v (b₁ ++ k ++ b₂ ++ chr ':' :: (b₃ ++ t ++ b₄))

end

/-- A text with blanks around it. -/
def Document (v : Json) (t : List UInt8) : Prop :=
  ∃ before text behind, Blank before ∧ Text v text ∧ Blank behind ∧ t = before ++ text ++ behind

/-! ### Texts without blanks -/

theorem blank_nil : Blank [] := fun _ h => nomatch h

theorem isPlain_of_all {s : List UInt8} (h : s.all (fun b => decide (IsPlain b)) = true) :
    ∀ b ∈ s, IsPlain b := fun b hb => of_decide_eq_true (List.all_eq_true.mp h b hb)

/-- A string that needs no escapes is its own text. -/
theorem stringText_plain {s : List UInt8} (h : ∀ b ∈ s, IsPlain b) :
    StringText s (chr '"' :: (s ++ [chr '"'])) := by
  refine ⟨s.map fun b => ([b], [b]), ?_, ?_, ?_⟩
  · intro c hc
    obtain ⟨b, hb, rfl⟩ := List.mem_map.mp hc
    exact .plain (h b hb)
  · rw [List.flatMap_map, List.flatMap_singleton']
  · rw [List.flatMap_map, List.flatMap_singleton']

/-- The text of an object with one member. -/
theorem text_member {key t : List UInt8} {v : Json} (hkey : ∀ b ∈ key, IsPlain b) (h : Text v t) :
    Text (.object [(key, v)])
      (chr '{' :: chr '"' :: (key ++ chr '"' :: chr ':' :: (t ++ [chr '}']))) := by
  have hmember : Member key v
      ([] ++ (chr '"' :: (key ++ [chr '"'])) ++ [] ++ chr ':' :: ([] ++ t ++ [])) :=
    .mk blank_nil blank_nil blank_nil blank_nil (stringText_plain hkey) h
  have htext := Text.object (.last hmember)
  simpa using htext

end Json

end Machine
