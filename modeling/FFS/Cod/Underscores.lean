import FFS.FM.ArrayReaders

/-!
# Type strings behind underscores

`space_to_underscore` replaces the blanks of a type string, and `uniqueify_names` may have put a
prefix in front of it.  The pieces of the string keep their places.  A blank counts where a pointer
follows it, in the name of a simple type or of a subformat, and in front of a number in brackets.
-/

namespace FFS

open Machine

/-! ## Characters -/

/-- A character in `space_to_underscore`. -/
def underscored (b : UInt8) : UInt8 := if isSpace b then chr '_' else b

theorem underscored_ne_zero {b : UInt8} (h : b ≠ 0) : underscored b ≠ 0 := by
  rw [underscored]
  split
  · decide
  · exact h

theorem underscored_of_notSpace {b : UInt8} (h : isSpace b = false) : underscored b = b := by
  rw [underscored, if_neg (by rw [h]; exact Bool.false_ne_true)]

theorem isSpace_underscored (b : UInt8) : isSpace (underscored b) = false := by
  rw [underscored]
  split
  · decide
  · next h => exact Bool.eq_false_iff.mpr h

/-- A character that is no blank and no underscore stays where it was. -/
theorem underscored_eq_iff {b c : UInt8} (hspace : isSpace c = false) (hline : c ≠ chr '_') :
    underscored b = c ↔ b = c := by
  rw [underscored]
  split
  · next h =>
    refine iff_of_false hline.symm fun heq => ?_
    rw [heq, hspace] at h
    exact Bool.false_ne_true h
  · rfl

theorem digitValue_underscored : ∀ b, digitValue (underscored b) = digitValue b :=
  forall_byte (by decide +kernel)

theorem toLower_underscored : ∀ b, toLower (underscored b) = chr 'x' ↔ toLower b = chr 'x' :=
  forall_byte (by decide +kernel)

theorem isDigitOf_underscored (base : Nat) (b : UInt8) :
    isDigitOf base (underscored b) = isDigitOf base b := by
  rw [isDigitOf, isDigitOf, digitValue_underscored]

theorem takeWhile_underscored {c : UInt8} (hspace : isSpace c = false) (hline : c ≠ chr '_')
    (s : List UInt8) :
    (s.map underscored).takeWhile (· ≠ c) = (s.takeWhile (· ≠ c)).map underscored := by
  rw [List.takeWhile_map]
  congr 2
  funext b
  simp only [Function.comp_apply, ne_eq, underscored_eq_iff hspace hline]

theorem head?_underscored {c : UInt8} (hspace : isSpace c = false) (hline : c ≠ chr '_')
    (s : List UInt8) : (s.map underscored).head? = some c ↔ s.head? = some c := by
  cases s with
  | nil => rfl
  | cons b s =>
    show some (underscored b) = some c ↔ some b = some c
    rw [Option.some_inj, Option.some_inj, underscored_eq_iff hspace hline]

theorem idxOf?_underscored {c : UInt8} (hspace : isSpace c = false) (hline : c ≠ chr '_')
    (s : List UInt8) : (s.map underscored).idxOf? c = s.idxOf? c := by
  induction s with
  | nil => rfl
  | cons b s ih =>
    have hb : (underscored b == c) = (b == c) := by
      rw [beq_eq_decide, beq_eq_decide, decide_eq_decide, underscored_eq_iff hspace hline]
    rw [List.map_cons, List.idxOf?_cons, List.idxOf?_cons, hb, ih]

theorem mem_dropWhile_of_mem {α : Type} {p : α → Bool} {a : α} {l : List α} (h : a ∈ l)
    (ha : p a = false) : a ∈ l.dropWhile p := by
  rw [← List.takeWhile_append_dropWhile (p := p) (l := l)] at h
  refine (List.mem_append.mp h).resolve_left fun hmem => ?_
  rw [List.mem_takeWhile_imp hmem] at ha
  cases ha

/-! ### Numbers -/

theorem scanDigits_underscored (base value : Nat) (s : List UInt8) :
    scanDigits base value (s.map underscored) =
      ((scanDigits base value s).1, (scanDigits base value s).2.map underscored) := by
  induction s generalizing value with
  | nil => rfl
  | cons b s ih =>
    rw [List.map_cons, scanDigits, scanDigits, digitValue_underscored]
    cases digitValue b with
    | none => rfl
    | some d =>
      dsimp only
      split
      · exact ih _
      · rfl

theorem numberBase_underscored (s : List UInt8) :
    numberBase (s.map underscored) = ((numberBase s).1, (numberBase s).2.map underscored) := by
  have hzero : ∀ b, underscored b = chr '0' ↔ b = chr '0' :=
    fun b => underscored_eq_iff (by decide) (by decide)
  match s with
  | [] => rfl
  | [a] => simp only [List.map_cons, List.map_nil, numberBase, hzero]
  | [a, b] => simp only [List.map_cons, List.map_nil, numberBase, hzero]
  | a :: b :: d :: s =>
    simp only [List.map_cons, numberBase, hzero, toLower_underscored, isDigitOf_underscored]
    split <;> rfl

/-- `strtol` behind the sign, the text being `s`. -/
def unsignedNumber (negative : Prop) [Decidable negative] (s body : List UInt8) :
    Int × List UInt8 :=
  let (value, rest) := scanDigits (numberBase body).1 0 (numberBase body).2
  if rest.length = (numberBase body).2.length then (0, s)
  else (clampLong (if negative then -value else value), rest)

theorem strtol_eq (s : List UInt8) :
    strtol 0 s =
      let t := s.dropWhile isSpace
      unsignedNumber (t.head? = some (chr '-')) s
        (if t.head? = some (chr '-') ∨ t.head? = some (chr '+') then t.tail else t) := rfl

theorem unsignedNumber_underscored (negative : Prop) [Decidable negative] (s body : List UInt8) :
    unsignedNumber negative (s.map underscored) (body.map underscored) =
      ((unsignedNumber negative s body).1, (unsignedNumber negative s body).2.map underscored) := by
  simp only [unsignedNumber, numberBase_underscored, scanDigits_underscored, List.length_map]
  split <;> rfl

theorem numberBase_of_ne {a : UInt8} (h : a ≠ chr '0') (t : List UInt8) :
    numberBase (a :: t) = (10, a :: t) := by
  match t with
  | [] => simp only [numberBase, h, if_false]
  | [b] => simp only [numberBase, h, if_false]
  | b :: d :: t => simp only [numberBase, h, false_and, if_false]

/-- A blank that becomes an underscore hides the number behind it. -/
theorem strtol_of_blank {s : List UInt8} (h : s.head?.any isSpace = true) :
    strtol 0 (s.map underscored) = (0, s.map underscored) := by
  cases s with
  | nil => cases h
  | cons b s =>
    have hdrop : ((b :: s).map underscored).dropWhile isSpace = (b :: s).map underscored :=
      List.dropWhile_cons_of_neg (by rw [isSpace_underscored]; exact Bool.false_ne_true)
    have hfirst : underscored b = chr '_' := if_pos h
    have hnumber := numberBase_of_ne (a := chr '_') (by decide) (s.map underscored)
    have hscan : scanDigits 10 0 (chr '_' :: s.map underscored) =
        (0, chr '_' :: s.map underscored) := rfl
    rw [strtol_eq, hdrop, List.map_cons, hfirst]
    show unsignedNumber _ _ (chr '_' :: s.map underscored) = _
    rw [unsignedNumber, hnumber, hscan]
    exact if_pos rfl

/-- A text that no number follows blanks in is read alike behind underscores. -/
theorem strtol_underscored {s : List UInt8}
    (h : s.head?.any isSpace = true → strtol 0 s = (0, s)) :
    strtol 0 (s.map underscored) = ((strtol 0 s).1, (strtol 0 s).2.map underscored) := by
  cases s with
  | nil => rfl
  | cons b s =>
    have hdrop : ((b :: s).map underscored).dropWhile isSpace = (b :: s).map underscored :=
      List.dropWhile_cons_of_neg (by rw [isSpace_underscored]; exact Bool.false_ne_true)
    by_cases hb : isSpace b = true
    · rw [h hb, strtol_of_blank (show (b :: s).head?.any isSpace = true from hb)]
    · have hfirst : underscored b = b := underscored_of_notSpace (Bool.eq_false_iff.mpr hb)
      have hdrop' : (b :: s).dropWhile isSpace = b :: s := List.dropWhile_cons_of_neg hb
      rw [strtol_eq, strtol_eq, hdrop, hdrop']
      have hsign : ∀ c : UInt8, ((b :: s).map underscored).head? = some c ↔
          (b :: s).head? = some c := by
        intro c
        rw [List.map_cons, hfirst]
        rfl
      simp only [hsign]
      rw [← unsignedNumber_underscored]
      split
      · rw [List.map_tail]
      · rfl

/-! ## Texts -/

/-- No blank in a text. -/
def NoBlank (s : List UInt8) : Prop := ∀ b ∈ s, isSpace b = false

instance (s : List UInt8) : Decidable (NoBlank s) := inferInstanceAs (Decidable (∀ b ∈ s, _))

theorem map_underscored_eq_self_iff {s : List UInt8} : s.map underscored = s ↔ NoBlank s := by
  constructor
  · intro heq b hb
    rw [← heq] at hb
    obtain ⟨c, -, rfl⟩ := List.mem_map.mp hb
    exact isSpace_underscored c
  · intro h
    exact (List.map_congr_left fun b hb => underscored_of_notSpace (h b hb)).trans (List.map_id _)

/-- The underscores of a text are its own and its blanks. -/
theorem count_line_underscored (s : List UInt8) :
    (s.map underscored).count (chr '_') = s.count (chr '_') + s.countP isSpace := by
  induction s with
  | nil => rfl
  | cons b s ih =>
    rw [List.map_cons, List.count_cons, List.count_cons, List.countP_cons, ih, underscored]
    by_cases hb : isSpace b = true
    · have hline : b ≠ chr '_' := by
        rintro rfl
        exact absurd hb (by decide)
      simp [hb, hline]
      omega
    · simp [hb]
      omega

/-- The part of a type in front of its dimensions. -/
def typeHead (typ : List UInt8) : List UInt8 := typ.takeWhile (· ≠ chr '[')

theorem typeHead_underscored (typ : List UInt8) :
    typeHead (typ.map underscored) = (typeHead typ).map underscored :=
  takeWhile_underscored (by decide) (by decide) typ

theorem typeHead_append {front : List UInt8} (h : chr '[' ∉ front) (typ : List UInt8) :
    typeHead (front ++ typ) = front ++ typeHead typ := by
  rw [typeHead, List.takeWhile_append_of_pos (other_of_notMem h)]
  rfl

theorem typeHead_cons {b : UInt8} (hb : b ≠ chr '[') (typ : List UInt8) :
    typeHead (b :: typ) = b :: typeHead typ :=
  List.takeWhile_cons_of_pos (by simpa using hb)

theorem typeHead_of_noBracket {typ : List UInt8} (h : chr '[' ∉ typ) : typeHead typ = typ :=
  List.takeWhile_eq_self_iff.mpr (other_of_notMem h)

/-! ## Prefixes -/

/-- A text that adds no mark to a type that it stands in front of. -/
structure Unmarked (front : List UInt8) : Prop where
  opens : chr '(' ∉ front
  closes : chr ')' ∉ front
  bracket : chr '[' ∉ front
  first : ∃ c ∈ front.head?, c ≠ chr '*'

instance (front : List UInt8) : Decidable (Unmarked front) :=
  decidable_of_iff (_ ∧ _ ∧ _ ∧ _) ⟨fun ⟨h₁, h₂, h₃, h₄⟩ => ⟨h₁, h₂, h₃, h₄⟩,
    fun h => ⟨h.opens, h.closes, h.bracket, h.first⟩⟩

theorem Unmarked.exists_cons {front : List UInt8} (h : Unmarked front) :
    ∃ c rest, front = c :: rest ∧ c ≠ chr '*' := by
  obtain ⟨c, hc, hstar⟩ := h.first
  obtain ⟨rest, rfl⟩ := List.head?_eq_some_iff.mp hc
  exact ⟨c, rest, rfl, hstar⟩

/-- A prefix that begins with a character of its own, no blank and nothing that a blank becomes. -/
structure PlainPrefix (front : List UInt8) : Prop extends Unmarked front where
  letter : ∀ c ∈ front.head?, isSpace c = false ∧ c ≠ chr '_'

instance (front : List UInt8) : Decidable (PlainPrefix front) :=
  have : Decidable (∀ c ∈ front.head?, isSpace c = false ∧ c ≠ chr '_') :=
    Option.decidableForallMem _
  decidable_of_iff (_ ∧ _) ⟨fun ⟨h, h'⟩ => ⟨h, h'⟩, fun h => ⟨h.toUnmarked, h.letter⟩⟩

/-! ## Simple types -/

theorem mem_skipTypePrefix {c : UInt8} {typ : List UInt8}
    (hmark : (isSpace c || c == chr '*' || c == chr '(') = false) (h : c ∈ typ) :
    c ∈ skipTypePrefix typ := mem_dropWhile_of_mem h hmark

/-- What is neither a blank nor a mark is no part of what is skipped around the name of a type. -/
theorem mem_typeName {c : UInt8} {typ : List UInt8}
    (hmark : (isSpace c || c == chr '*' || c == chr '(') = false)
    (hclose : (isSpace c || c == chr ')') = false) (h : c ∈ typ) : c ∈ typeName typ := by
  rw [typeName, dropTypeSuffix, List.mem_reverse]
  exact mem_dropWhile_of_mem (List.mem_reverse.mpr (mem_skipTypePrefix hmark h)) hclose

theorem not_mem_of_known {c : UInt8} {typ : List UInt8} (h : strToDataType typ ≠ .unknownType)
    (hnames : ∀ name ∈ dataTypeNames.map Prod.fst, toLower c ∉ name) : c ∉ typeName typ :=
  fun hmem => hnames _ (typeName_mem h) (List.mem_map.mpr ⟨c, hmem, rfl⟩)

theorem strToDataType_of_bracket {typ : List UInt8} (h : chr '[' ∈ typ) :
    strToDataType typ = .unknownType := by
  by_contra hknown
  exact not_mem_of_known hknown (by decide) (mem_typeName (by decide) (by decide) h)

theorem typeHead_of_known {typ : List UInt8} (h : strToDataType typ ≠ .unknownType) :
    typeHead typ = typ :=
  typeHead_of_noBracket fun hmem => h (strToDataType_of_bracket hmem)

/-- A simple type that is known behind underscores had no blank. -/
theorem noBlank_of_known {typ : List UInt8}
    (h : strToDataType (typ.map underscored) ≠ .unknownType) : NoBlank typ := by
  intro b hb
  by_contra hspace
  have hline : chr '_' ∈ typ.map underscored :=
    List.mem_map.mpr ⟨b, hb, if_pos (Bool.eq_true_of_not_eq_false hspace)⟩
  exact not_mem_of_known h (by decide) (mem_typeName (by decide) (by decide) hline)

theorem strToDataType_underscored_iff {typ : List UInt8} :
    strToDataType (typ.map underscored) = strToDataType typ ↔
      strToDataType typ = .unknownType ∨ NoBlank typ := by
  constructor
  · intro heq
    by_cases hknown : strToDataType typ = .unknownType
    · exact .inl hknown
    · exact .inr (noBlank_of_known (heq ▸ hknown))
  · rintro (h | h)
    · rw [h]
      by_contra hknown
      rw [map_underscored_eq_self_iff.mpr (noBlank_of_known hknown)] at hknown
      exact hknown h
    · rw [map_underscored_eq_self_iff.mpr h]

/-- The types of dill. -/
inductive DillType where
  | c | uc | s | us | i | u | l | ul | f | d | p | err
  deriving DecidableEq

/-- `str_to_data_type` of `cod.y`, `none` where its assertion on the size of a character fails. -/
def codStrToDataType (str : List UInt8) (size : Int32) : Option DillType :=
  let str := (typeName str).map toLower
  if str = chars ['i', 'n', 't', 'e', 'g', 'e', 'r'] ∨
      str = chars ['e', 'n', 'u', 'm', 'e', 'r', 'a', 't', 'i', 'o', 'n'] then
    some (if size = 8 then .l else if size = 4 then .i else if size = 2 then .s
      else if size = 1 then .c else .l)
  else if str = chars ['u', 'n', 's', 'i', 'g', 'n', 'e', 'd', ' ', 'i', 'n', 't', 'e', 'g', 'e',
      'r'] then
    some (if size = 8 then .ul else if size = 4 then .u else if size = 2 then .us
      else if size = 1 then .uc else .ul)
  else if str = chars ['f', 'l', 'o', 'a', 't'] ∨
      str = chars ['d', 'o', 'u', 'b', 'l', 'e'] then
    some (if size = 8 then .d else if size = 4 then .f else .d)
  else if str = chars ['c', 'h', 'a', 'r'] then if size = 1 then some .c else none
  else if str = chars ['s', 't', 'r', 'i', 'n', 'g'] then some .p
  else some .err

/-- What has no type here has none in `cod.y`, which knows fewer names. -/
theorem codStrToDataType_of_unknown {typ : List UInt8} (h : strToDataType typ = .unknownType)
    (size : Int32) : codStrToDataType typ size = some .err := by
  have hnot : ∀ entry ∈ dataTypeNames, (typeName typ).map toLower ≠ entry.1 := by
    intro entry hentry heq
    have hknown : ∀ entry ∈ dataTypeNames, entry.2 ≠ .unknownType := by decide
    rw [strToDataType] at h
    split at h
    · next name t hfind => exact hknown _ (List.mem_of_find?_eq_some hfind) h
    · next hfind =>
      have hnone := List.find?_eq_none.mp hfind entry hentry
      exact hnone (decide_eq_true heq.symm)
  have hword : ∀ word ∈ dataTypeNames.map Prod.fst, (typeName typ).map toLower ≠ word := by
    intro word hword
    obtain ⟨entry, hentry, rfl⟩ := List.mem_map.mp hword
    exact hnot entry hentry
  rw [codStrToDataType, if_neg (not_or.mpr ⟨hword _ (by decide), hword _ (by decide)⟩),
    if_neg (hword _ (by decide)),
    if_neg (not_or.mpr ⟨hword _ (by decide), hword _ (by decide)⟩),
    if_neg (hword _ (by decide)), if_neg (hword _ (by decide))]

theorem codStrToDataType_underscored_iff {typ : List UInt8} {size : Int32} :
    codStrToDataType (typ.map underscored) size = codStrToDataType typ size ↔
      codStrToDataType typ size = some .err ∨ NoBlank typ := by
  by_cases hknown : strToDataType (typ.map underscored) = .unknownType
  · rw [codStrToDataType_of_unknown hknown]
    constructor
    · exact fun heq => .inl heq.symm
    · rintro (h | h)
      · exact h.symm
      · rw [map_underscored_eq_self_iff.mpr h] at hknown
        exact (codStrToDataType_of_unknown hknown size).symm
  · have h := noBlank_of_known hknown
    rw [map_underscored_eq_self_iff.mpr h]
    exact iff_of_true rfl (.inr h)

/-- A type without a bracket is its own head, and one with a bracket has no type. -/
theorem codStrToDataType_of_head {typ typ' : List UInt8} {size : Int32}
    (hbracket : chr '[' ∈ typ' ↔ chr '[' ∈ typ)
    (h : codStrToDataType (typeHead typ') size = codStrToDataType (typeHead typ) size) :
    codStrToDataType typ' size = codStrToDataType typ size := by
  by_cases hmem : chr '[' ∈ typ
  · rw [codStrToDataType_of_unknown (strToDataType_of_bracket hmem),
      codStrToDataType_of_unknown (strToDataType_of_bracket (hbracket.mpr hmem))]
  · rwa [typeHead_of_noBracket hmem, typeHead_of_noBracket (mt hbracket.mp hmem)] at h

theorem mem_underscored_iff {c : UInt8} (hspace : isSpace c = false) (hline : c ≠ chr '_')
    {s : List UInt8} : c ∈ s.map underscored ↔ c ∈ s := by
  rw [List.mem_map]
  constructor
  · rintro ⟨b, hb, heq⟩
    exact (underscored_eq_iff hspace hline).mp heq ▸ hb
  · exact fun h => ⟨c, h, underscored_of_notSpace hspace⟩

/-- No name of a simple type is the end of another, unless behind a blank. -/
theorem dataTypeNames_suffix : ∀ name ∈ dataTypeNames.map Prod.fst,
    ∀ name' ∈ dataTypeNames.map Prod.fst, name <:+ name' →
      name = name' ∨ name'.any isSpace = true := by decide

theorem isSpace_toLower : ∀ b, isSpace (toLower b) = isSpace b := forall_byte (by decide +kernel)

/-- A plain prefix makes no simple type of a simple type. -/
theorem strToDataType_prefixed {front typ : List UInt8} (hfront : PlainPrefix front)
    (h : strToDataType typ ≠ .unknownType) :
    strToDataType ((front ++ typ).map underscored) = .unknownType := by
  by_contra hknown
  have hblank := noBlank_of_known hknown
  rw [map_underscored_eq_self_iff.mpr hblank] at hknown
  obtain ⟨c, rest, rfl, hstar⟩ := hfront.exists_cons
  have hopen : c ≠ chr '(' := fun heq => hfront.opens (heq ▸ List.mem_cons_self)
  have hwhole : skipTypePrefix (c :: rest ++ typ) = c :: rest ++ typ :=
    List.dropWhile_cons_of_neg (by simp [hblank c List.mem_cons_self, hstar, hopen])
  -- The type has no mark in front of its name, because the whole has none in its name.
  have hmark : ∀ b ∈ typ, ¬ (isSpace b || b == chr '*' || b == chr '(') = true := by
    intro b hb hskipped
    have hb' := List.mem_append_right (c :: rest) hb
    have hspace := hblank b hb'
    have hclose : (isSpace b || b == chr ')') = false := by
      rw [hspace, Bool.false_or, beq_eq_false_iff_ne]
      rintro rfl
      exact absurd hskipped (by decide)
    have hmem : b ∈ typeName (c :: rest ++ typ) := by
      rw [typeName, hwhole, dropTypeSuffix, List.mem_reverse]
      exact mem_dropWhile_of_mem (List.mem_reverse.mpr hb') hclose
    rw [hspace, Bool.false_or, Bool.or_eq_true, beq_iff_eq, beq_iff_eq] at hskipped
    rcases hskipped with rfl | rfl
    · exact not_mem_of_known hknown (by decide) hmem
    · exact not_mem_of_known hknown (by decide) hmem
  have hskip : skipTypePrefix typ = typ := by
    cases typ with
    | nil => rfl
    | cons b typ => exact List.dropWhile_cons_of_neg (hmark b List.mem_cons_self)
  have hne : typeName typ ≠ [] := by
    intro hnil
    have hname := typeName_mem h
    rw [hnil] at hname
    exact absurd hname (by decide)
  have hname : typeName (c :: rest ++ typ) = c :: rest ++ typeName typ := by
    have hdrop : (typ.reverse.dropWhile fun b => isSpace b || b == chr ')') ≠ [] := by
      rw [typeName, hskip, dropTypeSuffix] at hne
      exact fun heq => hne (by rw [heq, List.reverse_nil])
    rw [typeName, typeName, hwhole, hskip, dropTypeSuffix, dropTypeSuffix, List.reverse_append,
      List.dropWhile_append, if_neg (by simpa using hdrop), List.reverse_append,
      List.reverse_reverse]
  have hlong := typeName_mem hknown
  rw [hname, List.map_append] at hlong
  rcases dataTypeNames_suffix _ (typeName_mem h) _ hlong (List.suffix_append _ _) with heq | hany
  · have hlength := congrArg List.length heq
    rw [List.length_append, List.length_map, List.length_map, List.length_cons] at hlength
    omega
  · obtain ⟨b, hb, hspace⟩ := List.any_eq_true.mp hany
    rw [← List.map_append, ← hname] at hb
    obtain ⟨b', hb', rfl⟩ := List.mem_map.mp hb
    rw [typeName, hwhole, dropTypeSuffix, List.mem_reverse] at hb'
    rw [isSpace_toLower, hblank b' (List.mem_reverse.mp ((List.dropWhile_suffix _).subset hb'))]
      at hspace
    cases hspace

/-! ## Pointers -/

/-- The pointers of a type stand in front of all blanks. -/
def PointersFirst (typ : List UInt8) : Prop :=
  chr '*' ∉ (typ.dropWhile (· = chr '*')).takeWhile fun b => isSpace b || b == chr '*'

instance (typ : List UInt8) : Decidable (PointersFirst typ) := inferInstanceAs (Decidable (_ ∉ _))

theorem skipPointers_eq_zero_iff {typ : List UInt8} : (skipPointers typ).1 = 0 ↔
    chr '*' ∉ typ.takeWhile fun b => isSpace b || b == chr '*' := by
  induction typ with
  | nil => simp [skipPointers]
  | cons b typ ih =>
    rw [skipPointers]
    by_cases hstar : b = chr '*'
    · rw [if_pos hstar, List.takeWhile_cons_of_pos (by simp [hstar])]
      simp [hstar]
    · rw [if_neg hstar]
      by_cases hspace : isSpace b = true
      · rw [if_pos hspace, List.takeWhile_cons_of_pos (by simp [hspace]), ih, List.mem_cons, not_or]
        exact ⟨fun h => ⟨fun heq => hstar heq.symm, h⟩, fun h => h.2⟩
      · rw [if_neg hspace, List.takeWhile_cons_of_neg (by simp [hspace, hstar])]
        simp

theorem pointers_underscored_iff {typ : List UInt8} :
    (skipPointers (typ.map underscored)).1 = (skipPointers typ).1 ↔ PointersFirst typ := by
  induction typ with
  | nil => simp [PointersFirst]
  | cons b typ ih =>
    rw [List.map_cons, skipPointers, skipPointers, PointersFirst]
    by_cases hstar : b = chr '*'
    · have hsame : underscored b = chr '*' := by rw [hstar]; rfl
      rw [if_pos hstar, if_pos hsame, List.dropWhile_cons_of_pos (by simp [hstar]),
        Nat.add_right_cancel_iff, ih, PointersFirst]
    · have hother : underscored b ≠ chr '*' := by
        rwa [ne_eq, underscored_eq_iff (by decide) (by decide)]
      rw [if_neg hstar, if_neg hother, List.dropWhile_cons_of_neg (by simp [hstar]),
        if_neg (by simp [isSpace_underscored])]
      by_cases hspace : isSpace b = true
      · rw [if_pos hspace, List.takeWhile_cons_of_pos (by simp [hspace]), List.mem_cons, not_or,
          ← skipPointers_eq_zero_iff]
        exact ⟨fun h => ⟨fun heq => hstar heq.symm, h.symm⟩, fun h => h.2.symm⟩
      · rw [if_neg hspace, List.takeWhile_cons_of_neg (by simp [hspace, hstar])]
        simp

theorem pointers_underscored_le (typ : List UInt8) :
    (skipPointers (typ.map underscored)).1 ≤ (skipPointers typ).1 := by
  induction typ with
  | nil => exact le_refl _
  | cons b typ ih =>
    rw [List.map_cons, skipPointers, skipPointers]
    by_cases hstar : b = chr '*'
    · rw [if_pos hstar, if_pos (by rw [hstar]; rfl)]
      exact Nat.succ_le_succ ih
    · have hother : underscored b ≠ chr '*' := by
        rwa [ne_eq, underscored_eq_iff (by decide) (by decide)]
      rw [if_neg hother, if_neg (by simp [isSpace_underscored])]
      exact Nat.zero_le _

/-- A prefix leaves no pointer in front of a type. -/
theorem pointers_prefixed {front : List UInt8} (hfront : Unmarked front) (typ : List UInt8) :
    (skipPointers ((front ++ typ).map underscored)).1 = 0 := by
  obtain ⟨c, rest, rfl, hstar⟩ := hfront.exists_cons
  have hother : underscored c ≠ chr '*' := by
    rwa [ne_eq, underscored_eq_iff (by decide) (by decide)]
  rw [List.cons_append, List.map_cons, skipPointers, if_neg hother,
    if_neg (by simp [isSpace_underscored])]

/-! ## Dimensions -/

theorem bracketTexts_underscored (typ : List UInt8) :
    bracketTexts (typ.map underscored) = (bracketTexts typ).map (·.map underscored) := by
  induction typ with
  | nil => rfl
  | cons b typ ih =>
    rw [List.map_cons, bracketTexts, bracketTexts, ih]
    have hb : underscored b = chr '[' ↔ b = chr '[' := underscored_eq_iff (by decide) (by decide)
    by_cases h : b = chr '['
    · rw [if_pos h, if_pos (hb.mpr h), List.map_cons]
    · rw [if_neg h, if_neg (mt hb.mp h)]

theorem bracketTexts_skipPointers (typ : List UInt8) :
    bracketTexts (skipPointers typ).2 = bracketTexts typ := by
  induction typ with
  | nil => rfl
  | cons b typ ih =>
    rw [skipPointers, bracketTexts]
    by_cases hstar : b = chr '*'
    · rw [if_pos hstar, if_neg (by rw [hstar]; decide)]
      exact ih
    · by_cases hspace : isSpace b = true
      · have hb : b ≠ chr '[' := by
          rintro rfl
          exact absurd hspace (by decide)
        rw [if_neg hstar, if_pos hspace, if_neg hb]
        exact ih
      · rw [if_neg hstar, if_neg hspace, bracketTexts]

theorem pieceDimensions_eq (fields : List FMField) (field : Nat) (piece : List UInt8) :
    pieceDimensions fields field piece = (bracketTexts piece).map (textDimension fields field) := by
  rw [pieceDimensions, arrayDimensions_eq, bracketTexts_skipPointers]

/-! ## Elements -/

theorem noBlank_head_tail {b : UInt8} {typ : List UInt8} (h : NoBlank (typeHead (b :: typ)))
    (hb : b ≠ chr '[') : NoBlank (typeHead typ) := by
  intro c hc
  refine h c ?_
  rw [typeHead_cons hb]
  exact List.mem_cons_of_mem b hc

theorem noBlank_head_first {b : UInt8} {typ : List UInt8} (h : NoBlank (typeHead (b :: typ))) :
    isSpace b = false := by
  by_cases hb : b = chr '['
  · rw [hb]
    decide
  · refine h b ?_
    rw [typeHead_cons hb]
    exact List.mem_cons_self

/-- The pointers at the head of a type, and what is behind them. -/
theorem skipPointers_underscored {typ : List UInt8} (h : NoBlank (typeHead typ)) :
    skipPointers (typ.map underscored) =
        ((skipPointers typ).1, (skipPointers typ).2.map underscored) ∧
      (skipPointers typ).2 <:+ typ ∧ NoBlank (typeHead (skipPointers typ).2) := by
  induction typ with
  | nil => exact ⟨rfl, List.suffix_refl [], h⟩
  | cons b typ ih =>
    have hb := noBlank_head_first h
    rw [List.map_cons, underscored_of_notSpace hb]
    by_cases hstar : b = chr '*'
    · obtain ⟨heq, hsuffix, hrest⟩ := ih (noBlank_head_tail h (by rw [hstar]; decide))
      rw [skipPointers, skipPointers, if_pos hstar, if_pos hstar, heq]
      exact ⟨rfl, hsuffix.trans (List.suffix_cons b typ), hrest⟩
    · have hnot : ¬ isSpace b = true := by
        rw [hb]
        exact Bool.false_ne_true
      rw [skipPointers, skipPointers, if_neg hstar, if_neg hstar, if_neg hnot, if_neg hnot,
        List.map_cons, underscored_of_notSpace hb]
      exact ⟨rfl, List.suffix_refl _, h⟩

/-- A word without underscores is read where it was. -/
theorem map_underscored_eq_iff {s word : List UInt8}
    (hword : ∀ c ∈ word, isSpace c = false ∧ c ≠ chr '_') :
    s.map underscored = word ↔ s = word := by
  induction s generalizing word with
  | nil => rfl
  | cons b s ih =>
    cases word with
    | nil => simp
    | cons c word =>
      obtain ⟨hspace, hline⟩ := hword c List.mem_cons_self
      rw [List.map_cons, List.cons_eq_cons, List.cons_eq_cons, underscored_eq_iff hspace hline,
        ih fun d hd => hword d (List.mem_cons_of_mem c hd)]

theorem isStringName_underscored {typ : List UInt8} (h : NoBlank (typeHead typ)) :
    isStringName (typ.map underscored) = isStringName typ := by
  have htake : (typ.map underscored).take 6 = chars ['s', 't', 'r', 'i', 'n', 'g'] ↔
      typ.take 6 = chars ['s', 't', 'r', 'i', 'n', 'g'] := by
    have hplain : (chars ['s', 't', 'r', 'i', 'n', 'g']).all
        (fun c => !isSpace c && c != chr '_') = true := by decide
    rw [← List.map_take]
    exact map_underscored_eq_iff fun c hc => by simpa using List.all_eq_true.mp hplain c hc
  rw [isStringName, isStringName, List.getElem?_map]
  by_cases hword : typ.take 6 = chars ['s', 't', 'r', 'i', 'n', 'g']
  · rw [htake.mpr hword, hword]
    cases hnext : typ[6]? with
    | none => rfl
    | some b =>
      -- What follows the word is in front of the dimensions, or is their bracket.
      have hb : isSpace b = false := by
        obtain ⟨hlt, hget⟩ := List.getElem?_eq_some_iff.mp hnext
        have hsplit : typ = chars ['s', 't', 'r', 'i', 'n', 'g'] ++ b :: typ.drop 7 := by
          rw [← hword, ← hget, ← List.drop_eq_getElem_cons hlt, List.take_append_drop]
        by_cases hbracket : b = chr '['
        · rw [hbracket]
          decide
        · refine h b ?_
          have hfront : chr '[' ∉ chars ['s', 't', 'r', 'i', 'n', 'g'] := by decide
          rw [hsplit, typeHead_append hfront, typeHead_cons hbracket]
          exact List.mem_append_right _ List.mem_cons_self
      simp only [Option.map_some, underscored_of_notSpace hb]
  · have hfalse : (typ.take 6 == chars ['s', 't', 'r', 'i', 'n', 'g']) = false :=
      beq_eq_false_iff_ne.mpr hword
    have hfalse' : ((typ.map underscored).take 6 == chars ['s', 't', 'r', 'i', 'n', 'g']) = false :=
      beq_eq_false_iff_ne.mpr fun heq => hword (htake.mp heq)
    rw [hfalse, hfalse', Bool.false_and, Bool.false_and]

theorem pieceElement_eq (field : Nat) (piece : List UInt8) : pieceElement field piece =
    if strToDataType (typeHead piece) = .unknownType then
      { FMTypeDesc.new .subformat with fieldIndex := field, dataType := .unknownType }
    else
      { FMTypeDesc.new (if isStringName (skipPointers piece).2 then .string else .simple) with
        fieldIndex := field, dataType := strToDataType (typeHead piece) } := by
  have hdata : (arrayStrToDataType piece).1 = strToDataType (typeHead piece) :=
    arrayStrToDataType_fst piece
  rw [pieceElement, hdata]
  by_cases hunknown : strToDataType (typeHead piece) = .unknownType
  · simp only [hunknown, if_true]
  · simp only [hunknown, if_false]

theorem pieceElement_dataType (field : Nat) (piece : List UInt8) :
    (pieceElement field piece).dataType = strToDataType (typeHead piece) :=
  arrayStrToDataType_fst piece

/-- A piece whose element is the same behind underscores. -/
def KeepsElement (piece : List UInt8) : Prop :=
  strToDataType (typeHead piece) = .unknownType ∨ NoBlank (typeHead piece)

instance (piece : List UInt8) : Decidable (KeepsElement piece) :=
  inferInstanceAs (Decidable (_ ∨ _))

theorem pieceElement_underscored_iff {field : Nat} {piece : List UInt8} :
    pieceElement field (piece.map underscored) = pieceElement field piece ↔ KeepsElement piece := by
  constructor
  · intro heq
    have hdata := congrArg FMTypeDesc.dataType heq
    rw [pieceElement_dataType, pieceElement_dataType, typeHead_underscored] at hdata
    exact strToDataType_underscored_iff.mp hdata
  · intro h
    have hdata := strToDataType_underscored_iff.mpr h
    rw [← typeHead_underscored] at hdata
    rw [pieceElement_eq, pieceElement_eq, hdata]
    rcases h with hunknown | hblank
    · rw [if_pos hunknown, if_pos hunknown]
    · obtain ⟨hskip, -, hrest⟩ := skipPointers_underscored hblank
      rw [hskip, isStringName_underscored hrest]

/-- A piece that is a subformat's name with a prefix and without it. -/
def NamesElement (front piece : List UInt8) : Prop :=
  strToDataType (typeHead piece) = .unknownType ∧
    strToDataType ((front ++ typeHead piece).map underscored) = .unknownType

instance (front piece : List UInt8) : Decidable (NamesElement front piece) :=
  inferInstanceAs (Decidable (_ ∧ _))

section
variable {front : List UInt8}

theorem NamesElement.pieceElement_eq (hfront : Unmarked front) {field : Nat} {piece : List UInt8}
    (h : NamesElement front piece) :
    pieceElement field ((front ++ piece).map underscored) = pieceElement field piece := by
  rw [FFS.pieceElement_eq, FFS.pieceElement_eq, typeHead_underscored,
    typeHead_append hfront.bracket, if_pos h.1, if_pos h.2]

theorem namesElement_of_eq (hfront : PlainPrefix front) {field : Nat} {piece : List UInt8}
    (heq : pieceElement field ((front ++ piece).map underscored) = pieceElement field piece) :
    NamesElement front piece := by
  have hdata := congrArg FMTypeDesc.dataType heq
  rw [pieceElement_dataType, pieceElement_dataType, typeHead_underscored,
    typeHead_append hfront.bracket] at hdata
  by_cases hunknown : strToDataType (typeHead piece) = .unknownType
  · exact ⟨hunknown, hdata.trans hunknown⟩
  · exact absurd (hdata.symm.trans (strToDataType_prefixed hfront hunknown)) hunknown

end

/-! ## Pieces -/

theorem typePieces_underscored (depth : Nat) (typ : List UInt8) :
    typePieces depth (typ.map underscored) =
      (typePieces depth typ).map (·.map (·.map underscored)) := by
  have hletters : ∀ n, List.replicate n (chr 'a') = (List.replicate n (chr 'a')).map underscored := by
    intro n
    rw [List.map_replicate]
    rfl
  induction depth generalizing typ with
  | zero => rfl
  | succ depth ih =>
    rw [typePieces, typePieces, idxOf?_underscored (by decide) (by decide), ← List.map_reverse,
      idxOf?_underscored (by decide) (by decide), List.length_map]
    cases typ.idxOf? (chr '(') with
    | none =>
      cases (typ.reverse.idxOf? (chr ')')).map (typ.length - 1 - ·) with
      | none => rfl
      | some j => rfl
    | some i =>
      cases (typ.reverse.idxOf? (chr ')')).map (typ.length - 1 - ·) with
      | none => rfl
      | some j =>
        dsimp only
        have hinner : (if i < j then ((typ.map underscored).drop (i + 1)).take (j - i - 1)
            else (typ.map underscored).drop (i + 1)) =
            (if i < j then (typ.drop (i + 1)).take (j - i - 1) else typ.drop (i + 1)).map
              underscored := by
          split
          · rw [← List.map_drop, ← List.map_take]
          · rw [← List.map_drop]
        have hwashed : (if i < j then (typ.map underscored).take i ++
              List.replicate (j - i + 1) (chr 'a') ++ (typ.map underscored).drop (j + 1)
            else (typ.map underscored).take j) =
            (if i < j then typ.take i ++ List.replicate (j - i + 1) (chr 'a') ++ typ.drop (j + 1)
              else typ.take j).map underscored := by
          split
          · rw [List.map_append, List.map_append, List.map_take, List.map_drop, ← hletters]
          · rw [← List.map_take]
        rw [hinner, hwashed, ih, ih]
        cases typePieces depth _ with
        | none => rfl
        | some base =>
          cases typePieces depth _ with
          | none => rfl
          | some root =>
            simp only [Option.map_some, Option.bind_eq_bind, Option.bind_some, Option.pure_def,
              List.map_append]

/-- A prefix belongs to the outermost piece. -/
def prefixFirst (front : List UInt8) : List (List UInt8) → List (List UInt8)
  | [] => []
  | first :: rest => (front ++ first) :: rest

theorem idxOf?_append {front : List UInt8} {c : UInt8} (h : c ∉ front) (s : List UInt8) :
    (front ++ s).idxOf? c = (s.idxOf? c).map (· + front.length) := by
  induction front with
  | nil => simp
  | cons b front ih =>
    rw [List.mem_cons, not_or] at h
    rw [List.cons_append, List.idxOf?_cons, if_neg (by simpa using Ne.symm h.1), ih h.2,
      Option.map_map]
    congr 1

theorem lastIdxOf?_append {front : List UInt8} {c : UInt8} (h : c ∉ front) (s : List UInt8) :
    ((front ++ s).reverse.idxOf? c).map ((front ++ s).length - 1 - ·) =
      ((s.reverse.idxOf? c).map (s.length - 1 - ·)).map (· + front.length) := by
  have hlast : (front ++ s).reverse.idxOf? c = s.reverse.idxOf? c := by
    rw [List.reverse_append]
    generalize s.reverse = t
    induction t with
    | nil =>
      rw [List.nil_append, List.idxOf?_nil]
      exact List.idxOf?_eq_none_iff.mpr fun hmem => h (List.mem_reverse.mp hmem)
    | cons b t ih => rw [List.cons_append, List.idxOf?_cons, List.idxOf?_cons, ih]
  rw [hlast, Option.map_map]
  cases hk : s.reverse.idxOf? c with
  | none => rfl
  | some k =>
    have hlt : k < s.length := by
      rw [← List.length_reverse]
      exact (List.idxOf?_eq_some_iff.mp hk).1
    simp only [Option.map_some, Function.comp_apply, List.length_append]
    congr 1
    omega

theorem typePieces_prefixed {front : List UInt8} (hopen : chr '(' ∉ front) (hclose : chr ')' ∉ front)
    (depth : Nat) (typ : List UInt8) :
    typePieces depth (front ++ typ) = (typePieces depth typ).map (prefixFirst front) := by
  induction depth generalizing typ with
  | zero => rfl
  | succ depth ih =>
    rw [typePieces, typePieces, idxOf?_append hopen, lastIdxOf?_append hclose]
    cases typ.idxOf? (chr '(') with
    | none =>
      cases (typ.reverse.idxOf? (chr ')')).map (typ.length - 1 - ·) with
      | none => rfl
      | some j => rfl
    | some i =>
      cases (typ.reverse.idxOf? (chr ')')).map (typ.length - 1 - ·) with
      | none => rfl
      | some j =>
        have hdrop : ∀ n, (front ++ typ).drop (n + front.length + 1) = typ.drop (n + 1) := by
          intro n
          rw [show n + front.length + 1 = front.length + (n + 1) by omega,
            List.drop_length_add_append]
        have htake : ∀ n, (front ++ typ).take (n + front.length) = front ++ typ.take n := by
          intro n
          rw [Nat.add_comm, List.take_length_add_append]
        have hsub : j + front.length - (i + front.length) = j - i := by omega
        simp only [Option.map_some, hdrop, htake, hsub, Nat.add_lt_add_iff_right]
        generalize (if i < j then (typ.drop (i + 1)).take (j - i - 1) else typ.drop (i + 1)) = inner
        have hwashed : (if i < j then front ++ typ.take i ++ List.replicate (j - i + 1) (chr 'a') ++
              typ.drop (j + 1) else front ++ typ.take j) =
            front ++ (if i < j then typ.take i ++ List.replicate (j - i + 1) (chr 'a') ++
              typ.drop (j + 1) else typ.take j) := by
          split
          · rw [List.append_assoc, List.append_assoc, List.append_assoc]
          · rfl
        rw [hwashed, ih]
        generalize (if i < j then typ.take i ++ List.replicate (j - i + 1) (chr 'a') ++
          typ.drop (j + 1) else typ.take j) = washed
        cases typePieces depth inner with
        | none => rfl
        | some base =>
          cases hroot : typePieces depth washed with
          | none => rfl
          | some root =>
            obtain ⟨first, rest, rfl⟩ := List.exists_cons_of_ne_nil (typePieces_ne_nil hroot)
            rfl

/-- The depth does not matter beyond the number of parentheses. -/
theorem typePieces_depth {depth depth' : Nat} {typ : List UInt8} (h : typ.count (chr '(') < depth)
    (h' : typ.count (chr '(') < depth') : typePieces depth typ = typePieces depth' typ := by
  induction depth generalizing depth' typ with
  | zero => omega
  | succ depth ih =>
    obtain ⟨depth', rfl⟩ : ∃ n, depth' = n + 1 := ⟨depth' - 1, by omega⟩
    rw [typePieces, typePieces]
    cases hfirst : typ.idxOf? (chr '(') with
    | none =>
      cases (typ.reverse.idxOf? (chr ')')).map (typ.length - 1 - ·) with
      | none => rfl
      | some j => rfl
    | some i =>
      cases (typ.reverse.idxOf? (chr ')')).map (typ.length - 1 - ·) with
      | none => rfl
      | some j =>
        obtain ⟨hlt, hget⟩ := List.idxOf?_eq_some_iff.mp hfirst
        have hcount : typ.count (chr '(') =
            (typ.take i).count (chr '(') + 1 + (typ.drop (i + 1)).count (chr '(') := by
          conv_lhs => rw [← List.take_append_drop i typ, List.drop_eq_getElem_cons hlt]
          rw [List.count_append, List.count_cons, hget.1]
          simp
          omega
        have hinner : (if i < j then (typ.drop (i + 1)).take (j - i - 1) else
            typ.drop (i + 1)).count (chr '(') ≤ (typ.drop (i + 1)).count (chr '(') := by
          split
          · exact (List.take_sublist _ _).count_le _
          · exact le_refl _
        have hwashed : (if i < j then typ.take i ++ List.replicate (j - i + 1) (chr 'a') ++
            typ.drop (j + 1) else typ.take j).count (chr '(') < typ.count (chr '(') := by
          split
          · next hij =>
            have hletters : (List.replicate (j - i + 1) (chr 'a')).count (chr '(') = 0 :=
              List.count_eq_zero.mpr fun hmem => absurd (List.eq_of_mem_replicate hmem) (by decide)
            have hback : (typ.drop (j + 1)).count (chr '(') ≤
                (typ.drop (i + 1)).count (chr '(') :=
              (List.drop_sublist_drop_left typ (by omega)).count_le _
            rw [List.count_append, List.count_append, hletters]
            omega
          · next hij =>
            have hfront := (List.take_sublist_take_left (l := typ) (not_lt.mp hij)).count_le (chr '(')
            omega
        dsimp only
        rw [ih (by omega) (by omega : _ < depth'), ih (by omega) (by omega : _ < depth')]

theorem fieldPieces_underscored (typ : List UInt8) :
    fieldPieces (typ.map underscored) = (fieldPieces typ).map (·.map (·.map underscored)) := by
  rw [fieldPieces, List.length_map, typePieces_underscored, fieldPieces]

theorem fieldPieces_prefixed {front : List UInt8} (hfront : Unmarked front) (typ : List UInt8) :
    fieldPieces ((front ++ typ).map underscored) =
      (fieldPieces typ).map fun pieces => (prefixFirst front pieces).map (·.map underscored) := by
  have hcount : (front ++ typ).count (chr '(') = typ.count (chr '(') := by
    rw [List.count_append, List.count_eq_zero.mpr hfront.opens, Nat.zero_add]
  have hle := List.count_le_length (a := chr '(') (l := typ)
  have hdepth : typePieces ((front ++ typ).length + 1) (front ++ typ) =
      typePieces (typ.length + 1) (front ++ typ) := by
    refine typePieces_depth ?_ ?_
    · rw [hcount, List.length_append]
      omega
    · rw [hcount]
      omega
  rw [fieldPieces_underscored, fieldPieces, hdepth, typePieces_prefixed hfront.opens hfront.closes,
    Option.map_map]
  rfl

/-! ## Chains of pieces -/

section
variable {fields fields' : List FMField} {field : Nat}

theorem length_pieceLinks (piece : List UInt8) : (pieceLinks fields field piece).length =
    (skipPointers piece).1 +
      (if (pieceDimensions fields field piece).any (·.1 = -1) then 1 else 0) +
      (pieceDimensions fields field piece).length := by
  rw [pieceLinks, List.length_append, List.length_append, List.length_replicate, List.length_map]
  split <;> rfl

/-- Pieces with as many pointers and the same dimensions. -/
def SameLinks (fields' fields : List FMField) (field : Nat) (piece' piece : List UInt8) : Prop :=
  (skipPointers piece').1 = (skipPointers piece).1 ∧
    pieceDimensions fields' field piece' = pieceDimensions fields field piece

theorem pieceChain_congr {pieces' pieces : List (List UInt8)}
    (hlinks : List.Forall₂ (SameLinks fields' fields field) pieces' pieces)
    (hlast : pieces'.getLast?.map (pieceElement field) = pieces.getLast?.map (pieceElement field)) :
    pieceChain fields' field pieces' = pieceChain fields field pieces := by
  have hflat : pieces'.flatMap (pieceLinks fields' field) =
      pieces.flatMap (pieceLinks fields field) := by
    clear hlast
    induction hlinks with
    | nil => rfl
    | cons h _ ih => rw [List.flatMap_cons, List.flatMap_cons, ih, pieceLinks, pieceLinks, h.1, h.2]
  rw [pieceChain, pieceChain, hflat, hlast]

/-- A dimension is read off its array link, if it can be told. -/
theorem nodeDimension_inj {dimension dimension' : Int × Int} (h : ProperDimension dimension)
    (hsize : dimension.2 ≠ -1 → dimension.1 = -1) (hsize' : dimension'.2 ≠ -1 → dimension'.1 = -1)
    (heq : nodeDimension dimension' = nodeDimension dimension) : dimension' = dimension := by
  obtain ⟨size, control⟩ := dimension
  obtain ⟨size', control'⟩ := dimension'
  simp only [nodeDimension, Prod.mk.injEq, ProperDimension] at h hsize hsize' heq ⊢
  obtain ⟨hnode, rfl⟩ := heq
  by_cases hcontrol : control' = -1
  · split at hnode <;> split at hnode <;> omega
  · exact ⟨(hsize' hcontrol).trans (hsize hcontrol).symm, rfl⟩

theorem pieceDimensions_inj {piece' piece : List UInt8}
    (hproper : ∀ dimension ∈ pieceDimensions fields field piece, ProperDimension dimension)
    (heq : (pieceDimensions fields' field piece').map nodeDimension =
      (pieceDimensions fields field piece).map nodeDimension) :
    pieceDimensions fields' field piece' = pieceDimensions fields field piece := by
  have hsize : ∀ (fields : List FMField) piece, ∀ dimension ∈ pieceDimensions fields field piece,
      dimension.2 ≠ -1 → dimension.1 = -1 := fun fields piece dimension hmem =>
    @mem_pieceDimensions fields field [piece] dimension (by rwa [List.flatMap_singleton])
  have hall := hsize fields piece
  have hall' := hsize fields' piece'
  generalize pieceDimensions fields' field piece' = dimensions' at heq hall' ⊢
  generalize pieceDimensions fields field piece = dimensions at heq hall hproper ⊢
  induction dimensions generalizing dimensions' with
  | nil => exact List.map_eq_nil_iff.mp heq
  | cons dimension dimensions ih =>
    cases dimensions' with
    | nil => cases heq
    | cons dimension' dimensions' =>
      rw [List.map_cons, List.map_cons, List.cons.injEq] at heq
      rw [List.forall_mem_cons] at hall hall' hproper
      rw [nodeDimension_inj hproper.1 hall.1 hall'.1 heq.1,
        ih dimensions' hall'.2 heq.2 hall.2 hproper.2]

/-- Pieces that take no pointer and no bracket on have the chain of the others only if they have
their pointers, dimensions and element. -/
theorem sameLinks_of_pieceChain {pieces' pieces : List (List UInt8)}
    (hpieces : List.Forall₂ (fun piece' piece => (skipPointers piece').1 ≤ (skipPointers piece).1 ∧
      (pieceDimensions fields' field piece').length = (pieceDimensions fields field piece).length)
      pieces' pieces)
    (hproper : ∀ piece ∈ pieces, ∀ dimension ∈ pieceDimensions fields field piece,
      ProperDimension dimension)
    (heq : pieceChain fields' field pieces' = pieceChain fields field pieces) :
    List.Forall₂ (SameLinks fields' fields field) pieces' pieces ∧
      pieces'.getLast?.map (pieceElement field) = pieces.getLast?.map (pieceElement field) := by
  have hsome : pieces'.getLast?.isSome = pieces.getLast?.isSome := by
    cases hpieces with
    | nil => rfl
    | cons _ _ => rw [List.getLast?_isSome.mpr (List.cons_ne_nil _ _),
        List.getLast?_isSome.mpr (List.cons_ne_nil _ _)]
  rw [pieceChain, pieceChain] at heq
  have hlast : (pieces'.getLast?.map (pieceElement field)).toList.length =
      (pieces.getLast?.map (pieceElement field)).toList.length := by
    cases h : pieces.getLast? <;> cases h' : pieces'.getLast? <;> simp [h, h'] at hsome ⊢
  obtain ⟨hflat, helement⟩ := List.append_inj' heq hlast
  have hinj : ∀ a b : Option FMTypeDesc, a.toList = b.toList → a = b := by
    intro a b h
    cases a <;> cases b <;> simp_all
  refine ⟨?_, hinj _ _ helement⟩
  -- The array links give the dimensions, and with these their number gives the pointers.
  have hdims : List.Forall₂ (fun piece' piece =>
      (skipPointers piece').1 ≤ (skipPointers piece).1 ∧
        pieceDimensions fields' field piece' = pieceDimensions fields field piece)
      pieces' pieces := by
    have hnodes := congrArg arrayNodes hflat
    rw [arrayNodes_flatMap, arrayNodes_flatMap] at hnodes
    clear heq hlast helement hsome hflat
    induction hpieces with
    | nil => exact .nil
    | cons h _ ih =>
      rw [List.flatMap_cons, List.flatMap_cons] at hnodes
      obtain ⟨hhead, htail⟩ := List.append_inj hnodes (by rw [List.length_map, List.length_map, h.2])
      rw [List.forall_mem_cons] at hproper
      exact .cons ⟨h.1, pieceDimensions_inj hproper.1 hhead⟩ (ih hproper.2 htail)
  have hlength : ∀ {pieces' pieces : List (List UInt8)}, List.Forall₂ (fun piece' piece =>
      (skipPointers piece').1 ≤ (skipPointers piece).1 ∧
        pieceDimensions fields' field piece' = pieceDimensions fields field piece)
      pieces' pieces → (pieces'.flatMap (pieceLinks fields' field)).length ≤
        (pieces.flatMap (pieceLinks fields field)).length := by
    intro pieces' pieces h
    induction h with
    | nil => exact le_refl _
    | cons h _ ih =>
      rw [List.flatMap_cons, List.flatMap_cons, List.length_append, List.length_append,
        length_pieceLinks, length_pieceLinks, h.2]
      omega
  have hlengths := congrArg List.length hflat
  clear heq hlast helement hsome hflat hproper hpieces
  induction hdims with
  | nil => exact .nil
  | cons h htail ih =>
    have hle := hlength htail
    rw [List.flatMap_cons, List.flatMap_cons, List.length_append, List.length_append,
      length_pieceLinks, length_pieceLinks, h.2] at hlengths
    exact .cons ⟨by omega, h.2⟩ (ih (by omega))

end

/-! ## Base types -/

/-- The part of a type that the name of its subformat ends. -/
def typeStem (typ : List UInt8) : List UInt8 := (typeHead typ).takeWhile (· ≠ chr ')')

theorem baseDataType_eq_stem (typ : List UInt8) :
    baseDataType typ = skipTypePrefix (typeStem typ) := by
  rw [baseDataType_eq, skipTypePrefix, takeWhile_dropWhile]
  · rfl
  · intro b hb
    simp only [ne_eq, decide_eq_true_eq]
    rintro rfl
    exact absurd hb (by decide)

theorem typeStem_underscored (typ : List UInt8) :
    typeStem (typ.map underscored) = (typeStem typ).map underscored := by
  rw [typeStem, typeHead_underscored]
  exact takeWhile_underscored (by decide) (by decide) _

theorem typeStem_prefixed {front : List UInt8} (hfront : Unmarked front) (typ : List UInt8) :
    typeStem (front ++ typ) = front ++ typeStem typ := by
  rw [typeStem, typeHead_append hfront.bracket,
    List.takeWhile_append_of_pos (other_of_notMem hfront.closes)]
  rfl

theorem baseDataType_underscored_iff {typ : List UInt8} :
    baseDataType (typ.map underscored) = baseDataType typ ↔ NoBlank (typeStem typ) := by
  have hcount : ∀ s : List UInt8, (skipTypePrefix s).count (chr '_') = s.count (chr '_') := by
    intro s
    conv_rhs => rw [← List.takeWhile_append_dropWhile
      (p := fun b => isSpace b || b == chr '*' || b == chr '(') (l := s)]
    rw [List.count_append, List.count_eq_zero.mpr fun hmem =>
      absurd (List.mem_takeWhile_imp hmem) (by decide), Nat.zero_add]
    rfl
  rw [baseDataType_eq_stem, baseDataType_eq_stem, typeStem_underscored]
  constructor
  · intro heq
    have hsame := congrArg (List.count (chr '_')) heq
    rw [hcount, hcount, count_line_underscored] at hsame
    intro b hb
    simpa using List.countP_eq_zero.mp (by omega : (typeStem typ).countP isSpace = 0) b hb
  · intro h
    rw [map_underscored_eq_self_iff.mpr h]

theorem skip_prefixed {front : List UInt8} (hfront : Unmarked front) (s : List UInt8) :
    skipTypePrefix ((front ++ s).map underscored) = (front ++ s).map underscored := by
  have hopens := hfront.opens
  obtain ⟨c, rest, rfl, hstar⟩ := hfront.exists_cons
  rw [List.mem_cons, not_or] at hopens
  have hline : isSpace (chr '*') = false ∧ isSpace (chr '(') = false := by decide
  refine List.dropWhile_cons_of_neg ?_
  rw [isSpace_underscored, Bool.false_or, Bool.or_eq_true, beq_iff_eq, beq_iff_eq,
    underscored_eq_iff hline.1 (by decide), underscored_eq_iff hline.2 (by decide)]
  exact not_or.mpr ⟨hstar, Ne.symm hopens.1⟩

theorem baseDataType_prefixed {front : List UInt8} (hfront : Unmarked front) (typ : List UInt8) :
    baseDataType ((front ++ typ).map underscored) = (front ++ typeStem typ).map underscored := by
  rw [baseDataType_eq_stem, typeStem_underscored, typeStem_prefixed hfront, skip_prefixed hfront]

theorem length_skipTypePrefix_le (s : List UInt8) : (skipTypePrefix s).length ≤ s.length :=
  (List.dropWhile_suffix _).length_le

/-- A type with a prefix names the subformat with the prefix just if nothing is skipped in front of
the name. -/
theorem baseDataType_prefixed_iff {front : List UInt8} (hfront : Unmarked front)
    {typ : List UInt8} : baseDataType ((front ++ typ).map underscored) =
      (front ++ baseDataType typ).map underscored ↔ skipTypePrefix (typeStem typ) = typeStem typ := by
  rw [baseDataType_prefixed hfront, baseDataType_eq_stem]
  constructor
  · intro heq
    have hlength := congrArg List.length heq
    rw [List.length_map, List.length_map, List.length_append, List.length_append] at hlength
    exact (List.dropWhile_suffix _).eq_of_length (by rw [← skipTypePrefix]; omega)
  · intro h
    rw [h]

/-- A type with a prefix names nothing without it. -/
theorem baseDataType_prefixed_ne {front : List UInt8} (hfront : Unmarked front) (typ : List UInt8) :
    baseDataType ((front ++ typ).map underscored) ≠ baseDataType typ := by
  rw [baseDataType_prefixed hfront, baseDataType_eq_stem]
  intro heq
  have hlength := congrArg List.length heq
  have hle := length_skipTypePrefix_le (typeStem typ)
  obtain ⟨c, rest, rfl, -⟩ := hfront.exists_cons
  rw [List.length_map, List.length_append, List.length_cons] at hlength
  omega

/-- A type without the prefix does not name the subformat with it. -/
theorem baseDataType_ne_prefixed {front : List UInt8} (hfront : PlainPrefix front)
    (typ : List UInt8) :
    baseDataType (typ.map underscored) ≠ (front ++ baseDataType typ).map underscored := by
  have hcases : ∀ s : List UInt8,
      skipTypePrefix (s.map underscored) = (skipTypePrefix s).map underscored ∨
        (skipTypePrefix (s.map underscored)).head? = some (chr '_') := by
    intro s
    induction s with
    | nil => exact .inl rfl
    | cons b s ih =>
      by_cases hspace : isSpace b = true
      · refine .inr ?_
        rw [List.map_cons, underscored, if_pos hspace]
        rfl
      · have hsame := underscored_of_notSpace (Bool.eq_false_iff.mpr hspace)
        rw [List.map_cons, hsame, skipTypePrefix, skipTypePrefix]
        by_cases hmark : (isSpace b || b == chr '*' || b == chr '(') = true
        · rw [List.dropWhile_cons, List.dropWhile_cons, if_pos hmark, if_pos hmark]
          exact ih
        · rw [List.dropWhile_cons, List.dropWhile_cons, if_neg hmark, if_neg hmark, List.map_cons,
            hsame]
          exact .inl rfl
  rw [baseDataType_eq_stem, typeStem_underscored, baseDataType_eq_stem]
  have hletter := hfront.letter
  obtain ⟨c, rest, rfl, -⟩ := hfront.exists_cons
  intro heq
  rcases hcases (typeStem typ) with hsame | hline
  · have hlength := congrArg List.length (heq.symm.trans hsame)
    rw [List.length_map, List.length_map, List.length_append, List.length_cons] at hlength
    omega
  · rw [heq, List.cons_append, List.map_cons, List.head?_cons, Option.some.injEq,
      underscored_of_notSpace (hletter c rfl).1] at hline
    exact (hletter c rfl).2 hline

end FFS
