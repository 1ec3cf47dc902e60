import FFS.FM.WellFormed
import FFS.Machine.Decimal

/-!
# The readers of dimensions

Four functions read the dimensions of a type string on their own: `FMarray_str_to_data_type` in
base 10, `IOget_array_size_dimen` and `is_all_static_array_dimens` in the base that the numeral
announces, and `gen_FMTypeDesc` from the pieces between parentheses.
-/

namespace FFS

open Machine

/-! ## Brackets -/

/-- What stands behind each bracket of a string. -/
def bracketTexts : List UInt8 → List (List UInt8)
  | [] => []
  | b :: str => if b = chr '[' then str :: bracketTexts str else bracketTexts str

/-- What `IOget_array_size_dimen` says about the text behind a bracket. -/
def textDimension (fields : List FMField) (curField : Nat) (text : List UInt8) : Int × Int :=
  let (staticSize, rest) := strtol 0 text
  if rest.length = text.length then
    match findField (text.takeWhile (· ≠ chr ']')) fields curField with
    | none => (-1, -1)
    | some i =>
      let controlType := fields[i]?.map fun f => strToDataType f.fieldType.bytes
      if controlType = some .integerType ∨ controlType = some .unsignedType then (-1, i)
      else (0, -1)
  else if rest.head? ≠ some (chr ']') then (-1, -1)
  else if staticSize ≤ 0 then (-1, -1)
  else (signed 4 (unsigned 4 staticSize), -1)

theorem getArraySizeDimen_eq (str : List UInt8) (fields : List FMField) (dimen curField : Nat) :
    getArraySizeDimen str fields dimen curField =
      match nthParen dimen str with
      | none => (0, -1)
      | some leftParen => textDimension fields curField leftParen.tail := rfl

theorem bracketTexts_append {front str : List UInt8} (h : chr '[' ∉ front) :
    bracketTexts (front ++ str) = bracketTexts str := by
  induction front with
  | nil => rfl
  | cons b front ih =>
    rw [List.mem_cons, not_or] at h
    rw [List.cons_append, bracketTexts, if_neg (Ne.symm h.1), ih h.2]

theorem length_bracketTexts (str : List UInt8) :
    (bracketTexts str).length = str.count (chr '[') := by
  induction str with
  | nil => rfl
  | cons b str ih =>
    rw [bracketTexts, List.count_cons]
    split
    · next h => simp [ih, h]
    · next h => simp [ih, h]

/-- The search for the next bracket. -/
theorem strchr_bracket (str : List UInt8) :
    match bracketTexts str with
    | [] => strchr str (chr '[') = none
    | text :: texts =>
      strchr str (chr '[') = some (chr '[' :: text) ∧ texts = bracketTexts text := by
  induction str with
  | nil => rfl
  | cons b str ih =>
    rw [bracketTexts]
    by_cases h : b = chr '['
    · rw [if_pos h]
      simp [strchr, h]
    · rw [if_neg h]
      have hstep : strchr (b :: str) (chr '[') = strchr str (chr '[') := by
        rw [strchr, strchr, List.dropWhile_cons_of_pos (by simp [h])]
      rw [hstep]
      exact ih

theorem nthParen_eq (dimen : Nat) (str : List UInt8) :
    nthParen dimen str = (bracketTexts str)[dimen]?.map (chr '[' :: ·) := by
  induction dimen generalizing str with
  | zero =>
    have h := strchr_bracket str
    rw [nthParen]
    cases htexts : bracketTexts str with
    | nil =>
      rw [htexts] at h
      simpa using h
    | cons text texts =>
      rw [htexts] at h
      simpa using h.1
  | succ dimen ih =>
    have h := strchr_bracket str
    rw [nthParen]
    cases htexts : bracketTexts str with
    | nil =>
      rw [htexts] at h
      dsimp only at h
      rw [h]
      rfl
    | cons text texts =>
      rw [htexts] at h
      obtain ⟨hstrchr, rfl⟩ := h
      rw [hstrchr, Option.bind_some, List.tail_cons, ih]
      rfl

theorem arrayDimensions_eq (fields : List FMField) (field : Nat) (str : List UInt8) :
    arrayDimensions fields field str = (bracketTexts str).map (textDimension fields field) := by
  refine List.ext_getElem? fun dimen => ?_
  rw [arrayDimensions, List.getElem?_map, List.getElem?_map, ← length_bracketTexts]
  by_cases hlt : dimen < (bracketTexts str).length
  · rw [List.getElem?_range hlt, Option.map_some, getArraySizeDimen_eq, nthParen_eq,
      List.getElem?_eq_getElem hlt]
    rfl
  · rw [List.getElem?_eq_none (by rw [List.length_range]; omega),
      List.getElem?_eq_none (by omega)]
    rfl

/-- No number holds a bracket. -/
theorem unnumbered_bracket : Unnumbered (chr '[') := by
  unfold Unnumbered
  decide

theorem bracketTexts_strtol (base : Nat) (str : List UInt8) :
    bracketTexts (strtol base str).2 = bracketTexts str := by
  obtain ⟨front, hfront, hnot⟩ := strtol_suffix base str
  have happend : bracketTexts (front ++ (strtol base str).2) = _ :=
    bracketTexts_append (hnot _ unnumbered_bracket)
  rw [← hfront] at happend
  exact happend.symm

/-! ## The reader in base 10 -/

/-- There is no number behind the bracket. -/
def IsName (text : List UInt8) : Prop := (strtol 10 text).2.length = text.length

instance (text : List UInt8) : Decidable (IsName text) := inferInstanceAs (Decidable (_ = _))

/-- The number behind the bracket is positive in base 10, and the bracket closes behind it. -/
def ClosedDecimal (text : List UInt8) : Prop :=
  0 < (strtol 10 text).1 ∧ (strtol 10 text).2.head? = some (chr ']')

instance (text : List UInt8) : Decidable (ClosedDecimal text) :=
  inferInstanceAs (Decidable (_ ∧ _))

/-- The sizes that `FMarray_str_to_data_type` reads up to the first it does not take.  `none`
where it comes to a name. -/
def decimalSizes : List (List UInt8) → Option (List Int)
  | [] => some []
  | text :: texts =>
    if IsName text then none
    else if ClosedDecimal text then (decimalSizes texts).map ((strtol 10 text).1 :: ·)
    else some []

/-- A `long` that wraps. -/
def wrapLong (x : Int) : Int := signed 8 (unsigned 8 x)

theorem wrapLong_lt (x : Int) : wrapLong x < 2 ^ 63 := by
  have hlt := Int.bmod_lt (x := (unsigned 8 x : Int)) (m := 256 ^ 8) (by norm_num)
  rw [wrapLong, signed]
  calc Int.bmod (unsigned 8 x) (256 ^ 8) < ((256 ^ 8 : Nat) + 1) / 2 := hlt
    _ = 2 ^ 63 := by norm_num

theorem wrapLong_of_lt {x : Int} (hpos : 0 < x) (hlt : x < 2 ^ 63) : wrapLong x = x := by
  refine signed_unsigned (by decide) ⟨?_, ?_⟩
  · norm_num
    omega
  · norm_num
    omega

theorem elementCount_eq {rounds : Nat} {count : Int} {text : List UInt8}
    (h : (text :: bracketTexts text).length ≤ rounds) :
    elementCount rounds count (chr '[' :: text) =
      match decimalSizes (text :: bracketTexts text) with
      | none => -1
      | some sizes => sizes.foldl (fun count size => wrapLong (count * size)) count := by
  induction rounds generalizing count text with
  | zero => simp at h
  | succ rounds ih =>
    rw [elementCount, decimalSizes, List.tail_cons]
    dsimp only
    by_cases hname : IsName text
    · have hlength : (strtol 10 text).2.length = text.length := hname
      rw [if_pos hname, if_pos hlength]
    · have hlength : ¬ (strtol 10 text).2.length = text.length := hname
      rw [if_neg hname, if_neg hlength]
      by_cases hclosed : ClosedDecimal text
      · rw [if_neg (not_le.mpr hclosed.1), if_neg (by simp [hclosed.2]), if_pos hclosed]
        have hnext := strchr_bracket (strtol 10 text).2
        rw [bracketTexts_strtol] at hnext
        cases htexts : bracketTexts text with
        | nil =>
          rw [htexts] at hnext
          dsimp only at hnext
          rw [hnext, decimalSizes, Option.map_some]
          dsimp only
          rw [List.foldl_cons, List.foldl_nil, wrapLong]
        | cons next texts =>
          rw [htexts] at hnext
          obtain ⟨hstrchr, rfl⟩ := hnext
          rw [hstrchr]
          dsimp only
          rw [htexts, List.length_cons] at h
          rw [ih (by omega)]
          cases decimalSizes (next :: bracketTexts next) with
          | none => rfl
          | some sizes =>
            dsimp only [Option.map_some]
            rw [List.foldl_cons, wrapLong]
      · rw [if_neg hclosed]
        rw [ClosedDecimal, not_and_or, not_lt] at hclosed
        by_cases hpos : (strtol 10 text).1 ≤ 0
        · rw [if_pos hpos]
          rfl
        · rw [if_neg hpos, if_pos (hclosed.resolve_left hpos)]
          rfl

/-- The number of elements as `FMarray_str_to_data_type` counts them. -/
theorem arrayStrToDataType_snd (typ : List UInt8) : (arrayStrToDataType typ).2 =
    match decimalSizes (bracketTexts typ) with
    | none => -1
    | some sizes => sizes.foldl (fun count size => wrapLong (count * size)) 1 := by
  have h := strchr_bracket typ
  have hcount : (bracketTexts typ).length ≤ typ.length := by
    rw [length_bracketTexts]
    exact List.count_le_length
  rw [arrayStrToDataType]
  cases htexts : bracketTexts typ with
  | nil =>
    rw [htexts] at h
    dsimp only at h
    rw [h]
    rfl
  | cons text texts =>
    rw [htexts] at h hcount
    obtain ⟨hstrchr, rfl⟩ := h
    rw [hstrchr]
    exact elementCount_eq hcount

theorem one_le_prod {sizes : List Int} (h : ∀ size ∈ sizes, 0 < size) : 1 ≤ sizes.prod := by
  induction sizes with
  | nil => rfl
  | cons size sizes ih =>
    rw [List.forall_mem_cons] at h
    rw [List.prod_cons]
    exact Int.add_one_le_of_lt (mul_pos h.1 (ih h.2))

/-- The count is the product unless that is too great for a `long`. -/
theorem foldl_wrapLong_iff {sizes : List Int} (hpos : ∀ size ∈ sizes, 0 < size) {count : Int}
    (hcount : 0 < count) (hlt : count < 2 ^ 63) :
    sizes.foldl (fun count size => wrapLong (count * size)) count = count * sizes.prod ↔
      count * sizes.prod < 2 ^ 63 := by
  have hbound : ∀ {sizes : List Int} {count : Int}, count < 2 ^ 63 →
      sizes.foldl (fun count size => wrapLong (count * size)) count < 2 ^ 63 := by
    intro sizes
    induction sizes with
    | nil => exact id
    | cons size sizes ih =>
      intro count _
      rw [List.foldl_cons]
      exact ih (wrapLong_lt _)
  induction sizes generalizing count with
  | nil => simpa using hlt
  | cons size sizes ih =>
    have hsize := hpos size List.mem_cons_self
    have hrest : ∀ s ∈ sizes, 0 < s := fun s hs => hpos s (List.mem_cons_of_mem _ hs)
    have hprod : 0 < count * size := mul_pos hcount hsize
    rw [List.foldl_cons, List.prod_cons, ← mul_assoc]
    by_cases hfits : count * size < 2 ^ 63
    · rw [wrapLong_of_lt hprod hfits]
      exact ih hrest hprod hfits
    · have hone : 1 ≤ sizes.prod := one_le_prod hrest
      have hlarge : ¬ count * size * sizes.prod < 2 ^ 63 := by
        have hle := le_mul_of_one_le_right hprod.le hone
        omega
      refine iff_of_false (fun heq => hlarge ?_) hlarge
      rw [← heq]
      exact hbound (wrapLong_lt _)

/-! ## The reader of static dimensions -/

theorem isAllStaticArrayDimens_eq {rounds : Nat} {str : List UInt8}
    (h : (bracketTexts str).length < rounds) :
    isAllStaticArrayDimens rounds str =
      (bracketTexts str).all fun text => (strtol 0 text).2.head? = some (chr ']') := by
  induction rounds generalizing str with
  | zero => omega
  | succ rounds ih =>
    have hnext := strchr_bracket str
    rw [isAllStaticArrayDimens]
    cases htexts : bracketTexts str with
    | nil =>
      rw [htexts] at hnext
      dsimp only at hnext
      rw [hnext]
      rfl
    | cons text texts =>
      rw [htexts] at hnext h
      obtain ⟨hstrchr, rfl⟩ := hnext
      rw [hstrchr, List.all_cons]
      dsimp only
      rw [List.tail_cons]
      by_cases hclosed : (strtol 0 text).2.head? = some (chr ']')
      · have htail : bracketTexts (strtol 0 text).2.tail = bracketTexts text := by
          rw [← bracketTexts_strtol 0 text]
          cases hrest : (strtol 0 text).2 with
          | nil => rfl
          | cons b rest =>
            rw [hrest, List.head?_cons, Option.some.injEq] at hclosed
            rw [List.tail_cons, bracketTexts, if_neg]
            rw [hclosed]
            decide
        rw [if_neg (by simp [hclosed]), ih (by rw [htail]; simp at h; omega), htail]
        simp [hclosed]
      · rw [if_pos hclosed]
        simp [hclosed]

/-- `is_var_array_field` -/
theorem isVarArrayField_eq (typ : List UInt8) : isVarArrayField typ =
    !(bracketTexts typ).all fun text => (strtol 0 text).2.head? = some (chr ']') := by
  rw [isVarArrayField, isAllStaticArrayDimens_eq]
  rw [length_bracketTexts]
  exact Nat.lt_succ_of_le List.count_le_length

/-! ## Agreement -/

/-- The four readers agree on the array part of a type, `var` being what the format holds for the
field. -/
structure ReadersAgree (fields : List FMField) (field : Nat) (typ : List UInt8)
    (var : FMVarInfo) : Prop where
  sizes : decimalSizes (bracketTexts typ) =
    if ∀ dimension ∈ arrayDimensions fields field typ, dimension.1 ≠ -1 then
      some ((arrayDimensions fields field typ).map Prod.fst)
    else none
  count : (arrayStrToDataType typ).2 =
    if ∀ dimension ∈ arrayDimensions fields field typ, dimension.1 ≠ -1 then
      ((arrayDimensions fields field typ).map Prod.fst).prod
    else -1
  static : isVarArrayField typ = false ↔
    ∀ dimension ∈ arrayDimensions fields field typ, dimension.1 ≠ -1
  nodes : arrayNodes var.typeDesc =
    var.dimens.map fun dimen => (dimen.staticSize, dimen.controlFieldIndex)

/-- A positive number that fits an `int`, is the same in base 10 and in the base that it
announces, and ends at the closing bracket in both. -/
def PlainSize (text : List UInt8) : Prop :=
  ClosedDecimal text ∧ 0 < (strtol 0 text).1 ∧ (strtol 0 text).2.head? = some (chr ']') ∧
    signed 4 (unsigned 4 (strtol 0 text).1) = (strtol 10 text).1

/-- All brackets hold plain sizes, whose product fits a `long`. -/
def StaticBrackets (texts : List (List UInt8)) : Prop :=
  (∀ text ∈ texts, PlainSize text) ∧ (texts.map fun text => (strtol 10 text).1).prod < 2 ^ 63

/-- Behind positive decimal numbers there is a name, some bracket does not hold a closed number,
and some dimension is dynamic. -/
def DynamicBrackets (fields : List FMField) (field : Nat) (texts : List (List UInt8)) : Prop :=
  (∃ front name behind, texts = front ++ name :: behind ∧ (∀ text ∈ front, ClosedDecimal text) ∧
    IsName name) ∧
    (∃ text ∈ texts, (strtol 0 text).2.head? ≠ some (chr ']')) ∧
    ∃ text ∈ texts, (textDimension fields field text).1 = -1

/-- The brackets are static or dynamic for all readers.  The pieces from the outside in have the
dimensions of the string from left to right up to the first of size 0, and where a size is not
known the control field is. -/
structure ReadAlike (fields : List FMField) (field : Nat) (typ : List UInt8) : Prop where
  brackets : StaticBrackets (bracketTexts typ) ∨ DynamicBrackets fields field (bracketTexts typ)
  pieces : Compound typ → ∀ pieces, fieldPieces typ = some pieces →
    pieces.flatMap (pieceDimensions fields field) =
        (arrayDimensions fields field typ).takeWhile (·.1 ≠ 0) ∧
      (-1, -1) ∉ (arrayDimensions fields field typ).takeWhile (·.1 ≠ 0)

theorem ClosedDecimal.not_isName {text : List UInt8} (h : ClosedDecimal text) : ¬ IsName text := by
  intro hname
  have hpos := h.1
  have hzero : (strtol 10 text).1 = 0 := strtol_eq_zero hname
  omega

theorem decimalSizes_eq_none_iff {texts : List (List UInt8)} : decimalSizes texts = none ↔
    ∃ front name behind, texts = front ++ name :: behind ∧ (∀ text ∈ front, ClosedDecimal text) ∧
      IsName name := by
  constructor
  · intro h
    induction texts with
    | nil => cases h
    | cons text texts ih =>
      rw [decimalSizes] at h
      split at h
      · next hname => exact ⟨[], text, texts, rfl, by simp, hname⟩
      · split at h
        · next hclosed =>
          rw [Option.map_eq_none_iff] at h
          obtain ⟨front, name, behind, rfl, hfront, hname⟩ := ih h
          exact ⟨text :: front, name, behind, rfl,
            List.forall_mem_cons.mpr ⟨hclosed, hfront⟩, hname⟩
        · cases h
  · rintro ⟨front, name, behind, rfl, hfront, hname⟩
    induction front with
    | nil => rw [List.nil_append, decimalSizes, if_pos hname]
    | cons text front ih =>
      rw [List.forall_mem_cons] at hfront
      rw [List.cons_append, decimalSizes, if_neg hfront.1.not_isName, if_pos hfront.1,
        ih hfront.2, Option.map_none]

theorem decimalSizes_of_closed {texts : List (List UInt8)}
    (h : ∀ text ∈ texts, ClosedDecimal text) :
    decimalSizes texts = some (texts.map fun text => (strtol 10 text).1) := by
  induction texts with
  | nil => rfl
  | cons text texts ih =>
    rw [List.forall_mem_cons] at h
    rw [decimalSizes, if_neg h.1.not_isName, if_pos h.1, ih h.2, Option.map_some, List.map_cons]

/-- No dimension is left out just if each is closed. -/
theorem closed_of_decimalSizes {texts : List (List UInt8)} {sizes : List Int}
    (h : decimalSizes texts = some sizes) (hlength : sizes.length = texts.length) :
    ∀ text ∈ texts, ClosedDecimal text := by
  induction texts generalizing sizes with
  | nil => simp
  | cons text texts ih =>
    rw [decimalSizes] at h
    split at h
    · cases h
    · split at h
      · next hclosed =>
        obtain ⟨rest, hrest, rfl⟩ := Option.map_eq_some_iff.mp h
        rw [List.length_cons, List.length_cons, Nat.add_right_cancel_iff] at hlength
        exact List.forall_mem_cons.mpr ⟨hclosed, ih hrest hlength⟩
      · cases h
        cases hlength

section
variable {fields : List FMField} {field : Nat} {typ text : List UInt8}

/-- A dimension that is positive is read from a number. -/
theorem textDimension_pos (h : 0 < (textDimension fields field text).1) :
    0 < (strtol 0 text).1 ∧ (strtol 0 text).2.head? = some (chr ']') ∧
      (textDimension fields field text).1 = signed 4 (unsigned 4 (strtol 0 text).1) := by
  generalize hdimension : textDimension fields field text = dimension at h ⊢
  rw [textDimension] at hdimension
  dsimp only at hdimension
  split at hdimension
  · split at hdimension
    · rw [← hdimension] at h
      exact absurd h (by decide)
    · split at hdimension
      · rw [← hdimension] at h
        exact absurd (show (0 : Int) < -1 from h) (by decide)
      · rw [← hdimension] at h
        exact absurd h (by decide)
  · split at hdimension
    · rw [← hdimension] at h
      exact absurd h (by decide)
    · next hclosed =>
      split at hdimension
      · rw [← hdimension] at h
        exact absurd h (by decide)
      · next hpos => exact ⟨not_le.mp hpos, not_not.mp hclosed, by rw [← hdimension]⟩

theorem PlainSize.textDimension_eq (h : PlainSize text) :
    textDimension fields field text = ((strtol 10 text).1, -1) := by
  obtain ⟨hdecimal, hpos, hclosed, hsame⟩ := h
  have hnumber : ¬ (strtol 0 text).2.length = text.length := by
    intro hlength
    have hzero := strtol_eq_zero hlength
    omega
  rw [textDimension]
  dsimp only
  rw [if_neg hnumber, if_neg (by simp [hclosed]), if_neg (not_le.mpr hpos), hsame]

theorem plainSize_of_eq (h : ClosedDecimal text)
    (heq : (textDimension fields field text).1 = (strtol 10 text).1) : PlainSize text := by
  obtain ⟨hpos, hclosed, hsame⟩ := textDimension_pos (by rw [heq]; exact h.1)
  exact ⟨h, hpos, hclosed, by rw [← hsame, heq]⟩

/-- No dimension is dynamic. -/
abbrev AllStatic (fields : List FMField) (field : Nat) (typ : List UInt8) : Prop :=
  ∀ dimension ∈ arrayDimensions fields field typ, dimension.1 ≠ -1

theorem map_dimensions_of_plain (h : ∀ text ∈ bracketTexts typ, PlainSize text) :
    (arrayDimensions fields field typ).map Prod.fst =
      (bracketTexts typ).map fun text => (strtol 10 text).1 := by
  rw [arrayDimensions_eq, List.map_map]
  refine List.map_congr_left fun text htext => ?_
  rw [Function.comp_apply, (h text htext).textDimension_eq]

theorem allStatic_of_plain (h : ∀ text ∈ bracketTexts typ, PlainSize text) :
    AllStatic fields field typ := by
  intro dimension hdimension
  rw [arrayDimensions_eq] at hdimension
  obtain ⟨text, htext, rfl⟩ := List.mem_map.mp hdimension
  rw [(h text htext).textDimension_eq]
  have hpos := (h text htext).1.1
  dsimp only
  omega

theorem not_allStatic_iff : ¬ AllStatic fields field typ ↔
    ∃ text ∈ bracketTexts typ, (textDimension fields field text).1 = -1 := by
  rw [AllStatic, arrayDimensions_eq]
  simp

theorem isVarArrayField_eq_false_iff : isVarArrayField typ = false ↔
    ∀ text ∈ bracketTexts typ, (strtol 0 text).2.head? = some (chr ']') := by
  rw [isVarArrayField_eq, Bool.not_eq_false', List.all_eq_true]
  simp

/-- The sizes multiply to their product unless it is too great. -/
theorem count_of_sizes {sizes : List Int} (h : decimalSizes (bracketTexts typ) = some sizes)
    (hpos : ∀ size ∈ sizes, 0 < size) :
    (arrayStrToDataType typ).2 = sizes.prod ↔ sizes.prod < 2 ^ 63 := by
  have hiff := @foldl_wrapLong_iff sizes hpos 1 (by decide) (by norm_num)
  rw [one_mul] at hiff
  rw [arrayStrToDataType_snd, h]
  exact hiff

/-- The three readers that give no chain. -/
def CountsAgree (fields : List FMField) (field : Nat) (typ : List UInt8) : Prop :=
  decimalSizes (bracketTexts typ) =
      (if AllStatic fields field typ then some ((arrayDimensions fields field typ).map Prod.fst)
      else none) ∧
    (arrayStrToDataType typ).2 =
      (if AllStatic fields field typ then ((arrayDimensions fields field typ).map Prod.fst).prod
      else -1) ∧
    (isVarArrayField typ = false ↔ AllStatic fields field typ)

theorem StaticBrackets.countsAgree (h : StaticBrackets (bracketTexts typ)) :
    CountsAgree fields field typ := by
  obtain ⟨hplain, hfits⟩ := h
  have hstatic : AllStatic fields field typ := allStatic_of_plain hplain
  have hsizes := decimalSizes_of_closed fun text htext => (hplain text htext).1
  have hpos : ∀ size ∈ (bracketTexts typ).map fun text => (strtol 10 text).1, 0 < size := by
    intro size hsize
    obtain ⟨text, htext, rfl⟩ := List.mem_map.mp hsize
    exact (hplain text htext).1.1
  rw [CountsAgree, if_pos hstatic, if_pos hstatic, map_dimensions_of_plain hplain]
  refine ⟨hsizes, (count_of_sizes hsizes hpos).mpr hfits, iff_of_true ?_ hstatic⟩
  exact isVarArrayField_eq_false_iff.mpr fun text htext => (hplain text htext).2.2.1

theorem DynamicBrackets.countsAgree (h : DynamicBrackets fields field (bracketTexts typ)) :
    CountsAgree fields field typ := by
  obtain ⟨hname, ⟨text, htext, hopen⟩, hdynamic⟩ := h
  have hstatic : ¬ AllStatic fields field typ := not_allStatic_iff.mpr hdynamic
  have hsizes := decimalSizes_eq_none_iff.mpr hname
  rw [CountsAgree, if_neg hstatic, if_neg hstatic]
  refine ⟨hsizes, ?_, iff_of_false (fun hvar => ?_) hstatic⟩
  · rw [arrayStrToDataType_snd, hsizes]
  · exact hopen (isVarArrayField_eq_false_iff.mp hvar text htext)

theorem countsAgree_iff : CountsAgree fields field typ ↔
    StaticBrackets (bracketTexts typ) ∨ DynamicBrackets fields field (bracketTexts typ) := by
  constructor
  · rintro ⟨hsizes, hcount, hvar⟩
    by_cases hstatic : AllStatic fields field typ
    · rw [if_pos hstatic] at hsizes hcount
      have hclosed := closed_of_decimalSizes hsizes (by
        rw [List.length_map, arrayDimensions_eq, List.length_map])
      have heq := hsizes
      rw [decimalSizes_of_closed hclosed, Option.some.injEq, arrayDimensions_eq, List.map_map,
        List.map_inj_left] at heq
      have hplain : ∀ text ∈ bracketTexts typ, PlainSize text :=
        fun text htext => plainSize_of_eq (hclosed text htext) (heq text htext).symm
      refine .inl ⟨hplain, ?_⟩
      rw [map_dimensions_of_plain hplain] at hsizes hcount
      refine (count_of_sizes hsizes fun size hsize => ?_).mp hcount
      obtain ⟨text, htext, rfl⟩ := List.mem_map.mp hsize
      exact (hclosed text htext).1
    · rw [if_neg hstatic] at hsizes
      refine .inr ⟨decimalSizes_eq_none_iff.mp hsizes, ?_, not_allStatic_iff.mp hstatic⟩
      have hopen : ¬ ∀ text ∈ bracketTexts typ, (strtol 0 text).2.head? = some (chr ']') :=
        fun hall => hstatic (hvar.mp (isVarArrayField_eq_false_iff.mpr hall))
      simpa using hopen
  · rintro (h | h)
    · exact h.countsAgree
    · exact h.countsAgree

/-! ### Chains -/

/-- A control field comes with the size of a dynamic dimension only. -/
theorem textDimension_size {text : List UInt8}
    (h : (textDimension fields field text).2 ≠ -1) : (textDimension fields field text).1 = -1 := by
  rw [textDimension] at h ⊢
  dsimp only at h ⊢
  split at h
  · next hname =>
    rw [if_pos hname]
    split at h
    · exact absurd rfl h
    · split at h
      · next hcontrol => rw [if_pos hcontrol]
      · exact absurd rfl h
  · split at h
    · exact absurd rfl h
    · split at h
      · exact absurd rfl h
      · exact absurd rfl h

/-- What `gen_var_dimens` holds of a dimension. -/
def storedDimension (dimension : Int × Int) : Int × Int :=
  if dimension.2 ≠ -1 then (0, dimension.2) else (dimension.1, -1)

theorem storedDimension_eq_iff {dimension dimension' : Int × Int}
    (h : dimension.2 ≠ -1 → dimension.1 = -1) (h' : dimension'.2 ≠ -1 → dimension'.1 = -1)
    (hne : dimension.1 ≠ 0) : nodeDimension dimension' = storedDimension dimension ↔
      dimension' = dimension ∧ dimension ≠ (-1, -1) := by
  obtain ⟨size, control⟩ := dimension
  obtain ⟨size', control'⟩ := dimension'
  rw [nodeDimension, storedDimension]
  dsimp only at h h' hne ⊢
  by_cases hcontrol : control = -1
  · rw [if_neg (not_not.mpr hcontrol)]
    simp only [Prod.mk.injEq, ne_eq]
    split
    · omega
    · omega
  · have hsize := h hcontrol
    rw [if_pos hcontrol]
    simp only [Prod.mk.injEq, ne_eq]
    by_cases hsize' : size' = -1
    · rw [if_pos hsize']
      omega
    · have hcontrol' : control' = -1 := by
        by_contra hne'
        exact hsize' (h' hne')
      rw [if_neg hsize']
      omega

theorem map_storedDimension_iff {dimensions dimensions' : List (Int × Int)}
    (h : ∀ dimension ∈ dimensions,
      dimension.1 ≠ 0 ∧ (dimension.2 ≠ -1 → dimension.1 = -1))
    (h' : ∀ dimension ∈ dimensions', dimension.2 ≠ -1 → dimension.1 = -1) :
    dimensions'.map nodeDimension = dimensions.map storedDimension ↔
      dimensions' = dimensions ∧ (-1, -1) ∉ dimensions := by
  induction dimensions generalizing dimensions' with
  | nil => simp
  | cons dimension dimensions ih =>
    cases dimensions' with
    | nil => simp
    | cons dimension' dimensions' =>
      rw [List.forall_mem_cons] at h h'
      rw [List.map_cons, List.map_cons, List.cons.injEq, List.cons.injEq, List.mem_cons, not_or,
        storedDimension_eq_iff h.1.2 h'.1 h.1.1, ih h.2 h'.2]
      tauto

/-- The dimensions of a field as `gen_var_dimens` holds them. -/
theorem genDimens_eq : (genDimens fields field typ).map
    (fun dimen => (dimen.staticSize, dimen.controlFieldIndex)) =
      ((arrayDimensions fields field typ).takeWhile (·.1 ≠ 0)).map storedDimension := by
  rw [genDimens, List.map_map]
  refine List.map_congr_left fun dimension _ => ?_
  rw [Function.comp_apply, storedDimension]
  by_cases hcontrol : dimension.2 = -1
  · rw [if_neg (by simp [hcontrol])]
    simp [hcontrol]
  · rw [if_pos hcontrol]
    simp [hcontrol]

theorem mem_takeWhile_dimensions {dimension : Int × Int}
    (h : dimension ∈ (arrayDimensions fields field typ).takeWhile (·.1 ≠ 0)) :
    dimension.1 ≠ 0 ∧ (dimension.2 ≠ -1 → dimension.1 = -1) := by
  refine ⟨by simpa using List.mem_takeWhile_imp h, ?_⟩
  have hmem := List.takeWhile_subset _ h
  rw [arrayDimensions_eq] at hmem
  obtain ⟨text, -, rfl⟩ := List.mem_map.mp hmem
  exact textDimension_size

theorem mem_pieceDimensions {pieces : List (List UInt8)} {dimension : Int × Int}
    (h : dimension ∈ pieces.flatMap (pieceDimensions fields field)) :
    dimension.2 ≠ -1 → dimension.1 = -1 := by
  obtain ⟨piece, -, hmem⟩ := List.mem_flatMap.mp h
  rw [pieceDimensions, arrayDimensions_eq] at hmem
  obtain ⟨text, -, rfl⟩ := List.mem_map.mp hmem
  exact textDimension_size

/-- The array links list the dimensions just where the pieces do and none is unknown. -/
theorem nodes_iff_pieces {formats : List FMFormatBody} {b : FMFormatBody} {fmField : FMField}
    {sub : Option Nat} {recursive : Bool} {chain : List FMTypeDesc}
    (h : AcceptedField formats b field fmField sub recursive chain)
    (hcompound : Compound fmField.fieldType.bytes) {pieces : List (List UInt8)}
    (hpieces : fieldPieces fmField.fieldType.bytes = some pieces) :
    arrayNodes chain = (genDimens b.fieldList field fmField.fieldType.bytes).map
        (fun dimen => (dimen.staticSize, dimen.controlFieldIndex)) ↔
      pieces.flatMap (pieceDimensions b.fieldList field) =
          (arrayDimensions b.fieldList field fmField.fieldType.bytes).takeWhile (·.1 ≠ 0) ∧
        (-1, -1) ∉
          (arrayDimensions b.fieldList field fmField.fieldType.bytes).takeWhile (·.1 ≠ 0) := by
  obtain ⟨pieces', hpieces', hdescribes⟩ := describes_of_typeChain hcompound h.chain_eq
  rw [hpieces, Option.some.injEq] at hpieces'
  subst hpieces'
  rw [hdescribes.nodes, ← List.map_flatMap, genDimens_eq]
  exact map_storedDimension_iff (fun _ => mem_takeWhile_dimensions) (fun _ => mem_pieceDimensions)

end

/-! ## Registration -/

section
variable {columnMajor ignoreDefaultValues : Bool} {structList : List FMStructDesc} {f : FMFormat}

theorem readersAgree_iff {formats : List FMFormatBody} {b : FMFormatBody} {field : Nat}
    {fmField : FMField} {sub : Option Nat} {recursive : Bool} {chain : List FMTypeDesc}
    (h : AcceptedField formats b field fmField sub recursive chain) {var : FMVarInfo}
    (hvar : b.varList[field]? = some var) :
    ReadersAgree b.fieldList field fmField.fieldType.bytes var ↔
      ReadAlike b.fieldList field fmField.fieldType.bytes := by
  rw [h.varList, Option.some.injEq] at hvar
  subst hvar
  have hcounts := @countsAgree_iff b.fieldList field fmField.fieldType.bytes
  by_cases hcompound : Compound fmField.fieldType.bytes
  · obtain ⟨pieces, hpieces, hdescribes⟩ := describes_of_typeChain hcompound h.chain_eq
    obtain ⟨links, piece, -, hchain, hlinks⟩ := hdescribes.element
    have hnodes : arrayNodes (varInfo b.fieldList field fmField.fieldType.bytes
        (sub.map fun _ => recursive) chain).typeDesc = arrayNodes chain := by
      rw [hchain]
      exact arrayNodes_closeTypeDesc hlinks (pieceElement_ne_array piece)
    have hpiece := nodes_iff_pieces h hcompound hpieces
    rw [← hnodes] at hpiece
    constructor
    · rintro ⟨hsizes, hcount, hstatic, hlist⟩
      refine ⟨hcounts.mp ⟨hsizes, hcount, hstatic⟩, fun _ pieces' hpieces' => ?_⟩
      rw [hpieces, Option.some.injEq] at hpieces'
      subst hpieces'
      exact hpiece.mp hlist
    · rintro ⟨hbrackets, hall⟩
      obtain ⟨hsizes, hcount, hstatic⟩ := hcounts.mpr hbrackets
      exact ⟨hsizes, hcount, hstatic, hpiece.mpr (hall hcompound pieces hpieces)⟩
  · have hbracket : chr '[' ∉ fmField.fieldType.bytes := fun hmem => hcompound (.inr hmem)
    have hchain := h.chain_eq
    rw [typeChain_of_not_compound hcompound, Option.some.injEq] at hchain
    have hnodes : arrayNodes (varInfo b.fieldList field fmField.fieldType.bytes
        (sub.map fun _ => recursive) chain).typeDesc = [] := by
      rw [← hchain]
      exact @arrayNodes_closeTypeDesc field _ _ [] _ (by simp) (fun heq => by cases heq)
    have hdimens : (varInfo b.fieldList field fmField.fieldType.bytes
        (sub.map fun _ => recursive) chain).dimens = [] := by
      show genDimens b.fieldList field fmField.fieldType.bytes = []
      rw [genDimens, List.count_eq_zero.mpr hbracket]
      rfl
    constructor
    · rintro ⟨hsizes, hcount, hstatic, -⟩
      exact ⟨hcounts.mp ⟨hsizes, hcount, hstatic⟩, fun hcompound' => absurd hcompound' hcompound⟩
    · rintro ⟨hbrackets, -⟩
      obtain ⟨hsizes, hcount, hstatic⟩ := hcounts.mpr hbrackets
      exact ⟨hsizes, hcount, hstatic, by rw [hnodes, hdimens]; rfl⟩

/-- The readers agree on the fields of an accepted format just where the types read alike. -/
theorem readersAgree_iff_readAlike
    (h : registerFormats columnMajor ignoreDefaultValues structList = some f) :
    (∀ b ∈ f.bodies, ∀ (field : Nat) (fmField : FMField) (var : FMVarInfo),
      b.fieldList[field]? = some fmField → b.varList[field]? = some var →
        ReadersAgree b.fieldList field fmField.fieldType.bytes var) ↔
      ∀ b ∈ f.bodies, ∀ (field : Nat) (fmField : FMField), b.fieldList[field]? = some fmField →
        ReadAlike b.fieldList field fmField.fieldType.bytes := by
  constructor
  · intro hall b hb field fmField hfield
    obtain ⟨sub, recursive, chain, hentry⟩ :=
      (acceptedFields_of_registerFormats h hb).field field fmField hfield
    exact (readersAgree_iff hentry hentry.varList).mp
      (hall b hb field fmField _ hfield hentry.varList)
  · intro hall b hb field fmField var hfield hvar
    obtain ⟨sub, recursive, chain, hentry⟩ :=
      (acceptedFields_of_registerFormats h hb).field field fmField hfield
    exact (readersAgree_iff hentry hvar).mpr (hall b hb field fmField hfield)

theorem readersAgree_iff_readAlike_path : registerFormats false false pathList = some pathFormat ∧
    ∀ b ∈ pathFormat.bodies, ∀ (field : Nat) (fmField : FMField) (var : FMVarInfo),
      b.fieldList[field]? = some fmField → b.varList[field]? = some var →
        ReadersAgree b.fieldList field fmField.fieldType.bytes var := by
  refine ⟨registerFormats_pathList, (readersAgree_iff_readAlike registerFormats_pathList).mpr
    fun b hb field fmField hfield => ?_⟩
  have hfacts : ∀ b ∈ pathFormat.bodies, ∀ p ∈ b.fieldList.zipIdx,
      (bracketTexts p.1.fieldType.bytes = [] ∨
        bracketTexts p.1.fieldType.bytes = [chars ['n', ']']] ∧
          (textDimension b.fieldList p.2 (chars ['n', ']'])).1 = -1) ∧
      ∀ pieces ∈ fieldPieces p.1.fieldType.bytes,
        pieces.flatMap (pieceDimensions b.fieldList p.2) =
            (arrayDimensions b.fieldList p.2 p.1.fieldType.bytes).takeWhile (·.1 ≠ 0) ∧
          (-1, -1) ∉ (arrayDimensions b.fieldList p.2 p.1.fieldType.bytes).takeWhile (·.1 ≠ 0) := by
    decide
  obtain ⟨htexts, hpieces⟩ := hfacts b hb (fmField, field) (List.mem_zipIdx_iff_getElem?.mpr hfield)
  refine ⟨?_, fun _ => hpieces⟩
  rcases htexts with htexts | ⟨htexts, hcontrol⟩
  · exact .inl (by rw [htexts]; exact ⟨fun _ h => absurd h List.not_mem_nil, by decide⟩)
  · rw [htexts]
    exact .inr ⟨⟨[], _, [], rfl, fun _ h => absurd h List.not_mem_nil, by decide⟩,
      ⟨_, List.mem_singleton_self _, by decide⟩, ⟨_, List.mem_singleton_self _, hcontrol⟩⟩

end

/-! ## Example -/

/-- An array of `010` elements. -/
def octalArrayList : List FMStructDesc :=
  [{ formatName := cstr ['s'] (.refl false),
     fieldList :=
       [{ fieldName := cstr ['a'] (.refl false),
          fieldType :=
            cstr ['i', 'n', 't', 'e', 'g', 'e', 'r', '[', '0', '1', '0', ']'] (.refl false),
          fieldSize := 4, fieldOffset := 0 }],
     structSize := 40, optInfo := [] }]

/-- The list is accepted with ten elements for `FMarray_str_to_data_type` and eight for
`IOget_array_size_dimen`. -/
theorem octalArrayList_not_readersAgree :
    ∃ f, registerFormats false false octalArrayList = some f ∧
      ¬ ∀ b ∈ f.bodies, ∀ (field : Nat) (fmField : FMField) (var : FMVarInfo),
        b.fieldList[field]? = some fmField → b.varList[field]? = some var →
          ReadersAgree b.fieldList field fmField.fieldType.bytes var := by
  have hsome : (registerFormats false false octalArrayList).any (fun f =>
      f.top.fieldList.map (fun fmField => ((arrayStrToDataType fmField.fieldType.bytes).2,
        arrayDimensions f.top.fieldList 0 fmField.fieldType.bytes)) = [(10, [(8, -1)])] ∧
        f.top.varList.length = 1) = true := by decide
  obtain ⟨f, hf, hfacts⟩ := (Option.any_eq_true _ _).mp hsome
  obtain ⟨hread, hlength⟩ := of_decide_eq_true hfacts
  refine ⟨f, hf, fun hall => ?_⟩
  have hvar := List.getElem?_eq_getElem (by omega : 0 < f.top.varList.length)
  obtain ⟨fmField, hfield⟩ : ∃ fmField, f.top.fieldList[0]? = some fmField := by
    cases hfields : f.top.fieldList with
    | nil =>
      rw [hfields] at hread
      cases hread
    | cons fmField fields => exact ⟨fmField, rfl⟩
  have hentry := congrArg (·[0]?) hread
  simp only [List.getElem?_map, hfield, Option.map_some, List.getElem?_cons_zero,
    Option.some.injEq, Prod.mk.injEq] at hentry
  have hcount := (hall f.top List.mem_cons_self 0 fmField _ hfield hvar).count
  rw [hentry.1, hentry.2] at hcount
  exact absurd hcount (by decide)

end FFS
