import FFS.Convert.ScalarField

/-!
# The halves of a wide integer

`getFMlong8` and `getFMulong8` give a number of up to 16 bytes as two `long`s, on a host of
either byte order.  A getter takes the place `a` of the field, which is the record and the
field's offset.  `none` is an exit of the process or a failed assertion.
-/

namespace FFS

open Machine

namespace ByHost

/-- A `memcpy` of `n` bytes, `byte_swap` if the field asks for it, and the load of the host. -/
def load (wordsBigendian : Bool) (field : FMgetField) (m : Mem) (a n : Nat) : Nat :=
  getValue wordsBigendian (if field.byteSwap then (m.read a n).reverse else m.read a n)

/-- `low_bytes_offset` in the getters of one `long`. -/
def lowBytes (wordsBigendian : Bool) (field : FMgetField) (a : Nat) : Nat :=
  if wordsBigendian then if field.byteSwap then a else a + 8
  else if field.byteSwap then a + 8 else a

/-- `get_big_int` on an integer field. -/
def loadInteger (wordsBigendian : Bool) (field : FMgetField) (m : Mem) (a : Nat) : Int :=
  if field.size = 1 then signed 1 (getValue wordsBigendian (m.read a 1))
  else if field.size = 2 then signed 2 (load wordsBigendian field m a 2)
  else if field.size = 4 then signed 4 (load wordsBigendian field m a 4)
  else if field.size = 8 then signed 8 (load wordsBigendian field m a 8)
  else if field.size = 16 then
    signed 8 (load wordsBigendian field m (lowBytes wordsBigendian field a) 8)
  else -1

/-- `get_big_unsigned` on an unsigned, enumeration or boolean field. -/
def loadUnsigned (wordsBigendian : Bool) (field : FMgetField) (m : Mem) (a : Nat) : Nat :=
  if field.size = 1 then getValue wordsBigendian (m.read a 1)
  else if field.size = 2 then load wordsBigendian field m a 2
  else if field.size = 4 then load wordsBigendian field m a 4
  else if field.size = 8 then load wordsBigendian field m a 8
  else if field.size = 16 then
    load wordsBigendian field m (lowBytes wordsBigendian field a) 8
  else 0

/-- `get_big_int` -/
def getBigInt (wordsBigendian : Bool) (floats : FloatUnit) (field : FMgetField) (m : Mem)
    (a : Nat) : Option Int :=
  match field.dataType with
  | .integerType => some (loadInteger wordsBigendian field m a)
  | .unsignedType => some (signed 8 (loadUnsigned wordsBigendian field m a))
  | .floatType => some (signed 8 (floats.toLong field (m.read a field.size.toNatClampNeg)))
  | .unknownType | .charType | .stringType | .enumerationType | .booleanType => none

/-- `get_big_unsigned` -/
def getBigUnsigned (wordsBigendian : Bool) (floats : FloatUnit) (field : FMgetField) (m : Mem)
    (a : Nat) : Option Nat :=
  match field.dataType with
  | .unsignedType | .enumerationType | .booleanType =>
    some (loadUnsigned wordsBigendian field m a)
  | .integerType => some (unsigned 8 (loadInteger wordsBigendian field m a))
  | .floatType => some (floats.toLong field (m.read a field.size.toNatClampNeg))
  | .unknownType | .charType | .stringType => none

/-- `get_FMlong`, whose result is a `size_t`. -/
def getFMlong (wordsBigendian : Bool) (floats : FloatUnit) (field : FMgetField) (m : Mem)
    (a : Nat) : Option Nat :=
  (getBigInt wordsBigendian floats field m a).map (unsigned 8)

/-- `get_FMulong` -/
def getFMulong (wordsBigendian : Bool) (floats : FloatUnit) (field : FMgetField) (m : Mem)
    (a : Nat) : Option Nat :=
  getBigUnsigned wordsBigendian floats field m a

end ByHost

/-- What a getter of two halves has stored: the low half, and the high half if it was given a
place for it. -/
structure Halves where
  lowLong : Nat
  highLong : Option Int
deriving DecidableEq

open ByHost

/-- `get_FMlong8`.  `highLong` says that `high_long` is not null. -/
def getFMlong8 (wordsBigendian : Bool) (floats : FloatUnit) (field : FMgetField) (m : Mem)
    (a : Nat) (highLong : Bool) : Option Halves :=
  match field.dataType with
  | .integerType =>
    if field.size = 16 then do
      let lowOffset := if wordsBigendian then if field.byteSwap then a else a + 8
        else if field.byteSwap then a + 8 else a
      let highOffset := if wordsBigendian then if field.byteSwap then a + 8 else a
        else if field.byteSwap then a else a + 8
      let tmpField := { field with size := 8 }
      let low ← getFMulong wordsBigendian floats tmpField m lowOffset
      if highLong then do
        let high ← getFMlong wordsBigendian floats tmpField m highOffset
        return ⟨low, some (signed 8 high)⟩
      else return ⟨low, none⟩
    else do
      let low ← getFMlong wordsBigendian floats field m a
      return ⟨low, if highLong then some 0 else none⟩
  | .floatType =>
    some ⟨floats.toLong field (m.read a field.size.toNatClampNeg),
      if highLong then some 0 else none⟩
  | .unknownType | .unsignedType | .charType | .stringType | .enumerationType
  | .booleanType => none

/-- `get_FMulong8`, which fails its assertion on an integer field. -/
def getFMulong8 (wordsBigendian : Bool) (floats : FloatUnit) (field : FMgetField) (m : Mem)
    (a : Nat) (highLong : Bool) : Option Halves :=
  match field.dataType with
  | .unsignedType =>
    if field.size = 16 then do
      let lowOffset := if wordsBigendian then if field.byteSwap then a else a + 8
        else if field.byteSwap then a else a + 8
      let highOffset := if wordsBigendian then if field.byteSwap then a + 8 else a
        else if field.byteSwap then a + 8 else a
      let tmpField := { field with size := 8 }
      let low ← getFMulong wordsBigendian floats tmpField m lowOffset
      if highLong then do
        let high ← getFMulong wordsBigendian floats tmpField m highOffset
        return ⟨low, some high⟩
      else return ⟨low, none⟩
    else do
      let low ← getFMulong wordsBigendian floats field m a
      return ⟨low, if highLong then some 0 else none⟩
  | .floatType =>
    some ⟨floats.toLong field (m.read a field.size.toNatClampNeg),
      if highLong then some 0 else none⟩
  | .unknownType | .integerType | .charType | .stringType | .enumerationType
  | .booleanType => none

/-! ## The value and its halves -/

/-- The number that a field holds, in a record whose high bytes come first or last. -/
def fieldValue (wordsBigendian : Bool) (field : FMgetField) (m : Mem) (a : Nat) : Int :=
  let n := field.size.toNatClampNeg
  let pattern := getValue (wordsBigendian != field.byteSwap) (m.read a n)
  if field.dataType = .integerType then signed n pattern else pattern

/-- The getter gives the low and the high half of the value. -/
def GivesHalves (get : Bool → Option Halves) (value : Int) : Prop :=
  (∃ low : Nat, ∃ high : Int, get true = some ⟨low, some high⟩ ∧ low < 2 ^ 64 ∧
    high * 2 ^ 64 + low = value) ∧
  ∃ low : Nat, get false = some ⟨low, none⟩ ∧ (low : Int) = value % 2 ^ 64

/-- The sizes of C's integers. -/
def LongSize (field : FMgetField) : Prop :=
  field.size = 1 ∨ field.size = 2 ∨ field.size = 4 ∨ field.size = 8

theorem load_eq (wordsBigendian : Bool) (field : FMgetField) (m : Mem) (a n : Nat) :
    load wordsBigendian field m a n =
      getValue (wordsBigendian != field.byteSwap) (m.read a n) := by
  unfold load
  cases wordsBigendian <;> cases field.byteSwap <;>
    simp [getValue, beValue]

/-- The pattern of 16 bytes from its two halves. -/
theorem getValue_halves (highFirst : Bool) (m : Mem) (a : Nat) :
    getValue highFirst (m.read a 16) =
      if highFirst then getValue highFirst (m.read a 8) * 2 ^ 64 +
        getValue highFirst (m.read (a + 8) 8)
      else getValue highFirst (m.read (a + 8) 8) * 2 ^ 64 + getValue highFirst (m.read a 8) := by
  have hread : m.read a 16 = m.read a 8 ++ m.read (a + 8) 8 := Mem.read_add m a 8 8
  cases highFirst with
  | true =>
    rw [if_pos rfl, getValue, getValue, getValue, if_pos rfl, if_pos rfl, if_pos rfl, beValue,
      beValue, beValue, hread, List.reverse_append, leValue_append, List.length_reverse,
      Mem.length_read]
    ring
  | false =>
    rw [if_neg Bool.false_ne_true, getValue, getValue, getValue, if_neg Bool.false_ne_true,
      if_neg Bool.false_ne_true, if_neg Bool.false_ne_true, hread, leValue_append,
      Mem.length_read]
    ring

/-- The sign of a value is the sign of its high half. -/
theorem signed_halves {high low : Nat} (hlow : low < 256 ^ 8) :
    signed 16 (high * 2 ^ 64 + low) = signed 8 high * 2 ^ 64 + low := by
  simp only [signed, Int.bmod_def]
  push_cast
  split
  · split
    · omega
    · omega
  · split
    · omega
    · omega

/-! ## The two getters -/

/-- The condition on the two halves that are stored. -/
theorem givesHalves_iff {get : Bool → Option Halves} {low : Nat} {high value : Int}
    (hget : ∀ b, get b = some ⟨low, if b then some high else none⟩) (hlow : low < 2 ^ 64) :
    GivesHalves get value ↔ high * 2 ^ 64 + low = value := by
  constructor
  · rintro ⟨⟨low', high', hboth, -, hvalue⟩, -⟩
    rw [hget] at hboth
    cases hboth
    exact hvalue
  · intro hvalue
    refine ⟨⟨low, high, hget true, hlow, hvalue⟩, low, hget false, ?_⟩
    omega

theorem getValue_word_lt (highFirst : Bool) (m : Mem) (a : Nat) :
    getValue highFirst (m.read a 8) < 256 ^ 8 := by
  have h := getValue_lt highFirst (m.read a 8)
  rwa [Mem.length_read] at h

theorem loadInteger_word (wordsBigendian : Bool) {field : FMgetField} (hsize : field.size = 8)
    (m : Mem) (a : Nat) : ByHost.loadInteger wordsBigendian field m a =
      signed 8 (getValue (wordsBigendian != field.byteSwap) (m.read a 8)) := by
  rw [← load_eq, ByHost.loadInteger, hsize, if_neg (by decide), if_neg (by decide),
    if_neg (by decide), if_pos rfl]

theorem loadUnsigned_word (wordsBigendian : Bool) {field : FMgetField} (hsize : field.size = 8)
    (m : Mem) (a : Nat) : ByHost.loadUnsigned wordsBigendian field m a =
      getValue (wordsBigendian != field.byteSwap) (m.read a 8) := by
  rw [← load_eq, ByHost.loadUnsigned, hsize, if_neg (by decide), if_neg (by decide),
    if_neg (by decide), if_pos rfl]

/-- A number of one `long` is its pattern. -/
theorem getFMulong_word (wordsBigendian : Bool) (floats : FloatUnit) {field : FMgetField}
    (htype : field.dataType = .integerType ∨ field.dataType = .unsignedType)
    (hsize : field.size = 8) (m : Mem) (a : Nat) : getFMulong wordsBigendian floats field m a =
      some (getValue (wordsBigendian != field.byteSwap) (m.read a 8)) := by
  have hlt := getValue_word_lt (wordsBigendian != field.byteSwap) m a
  cases htype with
  | inl hint =>
    simp only [getFMulong, ByHost.getBigUnsigned, hint, loadInteger_word wordsBigendian hsize]
    rw [unsigned_signed (Nat.le_refl 8), Nat.mod_eq_of_lt hlt]
  | inr hunsigned =>
    simp only [getFMulong, ByHost.getBigUnsigned, hunsigned,
      loadUnsigned_word wordsBigendian hsize]

theorem getFMlong_word (wordsBigendian : Bool) (floats : FloatUnit) {field : FMgetField}
    (htype : field.dataType = .integerType) (hsize : field.size = 8) (m : Mem) (a : Nat) :
    getFMlong wordsBigendian floats field m a =
      some (getValue (wordsBigendian != field.byteSwap) (m.read a 8)) := by
  have hlt := getValue_word_lt (wordsBigendian != field.byteSwap) m a
  simp only [getFMlong, ByHost.getBigInt, htype, loadInteger_word wordsBigendian hsize,
    Option.map_some]
  rw [unsigned_signed (Nat.le_refl 8), Nat.mod_eq_of_lt hlt]

/-- The two halves of a wide integer come from where the order of the record has them. -/
theorem getFMlong8_wide (wordsBigendian : Bool) (floats : FloatUnit) {field : FMgetField}
    (htype : field.dataType = .integerType) (hsize : field.size = 16) (m : Mem) (a : Nat)
    (highLong : Bool) :
    let highFirst := wordsBigendian != field.byteSwap
    getFMlong8 wordsBigendian floats field m a highLong =
      some ⟨getValue highFirst (m.read (if highFirst then a + 8 else a) 8),
        if highLong then
          some (signed 8 (getValue highFirst (m.read (if highFirst then a else a + 8) 8)))
        else none⟩ := by
  have hlow :=
    @getFMulong_word wordsBigendian floats { field with size := 8 } (.inl htype) rfl m
  have hhigh := @getFMlong_word wordsBigendian floats { field with size := 8 } htype rfl m
  simp only [getFMlong8, htype, hsize, if_true] at hlow hhigh ⊢
  rw [hlow, hhigh]
  cases wordsBigendian <;> cases field.byteSwap <;> cases highLong <;> rfl

/-- Those of a wide unsigned number come from where a big endian host would have them. -/
theorem getFMulong8_wide (wordsBigendian : Bool) (floats : FloatUnit) {field : FMgetField}
    (htype : field.dataType = .unsignedType) (hsize : field.size = 16) (m : Mem) (a : Nat)
    (highLong : Bool) :
    let highFirst := wordsBigendian != field.byteSwap
    getFMulong8 wordsBigendian floats field m a highLong =
      some ⟨getValue highFirst (m.read (if field.byteSwap then a else a + 8) 8),
        if highLong then
          some (getValue highFirst (m.read (if field.byteSwap then a + 8 else a) 8))
        else none⟩ := by
  have hword :=
    @getFMulong_word wordsBigendian floats { field with size := 8 } (.inr htype) rfl m
  simp only [getFMulong8, htype, hsize, if_true] at hword ⊢
  rw [hword, hword]
  cases wordsBigendian <;> cases field.byteSwap <;> cases highLong <;> rfl

/-- The value of a field of one of C's sizes. -/
theorem loadInteger_eq (wordsBigendian : Bool) {field : FMgetField}
    (htype : field.dataType = .integerType) (hsize : LongSize field) (m : Mem) (a : Nat) :
    ByHost.loadInteger wordsBigendian field m a = fieldValue wordsBigendian field m a := by
  obtain h | h | h | h := hsize
  · simp only [ByHost.loadInteger, fieldValue, htype, h, if_true]
    cases wordsBigendian <;> cases field.byteSwap <;> rfl
  · simp [ByHost.loadInteger, fieldValue, htype, h, load_eq]
  · simp [ByHost.loadInteger, fieldValue, htype, h, load_eq]
  · simp [ByHost.loadInteger, fieldValue, htype, h, load_eq]

theorem loadUnsigned_eq (wordsBigendian : Bool) {field : FMgetField}
    (htype : field.dataType = .unsignedType) (hsize : LongSize field) (m : Mem) (a : Nat) :
    (ByHost.loadUnsigned wordsBigendian field m a : Int) = fieldValue wordsBigendian field m a := by
  obtain h | h | h | h := hsize
  · simp only [ByHost.loadUnsigned, fieldValue, htype, h, if_true]
    cases wordsBigendian <;> cases field.byteSwap <;> rfl
  · simp [ByHost.loadUnsigned, fieldValue, htype, h, load_eq]
  · simp [ByHost.loadUnsigned, fieldValue, htype, h, load_eq]
  · simp [ByHost.loadUnsigned, fieldValue, htype, h, load_eq]

/-- A size that the ladders lack, 16 apart, is loaded as -1 or 0. -/
theorem load_unknown (wordsBigendian : Bool) {field : FMgetField} (hsize : ¬ LongSize field)
    (hwide : field.size ≠ 16) (m : Mem) (a : Nat) :
    ByHost.loadInteger wordsBigendian field m a = -1 ∧
      ByHost.loadUnsigned wordsBigendian field m a = 0 := by
  unfold LongSize at hsize
  push Not at hsize
  constructor
  · rw [ByHost.loadInteger, if_neg hsize.1, if_neg hsize.2.1, if_neg hsize.2.2.1,
      if_neg hsize.2.2.2, if_neg hwide]
  · rw [ByHost.loadUnsigned, if_neg hsize.1, if_neg hsize.2.1, if_neg hsize.2.2.1,
      if_neg hsize.2.2.2, if_neg hwide]

theorem getFMlong8_narrow (wordsBigendian : Bool) (floats : FloatUnit) {field : FMgetField}
    (htype : field.dataType = .integerType) (hwide : field.size ≠ 16) (m : Mem) (a : Nat)
    (highLong : Bool) : getFMlong8 wordsBigendian floats field m a highLong =
      some ⟨unsigned 8 (ByHost.loadInteger wordsBigendian field m a),
        if highLong then some 0 else none⟩ := by
  simp only [getFMlong8, htype, if_neg hwide, getFMlong, ByHost.getBigInt, Option.map_some]
  rfl

theorem getFMulong8_narrow (wordsBigendian : Bool) (floats : FloatUnit) {field : FMgetField}
    (htype : field.dataType = .unsignedType) (hwide : field.size ≠ 16) (m : Mem) (a : Nat)
    (highLong : Bool) : getFMulong8 wordsBigendian floats field m a highLong =
      some ⟨ByHost.loadUnsigned wordsBigendian field m a,
        if highLong then some 0 else none⟩ := by
  simp only [getFMulong8, htype, if_neg hwide, getFMulong, ByHost.getBigUnsigned]
  rfl

theorem loadUnsigned_lt (wordsBigendian : Bool) (field : FMgetField) (m : Mem) (a : Nat) :
    ByHost.loadUnsigned wordsBigendian field m a < 2 ^ 64 := by
  have hlt : ∀ b n, n ≤ 8 → load wordsBigendian field m b n < 2 ^ 64 := by
    intro b n hn
    have hpow : 256 ^ n ≤ 256 ^ 8 := Nat.pow_le_pow_right (by decide) hn
    have h := getValue_lt (wordsBigendian != field.byteSwap) (m.read b n)
    rw [Mem.length_read] at h
    rw [load_eq]
    omega
  have hone := getValue_lt wordsBigendian (m.read a 1)
  rw [Mem.length_read] at hone
  unfold ByHost.loadUnsigned
  split
  · omega
  split
  · exact hlt a 2 (by decide)
  split
  · exact hlt a 4 (by decide)
  split
  · exact hlt a 8 (by decide)
  split
  · exact hlt _ 8 (by decide)
  · decide

/-- The halves of 16 bytes, with the sign of an integer. -/
theorem fieldValue_wide (wordsBigendian : Bool) {field : FMgetField} (hsize : field.size = 16)
    (m : Mem) (a : Nat) :
    let highFirst := wordsBigendian != field.byteSwap
    let high := getValue highFirst (m.read (if highFirst then a else a + 8) 8)
    let low := getValue highFirst (m.read (if highFirst then a + 8 else a) 8)
    fieldValue wordsBigendian field m a =
      (if field.dataType = .integerType then signed 8 high else high) * 2 ^ 64 + low := by
  intro highFirst high low
  have hn : field.size.toNatClampNeg = 16 := by
    rw [hsize]
    rfl
  have hpattern : getValue highFirst (m.read a 16) = high * 2 ^ 64 + low := by
    rw [getValue_halves]
    cases hfirst : highFirst with
    | true => simp only [high, low, hfirst, if_true]
    | false => simp only [high, low, hfirst, Bool.false_eq_true, if_false]
  simp only [fieldValue, hn]
  rw [hpattern]
  split
  · exact signed_halves (getValue_word_lt _ m _)
  · push_cast
    rfl

/-- An integer is given right but for the high half of a negative `long`, which is zero. -/
def LongHalvesRight (wordsBigendian : Bool) (field : FMgetField) (m : Mem) (a : Nat) : Prop :=
  field.dataType = .integerType ∧
    (field.size = 16 ∨ LongSize field ∧ 0 ≤ fieldValue wordsBigendian field m a ∨
      ¬ LongSize field ∧ fieldValue wordsBigendian field m a = 2 ^ 64 - 1)

/-- An unsigned number of 16 bytes is given right on a big endian host. -/
def UlongHalvesRight (wordsBigendian : Bool) (field : FMgetField) (m : Mem) (a : Nat) : Prop :=
  field.dataType = .unsignedType ∧
    if field.size = 16 then
      wordsBigendian = true ∨
        fieldValue wordsBigendian field m a / 2 ^ 64 =
          fieldValue wordsBigendian field m a % 2 ^ 64
    else LongSize field ∨ fieldValue wordsBigendian field m a = 0

theorem fieldValue_lt (wordsBigendian : Bool) {field : FMgetField}
    (htype : field.dataType = .integerType) (hsize : LongSize field) (m : Mem) (a : Nat) :
    fieldValue wordsBigendian field m a < 2 ^ 64 := by
  have hlt : ∀ n v, 0 < n → n ≤ 8 → signed n v < 2 ^ 64 := by
    intro n v hpos hn
    have hpow : 256 ^ n ≤ 256 ^ 8 := Nat.pow_le_pow_right (by decide) hn
    have h := @Int.bmod_lt v (256 ^ n) (Nat.pow_pos (by decide))
    unfold signed
    omega
  simp only [fieldValue, htype, if_true]
  obtain h | h | h | h := hsize <;> rw [h] <;> exact hlt _ _ (by decide) (by decide)

theorem getFMlong8_right (wordsBigendian : Bool) (floats : FloatUnit) {field : FMgetField}
    (htype : field.dataType = .integerType) (m : Mem) (a : Nat) :
    GivesHalves (getFMlong8 wordsBigendian floats field m a)
      (fieldValue wordsBigendian field m a) ↔ LongHalvesRight wordsBigendian field m a := by
  by_cases hsize : field.size = 16
  · have hget := getFMlong8_wide wordsBigendian floats htype hsize m a
    have hvalue := fieldValue_wide wordsBigendian hsize m a
    dsimp only at hvalue
    rw [if_pos htype] at hvalue
    refine iff_of_true ?_ ⟨htype, .inl hsize⟩
    exact (givesHalves_iff hget (getValue_word_lt _ m _)).mpr hvalue.symm
  · have hget := getFMlong8_narrow wordsBigendian floats htype hsize m a
    rw [givesHalves_iff hget (unsigned_lt 8 _), Int.zero_mul, Int.zero_add, LongHalvesRight]
    by_cases hlong : LongSize field
    · have hlt := fieldValue_lt wordsBigendian htype hlong m a
      rw [loadInteger_eq wordsBigendian htype hlong, unsigned]
      simp only [htype, hsize, hlong, true_and, false_or, not_true_eq_false, false_and, or_false]
      omega
    · rw [(load_unknown wordsBigendian hlong hsize m a).1]
      simp only [htype, hsize, hlong, true_and, false_or, not_false_eq_true, false_and]
      have hminus : (unsigned 8 (-1) : Int) = 2 ^ 64 - 1 := by decide
      rw [hminus]
      exact eq_comm

theorem getFMulong8_right (wordsBigendian : Bool) (floats : FloatUnit) {field : FMgetField}
    (htype : field.dataType = .unsignedType) (m : Mem) (a : Nat) :
    GivesHalves (getFMulong8 wordsBigendian floats field m a)
      (fieldValue wordsBigendian field m a) ↔ UlongHalvesRight wordsBigendian field m a := by
  have hother : field.dataType ≠ .integerType := by
    rw [htype]
    decide
  by_cases hsize : field.size = 16
  · have hget := getFMulong8_wide wordsBigendian floats htype hsize m a
    have hvalue := fieldValue_wide wordsBigendian hsize m a
    dsimp only at hvalue
    rw [if_neg hother] at hvalue
    rw [givesHalves_iff hget (getValue_word_lt _ m _), UlongHalvesRight, if_pos hsize, hvalue]
    have hfront := getValue_word_lt (wordsBigendian != field.byteSwap) m a
    have hback := getValue_word_lt (wordsBigendian != field.byteSwap) m (a + 8)
    -- The two orders agree on a big endian host only.
    cases wordsBigendian with
    | true =>
      refine iff_of_true ?_ ⟨htype, .inl rfl⟩
      cases field.byteSwap <;> rfl
    | false =>
      simp only [htype, true_and, Bool.false_eq_true, false_or]
      cases hswap : field.byteSwap with
      | true =>
        simp only [hswap, Bool.false_bne, if_true] at hfront hback ⊢
        omega
      | false =>
        simp only [hswap, Bool.false_bne, Bool.false_eq_true, if_false] at hfront hback ⊢
        omega
  · have hget := getFMulong8_narrow wordsBigendian floats htype hsize m a
    rw [givesHalves_iff hget (loadUnsigned_lt wordsBigendian field m a), Int.zero_mul,
      Int.zero_add, UlongHalvesRight, if_neg hsize]
    by_cases hlong : LongSize field
    · rw [loadUnsigned_eq wordsBigendian htype hlong]
      exact iff_of_true rfl ⟨htype, .inl hlong⟩
    · rw [(load_unknown wordsBigendian hlong hsize m a).2]
      simp only [htype, hlong, true_and, false_or, Int.natCast_zero]
      exact eq_comm

/-- Where each of the two getters gives the halves of the value.  An integer is not for
`getFMulong8`, nor an unsigned number for `getFMlong8`. -/
theorem wide_halves (wordsBigendian : Bool) (floats : FloatUnit) {field : FMgetField}
    (htype : field.dataType = .integerType ∨ field.dataType = .unsignedType) (m : Mem) (a : Nat) :
    (GivesHalves (getFMlong8 wordsBigendian floats field m a)
      (fieldValue wordsBigendian field m a) ↔ LongHalvesRight wordsBigendian field m a) ∧
    (GivesHalves (getFMulong8 wordsBigendian floats field m a)
      (fieldValue wordsBigendian field m a) ↔ UlongHalvesRight wordsBigendian field m a) := by
  cases htype with
  | inl hint =>
    refine ⟨getFMlong8_right wordsBigendian floats hint m a, iff_of_false ?_ ?_⟩
    · rintro ⟨⟨low, high, hget, -⟩, -⟩
      simp only [getFMulong8, hint] at hget
      cases hget
    · rintro ⟨hunsigned, -⟩
      rw [hint] at hunsigned
      cases hunsigned
  | inr hunsigned =>
    refine ⟨iff_of_false ?_ ?_, getFMulong8_right wordsBigendian floats hunsigned m a⟩
    · rintro ⟨⟨low, high, hget, -⟩, -⟩
      simp only [getFMlong8, hunsigned] at hget
      cases hget
    · rintro ⟨hint, -⟩
      rw [hunsigned] at hint
      cases hint

/-- An unsigned number of 16 bytes in the order of the host. -/
def wideUnsigned : FMgetField :=
  { offset := 0, size := 16, dataType := .unsignedType, byteSwap := false,
    srcFloatFormat := 1, targetFloatFormat := 1 }

theorem wide_halves_wideUnsigned :
    (GivesHalves (getFMlong8 false noFloats wideUnsigned (fun _ => 0) 0)
      (fieldValue false wideUnsigned (fun _ => 0) 0) ↔
        LongHalvesRight false wideUnsigned (fun _ => 0) 0) ∧
    (GivesHalves (getFMulong8 false noFloats wideUnsigned (fun _ => 0) 0)
      (fieldValue false wideUnsigned (fun _ => 0) 0) ↔
        UlongHalvesRight false wideUnsigned (fun _ => 0) 0) :=
  wide_halves false noFloats (.inr rfl) (fun _ => 0) 0

/-- The number one comes out as a high half of one. -/
theorem wideUnsigned_exchanged :
    getFMulong8 false noFloats wideUnsigned (fun x => if x = 0 then 1 else 0) 0 true =
      some ⟨0, some 1⟩ ∧
    fieldValue false wideUnsigned (fun x => if x = 0 then 1 else 0) 0 = 1 ∧
    ¬ GivesHalves (getFMulong8 false noFloats wideUnsigned (fun x => if x = 0 then 1 else 0) 0)
      (fieldValue false wideUnsigned (fun x => if x = 0 then 1 else 0) 0) := by
  have hget : getFMulong8 false noFloats wideUnsigned (fun x => if x = 0 then 1 else 0) 0 true =
      some ⟨0, some 1⟩ := by decide
  have hvalue : fieldValue false wideUnsigned (fun x => if x = 0 then 1 else 0) 0 = 1 := by decide
  refine ⟨hget, hvalue, ?_⟩
  rintro ⟨⟨low, high, hboth, -, hsum⟩, -⟩
  rw [hget] at hboth
  rw [hvalue] at hsum
  cases hboth
  omega

end FFS
