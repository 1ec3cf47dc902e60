import FFS.Convert.Conversion
import FFS.Machine.Mem

/-!
# Converting one scalar

`ffsInternalConvertField` is `ffs_internal_convert_field` on a host whose `long` has 8 bytes and
whose low bytes come first.  It copies, with the bytes swapped if the source has the other order,
when the sizes agree, and otherwise loads the value and stores it in the new size.  `none` is an
exit of the process or a failed assertion.
-/

namespace FFS

open Machine

/-- The floating point of the host: a float as a `long` (as a pattern of 64 bits), and a field
stored as a float of another size. -/
structure FloatUnit where
  toLong : FMgetField → List UInt8 → Nat
  store : FMgetField → List UInt8 → Int32 → List UInt8

/-- The place of the low half of a value of 16 bytes. -/
def lowHalf (field : FMgetField) (a : Nat) : Nat := if field.byteSwap then a + 8 else a

/-- `get_big_int` on an integer field. -/
def loadInteger (field : FMgetField) (m : Mem) (a : Nat) : Int :=
  if field.size = 1 then signed 1 (leValue (m.read a 1))
  else if field.size = 2 then signed 2 (getValue field.byteSwap (m.read a 2))
  else if field.size = 4 then signed 4 (getValue field.byteSwap (m.read a 4))
  else if field.size = 8 then signed 8 (getValue field.byteSwap (m.read a 8))
  else if field.size = 16 then
    signed 8 (getValue field.byteSwap (m.read (lowHalf field a) 8))
  else -1

/-- `get_big_unsigned` on an unsigned, enumeration or boolean field. -/
def loadUnsigned (field : FMgetField) (m : Mem) (a : Nat) : Nat :=
  if field.size = 1 then leValue (m.read a 1)
  else if field.size = 2 then getValue field.byteSwap (m.read a 2)
  else if field.size = 4 then getValue field.byteSwap (m.read a 4)
  else if field.size = 8 then getValue field.byteSwap (m.read a 8)
  else if field.size = 16 then getValue field.byteSwap (m.read (lowHalf field a) 8)
  else 0

/-- Both read the same bytes. -/
theorem loadInteger_congr {field field' : FMgetField} {m m' : Mem} {a a' : Nat}
    (hsize : field'.size = field.size) (h : loadUnsigned field m a = loadUnsigned field' m' a') :
    loadInteger field m a = loadInteger field' m' a' := by
  unfold loadUnsigned at h
  unfold loadInteger
  rw [hsize] at h ⊢
  split_ifs at h ⊢ <;> simp only [h]

/-- `get_big_int`, which exits on the other data types. -/
def getBigInt (floats : FloatUnit) (field : FMgetField) (m : Mem) (a : Nat) : Option Int :=
  match field.dataType with
  | .integerType => some (loadInteger field m a)
  | .unsignedType => some (signed 8 (loadUnsigned field m a))
  | .floatType => some (signed 8 (floats.toLong field (m.read a field.size.toNatClampNeg)))
  | .unknownType | .charType | .stringType | .enumerationType | .booleanType => none

/-- `get_big_unsigned`, which exits on the other data types. -/
def getBigUnsigned (floats : FloatUnit) (field : FMgetField) (m : Mem) (a : Nat) : Option Nat :=
  match field.dataType with
  | .unsignedType | .enumerationType | .booleanType => some (loadUnsigned field m a)
  | .integerType => some (unsigned 8 (loadInteger field m a))
  | .floatType => some (floats.toLong field (m.read a field.size.toNatClampNeg))
  | .unknownType | .charType | .stringType => none

/-- The stores of an integer by size.  No size of 16 is among them, a `long long` being as long
as a `long`. -/
def storeInteger (destSize : Int32) (tmp : Int) : List UInt8 :=
  if destSize = 1 then leBytes 1 (unsigned 1 tmp)
  else if destSize = 2 then leBytes 2 (unsigned 2 tmp)
  else if destSize = 4 then leBytes 4 (unsigned 4 tmp)
  else if destSize = 8 then leBytes 8 (unsigned 8 tmp)
  else []

/-- The switch over the types of the destination: the bytes that are stored. -/
def convertValue (floats : FloatUnit) (field : FMgetField) (destType : FMDataType)
    (destSize : Int32) (m : Mem) (a : Nat) : Option (List UInt8) :=
  match destType with
  | .integerType => (getBigInt floats field m a).map (storeInteger destSize)
  | .charType => (getBigInt floats field m a).map fun tmp => leBytes 1 (unsigned 1 tmp)
  | .booleanType | .enumerationType =>
    (getBigInt floats field m a).map fun tmp => leBytes 4 (unsigned 4 tmp)
  | .unsignedType =>
    (getBigUnsigned floats field m a).map fun (tmp : Nat) => storeInteger destSize tmp
  | .floatType => some (floats.store field (m.read a field.size.toNatClampNeg) destSize)
  | .unknownType | .stringType => none

/-- `ffs_reverse_float_formats` -/
def ffsReverseFloatFormats : Nat → Nat
  | 1 => 2
  | 2 => 1
  | _ => formatUnknown

/-- A float is copied when its format, in the order it is copied in, is the target's. -/
def floatOK (field : FMgetField) (destType : FMDataType) : Bool :=
  if destType = .floatType then
    if field.byteSwap then ffsReverseFloatFormats field.srcFloatFormat = field.targetFloatFormat
    else field.srcFloatFormat = field.targetFloatFormat
  else true

/-- A round of the loop that swaps the bytes of a value on the way to its destination. -/
def swapStep (a dest n : Nat) (m : Mem) (i : Nat) : Mem :=
  (m.write (dest + (n - 1 - i)) [m (a + i)]).write (dest + i) [m (a + (n - 1 - i))]

/-- The copy with the bytes swapped. -/
def swapCopy (a dest n : Nat) (m : Mem) : Mem :=
  let swapped := (List.range (n / 2)).foldl (swapStep a dest n) m
  if n % 2 ≠ 0 then swapped.write (dest + n / 2) [swapped (a + n / 2)] else swapped

/-- The copy of a value of `n` bytes. -/
def copyField (field : FMgetField) (m : Mem) (a n dest : Nat) : Mem :=
  if field.byteSwap then swapCopy a dest n m
  else if dest = a then m
  else m.write dest (m.read a n)

/-- `ffs_internal_convert_field` on the field at `a`. -/
def ffsInternalConvertField (floats : FloatUnit) (field : FMgetField) (m : Mem) (a : Nat)
    (destType : FMDataType) (destSize : Int32) (dest : Nat) : Option Mem :=
  if destType ≠ .stringType ∧ destType = field.dataType ∧ destSize = field.size ∧
      floatOK field destType = true then
    some (copyField field m a destSize.toNatClampNeg dest)
  else (convertValue floats field destType destSize m a).map (m.write dest)

/-! ## The copy -/

/-- A field is converted in its place or to where nothing of it is. -/
def SameOrApart (a n dest n' : Nat) : Prop := dest = a ∨ a + n ≤ dest ∨ dest + n' ≤ a

theorem write_one (m : Mem) (d : Nat) (b : UInt8) (x : Nat) :
    m.write d [b] x = if x = d then b else m x := by
  by_cases h : x = d
  · subst h
    rw [Mem.write_inside (Nat.le_refl _) (by simp), if_pos rfl, Nat.sub_self]
    rfl
  · rw [Mem.write_outside (by simp only [List.length_singleton]; omega), if_neg h]

/-- What memory holds after some rounds of the swap: the first and last bytes are those of the
other end, and nothing else has changed. -/
structure Swapped (m m' : Mem) (a dest n k : Nat) : Prop where
  ends : ∀ i < n, i < k ∨ n - k ≤ i → m' (dest + i) = m (a + (n - 1 - i))
  rest : ∀ x, (∀ i < n, i < k ∨ n - k ≤ i → x ≠ dest + i) → m' x = m x

theorem swapped_step {m m' : Mem} {a dest n k : Nat} (hk : k < n / 2)
    (hapart : SameOrApart a n dest n) (h : Swapped m m' a dest n k) :
    Swapped m (swapStep a dest n m' k) a dest n (k + 1) := by
  -- What is read in this round was not written before.
  have hread : ∀ j < n, k ≤ j → j < n - k → m' (a + j) = m (a + j) := by
    intro j hj hlow hhigh
    refine h.rest _ fun i hi hends heq => ?_
    cases hapart with
    | inl hsame => omega
    | inr hdisjoint => omega
  have hfront := hread k (by omega) (by omega) (by omega)
  have hback := hread (n - 1 - k) (by omega) (by omega) (by omega)
  constructor
  · intro i hi hends
    rw [swapStep, write_one, write_one, hfront, hback]
    by_cases hone : i = k
    · rw [if_pos (by omega), hone]
    · rw [if_neg (by omega)]
      by_cases htwo : i = n - 1 - k
      · rw [if_pos (by omega), htwo]
        congr 1
        omega
      · rw [if_neg (by omega)]
        exact h.ends i hi (by omega)
  · intro x hx
    have hone : x ≠ dest + k := hx k (by omega) (by omega)
    have htwo : x ≠ dest + (n - 1 - k) := hx (n - 1 - k) (by omega) (by omega)
    rw [swapStep, write_one, write_one, if_neg hone, if_neg htwo]
    exact h.rest x fun i hi hends => hx i hi (by omega)

theorem swapped_rounds {m : Mem} {a dest n : Nat} (hapart : SameOrApart a n dest n) {k : Nat}
    (hk : k ≤ n / 2) : Swapped m ((List.range k).foldl (swapStep a dest n) m) a dest n k := by
  induction k with
  | zero => exact ⟨fun i hi hends => by omega, fun x _ => rfl⟩
  | succ k ih =>
    rw [List.range_succ, List.foldl_append]
    exact swapped_step (by omega) hapart (ih (by omega))

theorem swapCopy_eq {m : Mem} {a dest n : Nat} (hapart : SameOrApart a n dest n) :
    swapCopy a dest n m = m.write dest (m.read a n).reverse := by
  have h := swapped_rounds (m := m) hapart (Nat.le_refl (n / 2))
  have hlen : (m.read a n).reverse.length = n := by
    rw [List.length_reverse, Mem.length_read]
  -- The middle byte of an odd size.
  have hmiddle : n % 2 ≠ 0 → (List.range (n / 2)).foldl (swapStep a dest n) m (a + n / 2) =
      m (a + n / 2) := by
    intro hodd
    refine h.rest _ fun i hi hends heq => ?_
    cases hapart with
    | inl hsame => omega
    | inr hdisjoint => omega
  funext x
  by_cases hx : dest ≤ x ∧ x < dest + n
  · obtain ⟨i, rfl⟩ := Nat.exists_eq_add_of_le hx.1
    have hi : i < n := by omega
    have hi' : i < (m.read a n).reverse.length := by omega
    rw [Mem.write_inside (by omega) (by omega), Nat.add_sub_cancel_left,
      List.getD_eq_getElem _ _ hi', List.getElem_reverse, Mem.getElem_read, Mem.length_read]
    unfold swapCopy
    by_cases hodd : n % 2 ≠ 0
    · rw [if_pos hodd, write_one, hmiddle hodd]
      by_cases hmid : i = n / 2
      · rw [if_pos (by omega)]
        congr 1
        omega
      · rw [if_neg (by omega)]
        exact h.ends i hi (by omega)
    · rw [if_neg hodd]
      exact h.ends i hi (by omega)
  · rw [Mem.write_outside (by omega)]
    have hrest := h.rest x fun i hi _ => by omega
    unfold swapCopy
    by_cases hodd : n % 2 ≠ 0
    · rw [if_pos hodd, write_one, if_neg (by omega), hrest]
    · rw [if_neg hodd, hrest]

theorem copyField_eq {field : FMgetField} {m : Mem} {a n dest : Nat}
    (hapart : SameOrApart a n dest n) : copyField field m a n dest =
      m.write dest (if field.byteSwap then (m.read a n).reverse else m.read a n) := by
  unfold copyField
  cases field.byteSwap with
  | true =>
    rw [if_pos rfl, if_pos rfl]
    exact swapCopy_eq hapart
  | false =>
    rw [if_neg Bool.false_ne_true, if_neg Bool.false_ne_true]
    split
    · next heq =>
      subst heq
      exact (Mem.write_read m dest n).symm
    · rfl

/-! ## The value -/

/-- A simple field that is neither a string nor a float. -/
structure ScalarField (field : FMgetField) : Prop where
  type : field.dataType = .integerType ∨ field.dataType = .unsignedType ∨
    field.dataType = .enumerationType ∨ field.dataType = .booleanType ∨
    field.dataType = .charType
  size : field.size = 1 ∨ field.size = 2 ∨ field.size = 4 ∨ field.size = 8 ∨ field.size = 16

/-- The number that the bytes of a field stand for. -/
def sourceValue (field : FMgetField) (bytes : List UInt8) : Int :=
  if field.dataType = .integerType then
    signed field.size.toNatClampNeg (getValue field.byteSwap bytes)
  else getValue field.byteSwap bytes

/-- The bytes that a field should have after its conversion. -/
def convertedBytes (field : FMgetField) (destSize : Int32) (bytes : List UInt8) : List UInt8 :=
  leBytes destSize.toNatClampNeg (unsigned destSize.toNatClampNeg (sourceValue field bytes))

theorem unsigned_sourceValue {field : FMgetField} {n : Nat} (h : n ≤ field.size.toNatClampNeg)
    (bytes : List UInt8) :
    unsigned n (sourceValue field bytes) = getValue field.byteSwap bytes % 256 ^ n := by
  unfold sourceValue
  split
  · exact unsigned_signed h _
  · exact unsigned_natCast n _

theorem convertedBytes_self {field : FMgetField} {bytes : List UInt8}
    (hlen : bytes.length = field.size.toNatClampNeg) :
    convertedBytes field field.size bytes =
      if field.byteSwap then bytes.reverse else bytes := by
  rw [convertedBytes, unsigned_sourceValue (Nat.le_refl _), leBytes_mod, ← hlen, leBytes_getValue]

/-- The low half is the value but for its high bytes. -/
theorem getValue_lowHalf (field : FMgetField) (m : Mem) (a : Nat) :
    getValue field.byteSwap (m.read (lowHalf field a) 8) =
      getValue field.byteSwap (m.read a 16) % 256 ^ 8 := by
  have hread : m.read a 16 = m.read a 8 ++ m.read (a + 8) 8 := Mem.read_add m a 8 8
  have hmod := leValue_append_mod (m.read a 8) (m.read (a + 8) 8)
  have hmod' := leValue_append_mod (m.read (a + 8) 8).reverse (m.read a 8).reverse
  rw [Mem.length_read] at hmod
  rw [List.length_reverse, Mem.length_read] at hmod'
  unfold lowHalf getValue beValue
  cases field.byteSwap with
  | true =>
    rw [if_pos rfl, if_pos rfl, if_pos rfl, hread, List.reverse_append]
    exact hmod'.symm
  | false =>
    rw [if_neg Bool.false_ne_true, if_neg Bool.false_ne_true, if_neg Bool.false_ne_true, hread]
    exact hmod.symm

theorem unsigned_loadInteger {field : FMgetField} (hfield : ScalarField field)
    (htype : field.dataType = .integerType) {n : Nat} (hn : n ≤ 8) (m : Mem) (a : Nat) :
    unsigned n (loadInteger field m a) =
      unsigned n (sourceValue field (m.read a field.size.toNatClampNeg)) := by
  obtain h | h | h | h | h := hfield.size
  · simp only [loadInteger, sourceValue, htype, h, if_true]
    cases field.byteSwap with
    | true => rfl
    | false => rfl
  · simp [loadInteger, sourceValue, htype, h]
  · simp [loadInteger, sourceValue, htype, h]
  · simp [loadInteger, sourceValue, htype, h]
  · have hsize : field.size.toNatClampNeg = 16 := by
      rw [h]
      rfl
    rw [unsigned_sourceValue (by omega), hsize]
    rw [loadInteger, h, if_neg (by decide), if_neg (by decide), if_neg (by decide),
      if_neg (by decide), if_pos rfl, unsigned_signed hn, getValue_lowHalf,
      Nat.mod_mod_of_dvd _ (Nat.pow_dvd_pow 256 hn)]

theorem unsigned_loadUnsigned {field : FMgetField} (hfield : ScalarField field)
    (htype : field.dataType ≠ .integerType) {n : Nat} (hn : n ≤ 8) (m : Mem) (a : Nat) :
    unsigned n (loadUnsigned field m a : Int) =
      unsigned n (sourceValue field (m.read a field.size.toNatClampNeg)) := by
  obtain h | h | h | h | h := hfield.size
  · simp only [loadUnsigned, sourceValue, htype, h, if_true, if_false]
    cases field.byteSwap with
    | true => rfl
    | false => rfl
  · simp [loadUnsigned, sourceValue, htype, h]
  · simp [loadUnsigned, sourceValue, htype, h]
  · simp [loadUnsigned, sourceValue, htype, h]
  · have hsize : field.size.toNatClampNeg = 16 := by
      rw [h]
      rfl
    rw [sourceValue, if_neg htype, hsize]
    rw [loadUnsigned, h, if_neg (by decide), if_neg (by decide), if_neg (by decide),
      if_neg (by decide), if_pos rfl, unsigned_natCast, unsigned_natCast, getValue_lowHalf,
      Nat.mod_mod_of_dvd _ (Nat.pow_dvd_pow 256 hn)]

/-- The sizes that a value can be stored in, and those in which nothing is stored. -/
def Storable (destSize : Int32) : Prop :=
  destSize = 1 ∨ destSize = 2 ∨ destSize = 4 ∨ destSize = 8 ∨ destSize ≤ 0

theorem toNatClampNeg_of_storable {destSize : Int32} (h : Storable destSize) :
    destSize.toNatClampNeg ≤ 8 := by
  obtain rfl | rfl | rfl | rfl | h := h
  · decide
  · decide
  · decide
  · decide
  · rw [Int32.le_iff_toInt_le] at h
    have hclamp : destSize.toNatClampNeg = destSize.toInt.toNat := rfl
    have hzero : (0 : Int32).toInt = 0 := rfl
    omega

theorem storeInteger_of_storable {destSize : Int32} (h : Storable destSize) (tmp : Int) :
    storeInteger destSize tmp =
      leBytes destSize.toNatClampNeg (unsigned destSize.toNatClampNeg tmp) := by
  obtain rfl | rfl | rfl | rfl | h := h
  · rfl
  · rfl
  · rfl
  · rfl
  · have hnot : ∀ n : Int32, 0 < n → destSize ≠ n := by
      rintro n hn rfl
      rw [Int32.lt_iff_toInt_lt] at hn
      rw [Int32.le_iff_toInt_le] at h
      omega
    have hclamp : destSize.toNatClampNeg = 0 := by
      rw [Int32.le_iff_toInt_le] at h
      have hclamp : destSize.toNatClampNeg = destSize.toInt.toNat := rfl
      have hzero : (0 : Int32).toInt = 0 := rfl
      omega
    rw [storeInteger, if_neg (hnot 1 (by decide)), if_neg (hnot 2 (by decide)),
      if_neg (hnot 4 (by decide)), if_neg (hnot 8 (by decide)), hclamp]
    rfl

theorem storeInteger_of_not_storable {destSize : Int32} (h : ¬ Storable destSize) (tmp : Int) :
    storeInteger destSize tmp = [] := by
  unfold Storable at h
  push Not at h
  rw [storeInteger, if_neg h.1, if_neg h.2.1, if_neg h.2.2.1, if_neg h.2.2.2.1]

/-! ## Where the conversion is right -/

/-- The conversion of a field to a size leaves the value there, reduced to the size, and changes
nothing else, whatever memory holds. -/
def ConvertsTo (floats : FloatUnit) (field : FMgetField) (destSize : Int32) : Prop :=
  ∀ (m : Mem) (a dest : Nat),
    SameOrApart a field.size.toNatClampNeg dest destSize.toNatClampNeg →
    ffsInternalConvertField floats field m a field.dataType destSize dest =
      some (m.write dest
        (convertedBytes field destSize (m.read a field.size.toNatClampNeg)))

/-- A value that is stored by its type in as many bytes as a copy has is the copy. -/
def PathsAgree (floats : FloatUnit) (field : FMgetField) : Prop :=
  ∀ (m : Mem) (a dest : Nat) (bytes : List UInt8),
    SameOrApart a field.size.toNatClampNeg dest field.size.toNatClampNeg →
    convertValue floats field field.dataType field.size m a = some bytes →
    bytes.length = field.size.toNatClampNeg →
    copyField field m a field.size.toNatClampNeg dest = m.write dest bytes

/-- Sizes that agree, or a number and a size that the switch has a store for. -/
def SizeHandled (field : FMgetField) (destSize : Int32) : Prop :=
  destSize = field.size ∨
    (field.dataType = .integerType ∨ field.dataType = .unsignedType) ∧ Storable destSize

theorem convertValue_number {floats : FloatUnit} {field : FMgetField} (hfield : ScalarField field)
    (hnumber : field.dataType = .integerType ∨ field.dataType = .unsignedType)
    {destSize : Int32} (hstore : Storable destSize) (m : Mem) (a : Nat) :
    convertValue floats field field.dataType destSize m a =
      some (convertedBytes field destSize (m.read a field.size.toNatClampNeg)) := by
  have hn := toNatClampNeg_of_storable hstore
  cases hnumber with
  | inl htype =>
    rw [convertedBytes, ← unsigned_loadInteger hfield htype hn,
      ← storeInteger_of_storable hstore]
    simp only [convertValue, getBigInt, htype, Option.map_some]
  | inr htype =>
    have hother : field.dataType ≠ .integerType := by
      rw [htype]
      decide
    rw [convertedBytes, ← unsigned_loadUnsigned hfield hother hn,
      ← storeInteger_of_storable hstore]
    simp only [convertValue, getBigUnsigned, htype, Option.map_some]

/-- The switch stores an enumeration, a boolean or a character by a getter that exits on them. -/
theorem convertValue_other {floats : FloatUnit} {field : FMgetField} (hfield : ScalarField field)
    (hnumber : ¬ (field.dataType = .integerType ∨ field.dataType = .unsignedType))
    (destSize : Int32) (m : Mem) (a : Nat) :
    convertValue floats field field.dataType destSize m a = none := by
  obtain htype | htype | htype | htype | htype := hfield.type
  · exact absurd (.inl htype) hnumber
  · exact absurd (.inr htype) hnumber
  all_goals simp only [convertValue, getBigInt, htype, Option.map_none]

/-- No size that the ladder lacks is stored. -/
theorem convertValue_unstored {floats : FloatUnit} {field : FMgetField}
    (hnumber : field.dataType = .integerType ∨ field.dataType = .unsignedType)
    {destSize : Int32} (hstore : ¬ Storable destSize) (m : Mem) (a : Nat) :
    convertValue floats field field.dataType destSize m a = some [] := by
  cases hnumber with
  | inl htype =>
    simp only [convertValue, getBigInt, htype, Option.map_some,
      storeInteger_of_not_storable hstore]
  | inr htype =>
    simp only [convertValue, getBigUnsigned, htype, Option.map_some,
      storeInteger_of_not_storable hstore]

theorem pathsAgree (floats : FloatUnit) {field : FMgetField} (hfield : ScalarField field) :
    PathsAgree floats field := by
  intro m a dest bytes hapart hvalue hlen
  rw [copyField_eq hapart, ← convertedBytes_self (by rw [Mem.length_read])]
  by_cases hnumber : field.dataType = .integerType ∨ field.dataType = .unsignedType
  · by_cases hstore : Storable field.size
    · rw [convertValue_number hfield hnumber hstore] at hvalue
      rw [Option.some.inj hvalue]
    · rw [convertValue_unstored hnumber hstore] at hvalue
      rw [← Option.some.inj hvalue] at hlen
      obtain h | h | h | h | h := hfield.size <;> rw [h] at hlen <;> cases hlen
  · rw [convertValue_other hfield hnumber] at hvalue
    cases hvalue

theorem convertsTo_of_handled (floats : FloatUnit) {field : FMgetField}
    (hfield : ScalarField field) {destSize : Int32} (h : SizeHandled field destSize) :
    ConvertsTo floats field destSize := by
  intro m a dest hapart
  have hstring : field.dataType ≠ .stringType := by
    obtain htype | htype | htype | htype | htype := hfield.type <;> rw [htype] <;> decide
  have hfloat : floatOK field field.dataType = true := by
    have hother : field.dataType ≠ .floatType := by
      obtain htype | htype | htype | htype | htype := hfield.type <;> rw [htype] <;> decide
    rw [floatOK, if_neg hother]
  unfold ffsInternalConvertField
  by_cases hsame : destSize = field.size
  · subst hsame
    rw [if_pos ⟨hstring, rfl, rfl, hfloat⟩, copyField_eq hapart,
      convertedBytes_self (by rw [Mem.length_read])]
  · obtain ⟨hnumber, hstore⟩ := h.resolve_left hsame
    rw [if_neg fun hcopy => hsame hcopy.2.2.1, convertValue_number hfield hnumber hstore]
    rfl

/-- Memory with a zero for the field at its beginning. -/
def zeroBelow (n : Nat) : Mem := fun x => if x < n then 0 else 1

theorem leValue_zeros {bytes : List UInt8} (h : ∀ b ∈ bytes, b = 0) : leValue bytes = 0 := by
  induction bytes with
  | nil => rfl
  | cons b bytes ih =>
    have hb := h b List.mem_cons_self
    rw [leValue, ih fun b hb => h b (List.mem_cons_of_mem _ hb), hb]
    rfl

theorem sourceValue_zeroBelow (field : FMgetField) :
    sourceValue field ((zeroBelow field.size.toNatClampNeg).read 0 field.size.toNatClampNeg) =
      0 := by
  have hzeros : ∀ b ∈ (zeroBelow field.size.toNatClampNeg).read 0 field.size.toNatClampNeg,
      b = 0 := by
    intro b hb
    obtain ⟨i, hi, rfl⟩ := List.mem_map.mp hb
    exact if_pos (by have := List.mem_range.mp hi; omega)
  have hvalue : getValue field.byteSwap
      ((zeroBelow field.size.toNatClampNeg).read 0 field.size.toNatClampNeg) = 0 := by
    unfold getValue beValue
    cases field.byteSwap with
    | true => exact leValue_zeros fun b hb => hzeros b (List.mem_reverse.mp hb)
    | false => exact leValue_zeros hzeros
  rw [sourceValue, hvalue]
  split
  · rw [signed, Int.natCast_zero, Int.zero_bmod]
  · rfl

theorem handled_of_convertsTo {floats : FloatUnit} {field : FMgetField}
    (hfield : ScalarField field) {destSize : Int32} (h : ConvertsTo floats field destSize) :
    SizeHandled field destSize := by
  by_contra hnot
  have hsame : destSize ≠ field.size := fun heq => hnot (.inl heq)
  have hrun := h (zeroBelow field.size.toNatClampNeg) 0 field.size.toNatClampNeg
    (.inr (.inl (by omega)))
  unfold ffsInternalConvertField at hrun
  rw [if_neg fun hcopy => hsame hcopy.2.2.1] at hrun
  by_cases hnumber : field.dataType = .integerType ∨ field.dataType = .unsignedType
  · have hstore : ¬ Storable destSize := fun hstore => hnot (.inr ⟨hnumber, hstore⟩)
    have hpos : 0 < destSize.toNatClampNeg := by
      by_contra hzero
      refine hstore (.inr (.inr (.inr (.inr ?_))))
      have hclamp : destSize.toNatClampNeg = destSize.toInt.toNat := rfl
      have hint : (0 : Int32).toInt = 0 := rfl
      rw [Int32.le_iff_toInt_le]
      omega
    rw [convertValue_unstored hnumber hstore, Option.map_some, Mem.write_nil] at hrun
    -- The byte behind the field would have to become a zero.
    have hbyte := congrFun (Option.some.inj hrun) field.size.toNatClampNeg
    obtain ⟨n, hn⟩ := Nat.exists_eq_succ_of_ne_zero (Nat.pos_iff_ne_zero.mp hpos)
    rw [Mem.write_inside (Nat.le_refl _) (by rw [convertedBytes, length_leBytes]; omega),
      convertedBytes, sourceValue_zeroBelow, hn, Nat.sub_self, zeroBelow,
      if_neg (Nat.lt_irrefl _)] at hbyte
    simp [leBytes, unsigned] at hbyte
  · rw [convertValue_other hfield hnumber] at hrun
    cases hrun

/-- The value arrives in the new size, and the copy is the value, for equal sizes and for numbers
of the sizes of C's integers. -/
theorem convertsTo_iff_handled (floats : FloatUnit) {field : FMgetField}
    (hfield : ScalarField field) (destSize : Int32) :
    ConvertsTo floats field destSize ∧ PathsAgree floats field ↔ SizeHandled field destSize :=
  ⟨fun h => handled_of_convertsTo hfield h.1,
    fun h => ⟨convertsTo_of_handled floats hfield h, pathsAgree floats hfield⟩⟩

/-- A short integer of the other byte order, to eight bytes. -/
def swappedShort : FMgetField :=
  { offset := 0, size := 2, dataType := .integerType, byteSwap := true, srcFloatFormat := 1,
    targetFloatFormat := 1 }

/-- An enumeration of one byte. -/
def smallEnumeration : FMgetField :=
  { offset := 0, size := 1, dataType := .enumerationType, byteSwap := false,
    srcFloatFormat := 1, targetFloatFormat := 1 }

def noFloats : FloatUnit := { toLong := fun _ _ => 0, store := fun _ _ _ => [] }

theorem convertsTo_iff_handled_swappedShort :
    ConvertsTo noFloats swappedShort 8 ∧ PathsAgree noFloats swappedShort ↔
      SizeHandled swappedShort 8 :=
  convertsTo_iff_handled noFloats ⟨.inl rfl, .inr (.inl rfl)⟩ 8

/-- An enumeration exits when it is converted to the size of an `int`. -/
theorem smallEnumeration_exits :
    ScalarField smallEnumeration ∧
      ffsInternalConvertField noFloats smallEnumeration (fun _ => 1) 0
        smallEnumeration.dataType 4 8 = none ∧
      ¬ ConvertsTo noFloats smallEnumeration 4 := by
  refine ⟨⟨.inr (.inr (.inl rfl)), .inl rfl⟩, rfl, fun h => ?_⟩
  have hrun := h (fun _ => 1) 0 8 (.inr (.inl (by decide)))
  cases hrun

end FFS
