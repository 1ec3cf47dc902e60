import Mathlib.Algebra.BigOperators.Ring.List
import FFS.Convert.ScalarField
import FFS.Machine.IndexVectors

/-!
# Transposing an array

`transposeArray` is `transpose_array`, which moves an array between column-major and row-major
order and converts its elements.  It counts the dimensions up to the first that is zero.  Besides
memory its state has the calls of `ffs_internal_convert_field`.  The arrays fit in memory, so that
no place is counted modulo the word.
-/

namespace FFS

open Machine

/-- The arguments of `transpose_array` but for the dimensions. -/
structure Transpose where
  floats : FloatUnit
  field : FMgetField
  destType : FMDataType
  destSize : Int32
  src : Nat
  dest : Nat
  sourceColumnMajor : Bool

/-- Memory, and the offset in the source and the destination of each element converted. -/
structure TransposeState where
  mem : Mem
  calls : List (Nat × Nat)

/-- Where the loop does not come to its end: the rounds do not suffice, the process exits, or the
elements are of a type that is not transposed. -/
inductive TransposeStop where
  | rounds
  | exit
  | badType (state : TransposeState)

namespace Transpose

variable (t : Transpose)

def size : Nat := t.field.size.toNatClampNeg

def outSize : Nat := t.destSize.toNatClampNeg

/-- The types that are not transposed. -/
def BadType : Prop := t.destType = .unknownType ∨ t.destType = .stringType

instance : Decidable t.BadType := inferInstanceAs (Decidable (_ ∨ _))

/-- One element. -/
def transposeElement (offset destField : Nat) (s : TransposeState) :
    Except TransposeStop TransposeState :=
  if t.BadType then .error (.badType s)
  else
    match ffsInternalConvertField t.floats t.field s.mem (t.src + offset) t.destType t.destSize
        destField with
    | none => .error .exit
    | some m => .ok { mem := m, calls := s.calls ++ [(offset, destField)] }

/-- The elements along the last dimension. -/
def transposeLine (jump : Nat) :
    Nat → Nat → Nat → TransposeState → Except TransposeStop TransposeState
  | 0, _, _, s => .ok s
  | n + 1, offset, destField, s => do
    let s ← t.transposeElement offset destField s
    if t.sourceColumnMajor then
      transposeLine jump n (offset + t.size * jump) (destField + t.outSize) s
    else transposeLine jump n (offset + t.size) (destField + t.outSize * jump) s

/-- What is done with a full index vector of `n` digits. -/
def transposeBody (dims : Nat → Nat) (n jump : Nat) (index : Nat → Nat) (s : TransposeState) :
    Except TransposeStop TransposeState :=
  let columnIndexBase :=
    (List.range n).reverse.foldl (fun base i => base * dims i + index i) (index (n - 1))
  let rowIndexBase :=
    (List.range' 1 (n - 1)).foldl (fun base i => base * dims i + index i) (index 0)
  if t.sourceColumnMajor then
    t.transposeLine jump (dims (n - 1)) (t.size * columnIndexBase)
      (t.dest + t.outSize * rowIndexBase) s
  else
    t.transposeLine jump (dims (n - 1)) (t.size * rowIndexBase)
      (t.dest + t.outSize * columnIndexBase) s

/-- The dimensions before the one taken for the end of the list. -/
def countedDims (dimens : List Nat) : List Nat := dimens.takeWhile (· ≠ 0)

/-- `transpose_array` -/
def transposeArray (fuel : Nat) (dimens : List Nat) (m : Mem) :
    Except TransposeStop TransposeState :=
  let counted := countedDims dimens
  let n := counted.length
  let dims := fun i => counted.getD i 0
  if n ≤ 1 then .ok { mem := m, calls := [] }
  else
    let jump := (List.range (n - 1)).foldl (fun jump i => jump * dims i) 1
    odometer .rounds dims (n - 1) (t.transposeBody dims n jump) fuel (fun _ => 0) 0
      { mem := m, calls := [] }

/-- The call returns and leaves this state. -/
def Returns (dimens : List Nat) (m : Mem) (s : TransposeState) : Prop :=
  ∃ fuel, t.transposeArray fuel dimens m = .ok s ∨
    t.transposeArray fuel dimens m = .error (.badType s)

/-! ## What a transposition should do -/

/-- The bytes that an element becomes, `none` if it cannot be converted. -/
def convertElement (bytes : List UInt8) : Option (List UInt8) :=
  if t.BadType then none
  else if t.destType = t.field.dataType ∧ t.destSize = t.field.size ∧
      floatOK t.field t.destType = true then
    some (if t.field.byteSwap then bytes.reverse else bytes)
  else convertValue t.floats t.field t.destType t.destSize (fun x => bytes.getD x 0) 0

/-- Every element has a conversion, of the size of the destination's elements. -/
def ElementsConvert : Prop :=
  ∀ bytes : List UInt8, bytes.length = t.size →
    ∃ out, t.convertElement bytes = some out ∧ out.length = t.outSize

/-- The places in the source and the destination of the element with the column-major place `p.1`
and the row-major place `p.2`. -/
def places (p : Nat × Nat) : Nat × Nat := if t.sourceColumnMajor then p else p.swap

/-- The address of the element at a place of the source. -/
def srcAt (i : Nat) : Nat := t.src + t.size * i

def destAt (i : Nat) : Nat := t.dest + t.outSize * i

/-- Each element is where it belongs, nothing else has changed, and just the elements of the source
have been converted. -/
structure Transposed (dimens : List Nat) (m : Mem) (s : TransposeState) : Prop where
  elements : ∀ indices, Within dimens indices → ∀ p,
    p = t.places (columnMajor dimens indices, rowMajor dimens indices) →
    t.convertElement (m.read (t.srcAt p.1) t.size) = some (s.mem.read (t.destAt p.2) t.outSize)
  rest : ∀ x, x < t.dest ∨ t.dest + t.outSize * dimens.prod ≤ x → s.mem x = m x
  count : s.calls.length = dimens.prod
  inside : ∀ call ∈ s.calls, call.1 + t.size ≤ t.size * dimens.prod

/-- The array is transposed whatever memory holds. -/
def Transposes (dimens : List Nat) : Prop :=
  ∀ m, ∃ s, t.Returns dimens m s ∧ t.Transposed dimens m s

/-- The arrays do not overlap. -/
def ArraysApart (dimens : List Nat) : Prop :=
  t.src + t.size * dimens.prod ≤ t.dest ∨ t.dest + t.outSize * dimens.prod ≤ t.src

/-- The array is transposed where it is. -/
def InPlace : Prop := t.dest = t.src ∧ t.outSize = t.size

/-- Both orders are the same, as when no more than one dimension is above 1. -/
def SameOrder (dimens : List Nat) : Prop :=
  ∀ indices, Within dimens indices → columnMajor dimens indices = rowMajor dimens indices

/-- A conversion that gives the same for all elements. -/
def Constant : Prop :=
  ∀ bytes bytes' : List UInt8, bytes.length = t.size → bytes'.length = t.size →
    t.convertElement bytes = t.convertElement bytes'

/-- If a dimension is zero, the first or the second is, or the elements are of a type that is not
transposed.  If none is, the elements have conversions, and the array is not transposed in its own
place, unless that moves nothing. -/
def Transposable (dimens : List Nat) : Prop :=
  if 0 ∈ dimens then (countedDims dimens).length ≤ 1 ∨ t.BadType
  else t.ElementsConvert ∧ (t.ArraysApart dimens ∨ SameOrder dimens ∨ t.Constant)

/-! ## One element -/

theorem read_sub {m m' : Mem} {a a' n i k : Nat} (h : m.read a n = m'.read a' n)
    (hk : i + k ≤ n) : m.read (a + i) k = m'.read (a' + i) k := by
  obtain ⟨j, rfl⟩ := Nat.exists_eq_add_of_le hk
  rw [Nat.add_assoc, Mem.read_add, Mem.read_add, Mem.read_add m', Mem.read_add m'] at h
  have htail := (List.append_inj h (by rw [Mem.length_read, Mem.length_read])).2
  exact (List.append_inj htail (by rw [Mem.length_read, Mem.length_read])).1

/-- The value that is stored depends on the bytes of the field only. -/
theorem convertValue_congr {floats : FloatUnit} {field : FMgetField} {destType : FMDataType}
    {destSize : Int32} {m m' : Mem} {a a' : Nat}
    (h : m.read a field.size.toNatClampNeg = m'.read a' field.size.toNatClampNeg) :
    convertValue floats field destType destSize m a =
      convertValue floats field destType destSize m' a' := by
  have hread : ∀ n : Nat, field.size.toNatClampNeg = n → m.read a n = m'.read a' n := by
    rintro n rfl
    exact h
  have hhalf : ∀ i, i + 8 ≤ 16 → field.size = 16 →
      m.read (a + i) 8 = m'.read (a' + i) 8 :=
    fun i hi hs => read_sub (hread 16 (by rw [hs]; rfl)) hi
  have hlow : field.size = 16 → m.read a 8 = m'.read a' 8 := hhalf 0 (by omega)
  have hunsigned : loadUnsigned field m a = loadUnsigned field m' a' := by
    unfold loadUnsigned lowHalf
    repeat' split
    · next hs => rw [hread 1 (by rw [hs]; rfl)]
    · next hs => rw [hread 2 (by rw [hs]; rfl)]
    · next hs => rw [hread 4 (by rw [hs]; rfl)]
    · next hs => rw [hread 8 (by rw [hs]; rfl)]
    · next hs _ => rw [hhalf 8 (by omega) hs]
    · next hs _ => rw [hlow hs]
    · rfl
  have hinteger : loadInteger field m a = loadInteger field m' a' :=
    loadInteger_congr rfl hunsigned
  unfold convertValue getBigInt getBigUnsigned
  rw [hinteger, hunsigned, h]

theorem read_getD (bytes : List UInt8) :
    Mem.read (fun x => bytes.getD x 0) 0 bytes.length = bytes := by
  apply List.ext_getElem (by rw [Mem.length_read])
  intro i h1 h2
  rw [Mem.getElem_read, Nat.zero_add, List.getD_eq_getElem _ _ h2]

variable {t : Transpose}

theorem simple_of_elementsConvert (hconvert : t.ElementsConvert) :
    ¬ t.BadType := by
  intro htype
  obtain ⟨out, hout, -⟩ := hconvert (List.replicate t.size 0) List.length_replicate
  rw [convertElement, if_pos htype] at hout
  cases hout

/-- The bytes of an element's destination are those of its conversion. -/
theorem transposeElement_eq (hconvert : t.ElementsConvert) {offset destField : Nat}
    {s : TransposeState} (hapart : SameOrApart (t.src + offset) t.size destField t.outSize) :
    ∃ out, t.convertElement (s.mem.read (t.src + offset) t.size) = some out ∧
      out.length = t.outSize ∧
      t.transposeElement offset destField s =
        .ok { mem := s.mem.write destField out, calls := s.calls ++ [(offset, destField)] } := by
  have hsimple := simple_of_elementsConvert hconvert
  obtain ⟨out, hout, hlen⟩ :=
    hconvert (s.mem.read (t.src + offset) t.size) (Mem.length_read _ _ _)
  refine ⟨out, hout, hlen, ?_⟩
  rw [transposeElement, if_neg hsimple]
  rw [convertElement, if_neg hsimple] at hout
  unfold ffsInternalConvertField
  by_cases hcopy : t.destType = t.field.dataType ∧ t.destSize = t.field.size ∧
      floatOK t.field t.destType = true
  · have hsize : t.destSize.toNatClampNeg = t.size := by rw [hcopy.2.1]; rfl
    rw [if_pos hcopy] at hout
    rw [if_pos ⟨fun hstring => hsimple (.inr hstring), hcopy⟩, hsize,
      copyField_eq (by rwa [outSize, hsize] at hapart), Option.some.inj hout]
  · have hread : s.mem.read (t.src + offset) t.field.size.toNatClampNeg =
        Mem.read (fun x => (s.mem.read (t.src + offset) t.size).getD x 0) 0
          t.field.size.toNatClampNeg := by
      have h := read_getD (s.mem.read (t.src + offset) t.size)
      rw [Mem.length_read] at h
      exact h.symm
    rw [if_neg hcopy] at hout
    rw [if_neg fun h => hcopy h.2, convertValue_congr hread, hout]
    rfl

/-! ## All elements -/

/-- The call of `transposeElement` for an element, by its place in the source and in the
destination. -/
def move (t : Transpose) (s : TransposeState) (p : Nat × Nat) :
    Except TransposeStop TransposeState :=
  t.transposeElement (t.size * p.1) (t.dest + t.outSize * p.2) s

/-- An element is read and written apart or in one place. -/
def MovesApart (t : Transpose) (p : Nat × Nat) : Prop :=
  SameOrApart (t.srcAt p.1) t.size (t.destAt p.2) t.outSize

theorem place_apart {a n i j x : Nat} (hij : i ≠ j) (hx : a + n * i ≤ x ∧ x < a + n * i + n) :
    x < a + n * j ∨ a + n * j + n ≤ x := by
  have hi : n * i + n = n * (i + 1) := by rw [Nat.mul_add, Nat.mul_one]
  have hj : n * j + n = n * (j + 1) := by rw [Nat.mul_add, Nat.mul_one]
  cases Nat.lt_or_gt_of_ne hij with
  | inl hlt =>
    have hle : n * (i + 1) ≤ n * j := Nat.mul_le_mul_left n hlt
    omega
  | inr hgt =>
    have hle : n * (j + 1) ≤ n * i := Nat.mul_le_mul_left n hgt
    omega

theorem move_eq (hconvert : t.ElementsConvert) {p : Nat × Nat} (hp : t.MovesApart p)
    (s : TransposeState) :
    ∃ out, t.convertElement (s.mem.read (t.srcAt p.1) t.size) = some out ∧
      out.length = t.outSize ∧
      t.move s p =
        .ok { mem := s.mem.write (t.destAt p.2) out,
              calls := s.calls ++ [(t.size * p.1, t.destAt p.2)] } :=
  transposeElement_eq hconvert hp

/-- The moves all succeed, in order, and each is a call. -/
theorem exists_moves (hconvert : t.ElementsConvert) {ps : List (Nat × Nat)}
    (hapart : ∀ p ∈ ps, t.MovesApart p) (s : TransposeState) :
    ∃ s', ps.foldlM t.move s = .ok s' ∧
      s'.calls = s.calls ++ ps.map fun p => (t.size * p.1, t.destAt p.2) := by
  induction ps generalizing s with
  | nil => exact ⟨s, rfl, (List.append_nil _).symm⟩
  | cons p ps ih =>
    obtain ⟨out, -, -, hmove⟩ := move_eq hconvert (hapart p List.mem_cons_self) s
    obtain ⟨s', hrun, hcalls⟩ := ih (fun q hq => hapart q (List.mem_cons_of_mem _ hq)) _
    refine ⟨s', ?_, ?_⟩
    · rw [List.foldlM_cons, hmove]
      exact hrun
    · rw [hcalls, List.append_assoc]
      rfl

/-- The moves change the places that they write. -/
theorem moves_rest (hconvert : t.ElementsConvert) {ps : List (Nat × Nat)}
    (hapart : ∀ p ∈ ps, t.MovesApart p) {s s' : TransposeState}
    (hrun : ps.foldlM t.move s = .ok s') {x : Nat}
    (hx : ∀ p ∈ ps, x < t.destAt p.2 ∨ t.destAt p.2 + t.outSize ≤ x) : s'.mem x = s.mem x := by
  induction ps generalizing s with
  | nil =>
    cases hrun
    rfl
  | cons p ps ih =>
    obtain ⟨out, -, hlen, hmove⟩ := move_eq hconvert (hapart p List.mem_cons_self) s
    rw [List.foldlM_cons, hmove] at hrun
    rw [ih (fun q hq => hapart q (List.mem_cons_of_mem _ hq)) hrun
      fun q hq => hx q (List.mem_cons_of_mem _ hq)]
    have hp := hx p List.mem_cons_self
    exact Mem.write_outside (by rw [hlen]; exact hp)

/-- What is in the place that a move writes, once all are made. -/
theorem moves_element (hconvert : t.ElementsConvert) {pre rest : List (Nat × Nat)}
    {p : Nat × Nat} (hapart : ∀ q ∈ pre ++ p :: rest, t.MovesApart q)
    (hdest : ((pre ++ p :: rest).map Prod.snd).Nodup) {s s' : TransposeState}
    (hrun : (pre ++ p :: rest).foldlM t.move s = .ok s') :
    ∃ s₁, pre.foldlM t.move s = .ok s₁ ∧
      t.convertElement (s₁.mem.read (t.srcAt p.1) t.size) =
        some (s'.mem.read (t.destAt p.2) t.outSize) := by
  have hapart' : ∀ q ∈ pre, t.MovesApart q := fun q hq => hapart q (List.mem_append_left _ hq)
  obtain ⟨s₁, hpre, -⟩ := exists_moves hconvert hapart' s
  obtain ⟨out, hout, hlen, hmove⟩ := move_eq hconvert (hapart p (by simp)) s₁
  refine ⟨s₁, hpre, hout.trans (congrArg some ?_)⟩
  rw [List.foldlM_append, hpre] at hrun
  change (p :: rest).foldlM t.move s₁ = .ok s' at hrun
  rw [List.foldlM_cons, hmove] at hrun
  rw [← Mem.read_write_of_length (m := s₁.mem) (a := t.destAt p.2) hlen]
  have hrest : ∀ q ∈ rest, t.MovesApart q := fun q hq => hapart q (by simp [hq])
  refine Mem.read_congr fun x hlow hhigh => (moves_rest hconvert hrest hrun fun q hq => ?_).symm
  rw [List.map_append, List.map_cons] at hdest
  have hne : p.2 ≠ q.2 := by
    intro heq
    have hcons := (List.nodup_cons.mp (List.nodup_append.mp hdest).2.1).1
    exact hcons (heq ▸ List.mem_map_of_mem hq)
  exact place_apart hne ⟨hlow, hhigh⟩

/-! ## The loop -/

/-- The elements along the last dimension, from number `i` on. -/
theorem transposeLine_eq (jump column row n i : Nat) (s : TransposeState) :
    t.transposeLine jump n (t.size * (t.places (column + jump * i, row + i)).1)
        (t.dest + t.outSize * (t.places (column + jump * i, row + i)).2) s =
      (List.range' i n).foldlM
        (fun s i => t.move s (t.places (column + jump * i, row + i))) s := by
  induction n generalizing i s with
  | zero => rfl
  | succ n ih =>
    rw [transposeLine, List.range'_succ, List.foldlM_cons, move]
    congr 1
    funext s'
    rw [← ih (i + 1) s']
    cases hmajor : t.sourceColumnMajor with
    | true =>
      rw [if_pos rfl]
      simp only [places, hmajor, if_true]
      congr 1
      · ring
      · ring
    | false =>
      rw [if_neg Bool.false_ne_true]
      simp only [places, hmajor, Bool.false_eq_true, if_false, Prod.swap_prod_mk]
      congr 1
      ring

theorem transposeBody_eq {dims : Nat → Nat} {n : Nat} {index : Nat → Nat} (hzero : index n = 0)
    (s : TransposeState) :
    t.transposeBody dims (n + 1) (stride dims n) index s =
      (List.range (dims n)).foldlM
        (fun s i => t.move s (t.places (columnBase dims index n + stride dims n * i,
          rowBase dims index n * dims n + i))) s := by
  have hline := transposeLine_eq (t := t) (stride dims n) (columnBase dims index n)
    (rowBase dims index n * dims n) (dims n) 0 s
  have hcolumn : columnBase dims index (n + 1) + stride dims (n + 1) * 0 =
      columnBase dims index n := by
    simp only [columnBase, hzero, Nat.mul_zero, Nat.add_zero]
  have hrow : rowBase dims index (n + 1) = rowBase dims index n * dims n := by
    rw [rowBase, hzero, Nat.add_zero]
  simp only [Nat.mul_zero, Nat.add_zero] at hline
  rw [List.range_eq_range', ← hline]
  simp only [transposeBody, Nat.add_sub_cancel, foldl_columnBase, foldl_rowBase, hzero, hcolumn,
    hrow]
  cases hmajor : t.sourceColumnMajor with
  | true => simp only [places, hmajor, if_true]
  | false => simp only [places, hmajor, Bool.false_eq_true, if_false, Prod.swap_prod_mk]

/-- The places that the elements are moved between. -/
def moves (t : Transpose) (dims : List Nat) : List (Nat × Nat) := (positions dims).map t.places

theorem nested_eq_moves {L : List Nat} {n : Nat} (hn : L.length = n + 1) (s : TransposeState) :
    nested (L.getD · 0) (t.transposeBody (L.getD · 0) (n + 1) (stride (L.getD · 0) n)) n 0
        (fun _ => 0) s =
      (t.moves L).foldlM t.move s := by
  rw [nested_eq_positions hn (fun s p => t.move s (t.places p))
    (fun index s hzero => transposeBody_eq hzero s) (Nat.zero_add n) rfl, moves, List.foldlM_map]
  simp only [List.drop_zero, columnBase, rowBase, stride, Nat.zero_mul, Nat.zero_add, Nat.one_mul]

theorem transposeArray_of_two {dimens : List Nat} {n : Nat}
    (hn : (countedDims dimens).length = n + 2) (fuel : Nat) (m : Mem) :
    t.transposeArray fuel dimens m =
      odometer .rounds ((countedDims dimens).getD · 0) (n + 1)
        (t.transposeBody ((countedDims dimens).getD · 0) (n + 2)
          (stride ((countedDims dimens).getD · 0) (n + 1)))
        fuel (fun _ => 0) 0 { mem := m, calls := [] } := by
  simp only [transposeArray, hn]
  rw [if_neg (by omega), foldl_stride]
  rfl

theorem transposeArray_of_one {dimens : List Nat} (hn : (countedDims dimens).length ≤ 1)
    (fuel : Nat) (m : Mem) : t.transposeArray fuel dimens m = .ok { mem := m, calls := [] } :=
  if_pos hn

/-- With two dimensions or more `transpose_array` makes the moves, in order. -/
theorem exists_transposeArray {dimens : List Nat} {n : Nat}
    (hn : (countedDims dimens).length = n + 2) (m : Mem) :
    ∃ fuel, t.transposeArray fuel dimens m =
      (t.moves (countedDims dimens)).foldlM t.move { mem := m, calls := [] } := by
  simp only [transposeArray_of_two hn]
  rw [← nested_eq_moves hn]
  exact exists_odometer (Nat.succ_pos n) _

theorem moves_of_transposeArray {dimens : List Nat} {n fuel : Nat}
    (hn : (countedDims dimens).length = n + 2) {m : Mem}
    {r : Except TransposeStop TransposeState} (hr : r ≠ .error .rounds)
    (h : t.transposeArray fuel dimens m = r) :
    (t.moves (countedDims dimens)).foldlM t.move { mem := m, calls := [] } = r := by
  rw [transposeArray_of_two hn] at h
  rw [← nested_eq_moves hn]
  exact nested_of_odometer (Nat.succ_pos n) hr h

/-! ## Where a transposition is right -/

theorem mem_moves {dims : List Nat} {p : Nat × Nat} :
    p ∈ t.moves dims ↔ ∃ indices, Within dims indices ∧
      p = t.places (columnMajor dims indices, rowMajor dims indices) := by
  rw [moves, List.mem_map]
  constructor
  · rintro ⟨q, hq, rfl⟩
    obtain ⟨indices, hin, rfl⟩ := mem_positions.mp hq
    exact ⟨indices, hin, rfl⟩
  · rintro ⟨indices, hin, rfl⟩
    exact ⟨_, mem_positions.mpr ⟨indices, hin, rfl⟩, rfl⟩

theorem length_moves (dims : List Nat) : (t.moves dims).length = dims.prod := by
  have h := congrArg List.length (positions_snd dims)
  rwa [List.length_map, List.length_range, ← List.length_map (f := t.places)] at h

/-- Both places of a move run through all places once. -/
theorem moves_places (t : Transpose) (dims : List Nat) :
    ((t.moves dims).map Prod.fst).Nodup ∧ ((t.moves dims).map Prod.snd).Nodup ∧
      (∀ x, x ∈ (t.moves dims).map Prod.fst ↔ x < dims.prod) ∧
      ∀ x, x ∈ (t.moves dims).map Prod.snd ↔ x < dims.prod := by
  have hfst : ∀ x, x ∈ (positions dims).map Prod.fst ↔ x < dims.prod := by
    intro x
    constructor
    · intro hx
      obtain ⟨p, hp, rfl⟩ := List.mem_map.mp hx
      exact fst_lt_of_mem_positions hp
    · intro hx
      obtain ⟨p, hp, rfl⟩ := exists_position_of_fst hx
      exact List.mem_map_of_mem hp
  have hsnd : ∀ x, x ∈ (positions dims).map Prod.snd ↔ x < dims.prod := by
    intro x
    rw [positions_snd, List.mem_range]
  unfold moves
  cases hmajor : t.sourceColumnMajor with
  | true =>
    have hplaces : t.places = id := by
      funext p
      simp [places, hmajor]
    rw [hplaces, List.map_id]
    exact ⟨nodup_fst dims, nodup_snd dims, hfst, hsnd⟩
  | false =>
    have hplaces : t.places = Prod.swap := by
      funext p
      simp [places, hmajor]
    rw [hplaces, List.map_map, List.map_map]
    exact ⟨nodup_snd dims, nodup_fst dims, hsnd, hfst⟩

theorem lt_of_mem_moves {dims : List Nat} {p : Nat × Nat} (h : p ∈ t.moves dims) :
    p.1 < dims.prod ∧ p.2 < dims.prod := by
  obtain ⟨-, -, hfst, hsnd⟩ := t.moves_places dims
  exact ⟨(hfst p.1).mp (List.mem_map_of_mem h), (hsnd p.2).mp (List.mem_map_of_mem h)⟩

/-- The end of a place within an array of `P` elements. -/
theorem place_le {n i P : Nat} (h : i < P) : n * i + n ≤ n * P := by
  have hle : n * (i + 1) ≤ n * P := Nat.mul_le_mul_left n h
  rw [Nat.mul_add, Nat.mul_one] at hle
  exact hle

theorem movesApart_of_placed {dimens : List Nat} (hplaced : t.ArraysApart dimens ∨ t.InPlace)
    {p : Nat × Nat} (hp : p.1 < dimens.prod ∧ p.2 < dimens.prod) : t.MovesApart p := by
  unfold MovesApart srcAt destAt
  have hsrc := place_le (n := t.size) hp.1
  have hdest := place_le (n := t.outSize) hp.2
  cases hplaced with
  | inl hapart =>
    cases hapart with
    | inl h => exact .inr (.inl (by omega))
    | inr h => exact .inr (.inr (by omega))
  | inr hplace =>
    rw [hplace.1, hplace.2]
    by_cases hsame : p.1 = p.2
    · exact .inl (by rw [hsame])
    · by_cases hempty : t.size = 0
      · exact .inl (by rw [hempty, Nat.zero_mul, Nat.zero_mul])
      · have h := place_apart (a := t.src) (n := t.size) (x := t.src + t.size * p.1) hsame
          ⟨Nat.le_refl _, by omega⟩
        have h' := place_apart (a := t.src) (n := t.size) (x := t.src + t.size * p.2)
          (Ne.symm hsame) ⟨Nat.le_refl _, by omega⟩
        exact .inr (by omega)

/-- What a place of the source holds until it is read, if nothing before wrote there. -/
theorem moves_source (hconvert : t.ElementsConvert) {pre : List (Nat × Nat)} {i : Nat}
    (hapart : ∀ q ∈ pre, t.MovesApart q) {s s₁ : TransposeState}
    (hrun : pre.foldlM t.move s = .ok s₁)
    (hother : ∀ q ∈ pre, ∀ x, t.srcAt i ≤ x → x < t.srcAt i + t.size →
      x < t.destAt q.2 ∨ t.destAt q.2 + t.outSize ≤ x) :
    s₁.mem.read (t.srcAt i) t.size = s.mem.read (t.srcAt i) t.size :=
  Mem.read_congr fun x hlow hhigh => moves_rest hconvert hapart hrun fun q hq =>
    hother q hq x hlow hhigh

/-- Elements of a simple type are converted one call each. -/
theorem calls_of_moves (hsimple : ¬ t.BadType) {ps : List (Nat × Nat)}
    {s : TransposeState} {r : Except TransposeStop TransposeState}
    (hrun : ps.foldlM t.move s = r) :
    (∀ s', r = .ok s' → s'.calls.length = s.calls.length + ps.length) ∧
      ∀ s', r ≠ .error (.badType s') := by
  induction ps generalizing s with
  | nil =>
    subst hrun
    refine ⟨fun s' h => ?_, fun s' h => by cases h⟩
    cases h
    rfl
  | cons p ps ih =>
    rw [List.foldlM_cons, move, transposeElement, if_neg hsimple] at hrun
    cases hconvert : ffsInternalConvertField t.floats t.field s.mem (t.src + t.size * p.1)
        t.destType t.destSize (t.dest + t.outSize * p.2) with
    | none =>
      rw [hconvert] at hrun
      subst hrun
      exact ⟨fun s' h => (by cases h), fun s' h => by cases h⟩
    | some m =>
      rw [hconvert] at hrun
      obtain ⟨hcalls, hbad⟩ := ih hrun
      refine ⟨fun s' h => ?_, hbad⟩
      rw [hcalls s' h, List.length_append, List.length_singleton, List.length_cons]
      omega

theorem returns_of_moves {dimens : List Nat} {n : Nat}
    (hn : (countedDims dimens).length = n + 2) {m : Mem} {s : TransposeState}
    (hrun : (t.moves (countedDims dimens)).foldlM t.move { mem := m, calls := [] } = .ok s) :
    t.Returns dimens m s := by
  obtain ⟨fuel, hfuel⟩ := exists_transposeArray (t := t) hn m
  exact ⟨fuel, .inl (hfuel.trans hrun)⟩

theorem moves_of_returns (hsimple : ¬ t.BadType) {dimens : List Nat} {n : Nat}
    (hn : (countedDims dimens).length = n + 2) {m : Mem} {s : TransposeState}
    (h : t.Returns dimens m s) :
    (t.moves (countedDims dimens)).foldlM t.move { mem := m, calls := [] } = .ok s := by
  obtain ⟨fuel, h | h⟩ := h
  · exact moves_of_transposeArray hn (by simp) h
  · have hrun := moves_of_transposeArray hn (by simp) h
    exact absurd rfl ((calls_of_moves hsimple hrun).2 s)

theorem prod_countedDims_pos (dimens : List Nat) : 0 < (countedDims dimens).prod := by
  refine Nat.pos_of_ne_zero (List.prod_ne_zero fun hzero => ?_)
  simpa using List.mem_takeWhile_imp hzero

theorem countedDims_of_no_zero {dimens : List Nat} (h : 0 ∉ dimens) :
    countedDims dimens = dimens := by
  refine List.takeWhile_eq_self_iff.mpr fun d hd => ?_
  simp only [ne_eq, decide_not, Bool.not_eq_true', decide_eq_false_iff_not]
  rintro rfl
  exact h hd

/-- No element: nothing is to be done. -/
theorem transposed_nothing {dimens : List Nat} (hzero : 0 ∈ dimens) (m : Mem) :
    t.Transposed dimens m { mem := m, calls := [] } := by
  have hprod : dimens.prod = 0 := List.prod_eq_zero hzero
  constructor
  · intro indices hin p hp
    have hmem : p ∈ t.moves dimens := mem_moves.mpr ⟨indices, hin, hp⟩
    have hlt := (lt_of_mem_moves hmem).1
    omega
  · intro x _
    rfl
  · rw [hprod]
    rfl
  · intro call hcall
    cases hcall

/-- What the moves leave is the transposed array. -/
theorem transposed_of_moves (hconvert : t.ElementsConvert) {dimens : List Nat}
    (hplaced : t.ArraysApart dimens ∨ t.InPlace)
    (hkind : t.ArraysApart dimens ∨ SameOrder dimens ∨ t.Constant) {m : Mem}
    {s : TransposeState}
    (hrun : (t.moves dimens).foldlM t.move { mem := m, calls := [] } = .ok s) :
    t.Transposed dimens m s := by
  have hapart : ∀ p ∈ t.moves dimens, t.MovesApart p :=
    fun p hp => movesApart_of_placed hplaced (lt_of_mem_moves hp)
  obtain ⟨s', hrun', hcalls⟩ := exists_moves hconvert hapart { mem := m, calls := [] }
  obtain rfl : s = s' := Except.ok.inj (hrun.symm.trans hrun')
  rw [List.nil_append] at hcalls
  obtain ⟨-, hnodup, -, -⟩ := t.moves_places dimens
  constructor
  · intro indices hin p hp
    have hmem : p ∈ t.moves dimens := mem_moves.mpr ⟨indices, hin, hp⟩
    have hlt := lt_of_mem_moves hmem
    obtain ⟨pre, rest, hsplit⟩ := List.append_of_mem hmem
    rw [hsplit] at hrun hnodup hapart
    obtain ⟨s₁, hpre, helement⟩ := moves_element hconvert hapart hnodup hrun
    rw [← helement]
    have hapart' : ∀ q ∈ pre, t.MovesApart q := fun q hq => hapart q (List.mem_append_left _ hq)
    have hlt' : ∀ q ∈ pre, q.2 < dimens.prod := fun q hq =>
      (lt_of_mem_moves (hsplit ▸ List.mem_append_left _ hq)).2
    by_cases haway : t.ArraysApart dimens
    · -- Nothing is written to the source.
      rw [moves_source hconvert hapart' hpre]
      intro q hq x hlow hhigh
      have hsrc := place_le (n := t.size) hlt.1
      have hdest := place_le (n := t.outSize) (hlt' q hq)
      unfold srcAt at hlow hhigh
      unfold destAt
      cases haway with
      | inl h => exact .inl (by omega)
      | inr h => exact .inr (by omega)
    · cases hkind.resolve_left haway with
      | inl hsame =>
        -- Each element is read and written where it is.
        have hinplace := hplaced.resolve_left haway
        have hstay : p.1 = p.2 := by
          rw [hp]
          unfold places
          split
          · exact hsame indices hin
          · exact (hsame indices hin).symm
        rw [moves_source hconvert hapart' hpre]
        intro q hq x hlow hhigh
        rw [List.map_append, List.map_cons] at hnodup
        have hne : p.1 ≠ q.2 := by
          intro heq
          have hdisjoint := (List.nodup_append.mp hnodup).2.2 q.2 (List.mem_map_of_mem hq) p.2
            List.mem_cons_self
          exact hdisjoint (heq.symm.trans hstay)
        unfold destAt
        rw [hinplace.1, hinplace.2]
        exact place_apart hne ⟨hlow, hhigh⟩
      | inr hconstant =>
        exact hconstant _ _ (Mem.length_read _ _ _) (Mem.length_read _ _ _)
  · intro x hx
    refine moves_rest hconvert hapart hrun fun p hp => ?_
    have hdest := place_le (n := t.outSize) (lt_of_mem_moves hp).2
    unfold destAt
    omega
  · rw [hcalls, List.length_map, length_moves]
  · intro call hcall
    rw [hcalls] at hcall
    obtain ⟨p, hp, rfl⟩ := List.mem_map.mp hcall
    exact place_le (lt_of_mem_moves hp).1

theorem transposes_of_transposable {dimens : List Nat} (hrank : 2 ≤ dimens.length)
    (hplaced : t.ArraysApart dimens ∨ t.InPlace) (h : t.Transposable dimens) :
    t.Transposes dimens := by
  intro m
  unfold Transposable at h
  by_cases hzero : 0 ∈ dimens
  · rw [if_pos hzero] at h
    refine ⟨{ mem := m, calls := [] }, ?_, transposed_nothing hzero m⟩
    by_cases hone : (countedDims dimens).length ≤ 1
    · exact ⟨0, .inl (transposeArray_of_one hone 0 m)⟩
    · -- The first element is refused.
      have hbad := h.resolve_left hone
      obtain ⟨n, hn⟩ : ∃ n, (countedDims dimens).length = n + 2 :=
        ⟨(countedDims dimens).length - 2, by omega⟩
      obtain ⟨fuel, hfuel⟩ := exists_transposeArray (t := t) hn m
      refine ⟨fuel, .inr ?_⟩
      have hpos := prod_countedDims_pos dimens
      rw [← length_moves (t := t)] at hpos
      obtain ⟨p, ps, hmoves⟩ := List.exists_cons_of_length_pos hpos
      rw [hfuel, hmoves, List.foldlM_cons, move, transposeElement, if_pos hbad]
      rfl
  · rw [if_neg hzero] at h
    obtain ⟨n, hn⟩ : ∃ n, dimens.length = n + 2 := ⟨dimens.length - 2, by omega⟩
    have hcounted := countedDims_of_no_zero hzero
    obtain ⟨s, hrun, -⟩ := exists_moves h.1
      (fun p hp => movesApart_of_placed hplaced (lt_of_mem_moves hp)) { mem := m, calls := [] }
    refine ⟨s, returns_of_moves (by rw [hcounted]; exact hn) (by rw [hcounted]; exact hrun), ?_⟩
    exact transposed_of_moves h.1 hplaced h.2 hrun

/-- The first element shows that there are conversions. -/
theorem elementsConvert_of_transposes {dimens : List Nat} (hzero : 0 ∉ dimens)
    (h : t.Transposes dimens) : t.ElementsConvert := by
  intro bytes hlen
  obtain ⟨-, -, hfst, -⟩ := t.moves_places dimens
  have hpos : 0 < dimens.prod := Nat.pos_of_ne_zero (List.prod_ne_zero hzero)
  obtain ⟨p, hp, hfirst⟩ := List.mem_map.mp ((hfst 0).mpr hpos)
  obtain ⟨indices, hin, heq⟩ := mem_moves.mp hp
  obtain ⟨s, -, hs⟩ := h (Mem.write (fun _ => 0) t.src bytes)
  have helement := hs.elements indices hin p heq
  rw [hfirst, srcAt, Nat.mul_zero, Nat.add_zero, Mem.read_write_of_length hlen] at helement
  exact ⟨_, helement, Mem.length_read _ _ _⟩

/-- In its own place a transposition that moves something gives what does not depend on the
element. -/
theorem constant_of_transposes {dimens : List Nat} (hrank : 2 ≤ dimens.length)
    (hzero : 0 ∉ dimens) (hinplace : t.InPlace) (hmoves : ¬ SameOrder dimens)
    (h : t.Transposes dimens) : t.Constant := by
  have hconvert := elementsConvert_of_transposes hzero h
  obtain ⟨n, hn⟩ : ∃ n, dimens.length = n + 2 := ⟨dimens.length - 2, by omega⟩
  have hcounted := countedDims_of_no_zero hzero
  obtain ⟨hfst, hsnd, hmemfst, hmemsnd⟩ := t.moves_places dimens
  have hmoved : ∃ p ∈ t.moves dimens, p.1 ≠ p.2 := by
    unfold SameOrder at hmoves
    push Not at hmoves
    obtain ⟨indices, hin, hne⟩ := hmoves
    refine ⟨_, mem_moves.mpr ⟨indices, hin, rfl⟩, ?_⟩
    unfold places
    split
    · exact hne
    · exact Ne.symm hne
  obtain ⟨pre, p, mid, q, rest, hsplit, hread, hne, hnew⟩ :=
    exists_overwritten hfst hsnd (fun x => (hmemfst x).trans (hmemsnd x).symm) hmoved
  have hapart : ∀ r ∈ t.moves dimens, t.MovesApart r :=
    fun r hr => movesApart_of_placed (.inr hinplace) (lt_of_mem_moves hr)
  rw [hsplit] at hapart hsnd
  -- What the place that is written twice holds at first does not matter.
  have hlast : ∀ bytes : List UInt8, bytes.length = t.size → ∀ out,
      t.convertElement (Mem.read (fun _ => 0) (t.srcAt p.1) t.size) = some out →
      t.convertElement bytes = t.convertElement out := by
    intro bytes hlen out hout
    obtain ⟨s, hreturns, hs⟩ := h (Mem.write (fun _ => 0) (t.srcAt q.1) bytes)
    have hrun := moves_of_returns (simple_of_elementsConvert hconvert)
      (by rw [hcounted]; exact hn) hreturns
    rw [hcounted, hsplit] at hrun
    obtain ⟨s₂, hmid, hwrote⟩ := moves_element hconvert hapart hsnd hrun
    have hapart' : ∀ r ∈ pre ++ p :: mid, t.MovesApart r :=
      fun r hr => hapart r (List.mem_append_left _ hr)
    rw [List.map_append] at hsnd
    obtain ⟨s₁, hpre, hfirst⟩ := moves_element hconvert hapart' (List.nodup_append.mp hsnd).1 hmid
    rw [moves_source hconvert (fun r hr => hapart' r (List.mem_append_left _ hr)) hpre] at hfirst
    · have hkept : (Mem.write (fun _ => 0) (t.srcAt q.1) bytes).read (t.srcAt p.1) t.size =
          Mem.read (fun _ => 0) (t.srcAt p.1) t.size := by
        refine Mem.read_congr fun x hlow hhigh => Mem.write_outside ?_
        rw [hlen, hread]
        exact place_apart hne ⟨hlow, hhigh⟩
      have hqmem : q ∈ t.moves dimens := by simp [hsplit]
      obtain ⟨indices, hin, heq⟩ := mem_moves.mp hqmem
      have hright := hs.elements indices hin q heq
      rw [Mem.read_write_of_length hlen] at hright
      rw [hkept, hout] at hfirst
      rw [hright, ← hwrote, Option.some.inj hfirst, hread, srcAt, destAt, hinplace.1, hinplace.2]
    · intro r hr x hlow hhigh
      have hother : p.1 ≠ r.2 := fun heq => hnew (heq ▸ List.mem_map_of_mem hr)
      unfold destAt
      rw [hinplace.1, hinplace.2]
      exact place_apart hother ⟨hlow, hhigh⟩
  intro bytes bytes' hlen hlen'
  obtain ⟨out, hout, -⟩ := hconvert _ (Mem.length_read (fun _ => 0) (t.srcAt p.1) t.size)
  rw [hlast bytes hlen out hout, hlast bytes' hlen' out hout]

theorem transposable_of_transposes {dimens : List Nat} (hrank : 2 ≤ dimens.length)
    (hplaced : t.ArraysApart dimens ∨ t.InPlace) (h : t.Transposes dimens) :
    t.Transposable dimens := by
  unfold Transposable
  by_cases hzero : 0 ∈ dimens
  · rw [if_pos hzero]
    by_contra hnot
    push Not at hnot
    obtain ⟨n, hn⟩ : ∃ n, (countedDims dimens).length = n + 2 :=
      ⟨(countedDims dimens).length - 2, by omega⟩
    obtain ⟨s, hreturns, hs⟩ := h fun _ => 0
    have hrun := moves_of_returns hnot.2 hn hreturns
    have hcalls := (calls_of_moves hnot.2 hrun).1 s rfl
    have hcount := hs.count
    have hpos := prod_countedDims_pos dimens
    rw [List.prod_eq_zero hzero] at hcount
    rw [length_moves] at hcalls
    omega
  · rw [if_neg hzero]
    refine ⟨elementsConvert_of_transposes hzero h, ?_⟩
    by_cases haway : t.ArraysApart dimens
    · exact .inl haway
    · by_cases hsame : SameOrder dimens
      · exact .inr (.inl hsame)
      · exact .inr (.inr (constant_of_transposes hrank hzero (hplaced.resolve_left haway) hsame h))

/-- An array is transposed as it should be under this condition and no other. -/
theorem transposes_iff_transposable (t : Transpose) {dimens : List Nat}
    (hrank : 2 ≤ dimens.length) (hplaced : t.ArraysApart dimens ∨ t.InPlace) :
    t.Transposes dimens ↔ t.Transposable dimens :=
  ⟨transposable_of_transposes hrank hplaced, transposes_of_transposable hrank hplaced⟩

/-- An array of bytes from address 0 to address 64. -/
def bytesAway : Transpose :=
  { floats := noFloats,
    field := { offset := 0, size := 1, dataType := .integerType, byteSwap := false,
               srcFloatFormat := 1, targetFloatFormat := 1 },
    destType := .integerType, destSize := 1, src := 0, dest := 64, sourceColumnMajor := true }

theorem transposes_iff_transposable_bytesAway :
    bytesAway.Transposes [2, 3] ↔ bytesAway.Transposable [2, 3] :=
  transposes_iff_transposable bytesAway (by decide) (.inl (.inl (by decide)))

/-- An array with an empty third dimension is taken for one of four elements. -/
theorem emptyThirdDimension_transposed :
    bytesAway.ArraysApart [2, 2, 0] ∧
      (∃ s, bytesAway.transposeArray 5 [2, 2, 0] (fun x => if x < 64 then 7 else 0) = .ok s ∧
        s.calls.length = 4 ∧ s.mem 67 = 7) ∧
      ¬ bytesAway.Transposes [2, 2, 0] := by
  refine ⟨.inl (by decide), ⟨_, rfl, rfl, by decide⟩, fun h => ?_⟩
  have hcond := transposable_of_transposes (by decide) (.inl (.inl (by decide))) h
  rw [Transposable, if_pos (by decide)] at hcond
  exact absurd hcond (by decide)

end Transpose

end FFS
