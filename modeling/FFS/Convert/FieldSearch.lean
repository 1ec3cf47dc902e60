import FFS.Convert.Conversion

/-!
# Looking for a field

`find_field` and `find_field_for_conv` look near an index before they go through the list.  The
first is given the index of a field of the list.  The second is given the number of a target field
and looks in the list of the source, where it asks for the end of the list only on the way up.
-/

namespace FFS

open Machine

namespace FMFieldList

/-! ## The loops -/

/-- A search comes to `strcmp` with the NULL of the terminator, or to what is behind it. -/
inductive SearchStop where
  | nullName
  | pastEnd
deriving DecidableEq, Repr

/-- `fields[i].field_name`, which the terminator does not have. -/
def nameAt (fields : List FMField) (i : Nat) : Except SearchStop (Option (List UInt8)) :=
  if i ≤ fields.length then .ok (fields[i]?.map (·.fieldName.bytes)) else .error .pastEnd

/-- The loop from `i` downwards, `rounds` times. -/
def searchDown (name : List UInt8) (fields : List FMField) :
    Nat → Nat → Except SearchStop (Option Nat)
  | 0, _ => .ok none
  | rounds + 1, i => do
    match ← nameAt fields i with
    | none => throw .nullName
    | some fieldName =>
      if name = fieldName then return some i else searchDown name fields rounds (i - 1)

/-- The loop from `i` upwards, `rounds` times or up to the terminator. -/
def searchUp (name : List UInt8) (fields : List FMField) :
    Nat → Nat → Except SearchStop (Option Nat)
  | 0, _ => .ok none
  | rounds + 1, i => do
    match ← nameAt fields i with
    | none => return none
    | some fieldName =>
      if name = fieldName then return some i else searchUp name fields rounds (i + 1)

/-- The loop from the first field to the terminator, the fields from `i` on being left. -/
def scan (name : List UInt8) : List FMField → Nat → Option Nat
  | [], _ => none
  | f :: fields, i => if name = f.fieldName.bytes then some i else scan name fields (i + 1)

/-- The way down starts at `start`. -/
def search (start rounds : Nat) (name : List UInt8) (fields : List FMField) (curField : Nat) :
    Except SearchStop (Option Nat) :=
  if 10 < curField then do
    match ← searchDown name fields rounds start with
    | some i => return some i
    | none =>
      match ← searchUp name fields 9 (curField + 1) with
      | some i => return some i
      | none => return scan name fields 0
  else .ok (scan name fields 0)

/-- `find_field` -/
def findField (name : List UInt8) (fields : List FMField) (curField : Nat) :
    Except SearchStop (Option Nat) :=
  search (curField - 1) 9 name fields curField

/-- `find_field_for_conv` -/
def findFieldForConv (name : List UInt8) (fields : List FMField) (curField : Nat) :
    Except SearchStop (Option Nat) :=
  search curField 10 name fields curField

/-! ## What the searches are for -/

def Named (name : List UInt8) (fields : List FMField) (i : Nat) : Prop :=
  ∃ f, fields[i]? = some f ∧ f.fieldName.bytes = name

/-- The search ends with the index of the field of the name, without one if there is none. -/
def Finds (name : List UInt8) (fields : List FMField) (result : Except SearchStop (Option Nat)) :
    Prop :=
  ∃ index, result = .ok index ∧ ∀ i, index = some i ↔ Named name fields i

/-- Both searches find every name in a list, from a field of its own and from a field of the
target. -/
structure SearchesRight (fields target : List FMField) : Prop where
  own : ∀ name, ∀ curField < fields.length, Finds name fields (findField name fields curField)
  forConv : ∀ name, ∀ curField < target.length,
    Finds name fields (findFieldForConv name fields curField)

/-! ## The order of a search -/

/-- The test of the other modules. -/
def hasName (name : List UInt8) (fields : List FMField) (i : Nat) : Bool :=
  fields[i]?.any (·.fieldName.bytes = name)

section

variable {name : List UInt8} {fields : List FMField}

theorem hasName_iff {i : Nat} : hasName name fields i = true ↔ Named name fields i := by
  rw [hasName, Named, Option.any_eq_true]
  simp only [decide_eq_true_eq]

theorem hasName_of_get {i : Nat} {f : FMField} (h : fields[i]? = some f) :
    hasName name fields i = decide (f.fieldName.bytes = name) := by
  rw [hasName, h]
  rfl

theorem hasName_of_le {i : Nat} (h : fields.length ≤ i) : hasName name fields i = false := by
  rw [hasName, List.getElem?_eq_none h]
  rfl

theorem nameAt_of_get {i : Nat} {f : FMField} (h : fields[i]? = some f) :
    nameAt fields i = .ok (some f.fieldName.bytes) := by
  have hlt := (List.getElem?_eq_some_iff.mp h).1
  rw [nameAt, if_pos (Nat.le_of_lt hlt), h]
  rfl

theorem nameAt_length (fields : List FMField) : nameAt fields fields.length = .ok none := by
  rw [nameAt, if_pos (Nat.le_refl _), List.getElem?_eq_none (Nat.le_refl _)]
  rfl

/-- The numbers of the rounds, the first one apart. -/
theorem map_range_succ (g : Nat → Nat) (rounds : Nat) :
    (List.range (rounds + 1)).map g = g 0 :: (List.range rounds).map fun k => g (k + 1) := by
  rw [List.range_succ_eq_map, List.map_cons, List.map_map]
  rfl

/-- From a field of the list the way down stays in it. -/
theorem searchDown_eq {rounds i : Nat} (h : i < fields.length) :
    searchDown name fields rounds i =
      .ok (((List.range rounds).map (i - ·)).find? (hasName name fields)) := by
  induction rounds generalizing i with
  | zero => rfl
  | succ rounds ih =>
    have hget := List.getElem?_eq_getElem h
    have hrest : (fun k => i - (k + 1)) = fun k => i - 1 - k := by
      funext k
      omega
    rw [searchDown, nameAt_of_get hget, map_range_succ, Nat.sub_zero, hrest, List.find?_cons,
      hasName_of_get hget]
    show (if name = _ then Except.ok (some i) else searchDown name fields rounds (i - 1)) = _
    by_cases heq : fields[i].fieldName.bytes = name
    · rw [if_pos heq.symm, decide_eq_true heq]
    · rw [if_neg fun e => heq e.symm, decide_eq_false heq]
      exact ih (by omega)

/-- The way up ends at the terminator, behind which there is no name. -/
theorem searchUp_eq {rounds i : Nat} (h : i ≤ fields.length) :
    searchUp name fields rounds i =
      .ok (((List.range rounds).map (i + ·)).find? (hasName name fields)) := by
  induction rounds generalizing i with
  | zero => rfl
  | succ rounds ih =>
    rw [searchUp]
    by_cases hlt : i < fields.length
    · have hget := List.getElem?_eq_getElem hlt
      have hfirst : hasName name fields (i + 0) = decide (fields[i].fieldName.bytes = name) :=
        hasName_of_get hget
      have hrest : (fun k => i + (k + 1)) = fun k => i + 1 + k := by
        funext k
        omega
      rw [nameAt_of_get hget, map_range_succ, hrest, List.find?_cons, hfirst]
      show (if name = _ then Except.ok (some i) else searchUp name fields rounds (i + 1)) = _
      by_cases heq : fields[i].fieldName.bytes = name
      · rw [if_pos heq.symm, decide_eq_true heq]
        rfl
      · rw [if_neg fun e => heq e.symm, decide_eq_false heq]
        exact ih hlt
    · have hend : i = fields.length := by omega
      subst hend
      rw [nameAt_length, List.find?_eq_none.mpr]
      · rfl
      · intro j hj
        obtain ⟨k, -, rfl⟩ := List.mem_map.mp hj
        rw [hasName_of_le (Nat.le_add_right _ _)]
        decide

theorem scan_eq (name : List UInt8) (before fields : List FMField) :
    scan name fields before.length =
      ((List.range fields.length).map (before.length + ·)).find?
        (hasName name (before ++ fields)) := by
  induction fields generalizing before with
  | nil => rfl
  | cons f fields ih =>
    have hget : (before ++ f :: fields)[before.length + 0]? = some f := by
      rw [Nat.add_zero, List.getElem?_append_right (Nat.le_refl _), Nat.sub_self]
      rfl
    have hih := ih (before ++ [f])
    have hrest : (fun k => before.length + (k + 1)) = fun k => before.length + 1 + k := by
      funext k
      omega
    rw [List.length_append, List.length_singleton, List.append_assoc, List.singleton_append] at hih
    rw [scan, List.length_cons, map_range_succ, hrest, List.find?_cons,
      hasName_of_get hget]
    by_cases heq : f.fieldName.bytes = name
    · rw [if_pos heq.symm, decide_eq_true heq]
      rfl
    · rw [if_neg fun e => heq e.symm, decide_eq_false heq]
      exact hih

theorem scan_zero (name : List UInt8) (fields : List FMField) :
    scan name fields 0 = (List.range fields.length).find? (hasName name fields) := by
  have h := scan_eq name [] fields
  simp only [List.length_nil, Nat.zero_add, List.map_id', List.nil_append] at h
  exact h

/-- A search from a field of the list goes through one order of the indices. -/
theorem search_eq {start rounds curField : Nat} (hstart : start < fields.length)
    (hcur : curField < fields.length) :
    search start rounds name fields curField =
      .ok (((if 10 < curField then
          (List.range rounds).map (start - ·) ++ (List.range 9).map (curField + 1 + ·) else []) ++
        List.range fields.length).find? (hasName name fields)) := by
  rw [search, scan_zero]
  by_cases hten : 10 < curField
  · rw [if_pos hten, if_pos hten, searchDown_eq hstart, searchUp_eq hcur, List.find?_append,
      List.find?_append]
    cases ((List.range rounds).map (start - ·)).find? (hasName name fields) with
    | some i => rfl
    | none =>
      cases ((List.range 9).map (curField + 1 + ·)).find? (hasName name fields) with
      | some i => rfl
      | none => rfl
  · rw [if_neg hten, if_neg hten, List.nil_append]

theorem search_of_le {start rounds curField : Nat} (h : curField ≤ 10) :
    search start rounds name fields curField =
      .ok ((List.range fields.length).find? (hasName name fields)) := by
  rw [search, if_neg (by omega), scan_zero]

/-- From a number that the list does not have, the way down begins at the terminator or behind
it. -/
theorem findFieldForConv_stops {curField : Nat} (hten : 10 < curField)
    (h : fields.length ≤ curField) :
    ∃ stop, findFieldForConv name fields curField = .error stop := by
  rw [findFieldForConv, search, if_pos hten, searchDown]
  by_cases hend : curField = fields.length
  · refine ⟨.nullName, ?_⟩
    rw [hend, nameAt_length]
    rfl
  · refine ⟨.pastEnd, ?_⟩
    rw [nameAt, if_neg (by omega)]
    rfl

/-! ## The result -/

theorem Named.unique {i j : Nat} (h : (fields.map (·.fieldName)).Nodup)
    (hi : Named name fields i) (hj : Named name fields j) : i = j := by
  obtain ⟨f, hf, hfname⟩ := hi
  obtain ⟨g, hg, hgname⟩ := hj
  have hsame : f.fieldName = g.fieldName := CString.ext (hfname.trans hgname.symm)
  have hlt : i < (fields.map (·.fieldName)).length := by
    rw [List.length_map]
    exact (List.getElem?_eq_some_iff.mp hf).1
  refine (List.getElem?_inj hlt h).mp ?_
  rw [List.getElem?_map, List.getElem?_map, hf, hg, Option.map_some, Option.map_some, hsame]

/-- An order that has all indices of the list, and others before them, finds the field. -/
theorem finds_find? (h : (fields.map (·.fieldName)).Nodup) (name : List UInt8)
    (near : List Nat) :
    Finds name fields (.ok ((near ++ List.range fields.length).find? (hasName name fields))) := by
  refine ⟨_, rfl, fun i => ⟨fun hfound => ?_, fun hnamed => ?_⟩⟩
  · exact hasName_iff.mp (List.find?_some hfound)
  · have hlt : i < fields.length := by
      obtain ⟨f, hf, -⟩ := hnamed
      exact (List.getElem?_eq_some_iff.mp hf).1
    refine find?_eq_some_of_unique (List.mem_append_right _ (List.mem_range.mpr hlt))
      (hasName_iff.mpr hnamed) fun j _ hj => ?_
    exact (hasName_iff.mp hj).unique h hnamed

theorem search_finds (h : (fields.map (·.fieldName)).Nodup) (name : List UInt8)
    {start curField : Nat} (rounds : Nat)
    (hcur : curField ≤ 10 ∨ start < fields.length ∧ curField < fields.length) :
    Finds name fields (search start rounds name fields curField) := by
  rcases hcur with hle | ⟨hstart, hlt⟩
  · rw [search_of_le hle]
    exact finds_find? h name []
  · rw [search_eq hstart hlt]
    exact finds_find? h name _

/-- Both searches are right unless the target has more fields than the list, and more than
eleven. -/
theorem searchesRight_iff (h : (fields.map (·.fieldName)).Nodup) (target : List FMField) :
    SearchesRight fields target ↔ target.length ≤ 11 ∨ target.length ≤ fields.length := by
  constructor
  · intro hright
    by_contra hlong
    have hlonger : 11 < target.length ∧ fields.length < target.length := by omega
    -- the last field of the target
    obtain ⟨index, hok, -⟩ := hright.forConv [] (target.length - 1) (by omega)
    obtain ⟨stop, hstop⟩ := @findFieldForConv_stops [] fields (target.length - 1) (by omega)
      (by omega)
    rw [hstop] at hok
    cases hok
  · intro hshort
    constructor
    · intro name curField hcur
      exact search_finds h name 9 (.inr ⟨by omega, hcur⟩)
    · intro name curField hcur
      refine search_finds h name 10 ?_
      by_cases hten : curField ≤ 10
      · exact .inl hten
      · exact .inr ⟨by omega, by omega⟩

end

/-! ### A twelfth field -/

theorem noNul_plainName (n : Nat) : 0 ∉ List.replicate (n + 1) (chr 'a') := by
  intro h
  have hzero : (0 : UInt8) = chr 'a' := List.eq_of_mem_replicate h
  revert hzero
  decide

def plainName (n : Nat) : CString := ⟨List.replicate (n + 1) (chr 'a'), noNul_plainName n⟩

def numberField (n : Nat) : FMField :=
  { fieldName := plainName n,
    fieldType := cstr ['i', 'n', 't', 'e', 'g', 'e', 'r'] (.refl false), fieldSize := 4,
    fieldOffset := Int32.ofNat (4 * n) }

def numberFields (n : Nat) : List FMField := (List.range n).map numberField

theorem plainName_injective {m n : Nat} (h : plainName m = plainName n) : m = n := by
  have hlength := congrArg CString.length h
  simp only [CString.length, plainName, List.length_replicate] at hlength
  omega

theorem nodup_numberFields (n : Nat) : ((numberFields n).map (·.fieldName)).Nodup := by
  rw [numberFields, List.map_map]
  exact List.nodup_range.map fun _ _ => plainName_injective

theorem searchesRight_number : SearchesRight (numberFields 12) (numberFields 12) :=
  (searchesRight_iff (nodup_numberFields 12) (numberFields 12)).mpr (.inr (Nat.le_refl _))

/-- The twelfth field of the target is looked for from the terminator on. -/
theorem eleven_not_searchesRight :
    ((numberFields 11).map (·.fieldName)).Nodup ∧
      ¬ SearchesRight (numberFields 11) (numberFields 12) := by
  refine ⟨nodup_numberFields 11, fun h => ?_⟩
  obtain ⟨index, hok, -⟩ := h.forConv [] 11 (by decide)
  obtain ⟨stop, hstop⟩ := @findFieldForConv_stops [] (numberFields 11) 11 (by decide) (by decide)
  rw [hstop] at hok
  cases hok

end FMFieldList

end FFS
