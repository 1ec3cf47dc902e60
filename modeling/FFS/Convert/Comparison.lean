import FFS.Convert.Compat
import FFS.FM.Context
import FFS.FM.Loaded
import FFS.FM.References
import FFS.FM.SentNames
import FFS.Machine.Acyclic

/-!
# Comparisons of formats

Three functions go through a format and its subformats: `FMformat_cmp_diff` by the lists of
subformats, which the subformats of a loaded format share with it, `count_total_IOfield` by the
fields, and `FMformat_cmp` by lists that it makes from the fields.  `depth` bounds the calls
inside each other, and a result is one that some depth suffices for.
-/

namespace FFS

open Machine Relation

/-- Registration or loading made the format. -/
def FormatObject.Made (f : FormatObject) : Prop :=
  if f.loaded then ∃ rep, loadFormat rep = some f.format
  else ∃ columnMajor ignoreDefaultValues structList,
    registerFormats columnMajor ignoreDefaultValues structList = some f.format

/-! ## The order -/

/-- `FMformat_order` -/
inductive FMformatOrder where
  | less
  | greater
  | equal
  | incompatible
deriving DecidableEq, Repr

/-- `get_subformats_context`: the stack and the list of subformats. -/
def getSubformatsContext (formats : List FMFormatBody) :
    Nat → List Nat × List Nat → Nat → Option (List Nat × List Nat)
  | 0, _, _ => none
  | depth + 1, (stack, list), i =>
    (subformatsOf formats i).foldlM (fun (state : List Nat × List Nat) sub =>
      (if sub ∈ state.1 then some state
       else getSubformatsContext formats depth state sub).map fun state =>
        (state.1, if sub ∈ state.2 then state.2 else state.2 ++ [sub])) (stack ++ [i], list)

/-- `get_subformats_IOformat` -/
def getSubformats (formats : List FMFormatBody) (depth i : Nat) : Option (List Nat) :=
  (getSubformatsContext formats depth ([], []) i).map fun state => state.2 ++ [i]

theorem length_of_dropWhile {α : Type} {p : α → Bool} {l rest : List α} {a : α}
    (h : l.dropWhile p = a :: rest) : rest.length < l.length := by
  have hle := (List.dropWhile_suffix (l := l) p).length_le
  rw [h, List.length_cons] at hle
  omega

/-- The merge of `FMformat_cmp` over two field lists in the order of their names.  Once the formats
are known not to be compatible nothing more is compared. -/
def cmpFields : FMformatOrder → List FMField → List FMField → Option FMformatOrder
  | result, [], [] => some result
  | result, _ :: _, [] => if result = .less then none else some .greater
  | result, [], _ :: _ => if result = .greater then none else some .less
  | result, f1 :: fields1, f2 :: fields2 =>
    if f1.fieldName = f2.fieldName then
      if ioFieldTypeEq f1.fieldType.bytes f2.fieldType.bytes then cmpFields result fields1 fields2
      else none
    else if fieldNameLe f1 f2 then
      if result = .less then none
      else
        -- Fields that the second list lacks are skipped, but not up to the end.
        match _h : fields1.dropWhile fun f => fieldNameLe f f2 && f.fieldName ≠ f2.fieldName with
        | [] => none
        | next :: fields1 => cmpFields .greater (next :: fields1) (f2 :: fields2)
    else if result = .greater then none
    else
      match _h : fields2.dropWhile fun f => fieldNameLe f f1 && f.fieldName ≠ f1.fieldName with
      | [] => none
      | next :: fields2 => cmpFields .less (f1 :: fields1) (next :: fields2)
  termination_by _ fields1 fields2 => fields1.length + fields2.length
  decreasing_by
  · simp only [List.length_cons]
    omega
  · have hlt := length_of_dropWhile _h
    simp only [List.length_cons]
    omega
  · have hlt := length_of_dropWhile _h
    simp only [List.length_cons]
    omega

/-- What the result of a pair of subformats makes of the result so far. -/
def FMformatOrder.combine (result sub : FMformatOrder) : Option FMformatOrder :=
  if sub = .incompatible then none
  else if sub = .equal then some result
  else if result = .equal then some sub
  else if result = sub then some result
  else none

/-- One subformat of the first list, which the format itself is not compared for.  `none` is that
the formats are not compatible. -/
def cmpSubformat (f1 f2 : FormatObject) (cmp : Nat → Nat → Option FMformatOrder)
    (subs2 : List Nat) (i : Nat) :
    Option FMformatOrder → Nat → Option (Option FMformatOrder)
  | none, _ => some none
  | some result, sub1 =>
    if sub1 = i then some (some result)
    else
      match sameNamed f1.bodies f2.bodies subs2 sub1 with
      | none => some (some result)
      | some sub2 => (cmp sub1 sub2).map result.combine

/-- `FMformat_cmp` for the formats numbered `i` and `j`. -/
def formatCmp (f1 f2 : FormatObject) : Nat → Nat → Nat → Option FMformatOrder
  | 0, _, _ => none
  | depth + 1, i, j => do
    let b1 ← f1.bodies[i]?
    let b2 ← f2.bodies[j]?
    match cmpFields .equal (sortByName b1.fieldList) (sortByName b2.fieldList) with
    | none => return .incompatible
    | some result => do
      let subs1 ← getSubformats f1.bodies depth i
      let subs2 ← getSubformats f2.bodies depth j
      let result ← subs1.foldlM (cmpSubformat f1 f2 (formatCmp f1 f2 depth) subs2 i) (some result)
      return result.getD .incompatible

/-- The subformats of the first format that have a namesake among those of the second. -/
def matched (f1 f2 : FormatObject) : List Nat :=
  (f1.subformatList 0).filter fun sub1 =>
    (sameNamed f1.bodies f2.bodies (f2.subformatList 0) sub1).isSome

/-! ## Numbers in range -/

theorem fillDerivedFormatValues_refs {candidates : List Nat} {l : List FMFormatBody} {self : Nat}
    {f g : FMFormatBody} (h : fillDerivedFormatValues candidates l self f = some g) {j : Nat}
    (hj : some j ∈ g.fieldSubformats) : j < l.length := by
  obtain ⟨f', hf', rfl⟩ := Option.map_eq_some_iff.mp h
  simp only [refillVars, List.map_map, List.mem_map, Function.comp_apply] at hj
  obtain ⟨⟨fmField, var, chosen⟩, hmem, hrefill⟩ := hj
  have hchosen : ∀ k, chosen = some k → k < l.length := by
    rintro k rfl
    exact generateVarList_refs hf' (List.of_mem_zip (List.of_mem_zip hmem).2).2
  simp only [refillVar] at hrefill
  split at hrefill
  · exact hchosen j hrefill
  · split at hrefill
    · cases hnamed : lastNamed l candidates (baseDataType fmField.fieldType.bytes) with
      | some k =>
        rw [hnamed, Option.some_or] at hrefill
        cases hrefill
        exact lt_of_lastNamed hnamed
      | none =>
        rw [hnamed, Option.none_or] at hrefill
        exact hchosen j hrefill
    · exact hchosen j hrefill

theorem made_of_registerFormats {columnMajor ignoreDefaultValues : Bool}
    {structList : List FMStructDesc} {f : FMFormat}
    (h : registerFormats columnMajor ignoreDefaultValues structList = some f) (address : Nat) :
    FormatObject.Made ⟨f, address, false⟩ := ⟨columnMajor, ignoreDefaultValues, structList, h⟩

theorem inRange_of_made {f : FormatObject} (h : f.Made) :
    InRange f.bodies ∧ 0 < f.bodies.length := by
  refine ⟨?_, Nat.succ_pos _⟩
  unfold FormatObject.Made at h
  split at h
  · obtain ⟨rep, hrep⟩ := h
    simp only [loadFormat, deriveLoaded, Option.bind_eq_bind, Option.bind_eq_some_iff,
      Option.guard_eq_some', exists_const] at hrep
    obtain ⟨g, -, filled, hfilled, -, hlength, hrest⟩ := hrep
    have hrange : InRange filled := inRange_of_pass
      (fun hgen _ hj => fillDerivedFormatValues_refs hgen hj) List.nodup_range
      (fun i hi => List.mem_range.mpr hi) hfilled
    have hpos : 0 < filled.length := by
      rw [← hlength]
      obtain ⟨below, hbelow⟩ := topoOrderSubformats_eq_cons filled
      rw [hbelow]
      exact Nat.succ_pos _
    have hbodies := inRange_reorder fun i hi => lt_of_mem_topoOrder hrange hpos hi
    have hbubbled := hbodies.congr (bubbleLoaded_unflagged _)
    split at hrest
    · cases hrest
    · next top subformats heq =>
      rw [heq] at hbubbled
      rw [FormatObject.bodies, ← Option.some.inj hrest]
      exact hbubbled
  · obtain ⟨columnMajor, ignoreDefaultValues, structList, hreg⟩ := h
    obtain ⟨copied, derived, aligned, hr⟩ := registration_of_some hreg
    intro i j hsees
    unfold Sees FormatObject.bodies at hsees
    rw [subformatsOf_congr hr.bubbled.1, hr.subformatsOf] at hsees
    obtain ⟨-, -, -, k, hk, rfl, -⟩ := hsees
    show _ < f.format.bodies.length
    rw [hr.length_bodies]
    exact List.idxOf_lt_length_of_mem hk

/-! ## The count -/

theorem exists_count {formats : List FMFormatBody} (hrange : InRange formats) {i : Nat}
    (hi : i < formats.length) (hacc : Acc (fun j i => Sees formats i j) i) :
    ∃ n, ∀ m, n ≤ m → ∃ count, countTotalIOField formats m i = some count := by
  induction hacc with
  | intro i _ ih =>
    obtain ⟨n, hn⟩ := exists_bound fun j (hj : j ∈ subformatsOf formats i) =>
      ih j hj (hrange i j hj)
    refine ⟨n + 1, fun m hm => ?_⟩
    obtain ⟨m, rfl⟩ := Nat.exists_eq_succ_of_ne_zero (show m ≠ 0 by omega)
    have hf := List.getElem?_eq_getElem hi
    have hsubs : subformatsOf formats i = (formats[i].fieldSubformats).filterMap id := by
      rw [subformatsOf, hf]
    rw [hsubs] at hn
    obtain ⟨counts, hcounts⟩ := exists_mapM_eq_some fun j hj => hn j hj m (by omega)
    refine ⟨formats[i].fieldList.length + counts.sum, ?_⟩
    rw [countTotalIOField]
    exact bind_eq_of_eq_some hf (bind_eq_of_eq_some hcounts rfl)

theorem acc_of_count {formats : List FMFormatBody} {depth i : Nat}
    (h : (countTotalIOField formats depth i).isSome) : Acc (fun j i => Sees formats i j) i := by
  induction depth generalizing i with
  | zero => cases h
  | succ depth ih =>
    obtain ⟨count, hcount⟩ := Option.isSome_iff_exists.mp h
    simp only [countTotalIOField, Option.bind_eq_bind, Option.bind_eq_some_iff] at hcount
    obtain ⟨f, hf, counts, hcounts, -⟩ := hcount
    refine ⟨i, fun j hj => ih ?_⟩
    have hmem : j ∈ f.fieldSubformats.filterMap id := by
      have hj' : j ∈ subformatsOf formats i := hj
      rwa [subformatsOf, hf] at hj'
    obtain ⟨k, hk⟩ := List.mem_iff_getElem?.mp hmem
    have hcount := getElem?_of_mapM_eq_some hcounts k
    have hlt : k < counts.length := by
      rw [length_of_mapM_eq_some hcounts]
      exact (List.getElem?_eq_some_iff.mp hk).1
    rw [hk, Option.bind_some, List.getElem?_eq_getElem hlt] at hcount
    rw [← hcount]
    rfl

/-- The count ends when no format leads back to itself. -/
theorem count_ends_iff {formats : List FMFormatBody} (hrange : InRange formats)
    (hpos : 0 < formats.length) :
    (∃ depth, (countTotalIOField formats depth 0).isSome) ↔ Acyclic (Sees formats) 0 := by
  constructor
  · rintro ⟨depth, h⟩
    exact acyclic_of_acc (acc_of_count h)
  · intro h
    have hacc := acc_of_acyclic
      (fun x _ y hxy => Finset.mem_range.mpr (hrange x y hxy)) (Finset.mem_range.mpr hpos) h
    obtain ⟨n, hn⟩ := exists_count hrange hpos hacc
    obtain ⟨count, hcount⟩ := hn n (Nat.le_refl n)
    exact ⟨n, by rw [hcount]; rfl⟩

/-! ## The difference -/

section
variable {f1 f2 : FormatObject}

theorem mem_matched {sub1 : Nat} : sub1 ∈ matched f1 f2 ↔ sub1 ∈ f1.subformatList 0 ∧
    ∃ sub2, sameNamed f1.bodies f2.bodies (f2.subformatList 0) sub1 = some sub2 := by
  rw [matched, List.mem_filter, Option.isSome_iff_exists]

/-- Formats that were both loaded and share the names of two subformats call each other for
ever. -/
theorem cmpDiff_endless (hloaded : f1.loaded = true ∧ f2.loaded = true)
    {s s' : Nat} (hs : s ∈ matched f1 f2) (hs' : s' ∈ matched f1 f2) (hne : s ≠ s')
    (depth i j : Nat) (diff : FormatDiff) : formatCmpDiffFrom f1 f2 depth i j diff = none := by
  induction depth generalizing i j diff with
  | zero => rfl
  | succ depth ih =>
    have hlist1 : f1.subformatList i = f1.subformatList 0 := by
      rw [FormatObject.subformatList, FormatObject.subformatList, if_pos (.inr hloaded.1),
        if_pos (.inl rfl)]
    have hlist2 : f2.subformatList j = f2.subformatList 0 := by
      rw [FormatObject.subformatList, FormatObject.subformatList, if_pos (.inr hloaded.2),
        if_pos (.inl rfl)]
    -- One of the two is not the format itself.
    obtain ⟨t, ht, hti⟩ : ∃ t ∈ matched f1 f2, t ≠ i := by
      by_cases hsi : s = i
      · exact ⟨s', hs', fun heq => hne (hsi.trans heq.symm)⟩
      · exact ⟨s, hs, hsi⟩
    obtain ⟨hmem, t2, hfound⟩ := mem_matched.mp ht
    rw [formatCmpDiffFrom, hlist1, hlist2]
    cases f1.bodies[i]? with
    | none => rfl
    | some b1 =>
      cases f2.bodies[j]? with
      | none => rfl
      | some b2 =>
        obtain ⟨pre, post, hsplit⟩ := List.append_of_mem hmem
        simp only [Option.bind_eq_bind, Option.bind_some]
        rw [hsplit, List.foldlM_append]
        simp only [List.foldlM_cons, if_neg hti, hfound, ih]
        exact Option.bind_fun_none _

theorem eq_of_length_le_one {l : List Nat} (h : l.length ≤ 1) {a b : Nat} (ha : a ∈ l)
    (hb : b ∈ l) : a = b := by
  match l, h with
  | [], _ => cases ha
  | [x], _ => rw [List.mem_singleton.mp ha, List.mem_singleton.mp hb]

/-- Two subformats with a namesake, if there are more than one. -/
theorem exists_two_matched (h : ¬ (matched f1 f2).length ≤ 1) :
    ∃ s ∈ matched f1 f2, ∃ s' ∈ matched f1 f2, s ≠ s' := by
  have hnodup : (matched f1 f2).Nodup := by
    have hlist : (f1.subformatList 0).Nodup := by
      rw [FormatObject.subformatList, if_pos (.inl rfl)]
      exact List.nodup_range.sublist (List.tail_sublist _)
    exact hlist.filter _
  match hm : matched f1 f2, h with
  | [], h => exact absurd (Nat.zero_le 1) h
  | [x], h => exact absurd (Nat.le_refl 1) h
  | x :: y :: rest, _ =>
    rw [hm] at hnodup
    refine ⟨x, by simp, y, by simp, fun heq => ?_⟩
    exact (List.nodup_cons.mp hnodup).1 (heq ▸ List.mem_cons_self)

/-- A pair of subformats is compared by its own fields. -/
theorem cmpDiff_subformats (hlists : ¬ (f1.loaded = true ∧ f2.loaded = true) ∨
      (matched f1 f2).length ≤ 1) {s t : Nat} (hs : s ∈ matched f1 f2)
    (hs0 : s ≠ 0) (ht0 : t ≠ 0) {b1 b2 : FMFormatBody} (hb1 : f1.bodies[s]? = some b1)
    (hb2 : f2.bodies[t]? = some b2) (depth : Nat) (diff : FormatDiff) :
    formatCmpDiffFrom f1 f2 (depth + 1) s t diff = some (diff.add (bodyDiff b1 b2)) := by
  have hnone : ∀ sub1 ∈ f1.subformatList s, sub1 ≠ s →
      sameNamed f1.bodies f2.bodies (f2.subformatList t) sub1 = none := by
    intro sub1 hsub hne
    by_cases h1 : f1.loaded = true
    · by_cases h2 : f2.loaded = true
      · -- Nothing else has a namesake.
        have hone := hlists.resolve_left fun hnot => hnot ⟨h1, h2⟩
        have hlist1 : f1.subformatList s = f1.subformatList 0 := by
          rw [FormatObject.subformatList, FormatObject.subformatList, if_pos (.inr h1),
            if_pos (.inl rfl)]
        have hlist2 : f2.subformatList t = f2.subformatList 0 := by
          rw [FormatObject.subformatList, FormatObject.subformatList, if_pos (.inr h2),
            if_pos (.inl rfl)]
        rw [hlist1] at hsub
        rw [hlist2]
        cases hfound : sameNamed f1.bodies f2.bodies (f2.subformatList 0) sub1 with
        | none => rfl
        | some t2 =>
          have hmem : sub1 ∈ matched f1 f2 := mem_matched.mpr ⟨hsub, t2, hfound⟩
          exact absurd (eq_of_length_le_one hone hmem hs) hne
      · rw [FormatObject.subformatList, if_neg (not_or.mpr ⟨ht0, h2⟩)]
        rfl
    · rw [FormatObject.subformatList, if_neg (not_or.mpr ⟨hs0, h1⟩)] at hsub
      cases hsub
  have hrest : (f1.subformatList s).foldlM (fun diff sub1 =>
      if sub1 = s then some diff
      else
        match sameNamed f1.bodies f2.bodies (f2.subformatList t) sub1 with
        | none => some diff
        | some sub2 => formatCmpDiffFrom f1 f2 depth sub1 sub2 diff) (diff.add (bodyDiff b1 b2)) =
      some (diff.add (bodyDiff b1 b2)) := by
    generalize diff.add (bodyDiff b1 b2) = d
    revert hnone
    generalize f1.subformatList s = list
    intro hnone
    induction list with
    | nil => rfl
    | cons sub1 list ih =>
      rw [List.foldlM_cons]
      refine bind_eq_of_eq_some (a := d) ?_ (ih fun x hx => hnone x (List.mem_cons_of_mem _ hx))
      by_cases hself : sub1 = s
      · rw [if_pos hself]
      · rw [if_neg hself, hnone sub1 List.mem_cons_self hself]
  rw [formatCmpDiffFrom]
  exact bind_eq_of_eq_some hb1 (bind_eq_of_eq_some hb2 hrest)

theorem sameNamed_mem {list2 : List Nat} {sub1 sub2 : Nat}
    (h : sameNamed f1.bodies f2.bodies list2 sub1 = some sub2) : sub2 ∈ list2 :=
  List.mem_of_find?_eq_some h

theorem mem_subformatList_zero {f : FormatObject} {j : Nat} :
    j ∈ f.subformatList 0 ↔ j ≠ 0 ∧ j < f.bodies.length := by
  rw [FormatObject.subformatList, if_pos (.inl rfl), mem_othersOf]

/-- What a subformat adds to the difference. -/
def subformatDiff (f1 f2 : FormatObject) (sub1 : Nat) : FormatDiff :=
  match sameNamed f1.bodies f2.bodies (f2.subformatList 0) sub1 with
  | none => .zero
  | some sub2 =>
    match f1.bodies[sub1]?, f2.bodies[sub2]? with
    | some b1, some b2 => bodyDiff b1 b2
    | _, _ => .zero

/-- The comparison of the whole formats. -/
theorem cmpDiff_ends (hlists : ¬ (f1.loaded = true ∧ f2.loaded = true) ∨
      (matched f1 f2).length ≤ 1) (depth : Nat) :
    formatCmpDiffFrom f1 f2 (depth + 2) 0 0 .zero =
      some ((f1.subformatList 0).foldl (fun diff sub1 => diff.add (subformatDiff f1 f2 sub1))
        (bodyDiff f1.format.top f2.format.top)) := by
  have hsteps : ∀ list : List Nat, (∀ sub1 ∈ list, sub1 ∈ f1.subformatList 0) → ∀ diff,
      list.foldlM (fun diff sub1 =>
        if sub1 = 0 then some diff
        else
          match sameNamed f1.bodies f2.bodies (f2.subformatList 0) sub1 with
          | none => some diff
          | some sub2 => formatCmpDiffFrom f1 f2 (depth + 1) sub1 sub2 diff) diff =
        some (list.foldl (fun diff sub1 => diff.add (subformatDiff f1 f2 sub1)) diff) := by
    intro list
    induction list with
    | nil => exact fun _ _ => rfl
    | cons sub1 list ih =>
      intro hlist diff
      have hsub := hlist sub1 List.mem_cons_self
      have hsub0 := mem_subformatList_zero.mp hsub
      rw [List.foldlM_cons, List.foldl_cons]
      refine bind_eq_of_eq_some (a := diff.add (subformatDiff f1 f2 sub1)) ?_
        (ih (fun x hx => hlist x (List.mem_cons_of_mem _ hx)) _)
      rw [if_neg hsub0.1]
      unfold subformatDiff
      cases hfound : sameNamed f1.bodies f2.bodies (f2.subformatList 0) sub1 with
      | none => rfl
      | some sub2 =>
        have hsub2 := mem_subformatList_zero.mp (sameNamed_mem hfound)
        have hb1 := List.getElem?_eq_getElem hsub0.2
        have hb2 := List.getElem?_eq_getElem hsub2.2
        simp only
        rw [hb1, hb2]
        exact cmpDiff_subformats hlists (mem_matched.mpr ⟨hsub, sub2, hfound⟩) hsub0.1 hsub2.1
          hb1 hb2 depth diff
  rw [formatCmpDiffFrom]
  refine bind_eq_of_eq_some (a := f1.format.top) rfl ?_
  refine bind_eq_of_eq_some (a := f2.format.top) rfl ?_
  have hzero : FormatDiff.zero.add (bodyDiff f1.format.top f2.format.top) =
      bodyDiff f1.format.top f2.format.top := by
    simp [FormatDiff.add, FormatDiff.zero]
  rw [hzero]
  exact hsteps _ (fun _ h => h) _

theorem diff_ends_iff : (∃ depth, (formatCmpDiff depth f1 f2).isSome) ↔
    f1.address = f2.address ∨ ¬ (f1.loaded = true ∧ f2.loaded = true) ∨
      (matched f1 f2).length ≤ 1 := by
  by_cases hsame : f1.address = f2.address
  · exact iff_of_true ⟨0, by rw [formatCmpDiff, if_pos hsame]; rfl⟩ (.inl hsame)
  · simp only [formatCmpDiff, if_neg hsame]
    constructor
    · rintro ⟨depth, h⟩
      by_contra hnot
      push Not at hnot
      obtain ⟨s, hs, s', hs', hne⟩ := exists_two_matched (Nat.not_le.mpr hnot.2.2)
      rw [cmpDiff_endless hnot.2.1 hs hs' hne] at h
      cases h
    · intro h
      exact ⟨2, by rw [cmpDiff_ends (h.resolve_left hsame) 0]; rfl⟩

theorem InRange.lt {formats : List FMFormatBody} (h : InRange formats) {i j : Nat}
    (hi : i < formats.length) (hreach : j = i ∨ TransGen (Sees formats) i j) :
    j < formats.length := by
  cases hreach with
  | inl heq => rwa [heq]
  | inr hreach =>
    obtain ⟨k, -, hstep⟩ := TransGen.tail'_iff.mp hreach
    exact h k j hstep

end

end FFS
