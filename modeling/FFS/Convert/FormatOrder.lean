import FFS.Convert.Comparison
import FFS.FM.ArrayReaders

/-!
# The order of formats

`FMformat_cmp` says of two formats which of them includes the other.  The verdict of a pair is
that of a merge of their fields by name, joined with the verdicts of the pairs of subformats that
share a name.  The fields are compared by `field_type_eq`, and what comes out is the inclusion by
the types themselves where `field_type_eq` tells these apart.
-/

namespace FFS

open Machine Relation

/-! ## Verdicts -/

namespace FMformatOrder

/-- What an order says: whether the first of two formats includes the second, and whether the
second includes the first. -/
def Tells : FMformatOrder → Prop → Prop → Prop
  | .equal, includes, included => includes ∧ included
  | .greater, includes, included => includes ∧ ¬ included
  | .less, includes, included => ¬ includes ∧ included
  | .incompatible, includes, included => ¬ includes ∧ ¬ included

/-- The order of the formats the other way round. -/
def mirror : FMformatOrder → FMformatOrder
  | .equal => .equal
  | .greater => .less
  | .less => .greater
  | .incompatible => .incompatible

variable {order order' : FMformatOrder} {p q p' q' : Prop}

theorem Tells.congr (h : order.Tells p q) (hp : p ↔ p') (hq : q ↔ q') : order.Tells p' q' := by
  rwa [← propext hp, ← propext hq]

theorem Tells.unique (h : order.Tells p q) (h' : order'.Tells p q) : order = order' := by
  cases order <;> cases order' <;> simp only [Tells] at h h' <;> tauto

theorem Tells.iffs (h : order.Tells p q) (h' : order.Tells p' q') : (p ↔ p') ∧ (q ↔ q') := by
  cases order <;> simp only [Tells] at h h' <;> tauto

theorem Tells.mirror (h : order.Tells p q) : order.mirror.Tells q p := by
  cases order <;> exact And.symm h

theorem tells_start : equal.Tells True True := ⟨trivial, trivial⟩

theorem combine_tells (hne : order ≠ .incompatible) (h : order.Tells p q)
    (h' : order'.Tells p' q') :
    ((order.combine order').getD .incompatible).Tells (p ∧ p') (q ∧ q') := by
  cases order <;> cases order' <;> simp_all [combine, Tells]

theorem combine_ne {joined : FMformatOrder} (hne : order ≠ .incompatible)
    (h : order.combine order' = some joined) : joined ≠ .incompatible := by
  rintro rfl
  cases order <;> cases order' <;> simp_all [combine]

end FMformatOrder

/-! ## The merge of two field lists -/

/-- Each field of the second list has a namesake in the first that `R` relates it to. -/
def FieldsInclude (R : FMField → FMField → Prop) (fields1 fields2 : List FMField) : Prop :=
  ∀ f2 ∈ fields2, ∃ f1 ∈ fields1, f1.fieldName = f2.fieldName ∧ R f1 f2

/-- The types of the fields are the same for `field_type_eq`. -/
def FieldTypeEq (f1 f2 : FMField) : Prop :=
  ioFieldTypeEq f1.fieldType.bytes f2.fieldType.bytes = true

theorem ioFieldTypeEq_comm (str1 str2 : List UInt8) :
    ioFieldTypeEq str1 str2 = ioFieldTypeEq str2 str1 := by
  rw [Bool.eq_iff_iff]
  simp only [ioFieldTypeEq]
  by_cases h : (arrayStrToDataType str1).2 = -1 ∧ (arrayStrToDataType str2).2 = -1
  · rw [if_pos h, if_pos h.symm, max_comm, Bool.and_eq_true, Bool.and_eq_true]
    simp only [decide_eq_true_eq]
    exact and_congr eq_comm eq_comm
  · rw [if_neg h, if_neg fun h' => h h'.symm, Bool.and_eq_true, Bool.and_eq_true]
    simp only [decide_eq_true_eq]
    exact and_congr eq_comm eq_comm

theorem ioFieldTypeEq_self (str : List UInt8) : ioFieldTypeEq str str = true := by
  simp [ioFieldTypeEq]

/-- The name of the first field comes before that of the second. -/
def NameBefore (f1 f2 : FMField) : Prop := fieldNameLe f1 f2 = true ∧ f1.fieldName ≠ f2.fieldName

theorem NameBefore.trans {f1 f2 f3 : FMField} (h : NameBefore f1 f2) (h' : NameBefore f2 f3) :
    NameBefore f1 f3 := by
  refine ⟨strLe_trans h.1 h'.1, fun heq => h'.2 (CString.ext ?_)⟩
  apply strLe_antisymm h'.1
  rw [← heq]
  exact h.1

theorem nameBefore_or {f1 f2 : FMField} (h : f1.fieldName ≠ f2.fieldName) :
    NameBefore f1 f2 ∨ NameBefore f2 f1 :=
  (strLe_total f1.fieldName.bytes f2.fieldName.bytes).imp (fun hle => ⟨hle, h⟩)
    fun hle => ⟨hle, Ne.symm h⟩

/-- The order of the merge: by name, and no name twice. -/
def InNameOrder (fields : List FMField) : Prop := fields.Pairwise NameBefore

theorem sortByName_perm (fields : List FMField) : (sortByName fields).Perm fields :=
  List.perm_insertionSort _ _

theorem inNameOrder_sortByName {fields : List FMField}
    (h : (fields.map (·.fieldName)).Nodup) : InNameOrder (sortByName fields) := by
  have htotal : Std.Total fun a b : FMField => fieldNameLe a b = true :=
    ⟨fun a b => strLe_total a.fieldName.bytes b.fieldName.bytes⟩
  have htrans : IsTrans FMField fun a b => fieldNameLe a b = true :=
    ⟨fun _ _ _ h h' => strLe_trans h h'⟩
  have hsorted := List.pairwise_insertionSort (fun a b : FMField => fieldNameLe a b = true) fields
  have hnodup : ((sortByName fields).map (·.fieldName)).Nodup :=
    ((sortByName_perm fields).map _).nodup_iff.mpr h
  exact hsorted.and (List.pairwise_map.mp hnodup)

section
variable {R : FMField → FMField → Prop} {fields1 fields2 : List FMField} {f1 f2 : FMField}

theorem fieldsInclude_perm {fields1' fields2' : List FMField} (h1 : fields1.Perm fields1')
    (h2 : fields2.Perm fields2') :
    FieldsInclude R fields1 fields2 ↔ FieldsInclude R fields1' fields2' := by
  simp only [FieldsInclude, h1.mem_iff, h2.mem_iff]

/-- The heads of two lists share their name. -/
theorem fieldsInclude_cons (h1 : InNameOrder (f1 :: fields1)) (h2 : InNameOrder (f2 :: fields2))
    (hname : f1.fieldName = f2.fieldName) :
    FieldsInclude R (f1 :: fields1) (f2 :: fields2) ↔
      R f1 f2 ∧ FieldsInclude R fields1 fields2 := by
  obtain ⟨hbefore1, -⟩ := List.pairwise_cons.mp h1
  obtain ⟨hbefore2, -⟩ := List.pairwise_cons.mp h2
  constructor
  · intro h
    constructor
    · obtain ⟨g1, hg1, hsame, hR⟩ := h f2 List.mem_cons_self
      cases List.mem_cons.mp hg1 with
      | inl heq => exact heq ▸ hR
      | inr hmem => exact absurd (hname.trans hsame.symm) (hbefore1 g1 hmem).2
    · intro g2 hg2
      obtain ⟨g1, hg1, hsame, hR⟩ := h g2 (List.mem_cons_of_mem _ hg2)
      cases List.mem_cons.mp hg1 with
      | inl heq =>
        rw [heq, hname] at hsame
        exact absurd hsame (hbefore2 g2 hg2).2
      | inr hmem => exact ⟨g1, hmem, hsame, hR⟩
  · rintro ⟨hR, h⟩ g2 hg2
    cases List.mem_cons.mp hg2 with
    | inl heq => exact ⟨f1, List.mem_cons_self, heq ▸ hname, heq ▸ hR⟩
    | inr hmem =>
      obtain ⟨g1, hg1, hg⟩ := h g2 hmem
      exact ⟨g1, List.mem_cons_of_mem _ hg1, hg⟩

/-- A list does not include a field whose name comes before all of its own. -/
theorem not_fieldsInclude_of_before (h : ∀ g1 ∈ fields1, NameBefore f2 g1) :
    ¬ FieldsInclude R fields1 (f2 :: fields2) := by
  intro hinclude
  obtain ⟨g1, hg1, hsame, -⟩ := hinclude f2 List.mem_cons_self
  exact (h g1 hg1).2 hsame.symm

theorem not_fieldsInclude_of_head (h2 : InNameOrder (f2 :: fields2)) (hbefore : NameBefore f1 f2) :
    ¬ FieldsInclude R (f2 :: fields2) (f1 :: fields1) := by
  refine not_fieldsInclude_of_before fun g2 hg2 => ?_
  cases List.mem_cons.mp hg2 with
  | inl heq => exact heq ▸ hbefore
  | inr hmem => exact hbefore.trans ((List.pairwise_cons.mp h2).1 g2 hmem)

theorem not_fieldsInclude_nil : ¬ FieldsInclude R [] (f2 :: fields2) := by
  intro h
  obtain ⟨g1, hg1, -⟩ := h f2 List.mem_cons_self
  cases hg1

theorem fieldsInclude_nil : FieldsInclude R fields1 [] := fun f2 hf2 => by cases hf2

/-- Fields whose names come before all names of the other list do not matter to what the list
includes. -/
theorem fieldsInclude_append {skipped : List FMField}
    (h : ∀ g1 ∈ skipped, ∀ g2 ∈ fields2, NameBefore g1 g2) :
    FieldsInclude R (skipped ++ fields1) fields2 ↔ FieldsInclude R fields1 fields2 := by
  constructor
  · intro hinclude g2 hg2
    obtain ⟨g1, hg1, hsame, hR⟩ := hinclude g2 hg2
    cases List.mem_append.mp hg1 with
    | inl hskip => exact absurd hsame (h g1 hskip g2 hg2).2
    | inr hmem => exact ⟨g1, hmem, hsame, hR⟩
  · intro hinclude g2 hg2
    obtain ⟨g1, hg1, hg⟩ := hinclude g2 hg2
    exact ⟨g1, List.mem_append_right _ hg1, hg⟩

/-- What the loop of the merge skips comes before the other list. -/
theorem before_of_mem_takeWhile (h2 : InNameOrder (f2 :: fields2)) {g1 : FMField}
    (hg1 : g1 ∈ fields1.takeWhile fun f => fieldNameLe f f2 && f.fieldName ≠ f2.fieldName)
    {g2 : FMField} (hg2 : g2 ∈ f2 :: fields2) : NameBefore g1 g2 := by
  have htrue := List.mem_takeWhile_imp hg1
  simp only [Bool.and_eq_true, decide_eq_true_eq] at htrue
  cases List.mem_cons.mp hg2 with
  | inl heq => exact heq ▸ htrue
  | inr hmem => exact NameBefore.trans htrue ((List.pairwise_cons.mp h2).1 g2 hmem)

/-- The fields of the first list up to the first name of the second. -/
theorem skipped_append (h2 : InNameOrder (f2 :: fields2)) (hbefore : NameBefore f1 f2) :
    FieldsInclude R (f1 :: fields1) (f2 :: fields2) ↔ FieldsInclude R
      (fields1.dropWhile fun f => fieldNameLe f f2 && f.fieldName ≠ f2.fieldName)
      (f2 :: fields2) := by
  have hsplit : f1 :: fields1 =
      (f1 :: fields1.takeWhile fun f => fieldNameLe f f2 && f.fieldName ≠ f2.fieldName) ++
        fields1.dropWhile fun f => fieldNameLe f f2 && f.fieldName ≠ f2.fieldName := by
    rw [List.cons_append, List.takeWhile_append_dropWhile]
  rw [hsplit]
  refine fieldsInclude_append fun g1 hg1 g2 hg2 => ?_
  cases List.mem_cons.mp hg1 with
  | inl heq =>
    subst heq
    cases List.mem_cons.mp hg2 with
    | inl heq => exact heq ▸ hbefore
    | inr hmem => exact hbefore.trans ((List.pairwise_cons.mp h2).1 g2 hmem)
  | inr hmem => exact before_of_mem_takeWhile h2 hmem hg2

/-- The first list ends before the first name of the second comes. -/
theorem not_fieldsInclude_of_skipped (h2 : InNameOrder (f2 :: fields2))
    (hbefore : NameBefore f1 f2)
    (hskip : (fields1.dropWhile fun f => fieldNameLe f f2 && f.fieldName ≠ f2.fieldName) = []) :
    ¬ FieldsInclude R (f1 :: fields1) (f2 :: fields2) := by
  rw [skipped_append h2 hbefore, hskip]
  exact not_fieldsInclude_nil

theorem InNameOrder.dropWhile (h1 : InNameOrder (f1 :: fields1)) (keep : FMField → Bool) :
    InNameOrder (fields1.dropWhile keep) :=
  (List.pairwise_cons.mp h1).2.sublist (List.dropWhile_sublist keep)

end

theorem fieldTypeEq_comm {f1 f2 : FMField} : FieldTypeEq f1 f2 ↔ FieldTypeEq f2 f1 := by
  rw [FieldTypeEq, FieldTypeEq, ioFieldTypeEq_comm]

/-- The merge of two field lists finds which of them includes the other. -/
theorem cmpFields_tells {result : FMformatOrder} {fields1 fields2 : List FMField} {p q : Prop}
    (hne : result ≠ .incompatible) (hresult : result.Tells p q)
    (h1 : InNameOrder fields1) (h2 : InNameOrder fields2) :
    ((cmpFields result fields1 fields2).getD .incompatible).Tells
      (p ∧ FieldsInclude FieldTypeEq fields1 fields2)
      (q ∧ FieldsInclude FieldTypeEq fields2 fields1) := by
  fun_induction cmpFields result fields1 fields2 generalizing p q with
  | case1 result => 
    exact hresult.congr (and_iff_left fieldsInclude_nil).symm (and_iff_left fieldsInclude_nil).symm
  | case2 f1 fields1 => exact ⟨fun h => hresult.1 h.1, fun h => not_fieldsInclude_nil h.2⟩
  | case3 result f1 fields1 hless =>
    have hp : p := by
      cases result <;> simp_all [FMformatOrder.Tells]
    exact ⟨⟨hp, fieldsInclude_nil⟩, fun h => not_fieldsInclude_nil h.2⟩
  | case4 f2 fields2 => exact ⟨fun h => not_fieldsInclude_nil h.2, fun h => hresult.2 h.1⟩
  | case5 result f2 fields2 hgreater =>
    have hq : q := by
      cases result <;> simp_all [FMformatOrder.Tells]
    exact ⟨fun h => not_fieldsInclude_nil h.2, hq, fieldsInclude_nil⟩
  | case6 result f1 fields1 f2 fields2 hname htype ih =>
    refine (ih hne hresult (List.pairwise_cons.mp h1).2 (List.pairwise_cons.mp h2).2).congr ?_ ?_
    · rw [fieldsInclude_cons h1 h2 hname]
      exact and_congr_right fun _ => (and_iff_right htype).symm
    · rw [fieldsInclude_cons h2 h1 hname.symm]
      exact and_congr_right fun _ => (and_iff_right (fieldTypeEq_comm.mp htype)).symm
  | case7 result f1 fields1 f2 fields2 hname htype =>
    constructor
    · intro h
      exact htype ((fieldsInclude_cons h1 h2 hname).mp h.2).1
    · intro h
      exact htype (fieldTypeEq_comm.mp ((fieldsInclude_cons h2 h1 hname.symm).mp h.2).1)
  | case8 f1 fields1 f2 fields2 hname hle =>
    exact ⟨fun h => hresult.1 h.1, fun h => not_fieldsInclude_of_head h2 ⟨hle, hname⟩ h.2⟩
  | case9 result f1 fields1 f2 fields2 hname hle hless hskip =>
    exact ⟨fun h => not_fieldsInclude_of_skipped h2 ⟨hle, hname⟩ hskip h.2,
      fun h => not_fieldsInclude_of_head h2 ⟨hle, hname⟩ h.2⟩
  | case10 result f1 fields1 f2 fields2 hname hle hless next rest hskip ih =>
    have hp : p := by
      cases result <;> simp_all [FMformatOrder.Tells]
    have hnot : ¬ FieldsInclude FieldTypeEq (f2 :: fields2) (f1 :: fields1) :=
      not_fieldsInclude_of_head h2 ⟨hle, hname⟩
    have hrest := h1.dropWhile fun f => fieldNameLe f f2 && f.fieldName ≠ f2.fieldName
    have hinclude := @skipped_append FieldTypeEq fields1 fields2 f1 f2 h2 ⟨hle, hname⟩
    rw [hskip] at hrest hinclude
    have htells : FMformatOrder.greater.Tells p False := ⟨hp, not_false⟩
    refine (ih (by simp) htells hrest h2).congr ?_ ?_
    · rw [hinclude]
    · simp [hnot]
  | case11 f1 fields1 f2 fields2 hname hle =>
    have hbefore := (nameBefore_or hname).resolve_left fun h => hle h.1
    exact ⟨fun h => not_fieldsInclude_of_head h1 hbefore h.2, fun h => hresult.2 h.1⟩
  | case12 result f1 fields1 f2 fields2 hname hle hgreater hskip =>
    have hbefore := (nameBefore_or hname).resolve_left fun h => hle h.1
    exact ⟨fun h => not_fieldsInclude_of_head h1 hbefore h.2,
      fun h => not_fieldsInclude_of_skipped h1 hbefore hskip h.2⟩
  | case13 result f1 fields1 f2 fields2 hname hle hgreater next rest hskip ih =>
    have hbefore := (nameBefore_or hname).resolve_left fun h => hle h.1
    have hq : q := by
      cases result <;> simp_all [FMformatOrder.Tells]
    have hnot : ¬ FieldsInclude FieldTypeEq (f1 :: fields1) (f2 :: fields2) :=
      not_fieldsInclude_of_head h1 hbefore
    have hrest := h2.dropWhile fun f => fieldNameLe f f1 && f.fieldName ≠ f1.fieldName
    have hinclude := @skipped_append FieldTypeEq fields2 fields1 f2 f1 h1 hbefore
    rw [hskip] at hrest hinclude
    have htells : FMformatOrder.less.Tells False q := ⟨not_false, hq⟩
    refine (ih (by simp) htells h1 hrest).congr ?_ ?_
    · simp [hnot]
    · rw [hinclude]

theorem cmpFields_ne {result result' : FMformatOrder} {fields1 fields2 : List FMField}
    (hne : result ≠ .incompatible) (h : cmpFields result fields1 fields2 = some result') :
    result' ≠ .incompatible := by
  fun_induction cmpFields result fields1 fields2 with
  | case1 result => exact Option.some.inj h ▸ hne
  | case3 => exact Option.some.inj h ▸ by simp
  | case5 => exact Option.some.inj h ▸ by simp
  | case6 result f1 fields1 f2 fields2 hname htype ih => exact ih hne h
  | case10 result f1 fields1 f2 fields2 hname hle hless next rest hskip ih => exact ih (by simp) h
  | case13 result f1 fields1 f2 fields2 hname hle hmore next rest hskip ih => exact ih (by simp) h
  | _ => cases h

theorem cmpFields_self (fields : List FMField) : cmpFields .equal fields fields = some .equal := by
  induction fields with
  | nil => rw [cmpFields]
  | cons f fields ih => rw [cmpFields, if_pos rfl, if_pos (ioFieldTypeEq_self _), ih]

/-! ## The lists of subformats -/

/-- What a walk that began at `visited` with `list` has come to: the subformats of the formats it
met are met and listed. -/
structure Walked (formats : List FMFormatBody) (visited list visited' list' : List Nat) :
    Prop where
  keeps : visited ⊆ visited'
  lists : list ⊆ list'
  closed : ∀ x ∈ visited', x ∉ visited → ∀ y, Sees formats x y → y ∈ visited' ∧ y ∈ list'

/-- The step of the walk of `get_subformats_context` for one subformat. -/
def walkStep (formats : List FMFormatBody) (depth : Nat) (state : List Nat × List Nat)
    (sub : Nat) : Option (List Nat × List Nat) :=
  (if sub ∈ state.1 then some state else getSubformatsContext formats depth state sub).map
    fun state => (state.1, if sub ∈ state.2 then state.2 else state.2 ++ [sub])

theorem getSubformatsContext_succ (formats : List FMFormatBody) (depth : Nat)
    (visited list : List Nat) (i : Nat) :
    getSubformatsContext formats (depth + 1) (visited, list) i =
      (subformatsOf formats i).foldlM (walkStep formats depth) (visited ++ [i], list) := rfl

section
variable {formats : List FMFormatBody} {visited list visited' list' : List Nat} {i depth : Nat}

theorem mem_listed {sub : Nat} {list : List Nat} :
    (list ⊆ if sub ∈ list then list else list ++ [sub]) ∧
      sub ∈ if sub ∈ list then list else list ++ [sub] := by
  by_cases h : sub ∈ list
  · rw [if_pos h]
    exact ⟨fun _ hx => hx, h⟩
  · rw [if_neg h]
    exact ⟨List.subset_append_left _ _, by simp⟩

/-- One subformat more. -/
theorem walkStep_walked
    (ih : ∀ {visited list visited' list' : List Nat} {i : Nat},
      getSubformatsContext formats depth (visited, list) i = some (visited', list') →
        i ∈ visited' ∧ Walked formats visited list visited' list')
    {sub : Nat} (h : walkStep formats depth (visited, list) sub = some (visited', list')) :
    sub ∈ visited' ∧ sub ∈ list' ∧ Walked formats visited list visited' list' := by
  obtain ⟨⟨below, listed⟩, hbelow, heq⟩ := Option.map_eq_some_iff.mp h
  obtain ⟨rfl, rfl⟩ := Prod.mk.inj heq
  obtain ⟨hsub, hlisted⟩ := @mem_listed sub listed
  dsimp only at hbelow ⊢
  by_cases hmet : sub ∈ visited
  · rw [if_pos hmet] at hbelow
    obtain ⟨rfl, rfl⟩ := Prod.mk.inj (Option.some.inj hbelow)
    exact ⟨hmet, hlisted, fun _ hx => hx, hsub, fun x hx hnot => absurd hx hnot⟩
  · rw [if_neg hmet] at hbelow
    obtain ⟨hmem, hwalked⟩ := ih hbelow
    refine ⟨hmem, hlisted, hwalked.keeps, fun x hx => hsub (hwalked.lists hx), ?_⟩
    intro x hx hnot y hy
    obtain ⟨hmet, hlist⟩ := hwalked.closed x hx hnot y hy
    exact ⟨hmet, hsub hlist⟩

theorem Walked.trans {visited'' list'' : List Nat}
    (h : Walked formats visited list visited' list')
    (h' : Walked formats visited' list' visited'' list'') :
    Walked formats visited list visited'' list'' := by
  refine ⟨fun x hx => h'.keeps (h.keeps hx), fun x hx => h'.lists (h.lists hx), ?_⟩
  intro x hx hnot y hy
  by_cases hmet : x ∈ visited'
  · obtain ⟨hvisited, hlist⟩ := h.closed x hmet hnot y hy
    exact ⟨h'.keeps hvisited, h'.lists hlist⟩
  · exact h'.closed x hx hmet y hy

/-- All subformats of a format. -/
theorem foldlM_walked
    (ih : ∀ {visited list visited' list' : List Nat} {i : Nat},
      getSubformatsContext formats depth (visited, list) i = some (visited', list') →
        i ∈ visited' ∧ Walked formats visited list visited' list')
    {subs : List Nat}
    (h : subs.foldlM (walkStep formats depth) (visited, list) = some (visited', list')) :
    (∀ sub ∈ subs, sub ∈ visited' ∧ sub ∈ list') ∧ Walked formats visited list visited' list' := by
  induction subs generalizing visited list with
  | nil =>
    obtain ⟨rfl, rfl⟩ := Prod.mk.inj (Option.some.inj h)
    refine ⟨fun sub hsub => ?_, fun _ hx => hx, fun _ hx => hx, fun x hx hnot => absurd hx hnot⟩
    cases hsub
  | cons sub subs ihs =>
    rw [List.foldlM_cons] at h
    obtain ⟨⟨visited1, list1⟩, hstep, hrest⟩ := Option.bind_eq_some_iff.mp h
    obtain ⟨hmet, hlist, hwalked⟩ := walkStep_walked ih hstep
    obtain ⟨hsubs, hwalked'⟩ := ihs hrest
    refine ⟨fun x hx => ?_, hwalked.trans hwalked'⟩
    cases List.mem_cons.mp hx with
    | inl heq => exact heq ▸ ⟨hwalked'.keeps hmet, hwalked'.lists hlist⟩
    | inr hmem => exact hsubs x hmem

/-- The walk of a format meets it, and lists what the formats it meets see. -/
theorem getSubformatsContext_walked
    (h : getSubformatsContext formats depth (visited, list) i = some (visited', list')) :
    i ∈ visited' ∧ Walked formats visited list visited' list' := by
  induction depth generalizing visited list visited' list' i with
  | zero => cases h
  | succ depth ih =>
    rw [getSubformatsContext_succ] at h
    obtain ⟨hsubs, hwalked⟩ := foldlM_walked ih h
    refine ⟨hwalked.keeps (by simp), fun x hx => hwalked.keeps (by simp [hx]),
      hwalked.lists, ?_⟩
    intro x hx hnot y hy
    by_cases hself : x = i
    · subst hself
      exact hsubs y hy
    · exact hwalked.closed x hx (by simp [hnot, hself]) y hy

/-- The formats that a walk has not met yet. -/
def unmet (formats : List FMFormatBody) (visited : List Nat) : Finset Nat :=
  (Finset.range formats.length).filter (· ∉ visited)

theorem card_unmet_le (h : visited ⊆ visited') :
    (unmet formats visited').card ≤ (unmet formats visited).card := by
  refine Finset.card_le_card fun x hx => ?_
  simp only [unmet, Finset.mem_filter] at hx ⊢
  exact ⟨hx.1, fun hmet => hx.2 (h hmet)⟩

theorem card_unmet_lt (hi : i < formats.length) (hmet : i ∉ visited) :
    (unmet formats (visited ++ [i])).card < (unmet formats visited).card := by
  refine Finset.card_lt_card ⟨fun x hx => ?_, fun hsubset => ?_⟩
  · simp only [unmet, Finset.mem_filter, List.mem_append, not_or] at hx ⊢
    exact ⟨hx.1, hx.2.1⟩
  · have hmem : i ∈ unmet formats visited := by simp [unmet, hi, hmet]
    have hnot := hsubset hmem
    simp [unmet] at hnot

/-- A walk ends, since it meets no format twice. -/
theorem exists_walk (hrange : InRange formats) (hi : i < formats.length) (hmet : i ∉ visited)
    (hdepth : (unmet formats visited).card ≤ depth) :
    ∃ state, getSubformatsContext formats depth (visited, list) i = some state := by
  induction depth generalizing visited list i with
  | zero =>
    have hlt := card_unmet_lt hi hmet
    omega
  | succ depth ih =>
    have hlt := card_unmet_lt hi hmet
    have hsteps : ∀ subs : List Nat, (∀ sub ∈ subs, sub < formats.length) →
        ∀ visited list, (unmet formats visited).card ≤ depth →
          ∃ state, subs.foldlM (walkStep formats depth) (visited, list) = some state := by
      intro subs
      induction subs with
      | nil => exact fun _ visited list _ => ⟨(visited, list), rfl⟩
      | cons sub subs ihs =>
        intro hsubs visited list hcard
        have hsub := hsubs sub List.mem_cons_self
        obtain ⟨⟨visited1, list1⟩, hstep⟩ :
            ∃ state, walkStep formats depth (visited, list) sub = some state := by
          unfold walkStep
          by_cases hsubMet : sub ∈ visited
          · exact ⟨_, by rw [if_pos hsubMet]; rfl⟩
          · obtain ⟨state, hstate⟩ := @ih visited list sub hsub hsubMet hcard
            exact ⟨_, by rw [if_neg hsubMet, hstate]; rfl⟩
        obtain ⟨-, -, hwalked⟩ := walkStep_walked getSubformatsContext_walked hstep
        obtain ⟨state, hrest⟩ := ihs (fun x hx => hsubs x (List.mem_cons_of_mem _ hx)) visited1
          list1 (le_trans (card_unmet_le hwalked.keeps) hcard)
        exact ⟨state, by rw [List.foldlM_cons]; exact bind_eq_of_eq_some hstep hrest⟩
    exact hsteps _ (fun sub hsub => hrange i sub hsub) _ _ (by omega)

/-- A walk lists nothing that its format does not lead to. -/
theorem walk_leads (h : getSubformatsContext formats depth (visited, list) i =
      some (visited', list')) {j : Nat} (hj : j ∈ list') :
    j ∈ list ∨ TransGen (Sees formats) i j := by
  induction depth generalizing visited list visited' list' i with
  | zero => cases h
  | succ depth ih =>
    have hsteps : ∀ subs : List Nat, (∀ sub ∈ subs, Sees formats i sub) →
        ∀ visited list, subs.foldlM (walkStep formats depth) (visited, list) =
          some (visited', list') → j ∈ list ∨ TransGen (Sees formats) i j := by
      intro subs
      induction subs with
      | nil =>
        intro _ visited list hnil
        obtain ⟨rfl, rfl⟩ := Prod.mk.inj (Option.some.inj hnil)
        exact .inl hj
      | cons sub subs ihs =>
        intro hsubs visited list hcons
        have hsub := hsubs sub List.mem_cons_self
        rw [List.foldlM_cons] at hcons
        obtain ⟨⟨visited1, list1⟩, hstep, hrest⟩ := Option.bind_eq_some_iff.mp hcons
        cases ihs (fun x hx => hsubs x (List.mem_cons_of_mem _ hx)) visited1 list1 hrest with
        | inr hlead => exact .inr hlead
        | inl hlist1 =>
          obtain ⟨⟨below, listed⟩, hbelow, heq⟩ := Option.map_eq_some_iff.mp hstep
          obtain ⟨rfl, rfl⟩ := Prod.mk.inj heq
          have hlisted : j ∈ listed ∨ j = sub := by
            dsimp only at hlist1
            split at hlist1
            · exact .inl hlist1
            · simpa using hlist1
          cases hlisted with
          | inr heq => exact .inr (heq ▸ TransGen.single hsub)
          | inl hlisted =>
            dsimp only at hbelow
            split at hbelow
            · obtain ⟨rfl, rfl⟩ := Prod.mk.inj (Option.some.inj hbelow)
              exact .inl hlisted
            · exact (ih hbelow hlisted).imp id fun hlead => TransGen.head hsub hlead
    rw [getSubformatsContext_succ] at h
    exact hsteps _ (fun _ hsub => hsub) _ _ h

/-- The list of the subformats of a format is of all that it leads to, and itself. -/
theorem mem_getSubformats (h : getSubformats formats depth i = some list) {j : Nat} :
    j ∈ list ↔ j = i ∨ TransGen (Sees formats) i j := by
  obtain ⟨⟨visited, below⟩, hwalk, rfl⟩ := Option.map_eq_some_iff.mp h
  obtain ⟨hmet, hwalked⟩ := getSubformatsContext_walked hwalk
  have hclosed : ∀ x ∈ visited, ∀ y, Sees formats x y → y ∈ visited ∧ y ∈ below :=
    fun x hx => hwalked.closed x hx (by simp)
  dsimp only
  rw [List.mem_append, List.mem_singleton, or_comm]
  refine or_congr_right ⟨fun hj => (walk_leads hwalk hj).resolve_left (by simp), fun hlead => ?_⟩
  have hboth : j ∈ visited ∧ j ∈ below := by
    induction hlead with
    | single hsees => exact hclosed i hmet _ hsees
    | tail _ hsees ih => exact hclosed _ ih.1 _ hsees
  exact hboth.2

theorem exists_subformats (hrange : InRange formats) (hi : i < formats.length)
    (hdepth : formats.length ≤ depth) : ∃ list, getSubformats formats depth i = some list := by
  have hcard : (unmet formats []).card ≤ depth := by
    refine le_trans (Finset.card_filter_le _ _) ?_
    rw [Finset.card_range]
    exact hdepth
  obtain ⟨state, hstate⟩ := @exists_walk _ [] [] _ _ hrange hi (by simp) hcard
  exact ⟨state.2 ++ [i], by rw [getSubformats, hstate, Option.map_some]⟩

end

/-! ## Inclusion -/

namespace FormatObject

/-- The name of the format numbered `i`. -/
def nameOf (f : FormatObject) (i : Nat) : Option CString := f.bodies[i]?.map (·.formatName)

/-- The format itself or one that its fields lead to. -/
def Reaches (f : FormatObject) (i : Nat) : Prop := ReflTransGen (Sees f.bodies) 0 i

/-- The fields of the format numbered `i` include those of the format numbered `j` of `g`. -/
def IncludesFields (f : FormatObject) (R : FMField → FMField → Prop) (g : FormatObject)
    (i j : Nat) : Prop :=
  ∀ b c, f.bodies[i]? = some b → g.bodies[j]? = some c → FieldsInclude R b.fieldList c.fieldList

/-- So they do, and so do those of each subformat the ones of its namesake. -/
def Includes (f : FormatObject) (R : FMField → FMField → Prop) (g : FormatObject)
    (i j : Nat) : Prop :=
  f.IncludesFields R g i j ∧
    ∀ s t, TransGen (Sees f.bodies) i s → TransGen (Sees g.bodies) j t →
      f.nameOf s = g.nameOf t → f.IncludesFields R g s t

/-- No two fields of a format have one name, and no two formats. -/
structure WellNamed (f : FormatObject) : Prop where
  fields : ∀ i b, f.Reaches i → f.bodies[i]? = some b → (b.fieldList.map (·.fieldName)).Nodup
  formats : ∀ i j, f.Reaches i → f.Reaches j → f.nameOf i = f.nameOf j → i = j

end FormatObject

/-- The fields of a format lead to another. -/
def LeadsAway (formats : List FMFormatBody) (i j : Nat) : Prop :=
  TransGen (Sees formats) i j ∧ j ≠ i

/-- What `FMformat_cmp` compares for two formats: the two, and each format that the first leads to,
other than itself, with a namesake among the second and what that leads to. -/
def Compared (f g : FormatObject) (i j s t : Nat) : Prop :=
  s = i ∧ t = j ∨ TransGen (Sees f.bodies) i s ∧ s ≠ i ∧ ReflTransGen (Sees g.bodies) j t ∧
    f.nameOf s = g.nameOf t

/-- `P` relates all that is compared. -/
def AllCompared (f g : FormatObject) (i j : Nat) (P : Nat → Nat → Prop) : Prop :=
  ∀ s t, Compared f g i j s t → P s t

section
variable {f g : FormatObject} {i j s t : Nat}

theorem reaches_lt (hrange : InRange f.bodies) (hpos : 0 < f.bodies.length) (h : f.Reaches i) :
    i < f.bodies.length := by
  cases h.cases_tail with
  | inl heq => exact heq ▸ hpos
  | inr hstep =>
    obtain ⟨k, -, hsees⟩ := hstep
    exact hrange k i hsees

theorem sameNamed_eq_some {subs : List Nat} (h : sameNamed f.bodies g.bodies subs s = some t) :
    t ∈ subs ∧ f.nameOf s = g.nameOf t := by
  refine ⟨List.mem_of_find?_eq_some h, ?_⟩
  have hfound := List.find?_some h
  exact (of_decide_eq_true hfound).symm

theorem exists_sameNamed {subs : List Nat} (ht : t ∈ subs) (hname : f.nameOf s = g.nameOf t) :
    ∃ u, sameNamed f.bodies g.bodies subs s = some u := by
  rw [← Option.isSome_iff_exists, sameNamed, List.find?_isSome]
  exact ⟨t, ht, decide_eq_true hname.symm⟩

/-! ## The verdict of the subformats -/

theorem foldlM_incompatible {cmp : Nat → Nat → Option FMformatOrder} {subs1 subs2 : List Nat} :
    subs1.foldlM (cmpSubformat f g cmp subs2 i) none = some none := by
  induction subs1 with
  | nil => rfl
  | cons sub1 subs1 ih =>
    rw [List.foldlM_cons]
    exact ih

/-- The pairs of subformats that `FMformat_cmp` compares are related by `P`. -/
def AllPairs (f g : FormatObject) (subs1 subs2 : List Nat) (i : Nat) (P : Nat → Nat → Prop) :
    Prop :=
  ∀ s ∈ subs1, s ≠ i → ∀ t, sameNamed f.bodies g.bodies subs2 s = some t → P s t

theorem allPairs_cons {sub1 : Nat} {subs1 subs2 : List Nat} {P : Nat → Nat → Prop} :
    AllPairs f g (sub1 :: subs1) subs2 i P ↔
      (sub1 ≠ i → ∀ t, sameNamed f.bodies g.bodies subs2 sub1 = some t → P sub1 t) ∧
        AllPairs f g subs1 subs2 i P := List.forall_mem_cons

theorem foldlM_tells {cmp : Nat → Nat → Option FMformatOrder} {subs1 subs2 : List Nat}
    {P Q : Nat → Nat → Prop}
    (hcmp : AllPairs f g subs1 subs2 i fun s t => ∃ r, cmp s t = some r ∧ r.Tells (P s t) (Q s t))
    {result : FMformatOrder} {p q : Prop} (hne : result ≠ .incompatible)
    (hresult : result.Tells p q) :
    ∃ last, subs1.foldlM (cmpSubformat f g cmp subs2 i) (some result) = some last ∧
      (last.getD .incompatible).Tells (p ∧ AllPairs f g subs1 subs2 i P)
        (q ∧ AllPairs f g subs1 subs2 i Q) := by
  induction subs1 generalizing result p q with
  | nil =>
    have hnil : ∀ P, AllPairs f g [] subs2 i P := fun P s hs => by cases hs
    exact ⟨some result, rfl, hresult.congr (and_iff_left (hnil P)).symm
      (and_iff_left (hnil Q)).symm⟩
  | cons sub1 subs1 ih =>
    rw [allPairs_cons] at hcmp
    simp only [List.foldlM_cons, allPairs_cons]
    -- Formats that are skipped leave the verdict as it is.
    have hskip : (sub1 ≠ i → sameNamed f.bodies g.bodies subs2 sub1 = none) →
        cmpSubformat f g cmp subs2 i (some result) sub1 = some (some result) := by
      intro hnone
      rw [cmpSubformat]
      by_cases hself : sub1 = i
      · rw [if_pos hself]
      · rw [if_neg hself, hnone hself]
    by_cases hpair : sub1 ≠ i ∧ ∃ t, sameNamed f.bodies g.bodies subs2 sub1 = some t
    · obtain ⟨hself, t, hfound⟩ := hpair
      obtain ⟨r, hr, htells⟩ := hcmp.1 hself t hfound
      have hstep : cmpSubformat f g cmp subs2 i (some result) sub1 =
          some (result.combine r) := by
        rw [cmpSubformat, if_neg hself, hfound]
        exact congrArg (Option.map result.combine) hr
      have hone : ∀ R : Nat → Nat → Prop, (sub1 ≠ i → ∀ u,
          sameNamed f.bodies g.bodies subs2 sub1 = some u → R sub1 u) ↔ R sub1 t := by
        intro R
        refine ⟨fun h => h hself t hfound, fun h _ u hu => ?_⟩
        rw [hfound] at hu
        exact Option.some.inj hu ▸ h
      have hjoined := FMformatOrder.combine_tells hne hresult htells
      rw [hstep, hone P, hone Q]
      cases hcombine : result.combine r with
      | none =>
        rw [hcombine] at hjoined
        exact ⟨none, foldlM_incompatible, fun h => hjoined.1 ⟨h.1, h.2.1⟩,
          fun h => hjoined.2 ⟨h.1, h.2.1⟩⟩
      | some joined =>
        rw [hcombine] at hjoined
        obtain ⟨last, hlast, hverdict⟩ :=
          ih hcmp.2 (FMformatOrder.combine_ne hne hcombine) hjoined
        exact ⟨last, hlast, hverdict.congr and_assoc and_assoc⟩
    · have hnone : sub1 ≠ i → sameNamed f.bodies g.bodies subs2 sub1 = none := by
        intro hself
        cases hfound : sameNamed f.bodies g.bodies subs2 sub1 with
        | none => rfl
        | some t => exact absurd ⟨hself, t, hfound⟩ hpair
      obtain ⟨last, hlast, hverdict⟩ := ih hcmp.2 hne hresult
      have hall : ∀ R : Nat → Nat → Prop, (sub1 ≠ i → ∀ u,
          sameNamed f.bodies g.bodies subs2 sub1 = some u → R sub1 u) := by
        intro R hself u hu
        rw [hnone hself] at hu
        cases hu
      rw [hskip hnone]
      exact ⟨last, hlast, hverdict.congr (and_congr_right fun _ => (and_iff_right (hall P)).symm)
        (and_congr_right fun _ => (and_iff_right (hall Q)).symm)⟩

/-- `P` relates each format that the first of two leads to, other than itself, to its namesake among
the second and what that leads to. -/
def NamesakesBelow (f g : FormatObject) (i j : Nat) (P : Nat → Nat → Prop) : Prop :=
  ∀ s t, TransGen (Sees f.bodies) i s → ReflTransGen (Sees g.bodies) j t →
    f.nameOf s = g.nameOf t → s ≠ i → P s t

/-- The pairs compared are the pairs of namesakes. -/
theorem allPairs_iff {P : Nat → Nat → Prop} (hg : g.WellNamed) (hj : g.Reaches j)
    {subs1 subs2 : List Nat} (hsubs1 : ∀ s, s ∈ subs1 ↔ s = i ∨ TransGen (Sees f.bodies) i s)
    (hsubs2 : ∀ t, t ∈ subs2 ↔ t = j ∨ TransGen (Sees g.bodies) j t) :
    AllPairs f g subs1 subs2 i P ↔ NamesakesBelow f g i j P := by
  have hleads : ∀ t, t ∈ subs2 ↔ ReflTransGen (Sees g.bodies) j t := fun t => by
    rw [hsubs2, reflTransGen_iff_eq_or_transGen]
  constructor
  · intro h s t hs ht hname hself
    have htmem := (hleads t).mpr ht
    obtain ⟨u, hu⟩ := exists_sameNamed htmem hname
    obtain ⟨humem, hsame⟩ := sameNamed_eq_some hu
    have hut : u = t := hg.formats u t (hj.trans ((hleads u).mp humem)) (hj.trans ht)
      (hsame.symm.trans hname)
    rw [← hut]
    exact h s ((hsubs1 s).mpr (.inr hs)) hself u hu
  · intro h s hs hself t hfound
    obtain ⟨hmem, hname⟩ := sameNamed_eq_some hfound
    exact h s t (((hsubs1 s).mp hs).resolve_left hself) ((hleads t).mp hmem) hname hself

/-- What is compared are the two formats and what is compared for each pair of namesakes. -/
theorem allCompared_iff {P : Nat → Nat → Prop}
    (hacc : Acc (fun s i => LeadsAway f.bodies i s) i) :
    AllCompared f g i j P ↔
      P i j ∧ NamesakesBelow f g i j fun s t => AllCompared f g s t P := by
  constructor
  · intro h
    refine ⟨h i j (.inl ⟨rfl, rfl⟩), fun s t hs ht hname hself s' t' hcompared => h s' t' ?_⟩
    rcases hcompared with ⟨rfl, rfl⟩ | ⟨hs', hne, ht', hname'⟩
    · exact .inr ⟨hs, hself, ht, hname⟩
    · refine .inr ⟨hs.trans hs', ?_, ht.trans ht', hname'⟩
      -- A format that led back would be on a way from itself to itself.
      rintro rfl
      exact acyclic_of_acc hacc s' .refl
        (.tail (.single ⟨hs, hself⟩) ⟨hs', Ne.symm hself⟩)
  · rintro ⟨htop, hbelow⟩ s t (⟨rfl, rfl⟩ | ⟨hs, hself, ht, hname⟩)
    · exact htop
    · exact hbelow s t hs ht hname hself s t (.inl ⟨rfl, rfl⟩)

/-! ## The verdict of two formats -/

theorem includesFields_iff {R : FMField → FMField → Prop} {b c : FMFormatBody}
    (hb : f.bodies[i]? = some b) (hc : g.bodies[j]? = some c) :
    f.IncludesFields R g i j ↔
      FieldsInclude R (sortByName b.fieldList) (sortByName c.fieldList) := by
  rw [fieldsInclude_perm (sortByName_perm _) (sortByName_perm _)]
  constructor
  · exact fun h => h b c hb hc
  · intro h b' c' hb' hc'
    rw [hb, Option.some.injEq] at hb'
    rw [hc, Option.some.injEq] at hc'
    rwa [← hb', ← hc']

/-- The verdict is that of the fields joined with those of the subformats. -/
theorem formatCmp_succ {depth : Nat} {b c : FMFormatBody} {subs1 subs2 : List Nat}
    (hb : f.bodies[i]? = some b) (hc : g.bodies[j]? = some c)
    (hsubs1 : getSubformats f.bodies depth i = some subs1)
    (hsubs2 : getSubformats g.bodies depth j = some subs2) :
    formatCmp f g (depth + 1) i j =
      match cmpFields .equal (sortByName b.fieldList) (sortByName c.fieldList) with
      | none => some .incompatible
      | some result => (subs1.foldlM (cmpSubformat f g (formatCmp f g depth) subs2 i)
          (some result)).map (·.getD .incompatible) := by
  rw [formatCmp, hb, hc]
  simp only [Option.bind_eq_bind, Option.bind_some, hsubs1, hsubs2]
  cases cmpFields .equal (sortByName b.fieldList) (sortByName c.fieldList) with
  | none => rfl
  | some result => exact Option.map_eq_bind.symm

/-- `FMformat_cmp` ends, and says which of the formats that it compares include their partners as
far as `field_type_eq` knows. -/
theorem formatCmp_tells (hrange1 : InRange f.bodies) (hpos1 : 0 < f.bodies.length)
    (hrange2 : InRange g.bodies) (hpos2 : 0 < g.bodies.length) (hf : f.WellNamed)
    (hg : g.WellNamed) (hacc : Acc (fun s i => LeadsAway f.bodies i s) i) (hi : f.Reaches i)
    (hj : g.Reaches j) :
    ∃ n, ∀ m, n ≤ m → ∃ r, formatCmp f g m i j = some r ∧
      r.Tells (AllCompared f g i j (f.IncludesFields FieldTypeEq g))
        (AllCompared f g i j fun s t => g.IncludesFields FieldTypeEq f t s) := by
  induction hacc generalizing j with
  | intro i hacc ih =>
    have hilt := reaches_lt hrange1 hpos1 hi
    have hjlt := reaches_lt hrange2 hpos2 hj
    -- What each pair of subformats needs.
    have hpairs : ∀ p ∈ (List.range f.bodies.length).product (List.range g.bodies.length),
        ∃ n, ∀ m, n ≤ m → TransGen (Sees f.bodies) i p.1 → ReflTransGen (Sees g.bodies) j p.2 →
          p.1 ≠ i → ∃ r, formatCmp f g m p.1 p.2 = some r ∧
            r.Tells (AllCompared f g p.1 p.2 (f.IncludesFields FieldTypeEq g))
              (AllCompared f g p.1 p.2 fun s t => g.IncludesFields FieldTypeEq f t s) := by
      rintro ⟨s, t⟩ -
      by_cases hpair : TransGen (Sees f.bodies) i s ∧ ReflTransGen (Sees g.bodies) j t ∧ s ≠ i
      · obtain ⟨hs, ht, hself⟩ := hpair
        obtain ⟨n, hn⟩ := ih s ⟨hs, hself⟩ (hi.trans hs.to_reflTransGen) (hj.trans ht)
        exact ⟨n, fun m hm _ _ _ => hn m hm⟩
      · exact ⟨0, fun m _ hs ht hself => absurd ⟨hs, ht, hself⟩ hpair⟩
    obtain ⟨n, hn⟩ := exists_bound hpairs
    refine ⟨n + f.bodies.length + g.bodies.length + 1, fun m hm => ?_⟩
    obtain ⟨m, rfl⟩ := Nat.exists_eq_succ_of_ne_zero (show m ≠ 0 by omega)
    have hb := List.getElem?_eq_getElem hilt
    have hc := List.getElem?_eq_getElem hjlt
    obtain ⟨subs1, hsubs1⟩ := exists_subformats hrange1 hilt (show f.bodies.length ≤ m by omega)
    obtain ⟨subs2, hsubs2⟩ := exists_subformats hrange2 hjlt (show g.bodies.length ≤ m by omega)
    have hmem1 := fun s => @mem_getSubformats _ _ _ _ hsubs1 s
    have hmem2 := fun t => @mem_getSubformats _ _ _ _ hsubs2 t
    have hfields := cmpFields_tells (by simp) FMformatOrder.tells_start
      (inNameOrder_sortByName (hf.fields i _ hi hb)) (inNameOrder_sortByName (hg.fields j _ hj hc))
    rw [true_and, true_and, ← includesFields_iff hb hc, ← includesFields_iff hc hb] at hfields
    have hi' : Acc (fun s i => LeadsAway f.bodies i s) i := Acc.intro i hacc
    rw [Nat.succ_eq_add_one, formatCmp_succ hb hc hsubs1 hsubs2, allCompared_iff hi',
      allCompared_iff hi']
    cases hcmp : cmpFields .equal (sortByName f.bodies[i].fieldList)
        (sortByName g.bodies[j].fieldList) with
    | none =>
      rw [hcmp] at hfields
      exact ⟨.incompatible, rfl, fun h => hfields.1 h.1, fun h => hfields.2 h.1⟩
    | some result =>
      rw [hcmp] at hfields
      have hbelow : AllPairs f g subs1 subs2 i fun s t => ∃ r, formatCmp f g m s t = some r ∧
          r.Tells (AllCompared f g s t (f.IncludesFields FieldTypeEq g))
            (AllCompared f g s t fun s t => g.IncludesFields FieldTypeEq f t s) := by
        rw [allPairs_iff hg hj hmem1 hmem2]
        intro s t hs ht hname hself
        exact hn (s, t) (List.pair_mem_product.mpr ⟨List.mem_range.mpr (hrange1.lt hilt (.inr hs)),
          List.mem_range.mpr (hrange2.lt hjlt (reflTransGen_iff_eq_or_transGen.mp ht))⟩) m
          (by omega) hs ht hself
      obtain ⟨last, hlast, htells⟩ := foldlM_tells hbelow (cmpFields_ne (by simp) hcmp) hfields
      refine ⟨last.getD .incompatible, congrArg (Option.map (·.getD .incompatible)) hlast,
        htells.congr ?_ ?_⟩
      · rw [allPairs_iff hg hj hmem1 hmem2]
      · rw [allPairs_iff hg hj hmem1 hmem2]

/-! ## A format and itself -/

/-- One format of the list, compared with itself. -/
theorem cmpSubformat_self (hf : f.WellNamed) {cmp : Nat → Nat → Option FMformatOrder}
    (hcmp : ∀ s r, f.Reaches s → cmp s s = some r → r = .equal) {subs : List Nat}
    (hsubs : ∀ s ∈ subs, f.Reaches s) (hs : s ∈ subs) {result : Option FMformatOrder}
    (h : cmpSubformat f f cmp subs i (some .equal) s = some result) :
    result = some .equal ∧ (s ≠ i → cmp s s = some .equal) := by
  rw [cmpSubformat] at h
  by_cases hself : s = i
  · rw [if_pos hself] at h
    exact ⟨(Option.some.inj h).symm, fun hne => absurd hself hne⟩
  · rw [if_neg hself] at h
    obtain ⟨u, hu⟩ := @exists_sameNamed f f s s subs hs rfl
    obtain ⟨humem, hname⟩ := sameNamed_eq_some hu
    have hus : u = s := hf.formats u s (hsubs u humem) (hsubs s hs) hname.symm
    subst hus
    rw [hu] at h
    obtain ⟨r, hr, hjoin⟩ := Option.map_eq_some_iff.mp h
    have hequal := hcmp u r (hsubs u hs) hr
    subst hequal
    exact ⟨hjoin.symm, fun _ => hr⟩

theorem foldlM_self (hf : f.WellNamed) {cmp : Nat → Nat → Option FMformatOrder}
    (hcmp : ∀ s r, f.Reaches s → cmp s s = some r → r = .equal) {subs : List Nat}
    (hsubs : ∀ s ∈ subs, f.Reaches s) {rest : List Nat} (hrest : rest ⊆ subs)
    {last : Option FMformatOrder}
    (h : rest.foldlM (cmpSubformat f f cmp subs i) (some .equal) = some last) :
    last = some .equal ∧ ∀ s ∈ rest, s ≠ i → cmp s s = some .equal := by
  induction rest with
  | nil => exact ⟨(Option.some.inj h).symm, fun s hs => by cases hs⟩
  | cons s rest ih =>
    rw [List.foldlM_cons] at h
    obtain ⟨result, hstep, hlast⟩ := Option.bind_eq_some_iff.mp h
    obtain ⟨rfl, hs⟩ := cmpSubformat_self hf hcmp hsubs (hrest List.mem_cons_self) hstep
    obtain ⟨hequal, hall⟩ := ih (fun x hx => hrest (List.mem_cons_of_mem _ hx)) hlast
    refine ⟨hequal, fun x hx => ?_⟩
    cases List.mem_cons.mp hx with
    | inl heq => exact heq ▸ hs
    | inr hmem => exact hall x hmem

/-- A comparison of a format with itself that ends finds them equal, and has compared each format
it leads to with itself. -/
theorem formatCmp_self (hf : f.WellNamed) {depth : Nat} (hi : f.Reaches i) {r : FMformatOrder}
    (h : formatCmp f f depth i i = some r) :
    r = .equal ∧ ∀ s, LeadsAway f.bodies i s →
      ∃ m, m < depth ∧ formatCmp f f m s s = some .equal := by
  induction depth generalizing i r with
  | zero => cases h
  | succ depth ih =>
    rw [formatCmp] at h
    obtain ⟨b, hb, h⟩ := Option.bind_eq_some_iff.mp h
    rw [hb] at h
    simp only [Option.bind_eq_bind, Option.bind_some, cmpFields_self] at h
    obtain ⟨subs, hsubs, h⟩ := Option.bind_eq_some_iff.mp h
    rw [hsubs, Option.bind_some] at h
    obtain ⟨last, hlast, hr⟩ := Option.bind_eq_some_iff.mp h
    have hmem := fun s => @mem_getSubformats _ _ _ _ hsubs s
    have hreach : ∀ s ∈ subs, f.Reaches s := fun s hs =>
      ((hmem s).mp hs).elim (fun heq => heq ▸ hi) fun hs => hi.trans hs.to_reflTransGen
    obtain ⟨rfl, hall⟩ := foldlM_self hf (fun s r hs hr => (ih hs hr).1) hreach (fun _ hx => hx)
      hlast
    refine ⟨(Option.some.inj hr).symm, fun s hs => ?_⟩
    exact ⟨depth, by omega, hall s ((hmem s).mpr (.inr hs.1)) hs.2⟩

/-- A format that leads to two others that lead to each other is never done being compared with
itself. -/
theorem acyclic_of_formatCmp_self (hf : f.WellNamed) {depth : Nat} (hi : f.Reaches i)
    {r : FMformatOrder} (h : formatCmp f f depth i i = some r) :
    Acyclic (LeadsAway f.bodies) i := by
  induction depth using Nat.strong_induction_on generalizing i r with
  | _ depth ih =>
    intro b hb hcycle
    obtain ⟨s, hs, hsb⟩ : ∃ s, LeadsAway f.bodies i s ∧ ReflTransGen (LeadsAway f.bodies) s b := by
      cases hb.cases_head with
      | inl heq =>
        subst heq
        obtain ⟨s, hs, hback⟩ := TransGen.head'_iff.mp hcycle
        exact ⟨s, hs, hback⟩
      | inr hstep => exact hstep
    obtain ⟨m, hm, hself⟩ := (formatCmp_self hf hi h).2 s hs
    exact ih m hm (hi.trans hs.1.to_reflTransGen) hself b hsb hcycle

end

/-! ## Types -/

/-- What a dimension says: a number, or the name of a field. -/
def dimensionOf (text : List UInt8) : Int ⊕ List UInt8 :=
  if IsName text then .inr (text.takeWhile (· ≠ chr ']')) else .inl (strtol 10 text).1

/-- The pointers in front of the base type. -/
def pointerDepth (typ : List UInt8) : Nat :=
  (typ.takeWhile fun b => isSpace b || b == chr '*' || b == chr '(').count (chr '*')

/-- Two type strings have the same base type, pointers and dimensions.  Subformats are the same
base type when their names are. -/
structure SameTypeString (typ1 typ2 : List UInt8) : Prop where
  dataType : (arrayStrToDataType typ1).1 = (arrayStrToDataType typ2).1
  subformat : (arrayStrToDataType typ1).1 = .unknownType → baseDataType typ1 = baseDataType typ2
  pointers : pointerDepth typ1 = pointerDepth typ2
  dimensions : (bracketTexts typ1).map dimensionOf = (bracketTexts typ2).map dimensionOf

/-- The types of two fields are the same. -/
def SameType (f1 f2 : FMField) : Prop := SameTypeString f1.fieldType.bytes f2.fieldType.bytes

/-! ## The order -/

/-- `FMformat_cmp` orders two formats by inclusion, the other way round when they are exchanged,
and finds each equal to itself. -/
structure OrderTold (f g : FormatObject) : Prop where
  tells : ∃ n, ∀ depth, n ≤ depth → ∃ order, formatCmp f g depth 0 0 = some order ∧
    order.Tells (f.Includes SameType g 0 0) (g.Includes SameType f 0 0)
  mirrored : ∃ n, ∀ depth, n ≤ depth → ∃ order, formatCmp f g depth 0 0 = some order ∧
    formatCmp g f depth 0 0 = some order.mirror
  self1 : ∃ n, ∀ depth, n ≤ depth → formatCmp f f depth 0 0 = some .equal
  self2 : ∃ n, ∀ depth, n ≤ depth → formatCmp g g depth 0 0 = some .equal

/-- The formats that are compared include their partners by what `field_type_eq` compares just when
the one format includes the other by the types themselves, and the other way round. -/
def TypesTold (f g : FormatObject) : Prop :=
  (AllCompared f g 0 0 (f.IncludesFields FieldTypeEq g) ↔ f.Includes SameType g 0 0) ∧
    (AllCompared f g 0 0 (fun s t => g.IncludesFields FieldTypeEq f t s) ↔
      g.Includes SameType f 0 0)

section
variable {f g : FormatObject}

theorem acc_leadsAway_of_acyclic (hrange : InRange f.bodies) (hpos : 0 < f.bodies.length)
    (h : Acyclic (LeadsAway f.bodies) 0) : Acc (fun s i => LeadsAway f.bodies i s) 0 := by
  refine acc_of_acyclic (fun x hx y hxy => ?_) (Finset.mem_range.mpr hpos) h
  exact Finset.mem_range.mpr (hrange.lt (Finset.mem_range.mp hx) (.inr hxy.1))

/-- What the comparison of two whole formats says, where it ends. -/
theorem top_tells (hf : f.Made) (hg : g.Made) (hnames1 : f.WellNamed) (hnames2 : g.WellNamed)
    (hacyclic : Acyclic (LeadsAway f.bodies) 0) :
    ∃ n, ∀ depth, n ≤ depth → ∃ r, formatCmp f g depth 0 0 = some r ∧
      r.Tells (AllCompared f g 0 0 (f.IncludesFields FieldTypeEq g))
        (AllCompared f g 0 0 fun s t => g.IncludesFields FieldTypeEq f t s) := by
  obtain ⟨hrange1, hpos1⟩ := inRange_of_made hf
  obtain ⟨hrange2, hpos2⟩ := inRange_of_made hg
  exact formatCmp_tells hrange1 hpos1 hrange2 hpos2 hnames1 hnames2
    (acc_leadsAway_of_acyclic hrange1 hpos1 hacyclic) .refl .refl

theorem top_self (hf : f.Made) (hnames : f.WellNamed) (hacyclic : Acyclic (LeadsAway f.bodies) 0) :
    ∃ n, ∀ depth, n ≤ depth → formatCmp f f depth 0 0 = some .equal := by
  obtain ⟨n, hn⟩ := top_tells hf hf hnames hnames hacyclic
  refine ⟨n, fun depth hdepth => ?_⟩
  obtain ⟨r, hr, -⟩ := hn depth hdepth
  rw [hr, (formatCmp_self hnames .refl hr).1]

/-- An order told by the types shows that `field_type_eq` told them apart. -/
theorem typesTold_of_tells (hf : f.Made) (hg : g.Made) (hnames1 : f.WellNamed)
    (hnames2 : g.WellNamed) (hacyclic : Acyclic (LeadsAway f.bodies) 0)
    (h : ∃ n, ∀ depth, n ≤ depth → ∃ order, formatCmp f g depth 0 0 = some order ∧
      order.Tells (f.Includes SameType g 0 0) (g.Includes SameType f 0 0)) : TypesTold f g := by
  obtain ⟨n, hn⟩ := h
  obtain ⟨k, hk⟩ := top_tells hf hg hnames1 hnames2 hacyclic
  obtain ⟨order, horder, htells⟩ := hn (max n k) (Nat.le_max_left n k)
  obtain ⟨order', horder', htells'⟩ := hk (max n k) (Nat.le_max_right n k)
  rw [horder, Option.some.injEq] at horder'
  exact FMformatOrder.Tells.iffs (horder' ▸ htells') htells

/-- The order of the exchanged formats. -/
theorem OrderTold.tells_symm (h : OrderTold f g) :
    ∃ n, ∀ depth, n ≤ depth → ∃ order, formatCmp g f depth 0 0 = some order ∧
      order.Tells (g.Includes SameType f 0 0) (f.Includes SameType g 0 0) := by
  obtain ⟨n, hn⟩ := h.tells
  obtain ⟨k, hk⟩ := h.mirrored
  refine ⟨max n k, fun depth hdepth => ?_⟩
  obtain ⟨order, horder, htells⟩ := hn depth (le_trans (Nat.le_max_left n k) hdepth)
  obtain ⟨order', horder', hmirror⟩ := hk depth (le_trans (Nat.le_max_right n k) hdepth)
  rw [horder, Option.some.injEq] at horder'
  subst horder'
  exact ⟨order.mirror, hmirror, htells.mirror⟩

end

/-! ## Formats without subformats -/

/-- One format with no two fields of one name and no subformats. -/
structure FormatObject.Flat (f : FormatObject) (b : FMFormatBody) : Prop where
  bodies : f.bodies = [b]
  subformats : b.fieldSubformats.filterMap id = []
  names : (b.fieldList.map (·.fieldName)).Nodup

section
variable {f g : FormatObject} {b c : FMFormatBody}

theorem FormatObject.Flat.not_sees (h : f.Flat b) (i j : Nat) : ¬ Sees f.bodies i j := by
  intro hsees
  rw [Sees, subformatsOf, h.bodies] at hsees
  cases i with
  | zero =>
    have hmem : j ∈ b.fieldSubformats.filterMap id := hsees
    rw [h.subformats] at hmem
    cases hmem
  | succ i => simp at hsees

theorem FormatObject.Flat.eq_of_leads (h : f.Flat b) {i j : Nat}
    (hlead : ReflTransGen (Sees f.bodies) i j) : i = j := by
  cases hlead.cases_head with
  | inl heq => exact heq
  | inr hstep =>
    obtain ⟨k, hsees, -⟩ := hstep
    exact absurd hsees (h.not_sees i k)

theorem FormatObject.Flat.not_leads (h : f.Flat b) {i j : Nat} :
    ¬ TransGen (Sees f.bodies) i j := by
  intro hlead
  obtain ⟨k, hsees, -⟩ := TransGen.head'_iff.mp hlead
  exact h.not_sees i k hsees

theorem FormatObject.Flat.wellNamed (h : f.Flat b) : f.WellNamed := by
  constructor
  · intro i c hi hc
    rw [← h.eq_of_leads hi, h.bodies, List.getElem?_cons_zero, Option.some.injEq] at hc
    exact hc ▸ h.names
  · intro i j hi hj _
    rw [← h.eq_of_leads hi, ← h.eq_of_leads hj]

theorem FormatObject.Flat.acyclic (h : f.Flat b) : Acyclic (LeadsAway f.bodies) 0 := by
  intro i _ hcycle
  obtain ⟨k, hlead, -⟩ := TransGen.head'_iff.mp hcycle
  exact h.not_leads hlead.1

theorem FormatObject.Flat.allCompared_iff (hf : f.Flat b) (hg : g.Flat c)
    {R : FMField → FMField → Prop} :
    AllCompared f g 0 0 (f.IncludesFields R g) ↔ FieldsInclude R b.fieldList c.fieldList := by
  constructor
  · intro h
    refine h 0 0 (.inl ⟨rfl, rfl⟩) b c ?_ ?_
    · rw [hf.bodies, List.getElem?_cons_zero]
    · rw [hg.bodies, List.getElem?_cons_zero]
  · rintro h s t (⟨rfl, rfl⟩ | ⟨hs, -⟩) b' c' hb hc
    · rw [hf.bodies, List.getElem?_cons_zero, Option.some.injEq] at hb
      rw [hg.bodies, List.getElem?_cons_zero, Option.some.injEq] at hc
      exact hb ▸ hc ▸ h
    · exact absurd hs hf.not_leads

theorem FormatObject.Flat.allCompared_iff' (hf : f.Flat b) (hg : g.Flat c)
    {R : FMField → FMField → Prop} :
    AllCompared f g 0 0 (fun s t => g.IncludesFields R f t s) ↔
      FieldsInclude R c.fieldList b.fieldList := by
  constructor
  · intro h
    refine h 0 0 (.inl ⟨rfl, rfl⟩) c b ?_ ?_
    · rw [hg.bodies, List.getElem?_cons_zero]
    · rw [hf.bodies, List.getElem?_cons_zero]
  · rintro h s t (⟨rfl, rfl⟩ | ⟨hs, -⟩) c' b' hc hb
    · rw [hf.bodies, List.getElem?_cons_zero, Option.some.injEq] at hb
      rw [hg.bodies, List.getElem?_cons_zero, Option.some.injEq] at hc
      exact hb ▸ hc ▸ h
    · exact absurd hs hf.not_leads

theorem FormatObject.Flat.includes_iff (hf : f.Flat b) (hg : g.Flat c)
    {R : FMField → FMField → Prop} :
    f.Includes R g 0 0 ↔ FieldsInclude R b.fieldList c.fieldList := by
  constructor
  · intro h
    refine h.1 b c ?_ ?_
    · rw [hf.bodies, List.getElem?_cons_zero]
    · rw [hg.bodies, List.getElem?_cons_zero]
  · intro h
    refine ⟨fun b' c' hb hc => ?_, fun s t hs => absurd hs hf.not_leads⟩
    rw [hf.bodies, List.getElem?_cons_zero, Option.some.injEq] at hb
    rw [hg.bodies, List.getElem?_cons_zero, Option.some.injEq] at hc
    exact hb ▸ hc ▸ h

end

theorem flat_point (formatName : CString) (address : Nat) (loaded : Bool) :
    FormatObject.Flat ⟨⟨pointFormat formatName [], []⟩, address, loaded⟩
      (pointFormat formatName []) := by
  refine ⟨rfl, rfl, ?_⟩
  show (pointFields.map (·.fieldName)).Nodup
  decide

/-- A list of one record with the field `x` of the type `*integer`. -/
def pointedFields : List FMField :=
  [{ fieldName := cstr ['x'] (.refl false),
     fieldType := cstr ['*', 'i', 'n', 't', 'e', 'g', 'e', 'r'] (.refl false),
     fieldSize := 4, fieldOffset := 0 }]

def pointedList : List FMStructDesc :=
  [{ formatName := cstr ['p'] (.refl false), fieldList := pointedFields, structSize := 8,
     optInfo := [] }]

end FFS
