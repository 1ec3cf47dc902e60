import Mathlib.Data.Set.Card
import FFS.FM.Alignment
import FFS.Machine.FirstWay

/-!
# The order of the subformats

`topo_order_subformats` puts the formats into the reverse of the order in which a walk over all
references leaves them, references by pointers included.  The walk comes to a format by the first
way, in the order of names.  A format that contains another by value comes before it just if the
other is not on that way.
-/

namespace FFS

open Machine Relation

/-- A struct list gets as far as the order of its formats. -/
def Prepared (columnMajor ignoreDefaultValues : Bool) (structList : List FMStructDesc)
    (derived : List FMFormatBody) : Prop :=
  ∃ copied, structList.mapM (newFormat columnMajor ignoreDefaultValues) = some copied ∧
    pass (generateVarList (List.range copied.length)) copied (List.range copied.length).reverse =
      some derived

/-- The arrays of `topo_order_subformats` have room for the order.  It has the formats that the
top leads to and no others, each before the ones it contains by value, and the alignments can be
set. -/
structure SubformatsOrdered (derived : List FMFormatBody) : Prop where
  room : (topoOrderSubformats derived).length < topoArraySize
  nodup : (topoOrderSubformats derived).Nodup
  reached : ∀ i, i ∈ topoOrderSubformats derived ↔ ReflTransGen (Sees derived) 0 i
  before : ∀ i ∈ topoOrderSubformats derived, ∀ j, ByValue derived i j →
    [i, j].Sublist (topoOrderSubformats derived)
  aligned : ∃ aligned,
    (List.range (reorder derived (topoOrderSubformats derived)).length).reverse.foldlM
      setAlignment (reorder derived (topoOrderSubformats derived)) = some aligned ∧
    ∀ f ∈ aligned, AlignedBy aligned f

/-- Fewer formats than the arrays have room for, none of which lies by value in a format whose
first way leads through it, and all of which are alignable. -/
structure Orderable (derived : List FMFormatBody) : Prop where
  few : {i | ReflTransGen (Sees derived) 0 i}.ncard < topoArraySize
  clear : ∀ i j, ReflTransGen (Sees derived) 0 i → ByValue derived i j →
    ∀ way, FirstWay (formatSuccs derived) 0 way i → j ∉ way ++ [i]
  alignable : ∀ i, ReflTransGen (Sees derived) 0 i → Alignable derived i

/-! ## What is derived -/

theorem mem_formatSuccs {formats : List FMFormatBody} {i j : Nat} :
    j ∈ formatSuccs formats i ↔ Sees formats i j := by
  unfold formatSuccs Sees subformatsOf
  cases formats[i]? with
  | none => simp
  | some f => exact List.mem_insertionSort _

section
variable {columnMajor ignoreDefaultValues : Bool} {structList : List FMStructDesc}
  {derived : List FMFormatBody}

theorem Prepared.inRange
    (h : Prepared columnMajor ignoreDefaultValues structList derived) : InRange derived := by
  obtain ⟨copied, -, hderived⟩ := h
  exact inRange_of_pass (fun hgen _ hj => generateVarList_refs hgen hj)
    (List.nodup_reverse.mpr List.nodup_range) (by simp) hderived

theorem Prepared.complete
    (h : Prepared columnMajor ignoreDefaultValues structList derived) : Complete derived := by
  obtain ⟨copied, -, hderived⟩ := h
  obtain ⟨hlength, -, hpassed⟩ := pass_spec (List.nodup_reverse.mpr List.nodup_range) hderived
  intro f hf
  obtain ⟨i, hi⟩ := List.mem_iff_getElem?.mp hf
  have hlt : i < copied.length := hlength ▸ (List.getElem?_eq_some_iff.mp hi).1
  obtain ⟨before, behind, hsplit⟩ :=
    List.append_of_mem (show i ∈ (List.range copied.length).reverse by simpa using hlt)
  obtain ⟨l, old, new, -, hnew, hmade, -⟩ := (hpassed before i behind hsplit).made
  cases hi.symm.trans hnew
  obtain ⟨hvars, hsubs⟩ := generateVarList_lengths hmade
  have hlist := congrArg FMFormatBody.fieldList (generateVarList_underived hmade)
  simp only [FMFormatBody.underived] at hlist
  rw [hlist]
  exact ⟨hvars, hsubs⟩

theorem Prepared.alignment
    (h : Prepared columnMajor ignoreDefaultValues structList derived) :
    ∀ f ∈ derived, f.alignment = 0 := by
  obtain ⟨copied, hcopied, hderived⟩ := h
  have hkeep := pass_underived (fun _ _ _ _ => generateVarList_underived) hderived
  intro f hf
  obtain ⟨g, hg, heq⟩ := List.mem_map.mp (hkeep ▸ List.mem_map_of_mem hf)
  obtain ⟨s, -, hs⟩ := mem_of_mapM_eq_some hcopied hg
  simp only [newFormat, Option.bind_eq_bind, Option.bind_eq_some_iff, Option.pure_def,
    Option.some.injEq] at hs
  obtain ⟨_, -, rfl⟩ := hs
  have halignment := congrArg FMFormatBody.alignment heq
  exact halignment.symm

theorem Prepared.length_pos
    (h : Prepared columnMajor ignoreDefaultValues structList derived) (hne : structList ≠ []) :
    0 < derived.length := by
  obtain ⟨copied, hcopied, hderived⟩ := h
  rw [(pass_spec (List.nodup_reverse.mpr List.nodup_range) hderived).1,
    length_of_mapM_eq_some hcopied]
  exact List.length_pos_iff.mpr hne

end

/-! ## New numbers -/

section
variable {formats : List FMFormatBody} {order : List Nat} {i j k l : Nat}

theorem renumbered_at (hi : i ∈ order) {f : FMFormatBody} (hf : formats[i]? = some f)
    (hlt : ∀ i ∈ order, i < formats.length) :
    (reorder formats order)[order.idxOf i]? = some (f.renumbered order) := by
  rw [reorder_getElem? hlt, List.getElem?_idxOf hi, Option.bind_some, hf, Option.map_some]

theorem of_renumbered (hnodup : order.Nodup) (hlt : ∀ i ∈ order, i < formats.length)
    {g : FMFormatBody} (hg : (reorder formats order)[k]? = some g) :
    ∃ i ∈ order, order.idxOf i = k ∧ ∃ f, formats[i]? = some f ∧ g = f.renumbered order := by
  rw [reorder_getElem? hlt] at hg
  obtain ⟨i, hi, hg⟩ := Option.bind_eq_some_iff.mp hg
  obtain ⟨f, hf, rfl⟩ := Option.map_eq_some_iff.mp hg
  obtain ⟨hk, rfl⟩ := List.getElem?_eq_some_iff.mp hi
  exact ⟨_, List.getElem_mem hk, hnodup.idxOf_getElem k hk, f, hf, rfl⟩

/-- The order is closed under references. -/
structure ClosedOrder (formats : List FMFormatBody) (order : List Nat) : Prop where
  nodup : order.Nodup
  lt : ∀ i ∈ order, i < formats.length
  closed : ∀ i ∈ order, ∀ j, Sees formats i j → j ∈ order

theorem renumbered_fieldSubformats {f : FMFormatBody} {field : Nat} :
    (f.renumbered order).fieldSubformats[field]? = some (some l) ↔
      ∃ j, f.fieldSubformats[field]? = some (some j) ∧ order.idxOf? j = some l := by
  simp only [FMFormatBody.renumbered, List.getElem?_map, Option.map_eq_some_iff]
  constructor
  · rintro ⟨sub, hsub, hl⟩
    obtain ⟨j, rfl, hj⟩ := Option.bind_eq_some_iff.mp hl
    exact ⟨j, hsub, hj⟩
  · rintro ⟨j, hsub, hj⟩
    exact ⟨some j, hsub, hj⟩

theorem ClosedOrder.byValue_iff (h : ClosedOrder formats order) :
    ByValue (reorder formats order) k l ↔ ∃ i ∈ order, order.idxOf i = k ∧
      ∃ j ∈ order, order.idxOf j = l ∧ ByValue formats i j := by
  constructor
  · rintro ⟨g, hg, hl⟩
    obtain ⟨i, hi, hk, f, hf, rfl⟩ := of_renumbered h.nodup h.lt hg
    obtain ⟨field, var, hvar, helement, hsub⟩ := mem_byValue.mp hl
    obtain ⟨j, hj, hidx⟩ := renumbered_fieldSubformats.mp hsub
    have hij : ByValue formats i j := ⟨f, hf, mem_byValue.mpr ⟨field, var, hvar, helement, hj⟩⟩
    have hmem := h.closed i hi j hij.sees
    rw [idxOf?_of_mem hmem, Option.some.injEq] at hidx
    exact ⟨i, hi, hk, j, hmem, hidx, hij⟩
  · rintro ⟨i, hi, rfl, j, hj, rfl, f, hf, hmem⟩
    obtain ⟨field, var, hvar, helement, hsub⟩ := mem_byValue.mp hmem
    have hrenumbered := renumbered_fieldSubformats.mpr ⟨j, hsub, idxOf?_of_mem hj⟩
    exact ⟨f.renumbered order, renumbered_at hi hf h.lt,
      mem_byValue.mpr ⟨field, var, hvar, helement, hrenumbered⟩⟩

theorem ClosedOrder.occupied_iff (h : ClosedOrder formats order) (hi : i ∈ order) :
    Occupied (reorder formats order) (order.idxOf i) ↔ Occupied formats i := by
  constructor
  · intro hoccupied
    generalize hk : order.idxOf i = k at hoccupied
    induction hoccupied generalizing i with
    | own hg hfield hvar ha hpos =>
      obtain ⟨i', hi', hk', f, hf, rfl⟩ := of_renumbered h.nodup h.lt hg
      rw [← (List.idxOf_inj hi').mp (hk'.trans hk.symm)]
      exact .own hf hfield hvar ha hpos
    | contained hkl _ ih =>
      obtain ⟨i', hi', hk', j, hj, hl, hij⟩ := h.byValue_iff.mp hkl
      rw [(List.idxOf_inj hi').mp (hk'.trans hk.symm)] at hij
      exact .contained hij (ih hj hl)
  · intro hoccupied
    induction hoccupied with
    | own hf hfield hvar ha hpos => exact .own (renumbered_at hi hf h.lt) hfield hvar ha hpos
    | contained hij _ ih =>
      have hj := h.closed _ hi _ hij.sees
      exact .contained (h.byValue_iff.mpr ⟨_, hi, rfl, _, hj, rfl, hij⟩) (ih hj)

theorem ClosedOrder.alignable_iff (h : ClosedOrder formats order) (hi : i ∈ order) :
    Alignable (reorder formats order) (order.idxOf i) ↔ Alignable formats i := by
  constructor
  · intro halign f hf field fmField var hfield hvar
    refine (halign _ (renumbered_at hi hf h.lt) field fmField var hfield hvar).imp_right ?_
    rintro ⟨helement, l, hl, hoccupied⟩
    obtain ⟨j, hj, hidx⟩ := renumbered_fieldSubformats.mp hl
    have hij : ByValue formats i j := ⟨f, hf, mem_byValue.mpr ⟨field, var, hvar, helement, hj⟩⟩
    have hmem := h.closed i hi j hij.sees
    rw [idxOf?_of_mem hmem, Option.some.injEq] at hidx
    subst hidx
    exact ⟨helement, j, hj, (h.occupied_iff hmem).mp hoccupied⟩
  · intro halign g hg field fmField var hfield hvar
    obtain ⟨i', hi', hk', f, hf, rfl⟩ := of_renumbered h.nodup h.lt hg
    cases (List.idxOf_inj hi').mp hk'
    refine (halign f hf field fmField var hfield hvar).imp_right ?_
    rintro ⟨helement, j, hj, hoccupied⟩
    have hij : ByValue formats i j := ⟨f, hf, mem_byValue.mpr ⟨field, var, hvar, helement, hj⟩⟩
    have hmem := h.closed i hi j hij.sees
    exact ⟨helement, order.idxOf j, renumbered_fieldSubformats.mpr ⟨j, hj, idxOf?_of_mem hmem⟩,
      (h.occupied_iff hmem).mpr hoccupied⟩

/-- The earlier of two members has the smaller number. -/
theorem idxOf_lt_of_sublist (hnodup : order.Nodup) (h : [i, j].Sublist order) :
    order.idxOf i < order.idxOf j := by
  obtain ⟨before, behind, rfl⟩ := List.append_of_mem (h.subset (show j ∈ [i, j] by simp))
  have hi := (pair_sublist_iff hnodup).mp h
  have hj : j ∉ before := fun hmem =>
    (List.nodup_append.mp hnodup).2.2 j hmem j List.mem_cons_self rfl
  rw [List.idxOf_append_of_mem hi, List.idxOf_append_of_notMem hj]
  have hlt := List.idxOf_lt_length_of_mem hi
  omega

theorem ClosedOrder.complete (h : ClosedOrder formats order) (hcomplete : Complete formats) :
    Complete (reorder formats order) := by
  intro g hg
  obtain ⟨k, hk⟩ := List.mem_iff_getElem?.mp hg
  obtain ⟨i, -, -, f, hf, rfl⟩ := of_renumbered h.nodup h.lt hk
  obtain ⟨hvars, hsubs⟩ := hcomplete f (List.mem_of_getElem? hf)
  exact ⟨hvars, by simpa [FMFormatBody.renumbered] using hsubs⟩

theorem ClosedOrder.fresh (h : ClosedOrder formats order)
    (hzero : ∀ f ∈ formats, f.alignment = 0) :
    ∀ f ∈ (reorder formats order)[k]?, f.alignment = 0 := by
  intro g hg
  obtain ⟨i, -, -, f, hf, rfl⟩ := of_renumbered h.nodup h.lt hg
  exact hzero f (List.mem_of_getElem? hf)

/-- In the right order the alignments can be set just if all formats are alignable, and are the
greatest of the fields' ones. -/
theorem ClosedOrder.aligned_iff (h : ClosedOrder formats order) (hcomplete : Complete formats)
    (hzero : ∀ f ∈ formats, f.alignment = 0)
    (hbefore : ∀ i ∈ order, ∀ j, ByValue formats i j → [i, j].Sublist order) :
    ((∃ aligned, (List.range (reorder formats order).length).reverse.foldlM setAlignment
        (reorder formats order) = some aligned) ↔ ∀ i ∈ order, Alignable formats i) ∧
      ∀ aligned, (List.range (reorder formats order).length).reverse.foldlM setAlignment
        (reorder formats order) = some aligned → ∀ f ∈ aligned, AlignedBy aligned f := by
  have horder : ∀ k l, ByValue (reorder formats order) k l → k < l := by
    intro k l hkl
    obtain ⟨i, hi, rfl, j, hj, rfl, hij⟩ := h.byValue_iff.mp hkl
    exact idxOf_lt_of_sublist h.nodup (hbefore i hi j hij)
  have hstart : AlignedFrom (reorder formats order) (reorder formats order)
      (reorder formats order).length := by
    refine ⟨rfl, fun k _ => h.fresh hzero, fun k hk g hg => ?_⟩
    rw [Option.mem_def, List.getElem?_eq_none hk] at hg
    cases hg
  obtain ⟨hloop, hfinal⟩ := AlignedFrom.loop (h.complete hcomplete) horder hstart le_rfl
  have hall : (∀ k < (reorder formats order).length, Alignable (reorder formats order) k) ↔
      ∀ i ∈ order, Alignable formats i := by
    rw [length_reorder h.lt]
    constructor
    · exact fun hall i hi => (h.alignable_iff hi).mp (hall _ (List.idxOf_lt_length_of_mem hi))
    · intro hall k hk
      rw [← h.nodup.idxOf_getElem k hk]
      exact (h.alignable_iff (List.getElem_mem hk)).mpr (hall _ (List.getElem_mem hk))
  refine ⟨hloop.trans hall, fun aligned haligned f hf => ?_⟩
  obtain ⟨k, hk⟩ := List.mem_iff_getElem?.mp hf
  exact (hfinal aligned haligned).aligned k (Nat.zero_le k) f hk

/-- Where the alignments can be set, the order is right. -/
theorem ClosedOrder.before_of_foldlM (h : ClosedOrder formats order)
    (hcomplete : Complete formats) (hzero : ∀ f ∈ formats, f.alignment = 0)
    {aligned : List FMFormatBody}
    (haligned : (List.range (reorder formats order).length).reverse.foldlM setAlignment
      (reorder formats order) = some aligned) (hi : i ∈ order) (hij : ByValue formats i j) :
    [i, j].Sublist order := by
  have hj := h.closed i hi j hij.sees
  have hlt : order.idxOf i < order.idxOf j := by
    refine byValue_lt_of_foldlM (h.complete hcomplete) rfl (fun k _ => h.fresh hzero) haligned ?_
      (h.byValue_iff.mpr ⟨i, hi, rfl, j, hj, rfl, hij⟩)
    rw [length_reorder h.lt]
    exact List.idxOf_lt_length_of_mem hi
  obtain ⟨before, behind, hsplit⟩ := List.append_of_mem hj
  have hnodup := h.nodup
  subst hsplit
  refine (pair_sublist_iff hnodup).mpr ?_
  by_contra hnot
  have hjnot : j ∉ before := fun hmem =>
    (List.nodup_append.mp hnodup).2.2 j hmem j List.mem_cons_self rfl
  rw [List.idxOf_append_of_notMem hnot, List.idxOf_append_of_notMem hjnot,
    List.idxOf_cons_self] at hlt
  omega

end

/-! ## The order -/

section
variable {columnMajor ignoreDefaultValues : Bool} {structList : List FMStructDesc}
  {derived : List FMFormatBody}

theorem Prepared.succs_lt
    (h : Prepared columnMajor ignoreDefaultValues structList derived) :
    ∀ i ∈ Finset.range derived.length, ∀ j ∈ formatSuccs derived i,
      j ∈ Finset.range derived.length :=
  fun i _ j hj => Finset.mem_range.mpr (h.inRange i j (mem_formatSuccs.mp hj))

theorem Prepared.reached
    (h : Prepared columnMajor ignoreDefaultValues structList derived) (hne : structList ≠ [])
    (i : Nat) : i ∈ topoOrderSubformats derived ↔ ReflTransGen (Sees derived) 0 i := by
  have hrel : (fun u v => v ∈ formatSuccs derived u) = Sees derived := by
    funext u v
    exact propext mem_formatSuccs
  rw [topoOrderSubformats, List.mem_reverse, mem_postOrder_iff h.succs_lt
    (Finset.mem_range.mpr (h.length_pos hne)) (by simp), hrel]

theorem Prepared.closedOrder
    (h : Prepared columnMajor ignoreDefaultValues structList derived) (hne : structList ≠ []) :
    ClosedOrder derived (topoOrderSubformats derived) := by
  have hpos := h.length_pos hne
  have hordered : PostOrdered (formatSuccs derived) 0 _ :=
    postOrdered_postOrder h.succs_lt (Finset.mem_range.mpr hpos)
      (show (Finset.range derived.length).card < derived.length + 1 by simp)
  refine ⟨List.nodup_reverse.mpr hordered.nodup,
    fun i hi => lt_of_mem_topoOrder h.inRange hpos hi, fun i hi j hij => ?_⟩
  exact (h.reached hne j).mpr (((h.reached hne i).mp hi).tail hij)

/-- A format comes before one that it contains by value just if that one is not on its way. -/
theorem Prepared.before_iff
    (h : Prepared columnMajor ignoreDefaultValues structList derived) (hne : structList ≠ [])
    {i j : Nat} (hi : i ∈ topoOrderSubformats derived) (hij : ByValue derived i j) :
    [i, j].Sublist (topoOrderSubformats derived) ↔
      ∀ way, FirstWay (formatSuccs derived) 0 way i → j ∉ way ++ [i] := by
  rw [topoOrderSubformats] at hi ⊢
  rw [← postOrder_before_iff h.succs_lt (Finset.mem_range.mpr (h.length_pos hne))
    (by simp) (List.mem_reverse.mp hi) (mem_formatSuccs.mpr hij.sees)]
  exact (List.reverse_sublist : [j, i].reverse.Sublist _ ↔ _)

theorem Prepared.length_order
    (h : Prepared columnMajor ignoreDefaultValues structList derived) (hne : structList ≠ []) :
    (topoOrderSubformats derived).length = {i | ReflTransGen (Sees derived) 0 i}.ncard := by
  have hset : {i | ReflTransGen (Sees derived) 0 i} = ↑(topoOrderSubformats derived).toFinset := by
    ext i
    rw [Set.mem_ofPred_eq, ← h.reached hne, Finset.mem_coe, List.mem_toFinset]
  rw [hset, Set.ncard_coe_finset, List.toFinset_card_of_nodup (h.closedOrder hne).nodup]

/-- The order is right as soon as there is room for it and the alignments can be set. -/
theorem Prepared.subformatsOrdered
    (h : Prepared columnMajor ignoreDefaultValues structList derived) (hne : structList ≠ [])
    (hroom : (topoOrderSubformats derived).length < topoArraySize) {aligned : List FMFormatBody}
    (haligned :
      (List.range (reorder derived (topoOrderSubformats derived)).length).reverse.foldlM
        setAlignment (reorder derived (topoOrderSubformats derived)) = some aligned) :
    SubformatsOrdered derived := by
  have hclosed := h.closedOrder hne
  have hbefore : ∀ i ∈ topoOrderSubformats derived, ∀ j, ByValue derived i j →
      [i, j].Sublist (topoOrderSubformats derived) :=
    fun i hi j hij => hclosed.before_of_foldlM h.complete h.alignment haligned hi hij
  obtain ⟨-, halignedBy⟩ := hclosed.aligned_iff h.complete h.alignment hbefore
  exact ⟨hroom, hclosed.nodup, h.reached hne, hbefore, aligned, haligned,
    halignedBy aligned haligned⟩

theorem Prepared.subformatsOrdered_iff
    (h : Prepared columnMajor ignoreDefaultValues structList derived) (hne : structList ≠ []) :
    SubformatsOrdered derived ↔ Orderable derived := by
  have hclosed := h.closedOrder hne
  have hreached := h.reached hne
  have hlength := h.length_order hne
  constructor
  · intro hright
    refine ⟨hlength ▸ hright.room, fun i j hi hij => ?_, fun i hi => ?_⟩
    · have hmem := (hreached i).mpr hi
      exact (h.before_iff hne hmem hij).mp (hright.before i hmem j hij)
    · obtain ⟨aligned, haligned, -⟩ := hright.aligned
      obtain ⟨hiff, -⟩ := hclosed.aligned_iff h.complete h.alignment hright.before
      exact hiff.mp ⟨aligned, haligned⟩ i ((hreached i).mpr hi)
  · intro hright
    have hbefore : ∀ i ∈ topoOrderSubformats derived, ∀ j, ByValue derived i j →
        [i, j].Sublist (topoOrderSubformats derived) := fun i hi j hij =>
      (h.before_iff hne hi hij).mpr (hright.clear i j ((hreached i).mp hi) hij)
    obtain ⟨hiff, halignedBy⟩ := hclosed.aligned_iff h.complete h.alignment hbefore
    obtain ⟨aligned, haligned⟩ := hiff.mpr fun i hi => hright.alignable i ((hreached i).mp hi)
    exact ⟨hlength ▸ hright.few, hclosed.nodup, hreached, hbefore, aligned, haligned,
      halignedBy aligned haligned⟩

/-- The formats are put in an order and given their alignments as they should be just if the
list is orderable. -/
theorem subformatsOrdered_iff_orderable
    (h : Prepared columnMajor ignoreDefaultValues structList derived) (hne : structList ≠ []) :
    SubformatsOrdered derived ↔ Orderable derived :=
  h.subformatsOrdered_iff hne

end

/-! ## Examples -/

/-- The path is in order with the point behind it. -/
theorem subformatsOrdered_iff_orderable_path : ∃ derived, Prepared false false pathList derived ∧
    SubformatsOrdered derived ∧ Orderable derived := by
  have hsome : ((pathList.mapM (newFormat false false)).bind fun copied =>
      pass (generateVarList (List.range copied.length)) copied
        (List.range copied.length).reverse).any (fun derived =>
      (topoOrderSubformats derived).length < topoArraySize ∧
        ((List.range (reorder derived (topoOrderSubformats derived)).length).reverse.foldlM
          setAlignment (reorder derived (topoOrderSubformats derived))).isSome = true) = true := by
    decide
  obtain ⟨derived, hderived, hfacts⟩ := (Option.any_eq_true _ _).mp hsome
  obtain ⟨copied, hcopied, hpass⟩ := Option.bind_eq_some_iff.mp hderived
  obtain ⟨hroom, haligned⟩ := of_decide_eq_true hfacts
  obtain ⟨aligned, haligned⟩ := Option.isSome_iff_exists.mp haligned
  have hprepared : Prepared false false pathList derived := ⟨copied, hcopied, hpass⟩
  have hordered := hprepared.subformatsOrdered (List.cons_ne_nil _ _) hroom haligned
  exact ⟨derived, hprepared, hordered,
    (subformatsOrdered_iff_orderable hprepared (List.cons_ne_nil _ _)).mp hordered⟩

/-- A top that points to a cell, which points to a box that the cell lies in. -/
def boxList : List FMStructDesc :=
  [{ formatName := cstr ['t', 'o', 'p'] (.refl false),
     fieldList := [{ fieldName := cstr ['c'] (.refl false),
                     fieldType := cstr ['*', 'c', 'e', 'l', 'l'] (.refl false),
                     fieldSize := 8, fieldOffset := 0 }],
     structSize := 8, optInfo := [] },
   { formatName := cstr ['b', 'o', 'x'] (.refl false),
     fieldList := [{ fieldName := cstr ['c'] (.refl false),
                     fieldType := cstr ['c', 'e', 'l', 'l'] (.refl false),
                     fieldSize := 8, fieldOffset := 0 }],
     structSize := 8, optInfo := [] },
   { formatName := cstr ['c', 'e', 'l', 'l'] (.refl false),
     fieldList := [{ fieldName := cstr ['b'] (.refl false),
                     fieldType := cstr ['*', 'b', 'o', 'x'] (.refl false),
                     fieldSize := 8, fieldOffset := 0 }],
     structSize := 8, optInfo := [] }]

/-- No format of the list contains itself, and all fields fit, but the box comes behind the cell
that lies in it. -/
theorem boxList_not_subformatsOrdered :
    ∃ derived, Prepared false false boxList derived ∧ (∀ i j, ByValue derived i j → i = 1 ∧ j = 2) ∧
      (reorder derived (topoOrderSubformats derived)).all
        (fieldsFit (reorder derived (topoOrderSubformats derived))) = true ∧
      ¬ SubformatsOrdered derived := by
  have hsome : ((boxList.mapM (newFormat false false)).bind fun copied =>
      pass (generateVarList (List.range copied.length)) copied
        (List.range copied.length).reverse).any (fun derived =>
      derived.map (·.byValue) = [[], [2], []] ∧
        (reorder derived (topoOrderSubformats derived)).all
          (fieldsFit (reorder derived (topoOrderSubformats derived))) = true ∧
        ((List.range (reorder derived (topoOrderSubformats derived)).length).reverse.foldlM
          setAlignment (reorder derived (topoOrderSubformats derived))) = none) = true := by
    decide
  obtain ⟨derived, hderived, hfacts⟩ := (Option.any_eq_true _ _).mp hsome
  obtain ⟨copied, hcopied, hpass⟩ := Option.bind_eq_some_iff.mp hderived
  obtain ⟨hvalues, hfit, hnone⟩ := of_decide_eq_true hfacts
  refine ⟨derived, ⟨copied, hcopied, hpass⟩, ?_, hfit, fun hordered => ?_⟩
  · rintro i j ⟨f, hf, hj⟩
    have hentry := congrArg (·[i]?) hvalues
    simp only [List.getElem?_map, Option.mem_def.mp hf, Option.map_some] at hentry
    match i with
    | 0 => simp_all
    | 1 => simp_all
    | 2 => simp_all
    | i + 3 => simp at hentry
  · obtain ⟨aligned, haligned, -⟩ := hordered.aligned
    rw [hnone] at haligned
    cases haligned

end FFS
