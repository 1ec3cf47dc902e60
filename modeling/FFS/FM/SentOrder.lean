import FFS.FM.Bubble
import Mathlib.Data.Finset.Range

/-!
# Registered formats in the order they are sent

`topo_order_subformats` numbers the formats anew.  The order depends on the references of
the copied formats alone (`sendOrder`).  `Sent` collects what it is: it starts with the top
format, has no format twice, and has every format that one of its formats refers to.
-/

namespace FFS

open Machine

/-- The numbers of all formats, which are the candidates in a registration. -/
def allOf (formats : List FMFormatBody) : List Nat := List.range formats.length

/-- What a format refers to, field by field. -/
def fieldReferences (formats : List FMFormatBody) (candidates : List Nat) (i : Nat) :
    List (Option Nat) :=
  match formats[i]? with
  | some f => f.fieldList.map fun fmField =>
      (fieldSubformat formats candidates i fmField.fieldType.bytes).join
  | none => []

/-- What `add_format` visits next from a format, by the references. -/
def references (formats : List FMFormatBody) (candidates : List Nat) (i : Nat) : List Nat :=
  ((fieldReferences formats candidates i).filterMap id).insertionSort
    fun i j => subformatNameLe formats i j

/-- The order in which formats are sent. -/
def sendOrder (formats : List FMFormatBody) : List Nat :=
  (postOrder (references formats (allOf formats)) (formats.length + 1) 0).reverse

theorem mem_references {formats : List FMFormatBody} {candidates : List Nat} {i j : Nat} :
    j ∈ references formats candidates i ↔ Refers formats candidates i j := by
  rw [references, List.mem_insertionSort, fieldReferences, Refers]
  cases formats[i]? with
  | none => simp
  | some f => simp [Option.join_eq_some_iff]

theorem SameNames.subformatNameLe {formats formats' : List FMFormatBody}
    (h : SameNames formats formats') (i j : Nat) :
    subformatNameLe formats i j = subformatNameLe formats' i j := by
  have hi := congrArg (·[i]?) h
  have hj := congrArg (·[j]?) h
  simp only [List.getElem?_map] at hi hj
  rw [FFS.subformatNameLe, FFS.subformatNameLe]
  cases hf : formats[i]? <;> cases hf' : formats'[i]? <;> simp only [hf, hf', Option.map_none,
    Option.map_some, reduceCtorEq, Option.some.injEq] at hi
  · rfl
  · cases hg : formats[j]? <;> cases hg' : formats'[j]? <;> simp only [hg, hg', Option.map_none,
      Option.map_some, reduceCtorEq, Option.some.injEq] at hj
    · rfl
    · show strLe _ _ = strLe _ _
      rw [hi, hj]

section
variable {candidates before order : List Nat} {base final : List FMFormatBody} {i : Nat}

/-- The subformat of a field comes from the names alone. -/
theorem DerivedAt.fieldSubformat (h : DerivedAt candidates base final before i)
    {f g : FMFormatBody} (hf : base[i]? = some f) (hg : final[i]? = some g) (field : Nat) :
    g.fieldSubformats[field]? = f.fieldList[field]?.bind fun fmField =>
      FFS.fieldSubformat base candidates i fmField.fieldType.bytes := by
  obtain ⟨l, f', g', hf', hg', hgen, hnames, -⟩ := h.derived
  rw [hf, Option.some.injEq] at hf'
  rw [hg, Option.some.injEq] at hg'
  subst hf' hg'
  cases hfield : f.fieldList[field]? with
  | none =>
    have hlength := (generateVarList_lengths hgen).2
    rw [Option.bind_none, List.getElem?_eq_none_iff, hlength]
    exact List.getElem?_eq_none_iff.mp hfield
  | some fmField =>
    obtain ⟨v, hv, -, hsub⟩ := generateVarList_field hgen hfield
    obtain ⟨subformat, chain, hsubformat, -, rfl⟩ := generateVar_eq_some_iff.mp hv
    rw [hnames.fieldSubformat] at hsubformat
    rw [hsub, Option.bind_some, hsubformat]

theorem Derivation.fieldSubformats (h : Derivation candidates order base final)
    {g : FMFormatBody} (hg : final[i]? = some g) :
    g.fieldSubformats = fieldReferences base candidates i := by
  have hi : i < base.length := by
    rw [← h.length_eq]
    exact (List.getElem?_eq_some_iff.mp hg).1
  obtain ⟨before, hderived, -⟩ := h.derivedAt i hi
  have hf := List.getElem?_eq_getElem hi
  refine List.ext_getElem? fun field => ?_
  rw [hderived.fieldSubformat hf hg, fieldReferences, hf]
  dsimp only
  rw [List.getElem?_map]
  cases hfield : base[i].fieldList[field]? with
  | none => rfl
  | some fmField =>
    rw [Option.bind_some, Option.map_some]
    have hlt : field < g.fieldSubformats.length := by
      obtain ⟨l, f', g', hf', hg', hgen, -⟩ := hderived.derived
      rw [hf, Option.some.injEq] at hf'
      rw [hg, Option.some.injEq] at hg'
      subst hf' hg'
      rw [(generateVarList_lengths hgen).2]
      exact (List.getElem?_eq_some_iff.mp hfield).1
    have hsub := hderived.fieldSubformat hf hg field
    rw [hfield, Option.bind_some, List.getElem?_eq_getElem hlt] at hsub
    rw [← hsub, Option.join_some]

theorem Derivation.formatSuccs (h : Derivation candidates order base final) (i : Nat) :
    formatSuccs final i = references base candidates i := by
  rw [FFS.formatSuccs, references]
  cases hg : final[i]? with
  | none =>
    have hf : base[i]? = none := by
      rw [List.getElem?_eq_none_iff, ← h.length_eq]
      exact List.getElem?_eq_none_iff.mp hg
    rw [fieldReferences, hf]
    rfl
  | some g =>
    dsimp only
    rw [sortedSubformats, h.fieldSubformats hg,
      funext fun i => funext fun j => (sameNames_of_underived h.keep).subformatNameLe i j]

theorem Derivation.subformatsOf (h : Derivation candidates order base final) {j : Nat} :
    j ∈ subformatsOf final i ↔ Refers base candidates i j := by
  rw [← mem_references, references, List.mem_insertionSort, FFS.subformatsOf]
  cases hg : final[i]? with
  | none =>
    have hf : base[i]? = none := by
      rw [List.getElem?_eq_none_iff, ← h.length_eq]
      exact List.getElem?_eq_none_iff.mp hg
    rw [fieldReferences, hf]
    rfl
  | some g =>
    show j ∈ g.fieldSubformats.filterMap id ↔ _
    rw [h.fieldSubformats hg]

end

/-! ## The order -/

/-- What an order of formats is good for. -/
structure Sent (formats : List FMFormatBody) (order : List Nat) : Prop where
  nodup : order.Nodup
  top : ∃ below, order = 0 :: below
  lt : ∀ i ∈ order, i < formats.length
  closed : ∀ i ∈ order, ∀ j, Refers formats (allOf formats) i j → j ∈ order
  origin : ∀ i ∈ order, i ≠ 0 → ∃ j ∈ order, j ≠ i ∧ Refers formats (allOf formats) j i

theorem sent_sendOrder {formats : List FMFormatBody} (hpos : 0 < formats.length) :
    Sent formats (sendOrder formats) := by
  have hclosed : ∀ i ∈ Finset.range formats.length, ∀ j ∈ references formats (allOf formats) i,
      j ∈ Finset.range formats.length := by
    intro i _ j hj
    exact Finset.mem_range.mpr (mem_references.mp hj).lt
  have hordered : PostOrdered (references formats (allOf formats)) 0 (sendOrder formats).reverse := by
    rw [sendOrder, List.reverse_reverse]
    exact postOrdered_postOrder hclosed (Finset.mem_range.mpr hpos) (by simp)
  have hmem : ∀ {i}, i ∈ sendOrder formats ↔ i ∈ (sendOrder formats).reverse := List.mem_reverse.symm
  refine ⟨List.nodup_reverse.mp hordered.nodup, ?_, ?_, ?_, ?_⟩
  · rw [sendOrder, postOrder, visit, if_neg (by simp)]
    dsimp only
    rw [List.reverse_append]
    exact ⟨_, rfl⟩
  · intro i hi
    rcases hordered.origin i (hmem.mp hi) with rfl | ⟨j, -, -, hsucc⟩
    · exact hpos
    · exact (mem_references.mp hsucc).lt
  · intro i hi j hrefers
    exact hmem.mpr (hordered.closed i (hmem.mp hi) j (mem_references.mpr hrefers))
  · intro i hi hne
    rcases hordered.origin i (hmem.mp hi) with rfl | ⟨j, hj, hji, hsucc⟩
    · exact absurd rfl hne
    · exact ⟨j, hmem.mpr hj, hji, mem_references.mp hsucc⟩

end FFS
