import FFS.FM.References

/-!
# Alignments

`set_alignment` goes over the formats from the last to the first and takes the alignment of a
subformat that lies in the record itself as it is by then, which `type_alignment` asserts not to
be 0.  Where such subformats come behind the formats they lie in, the assertion holds just if
each of them has something to align, and each alignment is the greatest of the fields' ones.
-/

namespace FFS

open Machine

/-! ## What lies in a record -/

/-- The type of what the inline part of a field is made of. -/
def elementType (chain : List FMTypeDesc) : Option FMTypeEnum :=
  (chain.dropWhile fun desc => desc.type = .array).head?.map (·.type)

/-- The subformats of the fields that a format contains by value. -/
def FMFormatBody.byValue (f : FMFormatBody) : List Nat :=
  (f.varList.zip f.fieldSubformats).filterMap fun (var, sub) =>
    if elementType var.typeDesc = some .subformat then sub else none

/-- One format contains the other by value. -/
def ByValue (formats : List FMFormatBody) (i j : Nat) : Prop := ∃ f ∈ formats[i]?, j ∈ f.byValue

theorem mem_byValue {f : FMFormatBody} {j : Nat} :
    j ∈ f.byValue ↔ ∃ (field : Nat) (var : FMVarInfo), f.varList[field]? = some var ∧
      elementType var.typeDesc = some .subformat ∧ f.fieldSubformats[field]? = some (some j) := by
  rw [FMFormatBody.byValue, List.mem_filterMap]
  constructor
  · rintro ⟨⟨var, sub⟩, hmem, h⟩
    obtain ⟨field, hentry⟩ := List.mem_iff_getElem?.mp hmem
    obtain ⟨hvar, hsub⟩ := List.getElem?_zip_eq_some.mp hentry
    dsimp only at h hsub
    split at h
    · next helement => exact ⟨field, var, hvar, helement, h ▸ hsub⟩
    · cases h
  · rintro ⟨field, var, hvar, helement, hsub⟩
    exact ⟨(var, some j), List.mem_of_getElem? (List.getElem?_zip_eq_some.mpr ⟨hvar, hsub⟩),
      if_pos helement⟩

theorem ByValue.sees {formats : List FMFormatBody} {i j : Nat} (h : ByValue formats i j) :
    Sees formats i j := by
  obtain ⟨f, hf, hj⟩ := h
  obtain ⟨field, -, -, -, hsub⟩ := mem_byValue.mp hj
  exact mem_subformatsOf.mpr ⟨f, hf, List.mem_of_getElem? hsub⟩

theorem typeAlignment_element (size : Int32) (subAlignment : Option Nat)
    (chain : List FMTypeDesc) : typeAlignment size subAlignment chain =
      if elementType chain = some .subformat then (subAlignment.filter (· ≠ 0)).map Int.ofNat
      else typeAlignment size none chain := by
  induction chain with
  | nil => rfl
  | cons desc chain ih =>
    rw [typeAlignment, typeAlignment]
    cases htype : desc.type with
    | array =>
      have helement : elementType (desc :: chain) = elementType chain := by
        simp [elementType, htype]
      rw [helement]
      exact ih
    | pointer => simp [elementType, htype]
    | string => simp [elementType, htype]
    | subformat => simp [elementType, htype]
    | simple => simp [elementType, htype]

/-- A subformat has no alignment of its own. -/
theorem typeAlignment_none_of_subformat {size : Int32} {chain : List FMTypeDesc}
    (h : elementType chain = some .subformat) : typeAlignment size none chain = none := by
  rw [typeAlignment_element, if_pos h]
  rfl

/-! ## Formats with something to align -/

/-- The format has a field that needs an alignment, or contains one by value that has. -/
inductive Occupied (formats : List FMFormatBody) : Nat → Prop
  | own {i field : Nat} {f : FMFormatBody} {fmField : FMField} {var : FMVarInfo} {a : Int}
      (hf : formats[i]? = some f) (hfield : f.fieldList[field]? = some fmField)
      (hvar : f.varList[field]? = some var)
      (ha : typeAlignment fmField.fieldSize none var.typeDesc = some a) (hpos : 0 < a) :
      Occupied formats i
  | contained {i j : Nat} (hij : ByValue formats i j) (hj : Occupied formats j) : Occupied formats i

/-- Every field of the format has an alignment of its own, or lies in the record as a subformat
that has something to align. -/
def Alignable (formats : List FMFormatBody) (i : Nat) : Prop :=
  ∀ f ∈ formats[i]?, ∀ (field : Nat) (fmField : FMField) (var : FMVarInfo),
    f.fieldList[field]? = some fmField → f.varList[field]? = some var →
    (typeAlignment fmField.fieldSize none var.typeDesc).isSome ∨
      elementType var.typeDesc = some .subformat ∧
        ∃ j, f.fieldSubformats[field]? = some (some j) ∧ Occupied formats j

/-- Every field has its entries. -/
def Complete (formats : List FMFormatBody) : Prop :=
  ∀ f ∈ formats, f.varList.length = f.fieldList.length ∧
    f.fieldSubformats.length = f.fieldList.length

/-! ## One format -/

/-- The alignment of one field. -/
def fieldAlignment (formats : List FMFormatBody) (f : FMFormatBody) (field : Nat) :
    Option Int := do
  let fmField ← f.fieldList[field]?
  let var ← f.varList[field]?
  let subformat ← f.fieldSubformats[field]?
  typeAlignment fmField.fieldSize (subformat.bind fun i => formats[i]?.map (·.alignment))
    var.typeDesc

theorem fieldAlignments_eq (formats : List FMFormatBody) (f : FMFormatBody) :
    fieldAlignments formats f = (List.range f.fieldList.length).mapM (fieldAlignment formats f) :=
  rfl

section
variable {formats l l' : List FMFormatBody} {f : FMFormatBody}

theorem fieldAlignment_of_field {field : Nat} {fmField : FMField} {var : FMVarInfo}
    {sub : Option Nat} (hfield : f.fieldList[field]? = some fmField)
    (hvar : f.varList[field]? = some var) (hsub : f.fieldSubformats[field]? = some sub) :
    fieldAlignment l f field =
      typeAlignment fmField.fieldSize (sub.bind fun i => l[i]?.map (·.alignment)) var.typeDesc := by
  simp only [fieldAlignment, hfield, hvar, hsub, Option.bind_eq_bind, Option.bind_some]

/-- Only the alignments of formats contained by value matter. -/
theorem fieldAlignments_congr
    (h : ∀ j ∈ f.byValue, l[j]?.map (·.alignment) = l'[j]?.map (·.alignment)) :
    fieldAlignments l f = fieldAlignments l' f := by
  rw [fieldAlignments_eq, fieldAlignments_eq]
  refine mapM_congr fun field _ => ?_
  cases hfield : f.fieldList[field]? with
  | none => simp [fieldAlignment, hfield]
  | some fmField =>
    cases hvar : f.varList[field]? with
    | none => simp [fieldAlignment, hvar]
    | some var =>
      cases hsub : f.fieldSubformats[field]? with
      | none => simp [fieldAlignment, hsub]
      | some sub =>
        rw [fieldAlignment_of_field hfield hvar hsub, fieldAlignment_of_field hfield hvar hsub,
          typeAlignment_element, typeAlignment_element _ (sub.bind fun i => l'[i]?.map _)]
        by_cases helement : elementType var.typeDesc = some .subformat
        · cases sub with
          | none => rfl
          | some j =>
            rw [if_pos helement, if_pos helement, Option.bind_some, Option.bind_some,
              h j (mem_byValue.mpr ⟨field, var, hvar, helement, hsub⟩)]
        · rw [if_neg helement, if_neg helement]

theorem fieldAlignment_eq_some_iff {field : Nat} {a : Int} :
    fieldAlignment l f field = some a ↔ ∃ fmField var sub, f.fieldList[field]? = some fmField ∧
      f.varList[field]? = some var ∧ f.fieldSubformats[field]? = some sub ∧
      typeAlignment fmField.fieldSize (sub.bind fun i => l[i]?.map (·.alignment)) var.typeDesc =
        some a := by
  simp only [fieldAlignment, Option.bind_eq_bind, Option.bind_eq_some_iff]
  constructor
  · rintro ⟨fmField, hfield, var, hvar, sub, hsub, h⟩
    exact ⟨fmField, var, sub, hfield, hvar, hsub, h⟩
  · rintro ⟨fmField, var, sub, hfield, hvar, hsub, h⟩
    exact ⟨fmField, hfield, var, hvar, sub, hsub, h⟩

theorem exists_fieldAlignment {as : List Int} (h : fieldAlignments l f = some as) {field : Nat}
    (hlt : field < f.fieldList.length) : ∃ a ∈ as, fieldAlignment l f field = some a := by
  rw [fieldAlignments_eq] at h
  have hentry := getElem?_of_mapM_eq_some h field
  rw [List.getElem?_range hlt, Option.bind_some] at hentry
  have hlength := length_of_mapM_eq_some h
  rw [List.length_range] at hlength
  rw [List.getElem?_eq_getElem (by omega)] at hentry
  exact ⟨_, List.getElem_mem _, hentry.symm⟩

theorem foldl_max_pos {as : List Int} {n : Int} :
    0 < as.foldl max n ↔ 0 < n ∨ ∃ a ∈ as, 0 < a := by
  induction as generalizing n with
  | nil => simp
  | cons a as ih =>
    rw [List.foldl_cons, ih, lt_max_iff]
    simp [or_assoc]

/-- The alignment of a format is the greatest of its fields' ones. -/
def AlignedBy (formats : List FMFormatBody) (f : FMFormatBody) : Prop :=
  ∃ as, fieldAlignments formats f = some as ∧ f.alignment = (as.foldl max 0).toNat

theorem AlignedBy.ne_zero_iff (h : AlignedBy l f) :
    f.alignment ≠ 0 ↔ ∃ field a, fieldAlignment l f field = some a ∧ 0 < a := by
  obtain ⟨as, has, heq⟩ := h
  have hpos : f.alignment ≠ 0 ↔ ∃ a ∈ as, 0 < a := by
    have hiff := @foldl_max_pos as 0
    rw [heq]
    simp only [lt_irrefl, false_or] at hiff
    rw [← hiff]
    omega
  rw [hpos]
  constructor
  · rintro ⟨a, ha, hpos⟩
    obtain ⟨field, -, hfield⟩ := mem_of_mapM_eq_some (fieldAlignments_eq l f ▸ has) ha
    exact ⟨field, a, hfield, hpos⟩
  · rintro ⟨field, a, hfield, hpos⟩
    obtain ⟨fmField, -, -, hlt, -⟩ := fieldAlignment_eq_some_iff.mp hfield
    obtain ⟨b, hb, hfield'⟩ := exists_fieldAlignment has (List.getElem?_eq_some_iff.mp hlt).1
    rw [hfield, Option.some.injEq] at hfield'
    exact ⟨a, hfield' ▸ hb, hpos⟩

end

/-! ## All formats -/

/-- The formats from number `k` on have got their alignments, the ones before have not. -/
structure AlignedFrom (formats l : List FMFormatBody) (k : Nat) : Prop where
  same : l.map FMFormatBody.unaligned = formats.map FMFormatBody.unaligned
  fresh : ∀ i < k, ∀ f ∈ l[i]?, f.alignment = 0
  aligned : ∀ i, k ≤ i → ∀ f ∈ l[i]?, AlignedBy l f

section
variable {formats l l' : List FMFormatBody} {i k : Nat}

theorem AlignedFrom.unaligned (h : AlignedFrom formats l k) {f : FMFormatBody}
    (hf : l[i]? = some f) : ∃ g, formats[i]? = some g ∧ g.fieldList = f.fieldList ∧
      g.varList = f.varList ∧ g.fieldSubformats = f.fieldSubformats := by
  have hsame := congrArg (·[i]?) h.same
  simp only [List.getElem?_map, hf, Option.map_some] at hsame
  obtain ⟨g, hg, heq⟩ := Option.map_eq_some_iff.mp hsame.symm
  have hlist := congrArg FMFormatBody.fieldList heq
  have hvars := congrArg FMFormatBody.varList heq
  have hsubs := congrArg FMFormatBody.fieldSubformats heq
  exact ⟨g, hg, hlist, hvars, hsubs⟩

theorem AlignedFrom.exists_aligned (h : AlignedFrom formats l k) {g : FMFormatBody}
    (hg : formats[i]? = some g) : ∃ f, l[i]? = some f := by
  have hlength := congrArg List.length h.same
  rw [List.length_map, List.length_map] at hlength
  exact ⟨_, List.getElem?_eq_getElem (hlength ▸ (List.getElem?_eq_some_iff.mp hg).1)⟩

theorem byValue_congr {f g : FMFormatBody} (hvars : g.varList = f.varList)
    (hsubs : g.fieldSubformats = f.fieldSubformats) : g.byValue = f.byValue := by
  rw [FMFormatBody.byValue, FMFormatBody.byValue, hvars, hsubs]

/-- The alignment of a field that contains a subformat. -/
theorem fieldAlignment_subformat {f : FMFormatBody} {field j : Nat} {var : FMVarInfo} {a : Int}
    (hvar : f.varList[field]? = some var) (helement : elementType var.typeDesc = some .subformat)
    (hsub : f.fieldSubformats[field]? = some (some j)) (h : fieldAlignment l f field = some a) :
    ∃ g, l[j]? = some g ∧ g.alignment ≠ 0 ∧ a = g.alignment := by
  obtain ⟨fmField, var', sub, hfield, hvar', hsub', h⟩ := fieldAlignment_eq_some_iff.mp h
  rw [hvar, Option.some.injEq] at hvar'
  rw [hsub, Option.some.injEq] at hsub'
  subst hvar' hsub'
  rw [typeAlignment_element, if_pos helement, Option.bind_some] at h
  obtain ⟨n, hn, rfl⟩ := Option.map_eq_some_iff.mp h
  obtain ⟨hn, hne⟩ := Option.filter_eq_some_iff.mp hn
  obtain ⟨g, hg, rfl⟩ := Option.map_eq_some_iff.mp hn
  exact ⟨g, hg, by simpa using hne, rfl⟩

/-- Behind the place of the loop a format has an alignment just if it has something to align. -/
theorem AlignedFrom.occupied_iff (h : AlignedFrom formats l k) (hcomplete : Complete formats)
    (horder : ∀ i j, ByValue formats i j → i < j) {f : FMFormatBody} (hi : k ≤ i)
    (hf : l[i]? = some f) : f.alignment ≠ 0 ↔ Occupied formats i := by
  constructor
  · intro hne
    induction hn : formats.length - i using Nat.strong_induction_on generalizing i f with
    | _ n ih =>
      obtain ⟨field, a, hfield, hpos⟩ := (h.aligned i hi f hf).ne_zero_iff.mp hne
      obtain ⟨fmField, var, sub, hlist, hvar, hsub, htype⟩ := fieldAlignment_eq_some_iff.mp hfield
      obtain ⟨g, hg, hlistg, hvarsg, hsubsg⟩ := h.unaligned hf
      rw [typeAlignment_element] at htype
      split at htype
      · next helement =>
        cases sub with
        | none => cases htype
        | some j =>
          obtain ⟨f', hf', hne', -⟩ := fieldAlignment_subformat hvar helement hsub hfield
          have hij : ByValue formats i j := ⟨g, hg, by
            rw [byValue_congr hvarsg hsubsg]
            exact mem_byValue.mpr ⟨field, var, hvar, helement, hsub⟩⟩
          have hlt := horder i j hij
          have hj : j < formats.length := by
            obtain ⟨g', hg', -⟩ := h.unaligned hf'
            exact (List.getElem?_eq_some_iff.mp hg').1
          exact .contained hij (ih _ (by omega) (by omega) hf' hne' rfl)
      · exact .own hg (hlistg ▸ hlist) (hvarsg ▸ hvar) htype hpos
  · intro hoccupied
    rw [(h.aligned i hi f hf).ne_zero_iff]
    obtain ⟨as, has, -⟩ := h.aligned i hi f hf
    obtain ⟨g, hg, hlistg, hvarsg, hsubsg⟩ := h.unaligned hf
    cases hoccupied with
    | @own _ field g' fmField var a hg' hfield hvar ha hpos =>
      rw [hg, Option.some.injEq] at hg'
      subst hg'
      rw [hlistg] at hfield
      rw [hvarsg] at hvar
      obtain ⟨b, -, hb⟩ := exists_fieldAlignment has (List.getElem?_eq_some_iff.mp hfield).1
      refine ⟨field, b, hb, ?_⟩
      obtain ⟨fmField', var', sub, hfield', hvar', -, htype⟩ := fieldAlignment_eq_some_iff.mp hb
      rw [hfield, Option.some.injEq] at hfield'
      rw [hvar, Option.some.injEq] at hvar'
      subst hfield' hvar'
      have helement : elementType var.typeDesc ≠ some .subformat := by
        intro helement
        rw [typeAlignment_none_of_subformat helement] at ha
        cases ha
      rw [typeAlignment_element, if_neg helement, ha, Option.some.injEq] at htype
      exact htype ▸ hpos
    | @contained _ j hij _ =>
      obtain ⟨g', hg', hj⟩ := hij
      rw [Option.mem_def, hg, Option.some.injEq] at hg'
      subst hg'
      obtain ⟨field, var, hvar, helement, hsub⟩ := mem_byValue.mp hj
      have hlt : field < f.fieldList.length := by
        rw [← hlistg, ← (hcomplete g (List.mem_of_getElem? hg)).1]
        exact (List.getElem?_eq_some_iff.mp hvar).1
      rw [hvarsg] at hvar
      rw [hsubsg] at hsub
      obtain ⟨a, -, ha⟩ := exists_fieldAlignment has hlt
      obtain ⟨f', -, hne, rfl⟩ := fieldAlignment_subformat hvar helement hsub ha
      exact ⟨field, _, ha, by omega⟩

/-- The alignments of a format's fields are there just if the format is alignable. -/
theorem AlignedFrom.alignable_iff (h : AlignedFrom formats l (k + 1)) (hcomplete : Complete formats)
    (horder : ∀ i j, ByValue formats i j → i < j) {f : FMFormatBody} (hf : l[k]? = some f) :
    (∃ as, fieldAlignments l f = some as) ↔ Alignable formats k := by
  obtain ⟨g, hg, hlistg, hvarsg, hsubsg⟩ := h.unaligned hf
  obtain ⟨hvars, hsubs⟩ := hcomplete g (List.mem_of_getElem? hg)
  constructor
  · rintro ⟨as, has⟩ g' hg' field fmField var hfield hvar
    rw [Option.mem_def, hg, Option.some.injEq] at hg'
    subst hg'
    rw [hlistg] at hfield
    rw [hvarsg] at hvar
    obtain ⟨a, -, ha⟩ := exists_fieldAlignment has (List.getElem?_eq_some_iff.mp hfield).1
    obtain ⟨fmField', var', sub, hfield', hvar', hsub, htype⟩ := fieldAlignment_eq_some_iff.mp ha
    rw [hfield, Option.some.injEq] at hfield'
    rw [hvar, Option.some.injEq] at hvar'
    subst hfield' hvar'
    by_cases helement : elementType var.typeDesc = some .subformat
    · refine .inr ⟨helement, ?_⟩
      cases sub with
      | none =>
        rw [typeAlignment_element, if_pos helement] at htype
        cases htype
      | some j =>
        obtain ⟨f', hf', hne, -⟩ := fieldAlignment_subformat hvar helement hsub ha
        have hij : ByValue formats k j := ⟨g, hg, by
          rw [byValue_congr hvarsg hsubsg]
          exact mem_byValue.mpr ⟨field, var, hvar, helement, hsub⟩⟩
        refine ⟨j, hsubsg ▸ hsub, ?_⟩
        exact (h.occupied_iff hcomplete horder (horder k j hij) hf').mp hne
    · rw [typeAlignment_element, if_neg helement] at htype
      exact .inl (by rw [htype]; rfl)
  · intro halign
    rw [fieldAlignments_eq]
    refine exists_mapM_eq_some fun field hfield => ?_
    have hlt : field < g.fieldList.length := hlistg ▸ List.mem_range.mp hfield
    obtain ⟨fmField, hlist⟩ : ∃ fmField, g.fieldList[field]? = some fmField :=
      ⟨_, List.getElem?_eq_getElem hlt⟩
    obtain ⟨var, hvar⟩ : ∃ var, g.varList[field]? = some var :=
      ⟨_, List.getElem?_eq_getElem (hvars ▸ hlt)⟩
    obtain ⟨sub, hsub⟩ : ∃ sub, g.fieldSubformats[field]? = some sub :=
      ⟨_, List.getElem?_eq_getElem (hsubs ▸ hlt)⟩
    have hcase := halign g hg field fmField var hlist hvar
    rw [fieldAlignment_of_field (hlistg ▸ hlist) (hvarsg ▸ hvar) (hsubsg ▸ hsub)]
    rcases hcase with hown | ⟨helement, j, hj, hoccupied⟩
    · obtain ⟨a, ha⟩ := Option.isSome_iff_exists.mp hown
      refine ⟨a, ?_⟩
      rw [typeAlignment_element, if_neg, ha]
      intro helement
      rw [typeAlignment_none_of_subformat helement] at ha
      cases ha
    · rw [hsub, Option.some.injEq] at hj
      subst hj
      have hij : ByValue formats k j :=
        ⟨g, hg, mem_byValue.mpr ⟨field, var, hvar, helement, hsub⟩⟩
      obtain ⟨g', hg'⟩ : ∃ g', formats[j]? = some g' := by
        cases hoccupied with
        | own hf => exact ⟨_, hf⟩
        | contained hij => exact ⟨_, hij.choose_spec.1⟩
      obtain ⟨f', hf'⟩ := h.exists_aligned hg'
      have hne := (h.occupied_iff hcomplete horder (horder k j hij) hf').mpr hoccupied
      refine ⟨Int.ofNat f'.alignment, ?_⟩
      rw [typeAlignment_element, if_pos helement, Option.bind_some, hf', Option.map_some,
        Option.filter_some, if_pos (by simpa using hne), Option.map_some]

/-- One round of the loop. -/
theorem AlignedFrom.step (h : AlignedFrom formats l (k + 1))
    (horder : ∀ i j, ByValue formats i j → i < j) (hs : setAlignment l k = some l') :
    AlignedFrom formats l' k := by
  have hsame := setAlignment_unaligned hs
  simp only [setAlignment, Option.bind_eq_bind, Option.bind_eq_some_iff] at hs
  obtain ⟨f, hf, hs⟩ := hs
  rw [if_neg (by simp [h.fresh k (Nat.lt_succ_self k) f hf])] at hs
  simp only [Option.bind_eq_some_iff, Option.pure_def, Option.some.injEq] at hs
  obtain ⟨as, has, rfl⟩ := hs
  have hk := (List.getElem?_eq_some_iff.mp hf).1
  -- What is set does not concern the formats behind.
  have hkeep : ∀ (g : FMFormatBody) (i : Nat), k ≤ i →
      (∀ j ∈ g.byValue, ∃ f ∈ formats[i]?, j ∈ f.byValue) →
      fieldAlignments (l.set k { f with alignment := (as.foldl max 0).toNat }) g =
        fieldAlignments l g := by
    intro g i hi hcontained
    refine fieldAlignments_congr fun j hj => ?_
    have hlt := horder i j (hcontained j hj)
    rw [List.getElem?_set_ne (by omega)]
  refine ⟨hsame.trans h.same, ?_, ?_⟩
  · intro i hi g hg
    rw [Option.mem_def, List.getElem?_set_ne (by omega)] at hg
    exact h.fresh i (by omega) g hg
  · intro i hi g hg
    rcases Nat.lt_or_eq_of_le hi with hlt | rfl
    · rw [Option.mem_def, List.getElem?_set_ne (by omega)] at hg
      obtain ⟨as', has', heq⟩ := h.aligned i hlt g hg
      obtain ⟨g', hg', -, hvars, hsubs⟩ := h.unaligned hg
      refine ⟨as', ?_, heq⟩
      rw [hkeep g i hi fun j hj => ⟨g', hg', by rwa [byValue_congr hvars hsubs]⟩]
      exact has'
    · rw [Option.mem_def, List.getElem?_set_self hk, Option.some.injEq] at hg
      subst hg
      obtain ⟨g', hg', -, hvars, hsubs⟩ := h.unaligned hf
      refine ⟨as, ?_, rfl⟩
      have hbody : ∀ n, fieldAlignments l { f with alignment := n } = fieldAlignments l f :=
        fun _ => rfl
      rw [hkeep _ k le_rfl fun j hj => ⟨g', hg', by rw [byValue_congr hvars hsubs]; exact hj⟩,
        hbody]
      exact has

/-- The loop sets all alignments just if all formats are alignable. -/
theorem AlignedFrom.loop (hcomplete : Complete formats)
    (horder : ∀ i j, ByValue formats i j → i < j) (h : AlignedFrom formats l k)
    (hk : k ≤ formats.length) :
    ((∃ l', (List.range k).reverse.foldlM setAlignment l = some l') ↔
      ∀ i < k, Alignable formats i) ∧
      ∀ l', (List.range k).reverse.foldlM setAlignment l = some l' → AlignedFrom formats l' 0 := by
  induction k generalizing l with
  | zero =>
    refine ⟨by simp, fun l' hl' => ?_⟩
    cases hl'
    exact h
  | succ k ih =>
    rw [List.range_succ, List.reverse_append, List.reverse_singleton, List.singleton_append,
      List.foldlM_cons]
    obtain ⟨f, hf⟩ := h.exists_aligned (List.getElem?_eq_getElem (show k < formats.length by omega))
    have hiff := h.alignable_iff hcomplete horder hf
    have hset : setAlignment l k =
        (fieldAlignments l f).map fun as =>
          l.set k { f with alignment := (as.foldl max 0).toNat } := by
      rw [setAlignment, hf]
      simp only [Option.bind_eq_bind, Option.bind_some]
      rw [if_neg (by simp [h.fresh k (Nat.lt_succ_self k) f hf])]
      cases fieldAlignments l f <;> rfl
    cases has : fieldAlignments l f with
    | none =>
      rw [hset, has]
      refine ⟨⟨fun hsome => ?_, fun hall => ?_⟩, fun l' hl' => ?_⟩
      · obtain ⟨l', hl'⟩ := hsome
        cases hl'
      · obtain ⟨as, has'⟩ := hiff.mpr (hall k (Nat.lt_succ_self k))
        rw [has] at has'
        cases has'
      · cases hl'
    | some as =>
      have hnext := h.step horder (by rw [hset, has]; rfl)
      obtain ⟨hloop, hfinal⟩ := ih hnext (by omega)
      rw [hset, has]
      simp only [Option.map_some, Option.bind_eq_bind, Option.bind_some]
      refine ⟨hloop.trans ⟨fun hall i hi => ?_, fun hall i hi => hall i (by omega)⟩, hfinal⟩
      rcases Nat.lt_succ_iff_lt_or_eq.mp hi with hlt | rfl
      · exact hall i hlt
      · exact hiff.mp ⟨as, has⟩

/-- Where the alignments could be set, what a format contains by value comes behind it. -/
theorem byValue_lt_of_foldlM (hcomplete : Complete formats)
    (hsame : l.map FMFormatBody.unaligned = formats.map FMFormatBody.unaligned)
    (hfresh : ∀ i < k, ∀ f ∈ l[i]?, f.alignment = 0)
    (h : (List.range k).reverse.foldlM setAlignment l = some l') {j : Nat} (hi : i < k)
    (hij : ByValue formats i j) : i < j := by
  induction k generalizing l with
  | zero => omega
  | succ k ih =>
    rw [List.range_succ, List.reverse_append, List.reverse_singleton, List.singleton_append,
      List.foldlM_cons] at h
    obtain ⟨l₁, hs, hrest⟩ := Option.bind_eq_some_iff.mp h
    have hsame' := (setAlignment_unaligned hs).trans hsame
    simp only [setAlignment, Option.bind_eq_bind, Option.bind_eq_some_iff] at hs
    obtain ⟨f, hf, hs⟩ := hs
    rw [if_neg (by simp [hfresh k (Nat.lt_succ_self k) f hf])] at hs
    simp only [Option.bind_eq_some_iff, Option.pure_def, Option.some.injEq] at hs
    obtain ⟨as, has, rfl⟩ := hs
    rcases Nat.lt_succ_iff_lt_or_eq.mp hi with hlt | rfl
    · refine ih hsame' (fun m hm g hg => ?_) hrest hlt
      rw [Option.mem_def, List.getElem?_set_ne (by omega)] at hg
      exact hfresh m (by omega) g hg
    · obtain ⟨g, hg, hj⟩ := hij
      have hentry := congrArg (·[i]?) hsame
      simp only [List.getElem?_map, hf, Option.mem_def.mp hg, Option.map_some,
        Option.some.injEq] at hentry
      have hlistg := congrArg FMFormatBody.fieldList hentry
      have hvarsg := congrArg FMFormatBody.varList hentry
      have hsubsg := congrArg FMFormatBody.fieldSubformats hentry
      simp only [FMFormatBody.unaligned] at hlistg hvarsg hsubsg
      obtain ⟨field, var, hvar, helement, hsub⟩ := mem_byValue.mp hj
      have hlt : field < f.fieldList.length := by
        rw [hlistg, ← (hcomplete g (List.mem_of_getElem? hg)).1]
        exact (List.getElem?_eq_some_iff.mp hvar).1
      obtain ⟨a, -, ha⟩ := exists_fieldAlignment has hlt
      obtain ⟨f', hf', hne, -⟩ :=
        fieldAlignment_subformat (hvarsg ▸ hvar) helement (hsubsg ▸ hsub) ha
      by_contra hge
      exact hne (hfresh j (by omega) f' hf')

end

end FFS
