import FFS.FM.Registered

/-!
# Derived values

What `generate_var_list` derives for a format depends on the names of the formats and on
the flags that others have at the time.  The subformats depend on the names alone.
-/

namespace FFS

open Machine

/-! ## Names -/

/-- Two lists of formats with the same names in the same places. -/
def SameNames (formats formats' : List FMFormatBody) : Prop :=
  formats.map (·.formatName) = formats'.map (·.formatName)

theorem sameNames_of_underived {formats formats' : List FMFormatBody}
    (h : formats.map FMFormatBody.underived = formats'.map FMFormatBody.underived) :
    SameNames formats formats' := by
  have hnames := congrArg (List.map FMFormatBody.formatName) h
  rw [List.map_map, List.map_map] at hnames
  exact hnames

theorem SameNames.named {formats formats' : List FMFormatBody} (h : SameNames formats formats')
    (name : List UInt8) (i : Nat) : named formats name i = named formats' name i := by
  have hi := congrArg (·[i]?) h
  simp only [List.getElem?_map] at hi
  rw [FFS.named, FFS.named]
  cases hf : formats[i]? with
  | none =>
    cases hf' : formats'[i]? with
    | none => rfl
    | some g => simp [hf, hf'] at hi
  | some f =>
    cases hf' : formats'[i]? with
    | none => simp [hf, hf'] at hi
    | some g =>
      simp only [hf, hf', Option.map_some, Option.some.injEq] at hi
      simp [hi]

theorem SameNames.lastNamed {formats formats' : List FMFormatBody} (h : SameNames formats formats')
    (candidates : List Nat) (name : List UInt8) :
    lastNamed formats candidates name = lastNamed formats' candidates name := by
  rw [FFS.lastNamed, FFS.lastNamed, funext (h.named name)]

theorem SameNames.fieldSubformat {formats formats' : List FMFormatBody}
    (h : SameNames formats formats') (candidates : List Nat) (self : Nat) (typ : List UInt8) :
    fieldSubformat formats candidates self typ = fieldSubformat formats' candidates self typ := by
  simp only [FFS.fieldSubformat, lookupSubformat, h.named, h.lastNamed]

/-- A format refers to another by a field. -/
def Refers (formats : List FMFormatBody) (candidates : List Nat) (i j : Nat) : Prop :=
  ∃ f ∈ formats[i]?, ∃ fmField ∈ f.fieldList,
    fieldSubformat formats candidates i fmField.fieldType.bytes = some (some j)

theorem fieldSubformat_named {formats : List FMFormatBody} {candidates : List Nat} {i j : Nat}
    {typ : List UInt8} (h : fieldSubformat formats candidates i typ = some (some j)) :
    (j = i ∨ j ∈ candidates) ∧ named formats (baseDataType typ) j = true := by
  rw [fieldSubformat] at h
  split at h
  · obtain ⟨k, hk, heq⟩ := Option.map_eq_some_iff.mp h
    cases Option.some.inj heq
    rw [lookupSubformat] at hk
    split at hk
    · next hself =>
      cases Option.some.inj hk
      exact ⟨Or.inl rfl, hself⟩
    · exact ⟨Or.inr (List.mem_reverse.mp (List.mem_of_find?_eq_some hk)), List.find?_some hk⟩
  · cases Option.some.inj h

theorem named_lt {formats : List FMFormatBody} {name : List UInt8} {i : Nat}
    (h : named formats name i = true) : i < formats.length := by
  rw [named, Option.any_eq_true] at h
  obtain ⟨f, hf, -⟩ := h
  exact (List.getElem?_eq_some_iff.mp hf).1

theorem Refers.lt {formats : List FMFormatBody} {candidates : List Nat} {i j : Nat}
    (h : Refers formats candidates i j) : j < formats.length := by
  obtain ⟨f, -, fmField, -, hsub⟩ := h
  exact named_lt (fieldSubformat_named hsub).2

/-! ## One field -/

theorem generateVar_eq_some_iff {formats : List FMFormatBody} {candidates : List Nat} {self : Nat}
    {fields : List FMField} {fmField : FMField} {field : Nat} {v : GeneratedVar} :
    generateVar formats candidates self fields fmField field = some v ↔
      ∃ subformat chain, fieldSubformat formats candidates self fmField.fieldType.bytes =
          some subformat ∧
        typeChain fields field fmField.fieldType.bytes = some chain ∧
        v = { var := varInfo fields field fmField.fieldType.bytes
                (subformat.map fun _ => (subformatFlags formats self subformat).2) chain,
              subformat,
              variant := (arrayStrToDataType fmField.fieldType.bytes).1 = .stringType ||
                (subformatFlags formats self subformat).1 ||
                ((genDimens fields field fmField.fieldType.bytes).any
                    (·.controlFieldIndex ≠ -1) || chain.dropLast.any (·.type = .pointer)),
              recursive := (subformatFlags formats self subformat).2 } := by
  simp only [generateVar, genVarDimens, Option.bind_eq_bind, Option.bind_eq_some_iff,
    Option.pure_def, Option.some.injEq]
  constructor
  · rintro ⟨subformat, hsub, var, ⟨chain, hchain, rfl⟩, rfl⟩
    exact ⟨subformat, chain, hsub, hchain, rfl⟩
  · rintro ⟨subformat, chain, hsub, hchain, rfl⟩
    exact ⟨subformat, hsub, _, ⟨chain, hchain, rfl⟩, rfl⟩

/-- A field makes its format variant whatever it refers to. -/
def fieldVaries (fields : List FMField) (fmField : FMField) (field : Nat) : Bool :=
  let typ := fmField.fieldType.bytes
  (arrayStrToDataType typ).1 = .stringType ||
    ((genDimens fields field typ).any (·.controlFieldIndex ≠ -1) ||
      (typeChain fields field typ).any fun chain => chain.dropLast.any (·.type = .pointer))

/-- A format is variant whatever others are. -/
def OwnVariant (formats : List FMFormatBody) (candidates : List Nat) (i : Nat) : Prop :=
  (∃ f ∈ formats[i]?, ∃ p ∈ f.fieldList.zipIdx, fieldVaries f.fieldList p.1 p.2 = true) ∨
    Refers formats candidates i i

/-! ## One format -/

section
variable {candidates : List Nat} {formats base : List FMFormatBody} {self : Nat}
  {f g : FMFormatBody}

theorem generateVarList_field (h : generateVarList candidates formats self f = some g)
    {field : Nat} {fmField : FMField} (hfield : f.fieldList[field]? = some fmField) :
    ∃ v, generateVar formats candidates self f.fieldList fmField field = some v ∧
      g.varList[field]? = some v.var ∧ g.fieldSubformats[field]? = some v.subformat := by
  simp only [generateVarList, Option.bind_eq_bind, Option.bind_eq_some_iff, Option.pure_def,
    Option.some.injEq] at h
  obtain ⟨vars, hvars, rfl⟩ := h
  have hv := getElem?_of_mapM_eq_some hvars field
  have hlt : field < vars.length := by
    rw [length_of_mapM_eq_some hvars, List.length_zipIdx]
    exact (List.getElem?_eq_some_iff.mp hfield).1
  rw [List.getElem?_eq_getElem hlt, List.getElem?_zipIdx, hfield] at hv
  refine ⟨vars[field], ?_, ?_, ?_⟩
  · simpa using hv.symm
  · simp [FMFormatBody.withVars, hlt]
  · simp [FMFormatBody.withVars, hlt]

theorem generateVarList_lengths (h : generateVarList candidates formats self f = some g) :
    g.varList.length = f.fieldList.length ∧ g.fieldSubformats.length = f.fieldList.length := by
  simp only [generateVarList, Option.bind_eq_bind, Option.bind_eq_some_iff, Option.pure_def,
    Option.some.injEq] at h
  obtain ⟨vars, hvars, rfl⟩ := h
  have hlength := length_of_mapM_eq_some hvars
  rw [List.length_zipIdx] at hlength
  exact ⟨by simp [FMFormatBody.withVars, hlength], by simp [FMFormatBody.withVars, hlength]⟩

/-- A flag of the result is that of the format before or comes from one of the fields. -/
theorem generateVarList_flags (h : generateVarList candidates formats self f = some g) :
    (g.variant = true ↔ f.variant = true ∨ ∃ field fmField v, f.fieldList[field]? = some fmField ∧
        generateVar formats candidates self f.fieldList fmField field = some v ∧
        v.variant = true) ∧
      (g.recursive = true ↔ f.recursive = true ∨ ∃ field fmField v,
        f.fieldList[field]? = some fmField ∧
        generateVar formats candidates self f.fieldList fmField field = some v ∧
        v.recursive = true) := by
  simp only [generateVarList, Option.bind_eq_bind, Option.bind_eq_some_iff, Option.pure_def,
    Option.some.injEq] at h
  obtain ⟨vars, hvars, rfl⟩ := h
  have hmem : ∀ p : GeneratedVar → Bool, vars.any p = true ↔ ∃ field fmField v,
      f.fieldList[field]? = some fmField ∧
      generateVar formats candidates self f.fieldList fmField field = some v ∧ p v = true := by
    intro p
    rw [List.any_eq_true]
    constructor
    · rintro ⟨v, hv, hp⟩
      obtain ⟨i, hi⟩ := List.mem_iff_getElem?.mp hv
      rw [getElem?_of_mapM_eq_some hvars, List.getElem?_zipIdx, Option.bind_eq_some_iff] at hi
      obtain ⟨a, ha, hgen⟩ := hi
      obtain ⟨fmField, hfield, rfl⟩ := Option.map_eq_some_iff.mp ha
      exact ⟨i, fmField, v, hfield, by simpa using hgen, hp⟩
    · rintro ⟨field, fmField, v, hfield, hgen, hp⟩
      refine ⟨v, List.mem_iff_getElem?.mpr ⟨field, ?_⟩, hp⟩
      rw [getElem?_of_mapM_eq_some hvars, List.getElem?_zipIdx, hfield]
      simpa using hgen
  constructor
  · rw [FMFormatBody.withVars, Bool.or_eq_true, hmem]
  · rw [FMFormatBody.withVars, Bool.or_eq_true, hmem]

theorem generateVarList_recursive (h : generateVarList candidates formats self f = some g)
    (hf : f.recursive = false) (hnames : SameNames formats base)
    (hbase : ∃ b, base[self]? = some b ∧ b.fieldList = f.fieldList) :
    g.recursive = true ↔ ∃ j, Refers base candidates self j ∧
      (subformatFlags formats self (some j)).2 = true := by
  obtain ⟨b, hb, hfields⟩ := hbase
  rw [(generateVarList_flags h).2, hf]
  simp only [Bool.false_eq_true, false_or]
  constructor
  · rintro ⟨field, fmField, v, hfield, hgen, hv⟩
    obtain ⟨subformat, chain, hsub, -, rfl⟩ := generateVar_eq_some_iff.mp hgen
    cases subformat with
    | none => simp [subformatFlags] at hv
    | some j =>
      rw [hnames.fieldSubformat] at hsub
      exact ⟨j, ⟨b, hb, fmField, hfields ▸ List.mem_of_getElem? hfield, hsub⟩, hv⟩
  · rintro ⟨j, ⟨b', hb', fmField, hmem, hsub⟩, hflag⟩
    rw [Option.mem_def, hb, Option.some.injEq] at hb'
    subst hb'
    rw [hfields] at hmem
    obtain ⟨field, hfield⟩ := List.mem_iff_getElem?.mp hmem
    obtain ⟨v, hgen, -⟩ := generateVarList_field h hfield
    refine ⟨field, fmField, v, hfield, hgen, ?_⟩
    obtain ⟨subformat, chain, hsub', -, rfl⟩ := generateVar_eq_some_iff.mp hgen
    rw [hnames.fieldSubformat, hsub, Option.some.injEq] at hsub'
    rw [← hsub']
    exact hflag

theorem generateVarList_variant (h : generateVarList candidates formats self f = some g)
    (hf : f.variant = false) (hnames : SameNames formats base)
    (hbase : ∃ b, base[self]? = some b ∧ b.fieldList = f.fieldList) :
    g.variant = true ↔ OwnVariant base candidates self ∨ ∃ j, Refers base candidates self j ∧
      (subformatFlags formats self (some j)).1 = true := by
  obtain ⟨b, hb, hfields⟩ := hbase
  rw [(generateVarList_flags h).1, hf]
  simp only [Bool.false_eq_true, false_or]
  constructor
  · rintro ⟨field, fmField, v, hfield, hgen, hv⟩
    obtain ⟨subformat, chain, hsub, hchain, rfl⟩ := generateVar_eq_some_iff.mp hgen
    simp only [Bool.or_assoc, Bool.or_eq_true] at hv
    by_cases hflag : (subformatFlags formats self subformat).1 = true
    · right
      cases subformat with
      | none => simp [subformatFlags] at hflag
      | some j =>
        rw [hnames.fieldSubformat] at hsub
        exact ⟨j, ⟨b, hb, fmField, hfields ▸ List.mem_of_getElem? hfield, hsub⟩, hflag⟩
    · refine Or.inl (Or.inl ⟨b, hb, (fmField, field), ?_, ?_⟩)
      · rw [hfields]
        exact List.mem_zipIdx_iff_getElem?.mpr hfield
      · simp only [fieldVaries, hfields, hchain, Option.any_some, Bool.or_eq_true]
        tauto
  · have hself : ∀ j, Refers base candidates self j →
        (subformatFlags formats self (some j)).1 = true → ∃ field fmField v,
        f.fieldList[field]? = some fmField ∧
        generateVar formats candidates self f.fieldList fmField field = some v ∧
        v.variant = true := by
      rintro j ⟨b', hb', fmField, hmem, hsub⟩ hflag
      rw [Option.mem_def, hb, Option.some.injEq] at hb'
      subst hb'
      rw [hfields] at hmem
      obtain ⟨field, hfield⟩ := List.mem_iff_getElem?.mp hmem
      obtain ⟨v, hgen, -⟩ := generateVarList_field h hfield
      refine ⟨field, fmField, v, hfield, hgen, ?_⟩
      obtain ⟨subformat, chain, hsub', -, rfl⟩ := generateVar_eq_some_iff.mp hgen
      rw [hnames.fieldSubformat, hsub, Option.some.injEq] at hsub'
      simp only [← hsub', hflag, Bool.or_true, Bool.true_or]
    rintro ((⟨b', hb', p, hp, hvaries⟩ | hrefers) | ⟨j, hrefers, hflag⟩)
    · rw [Option.mem_def, hb, Option.some.injEq] at hb'
      subst hb'
      rw [hfields] at hp hvaries
      have hfield := List.mem_zipIdx_iff_getElem?.mp hp
      obtain ⟨v, hgen, -⟩ := generateVarList_field h hfield
      refine ⟨p.2, p.1, v, hfield, hgen, ?_⟩
      obtain ⟨subformat, chain, -, hchain, rfl⟩ := generateVar_eq_some_iff.mp hgen
      simp only [fieldVaries, hchain, Option.any_some, Bool.or_eq_true] at hvaries ⊢
      tauto
    · exact hself self hrefers (by simp [subformatFlags])
    · exact hself j hrefers hflag

end

/-! ## One pass -/

/-- No flag is set yet. -/
def NoFlags (formats : List FMFormatBody) : Prop :=
  ∀ f ∈ formats, f.variant = false ∧ f.recursive = false

theorem NoFlags.formatFlags {formats : List FMFormatBody} (h : NoFlags formats) (i : Nat) :
    formatFlags formats i = (false, false) := by
  rw [FFS.formatFlags]
  split
  · next f hf =>
    obtain ⟨hvariant, hrecursive⟩ := h f (List.mem_of_getElem? hf)
    rw [hvariant, hrecursive]
  · rfl

theorem sameNames_of_getElem? {formats formats' : List FMFormatBody}
    (h : ∀ i : Nat, formats[i]?.map FMFormatBody.formatName =
      formats'[i]?.map FMFormatBody.formatName) : SameNames formats formats' :=
  List.ext_getElem? fun i => by rw [List.getElem?_map, List.getElem?_map]; exact h i

/-- How a format was derived in a pass: from the list in which the formats before it in the
order have their derived values. -/
structure DerivedAt (candidates : List Nat) (base final : List FMFormatBody) (before : List Nat)
    (i : Nat) : Prop where
  derived : ∃ l f g, base[i]? = some f ∧ final[i]? = some g ∧
    generateVarList candidates l i f = some g ∧ SameNames l base ∧
    ∀ j, subformatFlags l i (some j) =
      if j = i then (true, true) else if j ∈ before then formatFlags final j else (false, false)

theorem derivedAt_of_passedAt {candidates : List Nat} {base final : List FMFormatBody}
    {before : List Nat} {i : Nat} (hflags : NoFlags base)
    (hkeep : final.map FMFormatBody.underived = base.map FMFormatBody.underived)
    (h : PassedAt (generateVarList candidates) base final before i) :
    DerivedAt candidates base final before i := by
  obtain ⟨l, f, g, hf, hg, hgen, hl⟩ := h.made
  have hnames := sameNames_of_underived hkeep
  refine ⟨l, f, g, hf, hg, hgen, sameNames_of_getElem? fun j => ?_, fun j => ?_⟩
  · rw [hl j]
    split
    · have hj := congrArg (·[j]?) hnames
      simpa only [List.getElem?_map] using hj
    · rfl
  · rw [subformatFlags]
    split
    · rfl
    · by_cases hj : j ∈ before
      · rw [if_pos hj, formatFlags, hl j, if_pos hj, formatFlags]
      · rw [if_neg hj, formatFlags, hl j, if_neg hj]
        exact hflags.formatFlags j

section
variable {candidates before : List Nat} {base final : List FMFormatBody}

theorem DerivedAt.recursive_iff {i : Nat} (hflags : NoFlags base)
    (h : DerivedAt candidates base final before i) (hirrefl : i ∉ before) :
    (formatFlags final i).2 = true ↔ Refers base candidates i i ∨
      ∃ j, (Refers base candidates i j ∧ j ∈ before) ∧ (formatFlags final j).2 = true := by
  obtain ⟨l, f, g, hf, hg, hgen, hnames, hseen⟩ := h.derived
  have hfinal : formatFlags final i = (g.variant, g.recursive) := by rw [formatFlags, hg]
  rw [hfinal, generateVarList_recursive hgen (hflags f (List.mem_of_getElem? hf)).2 hnames
    ⟨f, hf, rfl⟩]
  constructor
  · rintro ⟨j, hrefers, hflag⟩
    rw [hseen j] at hflag
    split at hflag
    · next heq => exact Or.inl (heq ▸ hrefers)
    · split at hflag
      · next hmem => exact Or.inr ⟨j, ⟨hrefers, hmem⟩, hflag⟩
      · cases hflag
  · rintro (hself | ⟨j, ⟨hrefers, hmem⟩, hflag⟩)
    · exact ⟨i, hself, by rw [hseen, if_pos rfl]⟩
    · have hne : j ≠ i := by
        rintro rfl
        exact hirrefl hmem
      exact ⟨j, hrefers, by rw [hseen, if_neg hne, if_pos hmem]; exact hflag⟩

theorem DerivedAt.variant_iff {i : Nat} (hflags : NoFlags base)
    (h : DerivedAt candidates base final before i) (hirrefl : i ∉ before) :
    (formatFlags final i).1 = true ↔ OwnVariant base candidates i ∨
      ∃ j, (Refers base candidates i j ∧ j ∈ before) ∧ (formatFlags final j).1 = true := by
  obtain ⟨l, f, g, hf, hg, hgen, hnames, hseen⟩ := h.derived
  have hfinal : formatFlags final i = (g.variant, g.recursive) := by rw [formatFlags, hg]
  rw [hfinal, generateVarList_variant hgen (hflags f (List.mem_of_getElem? hf)).1 hnames
    ⟨f, hf, rfl⟩]
  constructor
  · rintro (hown | ⟨j, hrefers, hflag⟩)
    · exact Or.inl hown
    · rw [hseen j] at hflag
      split at hflag
      · next heq => exact Or.inl (Or.inr (heq ▸ hrefers))
      · split at hflag
        · next hmem => exact Or.inr ⟨j, ⟨hrefers, hmem⟩, hflag⟩
        · cases hflag
  · rintro (hown | ⟨j, ⟨hrefers, hmem⟩, hflag⟩)
    · exact Or.inl hown
    · have hne : j ≠ i := by
        rintro rfl
        exact hirrefl hmem
      exact Or.inr ⟨j, hrefers, by rw [hseen, if_neg hne, if_pos hmem]; exact hflag⟩

end

/-! ## Whole derivations -/

/-- One number stands before another in an order. -/
def Earlier (order : List Nat) (j i : Nat) : Prop := order.idxOf j < order.idxOf i

/-- A format is recursive when the formats are derived in an order: it refers to itself or,
through ones that are earlier each time, to one that does. -/
def RecursiveIn (formats : List FMFormatBody) (candidates order : List Nat) (i : Nat) : Prop :=
  Leads (fun i => Refers formats candidates i i)
    (fun i j => Refers formats candidates i j ∧ Earlier order j i) i

/-- All formats of a list were derived in an order. -/
structure Derivation (candidates order : List Nat) (base final : List FMFormatBody) : Prop where
  noFlags : NoFlags base
  keep : final.map FMFormatBody.underived = base.map FMFormatBody.underived
  derivedAt : ∀ i < base.length, ∃ before, DerivedAt candidates base final before i ∧
    ∀ j, j ∈ before ↔ Earlier order j i

/-- What stands before a number in an order. -/
theorem exists_before {order : List Nat} {i : Nat} (hi : i ∈ order) :
    ∃ before behind, order = before ++ i :: behind ∧ ∀ j, j ∈ before ↔ Earlier order j i := by
  have hlt := List.idxOf_lt_length_of_mem hi
  refine ⟨order.take (order.idxOf i), order.drop (order.idxOf i + 1), ?_, fun j => ?_⟩
  · have hdrop := List.drop_eq_getElem_cons hlt
    rw [List.getElem_idxOf hlt] at hdrop
    rw [← hdrop, List.take_append_drop]
  · by_cases hj : j ∈ order
    · exact List.mem_take_iff_idxOf_lt hj
    · have hnotBefore : ¬ Earlier order j i := by
        rw [Earlier, List.idxOf_eq_length hj]
        omega
      exact iff_of_false (fun h => hj (List.mem_of_mem_take h)) hnotBefore

theorem derivation_of_passedAt {candidates order : List Nat} {base final : List FMFormatBody}
    (hflags : NoFlags base)
    (hkeep : final.map FMFormatBody.underived = base.map FMFormatBody.underived)
    (horder : ∀ i < base.length, i ∈ order)
    (hpassed : ∀ before i behind, order = before ++ i :: behind →
      PassedAt (generateVarList candidates) base final before i) :
    Derivation candidates order base final := by
  refine ⟨hflags, hkeep, fun i hi => ?_⟩
  obtain ⟨before, behind, hsplit, hbefore⟩ := exists_before (horder i hi)
  exact ⟨before, derivedAt_of_passedAt hflags hkeep (hpassed _ _ _ hsplit), hbefore⟩

section
variable {candidates order : List Nat} {base final : List FMFormatBody}

theorem Derivation.length_eq (h : Derivation candidates order base final) :
    final.length = base.length := by
  have hlength := congrArg List.length h.keep
  simpa only [List.length_map] using hlength

theorem Derivation.lt_of_flag (h : Derivation candidates order base final) {i : Nat}
    (hi : formatFlags final i ≠ (false, false)) : i < base.length := by
  by_contra hge
  refine hi ?_
  rw [formatFlags, List.getElem?_eq_none (by rw [h.length_eq]; exact Nat.not_lt.mp hge)]

theorem Refers.lt_left {i j : Nat} (h : Refers base candidates i j) : i < base.length := by
  obtain ⟨f, hf, -⟩ := h
  exact (List.getElem?_eq_some_iff.mp hf).1

theorem OwnVariant.lt {i : Nat} (h : OwnVariant base candidates i) : i < base.length := by
  rcases h with ⟨f, hf, -⟩ | h
  · exact (List.getElem?_eq_some_iff.mp hf).1
  · exact h.lt_left

/-- The recursive flag in terms of the references alone. -/
theorem Derivation.recursive_iff (h : Derivation candidates order base final) (i : Nat) :
    (formatFlags final i).2 = true ↔ RecursiveIn base candidates order i := by
  have hstep : ∀ a < base.length, (formatFlags final a).2 = true ↔ Refers base candidates a a ∨
      ∃ b, (Refers base candidates a b ∧ Earlier order b a) ∧ (formatFlags final b).2 = true := by
    intro a ha
    obtain ⟨before, hderived, hbefore⟩ := h.derivedAt a ha
    have hirrefl : a ∉ before := fun hmem => Nat.lt_irrefl _ ((hbefore a).mp hmem)
    have hiff := DerivedAt.recursive_iff h.noFlags hderived hirrefl
    simp only [hbefore] at hiff
    exact hiff
  constructor
  · intro hflag
    have hreason : ∀ a, (formatFlags final a).2 = true → Refers base candidates a a ∨
        ∃ b, (Refers base candidates a b ∧ Earlier order b a) ∧ (formatFlags final b).2 = true :=
      fun a ha => (hstep a (h.lt_of_flag fun heq => by simp [heq] at ha)).mp ha
    exact leads_of_flagged order.idxOf (fun a b hab => hab.2) hreason hflag
  · intro hleads
    have hown : ∀ a, Refers base candidates a a → (formatFlags final a).2 = true :=
      fun a ha => (hstep a ha.lt).mpr (Or.inl ha)
    refine hleads.flagged hown fun a b hab hb => ?_
    exact (hstep a hab.1.lt_left).mpr (Or.inr ⟨b, hab, hb⟩)

/-- Before flags bubble up, those of formats variant in themselves are set, and no others
but of formats that lead to one. -/
theorem Derivation.variant (h : Derivation candidates order base final) (i : Nat) :
    (OwnVariant base candidates i → (formatFlags final i).1 = true) ∧
      ((formatFlags final i).1 = true →
        Leads (OwnVariant base candidates) (Refers base candidates) i) := by
  have hstep : ∀ a < base.length, (formatFlags final a).1 = true ↔ OwnVariant base candidates a ∨
      ∃ b, (Refers base candidates a b ∧ Earlier order b a) ∧ (formatFlags final b).1 = true := by
    intro a ha
    obtain ⟨before, hderived, hbefore⟩ := h.derivedAt a ha
    have hirrefl : a ∉ before := fun hmem => Nat.lt_irrefl _ ((hbefore a).mp hmem)
    have hiff := DerivedAt.variant_iff h.noFlags hderived hirrefl
    simp only [hbefore] at hiff
    exact hiff
  constructor
  · intro hown
    exact (hstep i hown.lt).mpr (Or.inl hown)
  · intro hflag
    have hreason : ∀ a, (formatFlags final a).1 = true → OwnVariant base candidates a ∨
        ∃ b, (Refers base candidates a b ∧ Earlier order b a) ∧ (formatFlags final b).1 = true :=
      fun a ha => (hstep a (h.lt_of_flag fun heq => by simp [heq] at ha)).mp ha
    have hleads := leads_of_flagged order.idxOf (fun a b hab => hab.2) hreason hflag
    exact hleads.mono fun a b hab => hab.1

theorem Derivation.exists_base (h : Derivation candidates order base final) {i : Nat}
    {g : FMFormatBody} (hg : final[i]? = some g) :
    ∃ f, base[i]? = some f ∧ f.formatName = g.formatName ∧ f.fieldList = g.fieldList := by
  have hkeep := congrArg (·[i]?) h.keep
  simp only [List.getElem?_map, hg, Option.map_some] at hkeep
  obtain ⟨f, hf, heq⟩ := Option.map_eq_some_iff.mp hkeep.symm
  have hname := congrArg FMFormatBody.formatName heq
  have hlist := congrArg FMFormatBody.fieldList heq
  exact ⟨f, hf, hname, hlist⟩

theorem Derivation.length_varList (h : Derivation candidates order base final) {i : Nat}
    {f g : FMFormatBody} (hf : base[i]? = some f) (hg : final[i]? = some g) :
    g.varList.length = f.fieldList.length := by
  obtain ⟨before, hderived, -⟩ := h.derivedAt i (List.getElem?_eq_some_iff.mp hf).1
  obtain ⟨l, f', g', hf', hg', hgen, -⟩ := hderived.derived
  rw [hf, Option.some.injEq] at hf'
  rw [hg, Option.some.injEq] at hg'
  subst hf' hg'
  exact (generateVarList_lengths hgen).1

/-- What is derived for a field. -/
theorem Derivation.field (h : Derivation candidates order base final) {i field : Nat}
    {f g : FMFormatBody} (hf : base[i]? = some f) (hg : final[i]? = some g) {fmField : FMField}
    (hfield : f.fieldList[field]? = some fmField) : ∃ sub chain recursive,
      fieldSubformat base candidates i fmField.fieldType.bytes = some sub ∧
      typeChain f.fieldList field fmField.fieldType.bytes = some chain ∧
      g.varList[field]? = some (varInfo f.fieldList field fmField.fieldType.bytes
        (sub.map fun _ => recursive) chain) ∧
      ∀ j, sub = some j →
        (recursive = true ↔ j = i ∨ Earlier order j i ∧ RecursiveIn base candidates order j) := by
  obtain ⟨before, hderived, hbefore⟩ := h.derivedAt i (List.getElem?_eq_some_iff.mp hf).1
  obtain ⟨l, f', g', hf', hg', hgen, hnames, hseen⟩ := hderived.derived
  rw [hf, Option.some.injEq] at hf'
  rw [hg, Option.some.injEq] at hg'
  subst hf' hg'
  obtain ⟨v, hv, hvar, -⟩ := generateVarList_field hgen hfield
  obtain ⟨sub, chain, hsub, hchain, rfl⟩ := generateVar_eq_some_iff.mp hv
  rw [hnames.fieldSubformat] at hsub
  refine ⟨sub, chain, _, hsub, hchain, hvar, ?_⟩
  rintro j rfl
  rw [hseen j]
  by_cases hji : j = i
  · simp [hji]
  · rw [if_neg hji, ← h.recursive_iff]
    by_cases hearlier : Earlier order j i
    · rw [if_pos ((hbefore j).mpr hearlier)]
      simp [hji, hearlier]
    · rw [if_neg fun hmem => hearlier ((hbefore j).mp hmem)]
      simp [hji, hearlier]

end

end FFS
