import FFS.FM.Loaded
import FFS.FM.RegisteredForm
import FFS.FM.SentNames
import FFS.FM.TypeChain

/-!
# What a loaded format is

Where every name leads to the format it led to on registration (`NamesAgree`), the second
loop of `fill_derived_format_values` changes nothing, the formats are already in the order
that `topo_order_subformats` puts them in, and loading is a derivation like the one of a
registration, in the order of sending.
-/

namespace FFS

open Machine

/-- No sent format but the top refers to the top, and the top does not refer to itself by a
name that another sent format has. -/
structure NamesAgree (formats : List FMFormatBody) : Prop where
  top : ∀ i ∈ sendOrder formats, i ≠ 0 → ¬ Refers formats (allOf formats) i 0
  own : ∀ f ∈ formats[0]?, ∀ fmField ∈ f.fieldList,
    fieldSubformat formats (allOf formats) 0 fmField.fieldType.bytes = some (some 0) →
    strToDataType (baseDataType fmField.fieldType.bytes) = .unknownType →
    ∀ i ∈ sendOrder formats, i ≠ 0 →
      named formats (baseDataType fmField.fieldType.bytes) i = false

/-! ## The second loop -/

theorem varInfo_string {fields : List FMField} {field : Nat} {typ : List UInt8}
    {subformat : Option Bool} {chain : List FMTypeDesc} :
    (varInfo fields field typ subformat chain).string = true ↔
      (arrayStrToDataType typ).1 = .stringType := decide_eq_true_iff

/-- A round of the second loop keeps what the first one made when the name leads to the same
format again. -/
theorem refillVar_generated {formats : List FMFormatBody} {candidates : List Nat} {self : Nat}
    {fields : List FMField} {fmField : FMField} {field : Nat} {v : GeneratedVar}
    (hv : generateVar formats candidates self fields fmField field = some v)
    (hlast : strToDataType (baseDataType fmField.fieldType.bytes) = .unknownType →
      (lastNamed formats candidates (baseDataType fmField.fieldType.bytes)).or v.subformat =
        v.subformat) :
    (refillVar formats candidates self fmField v.var v.subformat).1 = v.subformat ∧
      ((refillVar formats candidates self fmField v.var v.subformat).2 = true →
        v.variant = true) := by
  obtain ⟨sub, chain, -, hchain, rfl⟩ := generateVar_eq_some_iff.mp hv
  rw [refillVar]
  by_cases hstring : (arrayStrToDataType fmField.fieldType.bytes).1 = .stringType
  · rw [if_pos (varInfo_string.mpr hstring)]
    exact ⟨rfl, fun _ => by simp [hstring]⟩
  · rw [if_neg fun h => hstring (varInfo_string.mp h)]
    have hpointer : ∀ r, (varInfo fields field fmField.fieldType.bytes r chain).typeDesc.any
        (·.type = .pointer) = true → chain.dropLast.any (·.type = .pointer) = true :=
      fun r => closeTypeDesc_pointer (ends_typeChain hchain)
    by_cases hbase : strToDataType (baseDataType fmField.fieldType.bytes) = .unknownType
    · dsimp only
      rw [if_pos hbase, hlast hbase]
      refine ⟨rfl, fun h => ?_⟩
      simp only [Bool.or_eq_true] at h ⊢
      rcases h with (harray | hflag) | hany
      · exact Or.inr (Or.inl harray)
      · exact Or.inl (Or.inr hflag)
      · exact Or.inr (Or.inr (hpointer _ hany))
    · dsimp only
      rw [if_neg hbase]
      refine ⟨rfl, fun h => ?_⟩
      simp only [Bool.or_eq_true] at h ⊢
      rcases h with harray | hany
      · exact Or.inr (Or.inl harray)
      · exact Or.inr (Or.inr (hpointer _ hany))

theorem generateVarList_fieldList {candidates : List Nat} {formats : List FMFormatBody}
    {self : Nat} {f g : FMFormatBody} (h : generateVarList candidates formats self f = some g) :
    g.fieldList = f.fieldList := by
  have hkeep := congrArg FMFormatBody.fieldList (generateVarList_underived h)
  exact hkeep

/-- The rounds of the second loop on a derived format. -/
theorem refilled_getElem? {candidates : List Nat} {formats : List FMFormatBody} {self : Nat}
    {f g : FMFormatBody} (h : generateVarList candidates formats self f = some g) (field : Nat) :
    ((g.fieldList.zip (g.varList.zip g.fieldSubformats)).map fun (fmField, var, chosen) =>
        refillVar formats candidates self fmField var chosen)[field]? =
      f.fieldList[field]?.bind fun fmField =>
        (generateVar formats candidates self f.fieldList fmField field).map fun v =>
          refillVar formats candidates self fmField v.var v.subformat := by
  obtain ⟨hvars, hsubs⟩ := generateVarList_lengths h
  rw [List.getElem?_map, generateVarList_fieldList h]
  cases hfield : f.fieldList[field]? with
  | none =>
    have hge := List.getElem?_eq_none_iff.mp hfield
    rw [Option.bind_none, List.getElem?_eq_none, Option.map_none]
    rw [List.length_zip]
    omega
  | some fmField =>
    obtain ⟨v, hv, hvar, hsub⟩ := generateVarList_field h hfield
    have hinner : (g.varList.zip g.fieldSubformats)[field]? = some (v.var, v.subformat) :=
      List.getElem?_zip_eq_some.mpr ⟨hvar, hsub⟩
    have houter : (f.fieldList.zip (g.varList.zip g.fieldSubformats))[field]? =
        some (fmField, v.var, v.subformat) := List.getElem?_zip_eq_some.mpr ⟨hfield, hinner⟩
    rw [houter, Option.bind_some, hv]
    rfl

theorem refillVars_generated {candidates : List Nat} {formats : List FMFormatBody} {self : Nat}
    {f g : FMFormatBody} (h : generateVarList candidates formats self f = some g)
    (hlast : ∀ field fmField v, f.fieldList[field]? = some fmField →
      generateVar formats candidates self f.fieldList fmField field = some v →
      strToDataType (baseDataType fmField.fieldType.bytes) = .unknownType →
      (lastNamed formats candidates (baseDataType fmField.fieldType.bytes)).or v.subformat =
        v.subformat) :
    refillVars formats candidates self g = g := by
  have hrefilled := refilled_getElem? h
  rw [refillVars]
  dsimp only
  generalize (g.fieldList.zip (g.varList.zip g.fieldSubformats)).map _ = refilled at hrefilled
  have hsubs : refilled.map (·.1) = g.fieldSubformats := by
    refine List.ext_getElem? fun field => ?_
    rw [List.getElem?_map, hrefilled]
    cases hfield : f.fieldList[field]? with
    | none =>
      rw [Option.bind_none, Option.map_none, List.getElem?_eq_none]
      rw [(generateVarList_lengths h).2]
      exact List.getElem?_eq_none_iff.mp hfield
    | some fmField =>
      obtain ⟨v, hv, -, hsub⟩ := generateVarList_field h hfield
      have hkept := (refillVar_generated hv (hlast field fmField v hfield hv)).1
      rw [Option.bind_some, hv, Option.map_some, Option.map_some, hkept, hsub]
  have hvariant : (g.variant || refilled.any (·.2)) = g.variant := by
    rw [Bool.or_eq_left_iff_imp, List.any_eq_true]
    rintro ⟨r, hr, hflag⟩
    obtain ⟨field, hget⟩ := List.mem_iff_getElem?.mp hr
    rw [hrefilled, Option.bind_eq_some_iff] at hget
    obtain ⟨fmField, hfield, hget⟩ := hget
    obtain ⟨v, hv, rfl⟩ := Option.map_eq_some_iff.mp hget
    have hvariant := (refillVar_generated hv (hlast field fmField v hfield hv)).2 hflag
    exact (generateVarList_flags h).1.mpr (Or.inr ⟨field, fmField, v, hfield, hv, hvariant⟩)
  rw [hsubs, hvariant]

/-! ## Loading as a derivation -/

/-- Every field leads to a format and has a chain. -/
def Derivable (formats : List FMFormatBody) : Prop :=
  ∀ i f, formats[i]? = some f → ∀ field fmField, f.fieldList[field]? = some fmField →
    ∃ sub chain, fieldSubformat formats (allOf formats) i fmField.fieldType.bytes = some sub ∧
      typeChain f.fieldList field fmField.fieldType.bytes = some chain

section
variable {formats sent : List FMFormatBody}

/-- A field leads to the format it led to on registration. -/
theorem fieldSubformat_sent (hsent : SentAs formats (sendOrder formats) sent)
    (hagree : NamesAgree formats) {i : Nat} (hi : i ∈ sendOrder formats) {f : FMFormatBody}
    (hf : formats[i]? = some f) {fmField : FMField} (hmem : fmField ∈ f.fieldList)
    {sub : Option Nat}
    (hsub : fieldSubformat formats (allOf formats) i fmField.fieldType.bytes = some sub) :
    fieldSubformat sent (othersOf sent) ((sendOrder formats).idxOf i) fmField.fieldType.bytes =
      some (sub.map (sendOrder formats).idxOf) := by
  have hrefers : ∀ j, sub = some j → Refers formats (allOf formats) i j := by
    rintro j rfl
    exact ⟨f, hf, fmField, hmem, hsub⟩
  refine hsent.fieldSubformat_eq hi hsub (fun j hj => ?_) fun hne hzero => ?_
  · exact hsent.sentOrder.closed i hi j (hrefers j hj)
  · exact hagree.top i hi hne (hrefers 0 hzero)

theorem lastNamed_or_sent (hsent : SentAs formats (sendOrder formats) sent)
    (hagree : NamesAgree formats) {i : Nat} (hi : i ∈ sendOrder formats) {f : FMFormatBody}
    (hf : formats[i]? = some f) {fmField : FMField} (hmem : fmField ∈ f.fieldList)
    {sub : Option Nat}
    (hsub : fieldSubformat formats (allOf formats) i fmField.fieldType.bytes = some sub)
    (hbase : strToDataType (baseDataType fmField.fieldType.bytes) = .unknownType) :
    (lastNamed sent (othersOf sent) (baseDataType fmField.fieldType.bytes)).or
        (sub.map (sendOrder formats).idxOf) = sub.map (sendOrder formats).idxOf := by
  have hunknown : (arrayStrToDataType fmField.fieldType.bytes).1 = .unknownType := by
    by_contra hknown
    rw [strToDataType_baseDataType hknown] at hbase
    exact hknown hbase
  obtain ⟨j, rfl⟩ : ∃ j, sub = some j := by
    rw [fieldSubformat, if_pos hunknown] at hsub
    obtain ⟨j, -, hj⟩ := Option.map_eq_some_iff.mp hsub
    exact ⟨j, hj.symm⟩
  have hrefers : Refers formats (allOf formats) i j := ⟨f, hf, fmField, hmem, hsub⟩
  by_cases hzero : j = 0
  · subst hzero
    have htop : i = 0 := by
      by_contra hne
      exact hagree.top i hi hne hrefers
    subst htop
    rw [hsent.lastNamed_eq_none (hagree.own f hf fmField hmem hsub hbase), Option.none_or]
  · rw [hsent.lastNamed_eq_some (hsent.sentOrder.closed i hi j hrefers) hzero
      (fieldSubformat_named hsub).2]
    rfl

theorem exists_generateVarList {candidates : List Nat} {l : List FMFormatBody} {self : Nat}
    {f : FMFormatBody} (h : ∀ field fmField, f.fieldList[field]? = some fmField →
      ∃ v, generateVar l candidates self f.fieldList fmField field = some v) :
    ∃ g, generateVarList candidates l self f = some g := by
  have hvars : ∀ p ∈ f.fieldList.zipIdx, ∃ v,
      generateVar l candidates self f.fieldList p.1 p.2 = some v := by
    intro p hp
    exact h p.2 p.1 (List.mem_zipIdx_iff_getElem?.mp hp)
  obtain ⟨vars, hvars⟩ := exists_mapM_eq_some hvars
  exact ⟨f.withVars vars, bind_eq_of_eq_some hvars rfl⟩

theorem generateVarList_sent (hsent : SentAs formats (sendOrder formats) sent)
    (hagree : NamesAgree formats) (hderivable : Derivable formats) {i : Nat}
    (hi : i ∈ sendOrder formats) {u g : FMFormatBody}
    (hu : sent[(sendOrder formats).idxOf i]? = some u) (hfields : g.fieldList = u.fieldList)
    {l : List FMFormatBody} (hnames : SameNames l sent) :
    ∃ g', generateVarList (othersOf sent) l ((sendOrder formats).idxOf i) g = some g' := by
  obtain ⟨f, u', hf, hu', -, hlist⟩ := hsent.place i hi
  rw [hu, Option.some.injEq] at hu'
  subst hu'
  rw [hlist] at hfields
  refine exists_generateVarList fun field fmField hfield => ?_
  rw [hfields] at hfield
  obtain ⟨sub, chain, hsub, hchain⟩ := hderivable i f hf field fmField hfield
  have hfound := fieldSubformat_sent hsent hagree hi hf (List.mem_of_getElem? hfield) hsub
  rw [← hnames.fieldSubformat] at hfound
  rw [← hfields] at hchain
  exact ⟨_, generateVar_eq_some_iff.mpr ⟨_, chain, hfound, hchain, rfl⟩⟩

theorem refillVars_sent (hsent : SentAs formats (sendOrder formats) sent)
    (hagree : NamesAgree formats) (hderivable : Derivable formats) {i : Nat}
    (hi : i ∈ sendOrder formats) {u g g' : FMFormatBody}
    (hu : sent[(sendOrder formats).idxOf i]? = some u) (hfields : g.fieldList = u.fieldList)
    {l : List FMFormatBody} (hnames : SameNames l sent)
    (hgen : generateVarList (othersOf sent) l ((sendOrder formats).idxOf i) g = some g') :
    refillVars l (othersOf sent) ((sendOrder formats).idxOf i) g' = g' := by
  obtain ⟨f, u', hf, hu', -, hlist⟩ := hsent.place i hi
  rw [hu, Option.some.injEq] at hu'
  subst hu'
  rw [hlist] at hfields
  refine refillVars_generated hgen fun field fmField v hfield hv hbase => ?_
  rw [hfields] at hfield
  obtain ⟨sub, chain, hsub, -⟩ := hderivable i f hf field fmField hfield
  have hmem := List.mem_of_getElem? hfield
  obtain ⟨sub', chain', hsub', -, rfl⟩ := generateVar_eq_some_iff.mp hv
  rw [hnames.fieldSubformat, fieldSubformat_sent hsent hagree hi hf hmem hsub,
    Option.some.injEq] at hsub'
  rw [hnames.lastNamed]
  dsimp only
  rw [← hsub']
  exact lastNamed_or_sent hsent hagree hi hf hmem hsub hbase

/-- Loading derives the sent formats in their order. -/
theorem exists_filled (hsent : SentAs formats (sendOrder formats) sent)
    (hagree : NamesAgree formats) (hderivable : Derivable formats) : ∃ filled,
      pass (fillDerivedFormatValues (othersOf sent)) sent (List.range sent.length) = some filled ∧
      Derivation (othersOf sent) (List.range sent.length) sent filled := by
  have hfieldList : ∀ {l : List FMFormatBody} {k : Nat} {b u : FMFormatBody},
      l.map FMFormatBody.underived = sent.map FMFormatBody.underived → l[k]? = some b →
      sent[k]? = some u → b.fieldList = u.fieldList := by
    intro l k b u hkeep hb hu
    have hk := congrArg (·[k]?) hkeep
    simp only [List.getElem?_map, hb, hu, Option.map_some, Option.some.injEq] at hk
    have hlist := congrArg FMFormatBody.fieldList hk
    exact hlist
  obtain ⟨filled, hpass, hkeep⟩ : ∃ filled,
      pass (fillDerivedFormatValues (othersOf sent)) sent (List.range sent.length) = some filled ∧
      filled.map FMFormatBody.underived = sent.map FMFormatBody.underived := by
    refine exists_pass (fun l => l.map FMFormatBody.underived = sent.map FMFormatBody.underived)
      (fun l hl k hk => ?_) rfl
    have hk := List.mem_range.mp hk
    have hu := List.getElem?_eq_getElem hk
    have hlt : k < l.length := by
      have hlength := congrArg List.length hl
      rw [List.length_map, List.length_map] at hlength
      omega
    have hb := List.getElem?_eq_getElem hlt
    obtain ⟨i, hi, rfl⟩ := hsent.exists_place hk
    have hfields := hfieldList hl hb hu
    obtain ⟨g, hg⟩ := generateVarList_sent hsent hagree hderivable hi hu
      (show ({ l[(sendOrder formats).idxOf i] with variant := false, recursive := false } :
        FMFormatBody).fieldList = _ from hfields) (sameNames_of_underived hl)
    refine ⟨_, _, hb, by rw [fillDerivedFormatValues, hg, Option.map_some], ?_⟩
    rw [← hl]
    exact map_set_of_eq _ hb (fillDerivedFormatValues_underived (by
      rw [fillDerivedFormatValues, hg, Option.map_some]))
  refine ⟨filled, hpass, derivation_of_passedAt hsent.noFlags hkeep
    (fun i hi => List.mem_range.mpr hi) fun before k behind horder => ?_⟩
  obtain ⟨-, -, hpassed⟩ := pass_spec List.nodup_range hpass
  obtain ⟨l, b, b', hb, hb', hfill, hl⟩ := (hpassed before k behind horder).made
  have hnames : SameNames l sent := by
    refine sameNames_of_getElem? fun j => ?_
    rw [hl j]
    split
    · have hj := congrArg (·[j]?) (sameNames_of_underived hkeep)
      simpa only [List.getElem?_map] using hj
    · rfl
  obtain ⟨i, hi, rfl⟩ := hsent.exists_place (List.getElem?_eq_some_iff.mp hb).1
  obtain ⟨g, hgen, rfl⟩ := Option.map_eq_some_iff.mp hfill
  have hunflagged : ({ b with variant := false, recursive := false } : FMFormatBody) = b := by
    obtain ⟨hvariant, hrecursive⟩ := hsent.noFlags b (List.mem_of_getElem? hb)
    cases b
    cases hvariant
    cases hrecursive
    rfl
  rw [hunflagged] at hgen
  rw [refillVars_sent hsent hagree hderivable hi hb rfl hnames hgen] at hb'
  exact ⟨l, b, g, hb, hb', hgen, hl⟩

/-! ## The order is kept -/

theorem fieldReferences_sent (hsent : SentAs formats (sendOrder formats) sent)
    (hagree : NamesAgree formats) (hderivable : Derivable formats) {i : Nat}
    (hi : i ∈ sendOrder formats) :
    fieldReferences sent (othersOf sent) ((sendOrder formats).idxOf i) =
      (fieldReferences formats (allOf formats) i).map (·.map (sendOrder formats).idxOf) := by
  obtain ⟨f, u, hf, hu, -, hlist⟩ := hsent.place i hi
  rw [fieldReferences, fieldReferences, hf, hu]
  dsimp only
  rw [hlist, List.map_map]
  refine List.map_congr_left fun fmField hmem => ?_
  obtain ⟨field, hfield⟩ := List.mem_iff_getElem?.mp hmem
  obtain ⟨sub, -, hsub, -⟩ := hderivable i f hf field fmField hfield
  rw [fieldSubformat_sent hsent hagree hi hf hmem hsub, Function.comp_apply, hsub,
    Option.join_some, Option.join_some]

theorem refers_sent (hsent : SentAs formats (sendOrder formats) sent)
    (hagree : NamesAgree formats) (hderivable : Derivable formats) {i k : Nat}
    (hi : i ∈ sendOrder formats) :
    Refers sent (othersOf sent) ((sendOrder formats).idxOf i) k ↔
      ∃ j, j ∈ sendOrder formats ∧ (sendOrder formats).idxOf j = k ∧
        Refers formats (allOf formats) i j := by
  simp only [← mem_references, references, List.mem_insertionSort, List.mem_filterMap,
    fieldReferences_sent hsent hagree hderivable hi, List.mem_map, id_eq]
  constructor
  · rintro ⟨_, ⟨sub, hsub, rfl⟩, hk⟩
    obtain ⟨j, rfl, rfl⟩ := Option.map_eq_some_iff.mp hk
    have hrefers : Refers formats (allOf formats) i j := by
      rw [← mem_references, references, List.mem_insertionSort, List.mem_filterMap]
      exact ⟨some j, hsub, rfl⟩
    exact ⟨j, hsent.sentOrder.closed i hi j hrefers, rfl, some j, hsub, rfl⟩
  · rintro ⟨j, -, rfl, _, hsub, rfl⟩
    exact ⟨_, ⟨some j, hsub, rfl⟩, rfl⟩

theorem references_sent (hsent : SentAs formats (sendOrder formats) sent)
    (hagree : NamesAgree formats) (hderivable : Derivable formats) {i : Nat}
    (hi : i ∈ sendOrder formats) :
    references sent (othersOf sent) ((sendOrder formats).idxOf i) =
      (references formats (allOf formats) i).map (sendOrder formats).idxOf := by
  have hmem : ∀ j ∈ (fieldReferences formats (allOf formats) i).filterMap id,
      j ∈ sendOrder formats := by
    intro j hj
    refine hsent.sentOrder.closed i hi j ?_
    rw [← mem_references, references, List.mem_insertionSort]
    exact hj
  have hname : ∀ j ∈ sendOrder formats, ∀ k ∈ sendOrder formats, subformatNameLe formats j k =
      subformatNameLe sent ((sendOrder formats).idxOf j) ((sendOrder formats).idxOf k) := by
    intro j hj k hk
    obtain ⟨f, u, hf, hu, hfu, -⟩ := hsent.place j hj
    obtain ⟨g, v, hg, hv, hgv, -⟩ := hsent.place k hk
    rw [subformatNameLe, subformatNameLe, hf, hu, hg, hv]
    show strLe _ _ = strLe _ _
    rw [hfu, hgv]
  have hsort : (references formats (allOf formats) i).map (sendOrder formats).idxOf =
      (((fieldReferences formats (allOf formats) i).filterMap id).map
        (sendOrder formats).idxOf).insertionSort fun j k => subformatNameLe sent j k :=
    List.map_insertionSort _ _ _ _ fun j hj k hk => by rw [hname j (hmem j hj) k (hmem k hk)]
  rw [hsort, references, fieldReferences_sent hsent hagree hderivable hi, List.filterMap_map,
    List.map_filterMap]
  rfl

theorem sendOrder_map_idxOf (hsent : SentAs formats (sendOrder formats) sent) :
    (sendOrder formats).map (sendOrder formats).idxOf = List.range sent.length := by
  refine List.ext_getElem (by rw [List.length_map, List.length_range, hsent.length_eq]) ?_
  intro k hk _
  rw [List.getElem_map, List.getElem_range]
  rw [List.length_map] at hk
  exact hsent.sentOrder.nodup.idxOf_getElem k hk

/-- What was put in order is in order. -/
theorem topoOrderSubformats_filled (hsent : SentAs formats (sendOrder formats) sent)
    (hagree : NamesAgree formats) (hderivable : Derivable formats) {order : List Nat}
    {filled : List FMFormatBody} (hfilled : Derivation (othersOf sent) order sent filled) :
    topoOrderSubformats filled = List.range sent.length := by
  have hnodes : ∀ {i}, i ∈ (sendOrder formats).toFinset ↔ i ∈ sendOrder formats :=
    List.mem_toFinset
  have hcard : (sendOrder formats).toFinset.card = (sendOrder formats).length :=
    List.toFinset_card_of_nodup hsent.sentOrder.nodup
  have hle : (sendOrder formats).toFinset.card ≤ formats.length := by
    have hsub : (sendOrder formats).toFinset ⊆ Finset.range formats.length := by
      intro i hi
      exact Finset.mem_range.mpr (hsent.sentOrder.lt i (hnodes.mp hi))
    simpa using Finset.card_le_card hsub
  have hmap : postOrder (references sent (othersOf sent)) (sent.length + 1)
      ((sendOrder formats).idxOf 0) =
        (postOrder (references formats (allOf formats)) (formats.length + 1) 0).map
          (sendOrder formats).idxOf := by
    have hinj : ∀ i ∈ (sendOrder formats).toFinset, ∀ j ∈ (sendOrder formats).toFinset,
        (sendOrder formats).idxOf i = (sendOrder formats).idxOf j → i = j :=
      fun i hi j hj heq => (List.idxOf_inj (hnodes.mp hi)).mp heq
    refine postOrder_map hinj (fun i hi j hj => ?_)
      (fun i hi => references_sent hsent hagree hderivable (hnodes.mp hi))
      (hnodes.mpr hsent.sentOrder.zero_mem) (by rw [hcard, hsent.length_eq]; omega) (by omega)
    exact hnodes.mpr (hsent.sentOrder.closed i (hnodes.mp hi) j (mem_references.mp hj))
  rw [hsent.sentOrder.idxOf_zero] at hmap
  rw [topoOrderSubformats, funext hfilled.formatSuccs, hfilled.length_eq, hmap, ← List.map_reverse,
    ← sendOrder_map_idxOf hsent]
  rfl

theorem idxOf?_range {n k : Nat} (hk : k < n) : (List.range n).idxOf? k = some k := by
  rw [idxOf?_of_mem (List.mem_range.mpr hk)]
  have hlt : k < (List.range n).length := by rwa [List.length_range]
  have hplace := List.nodup_range.idxOf_getElem k hlt
  rw [List.getElem_range] at hplace
  rw [hplace]

theorem reorder_filled {candidates order : List Nat} {filled : List FMFormatBody}
    (hfilled : Derivation candidates order sent filled) :
    reorder filled (List.range sent.length) = filled := by
  have hlt : ∀ k ∈ List.range sent.length, k < filled.length := by
    intro k hk
    rw [hfilled.length_eq]
    exact List.mem_range.mp hk
  refine List.ext_getElem? fun k => ?_
  rw [reorder_getElem? hlt]
  cases hg : filled[k]? with
  | none =>
    rw [List.getElem?_eq_none_iff, hfilled.length_eq] at hg
    rw [List.getElem?_eq_none (by rwa [List.length_range])]
    rfl
  | some g =>
    have hk : k < sent.length := by
      rw [← hfilled.length_eq]
      exact (List.getElem?_eq_some_iff.mp hg).1
    rw [List.getElem?_range hk, Option.bind_some, hg, Option.map_some, FMFormatBody.renumbered]
    have hkept : (g.fieldSubformats.map fun sub => sub.bind ((List.range sent.length).idxOf? ·)) =
        g.fieldSubformats := by
      conv_rhs => rw [← List.map_id g.fieldSubformats]
      refine List.map_congr_left fun sub hsub => ?_
      cases sub with
      | none => rfl
      | some j =>
        have hrefers : Refers sent candidates k j := by
          rw [← hfilled.subformatsOf, mem_subformatsOf]
          exact ⟨g, hg, hsub⟩
        exact idxOf?_range hrefers.lt
    rw [hkept]

/-- Loading succeeds, and the flags bubble up. -/
theorem exists_loaded (hsent : SentAs formats (sendOrder formats) sent)
    (hagree : NamesAgree formats) (hderivable : Derivable formats) {f : FMFormat}
    (hf : f.bodies = sent) (hcount : sent.length < topoArraySize) :
    ∃ filled g, Derivation (othersOf sent) (List.range sent.length) sent filled ∧
      deriveLoaded f = some g ∧
      g.bodies.map FMFormatBody.unflagged = filled.map FMFormatBody.unflagged ∧
      ∀ k, variantAt g.bodies k ↔
        Leads (OwnVariant sent (othersOf sent)) (Refers sent (othersOf sent)) k := by
  obtain ⟨filled, hpass, hfilled⟩ := exists_filled hsent hagree hderivable
  obtain ⟨hkept, hvariant⟩ := bubbleLoaded_spec (fun _ _ => hfilled.subformatsOf)
    (fun k => (hfilled.variant k).1) (fun k => (hfilled.variant k).2) fun k ⟨_, _, _, _, hsub⟩ => by
      rcases (fieldSubformat_named hsub).1 with hzero | hmem
      · exact hzero.symm
      · exact absurd rfl (mem_othersOf.mp hmem).1
  have hlength := congrArg List.length hkept
  rw [List.length_map, List.length_map, hfilled.length_eq, ← hf] at hlength
  cases hbodies : bubbleLoaded filled with
  | nil =>
    rw [hbodies] at hlength
    simp [FMFormat.bodies] at hlength
  | cons top subformats =>
    rw [hbodies] at hkept hvariant
    refine ⟨filled, { top, subformats }, hfilled, ?_, hkept, hvariant⟩
    have horder := topoOrderSubformats_filled hsent hagree hderivable hfilled
    rw [deriveLoaded, hf]
    refine bind_eq_of_eq_some hpass ?_
    dsimp only
    rw [horder, reorder_filled hfilled, hbodies, List.length_range, hfilled.length_eq, guard,
      if_pos hcount, guard, if_pos rfl]
    rfl

end

end FFS
