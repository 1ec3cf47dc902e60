import FFS.FM.LoadedForm
import FFS.FM.RepRoundTrip

/-!
# Registered and loaded formats

When loading a registered format's representation gives the derived values of the
registration again.  The names must lead to the same formats (`NamesAgree`).  Then all
values are the same but those that depend on the order in which formats are derived, from
the last to the first on registration and in the order of sending on loading: recursive
flags and the notes of type descriptors on them (`RecursionAgrees`).
-/

namespace FFS

open Machine

/-- The values that registration and loading derive for a format. -/
def FMFormatBody.derivedValues (f : FMFormatBody) :
    List (Option Nat) × Bool × Bool × List FMVarInfo :=
  (f.fieldSubformats, f.variant, f.recursive, f.varList)

/-- Loading the representation of a format gives the derived values that the format has. -/
def LoadAgrees (f : FMFormat) : Prop :=
  ∃ rep g, buildServerFormatRep f = some rep ∧ loadFormat rep = some g ∧
    g.bodies.map FMFormatBody.derivedValues = f.bodies.map FMFormatBody.derivedValues

/-- A field of the format `i` notes that its subformat `j` is recursive when formats are
derived in an order: the flag is set by then. -/
def NotedIn (formats : List FMFormatBody) (candidates order : List Nat) (i j : Nat) : Prop :=
  Earlier order j i ∧ RecursiveIn formats candidates order j

/-- The order of derivation makes no difference. -/
structure RecursionAgrees (formats : List FMFormatBody) : Prop where
  recursive : ∀ i ∈ sendOrder formats,
    (RecursiveIn formats (allOf formats) (allOf formats).reverse i ↔
      RecursiveIn formats (allOf formats) (sendOrder formats) i)
  noted : ∀ i ∈ sendOrder formats, ∀ f ∈ formats[i]?, ∀ field fmField,
    f.fieldList[field]? = some fmField → linked f.fieldList field fmField.fieldType.bytes = true →
    ∀ j ≠ i, fieldSubformat formats (allOf formats) i fmField.fieldType.bytes = some (some j) →
      (NotedIn formats (allOf formats) (allOf formats).reverse i j ↔
        NotedIn formats (allOf formats) (sendOrder formats) i j)

/-! ## The sent formats -/

section
variable {columnMajor ignoreDefaultValues : Bool} {structList : List FMStructDesc} {f : FMFormat}
  {copied derived aligned : List FMFormatBody}

theorem FMFormat.bodies_underived (f : FMFormat) :
    f.underived.bodies = f.bodies.map FMFormatBody.underived := rfl

theorem Registration.derivable
    (h : Registration columnMajor ignoreDefaultValues structList f copied derived aligned) :
    Derivable copied := by
  intro i g hg field fmField hfield
  have hlt : i < derived.length := by
    rw [h.derivation.length_eq]
    exact (List.getElem?_eq_some_iff.mp hg).1
  obtain ⟨sub, chain, -, hsub, hchain, -⟩ :=
    h.derivation.field hg (List.getElem?_eq_getElem hlt) hfield
  exact ⟨sub, chain, hsub, hchain⟩

/-- What a body has of the derived format that it comes from. -/
theorem kept_of_body {order : List Nat} {d g : FMFormatBody}
    (h : g.unflagged.unaligned = (d.renumbered order).unflagged.unaligned) :
    g.formatName = d.formatName ∧ g.fieldList = d.fieldList ∧ g.varList = d.varList ∧
      g.recursive = d.recursive := by
  have hname := congrArg FMFormatBody.formatName h
  have hlist := congrArg FMFormatBody.fieldList h
  have hvars := congrArg FMFormatBody.varList h
  have hrecursive := congrArg FMFormatBody.recursive h
  exact ⟨hname, hlist, hvars, hrecursive⟩

theorem Registration.sentAs
    (h : Registration columnMajor ignoreDefaultValues structList f copied derived aligned) :
    SentAs copied (sendOrder copied) f.underived.bodies := by
  rw [FMFormat.bodies_underived]
  refine ⟨h.sent, by rw [List.length_map, h.length_bodies], fun i hi => ?_, fun g hg => ?_⟩
  · obtain ⟨d, g, hd, hg, heq⟩ := h.body hi
    obtain ⟨hname, hlist, -⟩ := kept_of_body heq
    obtain ⟨c, hc, hcname, hclist⟩ := h.derivation.exists_base hd
    refine ⟨c, g.underived, hc, by rw [List.getElem?_map, hg, Option.map_some], ?_, ?_⟩
    · rw [hcname, ← hname]
      rfl
    · rw [hclist, ← hlist]
      rfl
  · obtain ⟨g', -, rfl⟩ := List.mem_map.mp hg
    exact ⟨rfl, rfl⟩

theorem Registration.length_sent_lt
    (h : Registration columnMajor ignoreDefaultValues structList f copied derived aligned) :
    f.underived.bodies.length < topoArraySize := by
  have horder := h.order_lt
  rw [h.topoOrderSubformats_eq] at horder
  rw [FMFormat.bodies_underived, List.length_map, h.length_bodies]
  exact horder

/-- The subformats of a registered format in its new numbers. -/
theorem Registration.fieldSubformats
    (h : Registration columnMajor ignoreDefaultValues structList f copied derived aligned) {i : Nat}
    (hi : i ∈ sendOrder copied) {g : FMFormatBody}
    (hg : f.bodies[(sendOrder copied).idxOf i]? = some g) :
    g.fieldSubformats =
      (fieldReferences copied (allOf copied) i).map (·.map (sendOrder copied).idxOf) := by
  obtain ⟨d, g', hd, hg', heq⟩ := h.body hi
  rw [hg, Option.some.injEq] at hg'
  subst hg'
  have hsubs : g.fieldSubformats = d.fieldSubformats.map fun sub =>
      sub.bind ((sendOrder copied).idxOf? ·) := congrArg FMFormatBody.fieldSubformats heq
  rw [hsubs, ← h.derivation.fieldSubformats hd]
  refine List.map_congr_left fun sub hsub => ?_
  cases sub with
  | none => rfl
  | some j =>
    have hrefers : Refers copied (allOf copied) i j := by
      rw [← h.derivation.subformatsOf, mem_subformatsOf]
      exact ⟨d, hd, hsub⟩
    rw [Option.bind_some, idxOf?_of_mem (h.sent.closed i hi j hrefers), Option.map_some]

end

/-! ## Renamed graphs -/

section
variable {formats sent : List FMFormatBody}

theorem idxOf_range {n k : Nat} (hk : k < n) : (List.range n).idxOf k = k := by
  have hlt : k < (List.range n).length := by rwa [List.length_range]
  have hplace := List.nodup_range.idxOf_getElem k hlt
  rwa [List.getElem_range] at hplace

theorem earlier_sent (hsent : SentAs formats (sendOrder formats) sent) {i j : Nat}
    (hi : i ∈ sendOrder formats) (hj : j ∈ sendOrder formats) :
    Earlier (List.range sent.length) ((sendOrder formats).idxOf j) ((sendOrder formats).idxOf i) ↔
      Earlier (sendOrder formats) j i := by
  have hlt : ∀ i ∈ sendOrder formats, (sendOrder formats).idxOf i < sent.length := by
    intro i hi
    rw [hsent.length_eq]
    exact List.idxOf_lt_length_of_mem hi
  rw [Earlier, Earlier, idxOf_range (hlt i hi), idxOf_range (hlt j hj)]

theorem refers_sent_self (hsent : SentAs formats (sendOrder formats) sent)
    (hagree : NamesAgree formats) (hderivable : Derivable formats) {i : Nat}
    (hi : i ∈ sendOrder formats) :
    Refers sent (othersOf sent) ((sendOrder formats).idxOf i) ((sendOrder formats).idxOf i) ↔
      Refers formats (allOf formats) i i := by
  rw [refers_sent hsent hagree hderivable hi]
  constructor
  · rintro ⟨j, hj, heq, hrefers⟩
    rwa [(List.idxOf_inj hj).mp heq] at hrefers
  · exact fun hrefers => ⟨i, hi, rfl, hrefers⟩

theorem recursiveIn_sent (hsent : SentAs formats (sendOrder formats) sent)
    (hagree : NamesAgree formats) (hderivable : Derivable formats) {i : Nat}
    (hi : i ∈ sendOrder formats) :
    RecursiveIn sent (othersOf sent) (List.range sent.length) ((sendOrder formats).idxOf i) ↔
      RecursiveIn formats (allOf formats) (sendOrder formats) i := by
  have hsees : ∀ i k, i ∈ sendOrder formats →
      ((Refers sent (othersOf sent) ((sendOrder formats).idxOf i) k ∧
          Earlier (List.range sent.length) k ((sendOrder formats).idxOf i)) ↔
        ∃ j, j ∈ sendOrder formats ∧ (sendOrder formats).idxOf j = k ∧
          Refers formats (allOf formats) i j ∧ Earlier (sendOrder formats) j i) := by
    intro i k hi
    rw [refers_sent hsent hagree hderivable hi]
    constructor
    · rintro ⟨⟨j, hj, rfl, hrefers⟩, hearlier⟩
      exact ⟨j, hj, rfl, hrefers, (earlier_sent hsent hi hj).mp hearlier⟩
    · rintro ⟨j, hj, rfl, hrefers, hearlier⟩
      exact ⟨⟨j, hj, rfl, hrefers⟩, (earlier_sent hsent hi hj).mpr hearlier⟩
  have hown : ∀ i, i ∈ sendOrder formats →
      (Refers sent (othersOf sent) ((sendOrder formats).idxOf i) ((sendOrder formats).idxOf i) ↔
        Refers formats (allOf formats) i i) :=
    fun i hi => refers_sent_self hsent hagree hderivable hi
  have hclosed : ∀ i j, i ∈ sendOrder formats →
      Refers formats (allOf formats) i j ∧ Earlier (sendOrder formats) j i →
      j ∈ sendOrder formats := fun i j hi hij => hsent.sentOrder.closed i hi j hij.1
  exact leads_rename (· ∈ sendOrder formats) (sendOrder formats).idxOf hown hsees hclosed hi

theorem ownVariant_sent (hsent : SentAs formats (sendOrder formats) sent)
    (hagree : NamesAgree formats) (hderivable : Derivable formats) {i : Nat}
    (hi : i ∈ sendOrder formats) :
    OwnVariant sent (othersOf sent) ((sendOrder formats).idxOf i) ↔
      OwnVariant formats (allOf formats) i := by
  obtain ⟨f, u, hf, hu, -, hlist⟩ := hsent.place i hi
  rw [OwnVariant, OwnVariant, refers_sent_self hsent hagree hderivable hi, hf, hu]
  simp only [Option.mem_def, Option.some.injEq, exists_eq_left', hlist]

theorem variant_sent (hsent : SentAs formats (sendOrder formats) sent)
    (hagree : NamesAgree formats) (hderivable : Derivable formats) {i : Nat}
    (hi : i ∈ sendOrder formats) :
    Leads (OwnVariant sent (othersOf sent)) (Refers sent (othersOf sent))
        ((sendOrder formats).idxOf i) ↔
      Leads (OwnVariant formats (allOf formats)) (Refers formats (allOf formats)) i :=
  leads_rename (· ∈ sendOrder formats) (sendOrder formats).idxOf (fun _ hi => ownVariant_sent hsent hagree hderivable hi)
    (fun _ _ hi => refers_sent hsent hagree hderivable hi)
    (fun i j hi hij => hsent.sentOrder.closed i hi j hij) hi

end

/-! ## One format -/

section
variable {columnMajor ignoreDefaultValues : Bool} {structList : List FMStructDesc} {f : FMFormat}
  {copied derived aligned filled : List FMFormatBody}

theorem varInfo_eq_iff {fields : List FMField} {field : Nat} {typ : List UInt8}
    {chain : List FMTypeDesc} (hunknown : (arrayStrToDataType typ).1 = .unknownType) (r r' : Bool) :
    varInfo fields field typ (some r) chain = varInfo fields field typ (some r') chain ↔
      (2 ≤ chain.length → r = r') := by
  have hne : (arrayStrToDataType typ).1 ≠ .stringType := by
    rw [hunknown]
    exact fun heq => by cases heq
  rw [← closeTypeDesc_eq_iff hne chain]
  constructor
  · exact fun heq => congrArg FMVarInfo.typeDesc heq
  · intro heq
    rw [varInfo, varInfo, heq]

theorem fieldSubformat_unknown {formats : List FMFormatBody} {candidates : List Nat} {i j : Nat}
    {typ : List UInt8} (h : fieldSubformat formats candidates i typ = some (some j)) :
    (arrayStrToDataType typ).1 = .unknownType := by
  rw [fieldSubformat] at h
  split at h
  · assumption
  · cases Option.some.inj h

/-- What two derivations derive for the fields of a format is the same exactly if they note
the same about the recursion of subformats. -/
theorem varLists_eq_iff
    (h : Registration columnMajor ignoreDefaultValues structList f copied derived aligned)
    (hagree : NamesAgree copied)
    (hfilled : Derivation (othersOf f.underived.bodies) (List.range f.underived.bodies.length)
      f.underived.bodies filled) {i : Nat} (hi : i ∈ sendOrder copied) {c d e : FMFormatBody}
    (hc : copied[i]? = some c) (hd : derived[i]? = some d)
    (he : filled[(sendOrder copied).idxOf i]? = some e) :
    e.varList = d.varList ↔ ∀ field fmField,
      c.fieldList[field]? = some fmField → linked c.fieldList field fmField.fieldType.bytes = true →
      ∀ j ≠ i, fieldSubformat copied (allOf copied) i fmField.fieldType.bytes = some (some j) →
        (NotedIn copied (allOf copied) (allOf copied).reverse i j ↔
          NotedIn copied (allOf copied) (sendOrder copied) i j) := by
  obtain ⟨c', u, hc', hu, -, hlist⟩ := h.sentAs.place i hi
  rw [hc, Option.some.injEq] at hc'
  subst hc'
  have hlengths : e.varList.length = c.fieldList.length ∧ d.varList.length = c.fieldList.length := by
    constructor
    · rw [hfilled.length_varList hu he, hlist]
    · exact h.derivation.length_varList hc hd
  -- field by field, with the flags that either derivation sees
  have hfields : ∀ field fmField, c.fieldList[field]? = some fmField →
      (e.varList[field]? = d.varList[field]? ↔
        (linked c.fieldList field fmField.fieldType.bytes = true → ∀ j ≠ i,
          fieldSubformat copied (allOf copied) i fmField.fieldType.bytes = some (some j) →
          (NotedIn copied (allOf copied) (allOf copied).reverse i j ↔
            NotedIn copied (allOf copied) (sendOrder copied) i j))) := by
    intro field fmField hfield
    have hmem := List.mem_of_getElem? hfield
    obtain ⟨sub, chain, r, hsub, hchain, hvar, hr⟩ := h.derivation.field hc hd hfield
    obtain ⟨sub', chain', r', hsub', hchain', hvar', hr'⟩ :=
      hfilled.field hu he (by rw [hlist]; exact hfield)
    rw [hlist, hchain, Option.some.injEq] at hchain'
    subst hchain'
    rw [fieldSubformat_sent h.sentAs hagree hi hc hmem hsub, Option.some.injEq] at hsub'
    subst hsub'
    rw [hvar, hvar', hlist, Option.some.injEq]
    cases sub with
    | none => simp [hsub]
    | some j =>
      have hj : j ∈ sendOrder copied := h.sent.closed i hi j ⟨c, hc, fmField, hmem, hsub⟩
      have hr := hr j rfl
      have hr' := hr' _ rfl
      rw [List.idxOf_inj hj, earlier_sent h.sentAs hi hj,
        recursiveIn_sent h.sentAs hagree h.derivable hj] at hr'
      rw [Option.map_some, Option.map_some, Option.map_some,
        varInfo_eq_iff (fieldSubformat_unknown hsub), linked, hchain, Option.any_some,
        decide_eq_true_iff]
      refine forall_congr' fun _ => ?_
      constructor
      · intro heq j' hne hj'
        rw [hsub, Option.some.injEq, Option.some.injEq] at hj'
        subst hj'
        rw [Bool.eq_iff_iff, hr, hr', or_iff_right hne, or_iff_right hne] at heq
        exact heq.symm
      · intro hnoted
        rw [Bool.eq_iff_iff, hr, hr']
        by_cases hji : j = i
        · simp only [hji, true_or]
        · rw [or_iff_right hji, or_iff_right hji]
          exact (hnoted j hji hsub).symm
  constructor
  · intro heq field fmField hfield
    exact (hfields field fmField hfield).mp (by rw [heq])
  · intro hnoted
    refine List.ext_getElem? fun field => ?_
    cases hfield : c.fieldList[field]? with
    | none =>
      have hge := List.getElem?_eq_none_iff.mp hfield
      rw [List.getElem?_eq_none (by omega), List.getElem?_eq_none (by omega)]
    | some fmField => exact (hfields field fmField hfield).mpr (hnoted field fmField hfield)

end

/-! ## Whole formats -/

section
variable {columnMajor ignoreDefaultValues : Bool} {structList : List FMStructDesc} {f g : FMFormat}
  {copied derived aligned filled : List FMFormatBody}

theorem bool_eq_iff_of_iff {a b : Bool} {p q : Prop} (ha : a = true ↔ p) (hb : b = true ↔ q) :
    a = b ↔ (p ↔ q) := by
  rw [Bool.eq_iff_iff, ha, hb]

/-- One format has the same derived values on both sides exactly if its recursive flag and
its notes do not depend on the order. -/
theorem derivedValues_eq_iff
    (h : Registration columnMajor ignoreDefaultValues structList f copied derived aligned)
    (hagree : NamesAgree copied)
    (hfilled : Derivation (othersOf f.underived.bodies) (List.range f.underived.bodies.length)
      f.underived.bodies filled)
    (hkept : g.bodies.map FMFormatBody.unflagged = filled.map FMFormatBody.unflagged)
    (hvariant : ∀ k, variantAt g.bodies k ↔ Leads
      (OwnVariant f.underived.bodies (othersOf f.underived.bodies))
      (Refers f.underived.bodies (othersOf f.underived.bodies)) k)
    {i : Nat} (hi : i ∈ sendOrder copied) {c : FMFormatBody} (hc : copied[i]? = some c) :
    g.bodies[(sendOrder copied).idxOf i]?.map FMFormatBody.derivedValues =
        f.bodies[(sendOrder copied).idxOf i]?.map FMFormatBody.derivedValues ↔
      (RecursiveIn copied (allOf copied) (allOf copied).reverse i ↔
          RecursiveIn copied (allOf copied) (sendOrder copied) i) ∧
        ∀ field fmField, c.fieldList[field]? = some fmField →
          linked c.fieldList field fmField.fieldType.bytes = true →
          ∀ j ≠ i, fieldSubformat copied (allOf copied) i fmField.fieldType.bytes = some (some j) →
            (NotedIn copied (allOf copied) (allOf copied).reverse i j ↔
              NotedIn copied (allOf copied) (sendOrder copied) i j) := by
  obtain ⟨d, b, hd, hb, hbody⟩ := h.body hi
  obtain ⟨-, -, hvars, hrecursive⟩ := kept_of_body hbody
  have hk : (sendOrder copied).idxOf i < filled.length := by
    rw [hfilled.length_eq, h.sentAs.length_eq]
    exact List.idxOf_lt_length_of_mem hi
  have he := List.getElem?_eq_getElem hk
  generalize filled[(sendOrder copied).idxOf i] = e at he
  have hflags := congrArg (·[(sendOrder copied).idxOf i]?) hkept
  simp only [List.getElem?_map, he, Option.map_some] at hflags
  obtain ⟨b', hb', heq⟩ := Option.map_eq_some_iff.mp hflags
  have hsubs' : b'.fieldSubformats = e.fieldSubformats := by
    have hsubs := congrArg FMFormatBody.fieldSubformats heq
    exact hsubs
  have hrecursive' : b'.recursive = e.recursive := by
    have hrecursive := congrArg FMFormatBody.recursive heq
    exact hrecursive
  have hvars' : b'.varList = e.varList := by
    have hvars := congrArg FMFormatBody.varList heq
    exact hvars
  have hsubs : b'.fieldSubformats = b.fieldSubformats := by
    rw [hsubs', hfilled.fieldSubformats he, h.fieldSubformats hi hb,
      fieldReferences_sent h.sentAs hagree h.derivable hi]
  have hvariants : b'.variant = b.variant := by
    have hleft := (variantAt_of_some hb').symm.trans (hvariant _)
    have hright := (variantAt_of_some hb).symm.trans (h.bubbled.2 i hi)
    rw [variant_sent h.sentAs hagree h.derivable hi] at hleft
    exact (bool_eq_iff_of_iff hleft hright).mpr Iff.rfl
  have hrecursives : b'.recursive = b.recursive ↔
      (RecursiveIn copied (allOf copied) (allOf copied).reverse i ↔
        RecursiveIn copied (allOf copied) (sendOrder copied) i) := by
    have hleft := hfilled.recursive_iff ((sendOrder copied).idxOf i)
    have hright := h.derivation.recursive_iff i
    rw [formatFlags, he, recursiveIn_sent h.sentAs hagree h.derivable hi] at hleft
    rw [formatFlags, hd] at hright
    rw [hrecursive', hrecursive, bool_eq_iff_of_iff hleft hright]
    exact Iff.comm
  rw [hb, hb', Option.map_some, Option.map_some, Option.some.injEq, FMFormatBody.derivedValues,
    FMFormatBody.derivedValues, hsubs, hvariants]
  simp only [Prod.mk.injEq, true_and]
  rw [hrecursives, hvars', hvars, varLists_eq_iff h hagree hfilled hi hc hd he]

/-- Loading that succeeds found every name. -/
theorem passedAt_sent {sent : List FMFormatBody}
    (hpass : pass (fillDerivedFormatValues (othersOf sent)) sent (List.range sent.length) =
      some filled) {k : Nat} (hk : k < sent.length) :
    ∃ l b b' b'', sent[k]? = some b ∧ b''.fieldList = b.fieldList ∧ SameNames l sent ∧
      generateVarList (othersOf sent) l k b'' = some b' ∧
      filled[k]? = some (refillVars l (othersOf sent) k b') := by
  have hkeep := pass_underived (fun _ _ _ _ => fillDerivedFormatValues_underived) hpass
  obtain ⟨before, behind, hsplit, -⟩ := exists_before (List.mem_range.mpr hk)
  obtain ⟨-, -, hpassed⟩ := pass_spec List.nodup_range hpass
  obtain ⟨l, b, b', hb, hb', hfill, hl⟩ := (hpassed before k behind hsplit).made
  have hnames : SameNames l sent := by
    refine sameNames_of_getElem? fun j => ?_
    rw [hl j]
    split
    · have hj := congrArg (·[j]?) (sameNames_of_underived hkeep)
      simpa only [List.getElem?_map] using hj
    · rfl
  obtain ⟨g, hgen, rfl⟩ := Option.map_eq_some_iff.mp hfill
  exact ⟨l, b, g, { b with variant := false, recursive := false }, hb, rfl, hnames, hgen, hb'⟩

theorem reorder_top {formats : List FMFormatBody} {below : List Nat} {top : FMFormatBody}
    (htop : formats[0]? = some top) :
    (reorder formats (0 :: below))[0]? = some (top.renumbered (0 :: below)) := by
  rw [reorder, List.filterMap_cons_some (by rw [htop, Option.map_some]), List.getElem?_cons_zero]
  rfl

/-- The format that a field of the top format leads to after the second loop. -/
theorem refillVars_top {candidates : List Nat} {l : List FMFormatBody} {self k : Nat}
    {b b' : FMFormatBody} (hgen : generateVarList candidates l self b = some b') {field : Nat}
    {fmField : FMField} (hfield : b.fieldList[field]? = some fmField)
    (hunknown : (arrayStrToDataType fmField.fieldType.bytes).1 = .unknownType)
    (hbase : strToDataType (baseDataType fmField.fieldType.bytes) = .unknownType)
    (hlast : lastNamed l candidates (baseDataType fmField.fieldType.bytes) = some k) :
    (refillVars l candidates self b').fieldSubformats[field]? = some (some k) := by
  obtain ⟨v, hv, -, -⟩ := generateVarList_field hgen hfield
  have hrefilled := refilled_getElem? hgen field
  rw [hfield, Option.bind_some, hv, Option.map_some] at hrefilled
  rw [refillVars]
  dsimp only
  rw [List.getElem?_map, hrefilled, Option.map_some]
  obtain ⟨sub, chain, -, -, rfl⟩ := generateVar_eq_some_iff.mp hv
  have hstring : ¬ (varInfo b.fieldList field fmField.fieldType.bytes
      (sub.map fun _ => (subformatFlags l self sub).2) chain).string = true := by
    rw [varInfo_string, hunknown]
    exact fun heq => by cases heq
  rw [refillVar, if_neg hstring]
  dsimp only
  rw [if_pos hbase, hlast, Option.some_or]

/-- Names lead to the same formats when loading gives the subformats of the registration. -/
theorem namesAgree_of_loaded
    (h : Registration columnMajor ignoreDefaultValues structList f copied derived aligned)
    (hload : deriveLoaded f.underived = some g)
    (hsame : g.bodies.map FMFormatBody.derivedValues = f.bodies.map FMFormatBody.derivedValues) :
    NamesAgree copied := by
  simp only [deriveLoaded, Option.bind_eq_bind, Option.bind_eq_some_iff, Option.guard_eq_some',
    exists_const] at hload
  obtain ⟨filled, hpass, -, -, hload⟩ := hload
  have hsent := h.sentAs
  have hlt : ∀ {i}, i ∈ sendOrder copied →
      (sendOrder copied).idxOf i < f.underived.bodies.length := by
    intro i hi
    rw [hsent.length_eq]
    exact List.idxOf_lt_length_of_mem hi
  constructor
  · rintro i hi hne ⟨c, hc, fmField, hmem, hsub⟩
    obtain ⟨l, b, b', b'', hb, hlist, hnames, hgen, -⟩ := passedAt_sent hpass (hlt hi)
    obtain ⟨c', u, hc', hu, -, hulist⟩ := hsent.place i hi
    rw [Option.mem_def.mp hc, Option.some.injEq] at hc'
    rw [hb, Option.some.injEq] at hu
    subst hc' hu
    obtain ⟨field, hfield⟩ := List.mem_iff_getElem?.mp hmem
    rw [← hulist, ← hlist] at hfield
    obtain ⟨v, hv, -⟩ := generateVarList_field hgen hfield
    obtain ⟨sub, chain, hfound, -⟩ := generateVar_eq_some_iff.mp hv
    rw [hnames.fieldSubformat, hsent.fieldSubformat_top hi hne hsub] at hfound
    cases hfound
  · intro c hc fmField hmem hsub hbase i hi hne
    rw [← Bool.not_eq_true]
    intro hnamed
    have hzero := hsent.sentOrder.zero_mem
    have hlast := hsent.lastNamed_eq_some hi hne hnamed
    obtain ⟨l, b, b', b'', hb, hlist, hnames, hgen, hfilled⟩ := passedAt_sent hpass (hlt hzero)
    rw [hsent.sentOrder.idxOf_zero] at hgen hfilled
    obtain ⟨c', u, hc', hu, -, hulist⟩ := hsent.place 0 hzero
    rw [Option.mem_def.mp hc, Option.some.injEq] at hc'
    rw [hb, Option.some.injEq] at hu
    subst hc' hu
    obtain ⟨field, hfield⟩ := List.mem_iff_getElem?.mp hmem
    have hfield' := hfield
    rw [← hulist, ← hlist] at hfield'
    rw [← hnames.lastNamed] at hlast
    have hrefilled := refillVars_top hgen hfield' (fieldSubformat_unknown hsub) hbase hlast
    -- the top format keeps its place and cannot stand for a place behind it
    obtain ⟨below, horder⟩ := topoOrderSubformats_eq_cons filled
    rw [horder] at hload
    have hbubbled := congrArg (·[0]?) (bubbleLoaded_unflagged (reorder filled (0 :: below)))
    split at hload
    · cases hload
    · next top subformats heq =>
      simp only [Option.pure_def, Option.some.injEq] at hload
      subst hload
      simp only [heq, List.getElem?_map, reorder_top hfilled, List.getElem?_cons_zero,
        Option.map_some, Option.some.injEq] at hbubbled
      have hsubs := congrArg FMFormatBody.fieldSubformats hbubbled
      have hvalues := congrArg (·[0]?) hsame
      simp only [FMFormat.bodies, List.map_cons, List.getElem?_cons_zero, Option.some.injEq,
        FMFormatBody.derivedValues, Prod.mk.injEq] at hvalues
      have hregistered := h.fieldSubformats hzero (g := f.top)
        (by rw [hsent.sentOrder.idxOf_zero]; rfl)
      have hleft : top.fieldSubformats[field]? = some ((0 :: below).idxOf?
          ((sendOrder copied).idxOf i)) := by
        rw [show top.fieldSubformats = (refillVars _ _ 0 b').fieldSubformats.map _ from hsubs]
        rw [List.getElem?_map, hrefilled, Option.map_some, Option.bind_some]
      have hright : f.top.fieldSubformats[field]? = some (some 0) := by
        rw [hregistered, fieldReferences, Option.mem_def.mp hc]
        dsimp only
        rw [List.getElem?_map, List.getElem?_map, hfield, Option.map_some, Option.map_some, hsub,
          Option.join_some, Option.map_some, hsent.sentOrder.idxOf_zero]
      rw [hvalues.1, hright, Option.some.injEq] at hleft
      have hplace : (sendOrder copied).idxOf i ≠ 0 :=
        fun hzero => hne ((hsent.sentOrder.idxOf_eq_zero hi).mp hzero)
      rw [List.idxOf?_cons, if_neg (by simpa using hplace.symm)] at hleft
      cases hidx : below.idxOf? ((sendOrder copied).idxOf i) with
      | none => simp [hidx] at hleft
      | some k => simp [hidx] at hleft

/-- Expanded formats get the derived values of the registration exactly if names lead to the
same formats and the order of derivation makes no difference. -/
theorem Registration.loaded_iff
    (h : Registration columnMajor ignoreDefaultValues structList f copied derived aligned) :
    (∃ g, deriveLoaded f.underived = some g ∧
      g.bodies.map FMFormatBody.derivedValues = f.bodies.map FMFormatBody.derivedValues) ↔
        NamesAgree copied ∧ RecursionAgrees copied := by
  have hbase : ∀ {i}, i ∈ sendOrder copied → ∃ c, copied[i]? = some c :=
    fun hi => ⟨_, List.getElem?_eq_getElem (h.sent.lt _ hi)⟩
  constructor
  · rintro ⟨g, hload, hsame⟩
    have hagree := namesAgree_of_loaded h hload hsame
    obtain ⟨filled, g', hfilled, hload', hkept, hvariant⟩ :=
      exists_loaded h.sentAs hagree h.derivable rfl h.length_sent_lt
    rw [hload, Option.some.injEq] at hload'
    subst hload'
    have hvalues : ∀ i ∈ sendOrder copied, _ := fun i hi => by
      have hi' := congrArg (·[(sendOrder copied).idxOf i]?) hsame
      simpa only [List.getElem?_map] using hi'
    refine ⟨hagree, fun i hi => ?_, fun i hi c hc => ?_⟩
    · obtain ⟨c, hc⟩ := hbase hi
      exact ((derivedValues_eq_iff h hagree hfilled hkept hvariant hi hc).mp (hvalues i hi)).1
    · exact ((derivedValues_eq_iff h hagree hfilled hkept hvariant hi hc).mp (hvalues i hi)).2
  · rintro ⟨hagree, hrecursion⟩
    obtain ⟨filled, g, hfilled, hload, hkept, hvariant⟩ :=
      exists_loaded h.sentAs hagree h.derivable rfl h.length_sent_lt
    refine ⟨g, hload, List.ext_getElem? fun k => ?_⟩
    have hlength : g.bodies.length = f.bodies.length := by
      have hlength := congrArg List.length hkept
      rwa [List.length_map, List.length_map, hfilled.length_eq, FMFormat.bodies_underived,
        List.length_map] at hlength
    rw [List.getElem?_map, List.getElem?_map]
    by_cases hk : k < f.bodies.length
    · obtain ⟨i, hi, rfl⟩ := h.sentAs.exists_place (show k < f.underived.bodies.length by
        rwa [FMFormat.bodies_underived, List.length_map])
      obtain ⟨c, hc⟩ := hbase hi
      exact (derivedValues_eq_iff h hagree hfilled hkept hvariant hi hc).mpr
        ⟨hrecursion.recursive i hi, hrecursion.noted i hi c hc⟩
    · rw [List.getElem?_eq_none (by omega), List.getElem?_eq_none (by omega)]

end

/-! ## Representations -/

section
variable {columnMajor ignoreDefaultValues : Bool} {structList : List FMStructDesc} {f : FMFormat}

theorem loadAgrees_iff_of_repRoundTrips (h : RepRoundTrips f) :
    LoadAgrees f ↔ ∃ g, deriveLoaded f.underived = some g ∧
      g.bodies.map FMFormatBody.derivedValues = f.bodies.map FMFormatBody.derivedValues := by
  obtain ⟨rep, -, hbuild, hexpand, -⟩ := h
  have hload : loadFormat rep = deriveLoaded f.underived := bind_eq_of_eq_some hexpand rfl
  constructor
  · rintro ⟨rep', g, hbuild', hload', hsame⟩
    rw [hbuild, Option.some.injEq] at hbuild'
    subst hbuild'
    rw [hload] at hload'
    exact ⟨g, hload', hsame⟩
  · rintro ⟨g, hderive, hsame⟩
    exact ⟨rep, g, hbuild, hload.trans hderive, hsame⟩

/-- Loading what was registered agrees with the registration exactly if names lead to the
same formats and the order of derivation makes no difference. -/
theorem registerFormats_loadAgrees_iff
    (h : registerFormats columnMajor ignoreDefaultValues structList = some f)
    (hfit : ∀ b ∈ f.bodies, OffsetsFit b) (htotal : formatRepSize f < 2 ^ 32) :
    LoadAgrees f ↔ ∃ copied,
      structList.mapM (newFormat columnMajor ignoreDefaultValues) = some copied ∧
        NamesAgree copied ∧ RecursionAgrees copied := by
  obtain ⟨copied, derived, aligned, hstages⟩ := registration_of_some h
  have hcount := hstages.length_lt
  rw [topoArraySize] at hcount
  have htrips := repRoundTrips_of_host hstages.host (by omega) hfit htotal
  rw [loadAgrees_iff_of_repRoundTrips htrips, hstages.loaded_iff]
  constructor
  · intro hagree
    exact ⟨copied, hstages.copied_eq, hagree⟩
  · rintro ⟨copied', hcopied, hagree⟩
    rw [hstages.copied_eq, Option.some.injEq] at hcopied
    subst hcopied
    exact hagree

theorem registerFormats_loadAgrees_path : LoadAgrees pathFormat ∧ ∃ copied,
    pathList.mapM (newFormat false false) = some copied ∧
      NamesAgree copied ∧ RecursionAgrees copied := by
  have hloads : (buildServerFormatRep pathFormat).any (fun rep => (loadFormat rep).any fun g =>
      g.bodies.map FMFormatBody.derivedValues = pathFormat.bodies.map FMFormatBody.derivedValues) =
        true := by decide +kernel
  obtain ⟨rep, hrep, hloads⟩ := (Option.any_eq_true _ _).mp hloads
  obtain ⟨g, hg, hsame⟩ := (Option.any_eq_true _ _).mp hloads
  have hagrees : LoadAgrees pathFormat := ⟨rep, g, hrep, hg, of_decide_eq_true hsame⟩
  exact ⟨hagrees, (registerFormats_loadAgrees_iff registerFormats_pathList pathFormat_offsetsFit
    (by decide)).mp hagrees⟩

/-! ## A list on which they disagree -/

/-- A pointer to a record of the format `s`. -/
def linkField : FMField :=
  { fieldName := cstr ['x'] (.refl false), fieldType := cstr ['*', 's'] (.refl false),
    fieldSize := 8, fieldOffset := 0 }

/-- A list whose top format points to a format that points to itself. -/
def linkList : List FMStructDesc :=
  [{ formatName := cstr ['t'] (.refl false), fieldList := [linkField], structSize := 8,
     optInfo := [] },
   { formatName := cstr ['s'] (.refl false), fieldList := [linkField], structSize := 8,
     optInfo := [] }]

/-- Registration derives `s` first and makes the top format recursive.  Loading derives the
top format first. -/
theorem registerFormats_not_loadAgrees : ∃ f, registerFormats false false linkList = some f ∧
    (∀ b ∈ f.bodies, OffsetsFit b) ∧ formatRepSize f < 2 ^ 32 ∧ ¬ LoadAgrees f := by
  obtain ⟨f, g, hf, hload, htop, htop', hinfo, htable, hlength, htotal⟩ : ∃ f g,
      registerFormats false false linkList = some f ∧ deriveLoaded f.underived = some g ∧
      f.top.recursive = true ∧ g.top.recursive = false ∧ (∀ b ∈ f.bodies, b.optInfo = []) ∧
      (∀ b ∈ f.bodies, optInfoOffset b < 2 ^ 31) ∧ f.subformats.length = 1 ∧
      formatRepSize f < 2 ^ 32 :=
    ⟨_, _, rfl, rfl, by decide, by decide, by decide, by decide, by decide, by decide⟩
  have hfit : ∀ b ∈ f.bodies, OffsetsFit b := by
    intro b hb
    refine ⟨htable b hb, fun k hk => ?_⟩
    rw [hinfo b hb] at hk
    exact absurd hk (Nat.not_lt_zero k)
  obtain ⟨copied, derived, aligned, hstages⟩ := registration_of_some hf
  have htrips := repRoundTrips_of_host hstages.host (by omega) hfit htotal
  refine ⟨f, hf, hfit, htotal, fun hagree => ?_⟩
  obtain ⟨g', hload', hsame⟩ := (loadAgrees_iff_of_repRoundTrips htrips).mp hagree
  rw [hload, Option.some.injEq] at hload'
  subst hload'
  have hvalues := congrArg (·[0]?) hsame
  simp only [FMFormat.bodies, List.map_cons, List.getElem?_cons_zero, Option.some.injEq,
    FMFormatBody.derivedValues, Prod.mk.injEq] at hvalues
  rw [hvalues.2.2.1, htop] at htop'
  cases htop'

end

end FFS
