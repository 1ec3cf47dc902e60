import FFS.Convert.Handles
import FFS.File.StreamCalls

/-!
# The formats that a raw reader has met

Behind some records a reader's context has the formats of the format records among them, each under
its identifier.  With no targets set no message is converted, whatever prior formats a format names.
-/

namespace FFS

open Machine FFSContext

variable {ignoreDefaultValues : Bool}
  {strToVal : List UInt8 → FMDataType → Int32 → Option (List UInt8)}

/-! ## Without targets -/

theorem priorsCmp_nil (m : FormatMemory) (depth : Nat) (compats : List (Option StoredFormat × Nat))
    (best : (Option Nat × Option Nat) × FormatDiff) :
    m.priorsCmp depth [] compats best = some best := by
  induction compats with
  | nil => rfl
  | cons compat compats ih =>
    obtain ⟨⟨nearest, older⟩, compResult⟩ := best
    obtain ⟨_ | prior, k⟩ := compat
    · rfl
    · rw [FormatMemory.priorsCmp, List.zipIdx_nil, FormatMemory.listCmp]
      simp only [Option.bind_eq_bind, Option.bind_some, Option.isSome_none, Bool.false_eq_true,
        if_false]
      split
      · rfl
      · exact ih

/-- The blocks of prior formats are gone through without a match. -/
theorem compatCmp_nil (m : FormatMemory) (depth : Nat) (context : FMContext)
    {format : StoredFormat} (hpriors : PriorsNamed format.format) :
    m.compatCmp depth context format [] = some (none, none) := by
  obtain ⟨compats, hcompats⟩ : ∃ compats, compatFormats context format.format.top =
      some compats := by
    refine exists_mapM_eq_some fun info hinfo => ?_
    simp only [List.mem_filter, decide_eq_true_eq] at hinfo
    obtain ⟨n, hn, height, hle⟩ := hpriors info hinfo.1 hinfo.2
    refine ⟨formatFromID context info.infoBlock, ?_⟩
    simp only [priorFormat, guard, if_pos height, hn, if_pos hle, Option.bind_eq_bind,
      Option.pure_def, Option.bind_some]
  simp only [FormatMemory.compatCmp, List.zipIdx_nil, FormatMemory.listCmp, Option.isSome_none,
    Bool.false_eq_true, false_and, if_false, hcompats, Option.bind_eq_bind, Option.bind_some,
    priorsCmp_nil]
  split <;> rfl

/-! ## Identifiers -/

theorem idShortcut_of_proper {id : List UInt8} (h : ProperID id) :
    idShortcut false id id = true := by
  unfold idShortcut
  rcases h.length with ⟨hversion, -⟩ | ⟨hversion, -⟩ | ⟨hversion, -⟩
  · rw [hversion]
    rfl
  · rw [hversion]
    exact decide_eq_true rfl
  · rw [hversion]
    exact decide_eq_true rfl

/-- What a search finds has the identifier that is searched for. -/
theorem serverID_of_search {context : FMContext} {signedIdentifier : Bool} {id : List UInt8}
    {e : StoredFormat} (hproper : ∀ e ∈ context.formatList, ProperID e.serverID)
    (hid : ProperID id) (h : searchByID signedIdentifier context id = some e) :
    e ∈ context.formatList ∧ e.serverID = id := by
  have hmem := List.mem_reverse.mp (List.mem_of_find?_eq_some h)
  have htake : id.take e.serverID.length = e.serverID := by
    have hfound := List.find?_some h
    simp only [Bool.and_eq_true, decide_eq_true_eq] at hfound
    exact hfound.2
  refine ⟨hmem, ?_⟩
  have hmember := (hproper e hmem).length
  have hlength := hid.length
  have hsplit : e.serverID ++ id.drop e.serverID.length = id := by
    conv_lhs => arg 1; rw [← htake]
    exact List.take_append_drop _ _
  have hversion := versionOfFormatID_append (show 8 ≤ e.serverID.length by omega)
    (id.drop e.serverID.length)
  rw [hsplit] at hversion
  rw [← htake, List.take_of_length_le (by omega)]

/-! ## Contexts -/

/-- A context behind some records. -/
structure Acquainted (formats : List WrittenFormat) (items : List StreamItem) (c : FFSContext) :
    Prop where
  numbered : Numbered c.fmc
  stored : ∀ e ∈ c.fmc.formatList, ∃ format ∈ formats, ∃ f, format.LoadsAs f ∧
    e = format.entry f e.formatIndex
  met : ∀ format ∈ formats, .format format.serverId format.serverRep ∈ items →
    ∃ e ∈ c.fmc.formatList, e.serverID = format.serverId
  body : ∀ {i : Nat} {handle : FFSTypeHandle},
    c.handle i = some handle → c.fmc.formatList[i]? = some handle.body
  plain : ∀ {i : Nat} {handle : FFSTypeHandle},
    c.handle i = some handle → handle.status ≠ .conversionSet
  noTargets : c.fixedTargets = []

theorem acquainted_create (formats : List WrittenFormat) (columnMajor : Bool) :
    Acquainted formats [] (FFSContext.create ⟨[], columnMajor⟩) where
  numbered := fun i entry h => by cases h
  stored := List.forall_mem_nil _
  met := fun format _ h => absurd h List.not_mem_nil
  body := fun h => by cases h
  plain := fun h => by cases h
  noTargets := rfl

namespace Acquainted

variable {formats : List WrittenFormat} {items : List StreamItem} {c c' : FFSContext}

theorem proper (h : Acquainted formats items c) : ProperContext c := by
  intro e he
  obtain ⟨format, -, f, hloads, heq⟩ := h.stored e he
  rw [heq]
  exact hloads.proper

theorem behind (h : Acquainted formats items c) {item : StreamItem}
    (hitem : ∀ id rep, item ≠ .format id rep) : Acquainted formats (items ++ [item]) c :=
  { h with
    met := fun format hformat hmem => by
      rcases List.mem_append.mp hmem with hmem | hmem
      · exact h.met format hformat hmem
      · exact absurd (List.mem_singleton.mp hmem).symm (hitem _ _) }

theorem grown (h : Acquainted formats items c) (hextends : Extends c c') :
    Acquainted formats items c' where
  numbered := by
    rw [hextends.fmc]
    exact h.numbered
  stored := by
    rw [hextends.fmc]
    exact h.stored
  met := by
    rw [hextends.fmc]
    exact h.met
  body := by
    intro i handle hhandle
    rw [hextends.fmc]
    rcases hextends.new hhandle with hold | ⟨body, hbody, rfl⟩
    · exact h.body hold
    · exact hbody
  plain := by
    intro i handle hhandle
    rcases hextends.new hhandle with hold | ⟨body, -, rfl⟩
    · exact h.plain hold
    · exact ConversionStatus.noConfusion
  noTargets := hextends.targets.trans h.noTargets

/-- The entry of an identifier is that of its format. -/
theorem entry_eq (h : Acquainted formats items c) (happart : FormatsApart formats)
    {format : WrittenFormat} (hformat : format ∈ formats) {f : FMFormat}
    (hloads : format.LoadsAs f) {e : StoredFormat} (he : e ∈ c.fmc.formatList)
    (hid : e.serverID = format.serverId) : e = format.entry f e.formatIndex := by
  obtain ⟨format', hformat', f', hloads', heq⟩ := h.stored e he
  have hsame : format' = format := by
    refine happart format' hformat' format hformat (.inr ?_)
    rw [← hid, heq]
    rfl
  subst hsame
  cases Option.some.inj (hloads.loads.symm.trans hloads'.loads)
  exact heq

/-- A format that was met is found. -/
theorem finds (h : Acquainted formats items c) (happart : FormatsApart formats)
    {format : WrittenFormat} (hformat : format ∈ formats) {f : FMFormat}
    (hloads : format.LoadsAs f) (hmet : .format format.serverId format.serverRep ∈ items) :
    ∃ e, formatFromID c.fmc format.serverId = some e ∧
      c.fmc.formatList[e.formatIndex]? = some e ∧ e = format.entry f e.formatIndex := by
  obtain ⟨e₀, he₀, hid₀⟩ := h.met format hformat hmet
  cases hfound : formatFromID c.fmc format.serverId with
  | none =>
    have hnot := List.find?_eq_none.mp hfound e₀ (List.mem_reverse.mpr he₀)
    rw [hid₀, idShortcut_of_proper hloads.proper, List.take_length] at hnot
    exact absurd (decide_eq_true rfl) hnot
  | some e =>
    obtain ⟨hmem, hid⟩ := serverID_of_search h.proper hloads.proper hfound
    obtain ⟨i, hi⟩ := List.mem_iff_getElem?.mp hmem
    have hindex := h.numbered i e hi
    exact ⟨e, rfl, by rw [hindex]; exact hi, h.entry_eq happart hformat hloads hmem hid⟩

/-- The context behind a format record that was loaded. -/
theorem entered (h : Acquainted formats items c) {format : WrittenFormat}
    (hformat : format ∈ formats) {f : FMFormat} (hloads : format.LoadsAs f) {fmc : FMContext}
    {e : StoredFormat} (hentered : Entered c.fmc fmc e) (he : e = format.entry f e.formatIndex) :
    Acquainted formats (items ++ [.format format.serverId format.serverRep]) { c with fmc } where
  numbered := hentered.numbered h.numbered
  stored := by
    intro x hx
    rcases hentered with ⟨rfl, -⟩ | ⟨rfl, -⟩
    · exact h.stored x hx
    · rcases List.mem_append.mp hx with hx | hx
      · exact h.stored x hx
      · rw [List.mem_singleton.mp hx]
        exact ⟨format, hformat, f, hloads, he⟩
  met := by
    intro other hother hmem
    rcases List.mem_append.mp hmem with hmem | hmem
    · obtain ⟨x, hx, hid⟩ := h.met other hother hmem
      exact ⟨x, hentered.subset hx, hid⟩
    · have hsame := List.mem_singleton.mp hmem
      injection hsame with hid
      refine ⟨e, ?_, ?_⟩
      · rcases hentered with ⟨rfl, hin⟩ | ⟨rfl, -⟩
        · exact hin
        · exact List.mem_append_right _ (List.mem_singleton_self e)
      · rw [he, hid]
        rfl
  body := fun hhandle => hentered.old (h.body hhandle)
  plain := h.plain
  noTargets := h.noTargets

/-- A format record is taken in. -/
theorem loads (h : Acquainted formats items c) (happart : FormatsApart formats)
    {format : WrittenFormat} (hformat : format ∈ formats) {f : FMFormat}
    (hloads : format.LoadsAs f) :
    ∃ fmc e c' handle, loadDerivedFormat c.fmc format.serverId format.serverRep = some (fmc, e) ∧
      { c with fmc }.typeHandleByIndex e.formatIndex = (c', some handle) ∧
      c'.handle e.formatIndex = some handle ∧ handle.body = format.entry f e.formatIndex ∧
      Acquainted formats (items ++ [.format format.serverId format.serverRep]) c' := by
  obtain ⟨fmc, e, hload, he⟩ : ∃ fmc e,
      loadDerivedFormat c.fmc format.serverId format.serverRep = some (fmc, e) ∧
        e = format.entry f e.formatIndex := by
    unfold loadDerivedFormat
    cases hsearch : getLocalFormat c.fmc format.serverId with
    | some e =>
      obtain ⟨hmem, hid⟩ := serverID_of_search h.proper hloads.proper hsearch
      exact ⟨c.fmc, e, rfl, h.entry_eq happart hformat hloads hmem hid⟩
    | none =>
      rw [hloads.loads]
      exact ⟨_, _, rfl, rfl⟩
  have hentered := entered_of_load (loadExternalFormat_of_derived hload f)
  have hnext := h.entered hformat hloads hentered he
  obtain ⟨c', hc', hextends, hhandle⟩ := typeHandleByIndex_spec (c := { c with fmc })
    (hentered.entry h.numbered)
  have hbody := (hnext.grown hextends).body hhandle
  rw [hextends.fmc, hentered.entry h.numbered] at hbody
  refine ⟨fmc, e, c', _, hload, hc', hhandle, ?_, hnext.grown hextends⟩
  rw [← Option.some.inj hbody]
  exact he

/-- A handle is marked as one without a target. -/
theorem marked (h : Acquainted formats items c) {i : Nat} {handle : FFSTypeHandle}
    (hhandle : c.handle i = some handle) :
    Acquainted formats items (c.setHandle i { handle with status := .noneAvailable }) where
  numbered := h.numbered
  stored := h.stored
  met := h.met
  body := by
    intro j other hother
    rw [handle_setHandle (length_of_handle hhandle)] at hother
    split at hother
    · next hij =>
      subst hij
      cases hother
      have hbody := h.body hhandle
      exact hbody
    · exact h.body hother
  plain := by
    intro j other hother
    rw [handle_setHandle (length_of_handle hhandle)] at hother
    split at hother
    · cases hother
      exact ConversionStatus.noConfusion
    · exact h.plain hother
  noTargets := by
    have hsame := @fixedTargets_of_same _ _ _ { handle with status := .noneAvailable }
      hhandle rfl rfl
    exact hsame.trans h.noTargets

/-- A record of a format that was met is not converted. -/
theorem decides (h : Acquainted formats items c) (happart : FormatsApart formats)
    {format : WrittenFormat} (hformat : format ∈ formats) {f : FMFormat}
    (hloads : format.LoadsAs f) (hmet : .format format.serverId format.serverRep ∈ items) :
    ∃ c₁ c' i handle, c.typeHandleFromEncode format.serverId = (c₁, some i) ∧
      c₁.targetFromEncode ignoreDefaultValues strToVal format.serverId = some (c', none) ∧
      c'.handle i = some handle ∧ handle.body = format.entry f i ∧
      Acquainted formats items c' := by
  obtain ⟨e, hfound, hentry, he⟩ := h.finds happart hformat hloads hmet
  obtain ⟨c₁, hc₁, hextends, hhandle⟩ := typeHandleByIndex_spec hentry
  have hnext := h.grown hextends
  generalize (c.handle e.formatIndex).getD (newHandle e) = handle at hc₁ hhandle
  have hfrom : c.typeHandleFromEncode format.serverId = (c₁, some e.formatIndex) := by
    unfold typeHandleFromEncode
    rw [hfound]
    dsimp only
    rw [hc₁]
    rfl
  have hbody : handle.body = e := by
    have hbody := hnext.body hhandle
    rw [hextends.fmc, hentry] at hbody
    exact (Option.some.inj hbody).symm
  have hagain := typeHandleFromEncode_again hfrom
  have hstatus := hnext.plain hhandle
  have hpriors : PriorsNamed handle.body.format := by
    rw [hbody, he]
    exact hloads.priors
  have hdetermine : ∃ c' handle', c₁.determineIfNotChecked ignoreDefaultValues strToVal
      e.formatIndex = some c' ∧ c'.handle e.formatIndex = some handle' ∧
        handle'.status = .noneAvailable ∧ handle'.body = handle.body ∧
        Acquainted formats items c' := by
    simp only [determineIfNotChecked, hhandle, Option.bind_eq_bind, Option.bind_some]
    cases hs : handle.status with
    | notChecked =>
      rw [if_pos rfl]
      simp only [determineConversion, hhandle, hnext.noTargets, List.map_nil,
        compatCmp_nil _ _ _ hpriors, Option.bind_eq_bind, Option.bind_some, Option.bind_none]
      exact ⟨_, _, rfl, handle_setHandle_self hhandle _, rfl, rfl, hnext.marked hhandle⟩
    | conversionSet => exact absurd hs hstatus
    | noneAvailable =>
      rw [if_neg ConversionStatus.noConfusion]
      exact ⟨c₁, handle, rfl, hhandle, hs, rfl, hnext⟩
  obtain ⟨c', handle', hc', hhandle', hs', hbody', hknown⟩ := hdetermine
  refine ⟨c₁, c', e.formatIndex, handle', hfrom, ?_, hhandle', ?_, hknown⟩
  · unfold targetFromEncode
    rw [hagain]
    simp only [hc', hhandle', hs', Option.bind_eq_bind, Option.bind_some]
    rfl
  · rw [hbody', hbody]
    exact he

end Acquainted

end FFS
