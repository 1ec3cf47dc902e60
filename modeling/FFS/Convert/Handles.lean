import FFS.Convert.Targets

/-!
# The handles of a context

A handle stays where it is, with its format, whatever is decided on it, and new formats come behind
those that a context has.
-/

namespace FFS

open Machine

/-! ## Handles -/

namespace FFSContext

theorem handle_expand (c : FFSContext) (index i : Nat) :
    (c.expand index).handle i = c.handle i := by
  unfold handle expand
  rw [List.getElem?_append]
  split
  · rfl
  · next hi =>
    rw [List.getElem?_eq_none (Nat.le_of_not_lt hi), List.getElem?_replicate]
    split <;> rfl

theorem fixedTargets_expand (c : FFSContext) (index : Nat) :
    (c.expand index).fixedTargets = c.fixedTargets := by
  unfold fixedTargets expand
  rw [List.filterMap_append, List.filterMap_replicate_of_none rfl, List.append_nil]

theorem slot_of_handle {c : FFSContext} {i : Nat} {handle : FFSTypeHandle}
    (h : c.handle i = some handle) : c.handleList[i]? = some (some handle) := by
  obtain ⟨slot, hslot, h⟩ := Option.bind_eq_some_iff.mp h
  rw [hslot, show slot = some handle from h]

theorem handle_setHandle {c : FFSContext} {i : Nat} (hi : i < c.handleList.length)
    (handle : FFSTypeHandle) (j : Nat) :
    (c.setHandle i handle).handle j = if i = j then some handle else c.handle j := by
  unfold FFSContext.handle setHandle
  rw [List.getElem?_set]
  split
  · rfl
  · rfl

/-- A list that is looked at through a function, with one element put back. -/
theorem fixedTargets_setHandle {c : FFSContext} {i : Nat} {slot : Option FFSTypeHandle}
    {handle : FFSTypeHandle} (look : Option FFSTypeHandle → Option StoredFormat)
    (hslot : c.handleList[i]? = some slot) (hsame : look (some handle) = look slot) :
    (c.setHandle i handle).handleList.filterMap look = c.handleList.filterMap look := by
  have hmap := map_set_of_eq look hslot hsame
  have hfilter := congrArg (List.filterMap id) hmap
  rw [List.filterMap_map, List.filterMap_map] at hfilter
  exact hfilter

/-- New handles change nothing that was there. -/
structure Extends (c c' : FFSContext) : Prop where
  fmc : c'.fmc = c.fmc
  targets : c'.fixedTargets = c.fixedTargets
  old : ∀ {i : Nat} {handle : FFSTypeHandle}, c.handle i = some handle → c'.handle i = some handle
  new : ∀ {i : Nat} {handle : FFSTypeHandle}, c'.handle i = some handle →
    c.handle i = some handle ∨ ∃ body, c.fmc.formatList[i]? = some body ∧ handle = newHandle body

/-- The handle of an index that has a format, new if there was none. -/
theorem typeHandleByIndex_spec {c : FFSContext} {index : Nat} {body : StoredFormat}
    (hbody : c.fmc.formatList[index]? = some body) :
    ∃ c', c.typeHandleByIndex index = (c', some ((c.handle index).getD (newHandle body))) ∧
      Extends c c' ∧ c'.handle index = some ((c.handle index).getD (newHandle body)) := by
  have hexpand : Extends c (c.expand index) :=
    { fmc := rfl
      targets := fixedTargets_expand c index
      old := fun h => (handle_expand c index _).trans h
      new := fun h => .inl ((handle_expand c index _).symm.trans h) }
  unfold typeHandleByIndex
  dsimp only
  cases hold : (c.expand index).handle index with
  | some handle =>
    have hhandle : c.handle index = some handle := (handle_expand c index index).symm.trans hold
    rw [hhandle]
    exact ⟨c.expand index, rfl, hexpand, hold⟩
  | none =>
    have hhandle : c.handle index = none := (handle_expand c index index).symm.trans hold
    have hlength : index < (c.expand index).handleList.length := by
      simp only [expand, List.length_append, List.length_replicate]
      omega
    have hslot : (c.expand index).handleList[index]? = some none := by
      have hbind : ((c.expand index).handleList[index]?).bind id = none := hold
      rw [List.getElem?_eq_getElem hlength] at hbind ⊢
      exact congrArg some hbind
    have hfmc : (c.expand index).fmc.formatList[index]? = some body := hbody
    rw [hfmc, hhandle]
    refine ⟨_, rfl, ⟨rfl, ?_, ?_, ?_⟩, ?_⟩
    · rw [← fixedTargets_expand c index]
      exact fixedTargets_setHandle _ hslot rfl
    · intro i handle h
      rw [handle_setHandle hlength, if_neg, handle_expand, h]
      rintro rfl
      rw [hhandle] at h
      cases h
    · intro i handle h
      rw [handle_setHandle hlength] at h
      split at h
      · next hi =>
        subst hi
        exact .inr ⟨body, hbody, (Option.some.inj h).symm⟩
      · exact .inl ((handle_expand c index i).symm.trans h)
    · rw [handle_setHandle hlength, if_pos rfl]
      rfl
/-- The targets stay when a handle is put back with its format and its mark. -/
theorem fixedTargets_of_same {c : FFSContext} {i : Nat} {handle handle' : FFSTypeHandle}
    (hhandle : c.handle i = some handle) (hbody : handle'.body = handle.body)
    (hfixed : handle'.isFixedTarget = handle.isFixedTarget) :
    (c.setHandle i handle').fixedTargets = c.fixedTargets := by
  refine fixedTargets_setHandle _ (slot_of_handle hhandle) ?_
  simp only [Option.bind_some, hbody, hfixed]

theorem length_of_handle {c : FFSContext} {i : Nat} {handle : FFSTypeHandle}
    (h : c.handle i = some handle) : i < c.handleList.length :=
  (List.getElem?_eq_some_iff.mp (slot_of_handle h)).1

theorem handle_setHandle_self {c : FFSContext} {i : Nat} {handle : FFSTypeHandle}
    (hhandle : c.handle i = some handle) (handle' : FFSTypeHandle) :
    (c.setHandle i handle').handle i = some handle' := by
  rw [handle_setHandle (length_of_handle hhandle), if_pos rfl]

/-! ## New formats -/

/-- Every format is at its index. -/
def Numbered (context : FMContext) : Prop :=
  ∀ (i : Nat) (entry : StoredFormat), context.formatList[i]? = some entry → entry.formatIndex = i

/-- What registering or loading a format does to the list. -/
def Entered (context context' : FMContext) (entry : StoredFormat) : Prop :=
  (context' = context ∧ entry ∈ context.formatList) ∨
    (context' = { context with formatList := context.formatList ++ [entry] } ∧
      entry.formatIndex = context.formatList.length)

theorem Entered.numbered {context context' : FMContext} {entry : StoredFormat}
    (h : Entered context context' entry) (hnumbered : Numbered context) : Numbered context' := by
  rcases h with ⟨rfl, -⟩ | ⟨rfl, hindex⟩
  · exact hnumbered
  · intro i e he
    rw [List.getElem?_append] at he
    split at he
    · exact hnumbered i e he
    · next hi =>
      rw [List.getElem?_singleton] at he
      split at he
      · cases he
        omega
      · cases he

theorem Entered.old {context context' : FMContext} {entry e : StoredFormat} {i : Nat}
    (h : Entered context context' entry) (he : context.formatList[i]? = some e) :
    context'.formatList[i]? = some e := by
  rcases h with ⟨rfl, -⟩ | ⟨rfl, -⟩
  · exact he
  · rw [List.getElem?_append_left (List.getElem?_eq_some_iff.mp he).1, he]

theorem Entered.subset {context context' : FMContext} {entry : StoredFormat}
    (h : Entered context context' entry) : context.formatList ⊆ context'.formatList := by
  rcases h with ⟨rfl, -⟩ | ⟨rfl, -⟩
  · exact List.Subset.refl _
  · exact List.subset_append_left _ _

theorem Entered.entry {context context' : FMContext} {entry : StoredFormat}
    (h : Entered context context' entry) (hnumbered : Numbered context) :
    context'.formatList[entry.formatIndex]? = some entry := by
  rcases h with ⟨rfl, hmem⟩ | ⟨rfl, hindex⟩
  · obtain ⟨i, hi⟩ := List.mem_iff_getElem?.mp hmem
    rw [hnumbered i entry hi, hi]
  · rw [hindex, List.getElem?_concat_length]

theorem entered_of_load {context context' : FMContext} {id rep : List UInt8} {memory : FMFormat}
    {entry : StoredFormat} (h : loadExternalFormat memory context id rep = some (context', entry)) :
    Entered context context' entry := by
  unfold loadExternalFormat at h
  cases hsearch : getLocalFormat context id with
  | some found =>
    rw [hsearch] at h
    cases h
    exact .inl ⟨rfl, List.mem_reverse.mp (List.mem_of_find?_eq_some hsearch)⟩
  | none =>
    rw [hsearch] at h
    obtain ⟨f, -, h⟩ := Option.map_eq_some_iff.mp h
    cases h
    exact .inr ⟨rfl, rfl⟩

end FFSContext

end FFS
