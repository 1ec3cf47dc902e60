import Mathlib.Data.Finset.Card
import FFS.Dump.Records

/-!
# The message and the record print alike

The two walks keep lists of the same records.  A walk comes to an end because a pointer that is
followed is new in the list, or leads to a place from which the way is shorter.
-/

namespace FFS
namespace RecordDump

open Machine

/-! ## One step of a walk -/

section

variable {ctx : DumpContext} {fuel : Nat} {s : DumpSpot} {l l' : List AddrListEntry}
  {t : FMTypeDesc} {next : List FMTypeDesc}

theorem dump_null (hchain : s.chain = t :: next) (htype : t.type = .pointer)
    (hptr : quickGetPointer ctx.memory s.body.pointerSize s.body.byteReversal s.address = some 0) :
    dumpSubfieldAt ctx (fuel + 1) s l = some (.null, l) := by
  rw [dumpSubfieldAt, hchain]
  simp only [htype]
  exact bind_eq_of_eq_some hptr (if_pos rfl)

theorem dump_visited {v : Nat} (hchain : s.chain = t :: next) (htype : t.type = .pointer)
    (hptr : quickGetPointer ctx.memory s.body.pointerSize s.body.byteReversal s.address = some v)
    (hv : v ≠ 0)
    (hvisited : s.body.recursive ∧ (searchAddrList l (ctx.pointed v).addr).isSome) :
    dumpSubfieldAt ctx (fuel + 1) s l = some (.visited (UInt64.ofNat v), l) := by
  rw [dumpSubfieldAt, hchain]
  simp only [htype]
  refine bind_eq_of_eq_some hptr ?_
  rw [if_neg hv, if_pos hvisited]
  rfl

theorem dump_pointer {v : Nat} {value : DumpValue} (hchain : s.chain = t :: next)
    (htype : t.type = .pointer)
    (hptr : quickGetPointer ctx.memory s.body.pointerSize s.body.byteReversal s.address = some v)
    (hv : v ≠ 0)
    (hnew : ¬ (s.body.recursive ∧ (searchAddrList l (ctx.pointed v).addr).isSome))
    (hvalue : dumpSubfieldAt ctx fuel ⟨s.body, next, (ctx.pointed v).addr, s.parentBase⟩
      (if s.body.recursive then l ++ [ctx.pointed v] else l) = some (value, l')) :
    dumpSubfieldAt ctx (fuel + 1) s l = some (.pointer (UInt64.ofNat v) value, l') := by
  rw [dumpSubfieldAt, hchain]
  simp only [htype]
  refine bind_eq_of_eq_some hptr ?_
  rw [if_neg hv, if_neg hnew]
  exact bind_eq_of_eq_some hvalue rfl

theorem dump_nullString (hchain : s.chain = t :: next) (htype : t.type = .string)
    (hptr : quickGetPointer ctx.memory s.body.pointerSize s.body.byteReversal s.address = some 0) :
    dumpSubfieldAt ctx (fuel + 1) s l = some (.string none, l) := by
  rw [dumpSubfieldAt, hchain]
  simp only [htype]
  exact bind_eq_of_eq_some hptr (if_pos rfl)

theorem dump_string {v : Nat} {text : CString} (hchain : s.chain = t :: next)
    (htype : t.type = .string)
    (hptr : quickGetPointer ctx.memory s.body.pointerSize s.body.byteReversal s.address = some v)
    (hv : v ≠ 0) (htext : ctx.memory.string (ctx.pointed v).addr = some text) :
    dumpSubfieldAt ctx (fuel + 1) s l = some (.string (some text), l) := by
  rw [dumpSubfieldAt, hchain]
  simp only [htype]
  refine bind_eq_of_eq_some hptr ?_
  rw [if_neg hv]
  exact bind_eq_of_eq_some htext rfl

theorem dump_array {elements size : Int} {rest : List FMTypeDesc} {values : List DumpValue}
    (hchain : s.chain = t :: next) (htype : t.type = .array)
    (hcount : countElements (quickControl ctx.memory s.body s.parentBase) s.chain 1 =
      some (elements, rest))
    (hsize : determineDumpSize ctx.formats s.body rest = some size)
    (hvalues : threaded (fun (i : Nat) => dumpSubfieldAt ctx fuel
      ⟨s.body, rest, elementAt s.address size i, s.parentBase⟩) (List.range elements.toNat) l =
        some (values, l')) :
    dumpSubfieldAt ctx (fuel + 1) s l = some (.array values, l') := by
  rw [hchain] at hcount
  rw [dumpSubfieldAt, hchain]
  simp only [htype]
  exact bind_eq_of_eq_some hcount (bind_eq_of_eq_some hsize (bind_eq_of_eq_some hvalues rfl))

theorem dump_subformat {sub : FMFormatBody} {f : FMField} {var : FMVarInfo}
    {fields : List DumpField} (hchain : s.chain = t :: next) (htype : t.type = .subformat)
    (hsub : subformatAt s.body ctx.formats t.fieldIndex = some sub)
    (hf : s.body.fieldList[t.fieldIndex]? = some f)
    (hvar : s.body.varList[t.fieldIndex]? = some var)
    (hfields : dumpFieldsWith (dumpSubfieldAt ctx fuel) sub s.address l = some (fields, l')) :
    dumpSubfieldAt ctx (fuel + 1) s l =
      some (.subformat f.fieldName (takesLines var.typeDesc) fields, l') := by
  rw [dumpSubfieldAt, hchain]
  simp only [htype]
  exact bind_eq_of_eq_some hsub (bind_eq_of_eq_some hf (bind_eq_of_eq_some hvar
    (bind_eq_of_eq_some hfields rfl)))

theorem dump_simple {f : FMField} {value : SimpleValue} (hchain : s.chain = t :: next)
    (htype : t.type = .simple) (hf : s.body.fieldList[t.fieldIndex]? = some f)
    (hvalue : sdumpValue ctx s.body f s.address = some value) :
    dumpSubfieldAt ctx (fuel + 1) s l = some (.simple value, l) := by
  rw [dumpSubfieldAt, hchain]
  simp only [htype]
  exact bind_eq_of_eq_some hf (bind_eq_of_eq_some hvalue rfl)

end

theorem steady_dumpSubfieldAt (ctx : DumpContext) : Steady (dumpSubfieldAt ctx) :=
  fun n s l r => dumpSubfieldAt_succ ctx n s l r

theorem steady_recordField (ctx : DumpContext) (b : FMFormatBody) (a : Nat) :
    Steady fun n => recordField (dumpSubfieldAt ctx n) b a := by
  intro n field l r h
  obtain ⟨x, hx, rfl⟩ := Option.map_eq_some_iff.mp h
  exact congrArg (Option.map _) (steady_dumpSubfieldAt ctx n _ _ _ hx)

/-- The format that a field's values have, in the record. -/
theorem subformatAt_asNative (b : FMFormatBody) (formats : List FMFormatBody) (i : Nat) :
    subformatAt (asNative b) (formats.map asNative) i = (subformatAt b formats i).map asNative := by
  have hsame : (asNative b).fieldSubformats = b.fieldSubformats := rfl
  unfold subformatAt
  rw [hsame]
  cases b.fieldSubformats[i]? with
  | none => rfl
  | some sub =>
    cases sub with
    | none => rfl
    | some j => exact List.getElem?_map

/-! ## The lists of records -/

/-- An address in a list whose offsets are proper. -/
theorem searchAddrList_isSome {l : List AddrListEntry} (h : ∀ e ∈ l, e.offset ≠ 2 ^ 64 - 1)
    (addr : Nat) : (searchAddrList l addr).isSome ↔ ∃ e ∈ l, e.addr = addr := by
  constructor
  · intro hsome
    obtain ⟨offset, hoffset⟩ := Option.isSome_iff_exists.mp hsome
    obtain ⟨e, he, -⟩ := Option.map_eq_some_iff.mp (Option.filter_eq_some_iff.mp hoffset).1
    have haddr := List.find?_some he
    exact ⟨e, List.mem_reverse.mp (List.mem_of_find?_eq_some he), of_decide_eq_true haddr⟩
  · rintro ⟨e, he, haddr⟩
    have hfound : (l.reverse.find? (·.addr = addr)).isSome :=
      List.find?_isSome.mpr ⟨e, List.mem_reverse.mpr he, decide_eq_true haddr⟩
    obtain ⟨e', he'⟩ := Option.isSome_iff_exists.mp hfound
    have hproper := h e' (List.mem_reverse.mp (List.mem_of_find?_eq_some he'))
    refine Option.isSome_iff_exists.mpr ⟨e'.offset, Option.filter_eq_some_iff.mpr ⟨?_, ?_⟩⟩
    · rw [he']
      rfl
    · exact decide_eq_true hproper

namespace DecodedMessage

variable {d : DecodedMessage} {l l' : List AddrListEntry} {k : Nat}

/-- Entries for the same record, in the message and in the decoded one. -/
structure SameEntry (d : DecodedMessage) (e e' : AddrListEntry) : Prop where
  visits : d.Visits e.addr e'.addr
  proper : e.offset ≠ 2 ^ 64 - 1
  nativeProper : e'.offset ≠ 2 ^ 64 - 1

/-- How many places that a pointer can lead to are not in the list. -/
def unvisited (d : DecodedMessage) (l : List AddrListEntry) : Nat :=
  ((Finset.range (d.data.length + 1)).filter fun i : Nat =>
    moveBy d.base i ∉ l.map AddrListEntry.addr).card

/-- The lists of two walks, with at most a number of places left to come to. -/
structure SameLists (d : DecodedMessage) (k : Nat) (l l' : List AddrListEntry) : Prop where
  entries : List.Forall₂ d.SameEntry l l'
  left : d.unvisited l ≤ k

theorem SameLists.mono {j : Nat} (h : d.SameLists k l l') (hle : k ≤ j) : d.SameLists j l l' :=
  ⟨h.entries, h.left.trans hle⟩

/-- A record is in both lists or in neither. -/
theorem visited_iff (hwell : d.WellDecoded) (h : List.Forall₂ d.SameEntry l l') {a b : Nat}
    (hvisits : d.Visits a b) :
    (searchAddrList l a).isSome ↔ (searchAddrList l' b).isSome := by
  have hleft := forall₂_left h
  have hright := forall₂_left h.flip
  rw [searchAddrList_isSome (fun e he => (hleft e he).choose_spec.2.proper),
    searchAddrList_isSome (fun e he => (hright e he).choose_spec.2.nativeProper)]
  constructor
  · rintro ⟨e, he, rfl⟩
    obtain ⟨e', he', hsame⟩ := hleft e he
    exact ⟨e', he', (hwell.shared _ _ _ _ hsame.visits hvisits).mp rfl⟩
  · rintro ⟨e', he', rfl⟩
    obtain ⟨e, he, hsame⟩ := hright e' he'
    exact ⟨e, he, (hwell.shared _ _ _ _ hsame.visits hvisits).mpr rfl⟩

/-- A new record leaves fewer. -/
theorem unvisited_append_lt {v : Nat} (hv : v ≤ d.data.length) {e : AddrListEntry}
    (haddr : e.addr = moveBy d.base v) (hnew : ∀ e ∈ l, e.addr ≠ moveBy d.base v) :
    d.unvisited (l ++ [e]) < d.unvisited l := by
  refine Finset.card_lt_card (Finset.ssubset_iff_subset_ne.mpr ⟨?_, ?_⟩)
  · intro i hi
    rw [Finset.mem_filter, List.map_append, List.mem_append] at hi
    exact Finset.mem_filter.mpr ⟨hi.1, fun hmem => hi.2 (.inl hmem)⟩
  · intro heq
    have hmem : v ∈ (Finset.range (d.data.length + 1)).filter fun i : Nat =>
        moveBy d.base i ∉ l.map AddrListEntry.addr := by
      refine Finset.mem_filter.mpr ⟨Finset.mem_range.mpr (by omega), fun hmem => ?_⟩
      obtain ⟨e, he, haddr⟩ := List.mem_map.mp hmem
      exact hnew e he haddr
    rw [← heq, Finset.mem_filter, List.map_append, List.mem_append] at hmem
    exact hmem.2 (.inr (by rw [List.map_singleton, haddr]; exact List.mem_singleton_self _))

/-! ## The two walks at a place -/

theorem pointed_message (d : DecodedMessage) (floats : FloatPrinter) (v : Nat) :
    (d.messageContext floats).pointed v = ⟨moveBy d.base v, v⟩ := if_pos rfl

theorem pointed_record (d : DecodedMessage) (floats : FloatPrinter) {w : Nat} (hw : w < 2 ^ 64) :
    (d.recordContext floats).pointed w = ⟨w, w⟩ := by
  have hsame : moveBy w (-(0 : Nat)) = w := by
    unfold moveBy
    omega
  have hfirst : (d.recordContext floats).pointed w = ⟨w, moveBy w (-(0 : Nat))⟩ :=
    if_neg Bool.false_ne_true
  rw [hfirst, hsame]

theorem WellDecoded.data_fits (hwell : d.WellDecoded) : d.data.length < 2 ^ 64 - 1 := by
  have hfits := hwell.fits
  rw [encodedMessage, List.length_append] at hfits
  omega

/-- Pointers that are null in both memories or in neither, and that are read right. -/
theorem pointers_read {p : Place} (hsound : d.PointerSound p) (hswap : ¬ d.SwapMissed p) :
    ∃ v w, d.pointers p = some (v, w) ∧ (v = 0 ↔ w = 0) ∧ v ≤ d.data.length ∧ w < 2 ^ 64 - 1 ∧
      quickGetPointer d.message p.body.pointerSize p.body.byteReversal p.message = some v ∧
      quickGetPointer d.native sizeofPointer false p.native = some w := by
  obtain ⟨hsize, v, w, hvalues, hnull, hv, hw⟩ := hsound
  refine ⟨v, w, hvalues, hnull, hv, hw, ?_⟩
  obtain ⟨bytes, hbytes, hrest⟩ := Option.bind_eq_some_iff.mp hvalues
  obtain ⟨nativeBytes, hnative, hpair⟩ := Option.bind_eq_some_iff.mp hrest
  cases hpair
  constructor
  · refine quickGetPointer_eq hsize hbytes ?_
    rintro ⟨hrev, height, haligned, hne⟩
    rw [height] at hbytes
    exact hswap ⟨hrev, height, haligned, bytes, hbytes, hne⟩
  · refine quickGetPointer_eq (.inr (.inr (.inr rfl))) hnative ?_
    rintro ⟨hoff, -⟩
    cases hoff

section

variable {p : Place} {t : FMTypeDesc} {next : List FMTypeDesc}
  (text longText longText' : List UInt8 → FloatText)

/-- From lists of the same records, the two walks come to values that print alike. -/
def AgreeAt (d : DecodedMessage) (k : Nat) (p : Place) (l' : List AddrListEntry) : Prop :=
  ∀ l, d.SameLists k l l' →
    AgreeFrom
      (fun n (p : Place) => dumpSubfieldAt (d.messageContext ⟨text, longText⟩) n p.inMessage)
      (fun n (p : Place) => dumpSubfieldAt (d.recordContext ⟨text, longText'⟩) n p.inRecord)
      (d.SameLists k) AlikeValues p l l'

/-- A pointer, when the walks agree at what it leads to.  The place is one of fewer when the walks
keep it in their lists. -/
theorem agree_pointer (hwell : d.WellDecoded) (hp : d.Reached p) (hchain : p.chain = t :: next)
    (htype : t.type = .pointer) (hsound : d.PointerSound p) (hswap : ¬ d.SwapMissed p)
    (htracked : p.body.recursive = true → ∀ j < k, ∀ q m, d.Onward p l' q m →
      d.AgreeAt text longText longText' j q m)
    (hplain : ¬ p.body.recursive = true → ∀ q m, d.Onward p l' q m →
      d.AgreeAt text longText longText' k q m) :
    d.AgreeAt text longText longText' k p l' := by
  intro l hlists
  obtain ⟨v, w, hvalues, hnull, hv, hw, hread, hread'⟩ := pointers_read hsound hswap
  by_cases hzero : v = 0
  · refine ⟨1, .null, l, .null, l', dump_null hchain htype ?_, dump_null hchain htype ?_,
      ⟨rfl, trivial⟩, hlists⟩
    · exact hread.trans (congrArg some hzero)
    · exact hread'.trans (congrArg some (hnull.mp hzero))
  have hzero' : w ≠ 0 := fun h => hzero (hnull.mpr h)
  have hvisits : d.Visits (moveBy d.base v) w := .pointer hp hchain htype hvalues hzero
  have haddr := d.pointed_message ⟨text, longText⟩ v
  have haddr' := d.pointed_record ⟨text, longText'⟩ (w := w) (by omega)
  have hiff := visited_iff hwell hlists.entries hvisits
  by_cases hrec : p.body.recursive = true
  · by_cases hseen : (searchAddrList l (moveBy d.base v)).isSome
    · refine ⟨1, .visited (UInt64.ofNat v), l, .visited (UInt64.ofNat w), l',
        dump_visited hchain htype hread hzero ⟨hrec, ?_⟩,
        dump_visited hchain htype hread' hzero' ⟨hrec, ?_⟩, ⟨rfl, trivial⟩, hlists⟩
      · rw [haddr]
        exact hseen
      · rw [haddr']
        exact hiff.mp hseen
    · have hway : d.Onward p l' (d.target p next v w) (l' ++ [⟨w, w⟩]) := by
        have hway := Onward.pointer (l := l') hchain htype hvalues hzero fun h =>
          hseen (hiff.mpr h.2)
        rwa [if_pos hrec] at hway
      -- the place is new, and there are fewer to come
      have hnew : ∀ e ∈ l, e.addr ≠ moveBy d.base v := by
        intro e he hsame
        obtain ⟨e', -, hentry⟩ := forall₂_left hlists.entries e he
        refine hseen ((searchAddrList_isSome (fun e he => ?_) _).mpr ⟨e, he, hsame⟩)
        exact (forall₂_left hlists.entries e he).choose_spec.2.proper
      have hless := unvisited_append_lt (e := ⟨moveBy d.base v, v⟩) hv rfl hnew
      have hlists' : d.SameLists (d.unvisited (l ++ [⟨moveBy d.base v, v⟩]))
          (l ++ [⟨moveBy d.base v, v⟩]) (l' ++ [⟨w, w⟩]) := by
        have hfits := hwell.data_fits
        have hoffset : v < 2 ^ 64 - 1 := by omega
        exact ⟨List.rel_append hlists.entries
          (.cons ⟨hvisits, Nat.ne_of_lt hoffset, Nat.ne_of_lt hw⟩ .nil), Nat.le_refl _⟩
      obtain ⟨n, b, s, c, s', hb, hc, halike, hsame⟩ :=
        htracked hrec _ (Nat.lt_of_lt_of_le hless hlists.left) _ _ hway _ hlists'
      refine ⟨n + 1, .pointer (UInt64.ofNat v) b, s, .pointer (UInt64.ofNat w) c, s',
        dump_pointer hchain htype hread hzero ?_ ?_,
        dump_pointer hchain htype hread' hzero' ?_ ?_, alike_pointer halike _ _,
        hsame.mono (by have := hlists.left; omega)⟩
      · rw [haddr]
        exact fun h => hseen h.2
      · rw [haddr]
        exact (congrArg (dumpSubfieldAt _ n _) (if_pos hrec)).trans hb
      · rw [haddr']
        exact fun h => hseen (hiff.mpr h.2)
      · rw [haddr']
        exact (congrArg (dumpSubfieldAt _ n _) (if_pos hrec)).trans hc
  · have hway : d.Onward p l' (d.target p next v w) l' := by
      have hway := Onward.pointer (l := l') hchain htype hvalues hzero fun h => hrec h.1
      rwa [if_neg hrec] at hway
    obtain ⟨n, b, s, c, s', hb, hc, halike, hsame⟩ := hplain hrec _ _ hway _ hlists
    refine ⟨n + 1, .pointer (UInt64.ofNat v) b, s, .pointer (UInt64.ofNat w) c, s',
      dump_pointer hchain htype hread hzero (fun h => hrec h.1) ?_,
      dump_pointer hchain htype hread' hzero' (fun h => hrec h.1) ?_, alike_pointer halike _ _,
      hsame⟩
    · rw [haddr]
      exact (congrArg (dumpSubfieldAt _ n _) (if_neg hrec)).trans hb
    · rw [haddr']
      exact (congrArg (dumpSubfieldAt _ n _) (if_neg hrec)).trans hc

theorem agree_string (hchain : p.chain = t :: next) (htype : t.type = .string)
    (hsound : d.PointerSound p) (hswap : ¬ d.SwapMissed p)
    (htext : ∀ v w, d.pointers p = some (v, w) → v ≠ 0 → ∃ s : CString,
      d.message.string (moveBy d.base v) = some s ∧ d.native.string w = some s ∧
        s.length ≤ 1021) :
    d.AgreeAt text longText longText' k p l' := by
  intro l hlists
  obtain ⟨v, w, hvalues, hnull, hv, hw, hread, hread'⟩ := pointers_read hsound hswap
  by_cases hzero : v = 0
  · refine ⟨1, .string none, l, .string none, l', dump_nullString hchain htype ?_,
      dump_nullString hchain htype ?_, alike_string (by rintro s ⟨⟩), hlists⟩
    · exact hread.trans (congrArg some hzero)
    · exact hread'.trans (congrArg some (hnull.mp hzero))
  obtain ⟨s, hs, hs', hlength⟩ := htext v w hvalues hzero
  have hzero' : w ≠ 0 := fun h => hzero (hnull.mpr h)
  refine ⟨1, .string (some s), l, .string (some s), l', dump_string hchain htype hread hzero ?_,
    dump_string hchain htype hread' hzero' ?_, alike_string (by rintro s ⟨⟩; exact hlength),
    hlists⟩
  · rw [pointed_message]
    exact hs
  · rw [pointed_record _ _ (by omega)]
    exact hs'

theorem agree_array (hchain : p.chain = t :: next) (htype : t.type = .array)
    {n : Int} {rest : List FMTypeDesc} {size nativeSize : Int}
    (hcount : d.messageCount p = some (n, rest)) (hcount' : d.nativeCount p = some (n, rest))
    (hsizes : d.Sizes p rest size nativeSize) (hread : ¬ d.CountMisread p)
    (hnext : ∀ q m, d.Onward p l' q m → d.AgreeAt text longText longText' k q m) :
    d.AgreeAt text longText longText' k p l' := by
  intro l hlists
  have hquick : countElements (quickControl d.message p.body p.messageParent) p.chain 1 =
      some (n, rest) := by
    refine countElements_of_controls (fun t ht hstatic v hv => quickControl_eq hv ?_) hcount
    cases hrev : p.body.byteReversal with
    | false => exact .inl rfl
    | true =>
      refine .inr fun f bytes hf hload => ?_
      by_contra hne
      exact hread ⟨hrev, t, ht, hstatic, f, bytes, hf, hload, hne⟩
  have hquick' : countElements (quickControl d.native (asNative p.body) p.nativeParent) p.chain 1 =
      some (n, rest) :=
    countElements_of_controls (fun t _ _ v hv => quickControl_eq hv (.inl rfl)) hcount'
  obtain ⟨n, vs, s, ws, s', hvs, hws, halike, hsame⟩ :=
    agreeFrom_threaded (Q := AlikeValues)
      (Steady.at (steady_dumpSubfieldAt (d.messageContext ⟨text, longText⟩))
        fun i : Nat => (p.element rest size nativeSize i).inMessage)
      (Steady.at (steady_dumpSubfieldAt (d.recordContext ⟨text, longText'⟩))
        fun i : Nat => (p.element rest size nativeSize i).inRecord)
      hlists fun before i after hi n cs _ _ hsame hbefore =>
        hnext _ _ (.element hchain htype hcount hsizes hi ⟨_, n, cs, hbefore⟩) _ hsame
  exact ⟨n + 1, .array vs, s, .array ws, s', dump_array hchain htype hquick hsizes.1 hvs,
    dump_array hchain htype hquick' hsizes.2 hws, alike_array halike, hsame⟩

/-- The fields of a record. -/
theorem agree_fields (p : Place) (sub : FMFormatBody)
    (hnext : ∀ before f var after m, sub.fieldList.zip sub.varList = before ++ (f, var) :: after →
      d.NativeFields sub p.native before l' m → printableName f.fieldName ∧
        d.AgreeAt text longText longText' k (p.field sub f var) m)
    (hlists : d.SameLists k l l') :
    ∃ n fs s gs s',
      dumpFieldsWith (dumpSubfieldAt (d.messageContext ⟨text, longText⟩) n) sub p.message l =
        some (fs, s) ∧
      dumpFieldsWith (dumpSubfieldAt (d.recordContext ⟨text, longText'⟩) n) (asNative sub) p.native
        l' = some (gs, s') ∧ List.Forall₂ AlikeFields fs gs ∧ d.SameLists k s s' := by
  refine agreeFrom_threaded (steady_recordField _ sub p.message)
    (steady_recordField _ (asNative sub) p.native) hlists
    fun before field after hfield n cs s₁ t₁ hsame hbefore => ?_
  obtain ⟨f, var⟩ := field
  obtain ⟨hname, hagree⟩ := hnext before f var after t₁ hfield ⟨_, n, cs, hbefore⟩
  obtain ⟨n, b, s, c, s', hb, hc, halike, hsame⟩ := hagree s₁ hsame
  refine ⟨n, .mk f.fieldName (takesLines var.typeDesc) b, s,
    .mk f.fieldName (takesLines var.typeDesc) c, s', congrArg (Option.map _) hb,
    congrArg (Option.map _) hc, ⟨?_, whole_startText hname, halike.2⟩, hsame⟩
  rw [unaddressedField, unaddressedField, halike.1]

theorem agree_subformat (hchain : p.chain = t :: next) (htype : t.type = .subformat)
    (hsound : (subformatAt p.body d.formats t.fieldIndex).isSome ∧
      p.body.fieldList[t.fieldIndex]?.isSome ∧ p.body.varList[t.fieldIndex]?.isSome)
    (hname : ∀ f ∈ p.body.fieldList, printableName f.fieldName)
    (hnext : ∀ q m, d.Onward p l' q m → (∀ f ∈ q.body.fieldList, printableName f.fieldName) ∧
      d.AgreeAt text longText longText' k q m) :
    d.AgreeAt text longText longText' k p l' := by
  intro l hlists
  obtain ⟨sub, hsub⟩ := Option.isSome_iff_exists.mp hsound.1
  obtain ⟨f, hf⟩ := Option.isSome_iff_exists.mp hsound.2.1
  obtain ⟨var, hvar⟩ := Option.isSome_iff_exists.mp hsound.2.2
  have hsub' : subformatAt (asNative p.body) (d.formats.map asNative) t.fieldIndex =
      some (asNative sub) := by
    rw [subformatAt_asNative, hsub]
    rfl
  obtain ⟨n, fs, s, gs, s', hfs, hgs, halike, hsame⟩ :=
    agree_fields text longText longText' p sub (fun before f var after m hfield
      hbefore => by
        obtain ⟨hnames, hagree⟩ := hnext _ _ (.field hchain htype hsub hfield hbefore)
        have hmem : (f, var) ∈ sub.fieldList.zip sub.varList := by
          rw [hfield]
          exact List.mem_append_right _ List.mem_cons_self
        exact ⟨hnames f (List.of_mem_zip hmem).1, hagree⟩) hlists
  exact ⟨n + 1, .subformat f.fieldName (takesLines var.typeDesc) fs, s,
    .subformat f.fieldName (takesLines var.typeDesc) gs, s',
    dump_subformat hchain htype hsub hf hvar hfs, dump_subformat hchain htype hsub' hf hvar hgs,
    alike_subformat (hname f (List.mem_of_getElem? hf)) _ halike, hsame⟩

theorem agree_simple (hchain : p.chain = t :: next) (htype : t.type = .simple) {f : FMField}
    (hf : p.body.fieldList[t.fieldIndex]? = some f) (hsound : d.SimpleSound p f)
    (hprint : ¬ Unprintable p f) : d.AgreeAt text longText longText' k p l' := by
  intro l hlists
  obtain ⟨v, hv, hv', hnumeric⟩ := sdumpValue_alike text longText longText' hsound hprint
  exact ⟨1, .simple v, l, .simple v, l', dump_simple hchain htype hf hv,
    dump_simple hchain htype hf hv', ⟨rfl, hnumeric⟩, hlists⟩

theorem Onward.way {q : Place} {m : List AddrListEntry} (h : d.Onward p l q m) : d.Way p q := by
  cases h with
  | pointer hchain htype hvalues hv => exact .pointer hchain htype hvalues hv
  | element hchain htype hcount hsizes hi =>
    refine .element hchain htype hcount hsizes (List.mem_range.mp ?_)
    rw [hi]
    exact List.mem_append_right _ List.mem_cons_self
  | field hchain htype hsub hfield =>
    refine .field hchain htype hsub ?_
    rw [hfield]
    exact List.mem_append_right _ List.mem_cons_self

theorem Comes.reached (h : d.Comes p l) : d.Reached p := by
  induction h with
  | field hfield =>
    refine .field ?_
    rw [hfield]
    exact List.mem_append_right _ List.mem_cons_self
  | step _ hway ih => exact .step ih hway.way

/-- The walks agree wherever that over the record of a safe message comes.  The induction is on the
places that a pointer can still lead to and, between pointers that are kept, on the way to the
place's end. -/
theorem agree_comes (hwell : d.WellDecoded) (hsafe : d.Safe) (k : Nat) (p : Place)
    (l' : List AddrListEntry) (hp : d.Comes p l') : d.AgreeAt text longText longText' k p l' := by
  induction k using Nat.strong_induction_on generalizing p l' with
  | _ k ihk =>
    have hends := hsafe.ends p l' hp
    generalize hstate : (p, l') = state at hends
    induction hends generalizing p l' with
    | intro state _ ih =>
      subst hstate
      obtain ⟨t, next, hchain, hsound⟩ := hwell.sound p hp.reached
      have hsmooth := hsafe.smooth p l' hp
      have hstep : ¬ p.Tracked → ∀ q m, d.Onward p l' q m →
          d.AgreeAt text longText longText' k q m := fun hfree q m hway =>
        ih (q, m) ⟨hway, hfree⟩ q m (.step hp hway) rfl
      have hfree : t.type ≠ .pointer → ¬ p.Tracked := by
        rintro hother ⟨-, t', ht', hpointer⟩
        rw [hchain] at ht'
        cases ht'
        exact hother hpointer
      cases htype : t.type with
      | pointer =>
        simp only [htype] at hsound
        have hswap : ¬ d.SwapMissed p := fun h => hsmooth ⟨t, next, hchain, by rw [htype]; exact h⟩
        exact agree_pointer text longText longText' hwell hp.reached hchain htype hsound hswap
          (fun _ j hj q m hway => ihk j hj q m (.step hp hway))
          (fun hrec => hstep fun h => hrec h.1)
      | string =>
        simp only [htype] at hsound
        have hswap : ¬ d.SwapMissed p :=
          fun h => hsmooth ⟨t, next, hchain, by rw [htype]; exact .inl h⟩
        refine agree_string text longText longText' hchain htype hsound.1 hswap
          fun v w hvalues hv => ?_
        obtain ⟨s, hs, hs'⟩ := hsound.2 v w hvalues hv
        refine ⟨s, hs, hs', ?_⟩
        by_contra hlong
        exact hsmooth ⟨t, next, hchain, by
          rw [htype]; exact .inr ⟨v, w, s, hvalues, hv, hs, by omega⟩⟩
      | array =>
        simp only [htype] at hsound
        obtain ⟨n, rest, size, nativeSize, hcount, hcount', hsizes⟩ := hsound
        have hread : ¬ d.CountMisread p := fun h => hsmooth ⟨t, next, hchain, by
          rw [htype]; exact h⟩
        exact agree_array text longText longText' hchain htype hcount hcount' hsizes hread
          (hstep (hfree (by rw [htype]; decide)))
      | subformat =>
        simp only [htype] at hsound
        exact agree_subformat text longText longText' hchain htype hsound (hsafe.names p l' hp)
          fun q m hway => ⟨hsafe.names q m (.step hp hway),
            hstep (hfree (by rw [htype]; decide)) q m hway⟩
      | simple =>
        simp only [htype] at hsound
        obtain ⟨f, hf, hsimple⟩ := hsound
        have hprint : ¬ Unprintable p f := fun h => hsmooth ⟨t, next, hchain, by
          rw [htype]; exact ⟨f, hf, h⟩⟩
        exact agree_simple text longText longText' hchain htype hf hsimple hprint

end

/-- A safe message dumps as its record does. -/
theorem WellDecoded.dumpsRight_of_safe (text : List UInt8 → FloatText) (hwell : d.WellDecoded)
    (hsafe : d.Safe) : d.DumpsRight text := by
  intro longText longText'
  have hlists : List.Forall₂ d.SameEntry (if d.top.recursive then [⟨d.base, 0⟩] else [])
      d.nativeStart := by
    unfold nativeStart
    split
    · have hzero : (0 : Nat) ≠ 2 ^ 64 - 1 := by decide
      exact .cons ⟨.root, hzero, hzero⟩ .nil
    · exact .nil
  obtain ⟨n, fs, s, gs, s', hfs, hgs, halike, -⟩ :=
    agree_fields text longText longText' d.root d.top
      (fun before f var after m hfield hbefore => by
        have hcomes : d.Comes (d.root.field d.top f var) m := .field hfield hbefore
        have hmem : (f, var) ∈ d.top.fieldList.zip d.top.varList := by
          rw [hfield]
          exact List.mem_append_right _ List.mem_cons_self
        exact ⟨hsafe.names _ m hcomes f (List.of_mem_zip hmem).1,
          agree_comes text longText longText' hwell hsafe _ _ m hcomes⟩) ⟨hlists, Nat.le_refl _⟩
  obtain ⟨heq, hfull⟩ := alike_fields halike
  exact ⟨n, fs, gs, congrArg (Option.map Prod.fst) hfs, congrArg (Option.map Prod.fst) hgs, heq,
    hfull⟩

/-! ## Records without pointers -/

/-- No field has an array, a record or a pointer other than a string. -/
def Flat (d : DecodedMessage) : Prop :=
  ∀ field ∈ d.top.fieldList.zip d.top.varList, ∃ t next, field.2.typeDesc = t :: next ∧
    (t.type = .simple ∨ t.type = .string)

theorem not_way {p q : Place} {t : FMTypeDesc} {next : List FMTypeDesc}
    (hchain : p.chain = t :: next) (htype : t.type = .simple ∨ t.type = .string) :
    ¬ d.Way p q := by
  intro hway
  have hhead : ∀ {t' next'}, p.chain = t' :: next' → t'.type = .simple ∨ t'.type = .string := by
    intro t' next' h
    rw [hchain] at h
    cases h
    exact htype
  cases hway with
  | pointer h hpointer _ _ =>
    rcases hhead h with h' | h' <;> rw [hpointer] at h' <;> cases h'
  | element h harray _ _ _ =>
    rcases hhead h with h' | h' <;> rw [harray] at h' <;> cases h'
  | field h hsub _ _ =>
    rcases hhead h with h' | h' <;> rw [hsub] at h' <;> cases h'

/-- A walk over a flat record comes to its fields alone. -/
theorem Flat.reached (hflat : d.Flat) {p : Place} (hp : d.Reached p) :
    ∃ f var, (f, var) ∈ d.top.fieldList.zip d.top.varList ∧ p = d.root.field d.top f var := by
  induction hp with
  | @field f var hfield => exact ⟨f, var, hfield, rfl⟩
  | step _ hway ih =>
    obtain ⟨f, var, hfield, rfl⟩ := ih
    obtain ⟨t, next, hchain, htype⟩ := hflat _ hfield
    exact absurd hway (not_way hchain htype)

theorem Flat.visits (hflat : d.Flat) {a b : Nat} (h : d.Visits a b) :
    a = d.base ∧ b = d.record := by
  cases h with
  | root => exact ⟨rfl, rfl⟩
  | pointer hp hchain htype hvalues hv =>
    obtain ⟨f, var, hfield, rfl⟩ := hflat.reached hp
    obtain ⟨t, next, hchain', htype'⟩ := hflat _ hfield
    exact absurd (.pointer hchain htype hvalues hv) (not_way (d := d) hchain' htype')

theorem Flat.wellDecoded (hflat : d.Flat)
    (hfits : d.place + (encodedMessage d.bigEndian d.stored d.data).length < 2 ^ 64 - 1)
    (hsound : ∀ field ∈ d.top.fieldList.zip d.top.varList,
      d.Sound (d.root.field d.top field.1 field.2)) : d.WellDecoded where
  fits := hfits
  sound := by
    intro p hp
    obtain ⟨f, var, hfield, rfl⟩ := hflat.reached hp
    exact hsound _ hfield
  shared := by
    intro a b a' b' h h'
    rw [(hflat.visits h).1, (hflat.visits h).2, (hflat.visits h').1, (hflat.visits h').2]
    exact iff_of_true rfl rfl

/-! ## Ways from a place -/

theorem way_of_pointer {p q : Place} {t : FMTypeDesc} {next : List FMTypeDesc} {v w : Nat}
    (hchain : p.chain = t :: next) (htype : t.type = .pointer) (hvalues : d.pointers p = some (v, w))
    (h : d.Way p q) : q = d.target p next v w := by
  cases h with
  | pointer hchain' _ hvalues' _ =>
    cases hchain.symm.trans hchain'
    cases hvalues.symm.trans hvalues'
    rfl
  | element hchain' htype' _ _ _ =>
    cases hchain.symm.trans hchain'
    cases htype.symm.trans htype'
  | field hchain' htype' _ _ =>
    cases hchain.symm.trans hchain'
    cases htype.symm.trans htype'

theorem way_of_subformat {p q : Place} {t : FMTypeDesc} {next : List FMTypeDesc}
    {sub : FMFormatBody} (hchain : p.chain = t :: next) (htype : t.type = .subformat)
    (hsub : subformatAt p.body d.formats t.fieldIndex = some sub) (h : d.Way p q) :
    ∃ field ∈ sub.fieldList.zip sub.varList, q = p.field sub field.1 field.2 := by
  cases h with
  | pointer hchain' htype' _ _ =>
    cases hchain.symm.trans hchain'
    cases htype.symm.trans htype'
  | element hchain' htype' _ _ _ =>
    cases hchain.symm.trans hchain'
    cases htype.symm.trans htype'
  | field hchain' _ hsub' hfield =>
    cases hchain.symm.trans hchain'
    cases hsub.symm.trans hsub'
    exact ⟨_, hfield, rfl⟩

end DecodedMessage

/-! ### An integer and a string -/

/-- What a machine of the other byte order sends of a format with an integer and a string. -/
def pairRep : List UInt8 :=
  [0, 104, 1, 2, 0, 0, 0, 0] ++
  [0, 96, 2, 1, 0, 0, 0, 60, 0, 0, 0, 2, 0, 0, 0, 16, 8, 28, 0, 1, 0, 84, 0, 8, 0, 0, 0, 0] ++
  [0, 0, 0, 62, 0, 0, 0, 64, 0, 0, 0, 8, 0, 0, 0, 0] ++
  [0, 0, 0, 72, 0, 0, 0, 74, 0, 0, 0, 8, 0, 0, 0, 8] ++
  [112, 0] ++ [120, 0] ++ chars ['i', 'n', 't', 'e', 'g', 'e', 'r'] ++ [0] ++ [115, 0] ++
  chars ['s', 't', 'r', 'i', 'n', 'g'] ++ [0, 0, 0, 0] ++ List.replicate 12 0

def integerField : FMField :=
  { fieldName := cstr ['x'] (.refl false),
    fieldType := cstr ['i', 'n', 't', 'e', 'g', 'e', 'r'] (.refl false),
    fieldSize := 8, fieldOffset := 0 }

def stringField : FMField :=
  { fieldName := cstr ['s'] (.refl false),
    fieldType := cstr ['s', 't', 'r', 'i', 'n', 'g'] (.refl false),
    fieldSize := 8, fieldOffset := 8 }

def integerVar : FMVarInfo :=
  { string := false, varArray := false, byteVector := false, dataType := .integerType,
    dimens := [], typeDesc := [{ FMTypeDesc.new .simple with dataType := .integerType }] }

def stringVar : FMVarInfo :=
  { string := true, varArray := false, byteVector := false, dataType := .stringType,
    dimens := [],
    typeDesc := [{ FMTypeDesc.new .string with dataType := .stringType, fieldIndex := 1 }] }

def pairFormat : FMFormat :=
  { top :=
      { formatName := cstr ['p'] (.refl false), recordLength := 16, byteReversal := true,
        floatFormat := formatIEEE754Bigendian, pointerSize := 8, ioVersion := 4,
        fieldList := [integerField, stringField], optInfo := [], alignment := 8,
        columnMajorArrays := false, variant := true, recursive := false,
        varList := [integerVar, stringVar], fieldSubformats := [none, none] },
    subformats := [] }

/-- The number 7 and the text "hi", in a message at a place and decoded at 1024. -/
def pairMessage (place : Nat) : DecodedMessage where
  stored :=
    { format := pairFormat, serverFormatRep := pairRep,
      serverID := [2, 0, 0, 26, 1, 2, 3, 4, 5, 6, 7, 8], formatIndex := 0 }
  bigEndian := true
  data := [0, 0, 0, 0, 0, 0, 0, 7, 0, 0, 0, 0, 0, 0, 0, 16, 104, 105, 0]
  place := place
  native := Blocks.single 1024 [7, 0, 0, 0, 0, 0, 0, 0, 16, 4, 0, 0, 0, 0, 0, 0, 104, 105, 0]
  record := 1024

theorem loadFormat_pairRep : loadFormat pairRep = some pairFormat := by decide

theorem pairMessage_flat (place : Nat) : (pairMessage place).Flat := by
  intro field hfield
  have hzip : (pairMessage place).top.fieldList.zip (pairMessage place).top.varList =
      [(integerField, integerVar), (stringField, stringVar)] := rfl
  rw [hzip, List.mem_cons, List.mem_singleton] at hfield
  rcases hfield with rfl | rfl
  · exact ⟨_, _, rfl, .inl rfl⟩
  · exact ⟨_, _, rfl, .inr rfl⟩

theorem pairMessage_wellDecoded {place : Nat} (hplace : place = 8 ∨ place = 16) :
    (pairMessage place).WellDecoded := by
  have hsmall : place + (encodedMessage (pairMessage place).bigEndian (pairMessage place).stored
      (pairMessage place).data).length < 2 ^ 64 - 1 := by
    rcases hplace with rfl | rfl <;> decide
  refine (pairMessage_flat place).wellDecoded hsmall fun field hfield => ?_
  have hzip : (pairMessage place).top.fieldList.zip (pairMessage place).top.varList =
      [(integerField, integerVar), (stringField, stringVar)] := rfl
  rw [hzip, List.mem_cons, List.mem_singleton] at hfield
  rcases hfield with rfl | rfl
  · have hloads : (pairMessage place).message.load (moveBy (pairMessage place).base 0) 8 =
          some [0, 0, 0, 0, 0, 0, 0, 7] ∧
        (pairMessage place).native.load (moveBy 1024 0) 8 = some [7, 0, 0, 0, 0, 0, 0, 0] := by
      rcases hplace with rfl | rfl <;> decide
    exact ⟨_, _, rfl, integerField, rfl, by decide, by decide, by decide, _, hloads.1, hloads.2⟩
  · have hpointers : (pairMessage place).pointers
        ((pairMessage place).root.field (pairMessage place).top stringField stringVar) =
          some (16, 1040) := by
      rcases hplace with rfl | rfl <;> decide
    have hstrings : (pairMessage place).message.string (moveBy (pairMessage place).base 16) =
          some (cstr ['h', 'i'] (.refl false)) ∧
        (pairMessage place).native.string 1040 = some (cstr ['h', 'i'] (.refl false)) := by
      rcases hplace with rfl | rfl <;> decide
    have hinside : 16 ≤ (pairMessage place).data.length := (by decide : 16 ≤ 19)
    refine ⟨_, _, rfl, ⟨.inr (.inr (.inr rfl)), 16, 1040, hpointers, by decide, hinside,
      by decide⟩, fun v w hvalues _ => ?_⟩
    rw [hpointers] at hvalues
    cases hvalues
    exact ⟨_, hstrings.1, hstrings.2⟩

def shortText (_ : List UInt8) : FloatText := ⟨chars ['0'], by decide, by decide⟩

/-- At this place the pointer to the text is not swapped, and leads out of the message. -/
theorem pair_not_dumpsRight : loadFormat pairRep = some pairFormat ∧
    (pairMessage 16).stored.format = pairFormat ∧ (pairMessage 16).WellDecoded ∧
    ¬ (pairMessage 16).DumpsRight shortText := by
  refine ⟨loadFormat_pairRep, rfl, pairMessage_wellDecoded (.inr rfl), fun h => ?_⟩
  obtain ⟨fuel, fields, _, hfields, -⟩ := h shortText shortText
  have hnone : (pairMessage 16).dumpEncoded ⟨shortText, shortText⟩ fuel = none := by
    cases fuel with
    | zero => rfl
    | succ fuel => rfl
  rw [hnone] at hfields
  cases hfields

/-! ### A record that points to itself -/

def nextField : FMField :=
  { fieldName := cstr ['p'] (.refl false), fieldType := cstr ['*', 'n'] (.refl false),
    fieldSize := 16, fieldOffset := 8 }

def toNode : FMTypeDesc := { FMTypeDesc.new .subformat with fieldIndex := 1 }

def nextVar : FMVarInfo :=
  { string := false, varArray := false, byteVector := false, dataType := .unknownType,
    dimens := [],
    typeDesc := [{ FMTypeDesc.new .pointer with pointerRecursive := 1, fieldIndex := 1 }, toNode] }

def nodeBody : FMFormatBody :=
  { formatName := cstr ['n'] (.refl false), recordLength := 16, byteReversal := true,
    floatFormat := formatIEEE754Bigendian, pointerSize := 8, ioVersion := 4,
    fieldList := [integerField, nextField], optInfo := [], alignment := 8,
    columnMajorArrays := false, variant := true, recursive := true,
    varList := [integerVar, nextVar], fieldSubformats := [none, some 0] }

/-- A node and behind it another one, to which both point. -/
def nodeMessage : DecodedMessage where
  stored :=
    { format := { top := nodeBody, subformats := [] }, serverFormatRep := [],
      serverID := [2, 0, 0, 26, 1, 2, 3, 4, 5, 6, 7, 8], formatIndex := 0 }
  bigEndian := true
  data := [0, 0, 0, 0, 0, 0, 0, 7, 0, 0, 0, 0, 0, 0, 0, 16, 0, 0, 0, 0, 0, 0, 0, 9, 0, 0, 0, 0, 0,
    0, 0, 16]
  place := 8
  native := Blocks.single 1024 [7, 0, 0, 0, 0, 0, 0, 0, 16, 4, 0, 0, 0, 0, 0, 0, 9, 0, 0, 0, 0, 0, 0,
    0, 16, 4, 0, 0, 0, 0, 0, 0]
  record := 1024

namespace NodeMessage

/-- The places of the first node, what its pointer leads to, and the places of that. -/
def first : Place := nodeMessage.root.field nodeBody integerField integerVar
def firstNext : Place := nodeMessage.root.field nodeBody nextField nextVar
def second : Place := nodeMessage.target firstNext [toNode] 16 1040
def secondValue : Place := second.field nodeBody integerField integerVar
def secondNext : Place := second.field nodeBody nextField nextVar
def again : Place := nodeMessage.target secondNext [toNode] 16 1040

theorem pointers_firstNext : nodeMessage.pointers firstNext = some (16, 1040) := by decide

theorem pointers_secondNext : nodeMessage.pointers secondNext = some (16, 1040) := by decide

theorem reached {p : Place} (h : nodeMessage.Reached p) :
    p ∈ [first, firstNext, second, secondValue, secondNext, again] := by
  induction h with
  | field hfield =>
    rcases List.mem_pair.mp hfield with heq | heq <;> cases heq
    · exact .head _
    · exact .tail _ (.head _)
  | step _ hway ih =>
    have hsub : ∀ p ∈ [second, again], ∀ q, nodeMessage.Way p q →
        q ∈ [first, firstNext, second, secondValue, secondNext, again] := by
      intro p hp q hway
      rcases List.mem_pair.mp hp with rfl | rfl
      all_goals
        obtain ⟨field, hfield, rfl⟩ := DecodedMessage.way_of_subformat rfl rfl rfl hway
        rcases List.mem_pair.mp hfield with rfl | rfl
        · exact .tail _ (.tail _ (.tail _ (.head _)))
        · exact .tail _ (.tail _ (.tail _ (.tail _ (.head _))))
    simp only [List.mem_cons, List.not_mem_nil, or_false] at ih
    rcases ih with rfl | rfl | rfl | rfl | rfl | rfl
    · exact absurd hway (DecodedMessage.not_way rfl (.inl rfl))
    · rw [DecodedMessage.way_of_pointer rfl rfl pointers_firstNext hway]
      exact .tail _ (.tail _ (.head _))
    · exact hsub _ (.head _) _ hway
    · exact absurd hway (DecodedMessage.not_way rfl (.inl rfl))
    · rw [DecodedMessage.way_of_pointer rfl rfl pointers_secondNext hway]
      exact .tail _ (.tail _ (.tail _ (.tail _ (.tail _ (.head _)))))
    · exact hsub _ (.tail _ (.head _)) _ hway

theorem visits {a b : Nat} (h : nodeMessage.Visits a b) : a = 32 ∧ b = 1024 ∨ a = 48 ∧ b = 1040 := by
  cases h with
  | root => exact .inl ⟨by decide, rfl⟩
  | pointer hp hchain htype hvalues hv =>
    have hmem := reached hp
    simp only [List.mem_cons, List.not_mem_nil, or_false] at hmem
    rcases hmem with rfl | rfl | rfl | rfl | rfl | rfl
    · cases hchain
      cases htype
    · cases pointers_firstNext.symm.trans hvalues
      exact .inr ⟨by decide, rfl⟩
    · cases hchain
      cases htype
    · cases hchain
      cases htype
    · cases pointers_secondNext.symm.trans hvalues
      exact .inr ⟨by decide, rfl⟩
    · cases hchain
      cases htype

theorem sound_integer {p : Place} (bytes : List UInt8) (hbody : p.body = nodeBody)
    (hchain : p.chain = integerVar.typeDesc)
    (hmessage : nodeMessage.message.load p.message 8 = some bytes)
    (hnative : nodeMessage.native.load p.native 8 = some bytes.reverse) : nodeMessage.Sound p := by
  refine ⟨_, _, hchain, integerField, by rw [hbody]; rfl, by decide, by decide, by decide, bytes,
    hmessage, ?_⟩
  rw [hbody]
  exact hnative

theorem sound_pointer {p : Place} (hbody : p.body = nodeBody) (hchain : p.chain = nextVar.typeDesc)
    (hvalues : nodeMessage.pointers p = some (16, 1040)) : nodeMessage.Sound p := by
  refine ⟨_, _, hchain, .inr (.inr (.inr (by rw [hbody]; rfl))), 16, 1040, hvalues, by decide, ?_,
    by decide⟩
  exact (by decide : 16 ≤ 32)

theorem wellDecoded : nodeMessage.WellDecoded where
  fits := by decide
  sound := by
    intro p hp
    have hmem := reached hp
    simp only [List.mem_cons, List.not_mem_nil, or_false] at hmem
    rcases hmem with rfl | rfl | rfl | rfl | rfl | rfl
    · exact sound_integer [0, 0, 0, 0, 0, 0, 0, 7] rfl rfl (by decide)
        (by decide)
    · exact sound_pointer rfl rfl pointers_firstNext
    · exact ⟨_, _, rfl, rfl, rfl, rfl⟩
    · exact sound_integer [0, 0, 0, 0, 0, 0, 0, 9] rfl rfl (by decide)
        (by decide)
    · exact sound_pointer rfl rfl pointers_secondNext
    · exact ⟨_, _, rfl, rfl, rfl, rfl⟩
  shared := by
    intro a b a' b' h h'
    rcases visits h with ⟨rfl, rfl⟩ | ⟨rfl, rfl⟩ <;> rcases visits h' with ⟨rfl, rfl⟩ | ⟨rfl, rfl⟩ <;>
      decide

theorem safe : nodeMessage.Safe where
  smooth := by
    intro p l hp
    have hmem := reached hp.reached
    have hinteger : ∀ p : Place, p.body = nodeBody → p.chain = integerVar.typeDesc →
        ¬ nodeMessage.Trouble p := by
      rintro p hbody hchain ⟨t, next, hchain', htrouble⟩
      cases hchain.symm.trans hchain'
      obtain ⟨f, hf, hprint⟩ := htrouble
      rw [hbody] at hf
      cases hf
      have htype : (arrayStrToDataType integerField.fieldType.bytes).1 = .integerType := by decide
      unfold DecodedMessage.Unprintable at hprint
      rw [htype] at hprint
      exact absurd hprint (by decide : ¬ 8 < integerField.fieldSize)
    have hpointer : ∀ p : Place, p.chain = nextVar.typeDesc → p.message % 16 ≠ 0 →
        ¬ nodeMessage.Trouble p := by
      rintro p hchain haligned ⟨t, next, hchain', htrouble⟩
      cases hchain.symm.trans hchain'
      exact haligned htrouble.2.2.1
    have hsecond : ∀ p : Place, p.chain = [toNode] → ¬ nodeMessage.Trouble p := by
      rintro p hchain ⟨t, next, hchain', htrouble⟩
      cases hchain.symm.trans hchain'
      exact htrouble
    simp only [List.mem_cons, List.not_mem_nil, or_false] at hmem
    rcases hmem with rfl | rfl | rfl | rfl | rfl | rfl
    · exact hinteger _ rfl rfl
    · exact hpointer _ rfl (by decide)
    · exact hsecond _ rfl
    · exact hinteger _ rfl rfl
    · exact hpointer _ rfl (by decide)
    · exact hsecond _ rfl
  names := by
    intro p l hp f hf
    have hmem := reached hp.reached
    have hbody : p.body = nodeBody := by
      simp only [List.mem_cons, List.not_mem_nil, or_false] at hmem
      rcases hmem with rfl | rfl | rfl | rfl | rfl | rfl <;> rfl
    rw [hbody] at hf
    rcases List.mem_pair.mp hf with rfl | rfl
    · exact (by decide : 1 ≤ 1020)
    · exact (by decide : 1 ≤ 1020)
  ends := by
    intro p l hp
    have hlast : ∀ p l, p.chain = integerVar.typeDesc ∨
        p.body = nodeBody ∧ p.chain = nextVar.typeDesc →
        Acc (fun q p => nodeMessage.Onward p.1 p.2 q.1 q.2 ∧ ¬ Place.Tracked p.1) (p, l) := by
      rintro p l (hchain | ⟨hbody, hchain⟩)
      · exact .intro _ fun q hq => absurd hq.1.way (DecodedMessage.not_way hchain (.inl rfl))
      · exact .intro _ fun q hq => absurd ⟨by rw [hbody]; rfl, _, by rw [hchain]; rfl, rfl⟩ hq.2
    have hsecond : ∀ p l, p.body = nodeBody → p.chain = [toNode] →
        Acc (fun q p => nodeMessage.Onward p.1 p.2 q.1 q.2 ∧ ¬ Place.Tracked p.1) (p, l) := by
      intro p l hbody hchain
      have hsub : subformatAt p.body nodeMessage.formats toNode.fieldIndex = some nodeBody := by
        rw [hbody]
        rfl
      refine .intro _ fun q hq => ?_
      obtain ⟨q, m⟩ := q
      obtain ⟨field, hfield, rfl⟩ := DecodedMessage.way_of_subformat hchain rfl hsub hq.1.way
      rcases List.mem_pair.mp hfield with rfl | rfl
      · exact hlast _ m (.inl rfl)
      · exact hlast _ m (.inr ⟨rfl, rfl⟩)
    have hmem := reached hp.reached
    simp only [List.mem_cons, List.not_mem_nil, or_false] at hmem
    rcases hmem with rfl | rfl | rfl | rfl | rfl | rfl
    · exact hlast _ l (.inl rfl)
    · exact hlast _ l (.inr ⟨rfl, rfl⟩)
    · exact hsecond _ l rfl rfl
    · exact hlast _ l (.inl rfl)
    · exact hlast _ l (.inr ⟨rfl, rfl⟩)
    · exact hsecond _ l rfl rfl

end NodeMessage

theorem dumpsRight_node : nodeMessage.DumpsRight shortText :=
  NodeMessage.wellDecoded.dumpsRight_of_safe shortText NodeMessage.safe

end RecordDump
end FFS
