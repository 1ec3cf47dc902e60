import FFS.Convert.FormatOrder

/-!
# Comparisons that end

`FMformat_cmp_diff` follows lists of subformats, `count_total_IOfield` follows the fields, and
`FMformat_cmp` goes from a pair of formats to the pairs of namesakes among what their fields lead
to, one after the other, until two cannot be ordered.  It ends just when no pair leads back to
itself on this way.
-/

namespace FFS

open Machine Relation

/-! ## The pairs -/

/-- The subformats of a format and the format itself, in the order of their search. -/
def subformatsAndSelf (formats : List FMFormatBody) (i : Nat) : List Nat :=
  (getSubformats formats formats.length i).getD []

/-- The pairs of namesakes among two lists of subformats, but for the format `i` itself. -/
def namesakes (f g : FormatObject) (i : Nat) (subs1 subs2 : List Nat) : List (Nat × Nat) :=
  subs1.filterMap fun s =>
    if s = i then none else (sameNamed f.bodies g.bodies subs2 s).map fun t => (s, t)

/-- The pairs that the comparison of two formats comes to, in its order. -/
def partners (f g : FormatObject) (p : Nat × Nat) : List (Nat × Nat) :=
  namesakes f g p.1 (subformatsAndSelf f.bodies p.1) (subformatsAndSelf g.bodies p.2)

/-- How the fields of two formats are ordered. -/
def fieldOrder (f g : FormatObject) (p : Nat × Nat) : FMformatOrder :=
  match f.bodies[p.1]?, g.bodies[p.2]? with
  | some b, some c =>
    (cmpFields .equal (sortByName b.fieldList) (sortByName c.fieldList)).getD .incompatible
  | _, _ => .incompatible

/-- A pair and those that it leads to. -/
def PairLeads (f g : FormatObject) : Nat × Nat → Nat × Nat → Prop :=
  ReflTransGen fun p q => q ∈ partners f g p

/-- A pair, and those that some of its partners lead to. -/
def Below (f g : FormatObject) (p : Nat × Nat) (done : List (Nat × Nat)) (q : Nat × Nat) : Prop :=
  q = p ∨ ∃ y ∈ done, PairLeads f g y q

/-- The fields of all the pairs are equal or in the one order. -/
def Ordered (f g : FormatObject) (order : FMformatOrder) (pairs : Nat × Nat → Prop) : Prop :=
  ∀ p, pairs p → fieldOrder f g p = .equal ∨ fieldOrder f g p = order

/-- The comparison of a pair comes to another one as long as what it has met before, the pair
itself and all that the partners before the other one lead to, is in one order. -/
def ComesToPair (f g : FormatObject) (p q : Nat × Nat) : Prop :=
  ∃ before after, partners f g p = before ++ q :: after ∧
    (Ordered f g .greater (Below f g p before) ∨ Ordered f g .less (Below f g p before))

section
variable {f g : FormatObject} {p q : Nat × Nat} {order : FMformatOrder}

theorem ordered_below_nil :
    Ordered f g order (Below f g p []) ↔ fieldOrder f g p = .equal ∨ fieldOrder f g p = order := by
  simp [Ordered, Below]

theorem ordered_below_append {done : List (Nat × Nat)} :
    Ordered f g order (Below f g p (done ++ [q])) ↔
      Ordered f g order (Below f g p done) ∧ Ordered f g order (PairLeads f g q) := by
  simp only [Ordered, Below, List.mem_append, List.mem_singleton, or_and_right, exists_or,
    exists_eq_left, ← or_assoc]
  exact ⟨fun h => ⟨fun x hx => h x (.inl hx), fun x hx => h x (.inr hx)⟩,
    fun h x hx => hx.elim (h.1 x) (h.2 x)⟩

theorem Ordered.of_below_append {done rest : List (Nat × Nat)}
    (h : Ordered f g order (Below f g p (done ++ rest))) : Ordered f g order (Below f g p done) :=
  fun x hx => h x (hx.imp id fun hbelow => by
    obtain ⟨y, hy, hleads⟩ := hbelow
    exact ⟨y, List.mem_append_left _ hy, hleads⟩)

theorem ordered_pairLeads :
    Ordered f g order (PairLeads f g p) ↔ Ordered f g order (Below f g p (partners f g p)) := by
  refine forall_congr' fun x => imp_congr_left ?_
  constructor
  · intro hx
    cases hx.cases_head with
    | inl heq => exact .inl heq.symm
    | inr hstep => exact .inr hstep
  · rintro (rfl | ⟨y, hy, hyx⟩)
    · exact .refl
    · exact .head hy hyx

theorem FMformatOrder.tells_self (order : FMformatOrder) :
    order.Tells (order = .equal ∨ order = .greater) (order = .equal ∨ order = .less) := by
  cases order <;> simp [FMformatOrder.Tells]

/-! ## The lists of subformats -/

theorem getSubformatsContext_mono {formats : List FMFormatBody} {m n : Nat} (h : m ≤ n)
    {state state' : List Nat × List Nat} {i : Nat}
    (hm : getSubformatsContext formats m state i = some state') :
    getSubformatsContext formats n state i = some state' := by
  induction m generalizing n state state' i with
  | zero => cases hm
  | succ m ih =>
    obtain ⟨n, rfl⟩ := Nat.exists_eq_succ_of_ne_zero (show n ≠ 0 by omega)
    obtain ⟨visited, list⟩ := state
    rw [getSubformatsContext_succ] at hm ⊢
    refine foldlM_mono (fun state sub result hstep => ?_) hm
    obtain ⟨below, hbelow, rfl⟩ := Option.map_eq_some_iff.mp hstep
    refine Option.map_eq_some_iff.mpr ⟨below, ?_, rfl⟩
    by_cases hmet : sub ∈ state.1
    · rw [if_pos hmet] at hbelow ⊢
      exact hbelow
    · rw [if_neg hmet] at hbelow ⊢
      exact ih (by omega) hbelow

theorem getSubformats_mono {formats : List FMFormatBody} {m n i : Nat} (h : m ≤ n)
    {list : List Nat} (hm : getSubformats formats m i = some list) :
    getSubformats formats n i = some list := by
  obtain ⟨state, hstate, rfl⟩ := Option.map_eq_some_iff.mp hm
  exact Option.map_eq_some_iff.mpr ⟨state, getSubformatsContext_mono h hstate, rfl⟩

theorem getSubformats_of_length_le {formats : List FMFormatBody} (hrange : InRange formats)
    {i depth : Nat} (hi : i < formats.length) (hdepth : formats.length ≤ depth) :
    getSubformats formats depth i = some (subformatsAndSelf formats i) := by
  obtain ⟨list, hlist⟩ := exists_subformats hrange hi (Nat.le_refl _)
  rw [subformatsAndSelf, hlist, getSubformats_mono hdepth hlist, Option.getD_some]

theorem eq_subformatsAndSelf {formats : List FMFormatBody} (hrange : InRange formats)
    {i depth : Nat} (hi : i < formats.length) {list : List Nat}
    (h : getSubformats formats depth i = some list) : list = subformatsAndSelf formats i := by
  have hmax := getSubformats_mono (Nat.le_max_left depth formats.length) h
  rw [getSubformats_of_length_le hrange hi (Nat.le_max_right _ _)] at hmax
  exact (Option.some.inj hmax).symm

/-! ## The verdict of the partners -/

/-- A pair of partners, with the verdict so far. -/
def pairStep (cmp : Nat → Nat → Option FMformatOrder) :
    Option FMformatOrder → Nat × Nat → Option (Option FMformatOrder)
  | none, _ => some none
  | some result, q => (cmp q.1 q.2).map result.combine

theorem pairStep_incompatible {cmp : Nat → Nat → Option FMformatOrder}
    (pairs : List (Nat × Nat)) : pairs.foldlM (pairStep cmp) none = some none := by
  induction pairs with
  | nil => rfl
  | cons q pairs ih =>
    rw [List.foldlM_cons]
    exact ih

theorem foldlM_namesakes {cmp : Nat → Nat → Option FMformatOrder} {i : Nat}
    {subs1 subs2 : List Nat} (result : Option FMformatOrder) :
    subs1.foldlM (cmpSubformat f g cmp subs2 i) result =
      (namesakes f g i subs1 subs2).foldlM (pairStep cmp) result := by
  induction subs1 generalizing result with
  | nil => rfl
  | cons s subs1 ih =>
    cases result with
    | none => rw [foldlM_incompatible, pairStep_incompatible]
    | some result =>
      rw [namesakes, List.filterMap_cons, List.foldlM_cons]
      by_cases hself : s = i
      · rw [cmpSubformat, if_pos hself, if_pos hself]
        exact ih (some result)
      · rw [cmpSubformat, if_neg hself, if_neg hself]
        cases sameNamed f.bodies g.bodies subs2 s with
        | none => exact ih (some result)
        | some t =>
          rw [Option.map_some, List.foldlM_cons]
          exact bind_congr fun joined => ih joined

/-- Partners one after the other: their verdict is joined with the one so far, and each that is
come to has the property that its comparison shows. -/
theorem foldlM_partners {cmp : Nat → Nat → Option FMformatOrder} {Good : Nat × Nat → Prop}
    (hcmp : ∀ q r, q ∈ partners f g p → cmp q.1 q.2 = some r → Good q ∧
      r.Tells (Ordered f g .greater (PairLeads f g q)) (Ordered f g .less (PairLeads f g q)))
    {done rest : List (Nat × Nat)} (hpartners : partners f g p = done ++ rest)
    {result : FMformatOrder} (hne : result ≠ .incompatible)
    (hresult : result.Tells (Ordered f g .greater (Below f g p done))
      (Ordered f g .less (Below f g p done)))
    {last : Option FMformatOrder} (h : rest.foldlM (pairStep cmp) (some result) = some last) :
    (last.getD .incompatible).Tells (Ordered f g .greater (Below f g p (partners f g p)))
        (Ordered f g .less (Below f g p (partners f g p))) ∧
      ∀ before q after, rest = before ++ q :: after →
        Ordered f g .greater (Below f g p (done ++ before)) ∨
          Ordered f g .less (Below f g p (done ++ before)) → Good q := by
  induction rest generalizing done result with
  | nil =>
    cases h
    rw [hpartners, List.append_nil]
    exact ⟨hresult, fun before q after hsplit => by simp at hsplit⟩
  | cons q rest ih =>
    rw [List.foldlM_cons] at h
    obtain ⟨joined, hstep, hrest⟩ := Option.bind_eq_some_iff.mp h
    obtain ⟨r, hr, rfl⟩ := Option.map_eq_some_iff.mp hstep
    obtain ⟨hgood, htells⟩ := hcmp q r (by rw [hpartners]; simp) hr
    have hjoined := FMformatOrder.combine_tells hne hresult htells
    rw [← ordered_below_append, ← ordered_below_append] at hjoined
    have hpartners' : partners f g p = (done ++ [q]) ++ rest := by
      rw [hpartners, List.append_assoc, List.singleton_append]
    have hsplit' : ∀ before x after, q :: rest = before ++ x :: after →
        before = [] ∧ x = q ∨ ∃ before', before = q :: before' ∧ rest = before' ++ x :: after := by
      intro before x after hsplit
      cases before with
      | nil => exact .inl ⟨rfl, (List.cons.inj hsplit).1.symm⟩
      | cons y before =>
        obtain ⟨rfl, hrest⟩ := List.cons.inj hsplit
        exact .inr ⟨before, rfl, hrest⟩
    cases hcombine : result.combine r with
    | none =>
      -- What has been met is not in one order, and no further partner is come to.
      rw [hcombine] at hrest hjoined
      rw [pairStep_incompatible, Option.some.injEq] at hrest
      subst hrest
      refine ⟨⟨fun hall => hjoined.1 ?_, fun hall => hjoined.2 ?_⟩, ?_⟩
      · rw [hpartners'] at hall
        exact hall.of_below_append
      · rw [hpartners'] at hall
        exact hall.of_below_append
      · intro before x after hsplit hordered
        rcases hsplit' before x after hsplit with ⟨-, rfl⟩ | ⟨before, rfl, -⟩
        · exact hgood
        · rw [← List.singleton_append, ← List.append_assoc] at hordered
          exact absurd hordered (not_or.mpr ⟨fun hall => hjoined.1 hall.of_below_append,
            fun hall => hjoined.2 hall.of_below_append⟩)
    | some order =>
      rw [hcombine] at hrest hjoined
      obtain ⟨hlast, hall⟩ := ih hpartners' (FMformatOrder.combine_ne hne hcombine) hjoined hrest
      refine ⟨hlast, fun before x after hsplit hordered => ?_⟩
      rcases hsplit' before x after hsplit with ⟨-, rfl⟩ | ⟨before, rfl, hrest⟩
      · exact hgood
      · refine hall before x after hrest ?_
        rwa [List.append_assoc, List.singleton_append]

/-! ## The comparison of a pair -/

theorem fieldOrder_eq {b c : FMFormatBody} (hb : f.bodies[p.1]? = some b)
    (hc : g.bodies[p.2]? = some c) : fieldOrder f g p =
      (cmpFields .equal (sortByName b.fieldList) (sortByName c.fieldList)).getD .incompatible := by
  rw [fieldOrder, hb, hc]

/-- A comparison that ends has come to no pair for ever, and its verdict is that of all pairs that
it leads to. -/
theorem acc_of_formatCmp (hrange1 : InRange f.bodies) (hrange2 : InRange g.bodies) {depth : Nat}
    {r : FMformatOrder} (h : formatCmp f g depth p.1 p.2 = some r) :
    Acc (fun q p => ComesToPair f g p q) p ∧
      r.Tells (Ordered f g .greater (PairLeads f g p)) (Ordered f g .less (PairLeads f g p)) := by
  induction depth generalizing p r with
  | zero => cases h
  | succ depth ih =>
    rw [formatCmp] at h
    obtain ⟨b, hb, h⟩ := Option.bind_eq_some_iff.mp h
    obtain ⟨c, hc, h⟩ := Option.bind_eq_some_iff.mp h
    have hfields := fieldOrder_eq hb hc
    have htells := FMformatOrder.tells_self (fieldOrder f g p)
    rw [← ordered_below_nil, ← ordered_below_nil] at htells
    rw [ordered_pairLeads, ordered_pairLeads]
    cases hcmp : cmpFields .equal (sortByName b.fieldList) (sortByName c.fieldList) with
    | none =>
      rw [hcmp, Option.getD_none] at hfields
      rw [hcmp] at h
      cases h
      rw [hfields] at htells
      have hnot : ∀ before, ¬ Ordered f g .greater (Below f g p before) ∧
          ¬ Ordered f g .less (Below f g p before) := fun before =>
        ⟨fun hall => htells.1 (Ordered.of_below_append hall),
          fun hall => htells.2 (Ordered.of_below_append hall)⟩
      refine ⟨⟨p, fun q hq => ?_⟩, hnot _⟩
      obtain ⟨before, after, -, hordered⟩ := hq
      exact absurd hordered (not_or.mpr (hnot before))
    | some result =>
      rw [hcmp, Option.getD_some] at hfields
      rw [hcmp] at h
      obtain ⟨subs1, hsubs1, h⟩ := Option.bind_eq_some_iff.mp h
      obtain ⟨subs2, hsubs2, h⟩ := Option.bind_eq_some_iff.mp h
      obtain ⟨last, hlast, h⟩ := Option.bind_eq_some_iff.mp h
      cases h
      rw [foldlM_namesakes, eq_subformatsAndSelf hrange1 (List.getElem?_eq_some_iff.mp hb).1 hsubs1,
        eq_subformatsAndSelf hrange2 (List.getElem?_eq_some_iff.mp hc).1 hsubs2] at hlast
      rw [hfields] at htells
      obtain ⟨hverdict, hall⟩ := foldlM_partners (fun q r _ hr => ih hr) rfl
        (cmpFields_ne (by simp) hcmp) htells hlast
      refine ⟨⟨p, fun q hq => ?_⟩, hverdict⟩
      obtain ⟨before, after, hsplit, hordered⟩ := hq
      exact hall before q after hsplit hordered

/-- Both formats of a pair are there. -/
def InBoth (f g : FormatObject) (p : Nat × Nat) : Prop :=
  p.1 < f.bodies.length ∧ p.2 < g.bodies.length

theorem lt_of_mem_subformatsAndSelf {formats : List FMFormatBody} (hrange : InRange formats)
    {i j : Nat} (hi : i < formats.length) (h : j ∈ subformatsAndSelf formats i) :
    j < formats.length := by
  refine hrange.lt hi ?_
  rcases (mem_getSubformats (getSubformats_of_length_le hrange hi (Nat.le_refl _))).mp h with
    heq | hleads
  · exact .inl heq
  · exact .inr hleads

theorem inBoth_of_mem_partners (hrange1 : InRange f.bodies) (hrange2 : InRange g.bodies)
    (hp : InBoth f g p) (hq : q ∈ partners f g p) : InBoth f g q := by
  obtain ⟨s, hs, hpair⟩ := List.mem_filterMap.mp hq
  split at hpair
  · cases hpair
  · obtain ⟨t, ht, rfl⟩ := Option.map_eq_some_iff.mp hpair
    exact ⟨lt_of_mem_subformatsAndSelf hrange1 hp.1 hs,
      lt_of_mem_subformatsAndSelf hrange2 hp.2 (sameNamed_eq_some ht).1⟩

theorem ComesToPair.mem_partners (h : ComesToPair f g p q) : q ∈ partners f g p := by
  obtain ⟨before, after, hsplit, -⟩ := h
  rw [hsplit]
  simp

/-- The verdict of partners that are compared in finitely many steps as far as they are come
to. -/
theorem exists_foldlM_partners {cmp : Nat → Nat → Option FMformatOrder}
    (hends : ∀ q, ComesToPair f g p q → ∃ r, cmp q.1 q.2 = some r ∧
      r.Tells (Ordered f g .greater (PairLeads f g q)) (Ordered f g .less (PairLeads f g q)))
    {done rest : List (Nat × Nat)} (hpartners : partners f g p = done ++ rest)
    {result : FMformatOrder} (hne : result ≠ .incompatible)
    (hresult : result.Tells (Ordered f g .greater (Below f g p done))
      (Ordered f g .less (Below f g p done))) :
    ∃ last, rest.foldlM (pairStep cmp) (some result) = some last := by
  induction rest generalizing done result with
  | nil => exact ⟨_, rfl⟩
  | cons q rest ih =>
    have hordered : Ordered f g .greater (Below f g p done) ∨
        Ordered f g .less (Below f g p done) := by
      cases result with
      | equal => exact .inl hresult.1
      | greater => exact .inl hresult.1
      | less => exact .inr hresult.2
      | incompatible => exact absurd rfl hne
    obtain ⟨r, hr, htells⟩ := hends q ⟨done, rest, hpartners, hordered⟩
    have hjoined := FMformatOrder.combine_tells hne hresult htells
    rw [← ordered_below_append, ← ordered_below_append] at hjoined
    rw [List.foldlM_cons, pairStep, hr, Option.map_some]
    change ∃ last, rest.foldlM (pairStep cmp) (result.combine r) = some last
    cases hcombine : result.combine r with
    | none => exact ⟨none, pairStep_incompatible rest⟩
    | some order =>
      rw [hcombine] at hjoined
      refine ih ?_ (FMformatOrder.combine_ne hne hcombine) hjoined
      rw [hpartners, List.append_assoc, List.singleton_append]

/-- A pair that leads to no pair again and again is compared in finitely many steps. -/
theorem exists_formatCmp (hrange1 : InRange f.bodies) (hrange2 : InRange g.bodies)
    (hacc : Acc (fun q p => ComesToPair f g p q) p) (hp : InBoth f g p) :
    ∃ n, ∀ m, n ≤ m → ∃ r, formatCmp f g m p.1 p.2 = some r := by
  induction hacc with
  | intro p _ ih =>
    have hpairs : ∀ q ∈ partners f g p, ∃ n, ∀ m, n ≤ m → ComesToPair f g p q →
        ∃ r, formatCmp f g m q.1 q.2 = some r := by
      intro q hq
      by_cases hcomes : ComesToPair f g p q
      · obtain ⟨n, hn⟩ := ih q hcomes (inBoth_of_mem_partners hrange1 hrange2 hp hq)
        exact ⟨n, fun m hm _ => hn m hm⟩
      · exact ⟨0, fun m _ h => absurd h hcomes⟩
    obtain ⟨n, hn⟩ := exists_bound hpairs
    obtain ⟨hp1, hp2⟩ := hp
    refine ⟨f.bodies.length + g.bodies.length + n + 1, fun m hm => ?_⟩
    obtain ⟨m, rfl⟩ := Nat.exists_eq_succ_of_ne_zero (show m ≠ 0 by omega)
    have hb := List.getElem?_eq_getElem hp1
    have hc := List.getElem?_eq_getElem hp2
    have hfields := fieldOrder_eq hb hc
    have htells := FMformatOrder.tells_self (fieldOrder f g p)
    rw [← ordered_below_nil, ← ordered_below_nil] at htells
    rw [formatCmp, hb, hc]
    simp only [Option.bind_eq_bind, Option.bind_some]
    cases hcmp : cmpFields .equal (sortByName f.bodies[p.1].fieldList)
        (sortByName g.bodies[p.2].fieldList) with
    | none => exact ⟨_, rfl⟩
    | some result =>
      rw [hcmp, Option.getD_some] at hfields
      rw [hfields] at htells
      have hends : ∀ q, ComesToPair f g p q → ∃ r, formatCmp f g m q.1 q.2 = some r ∧
          r.Tells (Ordered f g .greater (PairLeads f g q))
            (Ordered f g .less (PairLeads f g q)) := by
        intro q hcomes
        obtain ⟨r, hr⟩ := hn q hcomes.mem_partners m (by omega) hcomes
        exact ⟨r, hr, (acc_of_formatCmp hrange1 hrange2 hr).2⟩
      obtain ⟨last, hlast⟩ := exists_foldlM_partners hends (List.nil_append _).symm
        (cmpFields_ne (by simp) hcmp) htells
      refine ⟨last.getD .incompatible, ?_⟩
      simp only [getSubformats_of_length_le hrange1 hp1 (show f.bodies.length ≤ m by omega),
        getSubformats_of_length_le hrange2 hp2 (show g.bodies.length ≤ m by omega),
        Option.bind_some]
      rw [foldlM_namesakes]
      change (((partners f g p).foldlM (pairStep (formatCmp f g m)) (some result)).bind _) = _
      rw [hlast]
      rfl

/-- `FMformat_cmp` of two formats ends just when no pair that it comes to leads back to itself. -/
theorem order_ends_iff (hrange1 : InRange f.bodies) (hrange2 : InRange g.bodies)
    (hpos : InBoth f g (0, 0)) :
    (∃ depth, (formatCmp f g depth 0 0).isSome) ↔ Acyclic (ComesToPair f g) (0, 0) := by
  constructor
  · rintro ⟨depth, h⟩
    obtain ⟨r, hr⟩ := Option.isSome_iff_exists.mp h
    exact acyclic_of_acc (acc_of_formatCmp (p := (0, 0)) hrange1 hrange2 hr).1
  · intro h
    let nodes := Finset.range f.bodies.length ×ˢ Finset.range g.bodies.length
    have hclosed : ∀ p ∈ nodes, ∀ q, ComesToPair f g p q → q ∈ nodes := by
      intro p hp q hpq
      simp only [nodes, Finset.mem_product, Finset.mem_range] at hp ⊢
      exact inBoth_of_mem_partners hrange1 hrange2 hp hpq.mem_partners
    have htop : (0, 0) ∈ nodes := by
      simp only [nodes, Finset.mem_product, Finset.mem_range]
      exact hpos
    have hacc := acc_of_acyclic hclosed htop h
    obtain ⟨n, hn⟩ := exists_formatCmp hrange1 hrange2 hacc hpos
    obtain ⟨r, hr⟩ := hn n (Nat.le_refl n)
    exact ⟨n, by rw [hr]; rfl⟩

end

/-! ## All three -/

/-- A record with one pointer to a record. -/
def pointerTo (formatName target : CString) : FMStructDesc :=
  { formatName := formatName,
    fieldList := [{ fieldName := cstr ['n', 'e', 'x', 't'] (.refl false),
                    fieldType := target, fieldSize := 8, fieldOffset := 0 }],
    structSize := 8, optInfo := [] }

/-- A record of a list, which points to another of its kind. -/
def nodeList : List FMStructDesc :=
  [pointerTo (cstr ['n', 'o', 'd', 'e'] (.refl false))
    (cstr ['*', 'n', 'o', 'd', 'e'] (.refl false))]

/-- Two records that point to each other. -/
def mutualList : List FMStructDesc :=
  [pointerTo (cstr ['a'] (.refl false)) (cstr ['*', 'b'] (.refl false)),
    pointerTo (cstr ['b'] (.refl false)) (cstr ['*', 'a'] (.refl false))]

end FFS
