import FFS.FM.Load
import FFS.FM.SentOrder

/-!
# Names among the formats that are sent

A format that arrives is looked up by name among the formats that were sent, and the top
format is not among the candidates.  Two sent formats behind the top never share a name, so
the search finds what registration found, unless that was the top format.
-/

namespace FFS

open Machine

/-- The candidates of a field on loading: all formats but the top. -/
def othersOf (formats : List FMFormatBody) : List Nat := (List.range formats.length).tail

theorem mem_othersOf {formats : List FMFormatBody} {k : Nat} :
    k ∈ othersOf formats ↔ k ≠ 0 ∧ k < formats.length := by
  rw [othersOf, List.tail_range, List.mem_range'_1]
  omega

/-- The formats of an order in their new places, with nothing derived. -/
structure SentAs (formats : List FMFormatBody) (order : List Nat) (sent : List FMFormatBody) :
    Prop where
  sentOrder : Sent formats order
  length_eq : sent.length = order.length
  place : ∀ i ∈ order, ∃ f g, formats[i]? = some f ∧ sent[order.idxOf i]? = some g ∧
    g.formatName = f.formatName ∧ g.fieldList = f.fieldList
  noFlags : NoFlags sent

/-- The last format of a name behind the top, and how it was named by another. -/
theorem Sent.lastNamed {formats : List FMFormatBody} {order : List Nat}
    (h : Sent formats order) {i : Nat} (hi : i ∈ order) (hne : i ≠ 0) {name : List UInt8}
    (hname : named formats name i = true) : lastNamed formats (allOf formats) name = some i := by
  obtain ⟨j, -, hji, f, -, fmField, -, hsub⟩ := h.origin i hi hne
  have hbase := (fieldSubformat_named hsub).2
  have hsame : name = baseDataType fmField.fieldType.bytes := by
    rw [named, Option.any_eq_true] at hname hbase
    obtain ⟨g, hg, hname⟩ := hname
    obtain ⟨g', hg', hbase⟩ := hbase
    rw [hg, Option.some.injEq] at hg'
    subst hg'
    rw [decide_eq_true_eq] at hname hbase
    rw [← hname, hbase]
  rw [fieldSubformat] at hsub
  split at hsub
  · obtain ⟨k, hk, heq⟩ := Option.map_eq_some_iff.mp hsub
    cases Option.some.inj heq
    rw [lookupSubformat] at hk
    split at hk
    · exact absurd (Option.some.inj hk) hji
    · rw [hsame]
      exact hk
  · cases Option.some.inj hsub

theorem Sent.idxOf_zero {formats : List FMFormatBody} {order : List Nat}
    (h : Sent formats order) : order.idxOf 0 = 0 := by
  obtain ⟨below, rfl⟩ := h.top
  exact List.idxOf_cons_self

theorem Sent.zero_mem {formats : List FMFormatBody} {order : List Nat}
    (h : Sent formats order) : 0 ∈ order := by
  obtain ⟨below, rfl⟩ := h.top
  exact List.mem_cons_self

theorem Sent.idxOf_eq_zero {formats : List FMFormatBody} {order : List Nat}
    (h : Sent formats order) {i : Nat} (hi : i ∈ order) : order.idxOf i = 0 ↔ i = 0 := by
  constructor
  · intro heq
    rw [← h.idxOf_zero] at heq
    exact (List.idxOf_inj hi).mp heq
  · rintro rfl
    exact h.idxOf_zero

section
variable {formats sent : List FMFormatBody} {order : List Nat}

theorem SentAs.named (h : SentAs formats order sent) {i : Nat} (hi : i ∈ order)
    (name : List UInt8) : named sent name (order.idxOf i) = named formats name i := by
  obtain ⟨f, g, hf, hg, hname, -⟩ := h.place i hi
  rw [FFS.named, FFS.named, hf, hg, Option.any_some, Option.any_some, hname]

/-- The place of a number in the order, the other way round. -/
theorem SentAs.exists_place (h : SentAs formats order sent) {k : Nat} (hk : k < sent.length) :
    ∃ i ∈ order, order.idxOf i = k := by
  rw [h.length_eq] at hk
  exact ⟨order[k], List.getElem_mem hk, h.sentOrder.nodup.idxOf_getElem k hk⟩

theorem SentAs.lastNamed_eq_some (h : SentAs formats order sent) {i : Nat} (hi : i ∈ order)
    (hne : i ≠ 0) {name : List UInt8} (hname : FFS.named formats name i = true) :
    lastNamed sent (othersOf sent) name = some (order.idxOf i) := by
  have hplace : order.idxOf i ∈ othersOf sent := by
    rw [mem_othersOf, h.length_eq]
    exact ⟨fun heq => hne ((h.sentOrder.idxOf_eq_zero hi).mp heq), List.idxOf_lt_length_of_mem hi⟩
  refine find?_eq_some_of_unique (List.mem_reverse.mpr hplace) ?_ fun k hk hnamed => ?_
  · rw [h.named hi]
    exact hname
  · rw [List.mem_reverse, mem_othersOf] at hk
    obtain ⟨j, hj, rfl⟩ := h.exists_place hk.2
    rw [h.named hj] at hnamed
    have hjne : j ≠ 0 := fun heq => hk.1 ((h.sentOrder.idxOf_eq_zero hj).mpr heq)
    have hlast := h.sentOrder.lastNamed hj hjne hnamed
    rw [h.sentOrder.lastNamed hi hne hname, Option.some.injEq] at hlast
    rw [hlast]

theorem SentAs.lastNamed_eq_none (h : SentAs formats order sent) {name : List UInt8}
    (hnone : ∀ i ∈ order, i ≠ 0 → FFS.named formats name i = false) :
    lastNamed sent (othersOf sent) name = none := by
  rw [lastNamed, List.find?_eq_none]
  intro k hk
  rw [List.mem_reverse, mem_othersOf] at hk
  obtain ⟨i, hi, rfl⟩ := h.exists_place hk.2
  rw [h.named hi, hnone i hi fun heq => hk.1 ((h.sentOrder.idxOf_eq_zero hi).mpr heq)]
  exact Bool.false_ne_true

/-- A field of another format that refers to the top format is not found again. -/
theorem SentAs.fieldSubformat_top (h : SentAs formats order sent) {i : Nat} (hi : i ∈ order)
    (hne : i ≠ 0) {typ : List UInt8}
    (hsub : fieldSubformat formats (allOf formats) i typ = some (some 0)) :
    fieldSubformat sent (othersOf sent) (order.idxOf i) typ = none := by
  rw [fieldSubformat] at hsub ⊢
  split at hsub
  · next hunknown =>
    rw [if_pos hunknown]
    obtain ⟨k, hk, heq⟩ := Option.map_eq_some_iff.mp hsub
    cases Option.some.inj heq
    rw [lookupSubformat] at hk ⊢
    rw [h.named hi]
    split at hk
    · exact absurd (Option.some.inj hk) hne
    · next hself =>
      rw [if_neg hself, h.lastNamed_eq_none, Option.map_none]
      intro j hj hjne
      rw [← Bool.not_eq_true]
      intro hnamed
      have hlast := h.sentOrder.lastNamed hj hjne hnamed
      rw [hk, Option.some.injEq] at hlast
      exact hjne hlast.symm
  · cases Option.some.inj hsub

/-- A field finds its subformat again when that is its own format or not the top. -/
theorem SentAs.fieldSubformat_eq (h : SentAs formats order sent) {i : Nat} (hi : i ∈ order)
    {typ : List UInt8} {sub : Option Nat}
    (hsub : fieldSubformat formats (allOf formats) i typ = some sub)
    (hmem : ∀ j, sub = some j → j ∈ order) (htop : i ≠ 0 → sub ≠ some 0) :
    fieldSubformat sent (othersOf sent) (order.idxOf i) typ = some (sub.map order.idxOf) := by
  rw [fieldSubformat] at hsub ⊢
  split at hsub
  · next hunknown =>
    rw [if_pos hunknown]
    obtain ⟨j, hj, rfl⟩ := Option.map_eq_some_iff.mp hsub
    rw [Option.map_some]
    rw [lookupSubformat] at hj ⊢
    rw [h.named hi]
    split at hj
    · next hself =>
      rw [if_pos hself, ← Option.some.inj hj, Option.map_some]
    · next hself =>
      rw [if_neg hself]
      have hji : j ≠ i := by
        rintro rfl
        exact hself (List.find?_some hj)
      have hjne : j ≠ 0 := by
        rintro rfl
        exact htop (Ne.symm hji) rfl
      rw [h.lastNamed_eq_some (hmem j rfl) hjne (List.find?_some hj), Option.map_some]
  · next hknown =>
    rw [if_neg hknown, ← Option.some.inj hsub, Option.map_none]

end

end FFS
