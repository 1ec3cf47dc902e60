import FFS.FM.Derive
import FFS.FM.Load

/-!
# Variant flags that bubble up

Rounds over all formats set the flag of each format that has a variant subformat.  As many
rounds as there are formats are enough: a format is variant in the end exactly if it leads
to one that was variant before.
-/

namespace FFS

open Machine

/-- The subformats of a format. -/
def subformatsOf (formats : List FMFormatBody) (i : Nat) : List Nat :=
  match formats[i]? with
  | some f => f.fieldSubformats.filterMap id
  | none => []

theorem mem_subformatsOf {formats : List FMFormatBody} {i j : Nat} :
    j ∈ subformatsOf formats i ↔ ∃ f, formats[i]? = some f ∧ some j ∈ f.fieldSubformats := by
  rw [subformatsOf]
  cases formats[i]? with
  | none => simp
  | some f => simp

def variantAt (formats : List FMFormatBody) (i : Nat) : Prop := (formatFlags formats i).1 = true

/-- A format but for its variant flag. -/
def FMFormatBody.unflagged (f : FMFormatBody) : FMFormatBody := { f with variant := false }

theorem subformatsOf_congr {formats formats' : List FMFormatBody}
    (h : formats.map FMFormatBody.unflagged = formats'.map FMFormatBody.unflagged) (i : Nat) :
    subformatsOf formats i = subformatsOf formats' i := by
  have hi := congrArg (·[i]?) h
  simp only [List.getElem?_map] at hi
  rw [subformatsOf, subformatsOf]
  cases hf : formats[i]? with
  | none =>
    cases hf' : formats'[i]? with
    | none => rfl
    | some g => simp [hf, hf'] at hi
  | some f =>
    cases hf' : formats'[i]? with
    | none => simp [hf, hf'] at hi
    | some g =>
      simp only [hf, hf', Option.map_some, Option.some.injEq] at hi
      have hsubs := congrArg FMFormatBody.fieldSubformats hi
      simp only [FMFormatBody.unflagged] at hsubs
      dsimp only
      rw [hsubs]

/-- What bubbling keeps: everything but flags, which are only raised, and for a reason. -/
structure Bubbled (reason : Nat → Prop) (start formats : List FMFormatBody) : Prop where
  kept : formats.map FMFormatBody.unflagged = start.map FMFormatBody.unflagged
  raised : ∀ i, variantAt start i → variantAt formats i
  reason : ∀ i, variantAt formats i → reason i

theorem Bubbled.length {reason : Nat → Prop} {start formats : List FMFormatBody}
    (h : Bubbled reason start formats) : formats.length = start.length := by
  have hlength := congrArg List.length h.kept
  simpa only [List.length_map] using hlength

theorem variantAt_set {formats : List FMFormatBody} {i : Nat} {f g : FMFormatBody}
    (hf : formats[i]? = some f) (j : Nat) :
    variantAt (formats.set i g) j ↔ if j = i then g.variant = true else variantAt formats j := by
  have hlt := (List.getElem?_eq_some_iff.mp hf).1
  rw [variantAt, formatFlags]
  by_cases hj : j = i
  · subst hj
    rw [List.getElem?_set_self hlt, if_pos rfl]
  · rw [List.getElem?_set_ne (Ne.symm hj), if_neg hj]
    rfl

theorem variantAt_of_some {formats : List FMFormatBody} {i : Nat} {f : FMFormatBody}
    (hf : formats[i]? = some f) : variantAt formats i ↔ f.variant = true := by
  rw [variantAt, formatFlags, hf]

theorem bubbleVariant_of_some {formats : List FMFormatBody} {i : Nat} {f : FMFormatBody}
    (hf : formats[i]? = some f) : bubbleVariant formats i = formats.set i { f with
      variant := f.variant || (subformatsOf formats i).any fun j => (formatFlags formats j).1 } := by
  rw [bubbleVariant, subformatsOf, hf]

theorem bubbleVariant_of_none {formats : List FMFormatBody} {i : Nat}
    (hf : formats[i]? = none) : bubbleVariant formats i = formats := by
  rw [bubbleVariant, hf]

theorem bubbleVariant_unflagged (formats : List FMFormatBody) (i : Nat) :
    (bubbleVariant formats i).map FMFormatBody.unflagged =
      formats.map FMFormatBody.unflagged := by
  cases hf : formats[i]? with
  | none => rw [bubbleVariant_of_none hf]
  | some f =>
    rw [bubbleVariant_of_some hf]
    exact map_set_of_eq _ hf rfl

theorem Bubbled.bubbleVariant {reason : Nat → Prop} {start formats : List FMFormatBody}
    (hreason : ∀ i, ∀ j ∈ subformatsOf start i, reason j → reason i)
    (h : Bubbled reason start formats) (i : Nat) :
    Bubbled reason start (bubbleVariant formats i) := by
  cases hf : formats[i]? with
  | none =>
    rw [bubbleVariant_of_none hf]
    exact h
  | some f =>
    rw [bubbleVariant_of_some hf]
    refine ⟨?_, fun j hj => ?_, fun j hj => ?_⟩
    · rw [← h.kept]
      exact map_set_of_eq _ hf rfl
    · rw [variantAt_set hf]
      split
      · next heq =>
        subst heq
        have hraised := (variantAt_of_some hf).mp (h.raised j hj)
        simp [hraised]
      · exact h.raised j hj
    · rw [variantAt_set hf] at hj
      split at hj
      · next heq =>
        subst heq
        rw [Bool.or_eq_true, List.any_eq_true] at hj
        rcases hj with hj | ⟨k, hk, hflag⟩
        · exact h.reason j ((variantAt_of_some hf).mpr hj)
        · rw [subformatsOf_congr h.kept] at hk
          exact hreason j k hk (h.reason k hflag)
      · exact h.reason j hj

/-- A format on which bubbling has no effect has its flag if a subformat has. -/
theorem variantAt_of_bubbled {formats : List FMFormatBody} {i j : Nat}
    (hfix : bubbleVariant formats i = formats) (hsub : j ∈ subformatsOf formats i)
    (hj : variantAt formats j) : variantAt formats i := by
  cases hf : formats[i]? with
  | none =>
    rw [subformatsOf, hf] at hsub
    cases hsub
  | some f =>
    rw [bubbleVariant_of_some hf] at hfix
    rw [← hfix, variantAt_set hf, if_pos rfl, Bool.or_eq_true, List.any_eq_true]
    exact Or.inr ⟨j, hsub, hj⟩

/-- The number of variant formats behind the first `skip`. -/
def variantCount (skip : Nat) (formats : List FMFormatBody) : Nat :=
  (formats.drop skip).countP (·.variant)

theorem variantCount_le (skip : Nat) (formats : List FMFormatBody) :
    variantCount skip formats ≤ formats.length - skip :=
  List.countP_le_length.trans (List.length_drop ..).le

theorem bubbleVariant_inflates (skip : Nat) :
    Inflates (variantCount skip) fun formats i => bubbleVariant formats (i + skip) := by
  intro formats i
  dsimp only
  cases hf : formats[i + skip]? with
  | none => exact Or.inl (bubbleVariant_of_none hf)
  | some f =>
    rw [bubbleVariant_of_some hf]
    generalize (subformatsOf formats (i + skip)).any (fun j => (formatFlags formats j).1) = below
    have hlt := (List.getElem?_eq_some_iff.mp hf).1
    by_cases hraise : f.variant = false ∧ below = true
    · right
      have hdrop : i < (formats.drop skip).length := by rw [List.length_drop]; omega
      have hset : ∀ g, (formats.set (i + skip) g).drop skip = (formats.drop skip).set i g := by
        intro g
        rw [List.drop_set, if_neg (by omega), Nat.add_sub_cancel]
      have hold : (formats.drop skip)[i] = f := by
        apply Option.some.inj
        rw [← List.getElem?_eq_getElem, List.getElem?_drop, Nat.add_comm, hf]
      rw [variantCount, variantCount, hset, List.countP_set hdrop, hold, hraise.1, hraise.2]
      simp
    · left
      have hsame : (f.variant || below) = f.variant := by
        cases hv : f.variant with
        | true => rfl
        | false => simpa [hv] using hraise
      rw [hsame]
      have hsame := map_set_of_eq id hf (rfl : id f = id f)
      rwa [List.map_id, List.map_id] at hsame

/-- After as many rounds as there are formats behind the first `skip`, none of these formats
has a variant subformat without being variant. -/
theorem bubbleRounds {reason : Nat → Prop} {start : List FMFormatBody} (skip : Nat)
    (hreason : ∀ i, ∀ j ∈ subformatsOf start i, reason j → reason i)
    (hstart : ∀ i, variantAt start i → reason i) {rounds : List Nat}
    (hrounds : rounds.length = start.length - skip) :
    let once formats := (List.range (start.length - skip)).foldl
      (fun formats i => bubbleVariant formats (i + skip)) formats
    let s := rounds.foldl (fun formats _ => once formats) start
    Bubbled reason start s ∧ ∀ i j, skip ≤ i → j ∈ subformatsOf start i → variantAt s j →
      variantAt s i := by
  intro once s
  have honce : ∀ {formats}, Bubbled reason start formats → Bubbled reason start (once formats) :=
    fun h => foldl_invariant (Bubbled reason start)
      (fun i h => h.bubbleVariant hreason (i + skip)) _ h
  have hbase : Bubbled reason start start := ⟨rfl, fun _ h => h, hstart⟩
  have hiterate : ∀ n, Bubbled reason start (once^[n] start) := by
    intro n
    induction n with
    | zero => exact hbase
    | succ n ih => rw [Function.iterate_succ_apply']; exact honce ih
  have hs : s = once^[start.length - skip] start := by
    rw [← hrounds]
    exact List.foldl_const once start rounds
  have hinflates := foldl_inflates (bubbleVariant_inflates skip)
    (List.range (start.length - skip))
  have hsaturated : once s = s := by
    rw [hs]
    refine iterate_saturated (fun formats => (hinflates formats).imp_left And.left) fun n => ?_
    have hle := variantCount_le skip (once^[n] start)
    rw [(hiterate n).length] at hle
    exact hle
  refine ⟨hs ▸ hiterate _, fun i j hskip hsub hj => ?_⟩
  have hkept : Bubbled reason start s := hs ▸ hiterate _
  have hfix : ∀ i ∈ List.range (start.length - skip), bubbleVariant s (i + skip) = s := by
    rcases hinflates s with h | h
    · exact h.2
    · have hmeasure := congrArg (variantCount skip) hsaturated
      exact absurd h (Nat.not_lt.mpr hmeasure.le)
  have hlt : i < start.length := by
    rw [subformatsOf] at hsub
    split at hsub
    · next f hf => exact (List.getElem?_eq_some_iff.mp hf).1
    · cases hsub
  have hi := hfix (i - skip) (List.mem_range.mpr (by omega))
  rw [Nat.sub_add_cancel hskip] at hi
  rw [← subformatsOf_congr hkept.kept] at hsub
  exact variantAt_of_bubbled hi hsub hj

/-! ## Where the flags end up -/

section
variable {own : Nat → Prop} {sees : Nat → Nat → Prop} {start : List FMFormatBody}

theorem leads_of_subformat (hsees : ∀ i j, j ∈ subformatsOf start i ↔ sees i j) (i : Nat) :
    ∀ j ∈ subformatsOf start i, Leads own sees j → Leads own sees i :=
  fun j hj hleads => leads_iff.mpr (Or.inr ⟨j, (hsees i j).mp hj, hleads⟩)

theorem bubbleVariants_spec (hsees : ∀ i j, j ∈ subformatsOf start i ↔ sees i j)
    (hown : ∀ i, own i → variantAt start i) (hleads : ∀ i, variantAt start i → Leads own sees i) :
    let s := bubbleVariants start start.length
    s.map FMFormatBody.unflagged = start.map FMFormatBody.unflagged ∧
      ∀ i, variantAt s i ↔ Leads own sees i := by
  intro s
  obtain ⟨hbubbled, hclosed⟩ : Bubbled (Leads own sees) start s ∧ ∀ i j, 0 ≤ i →
      j ∈ subformatsOf start i → variantAt s j → variantAt s i :=
    bubbleRounds 0 (leads_of_subformat hsees) hleads (List.length_range ..)
  refine ⟨hbubbled.kept, fun i => ⟨hbubbled.reason i, fun h => ?_⟩⟩
  refine h.flagged (fun a ha => hbubbled.raised a (hown a ha)) fun a b hab hb => ?_
  exact hclosed a b (Nat.zero_le a) ((hsees a b).mpr hab) hb

/-- On loading, the top format takes its flag last.  It is not among the subformats of
others. -/
theorem bubbleLoaded_spec (hsees : ∀ i j, j ∈ subformatsOf start i ↔ sees i j)
    (hown : ∀ i, own i → variantAt start i) (hleads : ∀ i, variantAt start i → Leads own sees i)
    (htop : ∀ i, sees i 0 → i = 0) :
    (bubbleLoaded start).map FMFormatBody.unflagged = start.map FMFormatBody.unflagged ∧
      ∀ i, variantAt (bubbleLoaded start) i ↔ Leads own sees i := by
  rw [bubbleLoaded]
  generalize hrounds : (List.range (start.length - 1)).foldl _ start = s
  obtain ⟨hbubbled, hclosed⟩ : Bubbled (Leads own sees) start s ∧ ∀ i j, 1 ≤ i →
      j ∈ subformatsOf start i → variantAt s j → variantAt s i := by
    rw [← hrounds]
    exact bubbleRounds 1 (leads_of_subformat hsees) hleads (List.length_range ..)
  have hlast := hbubbled.bubbleVariant (leads_of_subformat hsees) 0
  refine ⟨hlast.kept, fun i => ⟨hlast.reason i, fun h => ?_⟩⟩
  refine h.flagged (fun a ha => hlast.raised a (hown a ha)) fun a b hab hb => ?_
  have hsub := (hsees a b).mpr hab
  cases hf : s[0]? with
  | none =>
    rw [bubbleVariant_of_none hf] at hb ⊢
    have hnil : start = [] := by
      rw [List.getElem?_eq_none_iff, hbubbled.length] at hf
      exact List.length_eq_zero_iff.mp (by omega)
    rw [hnil] at hsub
    cases hsub
  | some f =>
    rw [bubbleVariant_of_some hf] at hb ⊢
    rw [variantAt_set hf] at hb ⊢
    by_cases ha : a = 0
    · subst ha
      rw [if_pos rfl]
      by_cases hzero : b = 0
      · rw [if_pos hzero] at hb
        exact hb
      · rw [if_neg hzero] at hb
        rw [Bool.or_eq_true, List.any_eq_true]
        rw [← subformatsOf_congr hbubbled.kept] at hsub
        exact Or.inr ⟨b, hsub, hb⟩
    · have hzero : b ≠ 0 := fun heq => ha (htop a (heq ▸ hab))
      rw [if_neg hzero] at hb
      rw [if_neg ha]
      exact hclosed a b (Nat.pos_of_ne_zero ha) hsub hb

end

end FFS
