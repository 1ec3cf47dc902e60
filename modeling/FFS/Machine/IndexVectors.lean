import Mathlib.Data.List.GetD
import Mathlib.Data.List.Nodup
import Mathlib.Algebra.BigOperators.Group.List.Basic
import Mathlib.Tactic.Ring
import FFS.Machine.Odometer

/-!
# The two orders of an array

An element of an array of several dimensions has a place in column-major order, where the first
index counts fastest, and one in row-major order, where the last one does.  `positions` lists both
for every element, by rows.
-/

namespace Machine

/-- The index vectors of an array. -/
def Within (dims indices : List Nat) : Prop := List.Forall₂ (· < ·) indices dims

def columnMajor : List Nat → List Nat → Nat
  | d :: dims, i :: indices => i + d * columnMajor dims indices
  | _, _ => 0

def rowMajor : List Nat → List Nat → Nat
  | _ :: dims, i :: indices => i * dims.prod + rowMajor dims indices
  | _, _ => 0

/-- The places of all elements in column-major and row-major order. -/
def positions : List Nat → List (Nat × Nat)
  | [] => [(0, 0)]
  | d :: dims =>
    (List.range d).flatMap fun i =>
      (positions dims).map fun p => (i + d * p.1, i * dims.prod + p.2)

theorem mem_positions_cons {d : Nat} {dims : List Nat} {p : Nat × Nat} :
    p ∈ positions (d :: dims) ↔
      ∃ i < d, ∃ q ∈ positions dims, p = (i + d * q.1, i * dims.prod + q.2) := by
  simp only [positions, List.mem_flatMap, List.mem_range, List.mem_map, eq_comm]

theorem mem_positions {dims : List Nat} {p : Nat × Nat} :
    p ∈ positions dims ↔
      ∃ indices, Within dims indices ∧ p = (columnMajor dims indices, rowMajor dims indices) := by
  induction dims generalizing p with
  | nil =>
    rw [positions, List.mem_singleton]
    constructor
    · rintro rfl
      exact ⟨[], .nil, rfl⟩
    · rintro ⟨indices, hin, rfl⟩
      rfl
  | cons d dims ih =>
    rw [mem_positions_cons]
    constructor
    · rintro ⟨i, hi, q, hq, rfl⟩
      obtain ⟨indices, hin, rfl⟩ := ih.mp hq
      exact ⟨i :: indices, .cons hi hin, rfl⟩
    · rintro ⟨indices, hin, rfl⟩
      cases hin with
      | cons hi hin => exact ⟨_, hi, _, ih.mpr ⟨_, hin, rfl⟩, rfl⟩

/-- Row by row. -/
theorem positions_snd (dims : List Nat) :
    (positions dims).map Prod.snd = List.range dims.prod := by
  induction dims with
  | nil => rfl
  | cons d dims ih =>
    have hrows : ∀ i, ((positions dims).map fun p => (i + d * p.1, i * dims.prod + p.2)).map
        Prod.snd = (List.range dims.prod).map (i * dims.prod + ·) := by
      intro i
      rw [← ih, List.map_map, List.map_map]
      rfl
    rw [positions, List.map_flatMap, List.prod_cons]
    simp only [hrows]
    clear hrows ih
    induction d with
    | zero => simp
    | succ d ih =>
      rw [List.range_succ, List.flatMap_append, ih, List.flatMap_singleton, Nat.add_mul,
        Nat.one_mul, List.range_add]

theorem fst_lt_of_mem_positions {dims : List Nat} {p : Nat × Nat} (h : p ∈ positions dims) :
    p.1 < dims.prod := by
  induction dims generalizing p with
  | nil =>
    rw [positions, List.mem_singleton] at h
    subst h
    exact Nat.one_pos
  | cons d dims ih =>
    obtain ⟨i, hi, q, hq, rfl⟩ := mem_positions_cons.mp h
    have hle : d * (q.1 + 1) ≤ d * dims.prod := Nat.mul_le_mul_left d (ih hq)
    rw [List.prod_cons]
    simp only
    rw [Nat.mul_add] at hle
    omega

/-- Every place of the column-major order is that of an element. -/
theorem exists_position_of_fst {dims : List Nat} {x : Nat} (h : x < dims.prod) :
    ∃ p ∈ positions dims, p.1 = x := by
  induction dims generalizing x with
  | nil => exact ⟨(0, 0), List.mem_singleton.mpr rfl, (Nat.lt_one_iff.mp h).symm⟩
  | cons d dims ih =>
    rw [List.prod_cons] at h
    have hd : 0 < d := Nat.pos_of_ne_zero (by rintro rfl; simp at h)
    obtain ⟨q, hq, hfst⟩ := ih (Nat.div_lt_of_lt_mul h)
    refine ⟨_, mem_positions_cons.mpr ⟨x % d, Nat.mod_lt x hd, q, hq, rfl⟩, ?_⟩
    rw [hfst, Nat.mod_add_div]

theorem nodup_snd (dims : List Nat) : ((positions dims).map Prod.snd).Nodup := by
  rw [positions_snd]
  exact List.nodup_range

theorem nodup_fst (dims : List Nat) : ((positions dims).map Prod.fst).Nodup := by
  induction dims with
  | nil => exact List.nodup_singleton 0
  | cons d dims ih =>
    have hcolumns : ∀ i, ((positions dims).map fun p => (i + d * p.1, i * dims.prod + p.2)).map
        Prod.fst = ((positions dims).map Prod.fst).map (i + d * ·) := by
      intro i
      rw [List.map_map, List.map_map]
      rfl
    rw [positions, List.map_flatMap]
    simp only [hcolumns]
    refine List.nodup_flatMap.mpr ⟨fun i hi => ?_, ?_⟩
    · have hd : 0 < d := by
        have := List.mem_range.mp hi
        omega
      refine ih.map fun x y hxy => ?_
      exact Nat.eq_of_mul_eq_mul_left hd (Nat.add_left_cancel hxy)
    · refine List.nodup_range.pairwise_of_forall_ne fun i hi j hj hne x hx hy => hne ?_
      rw [List.mem_range] at hi hj
      obtain ⟨y, -, rfl⟩ := List.mem_map.mp hx
      obtain ⟨z, -, heq⟩ := List.mem_map.mp hy
      have hmod := congrArg (· % d) heq
      simp only [Nat.add_mul_mod_self_left, Nat.mod_eq_of_lt hi, Nat.mod_eq_of_lt hj] at hmod
      exact hmod.symm

/-! ## Doing it in place -/

/-- Steps that each read one place and write another, where every place is read once and written
once.  Unless all write what they read, one reads what an earlier one wrote, which had read a
place that was still what it was. -/
theorem exists_overwritten {ps : List (Nat × Nat)} (hfst : (ps.map Prod.fst).Nodup)
    (hsnd : (ps.map Prod.snd).Nodup) (hsame : ∀ x, x ∈ ps.map Prod.fst ↔ x ∈ ps.map Prod.snd)
    (hmoves : ∃ p ∈ ps, p.1 ≠ p.2) :
    ∃ pre p mid q rest, ps = pre ++ p :: mid ++ q :: rest ∧ q.1 = p.2 ∧ p.1 ≠ p.2 ∧
      p.1 ∉ pre.map Prod.snd := by
  -- The first step that writes elsewhere.
  obtain ⟨pre, p, rest, rfl, hp, hpre⟩ :
      ∃ pre p rest, ps = pre ++ p :: rest ∧ p.1 ≠ p.2 ∧ ∀ q ∈ pre, q.1 = q.2 := by
    clear hfst hsnd hsame
    induction ps with
    | nil =>
      obtain ⟨p, hp, -⟩ := hmoves
      cases hp
    | cons p ps ih =>
      by_cases hp : p.1 = p.2
      · obtain ⟨q, hq, hne⟩ := hmoves
        have hq' : q ∈ ps := (List.mem_cons.mp hq).resolve_left fun heq => hne (heq ▸ hp)
        obtain ⟨pre, p', rest, rfl, hp', hpre⟩ := ih ⟨q, hq', hne⟩
        refine ⟨p :: pre, p', rest, rfl, hp', fun q hq => ?_⟩
        cases List.mem_cons.mp hq with
        | inl heq => rwa [heq]
        | inr hq => exact hpre q hq
      · exact ⟨[], p, ps, rfl, hp, fun q hq => by cases hq⟩
  rw [List.map_append, List.map_cons] at hfst hsnd
  -- The step that reads what this one writes.
  obtain ⟨q, hq, hread⟩ : ∃ q ∈ pre ++ p :: rest, q.1 = p.2 := by
    have hmem := (hsame p.2).mpr (List.mem_map.mpr ⟨p, by simp, rfl⟩)
    obtain ⟨q, hq, hfst⟩ := List.mem_map.mp hmem
    exact ⟨q, hq, hfst⟩
  have hnew : p.1 ∉ pre.map Prod.snd := by
    intro hmem
    obtain ⟨r, hr, heq⟩ := List.mem_map.mp hmem
    have hdisjoint := (List.nodup_append.mp hfst).2.2 r.1 (List.mem_map_of_mem hr) p.1
      List.mem_cons_self
    exact hdisjoint ((hpre r hr).trans heq)
  have hnot : q ∉ pre := by
    intro hr
    have hdisjoint := (List.nodup_append.mp hsnd).2.2 q.2 (List.mem_map_of_mem hr) p.2
      List.mem_cons_self
    exact hdisjoint ((hpre q hr).symm.trans hread)
  have hother : q ≠ p := fun heq => hp (heq ▸ hread)
  have hrest : q ∈ rest :=
    (List.mem_cons.mp ((List.mem_append.mp hq).resolve_left hnot)).resolve_left hother
  obtain ⟨mid, after, rfl⟩ := List.append_of_mem hrest
  exact ⟨pre, p, mid, q, after, by simp, hread, hp, hnew⟩

/-! ## Places from an index vector that counts -/

/-- The distance of two elements whose index `k` differs by one, in column-major order. -/
def stride (dims : Nat → Nat) : Nat → Nat
  | 0 => 1
  | k + 1 => stride dims k * dims k

/-- The column-major place that the first `k` indices give. -/
def columnBase (dims index : Nat → Nat) : Nat → Nat
  | 0 => 0
  | k + 1 => columnBase dims index k + stride dims k * index k

/-- The row-major place that the first `k` indices give among the first `k` dimensions. -/
def rowBase (dims index : Nat → Nat) : Nat → Nat
  | 0 => 0
  | k + 1 => rowBase dims index k * dims k + index k

theorem foldl_stride (dims : Nat → Nat) (k : Nat) :
    (List.range k).foldl (fun jump i => jump * dims i) 1 = stride dims k := by
  induction k with
  | zero => rfl
  | succ k ih => rw [List.range_succ, List.foldl_append, ih]; rfl

theorem foldl_columnBase (dims index : Nat → Nat) (k base : Nat) :
    (List.range k).reverse.foldl (fun base i => base * dims i + index i) base =
      columnBase dims index k + stride dims k * base := by
  induction k generalizing base with
  | zero => simp [columnBase, stride]
  | succ k ih =>
    rw [List.range_succ, List.reverse_append, List.reverse_singleton, List.singleton_append,
      List.foldl_cons, ih, columnBase, stride]
    ring

theorem foldl_rowBase (dims index : Nat → Nat) (k : Nat) :
    (List.range' 1 k).foldl (fun base i => base * dims i + index i) (index 0) =
      rowBase dims index (k + 1) := by
  induction k with
  | zero => simp [rowBase]
  | succ k ih =>
    rw [List.range'_1_concat, List.foldl_append, ih, List.foldl_cons, List.foldl_nil,
      rowBase.eq_2 _ _ (k + 1), Nat.add_comm 1 k]

theorem columnBase_update {dims index : Nat → Nat} {k j : Nat} (h : k ≤ j) (i : Nat) :
    columnBase dims (Function.update index j i) k = columnBase dims index k := by
  induction k with
  | zero => rfl
  | succ k ih => rw [columnBase, columnBase, ih (by omega), Function.update_of_ne (by omega)]

theorem rowBase_update {dims index : Nat → Nat} {k j : Nat} (h : k ≤ j) (i : Nat) :
    rowBase dims (Function.update index j i) k = rowBase dims index k := by
  induction k with
  | zero => rfl
  | succ k ih => rw [rowBase, rowBase, ih (by omega), Function.update_of_ne (by omega)]

theorem foldlM_flatMap {σ ε α β : Type*} (visit : σ → β → Except ε σ) (f : α → List β)
    (xs : List α) (s : σ) :
    (xs.flatMap f).foldlM visit s = xs.foldlM (fun s x => (f x).foldlM visit s) s := by
  induction xs generalizing s with
  | nil => rfl
  | cons x xs ih =>
    rw [List.flatMap_cons, List.foldlM_append, List.foldlM_cons]
    congr 1
    funext s
    exact ih s

/-- A nest of loops whose body goes along the last dimension visits the elements by rows. -/
theorem nested_eq_positions {σ ε : Type*} {L : List Nat} {n : Nat} (hn : L.length = n + 1)
    {body : (Nat → Nat) → σ → Except ε σ} (visit : σ → Nat × Nat → Except ε σ)
    (hbody : ∀ index s, index n = 0 → body index s =
      (List.range (L.getD n 0)).foldlM
        (fun s i => visit s (columnBase (L.getD · 0) index n + stride (L.getD · 0) n * i,
          rowBase (L.getD · 0) index n * L.getD n 0 + i)) s)
    {r k : Nat} (hr : k + r = n) {index : Nat → Nat} (hzero : index n = 0) (s : σ) :
    nested (L.getD · 0) body r k index s =
      (positions (L.drop k)).foldlM
        (fun s p => visit s (columnBase (L.getD · 0) index k + stride (L.getD · 0) k * p.1,
          rowBase (L.getD · 0) index k * (L.drop k).prod + p.2)) s := by
  induction r generalizing k index s with
  | zero =>
    obtain rfl : k = n := hr
    have hlast : L.drop k = [L.getD k 0] := by
      rw [List.drop_eq_getElem_cons (by omega), List.drop_eq_nil_of_le (by omega),
        List.getD_eq_getElem _ _ (by omega)]
    have hpositions : positions [L.getD k 0] = (List.range (L.getD k 0)).map fun i => (i, i) := by
      simp [positions, List.map_eq_flatMap]
    rw [nested, hbody index s hzero, hlast, hpositions, List.foldlM_map]
    simp
  | succ r ih =>
    have hcons : L.drop k = L.getD k 0 :: L.drop (k + 1) := by
      rw [List.drop_eq_getElem_cons (by omega), List.getD_eq_getElem _ _ (by omega)]
    rw [nested, hcons, positions, foldlM_flatMap]
    congr 1
    funext s i
    rw [List.foldlM_map, ih (by omega) (by rw [Function.update_of_ne (by omega)]; exact hzero)]
    congr 1
    funext s p
    rw [columnBase, rowBase, stride, columnBase_update (Nat.le_refl k),
      rowBase_update (Nat.le_refl k), Function.update_self, List.prod_cons]
    congr 2
    · ring
    · ring

end Machine
