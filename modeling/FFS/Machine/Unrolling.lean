import FFS.Machine.Acyclic
import FFS.Machine.Fallible
import Mathlib.Data.List.Nodup

/-!
# Graphs unrolled into trees

A recursion over a graph that keeps no account of where it has been comes to a node once for
every path that leads there.  `preorder` is the order in which it does.  In a finite graph it ends
without coming to a node twice just when no two paths lead to one node.
-/

namespace Machine

open Relation

variable {α : Type}

/-- The nodes of the tree under a node, parents in front of their children. -/
def preorder (succs : α → List α) : Nat → α → Option (List α)
  | 0, _ => none
  | fuel + 1, a => ((succs a).mapM (preorder succs fuel)).map fun below => a :: below.flatten

/-- A path is given by the numbers of the edges that it takes. -/
inductive Path (succs : α → List α) : α → List Nat → α → Prop where
  | here (a : α) : Path succs a [] a
  | edge {a b c : α} {i : Nat} {p : List Nat} (h : (succs a)[i]? = some b)
      (hp : Path succs b p c) : Path succs a (i :: p) c

variable {succs : α → List α} {a b c : α}

theorem Path.append {p q : List Nat} (hp : Path succs a p b) (hq : Path succs b q c) :
    Path succs a (p ++ q) c := by
  induction hp with
  | here => exact hq
  | edge h _ ih => exact .edge h (ih hq)

theorem exists_path_of_leads (h : ReflTransGen (fun x y => y ∈ succs x) a b) :
    ∃ p, Path succs a p b := by
  induction h with
  | refl => exact ⟨[], .here a⟩
  | tail _ hstep ih =>
    obtain ⟨p, hp⟩ := ih
    obtain ⟨i, hi⟩ := List.mem_iff_getElem?.1 hstep
    exact ⟨p ++ [i], hp.append (.edge hi (.here _))⟩

theorem Path.leads {p : List Nat} (h : Path succs a p b) :
    ReflTransGen (fun x y => y ∈ succs x) a b := by
  induction h with
  | here => exact .refl
  | edge hi _ ih => exact .head (List.mem_of_getElem? hi) ih

/-- No two paths lead from a node to the same one. -/
def PathsUnique (succs : α → List α) (a : α) : Prop :=
  ∀ b p q, Path succs a p b → Path succs a q b → p = q

theorem PathsUnique.acyclic (h : PathsUnique succs a) :
    Acyclic (fun x y => y ∈ succs x) a := by
  intro b hab hcycle
  obtain ⟨p, hp⟩ := exists_path_of_leads hab
  obtain ⟨c, hbc, hcb⟩ := TransGen.head'_iff.1 hcycle
  obtain ⟨i, hi⟩ := List.mem_iff_getElem?.1 hbc
  obtain ⟨q, hq⟩ := exists_path_of_leads hcb
  have := h b p (p ++ i :: q) hp (hp.append (.edge hi hq))
  simp at this

/-- The nodes under the children from some number on, with the paths to them. -/
theorem paths_of_children {k : Nat} {bs : List α} {ls : List (List α)}
    (hlist : List.Forall₂ (fun b l => ∃ ps : List (List Nat × α), ps.map Prod.snd = l ∧
      (ps.map Prod.fst).Nodup ∧ ∀ p c, (p, c) ∈ ps ↔ Path succs b p c) bs ls) :
    ∃ ps : List (List Nat × α), ps.map Prod.snd = ls.flatten ∧ (ps.map Prod.fst).Nodup ∧
      ∀ p c, (p, c) ∈ ps ↔ ∃ i b q, bs[i]? = some b ∧ p = (k + i) :: q ∧ Path succs b q c := by
  induction hlist generalizing k with
  | nil => exact ⟨[], rfl, .nil, by simp⟩
  | @cons b l bs ls hb _ ih =>
    obtain ⟨ps, hsnd, hnodup, hps⟩ := hb
    obtain ⟨qs, hsnd', hnodup', hqs⟩ := ih (k := k + 1)
    refine ⟨ps.map (fun x => (k :: x.1, x.2)) ++ qs, ?_, ?_, fun p c => ?_⟩
    · rw [List.map_append, List.map_map, hsnd', List.flatten_cons, ← hsnd]
      rfl
    · rw [List.map_append, List.map_map, List.nodup_append]
      refine ⟨?_, hnodup', ?_⟩
      · have : (ps.map (Prod.fst ∘ fun x => (k :: x.1, x.2))) =
            (ps.map Prod.fst).map (k :: ·) := by
          rw [List.map_map]
          rfl
        rw [this]
        exact hnodup.map fun _ _ h => (List.cons.inj h).2
      · rintro x hx y hy rfl
        obtain ⟨z, -, rfl⟩ := List.mem_map.1 hx
        obtain ⟨⟨w, c⟩, hw, heq⟩ := List.mem_map.1 hy
        obtain ⟨i, d, q, -, rfl, -⟩ := (hqs w c).1 hw
        have := (List.cons.inj heq).1
        omega
    · rw [List.mem_append, hqs]
      constructor
      · rintro (h | ⟨i, d, q, hi, rfl, hq⟩)
        · obtain ⟨⟨p', c'⟩, hmem, heq⟩ := List.mem_map.1 h
          obtain ⟨rfl, rfl⟩ := Prod.mk.inj heq
          exact ⟨0, b, p', rfl, rfl, (hps p' c').1 hmem⟩
        · exact ⟨i + 1, d, q, hi, by rw [Nat.add_right_comm, Nat.add_assoc], hq⟩
      · rintro ⟨i, d, q, hi, rfl, hq⟩
        cases i with
        | zero =>
          obtain rfl := Option.some.inj hi
          exact .inl (List.mem_map.2 ⟨(q, c), (hps q c).2 hq, rfl⟩)
        | succ i => exact .inr ⟨i, d, q, hi, by rw [Nat.add_right_comm, Nat.add_assoc], hq⟩

/-- A walk comes to a node once for each path that leads there. -/
theorem preorder_paths {fuel : Nat} {l : List α} (h : preorder succs fuel a = some l) :
    ∃ ps : List (List Nat × α), ps.map Prod.snd = l ∧ (ps.map Prod.fst).Nodup ∧
      ∀ p b, (p, b) ∈ ps ↔ Path succs a p b := by
  induction fuel generalizing a l with
  | zero => cases h
  | succ fuel ih =>
    obtain ⟨ls, hls, rfl⟩ := Option.map_eq_some_iff.1 h
    obtain ⟨ps, hsnd, hnodup, hps⟩ := paths_of_children (k := 0)
      ((mapM_eq_some_iff.1 hls).imp fun b l hb => ih hb)
    refine ⟨([], a) :: ps, ?_, ?_, fun p b => ?_⟩
    · rw [List.map_cons, hsnd]
    · rw [List.map_cons, List.nodup_cons]
      refine ⟨fun hmem => ?_, hnodup⟩
      obtain ⟨⟨p, c⟩, hp, heq⟩ := List.mem_map.1 hmem
      obtain ⟨i, b, q, -, rfl, -⟩ := (hps p c).1 hp
      cases heq
    · rw [List.mem_cons, hps]
      constructor
      · rintro (heq | ⟨i, c, q, hi, rfl, hq⟩)
        · obtain ⟨rfl, rfl⟩ := Prod.mk.inj heq
          exact .here _
        · rw [Nat.zero_add]
          exact .edge hi hq
      · rintro (_ | ⟨hi, hq⟩)
        · exact .inl rfl
        · exact .inr ⟨_, _, _, hi, by rw [Nat.zero_add], hq⟩

theorem mem_preorder {fuel : Nat} {l : List α} (h : preorder succs fuel a = some l) :
    b ∈ l ↔ ReflTransGen (fun x y => y ∈ succs x) a b := by
  obtain ⟨ps, rfl, -, hps⟩ := preorder_paths h
  constructor
  · intro hb
    obtain ⟨⟨p, c⟩, hp, rfl⟩ := List.mem_map.1 hb
    exact ((hps p c).1 hp).leads
  · intro hb
    obtain ⟨p, hp⟩ := exists_path_of_leads hb
    exact List.mem_map.2 ⟨(p, b), (hps p b).2 hp, rfl⟩

theorem preorder_nodup_iff {fuel : Nat} {l : List α} (h : preorder succs fuel a = some l) :
    l.Nodup ↔ PathsUnique succs a := by
  obtain ⟨ps, rfl, hnodup, hps⟩ := preorder_paths h
  constructor
  · intro hl b p q hp hq
    have := List.inj_on_of_nodup_map hl ((hps p b).2 hp) ((hps q b).2 hq) rfl
    exact (Prod.mk.inj this).1
  · intro hu
    refine List.Nodup.map_on ?_ (List.Nodup.of_map _ hnodup)
    rintro ⟨p, b⟩ hp ⟨q, c⟩ hq heq
    obtain rfl : b = c := heq
    rw [hu b p q ((hps p b).1 hp) ((hps q b).1 hq)]

theorem preorder_mono {fuel : Nat} {l : List α} (h : preorder succs fuel a = some l) {m : Nat}
    (hm : fuel ≤ m) : preorder succs m a = some l := by
  induction fuel generalizing a l m with
  | zero => cases h
  | succ fuel ih =>
    obtain ⟨m, rfl⟩ := Nat.exists_eq_add_of_le' (Nat.le_trans (Nat.succ_pos fuel) hm)
    obtain ⟨ls, hls, rfl⟩ := Option.map_eq_some_iff.1 h
    have hle : fuel ≤ m := Nat.le_of_succ_le_succ hm
    have hls' : (succs a).mapM (preorder succs m) = some ls :=
      mapM_eq_some_iff.2 ((mapM_eq_some_iff.1 hls).imp fun b l hb => ih hb hle)
    rw [preorder, hls']
    rfl

/-- Where the graph is a tree under a node, the walk ends. -/
theorem exists_preorder (h : Acc (fun x y => x ∈ succs y) a) :
    ∃ fuel l, preorder succs fuel a = some l := by
  induction h with
  | intro a _ ih =>
    have hbound : ∃ n, ∀ b ∈ succs a, ∀ m, n ≤ m → ∃ l, preorder succs m b = some l := by
      refine exists_bound fun b hb => ?_
      obtain ⟨fuel, l, hl⟩ := ih b hb
      exact ⟨fuel, fun m hm => ⟨l, preorder_mono hl hm⟩⟩
    obtain ⟨n, hn⟩ := hbound
    obtain ⟨ls, hls⟩ := exists_mapM_eq_some fun b hb => hn b hb n (Nat.le_refl n)
    exact ⟨n + 1, a :: ls.flatten, by rw [preorder, hls]; rfl⟩

/-- In a finite graph a walk ends without coming to a node twice just when no two paths lead to
one node. -/
theorem preorder_iff [Finite α] :
    (∃ fuel l, preorder succs fuel a = some l ∧ l.Nodup) ↔ PathsUnique succs a := by
  constructor
  · rintro ⟨fuel, l, h, hl⟩
    exact (preorder_nodup_iff h).1 hl
  · intro hu
    have := Fintype.ofFinite α
    obtain ⟨fuel, l, h⟩ := exists_preorder (acc_of_acyclic
      (fun _ _ b _ => Finset.mem_univ b) (Finset.mem_univ a) hu.acyclic)
    exact ⟨fuel, l, h, (preorder_nodup_iff h).2 hu⟩

end Machine
