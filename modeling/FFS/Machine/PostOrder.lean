import Mathlib.Data.Finset.Card
import Mathlib.Data.List.Nodup

/-!
# Depth-first order

`visit` walks a graph depth first, given by the successors of each node.  It returns the
nodes in the order in which they were left and those in which they were entered.  `depth`
bounds the depth of the walk, and any bound above the number of nodes not visited yet
gives the same result.
-/

namespace Machine

variable {α β : Type} [DecidableEq α] [DecidableEq β]

/-- The state is the list of nodes left and the list of nodes entered. -/
def visit (succs : α → List α) : Nat → List α × List α → α → List α × List α
  | 0, state, _ => state
  | depth + 1, state, a =>
    if a ∈ state.2 then state
    else
      let below := (succs a).foldl (visit succs depth) (state.1, state.2 ++ [a])
      (below.1 ++ [a], below.2)

/-- How many nodes are still to be entered. -/
def room (nodes : Finset α) (visited : List α) : Nat := (nodes \ visited.toFinset).card

theorem room_mono {nodes : Finset α} {visited visited' : List α} (h : visited ⊆ visited') :
    room nodes visited' ≤ room nodes visited := by
  refine Finset.card_le_card (Finset.sdiff_subset_sdiff (Finset.Subset.refl nodes) fun x hx => ?_)
  exact List.mem_toFinset.mpr (h (List.mem_toFinset.mp hx))

theorem room_lt {nodes : Finset α} {visited : List α} {a : α} (ha : a ∈ nodes)
    (hfresh : a ∉ visited) : room nodes (visited ++ [a]) < room nodes visited := by
  refine Finset.card_lt_card (Finset.ssubset_iff_subset_ne.mpr ⟨?_, fun heq => ?_⟩)
  · intro x hx
    simp only [Finset.mem_sdiff, List.mem_toFinset, List.mem_append, not_or] at hx ⊢
    exact ⟨hx.1, hx.2.1⟩
  · have hmem : a ∈ nodes \ visited.toFinset := by simp [ha, hfresh]
    rw [← heq] at hmem
    simp at hmem

/-- What a walk adds: the nodes it enters are the ones it leaves, with all that they lead
to, and it enters no node but the ones it starts from and successors of nodes entered. -/
structure Visited (succs : α → List α) (starts : List α) (state state' : List α × List α)
    (new : List α) : Prop where
  left : state'.1 = state.1 ++ new
  entered : ∀ x, x ∈ state'.2 ↔ x ∈ state.2 ∨ x ∈ new
  fresh : ∀ x ∈ new, x ∉ state.2
  nodup : new.Nodup
  started : ∀ x ∈ starts, x ∈ state'.2
  closed : ∀ x ∈ new, ∀ y ∈ succs x, y ∈ state'.2
  origin : ∀ x ∈ new, x ∈ starts ∨ ∃ y ∈ new, y ≠ x ∧ x ∈ succs y

variable {succs : α → List α} {nodes : Finset α}

theorem visited_foldl {depth : Nat}
    (hvisit : ∀ state a, a ∈ nodes → room nodes state.2 < depth →
      ∃ new, Visited succs [a] state (visit succs depth state a) new)
    {starts : List α} (hstarts : ∀ a ∈ starts, a ∈ nodes) {state : List α × List α}
    (hroom : room nodes state.2 < depth) :
    ∃ new, Visited succs starts state (starts.foldl (visit succs depth) state) new := by
  induction starts generalizing state with
  | nil =>
    refine ⟨[], ⟨by simp, by simp, by simp, List.nodup_nil, by simp, by simp, by simp⟩⟩
  | cons a starts ih =>
    obtain ⟨new, hnew⟩ := hvisit state a (hstarts a List.mem_cons_self) hroom
    have hsub : state.2 ⊆ (visit succs depth state a).2 :=
      fun x hx => (hnew.entered x).mpr (Or.inl hx)
    obtain ⟨new', hnew'⟩ := ih (fun b hb => hstarts b (List.mem_cons_of_mem _ hb))
      (lt_of_le_of_lt (room_mono hsub) hroom)
    have hentered : ∀ x, x ∈ (starts.foldl (visit succs depth) (visit succs depth state a)).2 ↔
        x ∈ state.2 ∨ x ∈ new ++ new' := by
      intro x
      rw [hnew'.entered, hnew.entered, List.mem_append, or_assoc]
    have hkept : ∀ x ∈ (visit succs depth state a).2,
        x ∈ (starts.foldl (visit succs depth) (visit succs depth state a)).2 :=
      fun x hx => (hnew'.entered x).mpr (Or.inl hx)
    refine ⟨new ++ new', ⟨?_, hentered, ?_, ?_, ?_, ?_, ?_⟩⟩
    · rw [List.foldl_cons, hnew'.left, hnew.left, List.append_assoc]
    · intro x hx
      rcases List.mem_append.mp hx with hx | hx
      · exact hnew.fresh x hx
      · exact fun hmem => hnew'.fresh x hx (hsub hmem)
    · refine List.nodup_append.mpr ⟨hnew.nodup, hnew'.nodup, ?_⟩
      rintro x hx y hy rfl
      exact hnew'.fresh x hy ((hnew.entered x).mpr (Or.inr hx))
    · intro x hx
      rcases List.mem_cons.mp hx with rfl | hx
      · exact hkept x (hnew.started x (List.mem_singleton_self x))
      · exact hnew'.started x hx
    · intro x hx y hy
      rcases List.mem_append.mp hx with hx | hx
      · exact hkept y (hnew.closed x hx y hy)
      · exact hnew'.closed x hx y hy
    · intro x hx
      rcases List.mem_append.mp hx with hx | hx
      · rcases hnew.origin x hx with hstart | ⟨y, hy, hne, hsucc⟩
        · exact Or.inl (by rw [List.mem_singleton.mp hstart]; exact List.mem_cons_self)
        · exact Or.inr ⟨y, List.mem_append_left _ hy, hne, hsucc⟩
      · rcases hnew'.origin x hx with hstart | ⟨y, hy, hne, hsucc⟩
        · exact Or.inl (List.mem_cons_of_mem _ hstart)
        · exact Or.inr ⟨y, List.mem_append_right _ hy, hne, hsucc⟩

/-- A walk from one node, its depth bounded by the nodes that are left. -/
theorem visited_visit (hclosed : ∀ x ∈ nodes, ∀ y ∈ succs x, y ∈ nodes) {depth : Nat}
    (state : List α × List α) (a : α) (ha : a ∈ nodes) (hroom : room nodes state.2 < depth) :
    ∃ new, Visited succs [a] state (visit succs depth state a) new := by
  induction depth generalizing state a with
  | zero => omega
  | succ depth ih =>
    rw [visit]
    by_cases hmem : a ∈ state.2
    · rw [if_pos hmem]
      exact ⟨[], ⟨by simp, by simp, by simp, List.nodup_nil, by simpa using hmem, by simp, by simp⟩⟩
    · rw [if_neg hmem]
      have hlt := room_lt ha hmem
      obtain ⟨new, hnew⟩ := visited_foldl ih (hclosed a ha)
        (show room nodes (state.1, state.2 ++ [a]).2 < depth by simpa using by omega)
      generalize (succs a).foldl (visit succs depth) (state.1, state.2 ++ [a]) = below at *
      have hnotNew : a ∉ new := fun h => hnew.fresh a h (by simp)
      refine ⟨new ++ [a], ⟨?_, ?_, ?_, ?_, ?_, ?_, ?_⟩⟩
      · simp only [hnew.left, List.append_assoc]
      · intro x
        simp only [hnew.entered, List.mem_append, List.mem_singleton]
        tauto
      · intro x hx
        rcases List.mem_append.mp hx with hx | hx
        · exact fun h => hnew.fresh x hx (List.mem_append_left _ h)
        · rwa [List.mem_singleton.mp hx]
      · refine List.nodup_append.mpr ⟨hnew.nodup, List.nodup_singleton a, ?_⟩
        rintro x hx y hy rfl
        exact hnotNew (List.mem_singleton.mp hy ▸ hx)
      · intro x hx
        rw [List.mem_singleton.mp hx]
        exact (hnew.entered a).mpr (Or.inl (by simp))
      · intro x hx y hy
        rcases List.mem_append.mp hx with hx | hx
        · exact hnew.closed x hx y hy
        · rw [List.mem_singleton.mp hx] at hy
          exact hnew.started y hy
      · intro x hx
        rcases List.mem_append.mp hx with hx | hx
        · rcases hnew.origin x hx with hstart | ⟨y, hy, hne, hsucc⟩
          · refine Or.inr ⟨a, by simp, ?_, hstart⟩
            rintro rfl
            exact hnotNew hx
          · exact Or.inr ⟨y, List.mem_append_left _ hy, hne, hsucc⟩
        · exact Or.inl hx

/-! ## Depth -/

/-- The depth makes no difference as long as it suffices. -/
theorem visit_depth (hclosed : ∀ x ∈ nodes, ∀ y ∈ succs x, y ∈ nodes) {depth depth' : Nat}
    {state : List α × List α} {a : α} (ha : a ∈ nodes) (hroom : room nodes state.2 < depth)
    (hroom' : room nodes state.2 < depth') :
    visit succs depth state a = visit succs depth' state a := by
  induction depth generalizing depth' state a with
  | zero => omega
  | succ depth ih =>
    obtain ⟨depth', rfl⟩ : ∃ d, depth' = d + 1 := ⟨depth' - 1, by omega⟩
    by_cases hmem : a ∈ state.2
    · simp only [visit, if_pos hmem]
    · have hlt := room_lt ha hmem
      have hfold : ∀ (starts : List α) (s : List α × List α), (∀ b ∈ starts, b ∈ nodes) →
          room nodes s.2 < depth → room nodes s.2 < depth' →
          starts.foldl (visit succs depth) s = starts.foldl (visit succs depth') s := by
        intro starts
        induction starts with
        | nil => intros; rfl
        | cons b starts ihs =>
          intro s hstarts hs hs'
          have hb := hstarts b List.mem_cons_self
          obtain ⟨new, hnew⟩ := visited_visit hclosed s b hb hs
          have hsub : s.2 ⊆ (visit succs depth s b).2 :=
            fun x hx => (hnew.entered x).mpr (Or.inl hx)
          rw [List.foldl_cons, List.foldl_cons, ← ih hb hs hs']
          exact ihs _ (fun c hc => hstarts c (List.mem_cons_of_mem _ hc))
            (lt_of_le_of_lt (room_mono hsub) hs) (lt_of_le_of_lt (room_mono hsub) hs')
      have hbelow := hfold (succs a) (state.1, state.2 ++ [a]) (hclosed a ha)
        (by simpa using by omega) (by simpa using by omega)
      simp only [visit, if_neg hmem, hbelow]

/-! ## Renaming -/

/-- A walk of a graph whose nodes are renamed. -/
theorem visit_map {succs' : β → List β} {nodes' : Finset β} {rename : β → α}
    (hinj : ∀ x ∈ nodes', ∀ y ∈ nodes', rename x = rename y → x = y)
    (hclosed : ∀ x ∈ nodes', ∀ y ∈ succs' x, y ∈ nodes')
    (hsuccs : ∀ x ∈ nodes', succs (rename x) = (succs' x).map rename) {depth : Nat}
    {state : List β × List β} {b : β} (hb : b ∈ nodes') (hstate : ∀ x ∈ state.2, x ∈ nodes') :
    visit succs depth (state.1.map rename, state.2.map rename) (rename b) =
        ((visit succs' depth state b).1.map rename, (visit succs' depth state b).2.map rename) ∧
      ∀ x ∈ (visit succs' depth state b).2, x ∈ nodes' := by
  induction depth generalizing state b with
  | zero => exact ⟨rfl, hstate⟩
  | succ depth ih =>
    have hmem : rename b ∈ state.2.map rename ↔ b ∈ state.2 := by
      rw [List.mem_map]
      constructor
      · rintro ⟨x, hx, heq⟩
        exact hinj x (hstate x hx) b hb heq ▸ hx
      · exact fun h => ⟨b, h, rfl⟩
    by_cases hin : b ∈ state.2
    · simp only [visit, if_pos hin, if_pos (hmem.mpr hin), true_and]
      exact hstate
    · have hfold : ∀ (starts : List β) (s : List β × List β), (∀ x ∈ starts, x ∈ nodes') →
          (∀ x ∈ s.2, x ∈ nodes') →
          (starts.map rename).foldl (visit succs depth) (s.1.map rename, s.2.map rename) =
              ((starts.foldl (visit succs' depth) s).1.map rename,
                (starts.foldl (visit succs' depth) s).2.map rename) ∧
            ∀ x ∈ (starts.foldl (visit succs' depth) s).2, x ∈ nodes' := by
        intro starts
        induction starts with
        | nil => exact fun s _ hs => ⟨rfl, hs⟩
        | cons x starts ihs =>
          intro s hstarts hs
          obtain ⟨heq, hnodes⟩ := ih (hstarts x List.mem_cons_self) hs
          rw [List.map_cons, List.foldl_cons, List.foldl_cons, heq]
          exact ihs _ (fun y hy => hstarts y (List.mem_cons_of_mem _ hy)) hnodes
      have hentered : ∀ x ∈ (state.1, state.2 ++ [b]).2, x ∈ nodes' := by
        intro x hx
        rcases List.mem_append.mp hx with hx | hx
        · exact hstate x hx
        · exact List.mem_singleton.mp hx ▸ hb
      obtain ⟨heq, hnodes⟩ := hfold (succs' b) (state.1, state.2 ++ [b]) (hclosed b hb) hentered
      simp only [visit, if_neg hin, if_neg (fun h => hin (hmem.mp h)), hsuccs b hb]
      rw [List.map_append, List.map_singleton] at heq
      rw [heq]
      exact ⟨by rw [List.map_append, List.map_singleton], hnodes⟩

/-! ## From one node -/

/-- The nodes that `a` leads to, in the order in which a walk from `a` leaves them. -/
def postOrder (succs : α → List α) (depth : Nat) (a : α) : List α :=
  (visit succs depth ([], []) a).1

/-- The order has every node that `a` leads to, once, and nothing else. -/
structure PostOrdered (succs : α → List α) (a : α) (order : List α) : Prop where
  nodup : order.Nodup
  root : a ∈ order
  closed : ∀ x ∈ order, ∀ y ∈ succs x, y ∈ order
  origin : ∀ x ∈ order, x = a ∨ ∃ y ∈ order, y ≠ x ∧ x ∈ succs y

theorem room_nil (nodes : Finset α) : room nodes [] = nodes.card := by
  rw [room, List.toFinset_nil, Finset.sdiff_empty]

theorem postOrdered_postOrder (hclosed : ∀ x ∈ nodes, ∀ y ∈ succs x, y ∈ nodes) {depth : Nat}
    {a : α} (ha : a ∈ nodes) (hdepth : nodes.card < depth) :
    PostOrdered succs a (postOrder succs depth a) := by
  obtain ⟨new, hnew⟩ := visited_visit hclosed ([], []) a ha (by rw [room_nil]; exact hdepth)
  have hentered : ∀ x, x ∈ (visit succs depth ([], []) a).2 ↔ x ∈ new := by
    intro x
    rw [hnew.entered]
    simp
  have horder : postOrder succs depth a = new := by rw [postOrder, hnew.left, List.nil_append]
  rw [horder]
  refine ⟨hnew.nodup, ?_, ?_, ?_⟩
  · exact (hentered a).mp (hnew.started a (List.mem_singleton_self a))
  · exact fun x hx y hy => (hentered y).mp (hnew.closed x hx y hy)
  · intro x hx
    rcases hnew.origin x hx with h | h
    · exact Or.inl (List.mem_singleton.mp h)
    · exact Or.inr h

theorem postOrder_map {succs' : β → List β} {nodes' : Finset β} {rename : β → α}
    (hinj : ∀ x ∈ nodes', ∀ y ∈ nodes', rename x = rename y → x = y)
    (hclosed : ∀ x ∈ nodes', ∀ y ∈ succs' x, y ∈ nodes')
    (hsuccs : ∀ x ∈ nodes', succs (rename x) = (succs' x).map rename) {depth depth' : Nat} {b : β}
    (hb : b ∈ nodes') (hdepth : nodes'.card < depth) (hdepth' : nodes'.card < depth') :
    postOrder succs depth (rename b) = (postOrder succs' depth' b).map rename := by
  have hempty : ∀ x ∈ (([], []) : List β × List β).2, x ∈ nodes' := by simp
  have hmap : visit succs depth ([], []) (rename b) = _ :=
    (visit_map hinj hclosed hsuccs hb hempty).1
  rw [postOrder, hmap, postOrder, visit_depth hclosed hb (by rw [room_nil]; exact hdepth)
    (by rw [room_nil]; exact hdepth')]

end Machine
