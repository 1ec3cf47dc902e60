import Mathlib.Data.List.Chain
import Mathlib.Logic.Relation
import FFS.Machine.PostOrder

/-!
# First ways

A walk that goes depth first comes to a node by the first way that leads to it: at no node of the
way does a successor that comes earlier lead there too without the nodes before.  The nodes of
this way are left behind the node, all other successors of the node before it.
-/

namespace Machine

open Relation

variable {α : Type} {succs : α → List α} {root a b x y : α}

/-! ## Ways -/

/-- A node leads to another by nodes that are not in a list. -/
def LeadsAround (succs : α → List α) (avoid : List α) (a b : α) : Prop :=
  a ∉ avoid ∧ ReflTransGen (fun x y => y ∈ succs x ∧ y ∉ avoid) a b

/-- The nodes before `x` on the first way from the root to `x`. -/
structure FirstWay [DecidableEq α] (succs : α → List α) (root : α) (way : List α) (x : α) :
    Prop where
  start : (way ++ [x]).head? = some root
  steps : (way ++ [x]).IsChain fun u v => v ∈ succs u
  nodup : (way ++ [x]).Nodup
  first : ∀ before u v behind, way ++ [x] = before ++ u :: v :: behind →
    ∀ w ∈ (succs u).takeWhile (· ≠ v), ¬ LeadsAround succs (before ++ [u]) w x

theorem leadsAround_of_isChain {avoid rest : List α}
    (hsteps : (a :: rest).IsChain fun u v => v ∈ succs u)
    (havoid : ∀ y ∈ a :: rest, y ∉ avoid) (hlast : (a :: rest).getLast? = some x) :
    LeadsAround succs avoid a x := by
  refine ⟨havoid a List.mem_cons_self, ?_⟩
  induction rest generalizing a with
  | nil =>
    cases hlast
    exact .refl
  | cons b rest ih =>
    obtain ⟨hstep, hrest⟩ := List.isChain_cons_cons.mp hsteps
    rw [List.getLast?_cons_cons] at hlast
    exact .head ⟨hstep, havoid b (by simp)⟩
      (ih hrest (fun y hy => havoid y (List.mem_cons_of_mem _ hy)) hlast)

/-- Two members of a list, one before the other. -/
theorem pair_sublist_iff {before behind : List α} (h : (before ++ x :: behind).Nodup) :
    [y, x].Sublist (before ++ x :: behind) ↔ y ∈ before := by
  obtain ⟨-, hbehind, hapart⟩ := List.nodup_append.mp h
  constructor
  · intro hsub
    obtain ⟨l, l', heq, hl, hl'⟩ := List.sublist_append_iff.mp hsub
    cases l with
    | nil =>
      rw [List.nil_append] at heq
      subst heq
      have hx : x ∈ behind := by
        cases hl' with
        | cons _ h => exact h.subset (by simp)
        | cons_cons _ h => exact h.subset (by simp)
      exact absurd hx (List.nodup_cons.mp hbehind).1
    | cons c l =>
      rw [List.cons_append, List.cons.injEq] at heq
      rw [heq.1]
      exact hl.subset List.mem_cons_self
  · intro hy
    exact List.Sublist.append (List.singleton_sublist.mpr hy)
      (List.singleton_sublist.mpr List.mem_cons_self)

variable [DecidableEq α]

/-- One of two members of a list comes first. -/
theorem mem_takeWhile_ne {l : List α} (hab : a ≠ b) (ha : a ∈ l) (hb : b ∈ l) :
    a ∈ l.takeWhile (· ≠ b) ∨ b ∈ l.takeWhile (· ≠ a) := by
  induction l with
  | nil => cases ha
  | cons c l ih =>
    by_cases hca : c = a
    · subst hca
      exact .inl (by simp [hab])
    · by_cases hcb : c = b
      · subst hcb
        exact .inr (by simp [hca])
      · have ha' := (List.mem_cons.mp ha).resolve_left (Ne.symm hca)
        have hb' := (List.mem_cons.mp hb).resolve_left (Ne.symm hcb)
        simp only [List.takeWhile_cons, hca, hcb, ne_eq, not_false_eq_true, decide_true, if_true]
        exact (ih ha' hb').imp (List.mem_cons_of_mem _) (List.mem_cons_of_mem _)

/-- Two lists from one start are equal, or part somewhere, or one goes on behind the other. -/
theorem parting {l l' : List α} {a : α} (h : l.head? = some a) (h' : l'.head? = some a) :
    l = l' ∨
      (∃ before u v v' behind behind', v ≠ v' ∧ l = before ++ u :: v :: behind ∧
        l' = before ++ u :: v' :: behind') ∨
      (∃ y rest, l' = l ++ y :: rest) ∨ ∃ y rest, l = l' ++ y :: rest := by
  induction l generalizing l' a with
  | nil => cases h
  | cons c l ih =>
    cases l' with
    | nil => cases h'
    | cons c' l' =>
      cases h
      cases h'
      cases hl : l with
      | nil =>
        cases l' with
        | nil => exact .inl rfl
        | cons y rest => exact .inr (.inr (.inl ⟨y, rest, rfl⟩))
      | cons v rest =>
        cases hl' : l' with
        | nil => exact .inr (.inr (.inr ⟨v, rest, rfl⟩))
        | cons v' rest' =>
          by_cases hv : v = v'
          · subst hv
            rcases ih (a := v) (by rw [hl]; rfl) (by rw [hl']; rfl : l'.head? = some v) with
              heq | ⟨before, u, w, w', b, b', hne, hb, hb'⟩ | ⟨y, r, hr⟩ | ⟨y, r, hr⟩
            · exact .inl (by rw [← hl, ← hl', heq])
            · refine .inr (.inl ⟨c :: before, u, w, w', b, b', hne, ?_, ?_⟩)
              · rw [← hl, hb, List.cons_append]
              · rw [← hl', hb', List.cons_append]
            · exact .inr (.inr (.inl ⟨y, r, by rw [← hl, ← hl', hr, List.cons_append]⟩))
            · exact .inr (.inr (.inr ⟨y, r, by rw [← hl, ← hl', hr, List.cons_append]⟩))
          · exact .inr (.inl ⟨[], c, v, v', rest, rest', hv, rfl, rfl⟩)

/-- A way that parts from a first way to its left does not lead to the same node. -/
theorem FirstWay.not_left {way way' before behind behind' : List α} {u v v' : α}
    (h : FirstWay succs root way x) (h' : FirstWay succs root way' x)
    (hway : way ++ [x] = before ++ u :: v :: behind)
    (hway' : way' ++ [x] = before ++ u :: v' :: behind') :
    v' ∉ (succs u).takeWhile (· ≠ v) := by
  intro hmem
  refine h.first before u v behind hway v' hmem ?_
  have hsteps := h'.steps
  have hnodup := h'.nodup
  have hlast := congrArg List.getLast? hway'
  rw [hway'] at hsteps hnodup
  rw [List.getLast?_append_of_ne_nil _ (by simp), List.getLast?_append_of_ne_nil _ (by simp),
    List.getLast?_singleton, List.getLast?_cons_cons] at hlast
  refine leadsAround_of_isChain (List.IsChain.tail (hsteps.right_of_append)) ?_ hlast.symm
  intro y hy hybefore
  rw [show before ++ u :: v' :: behind' = (before ++ [u]) ++ v' :: behind' by simp] at hnodup
  exact (List.nodup_append.mp hnodup).2.2 y hybefore y hy rfl

theorem FirstWay.unique {way way' : List α} (h : FirstWay succs root way x)
    (h' : FirstWay succs root way' x) : way = way' := by
  -- A way to `x` does not come to `x` twice.
  have hover : ∀ {l l' : List α} {y : α} {rest : List α}, (l' ++ [x]).Nodup →
      l' ++ [x] = (l ++ [x]) ++ y :: rest → False := by
    intro l l' y rest hnodup heq
    have hlast := congrArg List.getLast? heq
    rw [List.getLast?_append_of_ne_nil _ (by simp), List.getLast?_append_of_ne_nil _ (by simp),
      List.getLast?_singleton] at hlast
    rw [heq] at hnodup
    exact (List.nodup_append.mp hnodup).2.2 x (by simp) x (List.mem_of_getLast? hlast.symm) rfl
  rcases parting h.start h'.start with
    heq | ⟨before, u, v, v', behind, behind', hne, hway, hway'⟩ | ⟨y, rest, heq⟩ | ⟨y, rest, heq⟩
  · exact List.append_cancel_right heq
  · have hv : v ∈ succs u := by
      have hsteps := h.steps
      rw [hway] at hsteps
      exact (List.isChain_cons_cons.mp hsteps.right_of_append).1
    have hv' : v' ∈ succs u := by
      have hsteps := h'.steps
      rw [hway'] at hsteps
      exact (List.isChain_cons_cons.mp hsteps.right_of_append).1
    rcases mem_takeWhile_ne hne hv hv' with hleft | hleft
    · exact absurd hleft (h'.not_left h hway' hway)
    · exact absurd hleft (h.not_left h' hway hway')
  · exact (hover h'.nodup heq).elim
  · exact (hover h.nodup heq).elim

/-! ## The walk -/

/-- A node that was left: its way is still open then, and its other successors were left before. -/
def Placed (succs : α → List α) (root : α) (left : List α) (x : α) : Prop :=
  ∃ before behind way, left = before ++ x :: behind ∧ FirstWay succs root way x ∧
    (∀ y ∈ way, y ∉ before) ∧ ∀ y ∈ succs x, y ≠ x → y ∉ way → y ∈ before

theorem Placed.append {left : List α} (h : Placed succs root left x) (more : List α) :
    Placed succs root (left ++ more) x := by
  obtain ⟨before, behind, way, rfl, hway, hopen, hleft⟩ := h
  exact ⟨before, behind ++ more, way, by simp, hway, hopen, hleft⟩

/-- The walk in the midst of it.  The nodes on the stack are entered and not left yet. -/
structure Walking (succs : α → List α) (root : α) (stack : List α)
    (state : List α × List α) : Prop where
  entered : ∀ y, y ∈ state.2 ↔ y ∈ stack ∨ y ∈ state.1
  unfinished : ∀ y ∈ stack, y ∉ state.1
  closed : ∀ y ∈ state.1, ∀ z ∈ succs y, z ∈ state.2
  placed : ∀ x ∈ state.1, Placed succs root state.1 x

/-- The way to a node that the walk comes to.  What is to the left of it was left before. -/
structure OpenWay (succs : α → List α) (root : α) (way left : List α) : Prop where
  start : way.head? = some root
  steps : way.IsChain fun u v => v ∈ succs u
  nodup : way.Nodup
  first : ∀ before u v behind, way = before ++ u :: v :: behind →
    ∀ w ∈ (succs u).takeWhile (· ≠ v), ∀ z, LeadsAround succs (before ++ [u]) w z → z ∈ left

theorem OpenWay.firstWay {stack left : List α} (h : OpenWay succs root (stack ++ [a]) left)
    (ha : a ∉ left) : FirstWay succs root stack a :=
  ⟨h.start, h.steps, h.nodup, fun before u v behind hway w hw hleads =>
    ha (h.first before u v behind hway w hw a hleads)⟩

theorem OpenWay.mono {way left left' : List α} (h : OpenWay succs root way left)
    (hsub : left ⊆ left') : OpenWay succs root way left' :=
  ⟨h.start, h.steps, h.nodup, fun before u v behind hway w hw z hleads =>
    hsub (h.first before u v behind hway w hw z hleads)⟩

variable {stack : List α} {state : List α × List α}

/-- Where the walk entered a node and did not stop at the stack, it left all that follows. -/
theorem Walking.left_of_leadsAround (h : Walking succs root stack state) (ha : a ∈ state.2)
    (hleads : LeadsAround succs stack a b) : b ∈ state.1 := by
  obtain ⟨havoid, hreach⟩ := hleads
  induction hreach with
  | refl => exact ((h.entered a).mp ha).resolve_left havoid
  | tail _ hstep ih => exact ((h.entered _).mp (h.closed _ ih _ hstep.1)).resolve_left hstep.2

/-- The way to the next successor of the node on top of the stack. -/
theorem Walking.openWay_child {done rest : List α}
    (h : Walking succs root (stack ++ [a]) state) (hsuccs : succs a = done ++ b :: rest)
    (hdone : ∀ w ∈ done, w ∈ state.2) (hopen : OpenWay succs root (stack ++ [a]) state.1)
    (hb : b ∉ state.2) : OpenWay succs root (stack ++ [a] ++ [b]) state.1 := by
  refine ⟨?_, ?_, ?_, ?_⟩
  · have hstart := hopen.start
    cases stack <;> exact hstart
  · refine List.isChain_append.mpr ⟨hopen.steps, List.isChain_singleton _, ?_⟩
    intro u hu v hv
    rw [List.getLast?_append_of_ne_nil _ (by simp), List.getLast?_singleton] at hu
    cases hu
    cases hv
    rw [hsuccs]
    simp
  · refine List.nodup_append.mpr ⟨hopen.nodup, List.nodup_singleton b, ?_⟩
    rintro y hy z hz rfl
    rw [List.mem_singleton] at hz
    exact hb (hz ▸ (h.entered y).mpr (.inl hy))
  · intro before u v behind heq w hw z hleads
    rcases List.eq_nil_or_concat behind with rfl | ⟨behind', c, rfl⟩
    · -- The last step: the successors before this one were all entered.
      have heq' : stack ++ [a] ++ [b] = before ++ [u] ++ [v] := by simpa using heq
      obtain ⟨hinit, hv⟩ := List.append_inj' heq' rfl
      obtain ⟨rfl, hu⟩ := List.append_inj' hinit rfl
      cases hv
      cases hu
      have hwdone : w ∈ done := by
        rw [hsuccs] at hw
        have hinit : (done ++ b :: rest).takeWhile (· ≠ b) = done.takeWhile (· ≠ b) := by
          rw [List.takeWhile_append]
          split
          · next hall =>
            rw [List.takeWhile_cons_of_neg (by simp), List.append_nil]
            exact ((List.takeWhile_prefix _).eq_of_length hall).symm
          · rfl
        rw [hinit] at hw
        exact (List.takeWhile_prefix _).subset hw
      exact h.left_of_leadsAround (hdone w hwdone) hleads
    · refine hopen.first before u v behind' ?_ w hw z hleads
      have heq' : stack ++ [a] ++ [b] = (before ++ u :: v :: behind') ++ [c] := by simpa using heq
      exact (List.append_inj' heq' rfl).1

variable {nodes : Finset α}

theorem walking_visit (hclosed : ∀ x ∈ nodes, ∀ y ∈ succs x, y ∈ nodes) {depth : Nat}
    (ha : a ∈ nodes) (hroom : room nodes state.2 < depth)
    (hwalk : Walking succs root stack state)
    (hopen : a ∉ state.2 → OpenWay succs root (stack ++ [a]) state.1) :
    Walking succs root stack (visit succs depth state a) := by
  induction depth generalizing stack state a with
  | zero => omega
  | succ depth ih =>
    rw [visit]
    by_cases hmem : a ∈ state.2
    · rw [if_pos hmem]
      exact hwalk
    · rw [if_neg hmem]
      have hway := hopen hmem
      have hlt := room_lt ha hmem
      have hleft : a ∉ state.1 := fun h => hmem ((hwalk.entered a).mpr (.inr h))
      have hstack : a ∉ stack := fun h => hmem ((hwalk.entered a).mpr (.inl h))
      -- The loop over the successors, each of which keeps the stack.
      have hloop : ∀ (rest done : List α) (s : List α × List α), succs a = done ++ rest →
          room nodes s.2 < depth → (∀ w ∈ done, w ∈ s.2) →
          Walking succs root (stack ++ [a]) s → OpenWay succs root (stack ++ [a]) s.1 →
          Walking succs root (stack ++ [a]) (rest.foldl (visit succs depth) s) ∧
            ∀ w ∈ succs a, w ∈ (rest.foldl (visit succs depth) s).2 := by
        intro rest
        induction rest with
        | nil =>
          intro done s hsuccs _ hdone hs _
          rw [List.append_nil] at hsuccs
          exact ⟨hs, hsuccs ▸ hdone⟩
        | cons b rest ihs =>
          intro done s hsuccs hs hdone hwalks hopens
          have hb : b ∈ nodes := hclosed a ha b (by rw [hsuccs]; simp)
          obtain ⟨new, hnew⟩ := visited_visit hclosed s b hb hs
          have hwalkb := ih hb hs hwalks
            (hwalks.openWay_child hsuccs hdone hopens)
          have hsub : s.2 ⊆ (visit succs depth s b).2 :=
            fun x hx => (hnew.entered x).mpr (.inl hx)
          rw [List.foldl_cons]
          refine ihs (done ++ [b]) _ (by simp [hsuccs]) (lt_of_le_of_lt (room_mono hsub) hs) ?_
            hwalkb (hopens.mono ?_)
          · intro w hw
            rcases List.mem_append.mp hw with hw | hw
            · exact hsub (hdone w hw)
            · exact List.mem_singleton.mp hw ▸ hnew.started b (List.mem_singleton_self b)
          · rw [hnew.left]
            exact List.subset_append_left _ _
      have hstart : Walking succs root (stack ++ [a]) (state.1, state.2 ++ [a]) := by
        refine ⟨?_, ?_, ?_, hwalk.placed⟩
        · intro y
          simp only [List.mem_append, hwalk.entered, List.mem_singleton]
          tauto
        · intro y hy
          rcases List.mem_append.mp hy with hy | hy
          · exact hwalk.unfinished y hy
          · exact List.mem_singleton.mp hy ▸ hleft
        · exact fun y hy z hz => List.mem_append_left _ (hwalk.closed y hy z hz)
      obtain ⟨hbelow, hsuccs⟩ := hloop (succs a) [] (state.1, state.2 ++ [a]) rfl
        (by simpa using by omega) (by simp) hstart hway
      generalize (succs a).foldl (visit succs depth) (state.1, state.2 ++ [a]) = below at *
      refine ⟨?_, ?_, ?_, ?_⟩
      · intro y
        simp only [hbelow.entered, List.mem_append, List.mem_singleton]
        tauto
      · intro y hy hymem
        rcases List.mem_append.mp hymem with hymem | hymem
        · exact hbelow.unfinished y (List.mem_append_left _ hy) hymem
        · exact hstack (List.mem_singleton.mp hymem ▸ hy)
      · intro y hy z hz
        rcases List.mem_append.mp hy with hy | hy
        · exact hbelow.closed y hy z hz
        · rw [List.mem_singleton.mp hy] at hz
          exact hsuccs z hz
      · intro x hx
        rcases List.mem_append.mp hx with hx | hx
        · exact (hbelow.placed x hx).append [a]
        · rw [List.mem_singleton.mp hx]
          refine ⟨below.1, [], stack, rfl, hway.firstWay hleft, ?_, ?_⟩
          · exact fun y hy => hbelow.unfinished y (List.mem_append_left _ hy)
          · intro y hy hne hway
            refine ((hbelow.entered y).mp (hsuccs y hy)).resolve_left fun hmem => ?_
            rcases List.mem_append.mp hmem with hmem | hmem
            · exact hway hmem
            · exact hne (List.mem_singleton.mp hmem)

/-! ## The order -/

variable {depth : Nat}

theorem postOrder_placed (hclosed : ∀ x ∈ nodes, ∀ y ∈ succs x, y ∈ nodes) (ha : a ∈ nodes)
    (hdepth : nodes.card < depth) (hx : x ∈ postOrder succs depth a) :
    Placed succs a (postOrder succs depth a) x := by
  have hstart : Walking succs a [] (([], []) : List α × List α) :=
    ⟨by simp, by simp, by simp, by simp⟩
  have hway : OpenWay succs a ([] ++ [a]) [] := by
    refine ⟨rfl, List.isChain_singleton _, List.nodup_singleton a, ?_⟩
    intro before u v behind heq
    have hlength := congrArg List.length heq
    simp only [List.nil_append, List.length_append, List.length_cons, List.length_nil] at hlength
    omega
  exact (walking_visit hclosed ha (by rw [room_nil]; exact hdepth) hstart fun _ => hway).placed x hx

/-- A node is left before another that it succeeds just when it is not on the way there. -/
theorem postOrder_before_iff (hclosed : ∀ x ∈ nodes, ∀ y ∈ succs x, y ∈ nodes) (ha : a ∈ nodes)
    (hdepth : nodes.card < depth) (hx : x ∈ postOrder succs depth a) (hy : y ∈ succs x) :
    [y, x].Sublist (postOrder succs depth a) ↔
      ∀ way, FirstWay succs a way x → y ∉ way ++ [x] := by
  have hnodup := (postOrdered_postOrder hclosed ha hdepth).nodup
  obtain ⟨before, behind, way, heq, hway, hopen, hleft⟩ := postOrder_placed hclosed ha hdepth hx
  rw [heq] at hnodup ⊢
  rw [pair_sublist_iff hnodup]
  constructor
  · intro hbefore way' hway' hmem
    rw [← hway.unique hway'] at hmem
    rcases List.mem_append.mp hmem with hmem | hmem
    · exact hopen y hmem hbefore
    · rw [List.mem_singleton] at hmem
      subst hmem
      exact (List.nodup_append.mp hnodup).2.2 y hbefore y List.mem_cons_self rfl
  · intro h
    have hnot := h way hway
    rw [List.mem_append, List.mem_singleton, not_or] at hnot
    exact hleft y hy hnot.2 hnot.1

/-- The order has just the nodes that the first one leads to. -/
theorem mem_postOrder_iff (hclosed : ∀ x ∈ nodes, ∀ y ∈ succs x, y ∈ nodes) (ha : a ∈ nodes)
    (hdepth : nodes.card < depth) :
    x ∈ postOrder succs depth a ↔ ReflTransGen (fun u v => v ∈ succs u) a x := by
  have hordered := postOrdered_postOrder hclosed ha hdepth
  constructor
  · intro hx
    obtain ⟨-, -, way, -, hway, -, -⟩ := postOrder_placed hclosed ha hdepth hx
    have hsteps := hway.steps
    have hstart := hway.start
    cases hcons : way ++ [x] with
    | nil => simp at hcons
    | cons b rest =>
      rw [hcons] at hsteps hstart
      cases hstart
      have hlast : (a :: rest).getLast? = some x := by
        rw [← hcons, List.getLast?_append_of_ne_nil _ (by simp), List.getLast?_singleton]
      have hleads : LeadsAround succs [] a x := leadsAround_of_isChain hsteps (by simp) hlast
      exact hleads.2.lift id fun _ _ h => h.1
  · intro h
    induction h with
    | refl => exact hordered.root
    | tail _ hstep ih => exact hordered.closed _ ih _ hstep

end Machine
