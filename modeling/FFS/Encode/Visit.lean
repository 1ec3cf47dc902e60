import FFS.Encode.Walk

/-!
# The blocks of a value

Which blocks a message has depends on the value and not on where it is encoded to.
`visitRecord` walks the value where it lies in the memory of the application, and `FFSencode`
places the blocks that it comes to: what it reads of a record is what was copied there.
-/

namespace FFS

open Machine

/-- The targets that recursive formats have come to, and the blocks. -/
structure Visit where
  seen : List Nat
  blocks : List Block

/-- One more block. -/
def Visit.add (v : Visit) (block : Block) : Visit := { v with blocks := v.blocks ++ [block] }

section

variable (formats : List FMFormatBody)

/-- The fields of a record. -/
def visitSubfields (visit : Visit → List FMTypeDesc → Nat → Nat → Option Visit)
    (f : FMFormatBody) (v : Visit) (addr : Nat) : Option Visit :=
  if !f.variant then some v
  else
    (f.fieldList.zip f.varList).foldlM (fun v (field, var) => do
      if ← fieldIsFlat formats f var.typeDesc then return v
      else visit v var.typeDesc (addr + sizeOfInt field.fieldOffset) addr) v

/-- What the chain of a field describes at an address, in the record at `parent`. -/
def visitSubfield (mem : Mem) : Nat → FMFormatBody → Visit → List FMTypeDesc → Nat → Nat →
    Option Visit
  | 0, _, _, _, _, _ => none
  | _ + 1, _, _, [], _, _ => none
  | fuel + 1, f, v, desc :: next, addr, parent =>
    match desc.type with
    | .pointer =>
      let target := quickGetUlong mem addr f.pointerSize
      if target = 0 ∨ (f.recursive = true ∧ target ∈ v.seen) then some v
      else do
        let size ← determineSize formats f mem parent next
        if size = 0 then return v
        else
          let flat ← fieldIsFlat formats f next
          let v := v.add { leaf := flat, alignment := 8, length := size }
          let v := if f.recursive then { v with seen := v.seen ++ [target] } else v
          if flat then return v
          else visitSubfield mem fuel f v next target parent
    | .string =>
      let target := quickGetUlong mem addr f.pointerSize
      if target = 0 then some v
      else do
        let length ← stringLength mem fuel target
        return v.add { leaf := true, alignment := 1, length := length + 1 }
    | .array => do
      let (elements, element) ← arrayElements f mem parent (desc :: next)
      let elementSize ← determineSize formats f mem parent element
      if ← fieldIsFlat formats f element then return v
      else
        (List.range elements).foldlM (fun v i =>
          visitSubfield mem fuel f v element (addr + i * elementSize) parent) v
    | .subformat => do
      let sub ← subformatOf formats f desc
      visitSubfields formats (visitSubfield mem fuel sub) sub v addr
    | .simple => none

end

/-- The blocks of the record at `data`. -/
def visitRecord (mem : Mem) (fuel : Nat) (format : StoredFormat) (data : Nat) :
    Option (List Block) :=
  let top := format.format.top
  let base : Block :=
    { leaf := !top.variant, alignment := 1, length := sizeOfInt top.recordLength }
  if !top.variant then some [base]
  else do
    let seen := if top.recursive then [data] else []
    let align : Block := { leaf := false, alignment := 8, length := 0 }
    let v ← visitSubfields format.format.bodies
      (visitSubfield format.format.bodies mem fuel top) top { seen, blocks := [base, align] } data
    return v.blocks

/-! ## What a walk changes -/

/-- Of what is in the message, bytes of the given spans at most are changed. -/
structure Keeps (spans : List (Nat × Nat)) (s s' : EncodeState) : Prop where
  outputLen : s.outputLen ≤ s'.outputLen
  bytes : ∀ {i}, i < s.outputLen → (∀ span ∈ spans, i < span.1 ∨ span.1 + span.2 ≤ i) →
    s'.buf.tmpBuffer i = s.buf.tmpBuffer i

variable {s s' s'' : EncodeState} {spans spans' : List (Nat × Nat)}

theorem Keeps.refl (s : EncodeState) (spans : List (Nat × Nat)) : Keeps spans s s :=
  ⟨Nat.le_refl _, fun _ _ => rfl⟩

theorem Keeps.append (h : Keeps spans s s') (h' : Keeps spans' s' s'') :
    Keeps (spans ++ spans') s s'' := by
  refine ⟨Nat.le_trans h.outputLen h'.outputLen, fun {i} hi hout => ?_⟩
  rw [h'.bytes (Nat.lt_of_lt_of_le hi h.outputLen)
      fun span hspan => hout span (List.mem_append_right _ hspan),
    h.bytes hi fun span hspan => hout span (List.mem_append_left _ hspan)]

/-- Spans that lie in others, or behind what was in the message. -/
theorem Keeps.mono (h : Keeps spans s s')
    (hsub : ∀ span ∈ spans, s.outputLen ≤ span.1 ∨
      ∃ span' ∈ spans', span'.1 ≤ span.1 ∧ span.1 + span.2 ≤ span'.1 + span'.2) :
    Keeps spans' s s' := by
  refine ⟨h.outputLen, fun {i} hi hout => h.bytes hi fun span hspan => ?_⟩
  rcases hsub span hspan with hbehind | ⟨span', hspan', hle, hle'⟩
  · omega
  · have := hout span' hspan'
    omega

theorem Keeps.read {a n : Nat} (h : Keeps spans s s') (hn : a + n ≤ s.outputLen)
    (hout : ∀ span ∈ spans, a + n ≤ span.1 ∨ span.1 + span.2 ≤ a) :
    s'.buf.tmpBuffer.read a n = s.buf.tmpBuffer.read a n := by
  refine Mem.read_congr fun i ha hi => h.bytes (by omega) fun span hspan => ?_
  have := hout span hspan
  omega

theorem keeps_quickPutUlong (s : EncodeState) (d n value : Nat) :
    Keeps [(d, n)] s (s.quickPutUlong d n value) := by
  refine ⟨Nat.le_refl _, fun {i} _ hout => Mem.write_outside ?_⟩
  have hi := hout (d, n) List.mem_cons_self
  have hle := quickSize_le n
  rw [length_leBytes]
  simp only at hi
  omega

/-! ## Side by side -/

/-- A state of `FFSencode` and a walk of the value that has come as far. -/
structure Visited (s : EncodeState) (v : Visit) : Prop where
  copyAll : s.copyAll = true
  noLeafCopy : s.noLeafCopy = false
  inUse : s.buf.inUseSize = s.outputLen
  tmp : (tmpEnd s.iovec).isSome = true
  blocks : s.blocks = v.blocks
  seen : s.addrList.map Prod.fst = v.seen

/-- The message has a copy at `d` of the `n` bytes at `addr`, in a record whose copy at `p` has
the counts of the one at `parent`. -/
structure Copied (mem : Mem) (formats : List FMFormatBody) (f : FMFormatBody) (s : EncodeState)
    (chain : List FMTypeDesc) (n d addr p parent : Nat) : Prop where
  size : determineSize formats f mem parent chain = some n
  inside : d + n ≤ s.outputLen
  bytes : ∀ {k}, k < n → s.buf.tmpBuffer (d + k) = mem (addr + k)
  counts : SameControls f mem s.buf.tmpBuffer parent p chain
  apart : ∀ control ∈ controls f chain,
    p + sizeOfInt control.fieldOffset + controlSize control ≤ s.outputLen ∧
      (p + sizeOfInt control.fieldOffset + controlSize control ≤ d ∨
        d + n ≤ p + sizeOfInt control.fieldOffset)

variable {mem : Mem} {formats : List FMFormatBody} {f : FMFormatBody} {v v' : Visit}

/-- Two results that fail together or have come as far. -/
def Visits (spans : List (Nat × Nat)) (s : EncodeState) (r : Option EncodeState)
    (r' : Option Visit) : Prop :=
  Option.Rel (fun s' v' => Visited s' v' ∧ Keeps spans s s') r r'

theorem Visits.of_keeps {r : Option EncodeState} {r' : Option Visit} (h : Keeps spans s s')
    (hr : Visits spans' s' r r') : Visits (spans ++ spans') s r r' := by
  cases hr with
  | some hresult => exact .some ⟨hresult.1, h.append hresult.2⟩
  | none => exact .none

theorem Visits.mono {r : Option EncodeState} {r' : Option Visit} (h : Visits spans s r r')
    (hsub : ∀ span ∈ spans, s.outputLen ≤ span.1 ∨
      ∃ span' ∈ spans', span'.1 ≤ span.1 ∧ span.1 + span.2 ≤ span'.1 + span'.2) :
    Visits spans' s r r' := by
  cases h with
  | some hresult => exact .some ⟨hresult.1, hresult.2.mono hsub⟩
  | none => exact .none

/-- One step after the other, each with a span of its own. -/
theorem visits_foldlM {α : Type} {as : List α} (spanOf : α → Nat × Nat)
    {step : EncodeState → α → Option EncodeState} {step' : Visit → α → Option Visit}
    (hstep : ∀ done a rest, as = done ++ a :: rest → ∀ s' v', Visited s' v' →
      Keeps (done.map spanOf) s s' → Visits [spanOf a] s' (step s' a) (step' v' a))
    (h : Visited s v) : Visits (as.map spanOf) s (as.foldlM step s) (as.foldlM step' v) := by
  refine rel_foldlM_done
    (R := fun done s' v' => Visited s' v' ∧ Keeps (done.map spanOf) s s')
    (fun done a rest has s' v' hdone => ?_) ⟨h, Keeps.refl s _⟩
  have hnext := Visits.of_keeps hdone.2 (hstep done a rest has s' v' hdone.1 hdone.2)
  rwa [List.map_append]

theorem Copied.quickGetUlong {chain : List FMTypeDesc} {n d addr p parent : Nat}
    (h : Copied mem formats f s chain n d addr p parent) :
    quickGetUlong s.buf.tmpBuffer d n = FFS.quickGetUlong mem addr n := by
  refine congrArg leValue (List.map_congr_left fun k hk => h.bytes ?_)
  exact Nat.lt_of_lt_of_le (List.mem_range.mp hk) (quickSize_le n)

theorem Visited.put (h : Visited s v) (d n value : Nat) :
    Visited (s.quickPutUlong d n value) v := ⟨h.1, h.2, h.3, h.4, h.5, h.6⟩

/-- A block is placed as one more of the value. -/
theorem Visited.placeBlock (h : Visited s v) (block : Block) (addr : Nat) :
    let r := s.placeBlock mem block addr
    Visited r.1 (v.add block) ∧ Keeps [] s r.1 ∧ r.2.2 = r.2.1 ∧ s.outputLen ≤ r.2.1 ∧
      r.2.1 + block.length = r.1.outputLen ∧
      ∀ {k}, k < block.length → r.1.buf.tmpBuffer (r.2.1 + k) = mem (addr + k) := by
  intro r
  obtain ⟨e, he⟩ := Option.isSome_iff_exists.mp h.tmp
  obtain ⟨happended, hblocks, hresult⟩ := @placeBlock_appended mem s e h.copyAll he block addr
  have hinUse := h.inUse
  have houtput := happended.outputLen
  rw [Mem.length_read] at houtput
  have hloc : r.2.1 = s.outputLen + alignPad block.alignment s.outputLen := by
    rw [show r.2 = _ from hresult]
  refine ⟨⟨?_, ?_, ?_, happended.tmp, ?_, ?_⟩, ⟨?_, fun hi _ => ?_⟩, ?_, ?_, ?_, fun hk => ?_⟩
  · rw [happended.setup.copyAll, h.copyAll]
  · rw [happended.setup.noLeafCopy, h.noLeafCopy]
  · rw [happended.inUse, happended.outputLen, h.inUse]
  · rw [hblocks, h.blocks]
    rfl
  · rw [happended.setup.addrList, h.seen]
    rfl
  · rw [houtput]
    omega
  · exact happended.old (hinUse ▸ hi)
  · rw [show r.2 = _ from hresult, hinUse]
  · rw [hloc]
    omega
  · rw [hloc, houtput]
  · have hbyte := happended.bytes (by rw [Mem.length_read]; exact hk)
    rw [hinUse, getD_read hk] at hbyte
    rw [hloc]
    exact hbyte

theorem Visited.previous (h : Visited s v) (recursive : Bool) (addr : Nat) :
    (if recursive = true then s.searchAddrList addr else none).isSome = true ↔
      recursive = true ∧ addr ∈ v.seen := by
  have hsearch : (s.searchAddrList addr).isSome = true ↔ addr ∈ v.seen := by
    rw [← h.seen, EncodeState.searchAddrList, Option.isSome_map, List.find?_isSome]
    simp
  cases recursive with
  | true => simp [hsearch]
  | false => simp

/-- A target is remembered by both in a recursive format. -/
theorem Visited.remember (h : Visited s v) (recursive : Bool) (addr offset : Nat) :
    Visited (if recursive = true then s.addToAddrList addr offset else s)
      (if recursive = true then { v with seen := v.seen ++ [addr] } else v) := by
  cases recursive with
  | true =>
    refine ⟨h.1, h.2, h.3, h.4, h.5, ?_⟩
    show (s.addrList ++ [(addr, offset)]).map Prod.fst = v.seen ++ [addr]
    rw [List.map_append, h.seen]
    rfl
  | false => exact h

/-! ## The walk -/

/-- Walks of the same chain come to the same blocks. -/
def AllVisits (mem : Mem) (formats : List FMFormatBody) (fuel : Nat) : Prop :=
  ∀ {f : FMFormatBody} {s : EncodeState} {v : Visit} {chain : List FMTypeDesc}
    {n d addr p parent : Nat},
    Visited s v → Copied mem formats f s chain n d addr p parent →
      Visits [(d, n)] s (handleSubfield formats mem fuel f s chain d p)
        (visitSubfield formats mem fuel f v chain addr parent)

/-- The target of a pointer, once the pointer is replaced. -/
theorem Copied.target {desc : FMTypeDesc} {next : List FMTypeDesc}
    {n d addr p parent size : Nat} (h : Visited s v)
    (hcopied : Copied mem formats f s (desc :: next) n d addr p parent)
    (hsize : determineSize formats f mem parent next = some size) (target : Nat) (flat : Bool)
    (offset : Nat) :
    let block : Block := { leaf := flat, alignment := 8, length := size }
    let r := s.placeBlock mem block target
    let t := r.1.quickPutUlong d n offset
    Visited t (v.add block) ∧ Keeps [(d, n)] s t ∧
      Copied mem formats f t next size r.2.2 target p parent ∧ s.outputLen ≤ r.2.2 := by
  intro block r t
  have hplaced := @Visited.placeBlock s mem v h block target
  simp only [show s.placeBlock mem block target = r from rfl] at hplaced
  obtain ⟨hvisited, hkeeps, hloc, hbehind, hend, hbytes⟩ := hplaced
  have hlength : block.length = size := rfl
  have hput := keeps_quickPutUlong r.1 d n offset
  have hall : Keeps [(d, n)] s t := hkeeps.append hput
  have hinside := hcopied.inside
  have hcounts : ∀ control ∈ controls f next,
      p + sizeOfInt control.fieldOffset + controlSize control ≤ s.outputLen ∧
        (p + sizeOfInt control.fieldOffset + controlSize control ≤ d ∨
          d + n ≤ p + sizeOfInt control.fieldOffset) :=
    fun control hcontrol => hcopied.apart control (controls_tail f desc next hcontrol)
  refine ⟨hvisited.put d n offset, hall, ⟨hsize, ?_, fun {k} hk => ?_, ?_, ?_⟩, by omega⟩
  · show r.2.2 + block.length ≤ r.1.outputLen
    omega
  · have hk : k < block.length := hk
    rw [hput.bytes (by omega) (by simp only [List.mem_singleton, forall_eq]; omega), hloc]
    exact hbytes hk
  · intro control hcontrol
    obtain ⟨hin, hapart⟩ := hcounts control hcontrol
    rw [hall.read hin (by simpa using hapart)]
    exact hcopied.counts.tail control hcontrol
  · intro control hcontrol
    obtain ⟨hin, -⟩ := hcounts control hcontrol
    exact ⟨Nat.le_trans hin hall.outputLen, .inl (by omega)⟩

theorem Copied.addToAddrList {chain : List FMTypeDesc} {n d addr p parent : Nat}
    (h : Copied mem formats f s chain n d addr p parent) (recursive : Bool) (ptr offset : Nat) :
    Copied mem formats f (if recursive = true then s.addToAddrList ptr offset else s) chain n d
      addr p parent := by
  cases recursive with
  | true => exact ⟨h.1, h.2, h.3, h.4, h.5⟩
  | false => exact h

theorem Keeps.addToAddrList (h : Keeps spans s s') (recursive : Bool) (ptr offset : Nat) :
    Keeps spans s (if recursive = true then s'.addToAddrList ptr offset else s') := by
  cases recursive with
  | true => exact ⟨h.1, h.2⟩
  | false => exact h

theorem pointer_visits {fuel : Nat} {desc : FMTypeDesc} {next : List FMTypeDesc}
    {n d addr p parent : Nat} (hdesc : desc.type = .pointer) (ih : AllVisits mem formats fuel)
    (h : Visited s v) (hcopied : Copied mem formats f s (desc :: next) n d addr p parent) :
    Visits [(d, n)] s (handleSubfield formats mem (fuel + 1) f s (desc :: next) d p)
      (visitSubfield formats mem (fuel + 1) f v (desc :: next) addr parent) := by
  have hn : n = f.pointerSize := by
    simpa [determineSize, hdesc] using hcopied.size.symm
  subst hn
  rw [handleSubfield, visitSubfield]
  simp only [hdesc, hcopied.quickGetUlong, determineSize_congr hcopied.counts.tail,
    h.noLeafCopy, Bool.false_and, Bool.false_eq_true, if_false]
  generalize quickGetUlong mem addr f.pointerSize = target
  by_cases hzero : target = 0
  · rw [if_pos hzero, if_pos (.inl hzero)]
    exact .some ⟨h, Keeps.refl s _⟩
  · rw [if_neg hzero]
    have hprevious := h.previous f.recursive target
    cases hfound : (if f.recursive = true then s.searchAddrList target else none) with
    | some previous =>
      rw [hfound] at hprevious
      rw [if_pos (.inr (hprevious.mp rfl))]
      exact .some ⟨h.put d _ previous, keeps_quickPutUlong s d _ previous⟩
    | none =>
      rw [hfound] at hprevious
      rw [if_neg (not_or.mpr ⟨hzero, fun hseen => Bool.false_ne_true (hprevious.mpr hseen)⟩)]
      cases hsize : determineSize formats f mem parent next with
      | none => exact .none
      | some size =>
        simp only [Option.bind_eq_bind, Option.bind_some]
        by_cases hempty : size = 0
        · rw [if_pos hempty, if_pos hempty]
          exact .some ⟨h.put d _ 0, keeps_quickPutUlong s d _ 0⟩
        · rw [if_neg hempty, if_neg hempty]
          cases fieldIsFlat formats f next with
          | none => exact .none
          | some flat =>
            simp only [Option.bind_some]
            obtain ⟨hvisited, hkeeps, hnext, hbehind⟩ := hcopied.target h hsize target flat
              ((s.placeBlock mem ⟨flat, 8, size⟩ target).2.1 -
                (s.placeBlock mem ⟨flat, 8, size⟩ target).1.savedOffsetDifference)
            have hstep := hvisited.remember f.recursive target
              ((s.placeBlock mem ⟨flat, 8, size⟩ target).2.1 -
                (s.placeBlock mem ⟨flat, 8, size⟩ target).1.savedOffsetDifference)
            cases flat with
            | true => exact .some ⟨hstep, hkeeps.addToAddrList f.recursive target _⟩
            | false =>
              refine (Visits.of_keeps (hkeeps.addToAddrList f.recursive target _)
                (ih hstep (hnext.addToAddrList f.recursive target _))).mono ?_
              intro span hspan
              rcases List.mem_append.mp hspan with hspan | hspan
              · exact .inr ⟨span, hspan, Nat.le_refl _, Nat.le_refl _⟩
              · rw [List.mem_singleton.mp hspan]
                exact .inl hbehind

theorem string_visits {fuel : Nat} {desc : FMTypeDesc} {next : List FMTypeDesc}
    {n d addr p parent : Nat} (hdesc : desc.type = .string) (h : Visited s v)
    (hcopied : Copied mem formats f s (desc :: next) n d addr p parent) :
    Visits [(d, n)] s (handleSubfield formats mem (fuel + 1) f s (desc :: next) d p)
      (visitSubfield formats mem (fuel + 1) f v (desc :: next) addr parent) := by
  have hn : n = f.pointerSize := by
    simpa [determineSize, hdesc] using hcopied.size.symm
  subst hn
  rw [handleSubfield, visitSubfield]
  simp only [hdesc, hcopied.quickGetUlong]
  generalize quickGetUlong mem addr f.pointerSize = target
  split
  · exact .some ⟨h, Keeps.refl s _⟩
  · cases stringLength mem fuel target with
    | none => exact .none
    | some length =>
      obtain ⟨hvisited, hkeeps, -⟩ := @Visited.placeBlock s mem v h ⟨true, 1, length + 1⟩ target
      exact .some ⟨hvisited.put d _ _, hkeeps.append (keeps_quickPutUlong _ d _ _)⟩

/-- Different elements lie one beside the other. -/
theorem elements_apart {i k size : Nat} (h : i ≠ k) :
    i * size + size ≤ k * size ∨ k * size + size ≤ i * size := by
  rw [← Nat.succ_mul, ← Nat.succ_mul]
  exact (Nat.lt_or_gt_of_ne h).imp (Nat.mul_le_mul_right size) (Nat.mul_le_mul_right size)

theorem array_visits {fuel : Nat} {desc : FMTypeDesc} {next : List FMTypeDesc}
    {n d addr p parent : Nat} (hdesc : desc.type = .array) (ih : AllVisits mem formats fuel)
    (h : Visited s v) (hcopied : Copied mem formats f s (desc :: next) n d addr p parent) :
    Visits [(d, n)] s (handleSubfield formats mem (fuel + 1) f s (desc :: next) d p)
      (visitSubfield formats mem (fuel + 1) f v (desc :: next) addr parent) := by
  rw [handleSubfield, visitSubfield]
  simp only [hdesc, arrayElements_congr hcopied.counts]
  cases helements : arrayElements f mem parent (desc :: next) with
  | none => exact .none
  | some found =>
    obtain ⟨elements, element⟩ := found
    obtain ⟨hfill, hsub⟩ := @determineSize_of_elements formats f _ _ _ _ _ helements
    simp only [Option.bind_eq_bind, Option.bind_some]
    rw [determineSize_element helements s.buf.tmpBuffer mem p parent]
    cases hsize : determineSize formats f mem parent element with
    | none => exact .none
    | some size =>
      have hfilled : elements * size = n :=
        Option.some.inj ((hfill size hsize).symm.trans hcopied.size)
      have hin : ∀ i < elements, i * size + size ≤ n := by
        intro i hi
        calc i * size + size = (i + 1) * size := (Nat.succ_mul i size).symm
          _ ≤ elements * size := Nat.mul_le_mul_right size hi
          _ = n := hfilled
      have hinside := hcopied.inside
      simp only [Option.bind_some]
      cases fieldIsFlat formats f element with
      | none => exact .none
      | some flat =>
        cases flat with
        | true => exact .some ⟨h, Keeps.refl s _⟩
        | false =>
          have hrun := @visits_foldlM s v _ (List.range elements) (fun i => (d + i * size, size))
            (fun s i => handleSubfield formats mem fuel f s element (d + i * size) p)
            (fun v i => visitSubfield formats mem fuel f v element (addr + i * size) parent)
            ?_ h
          · refine hrun.mono fun span hspan => .inr ⟨(d, n), List.mem_cons_self, ?_⟩
            obtain ⟨i, hi, rfl⟩ := List.mem_map.mp hspan
            have := hin i (List.mem_range.mp hi)
            simp only
            omega
          · intro done i rest hrange s' v' hvisited hkeeps
            have hi : i < elements := by
              rw [← List.mem_range, hrange]
              exact List.mem_append_right done List.mem_cons_self
            have hnew : ∀ k ∈ done, k ≠ i := by
              have hnodup : (done ++ i :: rest).Nodup := hrange ▸ List.nodup_range
              intro k hk heq
              exact (List.nodup_append.mp hnodup).2.2 k hk i List.mem_cons_self heq
            have hlast := hin i hi
            refine ih hvisited ⟨?_, ?_, fun {k} hk => ?_, ?_, fun control hcontrol => ?_⟩
            · rw [determineSize_element helements mem mem parent parent, hsize]
            · exact Nat.le_trans (by omega) hkeeps.outputLen
            · rw [hkeeps.bytes (by omega), Nat.add_assoc, hcopied.bytes (by omega), Nat.add_assoc]
              intro span hspan
              obtain ⟨j, hj, rfl⟩ := List.mem_map.mp hspan
              have := @elements_apart j i size (hnew j hj)
              simp only
              omega
            · intro control hcontrol
              obtain ⟨hend, hapart⟩ := hcopied.apart control (hsub hcontrol)
              rw [hkeeps.read hend, hcopied.counts control (hsub hcontrol)]
              intro span hspan
              obtain ⟨j, hj, rfl⟩ := List.mem_map.mp hspan
              have hj : j < elements := by
                rw [← List.mem_range, hrange]
                exact List.mem_append_left _ hj
              have := hin j hj
              simp only
              omega
            · obtain ⟨hend, hapart⟩ := hcopied.apart control (hsub hcontrol)
              exact ⟨Nat.le_trans hend hkeeps.outputLen, by omega⟩

/-- What a field changes of the record at `d`. -/
def touched (formats : List FMFormatBody) (f : FMFormatBody) (d : Nat)
    (entry : FMField × FMVarInfo) : Nat × Nat :=
  if fieldIsFlat formats f entry.2.typeDesc = some false then
    (d + (pointerSpan formats f entry).1, (pointerSpan formats f entry).2)
  else (d, 0)

/-- What lies apart from the fields with pointers is not changed by some of them. -/
theorem touched_apart {d a n : Nat} {entries : List (FMField × FMVarInfo)}
    (hentries : entries ⊆ f.fieldList.zip f.varList)
    (h : ∀ other ∈ pointerFields formats f, other ∈ entries →
      Apart (a, n) (pointerSpan formats f other)) :
    ∀ span ∈ entries.map (touched formats f d), d + a + n ≤ span.1 ∨ span.1 + span.2 ≤ d + a := by
  intro span hspan
  obtain ⟨other, hother, rfl⟩ := List.mem_map.mp hspan
  unfold touched
  split
  · next hflat =>
    have hmem : other ∈ pointerFields formats f :=
      List.mem_filter.mpr ⟨hentries hother, decide_eq_true hflat⟩
    have hapart := h other hmem hother
    simp only [Apart] at hapart ⊢
    omega
  · exact .inr (Nat.le_add_right d a)

/-- The fields before one that the walk descends into lie beside it. -/
theorem LaidOut.apart_of_split (h : LaidOut formats f) {done rest : List (FMField × FMVarInfo)}
    {entry : FMField × FMVarInfo} (hsplit : f.fieldList.zip f.varList = done ++ entry :: rest)
    (hentry : entry ∈ pointerFields formats f) :
    ∀ other ∈ pointerFields formats f, other ∈ done →
      Apart (pointerSpan formats f entry) (pointerSpan formats f other) := by
  intro other hother hdone
  have hpairs := h.apart
  have hkept : ∀ e ∈ pointerFields formats f,
      decide (fieldIsFlat formats f e.2.typeDesc = some false) = true :=
    fun e he => (List.mem_filter.mp he).2
  rw [pointerFields, hsplit, List.filter_append, List.filter_cons, if_pos (hkept entry hentry)]
    at hpairs
  have hcross := (List.pairwise_append.mp hpairs).2.2 other
    (List.mem_filter.mpr ⟨hdone, hkept other hother⟩) entry List.mem_cons_self
  exact hcross.symm

theorem subfields_visits {d addr : Nat}
    {handle : EncodeState → List FMTypeDesc → Nat → Nat → Option EncodeState}
    {visit : Visit → List FMTypeDesc → Nat → Nat → Option Visit}
    (hhandle : ∀ {s : EncodeState} {v : Visit} {chain : List FMTypeDesc} {n e addr' : Nat},
      Visited s v → Copied mem formats f s chain n e addr' d addr →
        Visits [(e, n)] s (handle s chain e d) (visit v chain addr' addr))
    (hlaid : LaidOut formats f) (h : Visited s v)
    (hinside : d + sizeOfInt f.recordLength ≤ s.outputLen)
    (hbytes : ∀ {k}, k < sizeOfInt f.recordLength → s.buf.tmpBuffer (d + k) = mem (addr + k)) :
    Visits [(d, sizeOfInt f.recordLength)] s (handleSubfields formats handle f s d)
      (visitSubfields formats visit f v addr) := by
  unfold handleSubfields visitSubfields
  split
  · exact .some ⟨h, Keeps.refl s _⟩
  · refine (visits_foldlM (touched formats f d) ?_ h).mono ?_
    · intro done entry rest hsplit s' v' hvisited hkeeps
      have hmem : entry ∈ f.fieldList.zip f.varList := by
        rw [hsplit]
        exact List.mem_append_right done List.mem_cons_self
      have hdone : done ⊆ f.fieldList.zip f.varList := by
        rw [hsplit]
        exact List.subset_append_left done _
      dsimp only
      cases hflat : fieldIsFlat formats f entry.2.typeDesc with
      | none => exact .none
      | some flat =>
        cases flat with
        | true => exact .some ⟨hvisited, Keeps.refl s' _⟩
        | false =>
          obtain ⟨hentry, hextent⟩ := hlaid.entry hmem hflat
          have hin := hlaid.inside entry hentry
          have hbeside := touched_apart (d := d) hdone (hlaid.apart_of_split hsplit hentry)
          rw [touched, if_pos hflat]
          unfold InRecord at hin
          refine hhandle hvisited ⟨determineSize_of_extent hextent mem addr, ?_, fun {k} hk => ?_,
            fun control hcontrol => ?_, fun control hcontrol => ?_⟩
          · exact Nat.le_trans (by omega) hkeeps.outputLen
          · rw [hkeeps.bytes (by simp only [pointerSpan] at *; omega)
                (fun span hspan => by
                  have := hbeside span hspan
                  simp only [pointerSpan] at *
                  omega),
              Nat.add_assoc, hbytes (by simp only [pointerSpan] at *; omega), Nat.add_assoc]
            rfl
          · obtain ⟨hcount, hothers⟩ := hlaid.counts entry hentry control hcontrol
            simp only [InRecord, countSpan] at hcount
            have hsame := hkeeps.read (a := d + sizeOfInt control.fieldOffset)
              (n := controlSize control) (by omega)
              (touched_apart hdone fun other hother _ => hothers other hother)
            rw [hsame]
            refine List.map_congr_left fun k hk => ?_
            have hk := List.mem_range.mp hk
            rw [Nat.add_assoc, hbytes (by omega), Nat.add_assoc]
          · obtain ⟨hcount, hothers⟩ := hlaid.counts entry hentry control hcontrol
            have hapart := hothers entry hentry
            simp only [InRecord, countSpan] at hcount
            simp only [Apart, countSpan, pointerSpan] at hapart ⊢
            exact ⟨Nat.le_trans (by omega) hkeeps.outputLen, by omega⟩
    · intro span hspan
      obtain ⟨entry, hmem, rfl⟩ := List.mem_map.mp hspan
      refine .inr ⟨(d, sizeOfInt f.recordLength), List.mem_cons_self, ?_⟩
      unfold touched
      split
      · next hflat =>
        have hin := hlaid.inside entry (hlaid.entry hmem hflat).1
        unfold InRecord at hin
        simp only
        omega
      · simp only
        omega

theorem subformat_visits {fuel : Nat} {desc : FMTypeDesc} {next : List FMTypeDesc}
    {n d addr p parent : Nat} (hdesc : desc.type = .subformat)
    (hlaid : ∀ f ∈ formats, LaidOut formats f) (ih : AllVisits mem formats fuel)
    (h : Visited s v) (hcopied : Copied mem formats f s (desc :: next) n d addr p parent) :
    Visits [(d, n)] s (handleSubfield formats mem (fuel + 1) f s (desc :: next) d p)
      (visitSubfield formats mem (fuel + 1) f v (desc :: next) addr parent) := by
  rw [handleSubfield, visitSubfield]
  simp only [hdesc]
  cases hsub : subformatOf formats f desc with
  | none => exact .none
  | some sub =>
    have hn : n = sizeOfInt sub.recordLength := by
      simpa [determineSize, hdesc, hsub] using hcopied.size.symm
    subst hn
    exact subfields_visits ih (hlaid sub (mem_of_subformatOf hsub)) h hcopied.inside hcopied.bytes

theorem handleSubfield_visits (hlaid : ∀ f ∈ formats, LaidOut formats f) (fuel : Nat) :
    AllVisits mem formats fuel := by
  induction fuel with
  | zero => exact fun _ _ => .none
  | succ fuel ih =>
    intro f s v chain n d addr p parent h hcopied
    cases chain with
    | nil => exact .none
    | cons desc next =>
      cases hdesc : desc.type with
      | pointer => exact pointer_visits hdesc ih h hcopied
      | string => exact string_visits hdesc h hcopied
      | array => exact array_visits hdesc ih h hcopied
      | subformat => exact subformat_visits hdesc hlaid ih h hcopied
      | simple =>
        rw [handleSubfield, visitSubfield]
        simp only [hdesc]
        exact .none

/-- `FFSencode` places the blocks of the value, and fails if they cannot be found. -/
theorem encodeRecord_visits {format : StoredFormat}
    (hlaid : ∀ f ∈ format.format.bodies, LaidOut format.format.bodies f) (fuel : Nat)
    (b : FFSBuffer) (data : Nat) :
    Option.Rel (fun s blocks => s.blocks = blocks)
      (encodeRecord mem fuel format data (initEncodeState true false b))
      (visitRecord mem fuel format data) := by
  unfold encodeRecord visitRecord
  have hstart : Visited ((initEncodeState true false b).setupHeader format) ⟨[], []⟩ :=
    ⟨rfl, rfl, Nat.zero_add _, rfl, rfl, rfl⟩
  obtain ⟨hbase, -, -, -, hend, hbytes⟩ := @Visited.placeBlock _ mem _ hstart
    ⟨!format.format.top.variant, 1, sizeOfInt format.format.top.recordLength⟩ data
  dsimp only
  generalize ((initEncodeState true false b).setupHeader format).placeBlock mem _ data = r
    at hbase hend hbytes
  generalize format.format.top.variant = variant at hbase ⊢
  cases variant with
  | false => exact .some hbase.blocks
  | true =>
    simp only [Bool.not_true, Bool.false_eq_true, if_false]
    have hseen := hbase.remember format.format.top.recursive data r.2.1
    have hadded := (Keeps.refl r.1 []).addToAddrList format.format.top.recursive data r.2.1
    obtain ⟨halign, hkeeps, -⟩ := @Visited.placeBlock _ mem _ hseen ⟨false, 8, 0⟩ 0
    have hall := hadded.append hkeeps
    generalize (if format.format.top.recursive = true then r.1.addToAddrList data r.2.1
      else r.1).placeBlock mem ⟨false, 8, 0⟩ 0 = aligned at halign hall ⊢
    have hvisit : Visited aligned.1 ⟨if format.format.top.recursive = true then [data] else [],
        [⟨false, 1, sizeOfInt format.format.top.recordLength⟩, ⟨false, 8, 0⟩]⟩ := by
      refine cast (congrArg (Visited _) ?_) halign
      cases format.format.top.recursive <;> rfl
    have hvisits : AllVisits mem format.format.bodies fuel := handleSubfield_visits hlaid fuel
    have hwalk := subfields_visits hvisits (hlaid _ List.mem_cons_self) hvisit
      (hend ▸ hall.outputLen) fun {k} hk => by
        rw [hall.bytes (by simp only at hend; omega) (by simp)]
        exact hbytes hk
    generalize handleSubfields _ _ _ aligned.1 _ = walked at hwalk ⊢
    generalize visitSubfields _ _ _ _ data = visited at hwalk ⊢
    cases hwalk with
    | some hresult => exact .some hresult.1.blocks
    | none => exact .none

end FFS
