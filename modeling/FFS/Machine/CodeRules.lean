import FFS.Machine.Instructions

/-!
# Rules for pieces of code

`Runs` is about a piece of code that is left at its end, and `Branches` about one that also may
be left at a label.  Both hold wherever the piece is in the program.
-/

namespace Machine

variable {R L : Type}

theorem suffix_of_append {prog before after : List (Insn R L)} (h : before ++ after <:+ prog) :
    after <:+ prog := (List.suffix_append before after).trans h

theorem findLabel_suffix [DecidableEq L] {prog code : List (Insn R L)} {l : L}
    (h : findLabel l prog = some code) : code <:+ prog := by
  induction prog with
  | nil => cases h
  | cons i rest ih =>
    cases i with
    | mark l' =>
      have hfind : (if l' = l then some rest else findLabel l rest) = some code := h
      split at hfind
      · cases hfind
        exact List.suffix_cons _ _
      · exact (ih hfind).trans (List.suffix_cons _ _)
    | _ => exact (ih h).trans (List.suffix_cons _ _)

variable [DecidableEq R] [DecidableEq L]

/-- Control goes from one place to another without a change of the registers. -/
structure GoesTo (prog code code' : List (Insn R L)) : Prop where
  suffix : code' <:+ prog
  steps : ∀ regs, Steps prog (.at code regs) (.at code' regs)

namespace GoesTo

variable {prog code code' code'' : List (Insn R L)} {l : L}

theorem refl (h : code <:+ prog) : GoesTo prog code code := ⟨h, fun _ => .refl⟩

theorem trans (h : GoesTo prog code code') (h' : GoesTo prog code' code'') :
    GoesTo prog code code'' := ⟨h'.suffix, fun regs => (h.steps regs).trans (h'.steps regs)⟩

theorem mark (h : .mark l :: code <:+ prog) : GoesTo prog (.mark l :: code) code :=
  ⟨(List.suffix_cons _ _).trans h, fun _ => .single rfl⟩

theorem jump (h : findLabel l prog = some code') : GoesTo prog (.jump l :: code) code' := by
  refine ⟨findLabel_suffix h, fun regs => .single ?_⟩
  rw [step, h]
  rfl

end GoesTo

/-- The code is left at its end. -/
def Runs (prog code : List (Insn R L)) (regs : R → Int) (post : (R → Int) → Prop) : Prop :=
  ∀ rest, code ++ rest <:+ prog →
    Reaches prog (.at (code ++ rest) regs) fun m => ∃ regs', m = .at rest regs' ∧ post regs'

/-- The code is left at the label if `taken`, and otherwise at its end. -/
def Branches (prog code : List (Insn R L)) (target : L) (taken : Bool) (regs : R → Int)
    (post : (R → Int) → Prop) : Prop :=
  ∀ rest behind, code ++ rest <:+ prog → (taken = true → findLabel target prog = some behind) →
    Reaches prog (.at (code ++ rest) regs) fun m =>
      ∃ regs', m = .at (if taken then behind else rest) regs' ∧ post regs'

variable {prog code code' : List (Insn R L)} {regs regs' : R → Int} {P Q : (R → Int) → Prop}
  {target : L} {taken : Bool}

namespace Runs

theorem nil (h : P regs) : Runs prog [] regs P := fun _ _ => .here ⟨regs, rfl, h⟩

theorem mono (h : Runs prog code regs P) (himp : ∀ regs', P regs' → Q regs') :
    Runs prog code regs Q := by
  intro rest hsuffix
  refine (h rest hsuffix).mono ?_
  rintro m ⟨regs', hm, hpost⟩
  exact ⟨regs', hm, himp regs' hpost⟩

theorem append (h : Runs prog code regs P) (hnext : ∀ regs', P regs' → Runs prog code' regs' Q) :
    Runs prog (code ++ code') regs Q := by
  intro rest hsuffix
  rw [List.append_assoc] at hsuffix ⊢
  refine (h (code' ++ rest) hsuffix).bind ?_
  rintro m ⟨regs', rfl, hpost⟩
  exact hnext regs' hpost rest (suffix_of_append hsuffix)

/-- One instruction that goes on to the next. -/
theorem cons {i : Insn R L} (hstep : ∀ rest, step prog (.at (i :: rest) regs) =
    some (.at rest regs')) (h : Runs prog code regs' P) : Runs prog (i :: code) regs P := by
  intro rest hsuffix
  have htail : code ++ rest <:+ prog := (List.suffix_cons i _).trans hsuffix
  exact .step (hstep (code ++ rest)) (h rest htail)

theorem set {t : IntType} {dest : R} {imm : Int}
    (h : Runs prog code (Function.update regs dest (t.wrap imm)) P) :
    Runs prog (.set t dest imm :: code) regs P := cons (fun _ => rfl) h

theorem mov {t : IntType} {dest src : R}
    (h : Runs prog code (Function.update regs dest (t.wrap (regs src))) P) :
    Runs prog (.mov t dest src :: code) regs P := cons (fun _ => rfl) h

theorem cv {t t' : IntType} {dest src : R}
    (h : Runs prog code (Function.update regs dest (t'.wrap (t.wrap (regs src)))) P) :
    Runs prog (.cv t t' dest src :: code) regs P := cons (fun _ => rfl) h

theorem arith {op : ArithOp} {t : IntType} {dest left right : R} {v : Int}
    (hv : op.machine t (t.wrap (regs left)) (t.wrap (regs right)) = some v)
    (h : Runs prog code (Function.update regs dest v) P) :
    Runs prog (.arith op t dest left right :: code) regs P := by
  refine cons (fun rest => ?_) h
  rw [step, hv]
  rfl

theorem arithi {op : ArithOp} {t : IntType} {dest left : R} {imm v : Int}
    (hv : op.machine t (t.wrap (regs left)) (t.wrap imm) = some v)
    (h : Runs prog code (Function.update regs dest v) P) :
    Runs prog (.arithi op t dest left imm :: code) regs P := by
  refine cons (fun rest => ?_) h
  rw [step, hv]
  rfl

theorem mark {l : L} (h : Runs prog code regs P) : Runs prog (.mark l :: code) regs P :=
  cons (fun _ => rfl) h

/-- From a place that leads to the code. -/
theorem reaches {before rest : List (Insn R L)} {Q' : Config R L → Prop}
    (h : Runs prog code regs P) (hleads : GoesTo prog before (code ++ rest))
    (hnext : ∀ regs', P regs' → Reaches prog (.at rest regs') Q') :
    Reaches prog (.at before regs) Q' := by
  have hrun : Reaches prog (.at (code ++ rest) regs) Q' := by
    refine (h rest hleads.suffix).bind ?_
    rintro m ⟨regs', rfl, hpost⟩
    exact hnext regs' hpost
  obtain ⟨m, hsteps, hm⟩ := hrun
  exact ⟨m, (hleads.steps regs).trans hsteps, hm⟩

end Runs

namespace Branches

theorem mono (h : Branches prog code target taken regs P) (himp : ∀ regs', P regs' → Q regs') :
    Branches prog code target taken regs Q := by
  intro rest behind hsuffix hfind
  refine (h rest behind hsuffix hfind).mono ?_
  rintro m ⟨regs', hm, hpost⟩
  exact ⟨regs', hm, himp regs' hpost⟩

/-- Code before the branch. -/
theorem after (h : Runs prog code regs P)
    (hnext : ∀ regs', P regs' → Branches prog code' target taken regs' Q) :
    Branches prog (code ++ code') target taken regs Q := by
  intro rest behind hsuffix hfind
  rw [List.append_assoc] at hsuffix ⊢
  refine (h (code' ++ rest) hsuffix).bind ?_
  rintro m ⟨regs', rfl, hpost⟩
  exact hnext regs' hpost rest behind (suffix_of_append hsuffix) hfind

theorem jump (h : P regs) : Branches prog [.jump target] target true regs P := by
  intro rest behind _ hfind
  have hstep : step prog (.at (.jump target :: rest) regs) = some (.at behind regs) := by
    rw [step, hfind rfl]
    rfl
  exact .step hstep (.here ⟨regs, rfl, h⟩)

theorem step_goOn {i : Insn R L} (hstep : ∀ rest, step prog (.at (i :: rest) regs) =
    goOn prog taken target rest regs) (h : P regs) :
    Branches prog [i] target taken regs P := by
  intro rest behind _ hfind
  have hgo : step prog (.at (i :: rest) regs) =
      some (.at (if taken then behind else rest) regs) := by
    rw [hstep, goOn]
    cases taken with
    | true =>
      rw [if_pos rfl, hfind rfl]
      rfl
    | false => rfl
  exact .step hgo (.here ⟨regs, rfl, h⟩)

theorem br {op : Compare} {t : IntType} {left right : R}
    (htaken : op.holds (t.wrap (regs left)) (t.wrap (regs right)) = taken) (h : P regs) :
    Branches prog [.br op t left right target] target taken regs P := by
  refine step_goOn (fun rest => ?_) h
  rw [step, htaken]

theorem bri {op : Compare} {t : IntType} {left : R} {imm : Int}
    (htaken : op.holds (t.wrap (regs left)) (t.wrap imm) = taken) (h : P regs) :
    Branches prog [.bri op t left imm target] target taken regs P := by
  refine step_goOn (fun rest => ?_) h
  rw [step, htaken]

/-- A piece without any instruction branches nowhere. -/
theorem nil (h : P regs) : Branches prog [] target false regs P :=
  fun _ _ _ _ => .here ⟨regs, rfl, h⟩

/-- The branch is not taken. -/
theorem through (h : Branches prog code target false regs P)
    (hnext : ∀ regs', P regs' → Runs prog code' regs' Q) : Runs prog (code ++ code') regs Q := by
  intro rest hsuffix
  rw [List.append_assoc] at hsuffix ⊢
  refine (h (code' ++ rest) rest hsuffix fun hfalse => nomatch hfalse).bind ?_
  rintro m ⟨regs', rfl, hpost⟩
  exact hnext regs' hpost rest (suffix_of_append hsuffix)

/-- The branch is taken, to a label further on. -/
theorem skip {between : List (Insn R L)} (h : Branches prog code target true regs P)
    (hone : marks target prog ≤ 1) (hnext : ∀ regs', P regs' → Runs prog code' regs' Q) :
    Runs prog (code ++ (between ++ .mark target :: code')) regs Q := by
  intro rest hsuffix
  rw [List.append_assoc] at hsuffix ⊢
  have hbetween : between ++ .mark target :: (code' ++ rest) <:+ prog := by
    rw [List.append_assoc] at hsuffix
    exact suffix_of_append hsuffix
  have hmark : .mark target :: (code' ++ rest) <:+ prog := suffix_of_append hbetween
  refine (h _ _ hsuffix fun _ => findLabel_of_suffix hmark hone).bind ?_
  rintro m ⟨regs', rfl, hpost⟩
  have htail : code' ++ rest <:+ prog := (List.suffix_cons _ _).trans hmark
  exact hnext regs' hpost rest htail

/-- From a place that leads to the code. -/
theorem reaches {before rest behind : List (Insn R L)} {Q' : Config R L → Prop}
    (h : Branches prog code target taken regs P) (hleads : GoesTo prog before (code ++ rest))
    (hfind : taken = true → findLabel target prog = some behind)
    (hnext : ∀ regs', P regs' → Reaches prog (.at (if taken then behind else rest) regs') Q') :
    Reaches prog (.at before regs) Q' := by
  have hrun : Reaches prog (.at (code ++ rest) regs) Q' := by
    refine (h rest behind hleads.suffix hfind).bind ?_
    rintro m ⟨regs', rfl, hpost⟩
    exact hnext regs' hpost
  obtain ⟨m, hsteps, hm⟩ := hrun
  exact ⟨m, (hleads.steps regs).trans hsteps, hm⟩

end Branches

end Machine
