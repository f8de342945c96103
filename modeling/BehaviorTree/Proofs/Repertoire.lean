import BehaviorTree.BuiltIn
import BehaviorTree.Proofs.Lockstep

/-!
What the built-in behaviors can do while their node is ticked. Each of them ticks and resets only
children that the node has; only a sequence and a selector move the cursor, and only a leaf has the
code run. None of them touches the blackboard.
-/
namespace BehaviorTree

structure Repertoire where
  reaches : ℕ → Prop
  movesCursor : Prop
  runsCode : Prop

/-- The routine keeps to the repertoire, whatever it is answered, and leaves the blackboard
alone. -/
def Routine.Within (rep : Repertoire) : Routine → Prop
  | finish _ => True
  | tickChild i next => rep.reaches i ∧ ∀ status, (next status).Within rep
  | resetChild i next => rep.reaches i ∧ next.Within rep
  | setCursor _ next => rep.movesCursor ∧ next.Within rep
  | setCounter _ next => next.Within rep
  | runCode _ next => rep.runsCode ∧ ∀ status, (next status).Within rep
  | readBoard _ => False
  | editBoard _ _ => False

variable {rep : Repertoire}

/-- What is kept by every request but those to the blackboard is true of routines that keep to a
repertoire. -/
theorem Routine.Within.induction {motive : Routine → Prop} (finish : ∀ s, motive (.finish s))
    (tickChild : ∀ i next, (∀ s, motive (next s)) → motive (.tickChild i next))
    (resetChild : ∀ i next, motive next → motive (.resetChild i next))
    (setCursor : ∀ i next, motive next → motive (.setCursor i next))
    (setCounter : ∀ n next, motive next → motive (.setCounter n next))
    (runCode : ∀ n next, (∀ s, motive (next s)) → motive (.runCode n next))
    {r : Routine} (h : r.Within rep) : motive r := by
  induction r with
  | finish s => exact finish s
  | tickChild i next ih => exact tickChild i next fun s => ih s (h.2 s)
  | resetChild i next ih => exact resetChild i next (ih h.2)
  | setCursor i next ih => exact setCursor i next (ih h.2)
  | setCounter n next ih => exact setCounter n next (ih h)
  | runCode n next ih => exact runCode n next fun s => ih s (h.2 s)
  | readBoard next => exact h.elim
  | editBoard edit next => exact h.elim

theorem roundFrom_within (hcursor : rep.movesCursor) (stop done : Status) {left index : ℕ}
    (h : ∀ i, index ≤ i → i < index + left → rep.reaches i) :
    (roundFrom stop done left index).Within rep := by
  induction left generalizing index with
  | zero => exact ⟨hcursor, trivial⟩
  | succ left ih =>
    refine ⟨h index (Nat.le_refl _) (by omega), fun status => ?_⟩
    dsimp only
    split_ifs
    · exact ⟨hcursor, trivial⟩
    · exact ⟨hcursor, trivial⟩
    · exact ih fun i hle hlt => h i (by omega) (by omega)

theorem fanOutFrom_within (decide : ℕ → ℕ → Status) {left index : ℕ} (successes failures : ℕ)
    (h : ∀ i, index ≤ i → i < index + left → rep.reaches i) :
    (fanOutFrom decide left index successes failures).Within rep := by
  induction left generalizing index successes failures with
  | zero => exact trivial
  | succ left ih =>
    refine ⟨h index (Nat.le_refl _) (by omega), fun status => ih _ _ fun i hle hlt => ?_⟩
    exact h i (by omega) (by omega)

theorem withChild_within (view : NodeView) (alone : Status) {routine : Routine}
    (h : 0 < view.childCount → routine.Within rep) : (withChild view alone routine).Within rep := by
  unfold withChild
  split_ifs with hcount
  · exact trivial
  · exact h (Nat.pos_of_ne_zero hcount)

theorem repeatFrom_within (hfirst : rep.reaches 0) (left done : ℕ) :
    (repeatFrom left done).Within rep := by
  induction left generalizing done with
  | zero => exact trivial
  | succ left ih =>
    refine ⟨hfirst, fun status => ?_⟩
    dsimp only
    split_ifs
    · exact trivial
    · exact ⟨hfirst, trivial⟩
    · exact ⟨hfirst, ih (done + 1)⟩

theorem repeatForever_within (hfirst : rep.reaches 0) : repeatForever.Within rep := by
  refine ⟨hfirst, fun status => ?_⟩
  dsimp only
  split_ifs
  · exact ⟨hfirst, trivial⟩
  · exact trivial

theorem untilStatus_within (hfirst : rep.reaches 0) (goal : Status) :
    (untilStatus goal).Within rep := by
  refine ⟨hfirst, fun status => ?_⟩
  dsimp only
  split_ifs
  · exact trivial
  · exact ⟨hfirst, trivial⟩
  · exact trivial

namespace BuiltIn

def repertoire (kind : BuiltIn) (childCount : ℕ) : Repertoire where
  reaches := (· < childCount)
  movesCursor := kind = .sequence ∨ kind = .selector
  runsCode := kind = .script

theorem routine_within (kind : BuiltIn) (view : NodeView) :
    (kind.routine view).Within (kind.repertoire view.childCount) := by
  have hround : (kind.repertoire view.childCount).movesCursor → ∀ stop done,
      (round stop done view).Within (kind.repertoire view.childCount) := by
    intro hcursor stop done
    refine roundFrom_within hcursor stop done fun i hle hlt => ?_
    have hi : i < view.childCount := by omega
    exact hi
  cases kind with
  | sequence => exact hround (Or.inl rfl) _ _
  | selector => exact hround (Or.inr rfl) _ _
  | parallel =>
    simp only [routine]
    split_ifs
    · exact trivial
    · exact fanOutFrom_within _ _ _ fun i _ hi => by rwa [Nat.zero_add] at hi
  | inverter => exact withChild_within view _ fun hfirst => ⟨hfirst, fun _ => trivial⟩
  | repeater =>
    refine withChild_within view _ fun hfirst => ?_
    split_ifs
    · exact repeatForever_within hfirst
    · exact repeatFrom_within hfirst _ _
  | untilSuccess => exact withChild_within view _ fun hfirst => untilStatus_within hfirst _
  | untilFail => exact withChild_within view _ fun hfirst => untilStatus_within hfirst _
  | start => exact withChild_within view _ fun hfirst => ⟨hfirst, fun _ => trivial⟩
  | script =>
    simp only [routine, runScript]
    split
    · exact trivial
    · exact ⟨rfl, fun _ => trivial⟩

end BuiltIn

end BehaviorTree
