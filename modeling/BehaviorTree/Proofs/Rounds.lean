import BehaviorTree.BuiltIn
import BehaviorTree.Proofs.Lockstep

/-!
Rounds. A sequence and a selector go through their children in the same way; one status ends the
round at once, and another one is left when all children have been passed. Here the round is told
along the list of children, without indices, so that a round through two lists of children is a
round through the one and then through the other.
-/
namespace BehaviorTree

variable {σ : Type} {kind : BuiltIn} {stop done : Status}

/-- The behaviors that go round, with the status that ends a round at once and the status at its
end. -/
inductive BuiltIn.GoesRound : BuiltIn → Status → Status → Prop
  | sequence : GoesRound .sequence .failure .success
  | selector : GoesRound .selector .success .failure

namespace BuiltIn.GoesRound

variable (h : kind.GoesRound stop done)
include h

theorem routine_eq : kind.routine = round stop done := by cases h <;> rfl

theorem stop_ne_done : stop ≠ done := by cases h <;> decide

theorem stop_ne_running : stop ≠ .running := by cases h <;> decide

theorem done_ne_running : done ≠ .running := by cases h <;> decide

/-- What neither ends nor suspends a round. -/
theorem passes_iff {status : Status} :
    ¬ (status = stop ∨ status = .running) ↔ status = done ∨ status = .idle := by
  cases h <;> cases status <;> decide

end BuiltIn.GoesRound

theorem exists_split {α : Type} (xs : List α) {i : ℕ} (h : i ≤ xs.length) :
    ∃ before after, xs = before ++ after ∧ before.length = i :=
  ⟨xs.take i, xs.drop i, (List.take_append_drop i xs).symm, List.length_take_of_le h⟩

/-- What a round through some children comes to. -/
structure Sweep (σ : Type) where
  status : Status
  /-- How many children were passed. -/
  passed : ℕ
  children : List Progress
  world : World σ

/-- Ticks the children one after the other until one of them ends or suspends the round. -/
def sweep (stop done : Status) : List (Stepper σ) → List Progress → World σ → Sweep σ
  | step :: steps, a :: rest, w =>
    let (status, a, w) := step a w
    if status = stop ∨ status = .running then ⟨status, 0, a :: rest, w⟩
    else
      let r := sweep stop done steps rest w
      ⟨r.status, r.passed + 1, a :: r.children, r.world⟩
  | [], children, w => ⟨done, 0, children, w⟩
  | _ :: _, [], w => ⟨done, 0, [], w⟩

section

variable {steps more passed : List (Stepper σ)} {step : Stepper σ} {a : Progress}
  {rest before : List Progress} {w : World σ}

theorem sweep_nil (stop done : Status) (w : World σ) :
    sweep stop done ([] : List (Stepper σ)) [] w = ⟨done, 0, [], w⟩ := rfl

/-- A child that ends or suspends the round is the last one to be ticked. -/
theorem sweep_cons_of_halt (steps : List (Stepper σ)) (rest : List Progress)
    (h : (step a w).1 = stop ∨ (step a w).1 = .running) :
    sweep stop done (step :: steps) (a :: rest) w =
      ⟨(step a w).1, 0, (step a w).2.1 :: rest, (step a w).2.2⟩ := by
  simp only [sweep, if_pos h]

/-- A child that lets the round go on adds itself in front. -/
theorem sweep_cons_of_pass (steps : List (Stepper σ)) (rest : List Progress)
    (h : ¬ ((step a w).1 = stop ∨ (step a w).1 = .running)) :
    sweep stop done (step :: steps) (a :: rest) w =
      ⟨(sweep stop done steps rest (step a w).2.2).status,
        (sweep stop done steps rest (step a w).2.2).passed + 1,
        (step a w).2.1 :: (sweep stop done steps rest (step a w).2.2).children,
        (sweep stop done steps rest (step a w).2.2).world⟩ := by
  simp only [sweep, if_neg h]

/-- A round through two lists of children goes on to the second one if it gets past the first. -/
theorem sweep_append (hkind : kind.GoesRound stop done) (more : List (Stepper σ))
    (others : List Progress) (hlen : steps.length = rest.length) (w : World σ) :
    sweep stop done (steps ++ more) (rest ++ others) w =
      let r := sweep stop done steps rest w
      let r' := sweep stop done more others r.world
      if r.status = done then ⟨r'.status, r.passed + r'.passed, r.children ++ r'.children, r'.world⟩
      else ⟨r.status, r.passed, r.children ++ others, r.world⟩ := by
  induction steps generalizing rest w with
  | nil =>
    obtain rfl := List.length_eq_zero_iff.mp hlen.symm
    simp [sweep_nil]
  | cons step steps ih =>
    obtain _ | ⟨a, rest⟩ := rest
    · simp at hlen
    by_cases h : (step a w).1 = stop ∨ (step a w).1 = .running
    · have hne : (step a w).1 ≠ done := by
        rcases h with h | h
        · exact h ▸ hkind.stop_ne_done
        · exact h ▸ hkind.done_ne_running.symm
      simp only [List.cons_append, sweep_cons_of_halt _ _ h, if_neg hne]
    · simp only [List.cons_append, sweep_cons_of_pass _ _ h, ih (Nat.succ.inj hlen)]
      split
      · simp only [Nat.add_right_comm]
      · rfl

theorem length_sweep (stop done : Status) (steps : List (Stepper σ)) (rest : List Progress)
    (w : World σ) : (sweep stop done steps rest w).children.length = rest.length := by
  induction steps generalizing rest w with
  | nil => rfl
  | cons step steps ih =>
    cases rest with
    | nil => rfl
    | cons a rest =>
      by_cases h : (step a w).1 = stop ∨ (step a w).1 = .running
      · rw [sweep_cons_of_halt _ _ h]
        rfl
      · simp [sweep_cons_of_pass _ _ h, ih]

/-- A round gets past all children, or some child ends or suspends it. -/
theorem sweep_status (stop done : Status) (hlen : steps.length = rest.length) (w : World σ) :
    (sweep stop done steps rest w).status = done ∧
        (sweep stop done steps rest w).passed = rest.length ∨
      ((sweep stop done steps rest w).status = stop ∨
          (sweep stop done steps rest w).status = .running) ∧
        (sweep stop done steps rest w).passed < rest.length := by
  induction steps generalizing rest w with
  | nil =>
    obtain rfl := List.length_eq_zero_iff.mp hlen.symm
    exact Or.inl ⟨rfl, rfl⟩
  | cons step steps ih =>
    obtain _ | ⟨a, rest⟩ := rest
    · simp at hlen
    by_cases h : (step a w).1 = stop ∨ (step a w).1 = .running
    · rw [sweep_cons_of_halt _ _ h]
      exact Or.inr ⟨h, Nat.succ_pos _⟩
    · simpa [sweep_cons_of_pass _ _ h] using ih (Nat.succ.inj hlen) (step a w).2.2

/-- A round that is resumed goes through the children that are left. -/
theorem run_roundFrom (ex : Executor σ) (spec : NodeSpec) (hkind : kind.GoesRound stop done)
    (passed steps : List (Stepper σ)) (before rest : List Progress)
    (hpassed : passed.length = before.length) (hlen : steps.length = rest.length)
    (cursor counter : ℕ) (w : World σ) :
    (roundFrom stop done rest.length before.length).run ex spec (passed ++ steps)
        ⟨cursor, counter, before ++ rest, w⟩ =
      let r := sweep stop done steps rest w
      (r.status, ⟨if r.status = .running then before.length + r.passed else 0, counter,
        before ++ r.children, r.world⟩) := by
  induction steps generalizing passed before rest cursor w with
  | nil =>
    obtain rfl := List.length_eq_zero_iff.mp hlen.symm
    simp [roundFrom, Routine.run, sweep_nil, hkind.done_ne_running]
  | cons step steps ih =>
    obtain _ | ⟨a, rest⟩ := rest
    · simp at hlen
    have hstep : (passed ++ step :: steps)[before.length]? = some step := by simp [← hpassed]
    have hchild : (before ++ a :: rest)[before.length]? = some a := by simp
    have hset (b : Progress) : (before ++ a :: rest).set before.length b = before ++ b :: rest := by
      simp
    simp only [List.length_cons, roundFrom, Routine.run, Ongoing.tickChild, hstep, hchild, hset]
    by_cases hstop : (step a w).1 = stop
    · rw [if_pos hstop, sweep_cons_of_halt _ _ (Or.inl hstop)]
      simp [Routine.run, hstop, hkind.stop_ne_running]
    · rw [if_neg hstop]
      by_cases hrunning : (step a w).1 = .running
      · rw [if_pos hrunning, sweep_cons_of_halt _ _ (Or.inr hrunning)]
        simp [Routine.run, hrunning]
      · have hpass : ¬ ((step a w).1 = stop ∨ (step a w).1 = .running) := by simp [hstop, hrunning]
        have hnext := ih (passed ++ [step]) (before ++ [(step a w).2.1]) rest
          (by simp [hpassed]) (Nat.succ.inj hlen) cursor (step a w).2.2
        simp only [List.append_assoc, List.singleton_append, List.length_append,
          List.length_singleton] at hnext
        rw [if_neg hrunning, hnext, sweep_cons_of_pass _ _ hpass]
        simp only [Nat.add_assoc, Nat.add_comm 1]

def Sweep.outcome (r : Sweep σ) (before : List Progress) (counter : ℕ) :
    Status × Progress × World σ :=
  (r.status,
    .node ⟨r.status, if r.status = .running then before.length + r.passed else 0, counter⟩
      (before ++ r.children),
    r.world)

/-- The outcome of a round does not change by a child that has been passed. -/
theorem outcome_sweep_cons (steps : List (Stepper σ)) (rest : List Progress)
    (h : ¬ ((step a w).1 = stop ∨ (step a w).1 = .running)) (counter : ℕ) :
    (sweep stop done (step :: steps) (a :: rest) w).outcome before counter =
      (sweep stop done steps rest (step a w).2.2).outcome (before ++ [(step a w).2.1]) counter := by
  rw [sweep_cons_of_pass steps rest h]
  simp only [Sweep.outcome, List.length_append, List.length_singleton, List.append_assoc,
    List.singleton_append, Nat.add_assoc, Nat.add_comm 1]

/-- Behind the children that are passed a round is like a round that is resumed there. -/
theorem outcome_sweep_append (hkind : kind.GoesRound stop done) (more : List (Stepper σ))
    (others : List Progress) (hlen : steps.length = rest.length) (w : World σ)
    (h : (sweep stop done steps rest w).status = done) (counter : ℕ) :
    (sweep stop done (steps ++ more) (rest ++ others) w).outcome before counter =
      (sweep stop done more others (sweep stop done steps rest w).world).outcome
        (before ++ (sweep stop done steps rest w).children) counter := by
  have hpassed : (sweep stop done steps rest w).passed = rest.length := by
    rcases sweep_status stop done hlen w with ⟨-, hpassed⟩ | ⟨hhalt, -⟩
    · exact hpassed
    · exact absurd (Or.inl h) (fun hpass => hkind.passes_iff.mpr hpass hhalt)
  rw [sweep_append hkind more others hlen]
  simp only [h, if_true, Sweep.outcome, hpassed, List.length_append, length_sweep, Nat.add_assoc,
    List.append_assoc]

/-- A tick of a sequence or a selector goes on behind the children that its view says are passed. -/
theorem NodeSpec.step_resumed (ex : Executor σ) {spec : NodeSpec} (hkind : kind.GoesRound stop done)
    (hspec : spec.behavior = kind.behavior) (passed steps : List (Stepper σ))
    (before rest : List Progress) (hpassed : passed.length = before.length)
    (hlen : steps.length = rest.length) {state : RunState}
    (hview : (spec.view state (passed ++ steps).length).cursor = before.length) (w : World σ) :
    spec.step ex (passed ++ steps) (.node state (before ++ rest)) w =
      (sweep stop done steps rest w).outcome before state.counter := by
  have hleft : (spec.view state (passed ++ steps).length).childCount - before.length =
      rest.length := by
    simp [NodeSpec.view, hpassed, hlen]
  have hroutine : spec.behavior.routine = round stop done := by
    rw [hspec, BuiltIn.behavior, hkind.routine_eq]
  have hrun := run_roundFrom ex spec hkind passed steps before rest hpassed hlen
    state.cursor state.counter w
  simp only [NodeSpec.step, hroutine, round, hview, hleft, hrun, Sweep.outcome]

/-- A tick of a sequence or a selector goes on with the child at the cursor. -/
theorem NodeSpec.step_round (ex : Executor σ) {spec : NodeSpec} (hkind : kind.GoesRound stop done)
    (hspec : spec.behavior = kind.behavior) (passed steps : List (Stepper σ))
    (before rest : List Progress) (hpassed : passed.length = before.length)
    (hlen : steps.length = rest.length) {state : RunState} (hcursor : state.cursor = before.length)
    (hrest : before = [] ∨ rest ≠ []) (w : World σ) :
    spec.step ex (passed ++ steps) (.node state (before ++ rest)) w =
      (sweep stop done steps rest w).outcome before state.counter := by
  have hlt : before.length = 0 ∨ before.length < before.length + rest.length := by
    rcases hrest with rfl | hrest
    · exact Or.inl rfl
    · exact Or.inr (Nat.lt_add_of_pos_right (List.length_pos_iff.mpr hrest))
  have hview : (spec.view state (passed ++ steps).length).cursor = before.length := by
    simp only [NodeSpec.view, List.length_append, hpassed, hlen, hcursor]
    split <;> omega
  exact step_resumed ex hkind hspec passed steps before rest hpassed hlen hview w

/-- The child at which a node with so many children resumes: the one at the cursor, the first one if
the cursor is past the last. -/
def RunState.resumesAt (state : RunState) (count : ℕ) : ℕ :=
  if state.cursor < count then state.cursor else 0

/-- A node resumes at one of its children, or behind all of them if there is none. -/
theorem RunState.resumesAt_le (state : RunState) (count : ℕ) : state.resumesAt count ≤ count := by
  unfold RunState.resumesAt
  split <;> omega

/-- A tick of a sequence or a selector is a round through its children from the one to resume at. -/
theorem NodeSpec.step_from_cursor (ex : Executor σ) {spec : NodeSpec}
    (hkind : kind.GoesRound stop done) (hspec : spec.behavior = kind.behavior)
    {steps : List (Stepper σ)} {children : List Progress} (hlen : steps.length = children.length)
    (state : RunState) (w : World σ) :
    let i := state.resumesAt children.length
    spec.step ex steps (.node state children) w =
      (sweep stop done (steps.drop i) (children.drop i) w).outcome (children.take i)
        state.counter := by
  intro i
  have hi : i ≤ children.length := state.resumesAt_le children.length
  have hview : (spec.view state (steps.take i ++ steps.drop i).length).cursor =
      (children.take i).length := by
    rw [List.take_append_drop, hlen, List.length_take_of_le hi]
    rfl
  have hstep := step_resumed ex hkind hspec (steps.take i) (steps.drop i) (children.take i)
    (children.drop i) (by simp [hlen]) (by simp [hlen]) hview w
  rwa [List.take_append_drop, List.take_append_drop] at hstep

end

end BehaviorTree
