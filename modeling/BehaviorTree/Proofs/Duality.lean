import BehaviorTree.Proofs.Editing
import BehaviorTree.Proofs.Interchange
import BehaviorTree.Proofs.Rounds

/-!
Mirror images. Inverters turn a sequence into a selector and a retry until success into a retry
until failure, and the other way round. An inverter keeps nothing between two ticks that it would go
back to, so the mirror image stands where the original stands: its cursor is the same, and below the
inverters its children are as far as the children of the original.
-/
namespace BehaviorTree

variable {σ : Type} {kind mirror : BuiltIn} {stop done goal : Status}

@[simp] theorem Status.inverted_inverted (s : Status) : s.inverted.inverted = s := by
  cases s <;> rfl

theorem Status.inverted_inj {s t : Status} : s.inverted = t.inverted ↔ s = t := by
  constructor
  · intro h
    have hback := congrArg Status.inverted h
    rwa [inverted_inverted, inverted_inverted] at hback
  · exact congrArg Status.inverted

@[simp] theorem Status.inverted_eq_running {s : Status} : s.inverted = .running ↔ s = .running := by
  cases s <;> decide

/-- What an inverter comes to, and what it keeps, which no later tick looks at. -/
theorem NodeSpec.step_inverter (ex : Executor σ) {spec : NodeSpec}
    (hspec : spec.behavior = BuiltIn.inverter.behavior) (step : Stepper σ) (state : RunState)
    (a : Progress) (w : World σ) :
    spec.step ex [step] (.node state [a]) w =
      ((step a w).1.inverted,
        .node ⟨(step a w).1.inverted, state.cursor, state.counter⟩ [(step a w).2.1],
        (step a w).2.2) := by
  simp only [NodeSpec.step, hspec]
  rfl

inductive Progress.Under : Progress → Progress → Prop
  | mk {state : RunState} {a : Progress} : Under a (.node state [a])

/-- The second stepper comes to the inverse of what the first one comes to, and keeps what the first
one keeps under an inverter. -/
structure Stepper.Inverse (step inverse : Stepper σ) : Prop where
  tick : ∀ {a b : Progress}, a.Under b → ∀ w : World σ,
    (inverse b w).1 = (step a w).1.inverted ∧ (step a w).2.1.Under (inverse b w).2.1 ∧
      (inverse b w).2.2 = (step a w).2.2

/-- An inverter comes to the inverse of what its child comes to. -/
theorem NodeSpec.inverse_step (ex : Executor σ) {spec : NodeSpec}
    (hspec : spec.behavior = BuiltIn.inverter.behavior) (step : Stepper σ) :
    step.Inverse (spec.step ex [step]) where
  tick := by
    rintro a _ ⟨⟩ w
    rw [step_inverter ex hspec]
    exact ⟨rfl, .mk, rfl⟩

theorem Progress.Under.reset {a b : Progress} (h : a.Under b) : a.reset.Under b.reset := by
  cases h with
  | mk =>
    simp only [Progress.reset, Progress.resetAll]
    exact .mk

/-- Two rounds, the second of which comes to the inverse of the first at the same child. -/
structure InverseSweep (r s : Sweep σ) : Prop where
  status : s.status = r.status.inverted
  passed : s.passed = r.passed
  children : List.Forall₂ Progress.Under r.children s.children
  world : s.world = r.world

/-- Where one round stops, so does the round through inverses that stops at the inverse status. -/
theorem inverseSweep (stop done : Status) {steps inverses : List (Stepper σ)}
    (hsteps : List.Forall₂ Stepper.Inverse steps inverses) {as bs : List Progress}
    (hchildren : List.Forall₂ Progress.Under as bs) (hlen : steps.length = as.length)
    (w : World σ) :
    InverseSweep (sweep stop done steps as w)
      (sweep stop.inverted done.inverted inverses bs w) := by
  induction hsteps generalizing as bs w with
  | nil =>
    obtain rfl := List.length_eq_zero_iff.mp hlen.symm
    cases hchildren
    exact ⟨rfl, rfl, .nil, rfl⟩
  | @cons step inverse steps inverses hstep _ ih =>
    cases hchildren with
    | nil => simp at hlen
    | @cons a b as bs hab hchildren =>
      obtain ⟨hstatus, hunder, hworld⟩ := hstep.tick hab w
      have hsame : ((inverse b w).1 = stop.inverted ∨ (inverse b w).1 = .running) ↔
          ((step a w).1 = stop ∨ (step a w).1 = .running) := by
        rw [hstatus, Status.inverted_inj, Status.inverted_eq_running]
      by_cases hhalt : (step a w).1 = stop ∨ (step a w).1 = .running
      · rw [sweep_cons_of_halt _ _ hhalt, sweep_cons_of_halt _ _ (hsame.mpr hhalt)]
        exact ⟨hstatus, rfl, .cons hunder hchildren, hworld⟩
      · have hrest := ih hchildren (Nat.succ.inj hlen) (step a w).2.2
        rw [sweep_cons_of_pass _ _ hhalt, sweep_cons_of_pass _ _ (mt hsame.mp hhalt), hworld]
        exact ⟨hrest.status, congrArg (· + 1) hrest.passed, .cons hunder hrest.children,
          hrest.world⟩

/-- A node with so many children and its mirror image, at the same child. -/
inductive MirroredRound (count : ℕ) : Progress → Progress → Prop
  | mk {state outer inner : RunState} {as bs : List Progress} (hlen : as.length = count)
      (hcursor : inner.cursor = state.cursor) (hchildren : List.Forall₂ Progress.Under as bs) :
      MirroredRound count (.node state as) (.node outer [.node inner bs])

theorem MirroredRound.reset {count : ℕ} {a b : Progress} (h : MirroredRound count a b) :
    MirroredRound count a.reset b.reset := by
  cases h with
  | mk hlen _ hchildren =>
    simp only [Progress.reset, Progress.resetAll, Progress.resetAll_eq_map]
    refine .mk ((List.length_map _).trans hlen) rfl ?_
    rw [List.forall₂_map_left_iff, List.forall₂_map_right_iff]
    exact hchildren.imp fun _ _ => Progress.Under.reset

/-- A tick of a sequence or selector and a tick of its mirror image look the same and end at the
same child. -/
theorem mirroredRound_step (ex : Executor σ) (hkind : kind.GoesRound stop done)
    (hmirror : mirror.GoesRound stop.inverted done.inverted) {spec outer inner : NodeSpec}
    (hspec : spec.behavior = kind.behavior) (houter : outer.behavior = BuiltIn.inverter.behavior)
    (hinner : inner.behavior = mirror.behavior) {steps inverses : List (Stepper σ)}
    (hsteps : List.Forall₂ Stepper.Inverse steps inverses) {a b : Progress}
    (h : MirroredRound steps.length a b) (w : World σ) :
    SameOutcome (MirroredRound steps.length) Eq (spec.step ex steps a w)
      (outer.step ex [inner.step ex inverses] b w) := by
  cases h with
  | @mk state outerState innerState as bs hlen hcursor hchildren =>
    have hresume : innerState.resumesAt bs.length = state.resumesAt as.length := by
      simp only [RunState.resumesAt, hcursor, hchildren.length_eq]
    have hinverses : inverses.length = bs.length := by
      rw [← hsteps.length_eq, ← hchildren.length_eq, hlen]
    have hstep := NodeSpec.step_from_cursor ex hkind hspec hlen.symm state w
    have hstep' := NodeSpec.step_from_cursor ex hmirror hinner hinverses innerState w
    simp only [hresume] at hstep hstep'
    generalize state.resumesAt as.length = i at hstep hstep'
    have hround := inverseSweep stop done (List.forall₂_drop i hsteps)
      (List.forall₂_drop i hchildren) (by simp [hlen]) w
    rw [NodeSpec.step_inverter ex houter, hstep, hstep']
    simp only [Sweep.outcome, hround.status, Status.inverted_inverted]
    refine ⟨rfl, ?_, hround.world.symm⟩
    refine .mk ?_ ?_ (List.rel_append (List.forall₂_take i hchildren) hround.children)
    · rw [List.length_append, length_sweep, ← List.length_append, List.take_append_drop, hlen]
    · simp only [Status.inverted_eq_running, hround.passed, List.length_take, hchildren.length_eq]

/-- The behaviors that tick their child again until it comes to one status, with that status. -/
inductive BuiltIn.Retries : BuiltIn → Status → Prop
  | untilSuccess : Retries .untilSuccess .success
  | untilFail : Retries .untilFail .failure

theorem NodeSpec.step_retry (ex : Executor σ) {spec : NodeSpec} (hkind : kind.Retries goal)
    (hspec : spec.behavior = kind.behavior) (step : Stepper σ) (state : RunState) (a : Progress)
    (w : World σ) :
    spec.step ex [step] (.node state [a]) w =
      let (status, b, v) := step a w
      let result := if status = goal then .success else .running
      (result, .node ⟨result, state.cursor, state.counter⟩
        [if status = goal.inverted then b.reset else b], v) := by
  have htick : Ongoing.tickChild [step] 0 ⟨state.cursor, state.counter, [a], w⟩ =
      ((step a w).1, ⟨state.cursor, state.counter, [(step a w).2.1], (step a w).2.2⟩) := rfl
  have hroutine : spec.behavior.routine (spec.view state 1) = untilStatus goal := by
    rw [hspec]
    cases hkind <;> rfl
  simp only [NodeSpec.step, List.length_singleton, hroutine, untilStatus, Routine.run, htick]
  cases hkind <;> cases (step a w).1 <;> rfl

inductive MirroredRetry : Progress → Progress → Prop
  | mk {state outer inner : RunState} {a : Progress} :
      MirroredRetry (.node state [a]) (.node outer [.node inner [a]])

theorem MirroredRetry.reset {a b : Progress} (h : MirroredRetry a b) :
    MirroredRetry a.reset b.reset := by
  cases h with
  | mk =>
    simp only [Progress.reset, Progress.resetAll]
    exact .mk

/-- A retry and its mirror image keep in step for one tick. -/
theorem mirroredRetry_step (ex : Executor σ) (hkind : kind.Retries goal)
    (hmirror : mirror.Retries goal.inverted) {spec outer inner : NodeSpec}
    (hspec : spec.behavior = kind.behavior) (houter : outer.behavior = mirror.behavior)
    (hinner : inner.behavior = BuiltIn.inverter.behavior) (step : Stepper σ) {a b : Progress}
    (h : MirroredRetry a b) (w : World σ) :
    SameOutcome MirroredRetry Eq (spec.step ex [step] a w)
      (outer.step ex [inner.step ex [step]] b w) := by
  cases h with
  | @mk state outerState innerState a =>
    rw [NodeSpec.step_retry ex hkind hspec, NodeSpec.step_retry ex hmirror houter,
      NodeSpec.step_inverter ex hinner]
    simp only [Status.inverted_inj]
    refine ⟨rfl, ?_, rfl⟩
    by_cases hretry : (step a w).1 = goal.inverted
    · simp only [if_pos hretry, Progress.reset, Progress.resetAll]
      exact .mk
    · simp only [if_neg hretry]
      exact .mk

namespace Plan

variable {p q : Plan}

def Inverts (p q : Plan) : Prop :=
  ∃ spec : NodeSpec, spec.behavior = BuiltIn.inverter.behavior ∧ q = .node spec [p]

/-- A round and the inverse of the mirrored round of inverses cannot be told apart. -/
theorem interchangeable_round (hkind : kind.GoesRound stop done)
    (hmirror : mirror.GoesRound stop.inverted done.inverted) {spec outer inner : NodeSpec}
    (hspec : spec.behavior = kind.behavior) (houter : outer.behavior = BuiltIn.inverter.behavior)
    (hinner : inner.behavior = mirror.behavior) {children inverted : List Plan}
    (h : List.Forall₂ Inverts children inverted) :
    Interchangeable (.node spec children) (.node outer [.node inner inverted]) := by
  refine ⟨MirroredRound children.length, ⟨MirroredRound.reset, ?_⟩, ?_⟩
  · intro σ ex a b hab w
    have hsteps : List.Forall₂ Stepper.Inverse (steppers ex children) (steppers ex inverted) := by
      rw [steppers_eq_map, steppers_eq_map, List.forall₂_map_left_iff, List.forall₂_map_right_iff]
      refine h.imp fun p q hpq => ?_
      obtain ⟨inverter, hinverter, rfl⟩ := hpq
      exact NodeSpec.inverse_step ex hinverter (p.tick ex)
    have hlen : (steppers ex children).length = children.length := by simp [steppers_eq_map]
    rw [← hlen] at hab ⊢
    exact mirroredRound_step ex hkind hmirror hspec houter hinner hsteps hab w
  · simp only [fresh, freshAll, freshAll_eq_map]
    refine .mk (List.length_map _) rfl ?_
    rw [List.forall₂_map_left_iff, List.forall₂_map_right_iff]
    refine h.imp fun p q hpq => ?_
    obtain ⟨inverter, -, rfl⟩ := hpq
    exact .mk

theorem interchangeable_retry (hkind : kind.Retries goal) (hmirror : mirror.Retries goal.inverted)
    {spec outer inner : NodeSpec} (hspec : spec.behavior = kind.behavior)
    (houter : outer.behavior = mirror.behavior)
    (hinner : inner.behavior = BuiltIn.inverter.behavior) (child : Plan) :
    Interchangeable (.node spec [child]) (.node outer [.node inner [child]]) := by
  refine ⟨MirroredRetry, ⟨MirroredRetry.reset, ?_⟩, ?_⟩
  · intro σ ex a b hab w
    exact mirroredRetry_step ex hkind hmirror hspec houter hinner (child.tick ex) hab w
  · simp only [fresh, freshAll]
    exact .mk

/-- Somewhere in the subtree stands a node in one tree and its mirror image in the other: a selector
and the inverse of a sequence of inverses, a retry until failure and a retry until the success of an
inverse, or what these are when success and failure are exchanged. -/
inductive Mirrors : Plan → Plan → Prop
  | round {kind mirror : BuiltIn} {stop done : Status} {spec outer inner : NodeSpec}
      {children inverted : List Plan} (hkind : kind.GoesRound stop done)
      (hmirror : mirror.GoesRound stop.inverted done.inverted)
      (hspec : spec.behavior = kind.behavior) (houter : outer.behavior = BuiltIn.inverter.behavior)
      (hinner : inner.behavior = mirror.behavior) (h : List.Forall₂ Inverts children inverted) :
      Mirrors (.node spec children) (.node outer [.node inner inverted])
  | retry {kind mirror : BuiltIn} {goal : Status} {spec outer inner : NodeSpec}
      (hkind : kind.Retries goal) (hmirror : mirror.Retries goal.inverted)
      (hspec : spec.behavior = kind.behavior) (houter : outer.behavior = mirror.behavior)
      (hinner : inner.behavior = BuiltIn.inverter.behavior) (child : Plan) :
      Mirrors (.node spec [child]) (.node outer [.node inner [child]])
  | under {p q : Plan} (spec : NodeSpec) (before after : List Plan) (h : Mirrors p q) :
      Mirrors (.node spec (before ++ p :: after)) (.node spec (before ++ q :: after))

/-- Subtrees that mirror each other somewhere cannot be told apart. -/
theorem Mirrors.interchangeable (h : p.Mirrors q) : p.Interchangeable q := by
  induction h with
  | round hkind hmirror hspec houter hinner h =>
    exact interchangeable_round hkind hmirror hspec houter hinner h
  | retry hkind hmirror hspec houter hinner child =>
    exact interchangeable_retry hkind hmirror hspec houter hinner child
  | under spec before after h ih => exact ih.inside spec before after

end Plan

namespace Forest

variable {f g : Forest} {k j : NodeKey} {p q : Plan}

/-- A node can be exchanged for its mirror image anywhere in a tree: whatever the executor answers
and whenever the tree is ticked or reset, every tick comes to the same status, sends the same
requests and leaves the same blackboard. -/
theorem drive_mirrored (hf : f.Reachable) (hg : g.Reachable) (hp : f.plan? k = some p)
    (hq : g.plan? j = some q) (hpq : p.Mirrors q) (ex : Executor σ) (turns : List Turn)
    (w : World σ) : (f.reset k).drive ex k turns w = (g.reset j).drive ex j turns w :=
  drive_eq_of_interchangeable ex hf.sound hg.sound hp hq hpq.interchangeable turns w

def choice : Forest :=
  grown [workerSpec .sequence "day", workerSpec .selector "any", workerSpec .script "go",
    workerSpec .script "look"] [(0, 1), (1, 2), (1, 3)]

def mirroredChoice : Forest :=
  grown [workerSpec .sequence "day", workerSpec .inverter "not", workerSpec .sequence "all",
    workerSpec .inverter "no", workerSpec .script "go", workerSpec .inverter "nor",
    workerSpec .script "look"] [(0, 1), (1, 2), (2, 3), (3, 4), (2, 5), (5, 6)]

def choicePlan : Plan :=
  .node (workerSpec .sequence "day")
    [.node (workerSpec .selector "any")
      [.node (workerSpec .script "go") [], .node (workerSpec .script "look") []]]

def mirroredChoicePlan : Plan :=
  .node (workerSpec .sequence "day")
    [.node (workerSpec .inverter "not")
      [.node (workerSpec .sequence "all")
        [.node (workerSpec .inverter "no") [.node (workerSpec .script "go") []],
          .node (workerSpec .inverter "nor") [.node (workerSpec .script "look") []]]]]

theorem choicePlan_mirrors : choicePlan.Mirrors mirroredChoicePlan :=
  .under _ [] [] (.round .selector .sequence rfl rfl rfl
    (.cons ⟨_, rfl, rfl⟩ (.cons ⟨_, rfl, rfl⟩ .nil)))

/-- The choice and its mirror image give the same reports. -/
theorem drive_mirrored_choice :
    choice.plan? 0 = some choicePlan ∧ mirroredChoice.plan? 0 = some mirroredChoicePlan ∧
      choicePlan.Mirrors mirroredChoicePlan ∧
      (choice.reset 0).drive Executor.scripted 0 [.tick, .tick, .reset, .tick]
          ⟨.empty, [.idle, .running, .failure, .failure, .success]⟩ =
        (mirroredChoice.reset 0).drive Executor.scripted 0 [.tick, .tick, .reset, .tick]
          ⟨.empty, [.idle, .running, .failure, .failure, .success]⟩ := by
  have hplan : choice.plan? 0 = some choicePlan := by rfl
  have hmirrored : mirroredChoice.plan? 0 = some mirroredChoicePlan := by rfl
  exact ⟨hplan, hmirrored, choicePlan_mirrors,
    drive_mirrored (grown_reachable (by decide)) (grown_reachable (by decide)) hplan hmirrored
      choicePlan_mirrors _ _ _⟩

end Forest

end BehaviorTree
