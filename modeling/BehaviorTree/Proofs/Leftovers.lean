import BehaviorTree.Proofs.Focus

/-!
What is left running. A node that has ended has nothing running below it, unless it is a parallel: a
parallel decides by counting and leaves children that are still running to go on in its next run. So
on the way from a node that is not running down to a leaf that is, there is a parallel that has
ended, and everything below it on the way is running.

A tick is followed here from the point of view of one child. What the other children and the code
come to may be anything.
-/
namespace BehaviorTree

variable {σ : Type}

/-- Whatever the children and the code come to, the routine ends in a state that fits the status of
the child at the index. -/
def Routine.Secures (i : ℕ) (P : RunState → Status → Prop) :
    Routine → (cursor counter : ℕ) → (child : Status) → Prop
  | finish status, cursor, counter, child => P ⟨status, cursor, counter⟩ child
  | tickChild j next, cursor, counter, child =>
    ∀ s, (next s).Secures i P cursor counter (if j = i then s else child)
  | resetChild j next, cursor, counter, child =>
    next.Secures i P cursor counter (if j = i then .idle else child)
  | setCursor j next, _, counter, child => next.Secures i P j counter child
  | setCounter count next, cursor, _, child => next.Secures i P cursor count child
  | runCode _ next, cursor, counter, child => ∀ s, (next s).Secures i P cursor counter child
  | readBoard next, cursor, counter, child => ∀ b, (next b).Secures i P cursor counter child
  | editBoard _ next, cursor, counter, child => next.Secures i P cursor counter child

def Stepper.Reports (step : Stepper σ) : Prop := ∀ a w, (step a w).2.1.state.status = (step a w).1

section

variable {i : ℕ} {P : RunState → Status → Prop} {ex : Executor σ} {spec : NodeSpec}
  {steps : List (Stepper σ)} {step : Stepper σ}

theorem Ongoing.tickChild_self {o : Ongoing σ} {a : Progress} (hstep : steps[i]? = some step)
    (ha : o.children[i]? = some a) :
    o.tickChild steps i = ((step a o.world).1,
      { o with children := o.children.set i (step a o.world).2.1,
               world := (step a o.world).2.2 }) := by
  simp only [tickChild, hstep, ha]

theorem Ongoing.tickChild_other (steps : List (Stepper σ)) (o : Ongoing σ) {j : ℕ} (hj : j ≠ i) :
    (o.tickChild steps j).2.children[i]? = o.children[i]? ∧
      (o.tickChild steps j).2.cursor = o.cursor ∧ (o.tickChild steps j).2.counter = o.counter := by
  unfold tickChild
  split
  · exact ⟨List.getElem?_set_ne hj, rfl, rfl⟩
  · exact ⟨rfl, rfl, rfl⟩

theorem Ongoing.resetChild_getElem? (o : Ongoing σ) (j : ℕ) {a : Progress}
    (ha : o.children[i]? = some a) :
    (o.resetChild j).children[i]? = some (if j = i then a.reset else a) := by
  simp only [resetChild, List.getElem?_modify, ha]
  split <;> rfl

/-- A routine that secures an end comes to such an end. -/
theorem Routine.Secures.run {r : Routine} {o : Ongoing σ} {a : Progress}
    (h : r.Secures i P o.cursor o.counter a.state.status) (ha : o.children[i]? = some a)
    (hstep : steps[i]? = some step) (hreports : step.Reports) :
    ∃ b, (r.run ex spec steps o).2.children[i]? = some b ∧
      P ⟨(r.run ex spec steps o).1, (r.run ex spec steps o).2.cursor,
        (r.run ex spec steps o).2.counter⟩ b.state.status := by
  induction r generalizing o a with
  | finish status => exact ⟨a, ha, h⟩
  | tickChild j next ih =>
    by_cases hj : j = i
    · subst hj
      have hnext := h (step a o.world).1
      have hlt : j < o.children.length := (List.getElem?_eq_some_iff.mp ha).1
      have hset : (o.children.set j (step a o.world).2.1)[j]? = some (step a o.world).2.1 := by
        rw [List.getElem?_set_self hlt]
      rw [if_pos rfl] at hnext
      rw [Routine.run, Ongoing.tickChild_self hstep ha]
      refine ih (step a o.world).1 (o := { o with children := _, world := _ }) ?_ hset
      rwa [hreports]
    · obtain ⟨hchild, hcursor, hcounter⟩ := o.tickChild_other steps hj
      have hnext := h (o.tickChild steps j).1
      rw [if_neg hj, ← hcursor, ← hcounter] at hnext
      exact ih _ hnext (hchild.trans ha)
  | resetChild j next ih =>
    have hchild := o.resetChild_getElem? j ha
    by_cases hj : j = i
    · rw [if_pos hj] at hchild
      refine ih (o := o.resetChild j) ?_ hchild
      have hidle : a.reset.state.status = .idle := by rw [Progress.state_reset, RunState.fresh]
      rw [hidle]
      rw [Routine.Secures, if_pos hj] at h
      exact h
    · rw [if_neg hj] at hchild
      refine ih (o := o.resetChild j) ?_ hchild
      rw [Routine.Secures, if_neg hj] at h
      exact h
  | setCursor j next ih => exact ih (o := { o with cursor := j }) h ha
  | setCounter count next ih => exact ih (o := { o with counter := count }) h ha
  | runCode ticks next ih => exact ih _ (o := { o with world := _ }) (h _) ha
  | readBoard next ih => exact ih _ (h _) ha
  | editBoard edit next ih => exact ih (o := { o with world := _ }) h ha

/-- What holds of one child and the world throughout a tick of the node. -/
structure KeptFor (I : Progress → World σ → Prop) (ex : Executor σ) (spec : NodeSpec)
    (steps : List (Stepper σ)) (i : ℕ) : Prop where
  tick : ∀ {step}, steps[i]? = some step → ∀ {a w}, I a w → I (step a w).2.1 (step a w).2.2
  reset : ∀ {a w}, I a w → I a.reset w
  others : ∀ {j step}, j ≠ i → steps[j]? = some step →
    ∀ {a w}, I a w → ∀ b, I a (step b w).2.2
  code : ∀ {a w}, I a w → ∀ ticks, I a (spec.execute ex ticks w).2
  board : ∀ {a w}, I a w → ∀ board, I a { w with board }

theorem KeptFor.tickChild {I : Progress → World σ → Prop} (hI : KeptFor I ex spec steps i)
    {o : Ongoing σ} {a : Progress} (ha : o.children[i]? = some a) (h : I a o.world) (j : ℕ) :
    ∃ b, (o.tickChild steps j).2.children[i]? = some b ∧ I b (o.tickChild steps j).2.world := by
  unfold Ongoing.tickChild
  split
  · next step child hstep hchild =>
    by_cases hj : j = i
    · subst hj
      obtain rfl : child = a := Option.some.inj (hchild.symm.trans ha)
      have hlt : j < o.children.length := (List.getElem?_eq_some_iff.mp ha).1
      exact ⟨_, List.getElem?_set_self hlt, hI.tick hstep h⟩
    · exact ⟨a, (List.getElem?_set_ne hj).trans ha, hI.others hj hstep h child⟩
  · exact ⟨a, ha, h⟩

/-- What a tick of the child keeps is kept by a whole routine. -/
theorem KeptFor.run {I : Progress → World σ → Prop} (hI : KeptFor I ex spec steps i) (r : Routine)
    {o : Ongoing σ} {a : Progress} (ha : o.children[i]? = some a) (h : I a o.world) :
    ∃ b, (r.run ex spec steps o).2.children[i]? = some b ∧
      I b (r.run ex spec steps o).2.world := by
  induction r generalizing o a with
  | finish status => exact ⟨a, ha, h⟩
  | tickChild j next ih =>
    obtain ⟨b, hb, hkept⟩ := hI.tickChild ha h j
    exact ih _ hb hkept
  | resetChild j next ih =>
    have hchild := o.resetChild_getElem? j ha
    refine ih (o := o.resetChild j) hchild ?_
    split
    · exact hI.reset h
    · exact h
  | setCursor j next ih => exact ih (o := { o with cursor := j }) ha h
  | setCounter count next ih => exact ih (o := { o with counter := count }) ha h
  | runCode ticks next ih => exact ih _ (o := { o with world := _ }) ha (hI.code h ticks)
  | readBoard next ih => exact ih _ ha h
  | editBoard edit next ih => exact ih (o := { o with world := _ }) ha (hI.board h _)

end

/-- Whether a node of a kind in this state can have the child at an index running. -/
def BuiltIn.MayLeave (kind : BuiltIn) (spec : NodeSpec) (state : RunState) (i : ℕ) : Prop :=
  match kind with
  | .sequence | .selector => state.status = .running ∧ state.cursor = i
  | .parallel => state.status ≠ .idle
  | .inverter | .untilSuccess | .untilFail | .start => state.status = .running ∧ i = 0
  | .repeater => state.status = .running ∧ i = 0 ∧
      (spec.repeatsForever = true ∨ state.counter < spec.repetitions)
  | .script => False

def BuiltIn.Agrees (kind : BuiltIn) (spec : NodeSpec) (i : ℕ) (state : RunState) (child : Status) :
    Prop :=
  child = .running → kind.MayLeave spec state i

section

variable {kind : BuiltIn} {stop done : Status} {spec : NodeSpec} {i : ℕ} {child : Status}

/-- A round ends with no child running but the one at its cursor. -/
theorem secures_roundFrom (hkind : kind.GoesRound stop done) (left index cursor counter : ℕ)
    (h : child = .running → i = index ∧ 0 < left) :
    (roundFrom stop done left index).Secures i (kind.Agrees spec i) cursor counter child := by
  have hagrees : ∀ {state : RunState} {s : Status},
      (s = .running → state.status = .running ∧ state.cursor = i) → kind.Agrees spec i state s := by
    intro state s hs
    cases hkind <;> exact hs
  induction left generalizing index cursor child with
  | zero =>
    refine hagrees fun hrunning => ?_
    exact absurd (h hrunning).2 (Nat.lt_irrefl 0)
  | succ left ih =>
    intro s
    beta_reduce
    -- after its tick the child at the index is running only if it is the one that was ticked
    have hticked : (if index = i then s else child) = .running → index = i ∧ s = .running := by
      intro hrunning
      split at hrunning
      · next heq => exact ⟨heq, hrunning⟩
      · next hne => exact absurd (h hrunning).1.symm hne
    by_cases hstop : s = stop
    · rw [if_pos hstop]
      refine hagrees fun hrunning => ?_
      exact absurd (hstop.symm.trans (hticked hrunning).2) hkind.stop_ne_running
    · rw [if_neg hstop]
      by_cases hs : s = .running
      · rw [if_pos hs]
        exact hagrees fun hrunning => ⟨rfl, (hticked hrunning).1⟩
      · rw [if_neg hs]
        exact ih (index + 1) cursor fun hrunning => absurd (hticked hrunning).2 hs

/-- A parallel may end in any state that its children come to. -/
theorem secures_fanOutFrom {decide : ℕ → ℕ → Status} (hdecide : ∀ s f, decide s f ≠ .idle)
    (left index successes failures cursor counter : ℕ) (child : Status) :
    (fanOutFrom decide left index successes failures).Secures i (BuiltIn.parallel.Agrees spec i)
      cursor counter child := by
  induction left generalizing index successes failures child with
  | zero => exact fun _ => hdecide successes failures
  | succ left ih => exact fun s => ih _ _ _ _

/-- A decorator that is done with its only child once the child has come to a status. -/
theorem secures_endsAfter {s : Status} {r : Routine} (hends : Plan.EndsAfter s r)
    (h : child = .running → i = 0 ∧ s = .running) {P : RunState → Status → Prop}
    (cursor counter : ℕ)
    (hP : ∀ status c, (c = .running → status = .running ∧ i = 0) → P ⟨status, cursor, counter⟩ c) :
    r.Secures i P cursor counter child := by
  cases hends with
  | @finish status hstatus =>
    apply hP
    intro hrunning
    obtain ⟨hi, hs⟩ := h hrunning
    exact ⟨hstatus hs, hi⟩
  | reset status =>
    apply hP
    intro hrunning
    split at hrunning
    · exact absurd hrunning (by decide)
    · next hne => exact absurd (h hrunning).1.symm hne

/-- The child of a node that ticks only its first child, after a tick of it. -/
theorem running_of_ticked {s : Status} (h : child = .running → i = 0) :
    (if 0 = i then s else child) = .running → i = 0 ∧ s = .running := by
  intro hrunning
  split at hrunning
  · next hi => exact ⟨hi.symm, hrunning⟩
  · next hne => exact absurd (h hrunning).symm hne

/-- A bounded repeater leaves its child running only in the middle of a repetition. -/
theorem secures_repeatFrom {left done : ℕ} (hbounded : left ≠ 0 → done + left = spec.repetitions)
    (cursor : ℕ) (h : child = .running → i = 0 ∧ left ≠ 0) :
    (repeatFrom left done).Secures i (BuiltIn.repeater.Agrees spec i) cursor done child := by
  induction left generalizing done child with
  | zero => exact fun hrunning => absurd rfl (h hrunning).2
  | succ left ih =>
    intro s
    beta_reduce
    have hticked := running_of_ticked (s := s) fun hrunning => (h hrunning).1
    have hsum := hbounded (Nat.succ_ne_zero left)
    by_cases hs : s = .running
    · rw [if_pos hs]
      exact fun hrunning => ⟨rfl, (hticked hrunning).1, Or.inr (show done < _ by omega)⟩
    · rw [if_neg hs]
      have hreset : (if 0 = i then Status.idle else if 0 = i then s else child) ≠ .running := by
        intro hrunning
        by_cases hi : 0 = i
        · rw [if_pos hi] at hrunning
          exact absurd hrunning (by decide)
        · rw [if_neg hi] at hrunning
          exact hs (hticked hrunning).2
      split
      · exact fun hrunning => absurd hrunning hreset
      · exact ih (fun _ => by omega) fun hrunning => absurd hrunning hreset

/-- Whatever happens during a tick, the node can have the child running afterwards if it is. -/
theorem BuiltIn.secures (kind : BuiltIn) {state : RunState} {count : ℕ} (hi : i < count)
    (h : kind.Agrees spec i state child) :
    (kind.routine (spec.view state count)).Secures i (kind.Agrees spec i) state.cursor
      state.counter child := by
  have hround : ∀ {stop done}, kind.GoesRound stop done →
      (kind.routine (spec.view state count)).Secures i (kind.Agrees spec i) state.cursor
        state.counter child := by
    intro stop done hkind
    rw [hkind.routine_eq]
    refine secures_roundFrom hkind _ _ _ _ fun hrunning => ?_
    have hcursor : state.cursor = i := by cases hkind <;> exact (h hrunning).2
    have hview : (spec.view state count).cursor = i := by
      rw [NodeSpec.view, hcursor]
      exact if_pos hi
    rw [hview]
    exact ⟨rfl, Nat.sub_pos_of_lt hi⟩
  have hsome : count ≠ 0 := Nat.ne_of_gt (Nat.zero_lt_of_lt hi)
  have hdecorator : (kind = .inverter ∨ kind = .untilSuccess ∨ kind = .untilFail ∨ kind = .start) →
      (kind.routine (spec.view state count)).Secures i (kind.Agrees spec i) state.cursor
        state.counter child := by
    intro hkind
    obtain ⟨alone, next, hroutine, -, hends⟩ := Plan.routine_decorator hkind
    have hfirst : child = .running → i = 0 := by
      rcases hkind with rfl | rfl | rfl | rfl <;> exact fun hrunning => (h hrunning).2
    rw [hroutine, withChild, if_neg (show (spec.view state count).childCount ≠ 0 from hsome)]
    intro s
    refine secures_endsAfter (hends s) (running_of_ticked hfirst) _ _ fun status c hc => ?_
    rcases hkind with rfl | rfl | rfl | rfl <;> exact hc
  cases kind with
  | sequence => exact hround .sequence
  | selector => exact hround .selector
  | parallel =>
    simp only [routine, if_neg (show (spec.view state count).childCount ≠ 0 from hsome)]
    apply secures_fanOutFrom
    intro s f
    unfold parallelStatus
    split_ifs <;> decide
  | inverter => exact hdecorator (Or.inl rfl)
  | untilSuccess => exact hdecorator (Or.inr (Or.inl rfl))
  | untilFail => exact hdecorator (Or.inr (Or.inr (Or.inl rfl)))
  | start => exact hdecorator (Or.inr (Or.inr (Or.inr rfl)))
  | repeater =>
    have hfirst : child = .running → i = 0 := fun hrunning => (h hrunning).2.1
    obtain ⟨more, rfl⟩ : ∃ more, count = more + 1 := Nat.exists_eq_succ_of_ne_zero hsome
    have hroutine : repeater.routine (spec.view state (more + 1)) = _ :=
      routine_repeater spec state more
    rw [hroutine]
    by_cases hforever : spec.repeatsForever = true
    · rw [if_pos hforever]
      intro s
      refine secures_endsAfter (Plan.repeatForever_endsAfter s) (running_of_ticked hfirst) _ _ ?_
      intro status c hc hrunning
      obtain ⟨hstatus, hi⟩ := hc hrunning
      exact ⟨hstatus, hi, Or.inl hforever⟩
    · rw [if_neg hforever]
      refine secures_repeatFrom (fun hleft => by omega) _ fun hrunning => ?_
      have hlt : state.counter < spec.repetitions := (h hrunning).2.2.resolve_left hforever
      exact ⟨hfirst hrunning, by omega⟩
  | script =>
    simp only [routine, runScript]
    split
    · exact h
    · exact fun s => h

end

/-- The steppers of plans report the status that they leave. -/
theorem stepper_reports (ex : Executor σ) (p : Plan) : (p.tick ex).Reports :=
  fun a w => p.status_tick ex a w

/-- A tick of a node leaves its child at an index as the node can have it. -/
theorem BuiltIn.agrees_step {kind : BuiltIn} {spec : NodeSpec} {i : ℕ} {steps : List (Stepper σ)}
    {step : Stepper σ} {state : RunState} {children : List Progress} {a : Progress}
    (hspec : spec.behavior = kind.behavior) (hstep : steps[i]? = some step)
    (hreports : step.Reports) (ha : children[i]? = some a)
    (h : kind.Agrees spec i state a.state.status) (ex : Executor σ) (w : World σ) :
    let b := (spec.step ex steps (.node state children) w).2.1
    ∃ c, b.children[i]? = some c ∧ kind.Agrees spec i b.state c.state.status := by
  have hi : i < steps.length := (List.getElem?_eq_some_iff.mp hstep).1
  have hsecures := kind.secures hi h
  have hroutine : spec.behavior.routine (spec.view state steps.length) =
      kind.routine (spec.view state steps.length) := by rw [hspec, behavior]
  rw [← hroutine] at hsecures
  exact hsecures.run (o := ⟨state.cursor, state.counter, children, w⟩) ha hstep hreports

theorem KeptFor.step {I : Progress → World σ → Prop} {ex : Executor σ} {spec : NodeSpec}
    {steps : List (Stepper σ)} {i : ℕ} (hI : KeptFor I ex spec steps i) {s : RunState}
    {children : List Progress} {a : Progress} {w : World σ} (ha : children[i]? = some a)
    (h : I a w) :
    ∃ b, (spec.step ex steps (.node s children) w).2.1.children[i]? = some b ∧
      I b (spec.step ex steps (.node s children) w).2.2 :=
  hI.run (spec.behavior.routine (spec.view s steps.length))
    (o := ⟨s.cursor, s.counter, children, w⟩) ha h

def Plan.at? : Plan → List ℕ → Option Plan
  | p, [] => some p
  | p, i :: place => p.children[i]?.bind fun q => q.at? place

def Progress.at? : Progress → List ℕ → Option Progress
  | a, [] => some a
  | a, i :: place => a.children[i]?.bind fun c => c.at? place

/-- Every node on the way is running, from the root on. -/
inductive Progress.RunningAlong : List ℕ → Progress → Prop
  | here {a : Progress} (h : a.state.status = .running) : RunningAlong [] a
  | down {a c : Progress} {i : ℕ} {way : List ℕ} (h : a.state.status = .running)
      (hc : a.children[i]? = some c) (rest : RunningAlong way c) : RunningAlong (i :: way) a

namespace Plan

/-- On the way there is a parallel that has ended, and all that is below it on the way is running.
-/
inductive LeftRunning : List ℕ → Plan → Progress → Prop
  | ended {p : Plan} {a c : Progress} {i : ℕ} {way : List ℕ}
      (hspec : p.spec.behavior = BuiltIn.parallel.behavior) (hended : a.state.status.isTerminal)
      (hc : a.children[i]? = some c) (hrunning : c.RunningAlong way) : LeftRunning (i :: way) p a
  | deeper {p q : Plan} {a c : Progress} {i : ℕ} {way : List ℕ} (hq : p.children[i]? = some q)
      (hc : a.children[i]? = some c) (h : LeftRunning way q c) : LeftRunning (i :: way) p a

/-- The way goes through built-in nodes to a leaf. Each of them agrees with the next one, and the
leaf counts its ticks only while it is running. -/
inductive Tidy : List ℕ → Plan → Progress → Prop
  | leaf {p : Plan} {a : Progress} (hspec : p.spec.behavior = BuiltIn.script.behavior)
      (hcounter : a.state.status ≠ .running → a.state.counter = 0) : Tidy [] p a
  | step {p q : Plan} {a c : Progress} {kind : BuiltIn} {i : ℕ} {way : List ℕ}
      (hspec : p.spec.behavior = kind.behavior) (hq : p.children[i]? = some q)
      (hc : a.children[i]? = some c) (hagrees : kind.Agrees p.spec i a.state c.state.status)
      (rest : Tidy way q c) : Tidy (i :: way) p a

variable {p : Plan} {a c : Progress} {way : List ℕ}

theorem Tidy.reset (h : Tidy way p a) : Tidy way p a.reset := by
  induction h with
  | leaf hspec _ => exact .leaf hspec fun _ => by rw [Progress.state_reset, RunState.fresh]
  | @step p q a c kind i way hspec hq hc _ _ ih =>
    have hreset : a.reset.children[i]? = some c.reset := by
      rw [Progress.children_reset, List.getElem?_map, hc, Option.map_some]
    refine .step hspec hq hreset (fun hrunning => ?_) ih
    rw [Progress.state_reset] at hrunning
    exact absurd hrunning (by decide)

/-- A leaf that is not running has put its counter back. -/
theorem step_script (ex : Executor σ) {spec : NodeSpec}
    (hspec : spec.behavior = BuiltIn.script.behavior) (steps : List (Stepper σ)) (a : Progress)
    (w : World σ) :
    (spec.step ex steps a w).2.1.state.status ≠ .running →
      (spec.step ex steps a w).2.1.state.counter = 0 := by
  obtain ⟨state, children⟩ := a
  simp only [NodeSpec.step, hspec, BuiltIn.behavior, BuiltIn.routine, runScript]
  split
  · exact fun _ => rfl
  · exact fun hended => if_neg hended

/-- Every tick keeps the way tidy. -/
theorem Tidy.tick (h : Tidy way p a) (ex : Executor σ) (w : World σ) :
    Tidy way p (p.tick ex a w).2.1 := by
  induction way generalizing p a w with
  | nil =>
    obtain ⟨spec, plans⟩ := p
    cases h with
    | leaf hspec _ => exact .leaf hspec (step_script ex hspec _ a w)
  | cons i way ih =>
    obtain ⟨spec, plans⟩ := p
    obtain ⟨state, children⟩ := a
    cases h with
    | @step _ q _ c kind _ _ hspec hq hc hagrees rest =>
      have hstep : (steppers ex plans)[i]? = some (q.tick ex) := by
        rw [steppers_eq_map, List.getElem?_map, show plans[i]? = some q from hq, Option.map_some]
      have hkept : KeptFor (fun c _ => Tidy way q c) ex spec (steppers ex plans) i := {
        tick := fun {step} hs {a w} hrest => by
          obtain rfl : q.tick ex = step := Option.some.inj (hstep.symm.trans hs)
          exact ih hrest w
        reset := Tidy.reset
        others := fun _ _ _ _ hrest _ => hrest
        code := fun hrest _ => hrest
        board := fun hrest _ => hrest }
      obtain ⟨b, hb, hagreed⟩ :=
        BuiltIn.agrees_step hspec hstep (stepper_reports ex q) hc hagrees ex w
      obtain ⟨b', hb', htidy⟩ := hkept.step (s := state) (w := w) hc rest
      obtain rfl : b = b' := Option.some.inj (hb.symm.trans hb')
      exact .step hspec hq hb hagreed htidy

/-- From a node that can have a child running on, the way goes on running or has been left so. -/
theorem runningAlong_or_left {kind : BuiltIn} {i : ℕ} (hspec : p.spec.behavior = kind.behavior)
    (hc : a.children[i]? = some c) (hrunning : c.RunningAlong way)
    (h : kind.MayLeave p.spec a.state i) :
    a.RunningAlong (i :: way) ∨ LeftRunning (i :: way) p a := by
  by_cases hstatus : a.state.status = .running
  · exact Or.inl (.down hstatus hc hrunning)
  · have hleave : kind = .parallel ∧ a.state.status ≠ .idle := by
      cases kind with
      | parallel => exact ⟨rfl, h⟩
      | script => exact h.elim
      | _ => exact absurd h.1 hstatus
    obtain ⟨rfl, hidle⟩ := hleave
    have hended : a.state.status.isTerminal := by
      cases hs : a.state.status with
      | running => exact absurd hs hstatus
      | idle => exact absurd hs hidle
      | success => rfl
      | failure => rfl
    exact Or.inr (.ended hspec hended hc hrunning)

/-- On a tidy way a leaf that has a counter is running with all above it, or it has been left
running by a parallel. -/
theorem Tidy.running_or_left (h : Tidy way p a) (hc : a.at? way = some c) :
    a.RunningAlong way ∨ c.state.counter = 0 ∨ LeftRunning way p a := by
  induction h with
  | @leaf p a _ hcounter =>
    obtain rfl : a = c := Option.some.inj hc
    by_cases hstatus : a.state.status = .running
    · exact Or.inl (.here hstatus)
    · exact Or.inr (Or.inl (hcounter hstatus))
  | @step p q a b kind i way hspec hq hb hagrees _ ih =>
    rw [Progress.at?, hb, Option.bind_some] at hc
    rcases ih hc with hrunning | hcounter | hleft
    · have hstatus : b.state.status = .running := by cases hrunning <;> assumption
      exact (runningAlong_or_left hspec hb hrunning (hagrees hstatus)).imp_right Or.inr
    · exact Or.inr (Or.inl hcounter)
    · exact Or.inr (Or.inr (.deeper hq hb hleft))

/-- What is left over in a leaf below a node that is not running was left there by a parallel. -/
theorem Tidy.left_of_counter (h : Tidy way p a) (hstatus : a.state.status ≠ .running)
    (hc : a.at? way = some c) (hcounter : c.state.counter ≠ 0) : LeftRunning way p a := by
  rcases h.running_or_left hc with hrunning | hzero | hleft
  · cases hrunning with
    | here hroot => exact absurd hroot hstatus
    | down hroot => exact absurd hroot hstatus
  · exact absurd hzero hcounter
  · exact hleft

end Plan

end BehaviorTree
