import BehaviorTree.Proofs.Independence
import BehaviorTree.Proofs.Places
import BehaviorTree.Proofs.Resumption
import BehaviorTree.Proofs.Unrolling

/-!
Repeaters that start over. A repeater counts how often its child has run to its end, and whenever
it ends itself it puts the counter back to zero, so that the next run has all of its repetitions in
front of it. Its config and its child may be changed between two ticks; the counter is left alone
by that, and the next tick goes by the config of then. The one tick that ends without putting the
counter back is that of a repeater whose child has been taken away: it succeeds at once, and the
run that comes after it is short by what had been counted before.
-/
namespace BehaviorTree

variable {σ : Type} {spec : NodeSpec}

theorem Status.not_terminal_of_running {s : Status} (h : s = .running) : ¬ s.isTerminal = true := by
  rw [h]
  decide

/-- A repetition ends, unless it is suspended with something left to do. -/
theorem rerun_status (step : Stepper σ) (left : ℕ) (a : Progress) (w : World σ) :
    let r := rerun step left a w
    r.status.isTerminal = true ∨ r.status = .running ∧ r.passed < left := by
  induction left generalizing a w with
  | zero => exact Or.inl rfl
  | succ left ih =>
    by_cases hrunning : (step a w).1 = .running
    · rw [rerun_of_running left hrunning]
      exact Or.inr ⟨rfl, Nat.succ_pos left⟩
    by_cases hfailure : (step a w).1 = .failure
    · rw [rerun_of_failure left hfailure]
      exact Or.inl rfl
    · rw [rerun_of_pass left (not_or.mpr ⟨hfailure, hrunning⟩)]
      exact (ih (step a w).2.1.reset (step a w).2.2).imp_right fun h =>
        ⟨h.1, Nat.succ_lt_succ h.2⟩

/-- The state of a repeater with so many children before and after a tick. -/
structure NodeSpec.Repeated (spec : NodeSpec) (childCount : ℕ) (before after : RunState) :
    Prop where
  ended_or_running : after.status.isTerminal = true ∨ after.status = .running
  /-- Without a child there is nothing to be done, and the counter stays where it is. -/
  alone : childCount = 0 → after.status = .success ∧ after.counter = before.counter
  starts_over : childCount ≠ 0 → after.status.isTerminal = true → after.counter = 0
  within : after.status = .running → spec.repeatsForever = false →
    after.counter < spec.repetitions
  forever : childCount ≠ 0 → spec.repeatsForever = true →
    after.status = .running ∧ after.counter = before.counter

/-- A repeater that goes on forever is running after every tick. -/
theorem run_repeatForever (ex : Executor σ) (spec : NodeSpec) (steps : List (Stepper σ))
    (o : Ongoing σ) : (repeatForever.run ex spec steps o).1 = .running ∧
      (repeatForever.run ex spec steps o).2.counter = o.counter := by
  have hcounter : (o.tickChild steps 0).2.counter = o.counter := by
    unfold Ongoing.tickChild
    split <;> rfl
  simp only [repeatForever, Routine.run]
  split_ifs
  · exact ⟨rfl, hcounter⟩
  · exact ⟨rfl, hcounter⟩

/-- A repeater that has a child starts over when it has ended. -/
theorem NodeSpec.repeated_step (ex : Executor σ)
    (hspec : spec.behavior = BuiltIn.repeater.behavior) {steps : List (Stepper σ)}
    {children : List Progress} (hlen : steps.length = children.length) (state : RunState)
    (w : World σ) :
    spec.Repeated steps.length state (spec.step ex steps (.node state children) w).2.1.state := by
  cases steps with
  | nil =>
    have hstep : (spec.step ex [] (.node state children) w).2.1.state =
        ⟨.success, state.cursor, state.counter⟩ := by
      simp only [NodeSpec.step, hspec]
      rfl
    rw [hstep]
    have hended : Status.success ≠ .running := by decide
    exact ⟨Or.inl rfl, fun _ => ⟨rfl, rfl⟩, fun h => absurd rfl h, fun h => absurd h hended,
      fun h => absurd rfl h⟩
  | cons step others =>
    obtain _ | ⟨a, rest⟩ := children
    · simp at hlen
    have hsome : (step :: others).length ≠ 0 := Nat.succ_ne_zero _
    cases hforever : spec.repeatsForever with
    | true =>
      have hroutine : spec.behavior.routine (spec.view state (step :: others).length) =
          repeatForever := by
        rw [hspec, List.length_cons, routine_repeater, hforever]
        rfl
      obtain ⟨hstatus, hcounter⟩ := run_repeatForever ex spec (step :: others)
        ⟨state.cursor, state.counter, a :: rest, w⟩
      simp only [NodeSpec.step, hroutine, Progress.state]
      refine ⟨Or.inr hstatus, fun h => absurd h hsome, fun _ hended => ?_, ?_, ?_⟩
      · exact absurd hended (Status.not_terminal_of_running hstatus)
      · exact fun _ hbounded => absurd (hforever.symm.trans hbounded) (by decide)
      · exact fun _ _ => ⟨hstatus, hcounter⟩
    | false =>
      have hstops : spec.StopsAfter spec.repetitions := ⟨hspec, hforever, rfl⟩
      have hrerun := rerun_status step (spec.repetitions - state.counter) a w
      rw [spec.step_repeater ex hstops step others state a rest w]
      generalize rerun step (spec.repetitions - state.counter) a w = r at hrerun ⊢
      simp only [Progress.state]
      refine ⟨hrerun.imp_right And.left, fun h => absurd h hsome, fun _ hended => ?_,
        fun hrunning _ => ?_, fun _ h => absurd (hforever.symm.trans h) (by decide)⟩
      · exact if_neg fun hrunning => Status.not_terminal_of_running hrunning hended
      · have hended := Status.not_terminal_of_running hrunning
        have hlt : r.passed < spec.repetitions - state.counter := (hrerun.resolve_left hended).2
        rw [if_pos hrunning]
        show state.counter + r.passed < spec.repetitions
        omega

namespace Plan

theorem repeated_tick (ex : Executor σ) (hspec : spec.behavior = BuiltIn.repeater.behavior)
    {plans : List Plan} {a : Progress} (h : (Plan.node spec plans).Fits a) (w : World σ) :
    spec.Repeated plans.length a.state ((Plan.node spec plans).tick ex a w).2.1.state := by
  obtain ⟨state, children⟩ := a
  have hsteps : (steppers ex plans).length = plans.length := by
    rw [steppers_eq_map, List.length_map]
  have hlen : plans.length = children.length := (fits_node_iff.mp h).1
  have hrepeated := spec.repeated_step ex hspec (hsteps.trans hlen) state w
  rwa [hsteps] at hrepeated

/-- What every tick of the subtree at a place keeps, every tick of the whole keeps. -/
theorem tick_keeps_at {P : Progress → Prop} {ex : Executor σ} (hreset : ∀ {b}, P b → P b.reset)
    {p q : Plan} {place : List ℕ} (hq : p.at? place = some q)
    (htick : ∀ {b w}, P b → P (q.tick ex b w).2.1) {a b : Progress} (hb : a.at? place = some b)
    (h : P b) (w : World σ) : ∃ c, (p.tick ex a w).2.1.at? place = some c ∧ P c := by
  induction place generalizing p a b w with
  | nil =>
    obtain rfl := Option.some.inj hq
    obtain rfl := Option.some.inj hb
    exact ⟨_, rfl, htick h⟩
  | cons i place ih =>
    obtain ⟨spec, plans⟩ := p
    obtain ⟨state, children⟩ := a
    obtain ⟨r, hr, hrq⟩ := Option.bind_eq_some_iff.mp hq
    obtain ⟨c, hc, hcb⟩ := Option.bind_eq_some_iff.mp hb
    have hkept : KeptFor (fun c _ => ∃ b, c.at? place = some b ∧ P b) ex spec (steppers ex plans)
        i := by
      refine ⟨fun {step} hstep c w hc => ?_, fun hc => ?_, fun _ _ _ _ hc _ => hc,
        fun hc _ => hc, fun hc _ => hc⟩
      · rw [steppers_eq_map, List.getElem?_map] at hstep
        obtain ⟨r', hr', rfl⟩ := Option.map_eq_some_iff.mp hstep
        obtain rfl : r = r' := Option.some.inj (hr.symm.trans hr')
        obtain ⟨b, hb, hP⟩ := hc
        exact ih hrq hb hP w
      · obtain ⟨b, hb, hP⟩ := hc
        exact ⟨b.reset, Progress.at?_reset hb, hreset hP⟩
    obtain ⟨d, hd, b', hb', hP⟩ := hkept.step (s := state) (w := w) hc ⟨b, hcb, h⟩
    exact ⟨b', Option.bind_eq_some_iff.mpr ⟨d, hd, hb'⟩, hP⟩

end Plan

namespace Forest

open Relation

variable {f g : Forest} {k t : NodeKey}

def IsRepeater (f : Forest) (k : NodeKey) : Prop :=
  ∃ n, f.node? k = some n ∧ n.spec.behavior = BuiltIn.repeater.behavior

/-- The counter is at its start, unless the node has not ended. -/
def Rewound (f : Forest) (k : NodeKey) : Prop :=
  (f.runState k).status.isTerminal = true → (f.runState k).counter = 0

inductive Revision : Forest → Forest → Prop
  | link {f g : Forest} (h : Edit f g) : Revision f g
  | rewrite {f : Forest} (k : NodeKey) (change : NodeSpec → NodeSpec)
      (hkind : ∀ s : NodeSpec, s.SameKind (change s)) : Revision f (f.updateSpec k change)

/-- Any operation on a forest, but for ticks that reach the node while it has no children. -/
inductive Tended (k : NodeKey) : Forest → Forest → Prop
  | revise {f g : Forest} (h : Revision f g) : Tended k f g
  | reset {f : Forest} (j : NodeKey) : Tended k f (f.reset j)
  | tick {f : Forest} {σ : Type} (ex : Executor σ) (t : NodeKey) (w : World σ)
      (h : k ∈ f.subtree t → f.children k ≠ []) : Tended k f (f.tick ex t w).2.1

theorem Revision.step (h : Revision f g) : Step f g := by
  cases h with
  | link h => exact h.step
  | rewrite k change hkind => exact .edit k change hkind

theorem Tended.step (h : Tended k f g) : Step f g := by
  cases h with
  | revise h => exact h.step
  | reset j => exact .reset j
  | tick ex t w _ => exact .tick ex t w

theorem runState_of_self? (h : g.self? k = f.self? k) : g.runState k = f.runState k := by
  have hstate := congrArg (Option.map Prod.snd) h
  simp only [self?, Option.map_map] at hstate
  exact congrArg (Option.getD · .fresh) hstate

theorem SameButStates.keeps_behavior {behavior : Behavior} (hsame : f.SameButStates g)
    (h : ∃ n, f.node? k = some n ∧ n.spec.behavior = behavior) :
    ∃ n, g.node? k = some n ∧ n.spec.behavior = behavior := by
  obtain ⟨n, hn, hspec⟩ := h
  have hmap := hsame.spec? k
  rw [hn, Option.map_some] at hmap
  obtain ⟨m, hm, heq⟩ := Option.map_eq_some_iff.mp hmap
  exact ⟨m, hm, heq ▸ hspec⟩

/-- A revision leaves alone how a node behaves and how far it is. -/
theorem Revision.keeps {behavior : Behavior} (hs : f.Sound) (h : Revision f g)
    (hk : ∃ n, f.node? k = some n ∧ n.spec.behavior = behavior) :
    (∃ n, g.node? k = some n ∧ n.spec.behavior = behavior) ∧ g.runState k = f.runState k := by
  obtain ⟨n, hn, hspec⟩ := hk
  cases h with
  | link h =>
    have hself : f.self? k = some (n.spec, n.state) := by rw [self?, hn, Option.map_some]
    have hafter := h.self?_eq hs hself
    obtain ⟨m, hm, heq⟩ := Option.map_eq_some_iff.mp hafter
    have hbehavior := congrArg (fun self => self.1.behavior) heq
    exact ⟨⟨m, hm, hbehavior.trans hspec⟩, runState_of_self? (hafter.trans hself.symm)⟩
  | rewrite j change hkind =>
    by_cases hkj : k = j
    · have hafter : (f.updateSpec j change).node? k = some { n with spec := change n.spec } := by
        rw [node?_updateSpec, hn, Option.map_some, if_pos hkj]
      refine ⟨⟨_, hafter, (hkind n.spec).behavior.trans hspec⟩, ?_⟩
      simp [runState, hafter, hn]
    · have hafter : (f.updateSpec j change).node? k = some n := by
        rw [node?_updateSpec, hn, Option.map_some, if_neg hkj]
      exact ⟨⟨n, hafter, hspec⟩, by simp [runState, hafter, hn]⟩

/-- A tick of a repeater, seen from the forest. -/
theorem Holds.repeated_tick {plans : List Plan} {spec : NodeSpec} {a : Progress}
    (h : f.Holds k (.node spec plans) a) (hspec : spec.behavior = BuiltIn.repeater.behavior)
    (ex : Executor σ) (w : World σ) :
    spec.Repeated (f.children k).length (f.runState k) ((f.tick ex k w).2.1.runState k) := by
  have hrepeated := Plan.repeated_tick ex hspec h.fits w
  rw [(h.tick ex w).runState, h.runState, h.length_plans]
  exact hrepeated

/-- A tick that reaches a repeater from above leaves it as one of its own ticks may leave it. -/
theorem rewound_tick (hs : f.Sound) (hk : f.IsRepeater k) (h : f.Rewound k)
    (hchildren : k ∈ f.subtree t → f.children k ≠ []) (ex : Executor σ) (w : World σ) :
    (f.tick ex t w).2.1.Rewound k := by
  obtain ⟨n, hn, hspec⟩ := hk
  by_cases hkt : k ∈ f.subtree t
  · obtain ⟨p, a, plans, b, c, way, -, hholds, -, hq, hb, hc, hafter⟩ :=
      hs.exists_tick_at hn hkt ex w
    have hsome : plans.length ≠ 0 := by
      rw [← hholds.length_plans]
      exact fun hnil => hchildren hkt (List.length_eq_zero_iff.mp hnil)
    let Kept : Progress → Prop := fun b => (Plan.node n.spec plans).Fits b ∧
      (b.state.status.isTerminal = true → b.state.counter = 0)
    have hbegin : Kept b := by
      refine ⟨hholds.fits, ?_⟩
      rw [← hholds.runState]
      exact h
    have hreset : ∀ {b}, Kept b → Kept b.reset := fun hb =>
      ⟨Plan.fits_reset hb.1, fun _ => by rw [Progress.state_reset]; rfl⟩
    have htick : ∀ {b w}, Kept b → Kept ((Plan.node n.spec plans).tick ex b w).2.1 :=
      fun hb => ⟨Plan.fits_tick ex hb.1 _, (Plan.repeated_tick ex hspec hb.1 _).starts_over hsome⟩
    obtain ⟨d, hd, -, hkept⟩ := Plan.tick_keeps_at (P := Kept) hreset hq htick hb hbegin w
    obtain rfl : d = c := Option.some.inj (hd.symm.trans hc)
    rw [Rewound, hafter.runState]
    exact hkept
  · rw [Rewound, hs.runState_tick_of_not_mem hkt]
    exact h

theorem rewound_reset (h : f.Rewound k) (j : NodeKey) : (f.reset j).Rewound k := by
  rw [Rewound, runState_reset]
  split_ifs
  · exact fun _ => rfl
  · exact h

theorem rewound_of_tended (hs : f.Sound) (hk : f.IsRepeater k) (h : f.Rewound k)
    (hsteps : ReflTransGen (Tended k) f g) : g.Sound ∧ g.IsRepeater k ∧ g.Rewound k := by
  induction hsteps with
  | refl => exact ⟨hs, hk, h⟩
  | tail _ hstep ih =>
    obtain ⟨hs, hk, h⟩ := ih
    refine ⟨step_sound hstep.step hs, ?_⟩
    cases hstep with
    | revise hrevise =>
      obtain ⟨hk', hstate⟩ := hrevise.keeps hs hk
      exact ⟨hk', by rwa [Rewound, hstate]⟩
    | reset j => exact ⟨(reset_sameButStates _ j).keeps_behavior hk, rewound_reset h j⟩
    | tick ex t w hchildren =>
      exact ⟨(tick_sameButStates _ ex t w).keeps_behavior hk, rewound_tick hs hk h hchildren ex w⟩

theorem keeps_of_revisions (hs : f.Sound) (hk : f.IsRepeater k)
    (hsteps : ReflTransGen Revision f g) :
    g.Sound ∧ g.IsRepeater k ∧ g.runState k = f.runState k := by
  induction hsteps with
  | refl => exact ⟨hs, hk, rfl⟩
  | tail _ hstep ih =>
    obtain ⟨hs, hk, hstate⟩ := ih
    obtain ⟨hk', hstate'⟩ := hstep.keeps hs hk
    exact ⟨step_sound hstep.step hs, hk', hstate'.trans hstate⟩

/-- All that there is to say of the counter of a repeater, now and from now on. -/
structure StartsOver (f : Forest) (k : NodeKey) (spec : NodeSpec) : Prop where
  tick : ∀ {σ : Type} (ex : Executor σ) (w : World σ),
    ((f.tick ex k w).2.1.runState k).status = (f.tick ex k w).1 ∧
      spec.Repeated (f.children k).length (f.runState k) ((f.tick ex k w).2.1.runState k)
  /-- As long as it is not ticked without a child, it is at its start whenever it has ended. -/
  history : f.Rewound k → ∀ g, ReflTransGen (Tended k) f g → g.Rewound k
  /-- The run that follows runs the child as often as is left, by the config and with the child
  that it has by then. -/
  run : ∀ g, ReflTransGen Revision f g → ∀ m, g.node? k = some m → ∀ n, m.spec.StopsAfter n →
    g.children k ≠ [] → ∀ {visits last h}, Run k g visits last h →
      Repetition (n - (f.runState k).counter) visits last

/-- After any revisions a repeater goes on from its counter. -/
theorem run_after_revisions (hs : f.Sound) (hk : f.IsRepeater k)
    (hsteps : ReflTransGen Revision f g) {m : Node} (hm : g.node? k = some m) {n : ℕ}
    (hstops : m.spec.StopsAfter n) (hchildren : g.children k ≠ []) {visits : List Visit}
    {last : Status} {h : Forest} (run : Run k g visits last h) :
    Repetition (n - (f.runState k).counter) visits last := by
  obtain ⟨hsound, -, hstate⟩ := keeps_of_revisions hs hk hsteps
  have hself : g.self? k = some (m.spec, g.runState k) := by simp [self?, runState, hm]
  obtain ⟨plans, below, hholds⟩ := hsound.holds_of_self? hself
  have hlen := hholds.length_plans
  have hfits := hholds.fits
  rw [← hstate]
  cases hfits with
  | node hall =>
    cases hall with
    | nil => exact absurd (List.length_eq_zero_iff.mp hlen) hchildren
    | cons _ _ => exact run.repetition_left hstops hholds

/-- A repeater that has a child is at its start again whenever it ends, however it has been edited
meanwhile, and so its next run has all repetitions in front of it. Without a child it ends where it
is, and the next run with a child has only the repetitions that are left. -/
theorem repeater_starts_over (hf : f.Reachable) {n : Node} (hn : f.node? k = some n)
    (hspec : n.spec.behavior = BuiltIn.repeater.behavior) : f.StartsOver k n.spec := by
  have hk : f.IsRepeater k := ⟨n, hn, hspec⟩
  have hself : f.self? k = some (n.spec, f.runState k) := by simp [self?, runState, hn]
  obtain ⟨plans, children, hholds⟩ := hf.sound.holds_of_self? hself
  refine ⟨fun ex w => ⟨?_, hholds.repeated_tick hspec ex w⟩, fun h g hsteps => ?_, ?_⟩
  · rw [(hholds.tick ex w).runState, Plan.status_tick, hholds.tick_eq]
  · exact (rewound_of_tended hf.sound hk h hsteps).2.2
  · intro g hsteps m hm count hstops hchildren visits last h run
    exact run_after_revisions hf.sound hk hsteps hm hstops hchildren run

open Engine (twice twiceSpec twice_begins twiceSpec_repeats)

def halfway : Forest := (twice.tick .scripted 0 ⟨.empty, [.success, .running]⟩).2.1

/-- The repeater of two repetitions, halfway and afterwards. -/
theorem repeater_starts_over_twice :
    twice.Reachable ∧ twice.StartsOver 0 twiceSpec ∧ halfway.runState 0 = ⟨.running, 0, 1⟩ ∧
      ∀ g, ReflTransGen (Tended 0) twice g → g.Rewound 0 := by
  have hreachable : twice.Reachable := (twice_begins []).reachable
  have hstarts : twice.StartsOver 0 twiceSpec :=
    repeater_starts_over (n := ⟨twiceSpec, none, [1], .fresh⟩) hreachable (by rfl) rfl
  have hrewound : twice.Rewound 0 := by
    unfold Rewound
    decide
  exact ⟨hreachable, hstarts, by decide +kernel, hstarts.history hrewound⟩

def bereft : Status × Forest :=
  let (status, f, _) := (halfway.detach 0 1).2.tick .scripted 0 ⟨.empty, []⟩
  (status, f)

def reunited : Forest := (bereft.2.adopt 0 1).2

/-- Ticked while it has no child, the repeater succeeds with its counter where it was, and its next
run runs the action once, not twice. -/
theorem bereft_falls_short :
    (halfway.detach 0 1).2.Reachable ∧ twiceSpec.Repeats 2 ∧
      (bereft.2.node? 0).map (·.spec.config) = some twiceSpec.config ∧
      bereft.1 = .success ∧ (bereft.2.runState 0).counter = 1 ∧ reunited.children 0 = [1] ∧
      ∃ g, Run 0 reunited [⟨0, .success⟩] .success g ∧ completions [⟨0, .success⟩] = 1 := by
  have hreachable : halfway.Reachable := (twice_begins []).reachable.tail (.tick _ 0 _)
  have hvisits : (reunited.watch .scripted 0 ⟨.empty, [.success]⟩).1 = [⟨0, .success⟩] := by
    decide +kernel
  have hstatus : (reunited.watch .scripted 0 ⟨.empty, [.success]⟩).2.1 = .success := by
    decide +kernel
  have hrun := Run.first (k := 0) (f := reunited) .scripted ⟨.empty, [.success]⟩
  rw [hvisits, hstatus] at hrun
  have hconfig : (bereft.2.node? 0).map (·.spec.config) = some twiceSpec.config := by
    decide +kernel
  have hended : bereft.1 = .success ∧ (bereft.2.runState 0).counter = 1 := by decide +kernel
  have hchildren : reunited.children 0 = [1] := by decide +kernel
  exact ⟨hreachable.tail (.detach 0 1), twiceSpec_repeats, hconfig, hended.1, hended.2, hchildren,
    _, hrun, rfl⟩

end Forest

end BehaviorTree
