import BehaviorTree.Proofs.Observation
import BehaviorTree.Proofs.Rounds

/-!
Bounded repeaters. A repeater runs its only child to its end again and again, as often as its config
says, and gives up when the child fails. It resets the child each time, so it goes on like a
sequence that has the next copy of the child in front of it: what a tick of the one comes to is
what a tick of the other comes to.
-/
namespace BehaviorTree

variable {σ : Type} {spec : NodeSpec} {step : Stepper σ} {a : Progress} {w : World σ}
  {n left : ℕ}

def NodeSpec.repeatsForever (spec : NodeSpec) : Bool :=
  ((spec.view .fresh 1).configBool? "repeatForever").getD false

def NodeSpec.repetitions (spec : NodeSpec) : ℕ := repeatCount (spec.view .fresh 1)

/-- A repeater either repeats for ever or goes on with what is left. -/
theorem routine_repeater (spec : NodeSpec) (state : RunState) (count : ℕ) :
    BuiltIn.repeater.behavior.routine (spec.view state (count + 1)) =
      if spec.repeatsForever then repeatForever
      else repeatFrom (spec.repetitions - state.counter) state.counter := rfl

/-- A repeater that is told by its config to run its child so many times. -/
structure NodeSpec.Repeats (spec : NodeSpec) (n : ℕ) : Prop where
  behavior : spec.behavior = BuiltIn.repeater.behavior
  count : (spec.view .fresh 1).configInt? "count" = some (n : ℤ)
  bounded : (spec.view .fresh 1).configBool? "repeatForever" ≠ some true

theorem NodeSpec.Repeats.repetitions (h : spec.Repeats n) : spec.repetitions = n := by
  rw [NodeSpec.repetitions, repeatCount, h.count]
  rfl

theorem NodeSpec.Repeats.not_forever (h : spec.Repeats n) : spec.repeatsForever = false := by
  have hbounded := h.bounded
  rw [NodeSpec.repeatsForever]
  cases hconfig : (spec.view .fresh 1).configBool? "repeatForever" with
  | none => rfl
  | some forever =>
    cases forever with
    | false => rfl
    | true => exact absurd hconfig hbounded

/-- A repeater that runs its child so many times, by its config or for want of a word in it. -/
structure NodeSpec.StopsAfter (spec : NodeSpec) (n : ℕ) : Prop where
  behavior : spec.behavior = BuiltIn.repeater.behavior
  bounded : spec.repeatsForever = false
  repetitions : spec.repetitions = n

theorem NodeSpec.Repeats.stopsAfter (h : spec.Repeats n) : spec.StopsAfter n :=
  ⟨h.behavior, h.not_forever, h.repetitions⟩

/-- Ticks a child until it is running or fails, resetting it each time it has ended. -/
def rerun (step : Stepper σ) : (left : ℕ) → Progress → World σ → Sweep σ
  | 0, a, w => ⟨.success, 0, [a], w⟩
  | left + 1, a, w =>
    let (status, a, w) := step a w
    if status = .running then ⟨.running, 0, [a], w⟩
    else if status = .failure then ⟨.failure, 0, [a.reset], w⟩
    else
      let r := rerun step left a.reset w
      ⟨r.status, r.passed + 1, r.children, r.world⟩

theorem rerun_of_running (left : ℕ) (h : (step a w).1 = .running) :
    rerun step (left + 1) a w = ⟨.running, 0, [(step a w).2.1], (step a w).2.2⟩ := by
  simp only [rerun, if_pos h]

theorem rerun_of_failure (left : ℕ) (h : (step a w).1 = .failure) :
    rerun step (left + 1) a w = ⟨.failure, 0, [(step a w).2.1.reset], (step a w).2.2⟩ := by
  simp [rerun, h]

theorem rerun_of_pass (left : ℕ) (h : ¬ ((step a w).1 = .failure ∨ (step a w).1 = .running)) :
    rerun step (left + 1) a w =
      ⟨(rerun step left (step a w).2.1.reset (step a w).2.2).status,
        (rerun step left (step a w).2.1.reset (step a w).2.2).passed + 1,
        (rerun step left (step a w).2.1.reset (step a w).2.2).children,
        (rerun step left (step a w).2.1.reset (step a w).2.2).world⟩ := by
  obtain ⟨hfailure, hrunning⟩ := not_or.mp h
  simp only [rerun, if_neg hfailure, if_neg hrunning]

/-- The routine of a repeater reruns its child as often as is left. -/
theorem run_repeatFrom (ex : Executor σ) (spec : NodeSpec) (step : Stepper σ)
    (others : List (Stepper σ)) (left done cursor : ℕ) (a : Progress) (rest : List Progress)
    (w : World σ) :
    (repeatFrom left done).run ex spec (step :: others) ⟨cursor, done, a :: rest, w⟩ =
      let r := rerun step left a w
      (r.status, ⟨cursor, if r.status = .running then done + r.passed else 0, r.children ++ rest,
        r.world⟩) := by
  induction left generalizing done a w with
  | zero => simp [repeatFrom, Routine.run, rerun]
  | succ left ih =>
    have htick : Ongoing.tickChild (step :: others) 0 ⟨cursor, done, a :: rest, w⟩ =
        ((step a w).1, ⟨cursor, done, (step a w).2.1 :: rest, (step a w).2.2⟩) := rfl
    simp only [repeatFrom, Routine.run, htick]
    by_cases hrunning : (step a w).1 = .running
    · rw [if_pos hrunning, rerun_of_running left hrunning]
      simp [Routine.run]
    · rw [if_neg hrunning]
      simp only [Routine.run, Ongoing.resetChild, List.modify_zero_cons]
      by_cases hfailure : (step a w).1 = .failure
      · rw [if_pos hfailure, rerun_of_failure left hfailure]
        simp [Routine.run]
      · rw [if_neg hfailure, ih, rerun_of_pass left (not_or.mpr ⟨hfailure, hrunning⟩)]
        simp only [Nat.add_assoc, Nat.add_comm 1]

/-- A tick of a bounded repeater goes on with the repetition that its counter tells. -/
theorem NodeSpec.step_repeater (ex : Executor σ) (h : spec.StopsAfter n) (step : Stepper σ)
    (others : List (Stepper σ)) (state : RunState) (a : Progress) (rest : List Progress)
    (w : World σ) :
    spec.step ex (step :: others) (.node state (a :: rest)) w =
      let r := rerun step (n - state.counter) a w
      (r.status,
        .node ⟨r.status, state.cursor, if r.status = .running then state.counter + r.passed else 0⟩
          (r.children ++ rest),
        r.world) := by
  have hroutine : spec.behavior.routine (spec.view state (others.length + 1)) =
      repeatFrom (n - state.counter) state.counter := by
    rw [h.behavior, routine_repeater spec state others.length, h.bounded, h.repetitions]
    rfl
  simp only [NodeSpec.step, List.length_cons, hroutine, run_repeatFrom]

/-- The rest of a repetition and the rest of a round through copies of the child. As long as the
child is running, the copies behind it are untouched. -/
structure Alongside (c : Plan) (total : ℕ) (r s : Sweep σ) : Prop where
  status : r.status = s.status
  world : r.world = s.world
  passed : r.passed = s.passed
  children : s.status = .running → ∃ before a later, c.Fits a ∧ r.children = [a] ∧
    s.children = before ++ a :: List.replicate later c.fresh ∧ before.length = s.passed ∧
    s.passed + 1 + later = total

theorem alongside_succ (ex : Executor σ) {c : Plan}
    (hfresh : ∀ w : World σ, Alongside c left (rerun (c.tick ex) left c.fresh w)
      (sweep .failure .success (List.replicate left (c.tick ex)) (List.replicate left c.fresh) w))
    (ha : c.Fits a) (w : World σ) :
    Alongside c (left + 1) (rerun (c.tick ex) (left + 1) a w)
      (sweep .failure .success (List.replicate (left + 1) (c.tick ex))
        (a :: List.replicate left c.fresh) w) := by
  have hfits : c.Fits (c.tick ex a w).2.1 := Plan.fits_tick ex ha w
  rw [List.replicate_succ]
  by_cases hrunning : (c.tick ex a w).1 = .running
  · rw [rerun_of_running left hrunning, sweep_cons_of_halt _ _ (Or.inr hrunning)]
    refine ⟨hrunning.symm, rfl, rfl, fun _ => ⟨[], _, left, hfits, rfl, rfl, rfl, ?_⟩⟩
    show 0 + 1 + left = left + 1
    omega
  by_cases hfailure : (c.tick ex a w).1 = .failure
  · rw [rerun_of_failure left hfailure, sweep_cons_of_halt _ _ (Or.inl hfailure)]
    exact ⟨hfailure.symm, rfl, rfl, fun h => absurd h hrunning⟩
  · have hpass := not_or.mpr ⟨hfailure, hrunning⟩
    have hrest := hfresh (c.tick ex a w).2.2
    rw [rerun_of_pass left hpass, sweep_cons_of_pass _ _ hpass, Plan.reset_eq_fresh hfits]
    refine ⟨hrest.status, hrest.world, congrArg (· + 1) hrest.passed, fun h => ?_⟩
    obtain ⟨before, b, later, hb, hchild, hcopies, hlen, htotal⟩ := hrest.children h
    refine ⟨(c.tick ex a w).2.1 :: before, b, later, hb, hchild, ?_, congrArg (· + 1) hlen, ?_⟩
    · rw [hcopies, List.cons_append]
    · show (sweep _ _ _ _ _).passed + 1 + 1 + later = left + 1
      omega

/-- Repeating a child and going through its copies come to the same. -/
theorem alongside_fresh (ex : Executor σ) (c : Plan) (left : ℕ) (w : World σ) :
    Alongside c left (rerun (c.tick ex) left c.fresh w)
      (sweep .failure .success (List.replicate left (c.tick ex))
        (List.replicate left c.fresh) w) := by
  induction left generalizing w with
  | zero => exact ⟨rfl, rfl, rfl, fun h => by cases h⟩
  | succ left ih =>
    rw [List.replicate_succ (a := c.fresh)]
    exact alongside_succ ex ih c.fits_fresh w

/-- A repetition of a child that has got somewhere goes on like the round through copies of which
the first one has got there. -/
theorem alongside_rerun (ex : Executor σ) {c : Plan} (ha : c.Fits a) (left : ℕ) (w : World σ) :
    Alongside c (left + 1) (rerun (c.tick ex) (left + 1) a w)
      (sweep .failure .success (List.replicate (left + 1) (c.tick ex))
        (a :: List.replicate left c.fresh) w) :=
  alongside_succ ex (alongside_fresh ex c left) ha w

/-- A repeater and a sequence of copies of its child, at the same repetition. -/
inductive Unrolled (c : Plan) (n : ℕ) : Progress → Progress → Prop
  | begun {s t : RunState} (hs : s.counter = 0) (ht : t.cursor = 0) :
      Unrolled c n (.node s [c.fresh]) (.node t (List.replicate n c.fresh))
  | within {s t : RunState} {a : Progress} {before : List Progress} {later : ℕ} (ha : c.Fits a)
      (hs : s.counter = before.length) (ht : t.cursor = before.length)
      (hn : before.length + 1 + later = n) :
      Unrolled c n (.node s [a]) (.node t (before ++ a :: List.replicate later c.fresh))

theorem unrolled_fresh (spec seq : NodeSpec) (c : Plan) (n : ℕ) :
    Unrolled c n (Plan.node spec [c]).fresh (Plan.node seq (List.replicate n c)).fresh := by
  simp only [Plan.fresh, Plan.freshAll_eq_map, List.map_singleton, List.map_replicate]
  exact .begun rfl rfl

structure SameTick (c : Plan) (n : ℕ) (x y : Status × Progress × World σ) : Prop where
  status : x.1 = y.1
  world : x.2.2 = y.2.2
  ended : x.1 = .running ∨ x.1.isTerminal
  progress : x.1 = .running → Unrolled c n x.2.1 y.2.1

theorem Alongside.sameTick {c : Plan} {total cursor counter : ℕ} {r s : Sweep σ}
    (h : Alongside c total r s) (before : List Progress) (hn : before.length + total = n)
    (hended : s.status = .success ∨ s.status = .failure ∨ s.status = .running) :
    SameTick c n
      (r.status,
        .node ⟨r.status, cursor, if r.status = .running then before.length + r.passed else 0⟩
          r.children,
        r.world)
      (s.outcome before counter) where
  status := h.status
  world := h.world
  ended := by
    simp only [h.status]
    rcases hended with hended | hended | hended <;> simp [hended, Status.isTerminal]
  progress hrunning := by
    simp only at hrunning
    obtain ⟨passed, a, later, ha, hr, hs, hlen, htotal⟩ := h.children (h.status ▸ hrunning)
    simp only [Sweep.outcome, ← h.status, hrunning, if_true, hr, hs]
    rw [← List.append_assoc]
    refine .within ha ?_ ?_ ?_
    · simp [hlen, h.passed]
    · simp [hlen]
    · rw [List.length_append]
      omega

/-- A repeater and its copies stay at the same repetition for one more tick. -/
theorem unrolled_tick (ex : Executor σ) {c : Plan} {seq : NodeSpec} (hspec : spec.Repeats n)
    (hseq : seq.behavior = BuiltIn.sequence.behavior) {a b : Progress} (h : Unrolled c n a b)
    (w : World σ) :
    SameTick c n ((Plan.node spec [c]).tick ex a w)
      ((Plan.node seq (List.replicate n c)).tick ex b w) := by
  have hended : ∀ {steps : List (Stepper σ)} {rest : List Progress}, steps.length = rest.length →
      (sweep .failure .success steps rest w).status = .success ∨
        (sweep .failure .success steps rest w).status = .failure ∨
        (sweep .failure .success steps rest w).status = .running := fun hlen =>
    (sweep_status .failure .success hlen w).imp And.left And.left
  have hrepeater : ∀ state a, (Plan.node spec [c]).tick ex (.node state [a]) w = _ :=
    fun state a => NodeSpec.step_repeater ex hspec.stopsAfter (c.tick ex) [] state a [] w
  simp only [List.append_nil] at hrepeater
  rw [Plan.tick.eq_def ex (Plan.node seq _)]
  simp only [Plan.steppers_eq_map, List.map_replicate]
  cases h with
  | @begun s t hs ht =>
    have hround := NodeSpec.step_round ex .sequence hseq [] (List.replicate n (c.tick ex)) []
      (List.replicate n c.fresh) rfl (by simp) ht (Or.inl rfl) w
    simp only [List.nil_append] at hround
    rw [hrepeater, hround, hs, Nat.sub_zero]
    exact (alongside_fresh ex c n w).sameTick [] (Nat.zero_add n) (hended (by simp))
  | @within s t a before later ha hs ht hn =>
    have hsplit : List.replicate n (c.tick ex) =
        List.replicate before.length (c.tick ex) ++ List.replicate (later + 1) (c.tick ex) := by
      rw [← List.replicate_add, ← hn, Nat.add_assoc, Nat.add_comm 1]
    have hround := NodeSpec.step_round ex .sequence hseq (List.replicate before.length (c.tick ex))
      (List.replicate (later + 1) (c.tick ex)) before (a :: List.replicate later c.fresh) (by simp)
      (by simp) ht (Or.inr (by simp)) w
    rw [hrepeater, hsplit, hround, hs, show n - before.length = later + 1 by omega]
    exact (alongside_rerun ex ha later w).sameTick before (by omega) (hended (by simp))

def completions (visits : List Visit) : ℕ := visits.countP fun v => v.result ≠ .running

theorem completions_snoc (visits : List Visit) (v : Visit) :
    completions (visits ++ [v]) =
      completions visits + if v.result = .running then 0 else 1 := by
  simp only [completions, List.countP_append, List.countP_singleton]
  split <;> simp_all

def NoneFailed (visits : List Visit) : Prop := ∀ v ∈ visits, v.result ≠ .failure

theorem NoneFailed.snoc {visits : List Visit} (h : NoneFailed visits) {v : Visit}
    (hv : v.result ≠ .failure) : NoneFailed (visits ++ [v]) :=
  List.forall_mem_append.mpr ⟨h, List.forall_mem_singleton.mpr hv⟩

inductive RerunEnd (n : ℕ) : Status → List Visit → Prop
  | all {visits : List Visit} (hcount : completions visits = n) (hok : NoneFailed visits) :
      RerunEnd n .success visits
  | wait {visits : List Visit} (hlt : completions visits < n) (hok : NoneFailed visits) :
      RerunEnd n .running visits
  | fail {visits : List Visit} (hlt : completions visits < n) (hok : NoneFailed visits) :
      RerunEnd n .failure (visits ++ [⟨0, .failure⟩])

/-- Rerunning a child adds a completed run for each time it ends. -/
theorem rerunEnd_rerun (step : Stepper σ) (left : ℕ) (a : Progress) (prior : List Visit)
    {w : World (σ × List Visit)} (hok : NoneFailed (prior ++ w.memory.2)) :
    let r := rerun (step.noting 0) left a w
    RerunEnd (completions (prior ++ w.memory.2) + left) r.status (prior ++ r.world.memory.2) ∧
      (r.status = .running → completions (prior ++ w.memory.2) + r.passed =
        completions (prior ++ r.world.memory.2)) := by
  induction left generalizing a w with
  | zero => exact ⟨.all rfl hok, fun _ => rfl⟩
  | succ left ih =>
    have hlog : prior ++ (step.noting 0 a w).2.2.memory.2 =
        prior ++ w.memory.2 ++ [⟨0, (step.noting 0 a w).1⟩] := (List.append_assoc _ _ _).symm
    by_cases hrunning : (step.noting 0 a w).1 = .running
    · have hcount : completions (prior ++ (step.noting 0 a w).2.2.memory.2) =
          completions (prior ++ w.memory.2) := by
        rw [hlog, completions_snoc, if_pos hrunning, Nat.add_zero]
      rw [rerun_of_running left hrunning]
      refine ⟨.wait (by simp only; omega) ?_, fun _ => hcount.symm⟩
      simp only [hlog]
      exact hok.snoc (by simp [hrunning])
    by_cases hfailure : (step.noting 0 a w).1 = .failure
    · rw [rerun_of_failure left hfailure]
      simp only [hlog, hfailure]
      exact ⟨.fail (by omega) hok, fun h => by cases h⟩
    · rw [rerun_of_pass left (not_or.mpr ⟨hfailure, hrunning⟩)]
      have hcount : completions (prior ++ (step.noting 0 a w).2.2.memory.2) =
          completions (prior ++ w.memory.2) + 1 := by
        rw [hlog, completions_snoc, if_neg hrunning]
      have hend := ih (step.noting 0 a w).2.1.reset (w := (step.noting 0 a w).2.2)
        (hlog ▸ hok.snoc hfailure)
      simp only [hcount, Nat.add_assoc, Nat.add_comm 1] at hend ⊢
      exact hend

/-- One tick of a repeater whose counter says how often its child is still to run to its end. -/
theorem Plan.rerunEnd_watch (hspec : spec.StopsAfter n) {c : Plan} {others : List Plan}
    {state : RunState} {a : Progress} {rest : List Progress} {total : ℕ} (prior : List Visit)
    (hok : NoneFailed prior) (hleft : completions prior + (n - state.counter) = total)
    (ex : Executor σ) (w : World σ) :
    let x := (Plan.node spec (c :: others)).watch ex (.node state (a :: rest)) w
    RerunEnd total x.2.1 (prior ++ x.1) ∧
      (x.2.1 = .running → completions (prior ++ x.1) + (n - x.2.2.1.state.counter) = total) := by
  have htick := NodeSpec.step_repeater ex.ignoringLog hspec ((c.tick ex).noting 0)
    (notingFrom 1 (steppers ex others)) state a rest (w.withLog ([] : List Visit))
  have hend := rerunEnd_rerun (c.tick ex) (n - state.counter) a prior (w := w.withLog [])
    (by simpa [World.withLog] using hok)
  have hprior : completions (prior ++ (w.withLog ([] : List Visit)).memory.2) =
      completions prior := congrArg completions (List.append_nil prior)
  rw [hprior, hleft] at hend
  simp only [watch, steppers, notingFrom, htick]
  obtain ⟨hend, hpassed⟩ := hend
  refine ⟨hend, fun hrunning => ?_⟩
  have hcount := hpassed hrunning
  rw [hrunning] at hend
  rw [Progress.state, if_pos hrunning]
  cases hend with
  | wait hlt hok =>
    dsimp only at hlt hcount ⊢
    omega

/-- What a run of a repeater comes to tells how often the child has run to its end. -/
structure Repetition (n : ℕ) (visits : List Visit) (last : Status) : Prop where
  at_most : completions visits ≤ n
  /-- The child is not ticked again after it has failed. -/
  failure_last : visits.Pairwise fun v _ => v.result ≠ .failure
  success_iff : last = .success ↔ completions visits = n ∧ NoneFailed visits
  failure_iff : last = .failure ↔ ¬ NoneFailed visits
  running_iff : last = .running ↔ completions visits < n ∧ NoneFailed visits

theorem NoneFailed.pairwise {visits : List Visit} (h : NoneFailed visits) :
    visits.Pairwise fun v _ => v.result ≠ .failure :=
  List.pairwise_of_forall_mem_list fun v hv _ _ => h v hv

/-- The completed runs tell what the repeater has come to. -/
theorem RerunEnd.repetition {last : Status} {visits : List Visit}
    (h : RerunEnd n last visits) : Repetition n visits last := by
  cases h with
  | all hcount hok => exact ⟨by omega, hok.pairwise, by simp [*], by simp [hok], by simp [*]⟩
  | wait hlt hok =>
    exact ⟨by omega, hok.pairwise, by simp [Nat.ne_of_lt hlt], by simp [hok], by simp [*]⟩
  | @fail visits hlt hok =>
    have hfailed : ¬ NoneFailed (visits ++ [⟨0, .failure⟩]) :=
      fun h => h ⟨0, .failure⟩ (by simp) rfl
    refine ⟨?_, ?_, by simp [hfailed], by simp [hfailed], by simp [hfailed]⟩
    · rw [completions_snoc]
      exact hlt
    · refine List.pairwise_append.mpr ⟨hok.pairwise, List.pairwise_singleton _ _, ?_⟩
      intro v hv _ _
      exact hok v hv

/-- A run that begins at some repetition runs the child as often as is left. -/
theorem Forest.Run.repetition_left {f g : Forest} {k : NodeKey} {c : Plan} {others : List Plan}
    {state : RunState} {a : Progress} {rest : List Progress} {visits : List Visit} {last : Status}
    (hspec : spec.StopsAfter n)
    (hf : f.Holds k (.node spec (c :: others)) (.node state (a :: rest)))
    (run : Run k f visits last g) : Repetition (n - state.counter) visits last := by
  obtain ⟨b, -, hend, -⟩ := hf.run_induction_from
    (fun visits last b => RerunEnd (n - state.counter) last visits ∧
      (last = .running → completions visits + (n - b.state.counter) = n - state.counter))
    (fun ex w => Plan.rerunEnd_watch hspec [] (fun v hv => by cases hv) (Nat.zero_add _) ex w)
    (fun {visits b} hfits hb σ ex w => by
      obtain ⟨hend, hleft⟩ := hb
      cases hend with
      | wait hlt hok =>
        obtain ⟨now, children⟩ := b
        cases hfits with
        | node hall =>
          cases hall with
          | cons _ _ => exact Plan.rerunEnd_watch hspec visits hok (hleft rfl) ex w)
    run
  exact hend.repetition

/-- A run of a repeater from the reset state is a repetition. -/
theorem Forest.Run.repetition {f g : Forest} {k : NodeKey} {c : Plan} {a : Progress}
    {visits : List Visit} {last : Status} (hspec : spec.Repeats n)
    (hf : f.Holds k (.node spec [c]) a) (run : Run k (f.reset k) visits last g) :
    Repetition n visits last := by
  have hfresh := hf.reset
  rw [Plan.fresh, Plan.freshAll] at hfresh
  exact run.repetition_left hspec.stopsAfter hfresh

end BehaviorTree
