import BehaviorTree.Proofs.Editing
import BehaviorTree.Proofs.Observation
import BehaviorTree.Proofs.Rounds

/-!
Runs of sequences and selectors. A run takes as many ticks as it needs; it is suspended whenever a
child is running and goes on with that child. Over the whole run the children are ticked in their
order: none is passed over, none is begun before the one in front of it has passed, and none is
ticked again after it has passed. What the last tick comes to tells how far the run has got.
-/
namespace BehaviorTree

variable {σ : Type} {kind : BuiltIn} {stop done last : Status} {count i : ℕ} {visits : List Visit}
  {f g : Forest} {k : NodeKey} {spec : NodeSpec} {plans : List Plan}

/-- The visits of a run that has passed all children before an index. It may have waited for the
child at the index. -/
inductive Course (stop : Status) : ℕ → List Visit → Prop
  | start : Course stop 0 []
  | wait {i : ℕ} {visits : List Visit} (course : Course stop i visits) :
      Course stop i (visits ++ [⟨i, .running⟩])
  | pass {i : ℕ} {visits : List Visit} {s : Status} (course : Course stop i visits)
      (h : ¬ (s = stop ∨ s = .running)) : Course stop (i + 1) (visits ++ [⟨i, s⟩])

/-- Where a run stands, every visit was to a child that has been passed or, as long as the run is
waiting, to the child at the index. -/
theorem Course.visited (h : Course stop i visits) :
    ∀ v ∈ visits, v.child < i ∨ v.child = i ∧ v.result = .running := by
  induction h with
  | start => simp
  | wait course ih =>
    exact List.forall_mem_append.mpr ⟨ih, List.forall_mem_singleton.mpr (Or.inr ⟨rfl, rfl⟩)⟩
  | pass course h ih =>
    refine List.forall_mem_append.mpr ⟨fun v hv => Or.inl ?_, ?_⟩
    · have := ih v hv
      omega
    · exact List.forall_mem_singleton.mpr (Or.inl (Nat.lt_succ_self _))

theorem Course.lt_succ (h : Course stop i visits) (s : Status) :
    ∀ v ∈ visits ++ [⟨i, s⟩], v.child < i + 1 := by
  refine List.forall_mem_append.mpr ⟨fun v hv => ?_, ?_⟩
  · have := h.visited v hv
    omega
  · exact List.forall_mem_singleton.mpr (Nat.lt_succ_self i)

theorem Course.eq_zero (h : Course stop i []) : i = 0 := by
  generalize hvisits : ([] : List Visit) = visits at h
  cases h with
  | start => rfl
  | wait course => simp at hvisits
  | pass course h => simp at hvisits

/-- The visits of a run up to the tick that came to a status: either all children have been passed,
or the last visit has ended or suspended the round. -/
inductive RunEnd (stop done : Status) (count : ℕ) : Status → ℕ → List Visit → Prop
  | all {i : ℕ} {visits : List Visit} (course : Course stop count visits)
      (hrange : ∀ v ∈ visits, v.child < count) : RunEnd stop done count done i visits
  | halt {i : ℕ} {visits : List Visit} {s : Status} (course : Course stop i visits)
      (hi : i < count) (hs : s = stop ∨ s = .running) :
      RunEnd stop done count s i (visits ++ [⟨i, s⟩])

/-- A run that is suspended has passed all children before the one that it waits for. -/
theorem RunEnd.suspended (hkind : kind.GoesRound stop done)
    (h : RunEnd stop done count .running i visits) : i < count ∧ Course stop i visits := by
  generalize hlast : Status.running = last at h
  cases h with
  | all course => exact absurd hlast.symm hkind.done_ne_running
  | halt course hi hs =>
    subst hlast
    exact ⟨hi, course.wait⟩

/-- A round through the remaining children continues the course so far. -/
theorem runEnd_sweep (done : Status) (steps : List (Stepper σ)) (rest : List Progress)
    (hlen : steps.length = rest.length) (prior : List Visit) {w : World (σ × List Visit)}
    (course : Course stop i (prior ++ w.memory.2))
    (hrest : rest = [] → ∀ v ∈ prior ++ w.memory.2, v.child < i) :
    RunEnd stop done (i + rest.length) (sweep stop done (notingFrom i steps) rest w).status
      (i + (sweep stop done (notingFrom i steps) rest w).passed)
      (prior ++ (sweep stop done (notingFrom i steps) rest w).world.memory.2) := by
  induction steps generalizing i rest w with
  | nil =>
    obtain rfl := List.length_eq_zero_iff.mp hlen.symm
    exact RunEnd.all course (hrest rfl)
  | cons step steps ih =>
    obtain _ | ⟨a, rest⟩ := rest
    · simp at hlen
    have hlog : (step.noting i a w).2.2.memory.2 =
        w.memory.2 ++ [⟨i, (step.noting i a w).1⟩] := rfl
    rw [notingFrom]
    by_cases h : (step.noting i a w).1 = stop ∨ (step.noting i a w).1 = .running
    · rw [sweep_cons_of_halt _ _ h]
      simp only [hlog, ← List.append_assoc]
      exact RunEnd.halt course (Nat.lt_add_of_pos_right (Nat.succ_pos _)) h
    · have hnext := course.pass h
      have hrange := course.lt_succ (step.noting i a w).1
      rw [List.append_assoc, ← hlog] at hnext hrange
      rw [sweep_cons_of_pass _ _ h]
      have hend := ih rest (Nat.succ.inj hlen) hnext fun _ => hrange
      simp only [Nat.add_assoc, Nat.add_comm 1] at hend
      exact hend

/-- One tick of a run that stands at a child. -/
theorem Plan.runEnd_watch (hkind : kind.GoesRound stop done)
    (hspec : spec.behavior = kind.behavior) {state : RunState} {children : List Progress}
    (hlen : plans.length = children.length) (hcursor : visits = [] ∨ state.cursor < plans.length)
    (course : Course stop state.cursor visits) (ex : Executor σ) (w : World σ) :
    let x := (Plan.node spec plans).watch ex (.node state children) w
    ∃ i, RunEnd stop done plans.length x.2.1 i (visits ++ x.1) ∧
      (x.2.1 = .running → x.2.2.1.state.cursor = i) := by
  have hle : state.cursor ≤ children.length := by
    rcases hcursor with rfl | hlt
    · exact course.eq_zero ▸ Nat.zero_le _
    · exact Nat.le_of_lt (hlen ▸ hlt)
  have hrest : visits = [] ∨ children.drop state.cursor ≠ [] := by
    refine hcursor.imp id fun hlt => ?_
    rw [Ne, List.drop_eq_nil_iff]
    omega
  have hstart : children.take state.cursor = [] ∨ children.drop state.cursor ≠ [] := by
    refine hrest.imp (fun hnil => ?_) id
    subst hnil
    rw [course.eq_zero, List.take_zero]
  have hround := NodeSpec.step_round ex.ignoringLog hkind hspec
    ((notingFrom 0 (steppers ex plans)).take state.cursor)
    ((notingFrom 0 (steppers ex plans)).drop state.cursor)
    (children.take state.cursor) (children.drop state.cursor)
    (by simp [length_notingFrom, steppers_eq_map, hlen])
    (by simp [length_notingFrom, steppers_eq_map, hlen])
    (List.length_take_of_le hle).symm hstart (w.withLog [])
  rw [List.take_append_drop, List.take_append_drop, drop_notingFrom, Nat.zero_add] at hround
  have hend := runEnd_sweep done ((steppers ex plans).drop state.cursor)
    (children.drop state.cursor) (by simp [steppers_eq_map, hlen]) visits (w := w.withLog [])
    (by simpa [World.withLog] using course) fun hnil v hv => by
      obtain rfl := hrest.resolve_right (fun h => h hnil)
      simp [World.withLog] at hv
  rw [List.length_drop, Nat.add_sub_cancel' hle, ← hlen] at hend
  simp only [watch, hround]
  refine ⟨_, hend, fun hrunning => ?_⟩
  simp only [Sweep.outcome] at hrunning
  simp only [Sweep.outcome, Progress.state, hrunning, if_true, List.length_take_of_le hle]

/-- A run from the reset state ends behind its children or at one of them. -/
theorem Forest.Run.exists_runEnd (hkind : kind.GoesRound stop done)
    (hspec : spec.behavior = kind.behavior) {a : Progress} (hf : f.Holds k (.node spec plans) a)
    (run : Run k (f.reset k) visits last g) : ∃ i, RunEnd stop done plans.length last i visits := by
  have hlen : ∀ {b : Progress}, (Plan.node spec plans).Fits b → plans.length = b.children.length :=
    fun h => (Plan.fits_node_iff.mp h).1
  obtain ⟨b, -, i, hend, -⟩ := hf.run_induction
    (fun visits last b => ∃ i, RunEnd stop done plans.length last i visits ∧
      (last = .running → b.state.cursor = i))
    (fun ex w => Plan.runEnd_watch hkind hspec (hlen hf.reset.fits) (Or.inl rfl) .start ex w)
    (fun {visits b} hfits hb σ ex w => by
      obtain ⟨state, children⟩ := b
      obtain ⟨i, hend, hcursor⟩ := hb
      obtain ⟨hi, course⟩ := hend.suspended hkind
      rw [← hcursor rfl] at hi course
      exact Plan.runEnd_watch hkind hspec (hlen hfits) (Or.inr hi) course ex w)
    run
  exact ⟨i, hend⟩

def LatestPassed (done : Status) (visits : List Visit) (child : ℕ) : Prop :=
  ∃ before v after, visits = before ++ v :: after ∧ v.child = child ∧
    (v.result = done ∨ v.result = .idle) ∧ ∀ u ∈ after, u.child ≠ child

/-- A run through so many children in their order, and what its last tick comes to. -/
structure InOrder (stop done : Status) (count : ℕ) (visits : List Visit) (last : Status) :
    Prop where
  in_range : ∀ v ∈ visits, v.child < count
  ordered : visits.Pairwise fun v u => v.child ≤ u.child
  /-- Whenever a child is ticked, every child in front of it has been ticked and has passed. -/
  after_passing : ∀ before v after, visits = before ++ v :: after →
    ∀ child < v.child, LatestPassed done before child
  passed_once : visits.Pairwise fun v u =>
    v.result = done ∨ v.result = .idle → u.child ≠ v.child
  done_iff : last = done ↔ ∀ child < count, LatestPassed done visits child
  stop_iff : last = stop ↔
    ∃ before child, visits = before ++ [⟨child, stop⟩] ∧ ∀ u ∈ before, u.child ≤ child
  running_iff : last = .running ↔ ∃ before child, visits = before ++ [⟨child, .running⟩]

theorem LatestPassed.snoc {child : ℕ} (h : LatestPassed done visits child) {v : Visit}
    (hv : v.child ≠ child) : LatestPassed done (visits ++ [v]) child := by
  obtain ⟨before, u, after, rfl, hu, hpassed, hafter⟩ := h
  exact ⟨before, u, after ++ [v], by simp, hu, hpassed,
    List.forall_mem_append.mpr ⟨hafter, List.forall_mem_singleton.mpr hv⟩⟩

/-- What stands in a list with a new last element is that element, or it stood there before. -/
theorem snoc_eq_append_cons {α : Type} {xs before after : List α} {x v : α}
    (h : xs ++ [x] = before ++ v :: after) :
    after = [] ∧ before = xs ∧ v = x ∨
      ∃ later, after = later ++ [x] ∧ xs = before ++ v :: later := by
  rcases List.eq_nil_or_concat after with rfl | ⟨later, y, rfl⟩
  · obtain ⟨hbefore, hv⟩ := List.append_inj' h rfl
    exact Or.inl ⟨rfl, hbefore.symm, by simpa using hv.symm⟩
  · rw [List.concat_eq_append, ← List.cons_append, ← List.append_assoc] at h
    obtain ⟨hxs, hx⟩ := List.append_inj' h rfl
    exact Or.inr ⟨later, by simpa using hx.symm, hxs⟩

theorem not_latestPassed_snoc {v : Visit} (hv : ¬ (v.result = done ∨ v.result = .idle)) :
    ¬ LatestPassed done (visits ++ [v]) v.child := by
  rintro ⟨before, u, after, heq, -, hpassed, hafter⟩
  rcases snoc_eq_append_cons heq with ⟨-, -, rfl⟩ | ⟨later, rfl, -⟩
  · exact hv hpassed
  · exact hafter v (by simp) rfl

namespace Course

/-- No visit lies ahead of the child that the run has come to. -/
theorem not_behind (hkind : kind.GoesRound stop done) (h : Course stop i visits) :
    ∀ v ∈ visits, v.child ≤ i ∧ (v.result = done ∨ v.result = .idle → i ≠ v.child) := by
  intro v hv
  rcases h.visited v hv with hlt | ⟨heq, hrunning⟩
  · exact ⟨Nat.le_of_lt hlt, fun _ => Nat.ne_of_gt hlt⟩
  · refine ⟨Nat.le_of_eq heq, fun hpassed => ?_⟩
    exact absurd (Or.inr hrunning) (hkind.passes_iff.mpr hpassed)

theorem ordered_snoc (hkind : kind.GoesRound stop done) (h : Course stop i visits) (s : Status) :
    List.Pairwise (fun v u : Visit => v.child ≤ u.child ∧
      (v.result = done ∨ v.result = .idle → u.child ≠ v.child)) (visits ++ [⟨i, s⟩]) := by
  induction h generalizing s with
  | start => exact List.pairwise_singleton _ _
  | wait course ih =>
    refine List.pairwise_append.mpr ⟨ih .running, List.pairwise_singleton _ _, ?_⟩
    exact fun v hv u hu => List.mem_singleton.mp hu ▸ course.wait.not_behind hkind v hv
  | pass course hs ih =>
    refine List.pairwise_append.mpr ⟨ih _, List.pairwise_singleton _ _, ?_⟩
    exact fun v hv u hu => List.mem_singleton.mp hu ▸ (course.pass hs).not_behind hkind v hv

/-- Every child before that one has been passed by its latest visit. -/
theorem latestPassed (hkind : kind.GoesRound stop done) (h : Course stop i visits) :
    ∀ child < i, LatestPassed done visits child := by
  induction h with
  | start => exact fun child hchild => absurd hchild (Nat.not_lt_zero child)
  | wait course ih => exact fun child hchild => (ih child hchild).snoc (Nat.ne_of_gt hchild)
  | @pass i visits s course hs ih =>
    intro child hchild
    rcases Nat.lt_succ_iff_lt_or_eq.mp hchild with hlt | rfl
    · exact (ih child hlt).snoc (Nat.ne_of_gt hlt)
    · exact ⟨visits, ⟨child, s⟩, [], rfl, rfl, hkind.passes_iff.mp hs, by simp⟩

/-- In front of the next visit, as in front of every earlier one, there is all that it needs. -/
theorem after_passing_snoc (hkind : kind.GoesRound stop done) (h : Course stop i visits)
    {s : Status} {before : List Visit} {v : Visit} (after : List Visit)
    (heq : visits ++ [⟨i, s⟩] = before ++ v :: after) :
    ∀ child < v.child, LatestPassed done before child := by
  induction h generalizing s after with
  | start =>
    rcases snoc_eq_append_cons heq with ⟨-, -, rfl⟩ | ⟨later, -, hlater⟩
    · exact fun child hchild => absurd hchild (Nat.not_lt_zero child)
    · simp at hlater
  | wait course ih =>
    rcases snoc_eq_append_cons heq with ⟨-, rfl, rfl⟩ | ⟨later, -, hlater⟩
    · exact course.wait.latestPassed hkind
    · exact ih later hlater
  | pass course hs ih =>
    rcases snoc_eq_append_cons heq with ⟨-, rfl, rfl⟩ | ⟨later, -, hlater⟩
    · exact (course.pass hs).latestPassed hkind
    · exact ih later hlater

end Course

/-- A run that has ended has visited its children in their order. -/
theorem RunEnd.inOrder (hkind : kind.GoesRound stop done)
    (h : RunEnd stop done count last i visits) : InOrder stop done count visits last := by
  cases h with
  | all course hrange =>
    have hsnoc := List.pairwise_append.mp (course.ordered_snoc hkind .idle)
    -- the last visit has passed its child, like all others before it
    have hlast : ∀ before child s, ¬ (s = done ∨ s = .idle) → visits ≠ before ++ [⟨child, s⟩] := by
      intro before child s hs heq
      have hchild : child < count := hrange ⟨child, s⟩ (by simp [heq])
      have hpassed := course.latestPassed hkind child hchild
      rw [heq] at hpassed
      exact not_latestPassed_snoc (v := ⟨child, s⟩) hs hpassed
    refine {
      in_range := hrange
      ordered := hsnoc.1.imp And.left
      after_passing := fun before v after heq =>
        course.after_passing_snoc hkind (s := .idle) (after ++ [⟨count, .idle⟩]) (by simp [heq])
      passed_once := hsnoc.1.imp And.right
      done_iff := iff_of_true rfl (course.latestPassed hkind)
      stop_iff := iff_of_false hkind.stop_ne_done.symm ?_
      running_iff := iff_of_false hkind.done_ne_running ?_
    }
    · rintro ⟨before, child, heq, -⟩
      exact hlast before child stop (fun h => hkind.passes_iff.mpr h (Or.inl rfl)) heq
    · rintro ⟨before, child, heq⟩
      exact hlast before child .running (fun h => hkind.passes_iff.mpr h (Or.inr rfl)) heq
  | @halt _ visits _ course hi hs =>
    have hnot : ¬ (last = done ∨ last = .idle) := fun h => hkind.passes_iff.mpr h hs
    have hsnoc := course.ordered_snoc hkind last
    have hbehind := course.not_behind hkind
    have heq : ∀ {before child s}, visits ++ [⟨i, last⟩] = before ++ [⟨child, s⟩] → last = s := by
      intro before child s heq
      have hvisit := List.append_inj_right' heq rfl
      simp only [List.cons.injEq, Visit.mk.injEq] at hvisit
      exact hvisit.1.2
    refine {
      in_range := List.forall_mem_append.mpr ⟨fun v hv => ?_, List.forall_mem_singleton.mpr hi⟩
      ordered := hsnoc.imp And.left
      after_passing := fun before v after heq => course.after_passing_snoc hkind after heq
      passed_once := hsnoc.imp And.right
      done_iff := iff_of_false (fun h => hnot (Or.inl h)) fun h => ?_
      stop_iff := ⟨fun h => ⟨visits, i, by rw [h], fun u hu => (hbehind u hu).1⟩,
        fun ⟨_, _, h, _⟩ => heq h⟩
      running_iff := ⟨fun h => ⟨visits, i, by rw [h]⟩, fun ⟨_, _, h⟩ => heq h⟩
    }
    · exact Nat.lt_of_le_of_lt (hbehind v hv).1 hi
    · exact not_latestPassed_snoc (v := ⟨i, last⟩) hnot (h i hi)

namespace Forest

/-- A sequence or a selector that is ticked from the reset state on goes through its children in
their order, however many ticks it takes and whatever the children come to. -/
theorem runs_in_order (hf : f.Reachable) (hkind : kind.GoesRound stop done)
    (hp : f.plan? k = some (.node spec plans)) (hspec : spec.behavior = kind.behavior)
    (run : Run k (f.reset k) visits last g) : InOrder stop done plans.length visits last := by
  obtain ⟨a, hholds⟩ := Holds.exists_progress hf.sound hp
  obtain ⟨i, hend⟩ := run.exists_runEnd hkind hspec hholds
  exact hend.inOrder hkind

/-- The first action takes two ticks, and the second one fails on the second of them. -/
theorem runs_in_order_patrol :
    ∃ g, Run 0 (patrol.reset 0) [⟨0, .running⟩, ⟨0, .success⟩, ⟨1, .failure⟩] .failure g ∧
      InOrder .failure .success 2 [⟨0, .running⟩, ⟨0, .success⟩, ⟨1, .failure⟩] .failure := by
  have hfirst : Run 0 (patrol.reset 0) [⟨0, .running⟩] .running _ :=
    Run.first Executor.scripted ⟨.empty, [.running]⟩
  have run : Run 0 (patrol.reset 0) [⟨0, .running⟩, ⟨0, .success⟩, ⟨1, .failure⟩] .failure _ :=
    hfirst.next Executor.scripted ⟨.empty, [.success, .failure]⟩
  exact ⟨_, run, runs_in_order patrol_reachable .sequence patrol_plan rfl run⟩

end Forest

end BehaviorTree
