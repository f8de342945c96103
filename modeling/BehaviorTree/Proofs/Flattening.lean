import BehaviorTree.Proofs.Editing
import BehaviorTree.Proofs.Interchange
import BehaviorTree.Proofs.Rounds

/-!
Nested sequences and selectors. A sequence that is a child of a sequence does nothing that its own
children would not do in its place, and so it is with selectors. The cursors of the two nested nodes
tell together where the cursor of the flat one is; the simulation says how, and that a tick keeps
it that way, wherever the round ends.
-/
namespace BehaviorTree

open Plan

variable {σ : Type} {kind : BuiltIn} {stop done : Status} {pre mid post : ℕ}

/-- The cursors of an outer and an inner node and the cursor of the flat node at the same place,
with so many children before, in and behind the inner node. -/
inductive SamePlace (pre mid post : ℕ) : (outer inner flat : ℕ) → Prop
  | before {i : ℕ} (h : i = 0 ∨ i < pre) : SamePlace pre mid post i 0 i
  | within {i flat : ℕ} (h : i < mid) (hflat : flat = pre + i) : SamePlace pre mid post pre i flat
  | behind {i outer flat : ℕ} (h : i < post) (houter : outer = pre + 1 + i)
      (hflat : flat = pre + mid + i) : SamePlace pre mid post outer 0 flat

/-- The progress of nested nodes and that of the flat one, at the same place. -/
inductive Unnested (pre mid post : ℕ) : Progress → Progress → Prop
  | mk {outer inner flat : RunState} {as bs cs : List Progress} (has : as.length = pre)
      (hbs : bs.length = mid) (hcs : cs.length = post)
      (place : SamePlace pre mid post outer.cursor inner.cursor flat.cursor) :
      Unnested pre mid post (.node outer (as ++ .node inner bs :: cs))
        (.node flat (as ++ bs ++ cs))

theorem Unnested.reset {a b : Progress} (h : Unnested pre mid post a b) :
    Unnested pre mid post a.reset b.reset := by
  cases h with
  | mk has hbs hcs place =>
    simp only [Progress.reset, Progress.resetAll_eq_map, List.map_append, List.map_cons]
    exact .mk (by simpa using has) (by simpa using hbs) (by simpa using hcs) (.before (Or.inl rfl))

section

variable {as bs cs seen rest : List Progress} {inner : RunState} {steps more : List (Stepper σ)}
  {step : Stepper σ}

/-- Behind the inner node both rounds go through the same children. -/
theorem unnested_behind (hkind : kind.GoesRound stop done) (has : as.length = pre)
    (hbs : bs.length = mid) (hinner : inner.cursor = 0) (hlen : steps.length = rest.length)
    (hpost : seen.length + rest.length = post) (w : World σ) (n m : ℕ) :
    SameOutcome (Unnested pre mid post) Eq
      ((sweep stop done steps rest w).outcome (as ++ .node inner bs :: seen) n)
      ((sweep stop done steps rest w).outcome (as ++ bs ++ seen) m) := by
  refine ⟨rfl, ?_, rfl⟩
  simp only [Sweep.outcome]
  rw [List.append_assoc as, List.cons_append, List.append_assoc (as ++ bs)]
  refine .mk has hbs (by simp [length_sweep, hpost]) ?_
  rcases sweep_status stop done hlen w with ⟨hdone, -⟩ | ⟨-, hpassed⟩
  · rw [hdone, if_neg hkind.done_ne_running, if_neg hkind.done_ne_running, hinner]
    exact .before (Or.inl rfl)
  · split
    · rw [hinner]
      refine .behind (i := seen.length + (sweep stop done steps rest w).passed) ?_ ?_ ?_
      · omega
      · simp only [List.length_append, List.length_cons]
        omega
      · simp only [List.length_append]
        omega
    · rw [hinner]
      exact .before (Or.inl rfl)

/-- From the inner node on, its children are ticked as if they stood among those of the outer
one. -/
theorem unnested_within (ex : Executor σ) (hkind : kind.GoesRound stop done) {spec : NodeSpec}
    (hspec : spec.behavior = kind.behavior) (has : as.length = pre)
    (hmid : seen.length + rest.length = mid) (hpost : cs.length = post)
    (passed : List (Stepper σ)) (hpassed : passed.length = seen.length)
    (hsteps : steps.length = rest.length) (hmore : more.length = cs.length)
    (hcursor : inner.cursor = seen.length) (hrest : seen = [] ∨ rest ≠ []) (w : World σ)
    (n m : ℕ) :
    SameOutcome (Unnested pre mid post) Eq
      ((sweep stop done (spec.step ex (passed ++ steps) :: more)
        (.node inner (seen ++ rest) :: cs) w).outcome as n)
      ((sweep stop done (steps ++ more) (rest ++ cs) w).outcome (as ++ seen) m) := by
  have hstep := NodeSpec.step_round ex hkind hspec passed steps seen rest hpassed hsteps hcursor
    hrest w
  have hlen := length_sweep stop done steps rest w
  rcases sweep_status stop done hsteps w with ⟨hdone, -⟩ | ⟨hhalt, hlt⟩
  · have hpass : ¬ ((spec.step ex (passed ++ steps) (.node inner (seen ++ rest)) w).1 = stop ∨
        (spec.step ex (passed ++ steps) (.node inner (seen ++ rest)) w).1 = .running) := by
      rw [hstep]
      exact hkind.passes_iff.mpr (Or.inl hdone)
    rw [outcome_sweep_cons more cs hpass, outcome_sweep_append hkind more cs hsteps w hdone, hstep,
      List.append_assoc]
    have hbs : (seen ++ (sweep stop done steps rest w).children).length = mid := by
      rw [List.length_append, hlen, hmid]
    have hinner : RunState.cursor ⟨(sweep stop done steps rest w).status,
        if (sweep stop done steps rest w).status = .running then
          seen.length + (sweep stop done steps rest w).passed else 0, inner.counter⟩ = 0 := by
      simp only [hdone, if_neg hkind.done_ne_running]
    have hnil : ([] : List Progress).length + cs.length = post := by
      rwa [List.length_nil, Nat.zero_add]
    have hend := unnested_behind hkind has hbs hinner hmore hnil
      (sweep stop done steps rest w).world n m
    rwa [List.append_nil] at hend
  · have hne : (sweep stop done steps rest w).status ≠ done :=
      fun h => hkind.passes_iff.mpr (Or.inl h) hhalt
    rw [sweep_cons_of_halt more cs (by rw [hstep]; exact hhalt), hstep,
      sweep_append hkind more cs hsteps]
    simp only [if_neg hne]
    refine ⟨rfl, ?_, rfl⟩
    simp only [Sweep.outcome]
    rw [← List.append_assoc, List.append_assoc as]
    refine .mk has (by simp [hlen, hmid]) hpost ?_
    by_cases hrunning : (sweep stop done steps rest w).status = .running
    · simp only [hrunning, if_true, Nat.add_zero, has]
      refine .within ?_ ?_
      · omega
      · rw [List.length_append, has, Nat.add_assoc]
    · simp only [hrunning, if_false]
      exact .before (Or.inl rfl)

/-- In front of the inner node both rounds go through the same children. -/
theorem unnested_before (ex : Executor σ) (hkind : kind.GoesRound stop done) {spec : NodeSpec}
    (hspec : spec.behavior = kind.behavior) (hpre : seen.length + rest.length = pre)
    (hbs : bs.length = mid) (hcs : cs.length = post) (hsteps : steps.length = rest.length)
    {inside : List (Stepper σ)} (hinside : inside.length = bs.length)
    (hmore : more.length = cs.length) (hinner : inner.cursor = 0) (w : World σ) (n m : ℕ) :
    SameOutcome (Unnested pre mid post) Eq
      ((sweep stop done (steps ++ spec.step ex inside :: more)
        (rest ++ .node inner bs :: cs) w).outcome seen n)
      ((sweep stop done (steps ++ (inside ++ more)) (rest ++ (bs ++ cs)) w).outcome seen m) := by
  have hlen := length_sweep stop done steps rest w
  rcases sweep_status stop done hsteps w with ⟨hdone, -⟩ | ⟨hhalt, hlt⟩
  · rw [outcome_sweep_append hkind _ _ hsteps w hdone,
      outcome_sweep_append hkind _ _ hsteps w hdone]
    have has : (seen ++ (sweep stop done steps rest w).children).length = pre := by
      rw [List.length_append, hlen, hpre]
    have hmid : ([] : List Progress).length + bs.length = mid := by
      rwa [List.length_nil, Nat.zero_add]
    have hend := unnested_within ex hkind hspec has hmid hcs [] rfl hinside hmore hinner
      (Or.inl rfl) (sweep stop done steps rest w).world n m
    rwa [List.append_nil] at hend
  · have hne : (sweep stop done steps rest w).status ≠ done :=
      fun h => hkind.passes_iff.mpr (Or.inl h) hhalt
    rw [sweep_append hkind _ _ hsteps, sweep_append hkind _ _ hsteps]
    simp only [if_neg hne]
    refine ⟨rfl, ?_, rfl⟩
    simp only [Sweep.outcome]
    rw [← List.append_assoc, ← List.append_assoc, ← List.append_assoc]
    refine .mk (by simp [hlen, hpre]) hbs hcs ?_
    have hplace : seen.length + (sweep stop done steps rest w).passed < pre := by omega
    rw [hinner]
    split
    · exact .before (Or.inr hplace)
    · exact .before (Or.inl rfl)

end

/-- A tick of the nested nodes and a tick of the flat one look the same and end at the same
place. -/
theorem unnested_step (ex : Executor σ) (hkind : kind.GoesRound stop done)
    {outer inner flat : NodeSpec} (houter : outer.behavior = kind.behavior)
    (hinner : inner.behavior = kind.behavior) (hflat : flat.behavior = kind.behavior)
    (front inside back : List (Stepper σ)) {a b : Progress}
    (h : Unnested front.length inside.length back.length a b) (w : World σ) :
    SameOutcome (Unnested front.length inside.length back.length) Eq
      (outer.step ex (front ++ inner.step ex inside :: back) a w)
      (flat.step ex (front ++ inside ++ back) b w) := by
  cases h with
  | @mk s t u as bs cs has hbs hcs place =>
    obtain ⟨_, x, n⟩ := s
    obtain ⟨status, y, l⟩ := t
    obtain ⟨_, z, m⟩ := u
    simp only at place
    cases place with
    | before h =>
      obtain ⟨passed, steps, rfl, hpassed⟩ := exists_split front (i := x) (by omega)
      obtain ⟨seen, rest, rfl, hseen⟩ := exists_split as (i := x) (by omega)
      simp only [List.length_append] at h has
      have hsteps : steps.length = rest.length := by omega
      -- the flat node may have no child left here, but then none has been passed either
      have hrest : seen = [] ∨ rest ++ (bs ++ cs) ≠ [] := by
        rw [← List.length_eq_zero_iff, ← List.length_pos_iff, List.length_append]
        omega
      simp only [List.append_assoc]
      rw [NodeSpec.step_round ex hkind houter passed _ seen _ (by omega) (by simp; omega) hseen.symm
          (Or.inr (by simp)) w,
        NodeSpec.step_round ex hkind hflat passed _ seen _ (by omega) (by simp; omega) hseen.symm
          hrest w]
      exact unnested_before ex hkind hinner (by simp; omega) hbs hcs hsteps hbs.symm hcs.symm rfl w
        n m
    | within h hz =>
      obtain ⟨passed, steps, rfl, hpassed⟩ := exists_split inside (Nat.le_of_lt h)
      obtain ⟨seen, rest, rfl, hseen⟩ := exists_split bs (i := y) (by omega)
      simp only [List.length_append] at h hz hbs
      have hsteps : steps.length = rest.length := by omega
      have hrest : rest ≠ [] := by
        rw [← List.length_pos_iff]
        omega
      have hflatSteps : front ++ (passed ++ steps) ++ back = front ++ passed ++ (steps ++ back) := by
        simp only [List.append_assoc]
      have hflatChildren : as ++ (seen ++ rest) ++ cs = as ++ seen ++ (rest ++ cs) := by
        simp only [List.append_assoc]
      rw [hflatSteps, hflatChildren,
        NodeSpec.step_round ex hkind houter front _ as _ has.symm (by simp; omega) has.symm
          (Or.inr (by simp)) w,
        NodeSpec.step_round ex hkind hflat (front ++ passed) _ (as ++ seen) _ (by simp; omega)
          (by simp; omega) (by simp; omega) (Or.inr (by simp [hrest])) w]
      exact unnested_within ex hkind hinner has (by simp; omega) hcs passed (by omega) hsteps
        hcs.symm hseen.symm (Or.inr hrest) w n m
    | behind h hx hz =>
      obtain ⟨passed, steps, rfl, hpassed⟩ := exists_split back (Nat.le_of_lt h)
      obtain ⟨seen, rest, rfl, hseen⟩ := exists_split cs (Nat.le_of_lt (hcs ▸ h))
      simp only [List.length_append] at h hz hcs
      have hsteps : steps.length = rest.length := by omega
      have hrest : rest ≠ [] := by
        rw [← List.length_pos_iff]
        omega
      have hnestedSteps : front ++ inner.step ex inside :: (passed ++ steps) =
          front ++ inner.step ex inside :: passed ++ steps := by
        simp only [List.append_assoc, List.cons_append]
      have hnestedChildren : as ++ Progress.node ⟨status, 0, l⟩ bs :: (seen ++ rest) =
          as ++ Progress.node ⟨status, 0, l⟩ bs :: seen ++ rest := by
        simp only [List.append_assoc, List.cons_append]
      rw [hnestedSteps, hnestedChildren, ← List.append_assoc, ← List.append_assoc (as ++ bs),
        NodeSpec.step_round ex hkind houter _ steps _ rest (by simp; omega) hsteps (by simp; omega)
          (Or.inr hrest) w,
        NodeSpec.step_round ex hkind hflat _ steps _ rest (by simp; omega) hsteps (by simp; omega)
          (Or.inr hrest) w]
      exact unnested_behind hkind has hbs rfl hsteps (by simp; omega) w n m

namespace Plan

variable {p q : Plan}

/-- Nested rounds of one kind and the flat round cannot be told apart. -/
theorem interchangeable_flat (hkind : kind.GoesRound stop done) {outer inner flat : NodeSpec}
    (houter : outer.behavior = kind.behavior) (hinner : inner.behavior = kind.behavior)
    (hflat : flat.behavior = kind.behavior) (front inside back : List Plan) :
    Interchangeable (.node outer (front ++ .node inner inside :: back))
      (.node flat (front ++ inside ++ back)) := by
  refine ⟨Unnested front.length inside.length back.length, ⟨Unnested.reset, ?_⟩, ?_⟩
  · intro σ ex a b hab w
    have hlen : ∀ plans : List Plan, (steppers ex plans).length = plans.length := fun plans => by
      rw [steppers_eq_map, List.length_map]
    have hstep := unnested_step ex hkind houter hinner hflat (steppers ex front)
      (steppers ex inside) (steppers ex back) (by simpa only [hlen] using hab) w
    simp only [hlen] at hstep
    simpa only [tick, steppers_eq_map, List.map_append, List.map_cons] using hstep
  · simp only [fresh, freshAll_eq_map, List.map_append, List.map_cons]
    exact .mk (List.length_map _) (List.length_map _) (List.length_map _) (.before (Or.inl rfl))

/-- Somewhere in the subtree a node has the children of a child in place of the child, both being
sequences or both selectors. -/
inductive Flattens (kind : BuiltIn) : Plan → Plan → Prop
  | here {outer inner flat : NodeSpec} (houter : outer.behavior = kind.behavior)
      (hinner : inner.behavior = kind.behavior) (hflat : flat.behavior = kind.behavior)
      (front inside back : List Plan) :
      Flattens kind (.node outer (front ++ .node inner inside :: back))
        (.node flat (front ++ inside ++ back))
  | under {p q : Plan} (spec : NodeSpec) (before after : List Plan) (h : Flattens kind p q) :
      Flattens kind (.node spec (before ++ p :: after)) (.node spec (before ++ q :: after))

/-- Subtrees one of which flattens the other somewhere cannot be told apart. -/
theorem Flattens.interchangeable (hkind : kind.GoesRound stop done) (h : p.Flattens kind q) :
    p.Interchangeable q := by
  induction h with
  | here houter hinner hflat front inside back =>
    exact interchangeable_flat hkind houter hinner hflat front inside back
  | under spec before after h ih => exact ih.inside spec before after

end Plan

namespace Forest

variable {f g : Forest} {k j : NodeKey} {p q : Plan}

/-- Nested sequences and nested selectors can be made flat anywhere in a tree: whatever the
executor answers and whenever the tree is ticked or reset, every tick comes to the same status,
sends the same requests and leaves the same blackboard. -/
theorem drive_flattened (hf : f.Reachable) (hg : g.Reachable) (hkind : kind.GoesRound stop done)
    (hp : f.plan? k = some p) (hq : g.plan? j = some q) (hpq : p.Flattens kind q)
    (ex : Executor σ) (turns : List Turn) (w : World σ) :
    (f.reset k).drive ex k turns w = (g.reset j).drive ex j turns w :=
  drive_eq_of_interchangeable ex hf.sound hg.sound hp hq (hpq.interchangeable hkind) turns w

def nestedPatrol : Forest :=
  let f := (((patrol.add (workerSpec .sequence "start")).2.adopt 0 3).2.adopt 3 1).2
  ((f.detach 0 2).2.adopt 0 2).2

def nestedPatrolPlan : Plan :=
  .node (workerSpec .sequence "patrol")
    [.node (workerSpec .sequence "start") [.node (workerSpec .script "go") []],
      .node (workerSpec .script "look") []]

theorem nestedPatrol_reachable : nestedPatrol.Reachable := by
  have hstart : ((patrol.add (workerSpec .sequence "start")).2.adopt 0 3).2.Reachable :=
    (patrol_reachable.tail (Step.add _)).tail (Step.adopt (by decide) (by decide))
  have hgo := hstart.tail (Step.adopt (p := 3) (c := 1) (by decide) (by decide))
  exact (hgo.tail (Step.detach 0 2)).tail (Step.adopt (by decide) (by decide))

/-- The nested patrol and the patrol give the same reports. -/
theorem drive_flattened_patrol :
    nestedPatrol.plan? 0 = some nestedPatrolPlan ∧ nestedPatrolPlan.Flattens .sequence patrolPlan ∧
      (nestedPatrol.reset 0).drive Executor.scripted 0 [.tick, .tick, .reset, .tick]
          ⟨.empty, [.running, .success, .running]⟩ =
        (patrol.reset 0).drive Executor.scripted 0 [.tick, .tick, .reset, .tick]
          ⟨.empty, [.running, .success, .running]⟩ := by
  have hplan : nestedPatrol.plan? 0 = some nestedPatrolPlan := by rfl
  have hflat : nestedPatrolPlan.Flattens .sequence patrolPlan :=
    .here rfl rfl rfl [] [.node (workerSpec .script "go") []] [.node (workerSpec .script "look") []]
  exact ⟨hplan, hflat, drive_flattened nestedPatrol_reachable patrol_reachable .sequence hplan
    patrol_plan hflat _ _ _⟩

end Forest

end BehaviorTree
