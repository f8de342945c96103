import BehaviorTree.Proofs.Subtrees

/-!
What can be seen of a run from outside: the status of every tick, the requests that reach the
executor together with the blackboard they find, the blackboard that a tick leaves, and, closer to
a node, what its children came to each time they were ticked. Whoever watches keeps a log beside
the memory of the executor. The log changes nothing: a tick that is watched is the tick that is not.
-/
namespace BehaviorTree

variable {σ τ : Type}

namespace World

def withLog (w : World σ) (log : τ) : World (σ × τ) := ⟨w.board, (w.memory, log)⟩

def withoutLog (w : World (σ × τ)) : World σ := ⟨w.board, w.memory.1⟩

@[simp] theorem withoutLog_withLog (w : World σ) (log : τ) : (w.withLog log).withoutLog = w := rfl

end World

structure Sent where
  request : Request
  board : Blackboard

namespace Executor

def recording (ex : Executor σ) : Executor (σ × List Sent) := fun request w =>
  let (answer, v) := ex request w.withoutLog
  (answer, v.withLog (w.memory.2 ++ [⟨request, w.board⟩]))

def ignoringLog (ex : Executor σ) : Executor (σ × τ) := fun request w =>
  let (answer, v) := ex request w.withoutLog
  (answer, v.withLog w.memory.2)

/-- The log does not bear on what the executor answers. -/
theorem recording_mirrors (ex : Executor σ) :
    ex.recording.Mirrors ex fun w v => w.withoutLog = v where
  board h := congrArg World.board h
  edit h _ := h ▸ rfl
  answer h _ := h ▸ ⟨rfl, rfl⟩

theorem ignoringLog_mirrors (ex : Executor σ) :
    (ex.ignoringLog : Executor (σ × τ)).Mirrors ex fun w v => w.withoutLog = v where
  board h := congrArg World.board h
  edit h _ := h ▸ rfl
  answer h _ := h ▸ ⟨rfl, rfl⟩

/-- An executor that gives the answers in its memory one after the other, and succeeds when there
are none left. -/
def scripted : Executor (List Status) := fun _ w =>
  (.ok (w.memory.headD .success), { w with memory := w.memory.tail })

end Executor

structure Report where
  status : Status
  requests : List Sent
  board : Blackboard

inductive Turn where
  | tick
  | reset

namespace Forest

def observe (ex : Executor σ) (f : Forest) (k : NodeKey) (w : World σ) :
    Report × Forest × World σ :=
  let (status, f, v) := f.tick ex.recording k (w.withLog [])
  (⟨status, v.memory.2, v.board⟩, f, v.withoutLog)

/-- Executors that mirror each other tick a forest alike. -/
theorem tick_mirrored {ex : Executor σ} {other : Executor τ} {W : World σ → World τ → Prop}
    (hex : ex.Mirrors other W) (f : Forest) (k : NodeKey) {w : World σ} {v : World τ}
    (hw : W w v) :
    (f.tick ex k w).1 = (f.tick other k v).1 ∧
      (f.tick ex k w).2.1 = (f.tick other k v).2.1 ∧
      W (f.tick ex k w).2.2 (f.tick other k v).2.2 := by
  simp only [tick]
  split
  · next p a _ _ =>
    have hout := p.tick_mirrored hex a hw
    exact ⟨hout.status, congrArg (f.store k) hout.progress, hout.world⟩
  · exact ⟨rfl, rfl, hw⟩

/-- The report is one of the tick that would be made without it. -/
theorem observe_eq_tick (ex : Executor σ) (f : Forest) (k : NodeKey) (w : World σ) :
    ((f.observe ex k w).1.status, (f.observe ex k w).2) = f.tick ex k w ∧
      (f.observe ex k w).1.board = (f.tick ex k w).2.2.board := by
  obtain ⟨hstatus, hforest, hworld⟩ :=
    f.tick_mirrored ex.recording_mirrors k (w.withoutLog_withLog [])
  exact ⟨Prod.ext hstatus (Prod.ext hforest hworld), congrArg World.board hworld⟩

/-- The reports of all ticks while a subtree is ticked and reset as a whole. -/
def drive (ex : Executor σ) (k : NodeKey) : List Turn → Forest → World σ → List Report
  | [], _, _ => []
  | .reset :: turns, f, w => drive ex k turns (f.reset k) w
  | .tick :: turns, f, w =>
    let (report, f, w) := f.observe ex k w
    report :: drive ex k turns f w

end Forest

/-- One tick of a child: its place among the children and what it came to. -/
structure Visit where
  child : ℕ
  result : Status
  deriving DecidableEq

def Stepper.noting (child : ℕ) (step : Stepper σ) : Stepper (σ × List Visit) := fun a w =>
  let (status, a, v) := step a w.withoutLog
  (status, a, v.withLog (w.memory.2 ++ [⟨child, status⟩]))

def notingFrom (first : ℕ) : List (Stepper σ) → List (Stepper (σ × List Visit))
  | [] => []
  | step :: rest => step.noting first :: notingFrom (first + 1) rest

theorem length_notingFrom (first : ℕ) (steps : List (Stepper σ)) :
    (notingFrom first steps).length = steps.length := by
  induction steps generalizing first with
  | nil => rfl
  | cons step rest ih => simp [notingFrom, ih]

theorem drop_notingFrom (first : ℕ) (steps : List (Stepper σ)) (i : ℕ) :
    (notingFrom first steps).drop i = notingFrom (first + i) (steps.drop i) := by
  induction steps generalizing first i with
  | nil => simp [notingFrom]
  | cons step rest ih =>
    cases i with
    | zero => rfl
    | succ i =>
      simp only [notingFrom, List.drop_succ_cons, ih]
      rw [Nat.add_right_comm, Nat.add_assoc]

theorem getElem?_notingFrom (first : ℕ) (steps : List (Stepper σ)) (i : ℕ) :
    (notingFrom first steps)[i]? = steps[i]?.map (Stepper.noting (first + i)) := by
  induction steps generalizing first i with
  | nil => rfl
  | cons step rest ih =>
    cases i with
    | zero => rfl
    | succ i =>
      simp only [notingFrom, List.getElem?_cons_succ, ih]
      rw [Nat.add_right_comm, Nat.add_assoc]

def Plan.watch (ex : Executor σ) : Plan → Progress → World σ →
    List Visit × Status × Progress × World σ
  | .node spec plans, a, w =>
    let (status, a, v) :=
      spec.step ex.ignoringLog (notingFrom 0 (steppers ex plans)) a (w.withLog [])
    (v.memory.2, status, a, v.withoutLog)

theorem Plan.watch_eq_tick (ex : Executor σ) (p : Plan) (a : Progress) (w : World σ) :
    (p.watch ex a w).2 = p.tick ex a w := by
  obtain ⟨spec, plans⟩ := p
  have hsteps : InStep (fun _ => Eq) (fun v w => v.withoutLog = w)
      (notingFrom 0 (steppers ex plans)) (steppers ex plans) := by
    refine ⟨length_notingFrom _ _, fun {i s t} hs ht => ?_, fun h => h ▸ rfl⟩
    rw [getElem?_notingFrom, ht, Option.map_some] at hs
    obtain rfl := Option.some.inj hs
    rintro a _ v _ rfl rfl
    exact ⟨rfl, rfl, rfl⟩
  have hnode : SameNode (fun _ => Eq) a a := ⟨rfl, Paired.refl _⟩
  have hout := NodeSpec.step_alike ex.ignoringLog_mirrors spec hsteps hnode
    (w.withoutLog_withLog [])
  exact Prod.ext hout.status (Prod.ext hout.progress.eq hout.world)

namespace Forest

def watch (ex : Executor σ) (f : Forest) (k : NodeKey) (w : World σ) :
    List Visit × Status × Forest × World σ :=
  match f.plan? k, f.progress? k with
  | some plan, some progress =>
    let (visits, status, progress, world) := plan.watch ex progress w
    (visits, status, f.store k progress, world)
  | _, _ => ([], .idle, f, w)

theorem watch_eq_tick (ex : Executor σ) (f : Forest) (k : NodeKey) (w : World σ) :
    (f.watch ex k w).2 = f.tick ex k w := by
  simp only [watch, tick]
  cases f.plan? k with
  | none => rfl
  | some p =>
    cases f.progress? k with
    | none => rfl
    | some a => simp only [← p.watch_eq_tick ex a w]

theorem Holds.watch_eq {f : Forest} {k : NodeKey} {p : Plan} {a : Progress} (h : f.Holds k p a)
    (ex : Executor σ) (w : World σ) :
    f.watch ex k w = ((p.watch ex a w).1, (p.watch ex a w).2.1,
      f.store k (p.watch ex a w).2.2.1, (p.watch ex a w).2.2.2) := by
  simp only [watch, h.plan, h.progress]

theorem Holds.watch {f : Forest} {k : NodeKey} {p : Plan} {a : Progress} (h : f.Holds k p a)
    (ex : Executor σ) (w : World σ) :
    (f.watch ex k w).2.2.1.Holds k p (p.watch ex a w).2.2.1 := by
  rw [f.watch_eq_tick, p.watch_eq_tick]
  exact h.tick ex w

/-- A run of a node: ticks of it one after the other, of which all but the last came to running.
Between two ticks the host may do with the world what it likes. -/
inductive Run (k : NodeKey) (f : Forest) : List Visit → Status → Forest → Prop
  | first {σ : Type} (ex : Executor σ) (w : World σ) :
      Run k f (f.watch ex k w).1 (f.watch ex k w).2.1 (f.watch ex k w).2.2.1
  | next {visits : List Visit} {g : Forest} (run : Run k f visits .running g) {σ : Type}
      (ex : Executor σ) (w : World σ) :
      Run k f (visits ++ (g.watch ex k w).1) (g.watch ex k w).2.1 (g.watch ex k w).2.2.1

/-- What holds of the first tick of a run and is kept by every further tick holds of the whole
run. -/
theorem Holds.run_induction_from {f g : Forest} {k : NodeKey} {p : Plan} {a : Progress}
    {visits : List Visit} {last : Status} (h : f.Holds k p a)
    (P : List Visit → Status → Progress → Prop)
    (first : ∀ {σ : Type} (ex : Executor σ) (w : World σ),
      P (p.watch ex a w).1 (p.watch ex a w).2.1 (p.watch ex a w).2.2.1)
    (next : ∀ {visits : List Visit} {b : Progress}, p.Fits b → P visits .running b →
      ∀ {σ : Type} (ex : Executor σ) (w : World σ),
        P (visits ++ (p.watch ex b w).1) (p.watch ex b w).2.1 (p.watch ex b w).2.2.1)
    (run : Run k f visits last g) : ∃ b, g.Holds k p b ∧ P visits last b := by
  induction run with
  | first ex w =>
    refine ⟨_, h.watch ex w, ?_⟩
    rw [h.watch_eq]
    exact first ex w
  | next run ex w ih =>
    obtain ⟨b, hb, hP⟩ := ih
    refine ⟨_, hb.watch ex w, ?_⟩
    rw [hb.watch_eq]
    exact next hb.fits hP ex w

/-- A run from a reset on. -/
theorem Holds.run_induction {f g : Forest} {k : NodeKey} {p : Plan} {a : Progress}
    {visits : List Visit} {last : Status} (h : f.Holds k p a)
    (P : List Visit → Status → Progress → Prop)
    (first : ∀ {σ : Type} (ex : Executor σ) (w : World σ),
      P (p.watch ex p.fresh w).1 (p.watch ex p.fresh w).2.1 (p.watch ex p.fresh w).2.2.1)
    (next : ∀ {visits : List Visit} {b : Progress}, p.Fits b → P visits .running b →
      ∀ {σ : Type} (ex : Executor σ) (w : World σ),
        P (visits ++ (p.watch ex b w).1) (p.watch ex b w).2.1 (p.watch ex b w).2.2.1)
    (run : Run k (f.reset k) visits last g) : ∃ b, g.Holds k p b ∧ P visits last b :=
  h.reset.run_induction_from P first next run

end Forest

end BehaviorTree
