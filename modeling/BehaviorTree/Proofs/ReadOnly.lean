import BehaviorTree.Proofs.Repertoire
import BehaviorTree.Proofs.Subtrees

/-!
Trees that never write on the blackboard. Where neither the behaviors nor the executor change a
value, and the executor answers by the request alone, a tick of a subtree follows from the answers
and the values: the memory of the executor does not matter, nor do the nodes on record as users.
-/
namespace BehaviorTree

open Forest

variable {σ τ : Type}

/-- The routine goes by the values of the blackboard alone, and leaves them as they are. -/
def Routine.ReadsOnly : Routine → Prop
  | finish _ => True
  | tickChild _ next => ∀ status, (next status).ReadsOnly
  | resetChild _ next => next.ReadsOnly
  | setCursor _ next => next.ReadsOnly
  | setCounter _ next => next.ReadsOnly
  | runCode _ next => ∀ status, (next status).ReadsOnly
  | readBoard next => (∀ b c, b.data = c.data → next b = next c) ∧ ∀ b, (next b).ReadsOnly
  | editBoard edit next => (∀ b, (edit b).data = b.data) ∧ next.ReadsOnly

def Behavior.ReadsOnly (behavior : Behavior) : Prop := ∀ view, (behavior.routine view).ReadsOnly

/-- What keeps to a repertoire never writes on the blackboard. -/
theorem Routine.Within.readsOnly {rep : Repertoire} {r : Routine} (h : r.Within rep) :
    r.ReadsOnly :=
  h.induction (fun _ => trivial) (fun _ _ ih => ih) (fun _ _ ih => ih) (fun _ _ ih => ih)
    (fun _ _ ih => ih) fun _ _ ih => ih

/-- No built-in behavior touches the blackboard. -/
theorem BuiltIn.readsOnly (kind : BuiltIn) : kind.behavior.ReadsOnly :=
  fun view => (kind.routine_within view).readsOnly

/-- The executor answers by the request alone, and leaves the values of the blackboard alone. -/
structure Executor.Follows (ex : Executor σ) (answers : Request → Except ScriptError Status) :
    Prop where
  answer : ∀ request w, (ex request w).1 = answers request
  values : ∀ request w, (ex request w).2.board.data = w.board.data

def Executor.answering (answers : Request → Except ScriptError Status) : Executor Unit :=
  fun request w => (answers request, w)

theorem Executor.answering_follows (answers : Request → Except ScriptError Status) :
    (Executor.answering answers).Follows answers := ⟨fun _ _ => rfl, fun _ _ => rfl⟩

def SameValues (data : Dict Json) (b c : Blackboard) : Prop := b.data = data ∧ c.data = data

/-- A routine that only reads cannot tell boards with the same values from each other. -/
theorem Routine.ReadsOnly.respects {r : Routine} (h : r.ReadsOnly) (data : Dict Json) :
    r.Respects (SameValues data) := by
  induction r with
  | finish status => exact trivial
  | tickChild i next ih => exact fun status => ih status (h status)
  | resetChild i next ih => exact ih h
  | setCursor i next ih => exact ih h
  | setCounter n next ih => exact ih h
  | runCode ticks next ih => exact fun status => ih status (h status)
  | readBoard next ih =>
    rintro b c ⟨hb, hc⟩
    exact ⟨h.1 b c (hb.trans hc.symm), ih b (h.2 b)⟩
  | editBoard edit next ih =>
    refine ⟨?_, ih h.2⟩
    rintro b c ⟨hb, hc⟩
    exact ⟨(h.1 b).trans hb, (h.1 c).trans hc⟩

namespace ParameterSet

/-- Looking up parameters leaves the values as they are. -/
theorem data_trackAll (node : String) (entries : List (String × Parameter)) (b : Blackboard) :
    (trackAll node entries b).data = b.data := by
  induction entries generalizing b with
  | nil => rfl
  | cons e rest ih =>
    obtain ⟨name, p⟩ := e
    unfold trackAll
    split
    · next key _ => exact ih (b.track key node)
    · exact ih b

/-- What a leaf sees of its parameters depends on the values of the blackboard alone. -/
theorem resolve_congr (set : ParameterSet) {b c : Blackboard} (h : b.data = c.data)
    (node : String) : (resolve set b node).1 = (resolve set c node).1 := by
  have hresolved : ∀ p, resolved p b = resolved p c := by
    intro p
    simp only [resolved, Blackboard.get?, h]
  simp only [resolve, hresolved]

end ParameterSet

/-- Executors that follow the same answers agree on worlds with the same values. -/
theorem Executor.Follows.agrees {answers : Request → Except ScriptError Status}
    {ex : Executor σ} {other : Executor τ} (hex : ex.Follows answers)
    (hother : other.Follows answers) (data : Dict Json) :
    ex.Agrees other (SameValues data) fun w v => SameValues data w.board v.board where
  board h := h
  edit _ _ _ h := h
  execute spec ticks w v := by
    rintro ⟨hw, hv⟩
    simp only [NodeSpec.execute]
    cases spec.activeCode? with
    | none => exact ⟨rfl, hw, hv⟩
    | some code =>
      have hparams := ParameterSet.resolve_congr spec.parameters (hw.trans hv.symm) spec.id
      refine ⟨?_, ?_, ?_⟩
      · simp only [hex.answer, hother.answer, hparams]
      · rw [hex.values]
        exact (ParameterSet.data_trackAll _ _ _).trans hw
      · rw [hother.values]
        exact (ParameterSet.data_trackAll _ _ _).trans hv

namespace Plan

variable {answers : Request → Except ScriptError Status} {data : Dict Json}

def answered (answers : Request → Except ScriptError Status) (data : Dict Json) (p : Plan)
    (a : Progress) : Status × Progress :=
  let (status, a, _) := p.tick (Executor.answering answers) a ⟨.ofData data, ()⟩
  (status, a)

/-- Every tick comes to what the answers and the values come to, and leaves the values alone. -/
theorem tick_answered {p : Plan} (hp : p.All (·.behavior.ReadsOnly)) {ex : Executor σ}
    (hex : ex.Follows answers) (a : Progress) {w : World σ} (hw : w.board.data = data) :
    (p.tick ex a w).1 = (p.answered answers data a).1 ∧
      (p.tick ex a w).2.1 = (p.answered answers data a).2 ∧
      (p.tick ex a w).2.2.board.data = data := by
  have hagrees := hex.agrees (Executor.answering_follows answers) data
  have hall : p.All (·.Respects (SameValues data)) :=
    hp.imp fun spec hspec view => (hspec view).respects data
  have hout := tick_related hagrees hall a (w := w) (v := ⟨.ofData data, ()⟩) ⟨hw, rfl⟩
  exact ⟨hout.status, hout.progress, hout.world.1⟩

end Plan

namespace Forest

variable {f : Forest} {k : NodeKey} {p : Plan}

def ReadsOnly (f : Forest) (k : NodeKey) : Prop :=
  ∀ n, f.node? k = some n → n.spec.behavior.ReadsOnly

/-- What is true of every node below another one is true all over the plan of that node. -/
theorem Sound.plan_all {P : NodeSpec → Prop} (hs : f.Sound)
    (h : ∀ m ∈ f.subtree k, ∀ n, f.node? m = some n → P n.spec) (hp : f.plan? k = some p) :
    p.All P := by
  induction k using hs.induction_below generalizing p with
  | step k ih =>
    obtain ⟨n, hn⟩ := hs.exists_node_of_plan? hp
    obtain ⟨plans, hplan, hplans⟩ := hs.exists_plan hn
    obtain rfl := Option.some.inj (hp.symm.trans hplan)
    refine .node (h k List.mem_cons_self n hn) fun q hq => ?_
    obtain ⟨i, hi⟩ := List.mem_iff_getElem?.mp hq
    obtain ⟨c, hc, hcq⟩ := exists_getElem? hplans hi
    have hchild := List.mem_of_getElem? hc
    exact ih c hchild (fun m hm => h m (hs.subtree_trans (hs.child_mem_subtree hchild) hm)) hcq

end Forest

end BehaviorTree
