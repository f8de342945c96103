import BehaviorTree.Engine
import BehaviorTree.Proofs.Observation

/-!
Passes. What an engine lets everyone see of a pass is what a tick lets everyone see; where there are
no start nodes, a pass is a tick of the root, which is reset at once when it has ended.
-/
namespace BehaviorTree

namespace Forest

variable {f g : Forest}

theorem SameButStates.isStart (h : f.SameButStates g) (k : NodeKey) :
    Tree.isStart g k = Tree.isStart f k := by
  have hspec := congrArg (Option.any fun s : NodeSpec => s.typeName = startType) (h.spec? k)
  simp only [Option.any_map] at hspec
  exact hspec

/-- Only types and positions decide about the start nodes. -/
theorem startNodes_congr (hstart : ∀ k, Tree.isStart g k = Tree.isStart f k)
    (hposition : ∀ k, Tree.positionX g k = Tree.positionX f k) (t : Tree) :
    t.startNodes g = t.startNodes f := by
  have hleft : Tree.isLeftOf g = Tree.isLeftOf f := by
    funext j k
    simp only [Tree.isLeftOf, hposition]
  rw [Tree.startNodes, Tree.startNodes, hleft, funext hstart]

/-- Ticks and resets change nothing about the start nodes. -/
theorem SameButStates.startNodes (h : f.SameButStates g) (t : Tree) :
    t.startNodes g = t.startNodes f := by
  refine startNodes_congr h.isStart (fun k => ?_) t
  have hspec := congrArg (Option.map fun s : NodeSpec => s.position.x) (h.spec? k)
  simp only [Option.map_map] at hspec
  exact congrArg (Option.getD · .zero) hspec

end Forest

namespace Engine

variable {σ τ : Type}

def withLog (e : Engine σ) (log : τ) : Engine (σ × τ) :=
  ⟨e.tree, e.forest, e.clock, (e.memory, log), e.notices⟩

def withoutLog (e : Engine (σ × τ)) : Engine σ :=
  ⟨e.tree, e.forest, e.clock, e.memory.1, e.notices⟩

def afterTicks (ex : Executor σ) (count : ℕ) : Engine σ → Engine σ :=
  (fun e => (e.tick ex).2)^[count]

/-- The passes that are made when the timer is pumped are passes like any other. -/
theorem tickTimes_eq_afterTicks (ex : Executor σ) (count : ℕ) (e : Engine σ) :
    e.tickTimes ex count = e.afterTicks ex count := by
  induction count generalizing e with
  | zero => rfl
  | succ count ih => exact ih (e.tick ex).2

def observe (ex : Executor σ) (e : Engine σ) : Report × Engine σ :=
  let (status, e) := (e.withLog []).tick ex.recording
  (⟨status, e.memory.2, e.tree.board⟩, e.withoutLog)

def passes (ex : Executor σ) : ℕ → Engine σ → List Report
  | 0, _ => []
  | count + 1, e =>
    let (report, e) := e.observe ex
    report :: passes ex count e

theorem tickNode_recording (ex : Executor σ) (e : Engine (σ × List Sent)) (k : NodeKey) :
    (e.tickNode ex.recording k).1 = (e.withoutLog.tickNode ex k).1 ∧
      (e.tickNode ex.recording k).2.withoutLog = (e.withoutLog.tickNode ex k).2 := by
  obtain ⟨hstatus, hforest, hworld⟩ := e.forest.tick_mirrored ex.recording_mirrors k
    (w := ⟨e.tree.board, e.memory⟩) (v := ⟨e.tree.board, e.memory.1⟩) rfl
  refine ⟨hstatus, ?_⟩
  simp only [tickNode, withoutLog, ← hforest, ← hworld]
  rfl

theorem tickNodes_recording (ex : Executor σ) (e : Engine (σ × List Sent)) (keys : List NodeKey) :
    (e.tickNodes ex.recording keys).1 = (e.withoutLog.tickNodes ex keys).1 ∧
      (e.tickNodes ex.recording keys).2.withoutLog = (e.withoutLog.tickNodes ex keys).2 := by
  induction keys generalizing e with
  | nil => exact ⟨rfl, rfl⟩
  | cons k rest ih =>
    obtain ⟨hstatus, hengine⟩ := tickNode_recording ex e k
    obtain ⟨hstatuses, hrest⟩ := ih (e.tickNode ex.recording k).2
    simp only [tickNodes, ← hstatus, ← hengine]
    exact ⟨congrArg _ hstatuses, hrest⟩

theorem withoutLog_restart (e : Engine (σ × τ)) (k : NodeKey) (status : Status) :
    (e.restart k status).withoutLog = e.withoutLog.restart k status := by
  simp only [restart]
  split <;> rfl

theorem withoutLog_announce (e : Engine (σ × τ)) (status : Status) :
    (e.announce status).withoutLog = e.withoutLog.announce status := rfl

theorem withoutLog_foldl_restart (e : Engine (σ × τ)) (ended : List (NodeKey × Status)) :
    (ended.foldl (fun e p => e.restart p.1 p.2) e).withoutLog =
      ended.foldl (fun e p => e.restart p.1 p.2) e.withoutLog := by
  induction ended generalizing e with
  | nil => rfl
  | cons p rest ih => rw [List.foldl_cons, ih, withoutLog_restart, List.foldl_cons]

theorem tick_recording (ex : Executor σ) (e : Engine (σ × List Sent)) :
    (e.tick ex.recording).1 = (e.withoutLog.tick ex).1 ∧
      (e.tick ex.recording).2.withoutLog = (e.withoutLog.tick ex).2 := by
  have hstarts : e.withoutLog.startNodes = e.startNodes := rfl
  have hroot : e.withoutLog.tree.root = e.tree.root := rfl
  simp only [tick, hstarts, hroot]
  split
  · exact ⟨rfl, rfl⟩
  · next root _ _ =>
    obtain ⟨hstatus, hengine⟩ : (e.countPass.tickNode ex.recording root).1 =
        (e.withoutLog.countPass.tickNode ex root).1 ∧
      (e.countPass.tickNode ex.recording root).2.withoutLog =
        (e.withoutLog.countPass.tickNode ex root).2 := tickNode_recording ex e.countPass root
    refine ⟨hstatus, ?_⟩
    simp only [tickRoot]
    rw [withoutLog_restart, withoutLog_announce, hengine, hstatus]
  · next starts _ _ _ =>
    obtain ⟨hstatuses, hengine⟩ : (e.countPass.tickNodes ex.recording e.startNodes).1 =
        (e.withoutLog.countPass.tickNodes ex e.startNodes).1 ∧
      (e.countPass.tickNodes ex.recording e.startNodes).2.withoutLog =
        (e.withoutLog.countPass.tickNodes ex e.startNodes).2 :=
      tickNodes_recording ex e.countPass e.startNodes
    refine ⟨congrArg Tree.combine hstatuses, ?_⟩
    simp only [tickStarts]
    rw [withoutLog_announce, withoutLog_foldl_restart, hengine, hstatuses]

/-- The report is one of the pass that would be made without it. -/
theorem observe_eq_tick (ex : Executor σ) (e : Engine σ) :
    ((e.observe ex).1.status, (e.observe ex).2) = e.tick ex ∧
      (e.observe ex).1.board = (e.tick ex).2.tree.board := by
  obtain ⟨hstatus, hengine⟩ := tick_recording ex (e.withLog [])
  exact ⟨Prod.ext hstatus hengine, congrArg (fun e => e.tree.board) hengine⟩

/-- Passes tick the root, which has this subtree. -/
structure Stands (e : Engine σ) (k : NodeKey) (p : Plan) (a : Progress) : Prop where
  alone : e.startNodes = []
  root : e.tree.root = some k
  holds : e.forest.Holds k p a

namespace Stands

variable {e : Engine σ} {k : NodeKey} {p : Plan} {a : Progress}

theorem tick_eq (h : e.Stands k p a) (ex : Executor σ) : e.tick ex = e.tickRoot ex k := by
  simp only [Engine.tick, h.alone, h.root]

theorem resetNode (h : e.Stands k p a) : (e.resetNode k).Stands k p p.fresh where
  alone := ((Forest.reset_sameButStates e.forest k).startNodes e.tree).trans h.alone
  root := h.root
  holds := h.holds.reset

theorem restart (h : e.Stands k p a) (status : Status) :
    (e.restart k status).Stands k p (if status.isTerminal then p.fresh else a) := by
  unfold Engine.restart
  split
  · exact h.resetNode
  · exact h

/-- A pass is a tick of the subtree. What has ended is reset. -/
theorem tick (h : e.Stands k p a) (ex : Executor σ) :
    let x := p.tick ex a ⟨e.tree.board, e.memory⟩
    (e.tick ex).1 = x.1 ∧ (e.tick ex).2.tree.board = x.2.2.board ∧
      (e.tick ex).2.memory = x.2.2.memory ∧
      (e.tick ex).2.Stands k p (if x.1.isTerminal then p.fresh else x.2.1) := by
  have htick := h.holds.tick_eq ex ⟨e.tree.board, e.memory⟩
  have hsame := Forest.tick_sameButStates e.forest ex k ⟨e.tree.board, e.memory⟩
  have hnode : ∀ status,
      ((e.countPass.tickNode ex k).2.announce status).Stands k p
        (p.tick ex a ⟨e.tree.board, e.memory⟩).2.1 := fun status =>
    ⟨(hsame.startNodes e.tree).trans h.alone, h.root, h.holds.tick ex ⟨e.tree.board, e.memory⟩⟩
  have hstatus : (e.countPass.tickNode ex k).1 = (p.tick ex a ⟨e.tree.board, e.memory⟩).1 :=
    congrArg Prod.fst htick
  have hworld : (e.forest.tick ex k ⟨e.tree.board, e.memory⟩).2.2 =
      (p.tick ex a ⟨e.tree.board, e.memory⟩).2.2 := congrArg (·.2.2) htick
  have hkept : ∀ (d : Engine σ) (status : Status), (d.restart k status).tree = d.tree ∧
      (d.restart k status).memory = d.memory := by
    intro d status
    unfold Engine.restart
    split <;> exact ⟨rfl, rfl⟩
  rw [h.tick_eq]
  simp only [tickRoot, hkept, hstatus]
  exact ⟨trivial, congrArg World.board hworld, congrArg World.memory hworld,
    (hnode _).restart _⟩

end Stands

end Engine

end BehaviorTree
