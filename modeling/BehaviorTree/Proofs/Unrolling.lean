import BehaviorTree.Proofs.Editing
import BehaviorTree.Proofs.Passes
import BehaviorTree.Proofs.Repetition

/-!
Unrolled repeaters. A tree whose root is a bounded repeater runs like the tree that has as many
copies of the child in a sequence. While a run goes on, the counter of the repeater stands where the
cursor of the sequence stands, and the child is as far as the copy there; when a run has ended, both
roots are reset.
-/
namespace BehaviorTree.Engine

variable {σ : Type} {e d : Engine σ} {k j : NodeKey} {spec seq : NodeSpec} {c : Plan} {n : ℕ}

/-- No pass has been made yet of a tree that has this subtree under its root and no start nodes. -/
structure Begins (e : Engine σ) (k : NodeKey) (p : Plan) : Prop where
  reachable : e.forest.Reachable
  alone : e.startNodes = []
  root : e.tree.root = some k
  plan : e.forest.plan? k = some p
  fresh : e.forest.progress? k = some p.fresh

theorem Begins.stands {p : Plan} (h : e.Begins k p) : e.Stands k p p.fresh :=
  ⟨h.alone, h.root, h.reachable.sound, h.plan, h.fresh⟩

/-- Between two passes a tree with a repeater and the unrolled tree stand at the same place. -/
structure RunsAlike (spec seq : NodeSpec) (c : Plan) (n : ℕ) (k j : NodeKey) (a b : Progress)
    (e d : Engine σ) : Prop where
  repeater : e.Stands k (.node spec [c]) a
  sequence : d.Stands j (.node seq (List.replicate n c)) b
  unrolled : Unrolled c n a b
  board : e.tree.board = d.tree.board
  memory : e.memory = d.memory

theorem RunsAlike.tick {a b : Progress} (h : RunsAlike spec seq c n k j a b e d)
    (hspec : spec.Repeats n) (hseq : seq.behavior = BuiltIn.sequence.behavior) (ex : Executor σ) :
    (e.tick ex).1 = (d.tick ex).1 ∧
      ∃ a b, RunsAlike spec seq c n k j a b (e.tick ex).2 (d.tick ex).2 := by
  obtain ⟨hstatus, hboard, hmemory, hstands⟩ := h.repeater.tick ex
  obtain ⟨hstatus', hboard', hmemory', hstands'⟩ := h.sequence.tick ex
  rw [← h.board, ← h.memory] at hstatus' hboard' hmemory' hstands'
  have hsame := unrolled_tick ex hspec hseq h.unrolled ⟨e.tree.board, e.memory⟩
  refine ⟨hstatus.trans (hsame.status.trans hstatus'.symm), _, _, hstands, hstands', ?_, ?_, ?_⟩
  · rw [← hsame.status]
    rcases hsame.ended with hrunning | hended
    · simpa [hrunning, Status.isTerminal] using hsame.progress hrunning
    · rw [if_pos hended, if_pos hended]
      exact unrolled_fresh spec seq c n
  · rw [hboard, hboard', hsame.world]
  · rw [hmemory, hmemory', hsame.world]

theorem RunsAlike.observe {a b : Progress} (h : RunsAlike spec seq c n k j a b e d)
    (hspec : spec.Repeats n) (hseq : seq.behavior = BuiltIn.sequence.behavior) (ex : Executor σ) :
    (e.observe ex).1 = (d.observe ex).1 ∧
      ∃ a b, RunsAlike spec seq c n k j a b (e.observe ex).2 (d.observe ex).2 := by
  have hlog : RunsAlike spec seq c n k j a b (e.withLog ([] : List Sent)) (d.withLog []) :=
    ⟨⟨h.repeater.alone, h.repeater.root, h.repeater.holds⟩,
      ⟨h.sequence.alone, h.sequence.root, h.sequence.holds⟩, h.unrolled, h.board,
      congrArg (·, []) h.memory⟩
  obtain ⟨hstatus, a, b, hnext⟩ := hlog.tick hspec hseq ex.recording
  refine ⟨?_, a, b, ⟨hnext.repeater.alone, hnext.repeater.root, hnext.repeater.holds⟩,
    ⟨hnext.sequence.alone, hnext.sequence.root, hnext.sequence.holds⟩, hnext.unrolled, hnext.board,
    congrArg Prod.fst hnext.memory⟩
  simp only [Engine.observe, hstatus, hnext.board, hnext.memory]

/-- All passes come to the same. -/
theorem RunsAlike.passes {a b : Progress} (h : RunsAlike spec seq c n k j a b e d)
    (hspec : spec.Repeats n) (hseq : seq.behavior = BuiltIn.sequence.behavior) (ex : Executor σ)
    (count : ℕ) : e.passes ex count = d.passes ex count := by
  induction count generalizing e d a b with
  | zero => rfl
  | succ count ih =>
    obtain ⟨hreport, a, b, hnext⟩ := h.observe hspec hseq ex
    simp only [Engine.passes, hreport, ih hnext]

/-- A tree whose root is a bounded repeater and the unrolled tree make the same passes. In one run
the repeater has its child run to its end as often as its config says, unless the child fails. -/
theorem repeater_unrolled (he : e.Begins k (.node spec [c]))
    (hd : d.Begins j (.node seq (List.replicate n c))) (hspec : spec.Repeats n)
    (hseq : seq.behavior = BuiltIn.sequence.behavior) (hboard : e.tree.board = d.tree.board)
    (hmemory : e.memory = d.memory) (ex : Executor σ) :
    (∀ count, e.passes ex count = d.passes ex count) ∧
      ∀ {visits last g}, Forest.Run k (e.forest.reset k) visits last g →
        Repetition n visits last := by
  have hbegin : RunsAlike spec seq c n k j _ _ e d :=
    ⟨he.stands, hd.stands, unrolled_fresh spec seq c n, hboard, hmemory⟩
  exact ⟨fun count => hbegin.passes hspec hseq ex count,
    fun run => run.repetition hspec he.stands.holds⟩

open Forest Relation

def twiceSpec : NodeSpec :=
  { workerSpec .repeater "twice" with config := Dict.empty.insert "count" (Json.int 2) }

def goPlan : Plan := .node (workerSpec .script "go") []

def twice : Forest := (((empty.add twiceSpec).2.add (workerSpec .script "go")).2.adopt 0 1).2

def pair : Forest :=
  let f := (((empty.add (workerSpec .sequence "pair")).2.add (workerSpec .script "go")).2.add
    (workerSpec .script "go")).2
  ((f.adopt 0 1).2.adopt 0 2).2

def poised (f : Forest) (answers : List Status) : Engine (List Status) :=
  ⟨{ root := some 0 }, f, default, answers, []⟩

theorem twice_begins (answers : List Status) :
    (poised twice answers).Begins 0 (.node twiceSpec [goPlan]) where
  reachable := by
    refine .tail ?_ (Step.adopt (by decide) (by decide))
    exact (ReflTransGen.refl.tail (Step.add _)).tail (Step.add _)
  alone := rfl
  root := rfl
  plan := by rfl
  fresh := by rfl

theorem pair_begins (answers : List Status) :
    (poised pair answers).Begins 0 (.node (workerSpec .sequence "pair") (.replicate 2 goPlan)) where
  reachable := by
    refine .tail (.tail ?_ (Step.adopt (by decide) (by decide)))
      (Step.adopt (by decide) (by decide))
    exact ((ReflTransGen.refl.tail (Step.add _)).tail (Step.add _)).tail (Step.add _)
  alone := rfl
  root := rfl
  plan := by rfl
  fresh := by rfl

theorem twiceSpec_repeats : twiceSpec.Repeats 2 where
  behavior := rfl
  count := by rfl
  bounded := by decide

/-- A repeater of two and a sequence of two, pass by pass. -/
theorem repeater_unrolled_twice :
    (∀ count,
      (poised twice [.running]).passes Executor.scripted count =
        (poised pair [.running]).passes Executor.scripted count) ∧
      ∃ g, Forest.Run 0 (twice.reset 0) [⟨0, .running⟩, ⟨0, .success⟩, ⟨0, .success⟩] .success g ∧
        Repetition 2 [⟨0, .running⟩, ⟨0, .success⟩, ⟨0, .success⟩] .success := by
  obtain ⟨hpasses, hruns⟩ := repeater_unrolled (twice_begins [.running]) (pair_begins [.running])
    twiceSpec_repeats rfl rfl rfl Executor.scripted
  have hfirst : Forest.Run 0 (twice.reset 0) [⟨0, .running⟩] .running _ :=
    Run.first Executor.scripted ⟨.empty, [.running]⟩
  have run :
      Forest.Run 0 (twice.reset 0) [⟨0, .running⟩, ⟨0, .success⟩, ⟨0, .success⟩] .success _ :=
    hfirst.next Executor.scripted ⟨.empty, []⟩
  exact ⟨hpasses, _, run, hruns run⟩

end BehaviorTree.Engine
