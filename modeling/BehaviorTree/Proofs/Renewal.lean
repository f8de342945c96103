import BehaviorTree.Proofs.FreshRuns
import BehaviorTree.Proofs.Interchange
import BehaviorTree.Proofs.Takeover
import BehaviorTree.Proofs.Twins

/-!
Renewal. A node that is reset is as good as a new one: nothing is left of what has been done to it
or to what is below it, and nothing else changes. A tree that is stopped is as good as a new tree
over a copy of its nodes: whatever is done to both from then on, they come to the same.
-/
namespace BehaviorTree

open Forest

variable {σ : Type}

namespace Forest

variable {f g : Forest} {k m : NodeKey} {p : Plan}

/-- Whatever is reset first, everything is fresh in the end. -/
theorem runState_resets {keys : List NodeKey} {j : NodeKey} (hj : j ∈ f.under keys) :
    (keys.foldl Forest.reset f).runState j = .fresh := by
  induction keys using List.reverseRecOn with
  | nil => exact absurd hj List.not_mem_nil
  | append_singleton keys k ih =>
    have hsame := Engine.foldl_reset_sameButStates keys f
    rw [List.foldl_append, List.foldl_cons, List.foldl_nil, runState_reset, hsame.subtree]
    by_cases hjk : j ∈ f.subtree k
    · exact if_pos hjk
    · -- the last reset does not reach this node, so an earlier one has
      rw [if_neg hjk]
      apply ih
      obtain ⟨top, htop, hjtop⟩ := List.mem_flatMap.mp hj
      rcases List.mem_append.mp htop with htop | htop
      · exact List.mem_flatMap.mpr ⟨top, htop, hjtop⟩
      · exact absurd (List.mem_singleton.mp htop ▸ hjtop) hjk

/-- A subtree of new nodes has not begun. -/
theorem Sound.progress?_of_fresh (hs : f.Sound)
    (hfresh : ∀ j ∈ f.subtree k, f.runState j = .fresh) :
    f.progress? k = (f.plan? k).map Plan.fresh := by
  rw [progress?_eq_gather, plan?_eq_gather, hs.gather_map (.refl f)]
  intro j hj n m hn hm plans
  have hstate : n.state = .fresh := by
    have hj := hfresh j hj
    rw [runState, hn] at hj
    exact hj
  obtain rfl := Option.some.inj (hn.symm.trans hm)
  simp [buildProgress, buildPlan, Plan.fresh, Plan.freshAll_eq_map, hstate]

/-- What a reset of a node comes to. -/
structure Renewed (f : Forest) (k : NodeKey) : Prop where
  /-- The nodes of the subtree are as if they had not begun, and nothing else changes. -/
  node? : ∀ j, (f.reset k).node? j =
    (f.node? j).map fun n => { n with state := if j ∈ f.subtree k then .fresh else n.state }
  /-- Nobody can tell the subtree from the same one made of new nodes. -/
  drive_eq : ∀ {g : Forest} {m : NodeKey} {p : Plan}, g.Reachable → f.plan? k = some p →
    g.plan? m = some p → (∀ j ∈ g.subtree m, g.runState j = .fresh) →
    ∀ {σ : Type} (ex : Executor σ) (turns : List Turn) (w : World σ),
      (f.reset k).drive ex k turns w = g.drive ex m turns w

/-- A reset of any node is a reset of everything below it, and of nothing else. -/
theorem renewed_of_reachable (hf : f.Reachable) (k : NodeKey) : f.Renewed k where
  node? := node?_reset f k
  drive_eq {g m p} hg hp hq hfresh σ ex turns w := by
    obtain ⟨a, hheld⟩ := Holds.exists_progress hf.sound hp
    have hnew : g.Holds m p p.fresh := by
      refine ⟨hg.sound, hq, ?_⟩
      rw [hg.sound.progress?_of_fresh hfresh, hq, Option.map_some]
    exact drive_eq_of_bisimilar ex hheld.reset hnew (.refl p p.fresh) turns w

end Forest

namespace Engine

variable {e : Engine σ} {φ : NodeKey → NodeKey}

def tops (e : Engine σ) : List NodeKey := e.tree.root.toList ++ e.startNodes

/-- Another forest has a copy of everything that a tree can tick, made of nodes that have not begun.
Whatever else the tree lists is there too, if only by its specification. -/
structure HasCopy (e : Engine σ) (g : Forest) (φ : NodeKey → NodeKey) : Prop where
  copied : e.forest.Copied g φ e.tops
  listed : ∀ k ∈ e.tree.nodes, (g.node? (φ k)).map (·.spec) = (e.forest.node? k).map (·.spec)
  fresh : ∀ j ∈ e.forest.under e.tops, g.runState (φ j) = .fresh

def renewed (e : Engine σ) (first : TimerId) (g : Forest) (φ : NodeKey → NodeKey) : Engine σ :=
  let new := begin e.tree.rate first g e.memory
  { new with
    tree :=
      { new.tree with
        root := e.tree.root.map φ
        nodes := e.tree.nodes.map φ
        tickObservers := e.tree.tickObservers
        stateObservers := e.tree.stateObservers } }

theorem disarmTimer_tree (e : Engine σ) :
    e.disarmTimer.tree = { e.tree with timer := none } ∧ e.disarmTimer.forest = e.forest ∧
      e.disarmTimer.memory = e.memory := by
  cases htimer : e.tree.timer with
  | none =>
    have htree : e.tree = { e.tree with timer := none } := by rw [← htimer]
    simp only [disarmTimer, htimer]
    exact ⟨htree, trivial, trivial⟩
  | some timer =>
    simp only [disarmTimer, htimer]
    exact ⟨trivial, trivial, trivial⟩

theorem setState_tree (e : Engine σ) (state : ExecutionState) :
    (e.setState state).tree = { e.tree with state } ∧ (e.setState state).forest = e.forest ∧
      (e.setState state).memory = e.memory := by
  unfold setState
  split
  · next hstate =>
    subst hstate
    exact ⟨rfl, rfl, rfl⟩
  · exact ⟨rfl, rfl, rfl⟩

/-- Resetting nodes one after the other only changes the forest. -/
theorem resetNodes_eq (nodes : List NodeKey) (e : Engine σ) :
    nodes.foldl resetNode e = { e with forest := nodes.foldl Forest.reset e.forest } := by
  induction nodes generalizing e with
  | nil => rfl
  | cons k rest ih => exact ih (e.resetNode k)

/-- A complete reset is a reset of everything that is ticked. -/
theorem resetAll_eq (e : Engine σ) :
    e.resetAll = { e.recounted with forest := e.tops.foldl Forest.reset e.forest } := by
  have hreset : e.reset =
      { e.recounted with forest := e.tree.root.toList.foldl Forest.reset e.forest } := by
    rw [reset_eq]
    cases e.tree.root <;> rfl
  have hstarts : e.reset.startNodes = e.startNodes := by
    rw [hreset]
    exact (foldl_reset_sameButStates e.tree.root.toList e.forest).startNodes e.tree
  rw [resetAll, hstarts, resetNodes_eq, hreset, tops, List.foldl_append]

/-- What is left of a tree when it has been stopped. -/
theorem stop_tree (e : Engine σ) :
    e.stop.tree =
        { e.tree with timer := none, board := .empty, tickCount := 0, state := .idle } ∧
      e.stop.forest = e.tops.foldl Forest.reset e.forest ∧ e.stop.memory = e.memory := by
  obtain ⟨htree, hforest, hmemory⟩ := disarmTimer_tree e
  obtain ⟨htree', hforest', hmemory'⟩ := setState_tree e.disarmTimer.resetAll.clearBoard .idle
  have htops : e.disarmTimer.tops = e.tops := by
    simp only [tops, startNodes, Tree.startNodes, htree, hforest]
  rw [stop, htree', hforest', hmemory', resetAll_eq, htops, hforest]
  refine ⟨?_, rfl, hmemory⟩
  simp only [clearBoard, recounted, htree]

/-- After a stop the tree is in step with a new one over a copy of its nodes. -/
theorem twins_of_stop {g : Forest} (hf : e.forest.Sound) (hg : g.Sound)
    (horderly : e.console.Orderly) (hcopy : e.HasCopy g φ) (first : TimerId) :
    e.stop.Twins φ e.tops e.stop.notices (e.renewed first g φ) := by
  obtain ⟨htree, hforest, hmemory⟩ := stop_tree e
  have hsame : e.forest.SameButStates e.stop.forest := by
    rw [hforest]
    exact foldl_reset_sameButStates e.tops e.forest
  have hstarts : e.stop.startNodes = e.startNodes := by
    rw [startNodes, hsame.startNodes, htree]
    rfl
  have hquiet : e.stop.clock.timers = [] := by
    have hconsole : e.stop.console = e.console.disarm.enter .idle := console_call .null e .stop
    have htimers := (horderly.disarm.enter .idle).timers
    rw [← hconsole] at htimers
    exact htimers
  exact
    { forest :=
        { toCopied := hcopy.copied.congr hsame (.refl g)
          sound := hf.of_same_links hsame.children hsame.parent?
          copySound := hg
          state := fun j hj => by
            rw [hsame.under] at hj
            rw [hforest, runState_resets hj]
            exact hcopy.fresh j hj }
      root := by rw [htree]; rfl
      nodes := by rw [htree]; rfl
      rooted := fun r hr => by
        rw [htree] at hr
        exact List.mem_append_left _ (Option.mem_toList.mpr hr)
      started := fun s hs => by
        rw [hstarts] at hs
        exact List.mem_append_right _ hs
      listed := fun k hk => by
        rw [htree] at hk
        rw [hsame.spec?]
        exact hcopy.listed k hk
      board := by rw [htree]; rfl
      memory := hmemory.symm
      count := by rw [htree]; rfl
      state := by rw [htree]; rfl
      rate := by
        rw [htree]
        exact TickRate.clamp_of_le horderly.slowest horderly.fastest
      tickObservers := by rw [htree]; rfl
      stateObservers := by rw [htree]; rfl
      timers := .quiet (by rw [htree]) rfl hquiet rfl
      notices := (List.append_nil _).symm }

/-- A node that is reset is as good as a new one, and a tree that is stopped, whatever had been done
to it and in whichever state it was, is as good as a new one over a copy of its nodes. The two trees
stay the same to a host who goes on to run them, and observers are told the same. -/
theorem reset_means_fresh (f : Forest) (hf : f.Reachable) (k : NodeKey)
    (ex : Executor σ) (rate : ℕ) (first : TimerId) (forest : Forest) (memory : σ)
    (calls : List Call) :
    f.Renewed k ∧
      let e := (begin rate first forest memory).run ex calls
      e.forest.Reachable → ∀ (g : Forest) (φ : NodeKey → NodeKey), g.Reachable → e.HasCopy g φ →
        ∀ (first' : TimerId) (later : List Call), (∀ c ∈ later, c.KeepsTree) →
          let d := e.renewed first' g φ
          (e.stop.run ex later).SameToHost ex (d.run ex later) ∧
            (e.stop.run ex later).notices = e.stop.notices ++ (d.run ex later).notices := by
  refine ⟨renewed_of_reachable hf k, ?_⟩
  intro e he g φ hg hcopy first' later hlater d
  have horderly : e.console.Orderly := by
    rw [console_run]
    exact (begin_orderly rate first forest memory).run calls
  have htwins := (twins_of_stop he.sound hg.sound horderly hcopy first').run ex hlater
  exact ⟨htwins.sameToHost ex, htwins.notices⟩

theorem reachable_chronicleAll (ex : Executor σ) (keys : List NodeKey) {f : Forest}
    (hf : f.Reachable) (w : World (σ × Chronicle)) :
    (Forest.chronicleAll ex keys f w).1.Reachable := by
  induction keys generalizing f w with
  | nil => exact hf
  | cons k rest ih =>
    have hticked : (f.chronicle ex k w).1.Reachable := by
      rw [(f.chronicle_eq_tick ex k w).1]
      exact hf.tail (.tick ex k w.withoutLog)
    exact ih hticked (f.chronicle ex k w).2

theorem reachable_resets (keys : List NodeKey) {f : Forest} (hf : f.Reachable) :
    (keys.foldl Forest.reset f).Reachable := by
  induction keys generalizing f with
  | nil => exact hf
  | cons k rest ih => exact ih (hf.tail (.reset k))

/-- A pass leads from one forest that has come about to another. -/
theorem reachable_tick (ex : Executor σ) (he : e.forest.Reachable) :
    (e.tick ex).2.forest.Reachable := by
  obtain ⟨-, -, ended, -, hforest⟩ := tick_forest ex e []
  rw [hforest]
  exact reachable_resets ended (reachable_chronicleAll ex e.entries he _)

def opening : List Call :=
  [.setNodes [3, 0], .setRoot (some 1), .watchTicks "screen", .start, .fire 2]

def opened : Engine (List Status) :=
  (begin 10 0 startWithin (.replicate 9 .running)).run Executor.scripted opening

def interrupted : Engine (List Status) := (opened.tick Executor.scripted).2

theorem interrupted_eq :
    interrupted = (begin 10 0 startWithin (.replicate 9 .running)).run Executor.scripted
      (opening ++ [.tick]) := by
  rw [run, List.foldl_append]
  rfl

def startWithinReversed : Forest :=
  .grown [workerSpec .script "wait", workerSpec .script "go", workerSpec .start "Start",
    workerSpec .sequence "round", workerSpec .parallel "both", workerSpec .start "Start"]
    [(5, 4), (4, 3), (3, 2), (2, 1), (4, 0)]

def spare : Forest :=
  .grown [workerSpec .script "spare", workerSpec .script "look", workerSpec .script "go",
    workerSpec .sequence "patrol"] [(3, 2), (3, 1)]

theorem forest_start (e : Engine σ) : e.start.forest = e.forest := by
  have harmed : e.armTimer.forest = e.forest := (disarmTimer_tree e).2.1
  unfold start
  split
  · rfl
  · rw [(setState_tree e.armTimer .running).2.1, harmed]

theorem opened_forest : opened.forest = startWithin := by
  simp only [opened, opening, run, List.foldl_cons, List.foldl_nil, call, forest_start, begin]

/-- The reversed nodes are a copy of those of the interrupted tree. -/
theorem hasCopy_interrupted : interrupted.HasCopy startWithinReversed (5 - ·) := by
  have hsame := tick_sameButStates Executor.scripted opened
  rw [opened_forest, ← interrupted] at hsame
  have hspec : ∀ j < 6, (startWithinReversed.node? (5 - j)).map (·.spec) =
      (startWithin.node? j).map (·.spec) := by
    intro j hj
    match j, hj with
    | 0, _ | 1, _ | 2, _ | 3, _ | 4, _ | 5, _ => rfl
  have hbelow : ∀ j ∈ interrupted.forest.under interrupted.tops, j < 6 := by decide +kernel
  have hlisted : ∀ j ∈ interrupted.tree.nodes, j < 6 := by decide +kernel
  exact
    { copied :=
        { spec := fun j hj => by rw [hspec j (hbelow j hj), hsame.spec?]
          children := by decide +kernel
          injective := by decide +kernel }
      listed := fun j hj => by rw [hspec j (hlisted j hj), hsame.spec?]
      fresh := by decide +kernel }

def reopening : List Call := [.tick, .start, .fire 1, .pump, .step]

/-- A patrol is reset that has begun, and a tree is stopped while all of its nodes are running. -/
theorem reset_means_fresh_interrupted :
    (∀ turns w, (lookout.reset 0).drive Executor.scripted 0 turns w =
        spare.drive Executor.scripted 3 turns w) ∧
      (interrupted.stop.run Executor.scripted reopening).SameToHost Executor.scripted
        ((interrupted.renewed 7 startWithinReversed (5 - ·)).run Executor.scripted reopening) ∧
      (interrupted.stop.run Executor.scripted reopening).tree.tickCount = 3 := by
  have hspare : spare.Reachable := grown_reachable (by decide)
  have hreversed : startWithinReversed.Reachable := grown_reachable (by decide)
  have hreachable : interrupted.forest.Reachable := by
    rw [interrupted]
    apply reachable_tick
    rw [opened_forest]
    exact grown_reachable (by decide)
  have hlookout : lookout.plan? 0 = some patrolPlan := by
    have hsame := Forest.tick_sameButStates patrol Executor.scripted 0
      ⟨.empty, [.success, .running]⟩
    exact (patrol_reachable.sound.plan?_congr hsame 0).trans patrol_plan
  have hspared : spare.plan? 3 = some patrolPlan := by rfl
  have hnew : ∀ j ∈ spare.subtree 3, spare.runState j = .fresh := by decide +kernel
  have hlater : ∀ c ∈ reopening, c.KeepsTree := by simp [reopening, Call.KeepsTree]
  obtain ⟨hrenewed, hstopped⟩ := reset_means_fresh lookout lookout_reachable 0 Executor.scripted
    10 0 startWithin (.replicate 9 .running) (opening ++ [.tick])
  rw [← interrupted_eq] at hstopped
  have hsame := (hstopped hreachable startWithinReversed (5 - ·) hreversed hasCopy_interrupted 7
    reopening hlater).1
  have hcount : (interrupted.stop.run Executor.scripted reopening).tree.tickCount = 3 := by
    decide +kernel
  exact ⟨hrenewed.drive_eq hspare hlookout hspared hnew Executor.scripted, hsame, hcount⟩

end Engine

end BehaviorTree
