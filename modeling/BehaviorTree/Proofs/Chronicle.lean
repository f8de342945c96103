import BehaviorTree.Proofs.Passes

/-!
Chronicles. A chronicle holds, with the latest event first, when the ticks of nodes began and ended
and what the executor was asked in between. It is kept beside the memory of the executor while
passes are made. Keeping it changes nothing, so what it says is true of the passes that are made
without it.
-/
namespace BehaviorTree

variable {σ : Type} {α : Type}

/-- Something that happens to a node. A tick begins with a snapshot of the subtree. -/
inductive Event (α : Type) where
  | began (node : NodeKey) (snapshot : α)
  | asked (node : NodeKey) (ticksSinceStart : ℕ)
  | ended (node : NodeKey) (status : Status)
  deriving DecidableEq

namespace Event

def node : Event α → NodeKey
  | began node _ => node
  | asked node _ => node
  | ended node _ => node

def plain : Event α → Event Unit
  | began node _ => began node ()
  | asked node ticks => asked node ticks
  | ended node status => ended node status

end Event

abbrev Chronicle := List (Event Progress)

def World.note (w : World (σ × Chronicle)) (event : Event Progress) : World (σ × Chronicle) :=
  w.withoutLog.withLog (event :: w.memory.2)

/-- The executor as before, with a chronicle of what it is asked on behalf of a node. -/
def Executor.noting (ex : Executor σ) (node : NodeKey) : Executor (σ × Chronicle) :=
  fun request w =>
    let (answer, v) := ex request w.withoutLog
    (answer, v.withLog (.asked node request.ticksSinceStart :: w.memory.2))

/-- The chronicle does not bear on what the executor answers. -/
theorem Executor.noting_mirrors (ex : Executor σ) (node : NodeKey) :
    (ex.noting node).Mirrors ex fun w v => w.withoutLog = v where
  board h := congrArg World.board h
  edit h _ := h ▸ rfl
  answer h _ := h ▸ ⟨rfl, rfl⟩

namespace Plan

mutual

def chronicle (ex : Executor σ) : Plan → (List ℕ → NodeKey) → Stepper (σ × Chronicle)
  | .node spec plans, name => fun a w =>
    let (status, a, v) := spec.step (ex.noting (name [])) (chronicleFrom ex plans name 0) a
      (w.note (.began (name []) a))
    (status, a, v.note (.ended (name []) status))

def chronicleFrom (ex : Executor σ) :
    List Plan → (List ℕ → NodeKey) → (first : ℕ) → List (Stepper (σ × Chronicle))
  | [], _, _ => []
  | p :: rest, name, first =>
    chronicle ex p (fun place => name (first :: place)) :: chronicleFrom ex rest name (first + 1)

end

variable {ex : Executor σ} {name : List ℕ → NodeKey} {plans : List Plan}

theorem length_chronicleFrom (ex : Executor σ) (plans : List Plan) (name : List ℕ → NodeKey)
    (first : ℕ) : (chronicleFrom ex plans name first).length = plans.length := by
  induction plans generalizing first with
  | nil => rfl
  | cons p rest ih => simp [chronicleFrom, ih]

theorem getElem?_chronicleFrom (ex : Executor σ) (plans : List Plan) (name : List ℕ → NodeKey)
    (first i : ℕ) : (chronicleFrom ex plans name first)[i]? =
      plans[i]?.map fun p => p.chronicle ex fun place => name ((first + i) :: place) := by
  induction plans generalizing first i with
  | nil => rfl
  | cons p rest ih =>
    cases i with
    | zero => rfl
    | succ i =>
      simp only [chronicleFrom, List.getElem?_cons_succ, ih]
      rw [Nat.add_right_comm, Nat.add_assoc]

/-- The chronicle of a node begins and ends with the node itself. -/
theorem chronicle_node (ex : Executor σ) (spec : NodeSpec) (plans : List Plan)
    (name : List ℕ → NodeKey) (a : Progress) (w : World (σ × Chronicle)) :
    let x := spec.step (ex.noting (name [])) (chronicleFrom ex plans name 0) a
      (w.note (.began (name []) a))
    (Plan.node spec plans).chronicle ex name a w =
      (x.1, x.2.1, x.2.2.note (.ended (name []) x.1)) := by
  rw [chronicle]

/-- The chronicle changes nothing about a tick. -/
theorem chronicle_eq_tick (ex : Executor σ) (p : Plan) (name : List ℕ → NodeKey) (a : Progress)
    (w : World (σ × Chronicle)) :
    SameOutcome Eq (fun w v => w.withoutLog = v) (p.chronicle ex name a w)
      (p.tick ex a w.withoutLog) := by
  induction p generalizing name a w with
  | node spec plans ih =>
    have hsteps : InStep (fun _ => Eq) (fun w v => w.withoutLog = v) (chronicleFrom ex plans name 0)
        (steppers ex plans) := by
      refine ⟨by simp [length_chronicleFrom, steppers_eq_map], fun {i s t} hs ht => ?_,
        fun h => h ▸ rfl⟩
      rw [getElem?_chronicleFrom] at hs
      rw [steppers_eq_map, List.getElem?_map] at ht
      obtain ⟨p, hp, rfl⟩ := Option.map_eq_some_iff.mp hs
      obtain ⟨q, hq, rfl⟩ := Option.map_eq_some_iff.mp ht
      obtain rfl : p = q := Option.some.inj (hp.symm.trans hq)
      rintro a _ w _ rfl rfl
      exact ih p (List.mem_of_getElem? hp) _ a w
    have hnode : SameNode (fun _ => Eq) a a := ⟨rfl, Paired.refl _⟩
    have hout := NodeSpec.step_alike (ex.noting_mirrors (name [])) spec hsteps hnode
      (w := w.note (.began (name []) a)) (v := w.withoutLog) rfl
    rw [chronicle_node]
    exact ⟨hout.status, hout.progress.eq, hout.world⟩

end Plan

namespace Forest

variable {f : Forest} {k : NodeKey}

/-- The node at a place below another one. A place that does not exist stands for the last node on
the way to it. -/
def nodeAt (f : Forest) : NodeKey → List ℕ → NodeKey
  | k, [] => k
  | k, i :: place =>
    match (f.children k)[i]? with
    | some c => f.nodeAt c place
    | none => k

def chronicle (ex : Executor σ) (f : Forest) (k : NodeKey) (w : World (σ × Chronicle)) :
    Forest × World (σ × Chronicle) :=
  match f.plan? k, f.progress? k with
  | some plan, some progress =>
    let (_, progress, world) := plan.chronicle ex (f.nodeAt k) progress w
    (f.store k progress, world)
  | _, _ => (f, w)

def chronicleAll (ex : Executor σ) :
    List NodeKey → Forest → World (σ × Chronicle) → Forest × World (σ × Chronicle)
  | [], f, w => (f, w)
  | k :: rest, f, w =>
    let (f, w) := f.chronicle ex k w
    chronicleAll ex rest f w

/-- A tick with a chronicle is the tick without it. -/
theorem chronicle_eq_tick (ex : Executor σ) (f : Forest) (k : NodeKey)
    (w : World (σ × Chronicle)) :
    (f.chronicle ex k w).1 = (f.tick ex k w.withoutLog).2.1 ∧
      (f.chronicle ex k w).2.withoutLog = (f.tick ex k w.withoutLog).2.2 := by
  simp only [chronicle, tick]
  cases f.plan? k with
  | none => exact ⟨rfl, rfl⟩
  | some p =>
    cases f.progress? k with
    | none => exact ⟨rfl, rfl⟩
    | some a =>
      have hout := p.chronicle_eq_tick ex (f.nodeAt k) a w
      exact ⟨congrArg (f.store k) hout.progress, hout.world⟩

theorem chronicle_sameButStates (ex : Executor σ) (f : Forest) (k : NodeKey)
    (w : World (σ × Chronicle)) : f.SameButStates (f.chronicle ex k w).1 := by
  rw [(f.chronicle_eq_tick ex k w).1]
  exact tick_sameButStates f ex k w.withoutLog

/-- The chronicle of a node is that of its subtree, told by the keys of the nodes. -/
theorem Holds.chronicle_eq {p : Plan} {a : Progress} (h : f.Holds k p a) (ex : Executor σ)
    (w : World (σ × Chronicle)) :
    f.chronicle ex k w = (f.store k (p.chronicle ex (f.nodeAt k) a w).2.1,
      (p.chronicle ex (f.nodeAt k) a w).2.2) := by
  simp only [chronicle, h.plan, h.progress]

theorem Holds.chronicle {p : Plan} {a : Progress} (h : f.Holds k p a) (ex : Executor σ)
    (w : World (σ × Chronicle)) :
    (f.chronicle ex k w).1.Holds k p (p.chronicle ex (f.nodeAt k) a w).2.1 := by
  rw [(f.chronicle_eq_tick ex k w).1, (p.chronicle_eq_tick ex (f.nodeAt k) a w).progress]
  exact h.tick ex w.withoutLog

end Forest

namespace Engine

def entries (e : Engine σ) : List NodeKey :=
  match e.startNodes, e.tree.root with
  | [], none => []
  | [], some root => [root]
  | starts, _ => starts

def chronicle (ex : Executor σ) (e : Engine σ) (log : Chronicle) :
    Forest × World (σ × Chronicle) :=
  Forest.chronicleAll ex e.entries e.forest ⟨e.tree.board, (e.memory, log)⟩

def history (ex : Executor σ) : ℕ → Engine σ → Chronicle → Chronicle
  | 0, _, log => log
  | count + 1, e, log => history ex count (e.tick ex).2 (e.chronicle ex log).2.memory.2

variable {e : Engine σ}

/-- Nodes are ticked as they are when a chronicle is kept. -/
theorem tickNodes_chronicle (ex : Executor σ) (keys : List NodeKey) {w : World (σ × Chronicle)}
    (hw : w.withoutLog = ⟨e.tree.board, e.memory⟩) :
    (e.tickNodes ex keys).2.forest = (Forest.chronicleAll ex keys e.forest w).1 ∧
      (e.tickNodes ex keys).2.memory = (Forest.chronicleAll ex keys e.forest w).2.memory.1 := by
  induction keys generalizing e w with
  | nil => exact ⟨rfl, (congrArg World.memory hw).symm⟩
  | cons k rest ih =>
    obtain ⟨hforest, hworld⟩ := e.forest.chronicle_eq_tick ex k w
    rw [hw] at hforest hworld
    have hrest := ih (e := (e.tickNode ex k).2) (w := (e.forest.chronicle ex k w).2) hworld
    have hfirst : (e.tickNode ex k).2.forest = (e.forest.chronicle ex k w).1 := hforest.symm
    rw [hfirst] at hrest
    exact hrest

/-- A pass leaves the root and the list of nodes as they are. -/
theorem tickNodes_tree (ex : Executor σ) (e : Engine σ) (keys : List NodeKey) :
    (e.tickNodes ex keys).2.tree.root = e.tree.root ∧
      (e.tickNodes ex keys).2.tree.nodes = e.tree.nodes := by
  induction keys generalizing e with
  | nil => exact ⟨rfl, rfl⟩
  | cons k rest ih => exact ih (e.tickNode ex k).2

theorem restart_tree (e : Engine σ) (k : NodeKey) (status : Status) :
    (e.restart k status).tree = e.tree := by
  unfold restart
  split <;> rfl

/-- What has ended is reset, one node after the other. -/
theorem foldl_restart (ended : List (NodeKey × Status)) (e : Engine σ) :
    (ended.foldl (fun e p => e.restart p.1 p.2) e).tree = e.tree ∧
      ∃ keys : List NodeKey, (∀ k ∈ keys, k ∈ ended.map Prod.fst) ∧
        (ended.foldl (fun e p => e.restart p.1 p.2) e).forest =
          keys.foldl Forest.reset e.forest := by
  induction ended generalizing e with
  | nil => exact ⟨rfl, [], by simp, rfl⟩
  | cons p rest ih =>
    obtain ⟨htree, keys, hkeys, hforest⟩ := ih (e.restart p.1 p.2)
    refine ⟨htree.trans (restart_tree e p.1 p.2), ?_⟩
    have hrest : ∀ k ∈ keys, k ∈ (p :: rest).map Prod.fst :=
      fun k hk => List.mem_cons_of_mem _ (hkeys k hk)
    rw [List.foldl_cons, hforest]
    unfold restart
    split
    · exact ⟨p.1 :: keys, List.forall_mem_cons.mpr ⟨List.mem_cons_self, hrest⟩, rfl⟩
    · exact ⟨keys, hrest, rfl⟩

/-- A pass is the ticks of its entries; what has ended is reset. -/
theorem tick_forest (ex : Executor σ) (e : Engine σ) (log : Chronicle) :
    (e.tick ex).2.tree.root = e.tree.root ∧ (e.tick ex).2.tree.nodes = e.tree.nodes ∧
      ∃ ended : List NodeKey, (∀ k ∈ ended, k ∈ e.entries) ∧
        (e.tick ex).2.forest = ended.foldl Forest.reset (e.chronicle ex log).1 := by
  unfold tick chronicle entries
  cases hstarts : e.startNodes with
  | nil =>
    cases hroot : e.tree.root with
    | none => exact ⟨hroot, rfl, [], by simp, rfl⟩
    | some root =>
      obtain ⟨htree, keys, hkeys, hforest⟩ :=
        foldl_restart [(root, (e.countPass.tickNode ex root).1)]
          ((e.countPass.tickNode ex root).2.announce (e.countPass.tickNode ex root).1)
      have hnodes := (tickNodes_chronicle (e := e.countPass) ex [root]
        (w := ⟨e.tree.board, (e.memory, log)⟩) rfl).1
      have hsame : (e.tickRoot ex root).2.tree.root = some root ∧
          (e.tickRoot ex root).2.tree.nodes = e.tree.nodes :=
        ⟨(congrArg Tree.root htree).trans hroot, (congrArg Tree.nodes htree).trans rfl⟩
      refine ⟨hsame.1, hsame.2, keys, hkeys, ?_⟩
      exact hforest.trans (congrArg (keys.foldl Forest.reset) hnodes)
  | cons start starts =>
    have htree := tickNodes_tree ex e.countPass (start :: starts)
    have hnodes := (tickNodes_chronicle (e := e.countPass) ex (start :: starts)
      (w := ⟨e.tree.board, (e.memory, log)⟩) rfl).1
    obtain ⟨hrestarted, keys, hkeys, hforest⟩ := foldl_restart
      ((start :: starts).zip (e.countPass.tickNodes ex (start :: starts)).1)
      (e.countPass.tickNodes ex (start :: starts)).2
    refine ⟨(congrArg Tree.root hrestarted).trans htree.1,
      (congrArg Tree.nodes hrestarted).trans htree.2, keys, fun k hk => ?_, ?_⟩
    · obtain ⟨p, hp, rfl⟩ := List.mem_map.mp (hkeys k hk)
      exact (List.of_mem_zip hp).1
    · exact hforest.trans (congrArg (keys.foldl Forest.reset) hnodes)

theorem chronicleAll_sameButStates (ex : Executor σ) (keys : List NodeKey) (f : Forest)
    (w : World (σ × Chronicle)) : f.SameButStates (Forest.chronicleAll ex keys f w).1 := by
  induction keys generalizing f w with
  | nil => exact .refl f
  | cons k rest ih => exact (Forest.chronicle_sameButStates ex f k w).trans (ih _ _)

theorem foldl_reset_sameButStates (keys : List NodeKey) (f : Forest) :
    f.SameButStates (keys.foldl Forest.reset f) := by
  induction keys generalizing f with
  | nil => exact .refl f
  | cons k rest ih => exact (Forest.reset_sameButStates f k).trans (ih (f.reset k))

theorem tick_sameButStates (ex : Executor σ) (e : Engine σ) :
    e.forest.SameButStates (e.tick ex).2.forest := by
  obtain ⟨-, -, ended, -, hforest⟩ := tick_forest ex e []
  rw [hforest]
  exact (chronicleAll_sameButStates ex _ _ _).trans (foldl_reset_sameButStates ended _)

/-- Every pass ticks the same nodes. -/
theorem entries_tick (ex : Executor σ) (e : Engine σ) : (e.tick ex).2.entries = e.entries := by
  obtain ⟨hroot, hnodes, -⟩ := tick_forest ex e []
  have hstarts : (e.tick ex).2.startNodes = e.startNodes := by
    have hsame := (tick_sameButStates ex e).startNodes (e.tick ex).2.tree
    rw [startNodes, hsame, startNodes, Tree.startNodes, Tree.startNodes, hnodes]
  rw [entries, hstarts, hroot, entries]

end Engine

end BehaviorTree
