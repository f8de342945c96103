import BehaviorTree.Loading
import BehaviorTree.Tree

/-!
Driving a tree. The engine is a tree together with all that it works on: the nodes, a clock, and
the memory of the executor. A tree is idle, running or paused; it holds a timer exactly while it
is running. Observers are told the status of every pass and every change of the state, in the
order of their names here.
-/
namespace BehaviorTree

inductive Notice where
  | ticked (observer : String) (status : Status)
  | changed (observer : String) (state : ExecutionState)
  deriving DecidableEq

structure Engine (σ : Type) where
  tree : Tree
  forest : Forest
  clock : ManualClock
  memory : σ
  notices : List Notice

namespace Engine

variable {σ : Type}

def startNodes (e : Engine σ) : List NodeKey := e.tree.startNodes e.forest

def tickNode (ex : Executor σ) (e : Engine σ) (k : NodeKey) : Status × Engine σ :=
  let (status, forest, world) := e.forest.tick ex k ⟨e.tree.board, e.memory⟩
  (status, { e with forest, memory := world.memory, tree := { e.tree with board := world.board } })

def tickNodes (ex : Executor σ) (e : Engine σ) : List NodeKey → List Status × Engine σ
  | [] => ([], e)
  | k :: rest =>
    let (status, e) := e.tickNode ex k
    let (statuses, e) := e.tickNodes ex rest
    (status :: statuses, e)

def resetNode (e : Engine σ) (k : NodeKey) : Engine σ := { e with forest := e.forest.reset k }

def restart (e : Engine σ) (k : NodeKey) (status : Status) : Engine σ :=
  if status.isTerminal then e.resetNode k else e

def countPass (e : Engine σ) : Engine σ :=
  { e with tree := { e.tree with tickCount := e.tree.tickCount + 1 } }

def announce (e : Engine σ) (status : Status) : Engine σ :=
  { e with notices := e.notices ++ e.tree.tickObservers.map fun o => .ticked o status }

def tickRoot (ex : Executor σ) (e : Engine σ) (root : NodeKey) : Status × Engine σ :=
  let (status, e) := e.countPass.tickNode ex root
  (status, (e.announce status).restart root status)

def tickStarts (ex : Executor σ) (e : Engine σ) (starts : List NodeKey) : Status × Engine σ :=
  let (statuses, e) := e.countPass.tickNodes ex starts
  let e := (starts.zip statuses).foldl (fun e p => e.restart p.1 p.2) e
  let status := Tree.combine statuses
  (status, e.announce status)

/-- One pass. Without anything to tick it is none, and the tree is idle. -/
def tick (ex : Executor σ) (e : Engine σ) : Status × Engine σ :=
  match e.startNodes, e.tree.root with
  | [], none => (.idle, e)
  | [], some root => e.tickRoot ex root
  | starts, _ => e.tickStarts ex starts

def setState (e : Engine σ) (state : ExecutionState) : Engine σ :=
  if e.tree.state = state then e
  else
    { e with
      tree := { e.tree with state }
      notices := e.notices ++ e.tree.stateObservers.map fun o => .changed o state }

def disarmTimer (e : Engine σ) : Engine σ :=
  match e.tree.timer with
  | some timer =>
    { e with clock := e.clock.disarm timer, tree := { e.tree with timer := none } }
  | none => e

def armTimer (e : Engine σ) : Engine σ :=
  let e := e.disarmTimer
  let (timer, clock) := e.clock.arm (TickRate.interval e.tree.rate)
  { e with clock, tree := { e.tree with timer := some timer } }

def start (e : Engine σ) : Engine σ :=
  if e.tree.state = .running then e else e.armTimer.setState .running

def pause (e : Engine σ) : Engine σ :=
  if e.tree.state = .running then e.disarmTimer.setState .paused else e

def reset (e : Engine σ) : Engine σ :=
  let e : Engine σ := { e with tree := { e.tree with tickCount := 0 } }
  e.tree.root.elim e e.resetNode

def resetAll (e : Engine σ) : Engine σ :=
  let e := e.reset
  e.startNodes.foldl resetNode e

def clearBoard (e : Engine σ) : Engine σ := { e with tree := { e.tree with board := .empty } }

def stop (e : Engine σ) : Engine σ := e.disarmTimer.resetAll.clearBoard.setState .idle

def step (ex : Executor σ) (e : Engine σ) : Status × Engine σ :=
  let prior := e.tree.state
  let e := if prior = .running then e.disarmTimer else e
  let (status, e) := e.tick ex
  (status, e.setState (if prior = .idle then .idle else .paused))

def setTickRate (e : Engine σ) (rate : Nat) : Engine σ :=
  let e : Engine σ := { e with tree := { e.tree with rate := TickRate.clamp rate } }
  if e.tree.state = .running then e.armTimer else e

def tickTimes (ex : Executor σ) : (count : Nat) → Engine σ → Engine σ
  | 0, e => e
  | count + 1, e => tickTimes ex count (e.tick ex).2

/-- One pass for every firing of the timer of a running tree that is due; their number. -/
def pump (ex : Executor σ) (e : Engine σ) : UInt32 × Engine σ :=
  match e.tree.timer with
  | some timer =>
    if e.tree.state = .running then
      let (due, clock) := e.clock.poll timer
      (due, tickTimes ex due.toNat { e with clock })
    else (0, e)
  | none => (0, e)

/-- Puts a loaded document in place of the tree; how the tree is being run stays. -/
def replace (e : Engine σ) (loaded : Loaded) (forest : Forest) : Engine σ :=
  { e with
    forest
    tree :=
      { e.tree with
        root := loaded.root
        nodes := loaded.nodes
        board := .ofData loaded.values
        created := loaded.metadata.created
        tickCount := 0 } }

def load (e : Engine σ) (registry : Registry) (migrator : Migrator) (doc : Json) :
    Except LoadError (Engine σ) :=
  match Loading.load registry migrator e.forest doc with
  | .ok (loaded, forest) => .ok (e.replace loaded forest)
  | .error error => .error error

def document (e : Engine σ) (now : Timestamp) : Document :=
  .capture e.forest e.tree.root e.tree.board.data e.tree.created now

def drop (e : Engine σ) : Engine σ := e.disarmTimer.clearBoard

end Engine

end BehaviorTree
