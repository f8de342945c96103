import BehaviorTree.Record
import BehaviorTree.TickRate
import BehaviorTree.Timestamp
import BehaviorTree.Clock

/-!
Trees as they are driven. A tree has a root and a list of nodes. Where the list holds start nodes,
a pass ticks each of them, from left to right by position, and otherwise the root. What has ended
is made ready for its next run at once.
-/
namespace BehaviorTree

structure Tree where
  root : Option NodeKey := none
  nodes : List NodeKey := []
  board : Blackboard := .empty
  /-- The timer of a running tree. -/
  timer : Option TimerId := none
  /-- Ticks per second. -/
  rate : Nat := TickRate.standard
  state : ExecutionState := .idle
  /-- Passes since the last reset. -/
  tickCount : Nat := 0
  created : Option Timestamp := none
  tickObservers : List String := []
  stateObservers : List String := []

namespace Tree

def new (rate : Nat) : Tree := { rate := TickRate.clamp rate }

/-- Puts an element into a list that is sorted from its last element to its first, right behind
the elements that it is less than. -/
def settle {α : Type} (less : α → α → Bool) (x : α) : List α → List α
  | [] => [x]
  | y :: rest => if less x y then y :: settle less x rest else x :: y :: rest

def sortBy {α : Type} (less : α → α → Bool) (xs : List α) : List α :=
  (xs.foldl (fun sorted x => settle less x sorted) []).reverse

def isStart (f : Forest) (k : NodeKey) : Bool :=
  (f.node? k).any fun n => n.spec.typeName = startType

def positionX (f : Forest) (k : NodeKey) : Double :=
  ((f.node? k).map (·.spec.position.x)).getD .zero

def isLeftOf (f : Forest) (j k : NodeKey) : Bool :=
  (positionX f j).compare? (positionX f k) == some .lt

/-- The start nodes from left to right; at one position they keep their order in the list. -/
def startNodes (t : Tree) (f : Forest) : List NodeKey :=
  sortBy (isLeftOf f) (t.nodes.filter (isStart f))

def find? (t : Tree) (f : Forest) (id : String) : Option NodeKey :=
  let hasId (k : NodeKey) : Bool := f.id? k = some id
  (t.nodes.find? hasId) <|> (t.root.elim [] f.subtree).find? hasId

def combine (statuses : List Status) : Status :=
  if statuses.contains .running then .running
  else if statuses.contains .failure then .failure
  else .success

end Tree

end BehaviorTree
