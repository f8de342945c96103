/-!
The few words that nodes and trees are described with, and the names documents give them.
-/
namespace BehaviorTree

/-- What a tick of a node comes to. A running node wants to be ticked again; an idle one has not
begun. -/
inductive Status where
  | success
  | failure
  | running
  | idle
  deriving DecidableEq, Inhabited, Repr

namespace Status

def isTerminal : Status → Bool
  | success => true
  | failure => true
  | running => false
  | idle => false

def name : Status → String
  | success => "SUCCESS"
  | failure => "FAILURE"
  | running => "RUNNING"
  | idle => "IDLE"

def word : Status → String
  | success => "Success"
  | failure => "Failure"
  | running => "Running"
  | idle => "Idle"

def names : List (String × Status) := [success, failure, running, idle].map fun s => (s.name, s)

end Status

inductive Category where
  | composite
  | decorator
  | leaf
  deriving DecidableEq, Inhabited, Repr

namespace Category

def name : Category → String
  | composite => "composite"
  | decorator => "decorator"
  | leaf => "leaf"

def names : List (String × Category) := [composite, decorator, leaf].map fun c => (c.name, c)

end Category

inductive Port where
  | none
  | single
  | multiple
  deriving DecidableEq, Inhabited, Repr

namespace Port

def name : Port → String
  | none => "none"
  | single => "single"
  | multiple => "multiple"

def names : List (String × Port) := [none, single, multiple].map fun p => (p.name, p)

end Port

structure Ports where
  input : Port
  output : Port
  deriving DecidableEq, Inhabited

def startType : String := "Start"

def Ports.of (category : Category) (typeName : String) : Ports :=
  if typeName = startType then ⟨.none, .single⟩
  else match category with
    | .composite => ⟨.single, .multiple⟩
    | .decorator => ⟨.single, .single⟩
    | .leaf => ⟨.single, .none⟩

inductive ExecutionState where
  | idle
  | running
  | paused
  deriving DecidableEq, Inhabited, Repr

namespace ExecutionState

def name : ExecutionState → String
  | idle => "idle"
  | running => "running"
  | paused => "paused"

def names : List (String × ExecutionState) := [idle, running, paused].map fun s => (s.name, s)

end ExecutionState

inductive Capacity where
  | atMost (count : Nat)
  | unlimited
  deriving DecidableEq, Inhabited, Repr

namespace Capacity

/-- No limit is above every limit, and compares with nothing that has none either. -/
def compare? : Capacity → Capacity → Option Ordering
  | atMost a, atMost b => some (compare a b)
  | atMost _, unlimited => some .lt
  | unlimited, atMost _ => some .gt
  | unlimited, unlimited => none

end Capacity

def Category.capacity : Category → Capacity
  | .composite => .unlimited
  | .decorator => .atMost 1
  | .leaf => .atMost 0

end BehaviorTree
