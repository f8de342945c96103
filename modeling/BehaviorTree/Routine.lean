import BehaviorTree.Executor
import BehaviorTree.Parameter

/-!
Behaviors as routines. While a node is ticked, its behavior looks at the node and decides step by
step what to do next: tick or reset a child, move the cursor, keep a number for later ticks, run
the code, use the blackboard, and at last finish with a status. A routine is this decision as a
value, so what a behavior may do to the rest of a tree is plain from its steps.
-/
namespace BehaviorTree

structure NodeView where
  id : String
  /-- The code, if it is more than blanks. -/
  code : Option String
  config : Dict Json
  childCount : Nat
  /-- The child to resume at, the first one if the stored cursor is past the last. -/
  cursor : Nat
  /-- The number kept since the last tick, zero after a reset. -/
  counter : Nat

inductive Routine where
  | finish (status : Status)
  | tickChild (index : Nat) (next : Status → Routine)
  | resetChild (index : Nat) (next : Routine)
  | setCursor (index : Nat) (next : Routine)
  | setCounter (count : Nat) (next : Routine)
  | runCode (ticksSinceStart : Nat) (next : Status → Routine)
  | readBoard (next : Blackboard → Routine)
  | editBoard (edit : Blackboard → Blackboard) (next : Routine)

namespace Routine

def andThen : Routine → (Status → Routine) → Routine
  | finish status, k => k status
  | tickChild i next, k => tickChild i fun s => (next s).andThen k
  | resetChild i next, k => resetChild i (next.andThen k)
  | setCursor i next, k => setCursor i (next.andThen k)
  | setCounter n next, k => setCounter n (next.andThen k)
  | runCode t next, k => runCode t fun s => (next s).andThen k
  | readBoard next, k => readBoard fun b => (next b).andThen k
  | editBoard edit next, k => editBoard edit (next.andThen k)

def withCounter (counter : Nat) : Routine → (Status → Nat → Routine) → Routine
  | finish status, k => k status counter
  | tickChild i next, k => tickChild i fun s => (next s).withCounter counter k
  | resetChild i next, k => resetChild i (next.withCounter counter k)
  | setCursor i next, k => setCursor i (next.withCounter counter k)
  | setCounter n next, k => setCounter n (next.withCounter n k)
  | runCode t next, k => runCode t fun s => (next s).withCounter counter k
  | readBoard next, k => readBoard fun b => (next b).withCounter counter k
  | editBoard edit next, k => editBoard edit (next.withCounter counter k)

end Routine

namespace NodeView

/-- A whole number in the config; a whole float counts as one, moved into 64 bits. -/
def configInt? (view : NodeView) (key : String) : Option Int :=
  match (view.config.get? key).bind Json.number? with
  | none => none
  | some n => n.signed? <|>
      if n.isWhole then some (n.toDouble.clamp Text.minSigned64 Text.maxSigned64) else none

def configBool? (view : NodeView) (key : String) : Option Bool :=
  (view.config.get? key).bind Json.bool?

end NodeView

/-- How a kind of node behaves. -/
structure Behavior where
  category : Category
  capacity : Capacity
  routine : NodeView → Routine

end BehaviorTree
