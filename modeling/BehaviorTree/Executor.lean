import BehaviorTree.Blackboard
import BehaviorTree.Status

/-!
The boundary to whatever runs the code of a leaf. Nodes know nothing of the code; an executor is
handed a request and answers with a status or with an error. It may change the blackboard, and it
may keep a memory of its own.
-/
namespace BehaviorTree

structure Request where
  code : String
  node : String
  /-- How many times in a row the leaf has been running before this tick. -/
  ticksSinceStart : Nat
  params : Dict Json
  deriving DecidableEq

/-- What nodes share during a tick: the blackboard and the memory of the executor. -/
structure World (σ : Type) where
  board : Blackboard
  memory : σ

structure ScriptError where
  message : String
  deriving DecidableEq, Inhabited

abbrev Executor (σ : Type) := Request → World σ → Except ScriptError Status × World σ

namespace Executor

def null {σ : Type} : Executor σ := fun request world =>
  (.error ⟨"no executor configured for node " ++ request.node⟩, world)

/-- The status that a leaf takes from an answer; an error counts as failure. -/
def outcome : Except ScriptError Status → Status
  | .ok status => status
  | .error _ => .failure

end Executor

end BehaviorTree
