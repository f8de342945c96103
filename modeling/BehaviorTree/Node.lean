import BehaviorTree.Routine

/-!
Nodes apart from their place in a tree: what is written about a node, which ticking never changes,
and its run state, which ticking is all about.
-/
namespace BehaviorTree

structure Position where
  x : Double
  y : Double
  deriving DecidableEq, Inhabited

def Position.origin : Position := ⟨.zero, .zero⟩

/-- What is written about a node. The look of it (label, position, icon, color, ports) is for
editors; only the position matters for running, as it orders the start nodes. -/
structure NodeSpec where
  id : String
  typeName : String
  behavior : Behavior
  config : Dict Json
  code : Option String
  parameters : ParameterSet
  label : String
  position : Position
  icon : String
  color : String
  libraryType : Option String
  libraryVersion : Option String
  isModified : Bool
  ports : Ports

namespace NodeSpec

def category (spec : NodeSpec) : Category := spec.behavior.category

def activeCode? (spec : NodeSpec) : Option String :=
  spec.code.filter fun code => !(Text.trim code.toList).isEmpty

/-- How many children the node may have. The config may limit a composite by a whole number. -/
def capacity (spec : NodeSpec) : Capacity :=
  match spec.category with
  | .composite =>
    match ((spec.config.get? "maxChildren").bind Json.number?).bind Number.unsigned? with
    | some limit => .atMost limit
    | none => spec.behavior.capacity
  | _ => spec.behavior.capacity

/-- Has the code run. Without code there is nothing to do, which is a success. -/
def execute {σ : Type} (ex : Executor σ) (spec : NodeSpec) (ticksSinceStart : Nat)
    (world : World σ) : Status × World σ :=
  match spec.activeCode? with
  | none => (.success, world)
  | some code =>
    let (params, board) := ParameterSet.resolve spec.parameters world.board spec.id
    let (answer, world) := ex ⟨code, spec.id, ticksSinceStart, params⟩ { world with board }
    (Executor.outcome answer, world)

end NodeSpec

/-- What a node keeps between ticks: the status it last came to, the child to resume at, and the
counter of its behavior. -/
structure RunState where
  status : Status
  cursor : Nat
  counter : Nat
  deriving DecidableEq, Inhabited

def RunState.fresh : RunState := ⟨.idle, 0, 0⟩

end BehaviorTree
