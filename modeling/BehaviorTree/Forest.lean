import BehaviorTree.Plan

/-!
Forests. Nodes are known by keys that never change; a node holds the keys of its children in their
order and the key of its parent. A child is attached only where it leaves every node with one
parent at most and none among its own ancestors; it is then taken from its former parent.

Walks along the links take at most as many steps as there are nodes, which is as far as a walk
without repetition can go.
-/
namespace BehaviorTree

abbrev NodeKey := Nat

structure Node where
  spec : NodeSpec
  parent : Option NodeKey
  children : List NodeKey
  state : RunState

structure Forest where
  nodes : Array Node

inductive AttachError where
  | selfReference
  | tooManyNodes (limit : Nat)
  | wouldCreateCycle
  deriving DecidableEq, Inhabited

def AttachError.message : AttachError → String
  | selfReference => "A node cannot be its own child"
  | tooManyNodes limit => "Attempted to add too many nodes (max " ++ Text.ofNat limit ++ ")"
  | wouldCreateCycle => "Adding the child would create a cycle"

namespace Forest

def empty : Forest := ⟨#[]⟩

instance : Inhabited Forest := ⟨empty⟩

def size (f : Forest) : Nat := f.nodes.size

def node? (f : Forest) (k : NodeKey) : Option Node := f.nodes[k]?

def add (f : Forest) (spec : NodeSpec) : NodeKey × Forest :=
  (f.size, ⟨f.nodes.push ⟨spec, none, [], .fresh⟩⟩)

def update (f : Forest) (k : NodeKey) (change : Node → Node) : Forest :=
  ⟨f.nodes.modify k change⟩

def updateSpec (f : Forest) (k : NodeKey) (change : NodeSpec → NodeSpec) : Forest :=
  f.update k fun n => { n with spec := change n.spec }

def setState (f : Forest) (k : NodeKey) (state : RunState) : Forest :=
  f.update k fun n => { n with state }

def children (f : Forest) (k : NodeKey) : List NodeKey := ((f.node? k).map (·.children)).getD []

def parent? (f : Forest) (k : NodeKey) : Option NodeKey := (f.node? k).bind (·.parent)

@[simp] theorem size_add (f : Forest) (spec : NodeSpec) : (f.add spec).2.size = f.size + 1 := by
  simp [add, size]

@[simp] theorem size_update (f : Forest) (k : NodeKey) (change : Node → Node) :
    (f.update k change).size = f.size := by
  simp [update, size]

theorem node?_add (f : Forest) (spec : NodeSpec) (k : NodeKey) :
    (f.add spec).2.node? k =
      if k = f.size then some ⟨spec, none, [], .fresh⟩ else f.node? k := by
  by_cases hk : k = f.nodes.size <;> simp [add, node?, size, Array.getElem?_push, hk]

theorem node?_update (f : Forest) (j : NodeKey) (change : Node → Node) (k : NodeKey) :
    (f.update j change).node? k = if k = j then (f.node? k).map change else f.node? k := by
  simp only [update, node?, Array.getElem?_modify, eq_comm]

theorem node?_eq_none_iff {f : Forest} {k : NodeKey} : f.node? k = none ↔ f.size ≤ k := by
  simp [node?, size]

theorem exists_node {f : Forest} {k : NodeKey} (h : k < f.nodes.size) : ∃ n, f.node? k = some n :=
  ⟨f.nodes[k], Array.getElem?_eq_getElem h⟩

theorem children_eq {f : Forest} {k : NodeKey} {n : Node} (h : f.node? k = some n) :
    f.children k = n.children := by
  simp [children, h]

theorem parent?_eq {f : Forest} {k : NodeKey} {n : Node} (h : f.node? k = some n) :
    f.parent? k = n.parent := by
  simp [parent?, h]

def chain (f : Forest) : (fuel : Nat) → NodeKey → List NodeKey
  | 0, _ => []
  | fuel + 1, k =>
    match f.parent? k with
    | none => []
    | some p => p :: f.chain fuel p

def ancestors (f : Forest) (k : NodeKey) : List NodeKey := f.chain f.size k

def isAncestor (f : Forest) (a k : NodeKey) : Bool := (f.ancestors k).contains a

def below (f : Forest) : (fuel : Nat) → NodeKey → List NodeKey
  | 0, _ => []
  | fuel + 1, k => (f.children k).flatMap fun c => c :: f.below fuel c

def descendants (f : Forest) (k : NodeKey) : List NodeKey := f.below f.size k

def subtree (f : Forest) (k : NodeKey) : List NodeKey := k :: f.descendants k

def detach (f : Forest) (parent child : NodeKey) : Bool × Forest :=
  if (f.children parent).contains child then
    let f := f.update parent fun n => { n with children := n.children.filter (· ≠ child) }
    (true, f.update child fun n => { n with parent := none })
  else (false, f)

def detachAll (f : Forest) (parent : NodeKey) : Forest :=
  let bare := f.update parent fun n => { n with children := [] }
  (f.children parent).foldl (fun g c => g.update c fun n => { n with parent := none }) bare

def release (f : Forest) (child : NodeKey) : Forest :=
  match f.parent? child with
  | some p => (f.detach p child).2
  | none => f

def link (f : Forest) (parent child : NodeKey) : Forest :=
  let f := f.update parent fun n => { n with children := n.children ++ [child] }
  f.update child fun n => { n with parent := some parent }

def capacity (f : Forest) (k : NodeKey) : Capacity :=
  ((f.node? k).map (·.spec.capacity)).getD (.atMost 0)

/-- Why a node that is not a child of another one yet cannot become one. The room for children is
looked at first. -/
def refusal? (f : Forest) (parent child : NodeKey) : Option AttachError :=
  match f.capacity parent with
  | .atMost limit =>
    if limit ≤ (f.children parent).length then some (.tooManyNodes limit) else cycle?
  | .unlimited => cycle?
where
  cycle? : Option AttachError :=
    if f.isAncestor child parent then some .wouldCreateCycle else none

/-- Makes a node the last child of another one; the answer and the forest afterwards. A node that
is a child already stays in its place, even where there is no room for one more. -/
def adopt (f : Forest) (parent child : NodeKey) : Except AttachError Unit × Forest :=
  if parent = child then (.error .selfReference, f)
  else if (f.children parent).contains child then (.ok (), f)
  else match f.refusal? parent child with
    | some error => (.error error, f)
    | none => (.ok (), (f.release child).link parent child)

def attach (f : Forest) (parent child : NodeKey) : Except AttachError Forest :=
  match f.adopt parent child with
  | (.ok _, f) => .ok f
  | (.error error, _) => .error error

def planTo (f : Forest) : (fuel : Nat) → NodeKey → Option Plan
  | 0, _ => none
  | fuel + 1, k => (f.node? k).map fun n => .node n.spec (n.children.filterMap (f.planTo fuel))

def progressTo (f : Forest) : (fuel : Nat) → NodeKey → Option Progress
  | 0, _ => none
  | fuel + 1, k =>
    (f.node? k).map fun n => .node n.state (n.children.filterMap (f.progressTo fuel))

def plan? (f : Forest) (k : NodeKey) : Option Plan := f.planTo f.size k

def progress? (f : Forest) (k : NodeKey) : Option Progress := f.progressTo f.size k

mutual

def store (f : Forest) (k : NodeKey) : Progress → Forest
  | .node state children => (f.setState k state).storeAll (f.children k) children

def storeAll (f : Forest) (keys : List NodeKey) : List Progress → Forest
  | [] => f
  | p :: rest =>
    match keys with
    | [] => f
    | k :: keys => (f.store k p).storeAll keys rest

end

def tick {σ : Type} (ex : Executor σ) (f : Forest) (k : NodeKey) (world : World σ) :
    Status × Forest × World σ :=
  match f.plan? k, f.progress? k with
  | some plan, some progress =>
    let (status, progress, world) := plan.tick ex progress world
    (status, f.store k progress, world)
  | _, _ => (.idle, f, world)

def reset (f : Forest) (k : NodeKey) : Forest :=
  (f.subtree k).foldl (fun g j => g.setState j .fresh) f

end Forest

end BehaviorTree
