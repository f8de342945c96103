import BehaviorTree.Yaml.Leaf

/-!
A YAML document as a tree in which some nodes only refer to others, and as the datum that results
when every reference that is looked at is replaced by what it refers to. Since a node may contain a
reference to itself, the datum ends at a certain depth, and it has room for only so many
references. What lies beyond stays open, and so does what is not looked at: it can only be passed
over unread, and its references do not count.
-/
namespace BehaviorTree.Yaml

inductive Node where
  | scalar (leaf : Leaf)
  | list (items : List Node)
  | pairs (entries : List (Node × Node))
  | reference (anchor : Nat)

namespace Node

def absent : Node := .scalar .absent

mutual

def size : Node → Nat
  | .scalar _ => 1
  | .list items => sizeOfItems items + 2
  | .pairs entries => sizeOfPairs entries + 2
  | .reference _ => 1

def sizeOfItems : List Node → Nat
  | [] => 0
  | node :: rest => size node + sizeOfItems rest

def sizeOfPairs : List (Node × Node) → Nat
  | [] => 0
  | (key, value) :: rest => size key + size value + sizeOfPairs rest

end

end Node

/-- A document has a root, and a node for every anchor. -/
structure Document where
  root : Node
  targets : List (Nat × Node)

namespace Document

def follow (doc : Document) : Node → StateM Nat (Option Node)
  | .reference anchor => do
    match ← get with
    | 0 => return none
    | left + 1 => set left; return doc.targets.lookup anchor
  | node => return some node

def depthLimit : Nat := 128

def underReference : Datum (Option Leaf) → Datum (Option Leaf)
  | .leaf (some leaf) => .leaf (some { leaf with isNamedByReference := true })
  | value => value

def field? (doc : Document) (shape : Shape)
    (expand : Option Shape → Node → StateM Nat (Datum (Option Leaf))) (entry : Node × Node) :
    StateM Nat (Option (String × Datum (Option Leaf))) := do
  match ← doc.follow entry.1 with
  | some (.scalar leaf) =>
    let value ← expand (shape.field? leaf.text) entry.2
    match entry.1 with
    | .reference _ => return some (leaf.text, underReference value)
    | _ => return some (leaf.text, value)
  | _ => return none

/-- A node as a datum, as far as it is looked at; the rest stays open. -/
def expand (doc : Document) :
    (depth : Nat) → Option Shape → Node → StateM Nat (Datum (Option Leaf))
  | _, none, _ => return .leaf none
  | 0, some _, node => do
    match ← doc.follow node with
    | some (.scalar leaf) => return .leaf (some leaf)
    | _ => return .leaf none
  | depth + 1, some shape, node => do
    match ← doc.follow node with
    | some (.scalar leaf) => return .leaf (some leaf)
    | some (.list items) =>
      return .list (← items.zipIdx.mapM fun item => expand doc depth (shape.item? item.2) item.1)
    | some (.pairs entries) =>
      let fields ← entries.mapM (doc.field? shape (expand doc depth))
      return (fields.mapM id).elim (.leaf none) .fields
    | _ => return .leaf none

def referenceFactor : Nat := 100

def datum (doc : Document) (shape : Shape) : Datum (Option Leaf) :=
  (doc.expand depthLimit (some shape) doc.root (referenceFactor * doc.root.size)).1

end Document

end BehaviorTree.Yaml
