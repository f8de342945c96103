import BehaviorTree.Datum

/-!
The blackboard: the values that all nodes of a tree share, and for every key the nodes that have
read or written it. Reading and writing on behalf of a node records the node; deleting a key
forgets its nodes, and so does replacing the whole contents.
-/
namespace BehaviorTree

abbrev NameSet := Dict Unit

def NameSet.add (names : NameSet) (name : String) : NameSet := Dict.insert names name ()

structure Blackboard where
  data : Dict Json
  users : Dict NameSet
  deriving DecidableEq

namespace Blackboard

def empty : Blackboard := ⟨.empty, .empty⟩

instance : Inhabited Blackboard := ⟨empty⟩

def get? (b : Blackboard) (key : String) : Option Json := b.data.get? key

def has (b : Blackboard) (key : String) : Bool := b.data.contains key

def track (b : Blackboard) (key node : String) : Blackboard :=
  { b with users := b.users.insert key (((b.users.get? key).getD .empty).add node) }

def getBy (b : Blackboard) (key node : String) : Option Json × Blackboard :=
  (b.get? key, b.track key node)

def set (b : Blackboard) (key : String) (value : Json) : Blackboard :=
  { b with data := b.data.insert key value }

def setBy (b : Blackboard) (key : String) (value : Json) (node : String) : Blackboard :=
  (b.track key node).set key value

def delete (b : Blackboard) (key : String) : Blackboard :=
  ⟨b.data.erase key, b.users.erase key⟩

def users? (b : Blackboard) (key : String) : Option (List String) :=
  (b.users.get? key).map Dict.keys

def ofData (data : Dict Json) : Blackboard := ⟨data, .empty⟩

def copy (b : Blackboard) : Blackboard := ofData b.data

end Blackboard

end BehaviorTree
