/-!
Which parts of a datum a reader looks at. What a structure does not name is passed over, so that
it may hold what has no value.
-/
namespace BehaviorTree

inductive Shape where
  | whole
  | each (part : Shape)
  | members (names : List (String × Shape))

namespace Shape

def ofNames (names : List String) : Shape := members (names.map (·, whole))

def refine (shape : Shape) (name : String) (part : Shape) : Shape :=
  match shape with
  | members names => members (names.map fun m => if m.1 = name then (name, part) else m)
  | shape => shape

def field? (name : String) : Shape → Option Shape
  | whole => some whole
  | each part => some part
  | members names => names.lookup name

/-- The shape of an item of a list, if it is looked at: a list gives the members of a structure in
their order. -/
def item? (index : Nat) : Shape → Option Shape
  | whole => some whole
  | each part => some part
  | members names => names[index]?.map (·.2)

end Shape

end BehaviorTree
