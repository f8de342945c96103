import BehaviorTree.Datum

/-!
Writing typed structures as data, the counterpart of reading them. A notation only says what
leaves it has for scalars and for floats, which in a structure need not be finite.
-/
namespace BehaviorTree

class Sink (α : Type) where
  scalar : Scalar → α
  double : Double → α

/-- Values have no floats beyond the finite ones; null stands in their place. -/
instance : Sink Scalar where
  scalar := id
  double x := (Number.ofDouble? x).elim .null .number

namespace Datum

variable {α : Type} [Sink α]

mutual

def ofJson : Json → Datum α
  | leaf s => leaf (Sink.scalar s)
  | list items => list (ofJsonItems items)
  | fields entries => fields (ofJsonEntries entries)

def ofJsonItems : List Json → List (Datum α)
  | [] => []
  | v :: rest => ofJson v :: ofJsonItems rest

def ofJsonEntries : List (String × Json) → List (String × Datum α)
  | [] => []
  | (name, v) :: rest => (name, ofJson v) :: ofJsonEntries rest

end

def text (s : String) : Datum α := leaf (Sink.scalar (.text s))

def bool (b : Bool) : Datum α := leaf (Sink.scalar (.bool b))

def nat (n : Nat) : Datum α := leaf (Sink.scalar (.number (.int n)))

def null : Datum α := leaf (Sink.scalar .null)

def double (x : Double) : Datum α := leaf (Sink.double x)

def ofDict (d : Dict Json) : Datum α := fields (ofJsonEntries d.entries)

def field? {β : Type} (name : String) (write : β → Datum α) (value : Option β) :
    List (String × Datum α) :=
  match value with
  | some v => [(name, write v)]
  | none => []

def orNull {β : Type} (write : β → Datum α) (value : Option β) : Datum α :=
  value.elim null write

end Datum

end BehaviorTree
