import BehaviorTree.Datum
import BehaviorTree.Shape

/-!
Reading typed structures from data. The readers are the same for every notation; a notation only
says what its leaves mean when a text, a truth value or a number is asked for. A structure is
read from fields under its names, or from a list of its members in their order.
-/
namespace BehaviorTree

/-- What a leaf of a notation is when a certain type is asked of it. -/
class Source (α : Type) where
  text? : α → Option String
  bool? : α → Option Bool
  whole? : α → Option Int
  double? : α → Option Double
  /-- Whether a field with this value says no more than its name. -/
  saysNameOnly : α → Bool
  /-- Whether the leaf gives a value that may be left out. Some leaves are refused there. -/
  givesValue? : α → Option Bool
  /-- The name in a mark beside the leaf. One of several names is never read from a leaf that has
  one of them for its mark. -/
  mark? : α → Option String
  /-- What the leaf is in a free-form value. -/
  scalar? : α → Option Scalar

instance : Source Scalar where
  text?
    | .text s => some s
    | _ => none
  bool?
    | .bool b => some b
    | _ => none
  whole?
    | .number (.int n) => some n
    | _ => none
  double?
    | .number n => n.finite?
    | _ => none
  saysNameOnly s := s = .null
  givesValue? s := some (s ≠ .null)
  mark? _ := none
  scalar? := some

/-- Leaves that may stand for no value at all, as long as nobody reads them. -/
instance {α : Type} [Source α] : Source (Option α) where
  text? leaf := leaf.bind Source.text?
  bool? leaf := leaf.bind Source.bool?
  whole? leaf := leaf.bind Source.whole?
  double? leaf := leaf.bind Source.double?
  saysNameOnly leaf := leaf.any Source.saysNameOnly
  givesValue? leaf := leaf.bind Source.givesValue?
  mark? leaf := leaf.bind Source.mark?
  scalar? leaf := leaf.bind Source.scalar?

namespace Datum

variable {α β : Type} [Source α]

def text? : Datum α → Option String
  | leaf a => Source.text? a
  | _ => none

def bool? : Datum α → Option Bool
  | leaf a => Source.bool? a
  | _ => none

def nat? (bound : Nat) : Datum α → Option Nat
  | leaf a => (Source.whole? a).bind fun n =>
      if 0 ≤ n ∧ n ≤ bound then some n.toNat else none
  | _ => none

def double? : Datum α → Option Double
  | leaf a => Source.double? a
  | _ => none

def saysNameOnly : Datum α → Bool
  | leaf a => Source.saysNameOnly a
  | _ => false

def givesValue? : Datum α → Option Bool
  | leaf a => Source.givesValue? a
  | _ => some true

def nullable? (read : Datum α → Option β) (d : Datum α) : Option (Option β) :=
  d.givesValue?.bind fun given => if given then (read d).map some else some none

def list? (read : Datum α → Option β) : Datum α → Option (List β)
  | list items => items.mapM read
  | _ => none

def dict? (read : Datum α → Option β) : Datum α → Option (Dict β)
  | fields entries => (entries.mapM fun e => (read e.2).map (e.1, ·)).map Dict.ofList
  | _ => none

def variant? (names : List (String × β)) : Datum α → Option β
  | leaf a =>
    if (Source.mark? a).any fun mark => (names.lookup mark).isSome then none
    else (Source.text? a).bind fun name => names.lookup name
  | fields [(name, d)] => if d.saysNameOnly then names.lookup name else none
  | _ => none

mutual

def json? : Datum α → Option Json
  | leaf a => (Source.scalar? a).map .leaf
  | list items => (jsonItems? items).map .list
  | fields entries => (jsonEntries? entries).map fun es => Json.ofDict (.ofList es)

def jsonItems? : List (Datum α) → Option (List Json)
  | [] => some []
  | d :: rest => do
    let v ← json? d
    let vs ← jsonItems? rest
    some (v :: vs)

def jsonEntries? : List (String × Datum α) → Option (List (String × Json))
  | [] => some []
  | (name, d) :: rest => do
    let v ← json? d
    let vs ← jsonEntries? rest
    some ((name, v) :: vs)

end

end Datum

abbrev Members (α : Type) := String → Option (Datum α)

namespace Members

variable {α β : Type} [Source α]

def ofDatum? (names : List String) : Datum α → Option (Members α)
  | .leaf _ => none
  | .fields entries =>
    if names.any fun name => 1 < (entries.map (·.1)).count name then none
    else some fun name => entries.lookup name
  | .list items =>
    if names.length < items.length then none
    else some fun name => (names.zip items).lookup name

def required (m : Members α) (name : String) (read : Datum α → Option β) : Option β :=
  (m name).bind read

def withDefault (m : Members α) (name : String) (default : β) (read : Datum α → Option β) :
    Option β :=
  match m name with
  | none => some default
  | some d => read d

def nullable (m : Members α) (name : String) (read : Datum α → Option β) : Option (Option β) :=
  m.withDefault name none (Datum.nullable? read)

end Members

end BehaviorTree
