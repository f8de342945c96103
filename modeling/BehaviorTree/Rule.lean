import BehaviorTree.Datum

/-!
Rules that restrict the value of a parameter. Only `required` asks for a value; every other rule
restricts the values that are there, and null counts as no value.
-/
namespace BehaviorTree

inductive Rule where
  | required
  | min (bound : Double)
  | max (bound : Double)
  | range (low high : Double)
  /-- Closed bounds on the number of characters of a text or of items of a list. -/
  | length (low high : Nat)
  | oneOf (options : List Scalar)
  deriving DecidableEq

namespace Rule

def length? : Json → Option Nat
  | .leaf (.text s) => some s.length
  | .list items => some items.length
  | _ => none

/-- Numbers are equal if their nearest floats are; all else has to be the same. -/
def matchesOption (option : Scalar) (value : Json) : Bool :=
  match option, value with
  | .number m, .leaf (.number n) => m.toDouble.equal n.toDouble
  | option, value => value = .leaf option

def admits (rule : Rule) (value : Json) : Bool :=
  let number := (Json.number? value).map Number.toDouble
  match rule with
  | required => true
  | min bound => number.any fun x => bound.le x
  | max bound => number.any fun x => x.le bound
  | range low high => number.any fun x => low.le x && x.le high
  | length low high => (length? value).any fun n => low ≤ n && n ≤ high
  | oneOf options => options.any (matchesOption · value)

def holds (rule : Rule) (value : Option Json) : Bool :=
  match value with
  | none => rule ≠ required
  | some v => if v = Json.null then rule ≠ required else rule.admits v

end Rule

end BehaviorTree
