import BehaviorTree.Reading

/-!
How often a running tree ticks, in ticks per second. Rates are read as they are and take effect
clamped between one and sixty.
-/
namespace BehaviorTree.TickRate

def slowest : Nat := 1

def fastest : Nat := 60

def standard : Nat := 10

def clamp (rate : Nat) : Nat := max slowest (min fastest rate)

def second : Nat := Nat.pow 10 9

def interval (rate : Nat) : Nat := second / clamp rate

def fieldName : String := "tickRate"

def shape : Shape := .ofNames [fieldName]

def read? {α : Type} [Source α] (d : Datum α) : Option Nat := do
  let m ← Members.ofDatum? [fieldName] d
  m.withDefault fieldName standard (Datum.nat? Text.maxUnsigned32)

end BehaviorTree.TickRate
