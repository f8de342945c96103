import BehaviorTree.Decimal
import BehaviorTree.Dict

/-!
Data as documents hold it: leaves, lists, and fields under names. Every notation has its own
kind of leaf. A JSON value is a datum with the leaves of `Scalar`.

A number keeps apart what was written as a whole number and what was written as a float, and a
float in a value is always finite.
-/
namespace BehaviorTree

inductive Number where
  | int (value : Int)
  | float (value : Double) (finite : value.isFinite = true)
  deriving DecidableEq

namespace Number

def ofDouble? (x : Double) : Option Number :=
  if h : x.isFinite = true then some (.float x h) else none

def toDouble : Number → Double
  | .int n => .ofInt n
  | .float x _ => x

def finite? (n : Number) : Option Double :=
  if n.toDouble.isFinite then some n.toDouble else none

def signed? : Number → Option Int
  | .int n => if Text.minSigned64 ≤ n ∧ n ≤ Text.maxSigned64 then some n else none
  | .float _ _ => none

def unsigned? : Number → Option Nat
  | .int n => if 0 ≤ n ∧ n ≤ Text.maxUnsigned64 then some n.toNat else none
  | .float _ _ => none

def isWhole : Number → Bool
  | .int _ => true
  | .float x _ => x.isWhole

def layout : Decimal.Layout := ⟨"+"⟩

def render : Number → String
  | .int n => Text.ofInt n
  | .float x _ => Decimal.ofFinite layout x

end Number

inductive Scalar where
  | null
  | bool (value : Bool)
  | number (value : Number)
  | text (value : String)
  deriving DecidableEq, Inhabited

inductive Datum (α : Type) where
  | leaf (value : α)
  | list (items : List (Datum α))
  | fields (entries : List (String × Datum α))

abbrev Json := Datum Scalar

namespace Datum

variable {α : Type}

mutual

def decideEq [DecidableEq α] : (a b : Datum α) → Decidable (a = b)
  | .leaf x, .leaf y =>
    if h : x = y then .isTrue (h ▸ rfl) else .isFalse fun e => h (Datum.leaf.inj e)
  | .list xs, .list ys =>
    match decideEqItems xs ys with
    | .isTrue h => .isTrue (h ▸ rfl)
    | .isFalse h => .isFalse fun e => h (Datum.list.inj e)
  | .fields xs, .fields ys =>
    match decideEqEntries xs ys with
    | .isTrue h => .isTrue (h ▸ rfl)
    | .isFalse h => .isFalse fun e => h (Datum.fields.inj e)
  | .leaf _, .list _ => .isFalse nofun
  | .leaf _, .fields _ => .isFalse nofun
  | .list _, .leaf _ => .isFalse nofun
  | .list _, .fields _ => .isFalse nofun
  | .fields _, .leaf _ => .isFalse nofun
  | .fields _, .list _ => .isFalse nofun

def decideEqItems [DecidableEq α] : (xs ys : List (Datum α)) → Decidable (xs = ys)
  | [], [] => .isTrue rfl
  | [], _ :: _ => .isFalse nofun
  | _ :: _, [] => .isFalse nofun
  | x :: xs, y :: ys =>
    match decideEq x y, decideEqItems xs ys with
    | .isTrue h, .isTrue t => .isTrue (h ▸ t ▸ rfl)
    | .isFalse h, _ => .isFalse fun e => h (List.cons.inj e).1
    | _, .isFalse t => .isFalse fun e => t (List.cons.inj e).2

def decideEqEntries [DecidableEq α] :
    (xs ys : List (String × Datum α)) → Decidable (xs = ys)
  | [], [] => .isTrue rfl
  | [], _ :: _ => .isFalse nofun
  | _ :: _, [] => .isFalse nofun
  | (k, x) :: xs, (l, y) :: ys =>
    if hk : k = l then
      match decideEq x y, decideEqEntries xs ys with
      | .isTrue h, .isTrue t => .isTrue (hk ▸ h ▸ t ▸ rfl)
      | .isFalse h, _ => .isFalse fun e => h (Prod.mk.inj (List.cons.inj e).1).2
      | _, .isFalse t => .isFalse fun e => t (List.cons.inj e).2
    else .isFalse fun e => hk (Prod.mk.inj (List.cons.inj e).1).1

end

instance [DecidableEq α] : DecidableEq (Datum α) := decideEq

end Datum

namespace Json

def null : Json := .leaf .null

def bool (b : Bool) : Json := .leaf (.bool b)

def text (s : String) : Json := .leaf (.text s)

def int (n : Int) : Json := .leaf (.number (.int n))

def float (x : Double) : Json :=
  match Number.ofDouble? x with
  | some n => .leaf (.number n)
  | none => null

def ofDict (d : Dict Json) : Json := .fields d.entries

instance : Inhabited Json := ⟨null⟩

def number? : Json → Option Number
  | .leaf (.number n) => some n
  | _ => none

def text? : Json → Option String
  | .leaf (.text s) => some s
  | _ => none

def bool? : Json → Option Bool
  | .leaf (.bool b) => some b
  | _ => none

def list? : Json → Option (List Json)
  | .list items => some items
  | _ => none

def fields? : Json → Option (Dict Json)
  | .fields entries => some (.ofList entries)
  | _ => none

def get? (v : Json) (name : String) : Option Json := v.fields?.bind (·.get? name)

end Json

end BehaviorTree
