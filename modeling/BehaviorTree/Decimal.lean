import BehaviorTree.Double
import BehaviorTree.Text

/-!
Decimal numerals and binary64 numbers. Reading a numeral rounds its exact value once. Writing a
number picks, among the numerals that read back as it, those with the fewest digits, and of
these the one nearest to its exact value.
-/
namespace BehaviorTree

structure Decimal where
  digits : Nat
  exponent : Int
  deriving DecidableEq

namespace Decimal

def scale (num den : Nat) (power : Int) : Nat × Nat :=
  if 0 ≤ power then (num * Nat.pow 10 power.toNat, den) else (num, den * Nat.pow 10 (-power).toNat)

def length (d : Decimal) : Nat := (Nat.toDigits 10 d.digits).length

/-- The magnitude nearest to a numeral. Numerals with a leading digit above the place of
`10 ^ 309` or below that of `10 ^ -330` round to infinity and zero, whatever their digits. -/
def magnitude (d : Decimal) : Nat :=
  if d.digits = 0 then 0
  else if 310 < d.length + d.exponent then Double.infinityMagnitude
  else if d.length + d.exponent < -330 then 0
  else
    let (num, den) := scale d.digits 1 d.exponent
    Double.roundMagnitude num den

def toDouble (negative : Bool) (d : Decimal) : Double := Double.ofMagnitude negative d.magnitude

def leadingPlace (num den : Nat) : Int :=
  let guess := Double.binaryExponent num den * 30103 / 100000
  let (n, d) := scale num den (-(guess + 1))
  if n < d then guess else guess + 1

/-- Of the two numerals beside a magnitude that end in a given place, the one that reads back
as it, the nearer one if both do, the even one if both are as near. -/
def ending? (magnitude : Nat) (place : Int) : Option Decimal :=
  let (num, den) := Double.fraction magnitude
  let (n, d) := scale num den (-place)
  let low : Decimal := ⟨n / d, place⟩
  let high : Decimal := ⟨n / d + 1, place⟩
  match low.magnitude == magnitude, high.magnitude == magnitude with
  | true, true =>
    let twice := 2 * (n % d)
    if twice < d then low
    else if d < twice then high
    else if low.digits % 2 = 0 then low else high
  | true, false => low
  | false, true => high
  | false, false => none

def strip : (fuel : Nat) → Decimal → Decimal
  | 0, d => d
  | fuel + 1, d =>
    if d.digits ≠ 0 ∧ d.digits % 10 = 0 then strip fuel ⟨d.digits / 10, d.exponent + 1⟩ else d

/-- The shortest numeral that reads back as a finite magnitude. Seventeen digits always do. -/
def shortest (magnitude : Nat) : Decimal :=
  if magnitude = 0 then ⟨0, 0⟩
  else
    let (num, den) := Double.fraction magnitude
    let top := leadingPlace num den
    let found := (List.range 17).findSome? fun n : Nat => ending? magnitude (top - n)
    strip 20 (found.getD ⟨0, 0⟩)

def zeros (n : Nat) : String := String.ofList (List.replicate n '0')

structure Layout where
  /-- What stands before an exponent above zero. -/
  plus : String

/-- A numeral as text: with a point and at least one digit on each side of it from `0.00001` up to
sixteen digits before the point; otherwise with an exponent after the digits, a point after the
first of several. -/
def render (layout : Layout) (d : Decimal) : String :=
  let digits := Nat.toDigits 10 d.digits
  let count := digits.length
  let point : Int := count + d.exponent
  if d.digits = 0 then "0.0"
  else if 0 ≤ d.exponent ∧ point ≤ 16 then
    String.ofList digits ++ zeros d.exponent.toNat ++ ".0"
  else if 0 < point ∧ point ≤ 16 then
    String.ofList (digits.take point.toNat) ++ "." ++ String.ofList (digits.drop point.toNat)
  else if -5 < point ∧ point ≤ 0 then
    "0." ++ zeros (-point).toNat ++ String.ofList digits
  else
    let lead := String.ofList (digits.take 1)
    let tail := if count = 1 then "" else "." ++ String.ofList (digits.drop 1)
    let power := point - 1
    let sign := if power < 0 then "" else layout.plus
    lead ++ tail ++ "e" ++ sign ++ Text.ofInt power

def ofFinite (layout : Layout) (x : Double) : String :=
  (if x.isNegative then "-" else "") ++ render layout (shortest x.magnitude)

end Decimal

/-- A numeral as it is written: digits before and after the point, and an exponent. -/
structure Numeral where
  negative : Bool
  whole : List Char
  fraction : List Char
  exponent : Int
  deriving DecidableEq

namespace Numeral

def digitsValue (cs : List Char) : Nat := (Text.continueNat? 10 0 cs).getD 0

def decimal (n : Numeral) : Decimal :=
  ⟨digitsValue (n.whole ++ n.fraction), n.exponent - n.fraction.length⟩

def toDouble (n : Numeral) : Double := n.decimal.toDouble n.negative

inductive Scan where
  | absent
  /-- An exponent mark without digits after it. -/
  | badExponent
  | found (n : Numeral) (rest : List Char)

def splitSign : List Char → Bool × List Char
  | '-' :: cs => (true, cs)
  | '+' :: cs => (false, cs)
  | cs => (false, cs)

def scanDigits (cs : List Char) : Option (List Char × List Char × List Char) :=
  let whole := cs.takeWhile Text.isDigit
  match cs.dropWhile Text.isDigit with
  | '.' :: rest =>
    let fraction := rest.takeWhile Text.isDigit
    if whole.isEmpty && fraction.isEmpty then none
    else some (whole, fraction, rest.dropWhile Text.isDigit)
  | rest => if whole.isEmpty then none else some (whole, [], rest)

def scanExponent : List Char → Option (Int × List Char)
  | [] => some (0, [])
  | c :: cs =>
    if c = 'e' ∨ c = 'E' then
      let (negative, rest) := splitSign cs
      let digits := rest.takeWhile Text.isDigit
      let value : Int := digitsValue digits
      if digits.isEmpty then none
      else some (if negative then -value else value, rest.dropWhile Text.isDigit)
    else some (0, c :: cs)

def scan (cs : List Char) : Scan :=
  let (negative, body) := splitSign cs
  match scanDigits body with
  | none => .absent
  | some (whole, fraction, rest) =>
    match scanExponent rest with
    | none => .badExponent
    | some (exponent, rest) => .found ⟨negative, whole, fraction, exponent⟩ rest

def lower (cs : List Char) : List Char := cs.map Char.toLower

def read? (cs : List Char) : Option Double :=
  match scan cs with
  | .found n [] => some n.toDouble
  | .found _ _ => none
  | .badExponent => none
  | .absent =>
    let (negative, word) := splitSign cs
    if lower word ∈ ["inf".toList, "infinity".toList] then some (.infinity negative)
    else if lower word = "nan".toList then some .notANumber
    else none

end Numeral

end BehaviorTree
