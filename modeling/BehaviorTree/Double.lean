/-!
Binary64 numbers, held as their 64 bits and computed with exactly.

The magnitude of a number is its word without the sign bit. Finite magnitudes ascend with the
values they stand for, so comparing words compares numbers, and the word just above is the next
number up. Rounding therefore works on one exact fraction of natural numbers and yields a word;
a magnitude past the largest finite one is an infinity.
-/
namespace BehaviorTree

structure Double where
  bits : UInt64
  deriving DecidableEq, Inhabited

namespace Double

def signBit : Nat := Nat.pow 2 63

def infinityMagnitude : Nat := 2047 * Nat.pow 2 52

def magnitude (x : Double) : Nat := x.bits.toNat % signBit

def isNegative (x : Double) : Bool := signBit ≤ x.bits.toNat

def isNaN (x : Double) : Bool := infinityMagnitude < x.magnitude

def isFinite (x : Double) : Bool := x.magnitude < infinityMagnitude

def ofMagnitude (negative : Bool) (magnitude : Nat) : Double :=
  ⟨UInt64.ofNat (if negative then signBit + magnitude else magnitude)⟩

def zero : Double := ofMagnitude false 0

def infinity (negative : Bool) : Double := ofMagnitude negative infinityMagnitude

def notANumber : Double := ofMagnitude false (infinityMagnitude + Nat.pow 2 51)

def significand (magnitude : Nat) : Nat :=
  if magnitude < Nat.pow 2 53 then magnitude else magnitude % Nat.pow 2 52 + Nat.pow 2 52

def quantum (magnitude : Nat) : Int :=
  if magnitude < Nat.pow 2 53 then -1074 else (magnitude / Nat.pow 2 52 : Nat) - 1075

def shift (num den : Nat) (power : Int) : Nat × Nat :=
  if 0 ≤ power then (num * Nat.pow 2 power.toNat, den) else (num, den * Nat.pow 2 (-power).toNat)

def roundHalfEven (num den : Nat) : Nat :=
  let whole := num / den
  let twice := 2 * (num % den)
  if twice < den then whole
  else if den < twice then whole + 1
  else whole + whole % 2

def binaryExponent (num den : Nat) : Int :=
  let guess : Int := (num.log2 : Int) - den.log2
  let (n, d) := shift num den (-guess)
  if n < d then guess - 1 else guess

/-- The magnitude nearest to a fraction. The significand has 53 binary digits, fewer only
below the least normal number; a carry out of it moves on to the next exponent by itself. -/
def roundMagnitude (num den : Nat) : Nat :=
  if num = 0 then 0
  else
    let power := max (binaryExponent num den - 52) (-1074)
    let (n, d) := shift num den (-power)
    min ((power + 1074).toNat * Nat.pow 2 52 + roundHalfEven n d) infinityMagnitude

def ofRatio (negative : Bool) (num den : Nat) : Double :=
  ofMagnitude negative (roundMagnitude num den)

def ofNat (n : Nat) : Double := ofRatio false n 1

def ofInt (n : Int) : Double := ofRatio (n < 0) n.natAbs 1

def fraction (magnitude : Nat) : Nat × Nat :=
  shift (significand magnitude) 1 (quantum magnitude)

def mul (x y : Double) : Double :=
  let (a, b) := fraction x.magnitude
  let (c, d) := fraction y.magnitude
  ofRatio (x.isNegative != y.isNegative) (a * c) (b * d)

def div (x y : Double) : Double :=
  let (a, b) := fraction x.magnitude
  let (c, d) := fraction y.magnitude
  ofRatio (x.isNegative != y.isNegative) (a * d) (b * c)

def neg (x : Double) : Double := ofMagnitude (!x.isNegative) x.magnitude

def rank (x : Double) : Int := if x.isNegative then -(x.magnitude : Int) else x.magnitude

def compare? (x y : Double) : Option Ordering :=
  if x.isNaN || y.isNaN then none else some (compare x.rank y.rank)

def le (x y : Double) : Bool := !x.isNaN && !y.isNaN && x.rank ≤ y.rank

def equal (x y : Double) : Bool := !x.isNaN && !y.isNaN && x.rank == y.rank

def isWhole (x : Double) : Bool :=
  x.isFinite && (fraction x.magnitude).1 % (fraction x.magnitude).2 == 0

/-- The whole part of a finite number; an infinity is as far out as no finite number. -/
def truncate (x : Double) : Int :=
  let whole : Nat :=
    if x.isFinite then (fraction x.magnitude).1 / (fraction x.magnitude).2 else Nat.pow 2 1024
  if x.isNegative then -(whole : Int) else whole

def clamp (low high : Int) (x : Double) : Int := max low (min high x.truncate)

end Double

end BehaviorTree
