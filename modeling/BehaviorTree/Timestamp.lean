import BehaviorTree.Text

/-!
Points in time on the proleptic Gregorian calendar, in universal time. They are read from RFC 3339
texts with some freedom (blanks between the parts, a blank or a small `t` before the time, parts
without zeros in front) and written in one way.
-/
namespace BehaviorTree

/-- Days since 1970-01-01, seconds since midnight, and nanoseconds, which run up to twice a second
during a leap second. -/
structure Timestamp where
  day : Int
  second : Nat
  nano : Nat
  deriving DecidableEq, Inhabited

namespace Timestamp

def epoch : Timestamp := ⟨0, 0, 0⟩

def isLeapYear (year : Int) : Bool :=
  year % 4 == 0 && (year % 100 != 0 || year % 400 == 0)

def daysInMonth (year : Int) (month : Nat) : Nat :=
  if month = 2 then (if isLeapYear year then 29 else 28)
  else if month = 4 ∨ month = 6 ∨ month = 9 ∨ month = 11 then 30
  else 31

/-- The number of a date. Years are counted from March, so that the leap day is their last; an era
is the 400 years after which the calendar repeats. -/
def dayNumber (year : Int) (month day : Nat) : Int :=
  let y := if month ≤ 2 then year - 1 else year
  let era := y / 400
  let yearOfEra := y % 400
  let dayOfYear : Int := ((153 * ((month + 9) % 12) + 2) / 5 + day - 1 : Nat)
  let dayOfEra := yearOfEra * 365 + yearOfEra / 4 - yearOfEra / 100 + dayOfYear
  era * 146097 + dayOfEra - 719468

def civil (number : Int) : Int × Nat × Nat :=
  let shifted := number + 719468
  let era := shifted / 146097
  let dayOfEra := (shifted % 146097).toNat
  let yearOfEra :=
    (dayOfEra - dayOfEra / 1460 + dayOfEra / 36524 - dayOfEra / 146096) / 365
  let dayOfYear := dayOfEra - (365 * yearOfEra + yearOfEra / 4 - yearOfEra / 100)
  let marchMonth := (5 * dayOfYear + 2) / 153
  let day := dayOfYear - (153 * marchMonth + 2) / 5 + 1
  let month := if marchMonth < 10 then marchMonth + 3 else marchMonth - 9
  let year := era * 400 + yearOfEra
  (if month ≤ 2 then year + 1 else year, month, day)

def firstYear : Int := -262143

def lastYear : Int := 262142

def skipBlanks (cs : List Char) : List Char := cs.dropWhile Text.isBlank

def digits? (width : Nat) (cs : List Char) : Option (Nat × List Char) :=
  let digits := ((skipBlanks cs).take width).takeWhile Text.isDigit
  (Text.readNat? 10 digits).map (·, (skipBlanks cs).drop digits.length)

def year? (cs : List Char) : Option (Int × List Char) :=
  match skipBlanks cs with
  | '-' :: rest => (unbounded rest).map fun (n, left) => (-(n : Int), left)
  | '+' :: rest => (unbounded rest).map fun (n, left) => ((n : Int), left)
  | rest => (digits? 4 rest).map fun (n, left) => ((n : Int), left)
where
  unbounded (cs : List Char) : Option (Nat × List Char) :=
    let digits := cs.takeWhile Text.isDigit
    (Text.readNat? 10 digits).map (·, cs.drop digits.length)

def mark? (mark : Char) (cs : List Char) : Option (List Char) :=
  match skipBlanks cs with
  | c :: rest => if c = mark then some rest else none
  | [] => none

def fraction? : List Char → Option (Nat × List Char)
  | '.' :: rest =>
    let digits := rest.takeWhile Text.isDigit
    let kept := digits.take 9
    (Text.readNat? 10 kept).map fun n => (n * Nat.pow 10 (9 - kept.length), rest.drop digits.length)
  | rest => some (0, rest)

def offsetMinutes? : List Char → Option (Nat × List Char)
  | a :: b :: rest =>
    match rest.dropWhile fun c => c = ':' || Text.isBlank c with
    | c :: d :: left =>
      (Text.readNat? 10 [a, b]).bind fun hours =>
        (Text.readNat? 10 [c, d]).bind fun minutes =>
          if minutes < 60 then some (hours * 60 + minutes, left) else none
    | _ => none
  | _ => none

def zone? (cs : List Char) : Option (Int × List Char) :=
  let cs := skipBlanks cs
  if (cs.take 3).map Char.toLower = ['u', 't', 'c'] then some (0, cs.drop 3)
  else match cs with
    | 'Z' :: rest => some (0, rest)
    | 'z' :: rest => some (0, rest)
    | '+' :: rest => (offsetMinutes? rest).map fun (n, left) => ((n : Int), left)
    | '-' :: rest => (offsetMinutes? rest).map fun (n, left) => (-(n : Int), left)
    | '−' :: rest => (offsetMinutes? rest).map fun (n, left) => (-(n : Int), left)
    | _ => none

/-- The point in time of a local date and time at a distance from universal time, where all of
them exist. The second 60 is the leap second within the 59th. -/
def ofLocal? (year : Int) (month day hour minute second nano : Nat) (offset : Int) :
    Option Timestamp :=
  if firstYear ≤ year ∧ year ≤ lastYear ∧ 1 ≤ month ∧ month ≤ 12 ∧ 1 ≤ day ∧
      day ≤ daysInMonth year month ∧ hour < 24 ∧ minute < 60 ∧ second ≤ 60 ∧
      offset.natAbs < 24 * 60 then
    let (second, nano) := if second = 60 then (59, nano + Nat.pow 10 9) else (second, nano)
    let time : Int := (hour * 3600 + minute * 60 + second : Nat) - offset * 60
    let day := dayNumber year month day + time / 86400
    if dayNumber firstYear 1 1 ≤ day ∧ day ≤ dayNumber lastYear 12 31 then
      some ⟨day, (time % 86400).toNat, nano⟩
    else none
  else none

def read? (text : String) : Option Timestamp := do
  let (year, rest) ← year? text.toList
  let rest ← mark? '-' rest
  let (month, rest) ← digits? 2 rest
  let rest ← mark? '-' rest
  let (day, rest) ← digits? 2 rest
  let rest ← match rest with
    | c :: rest => if c = 't' ∨ c = 'T' ∨ c = ' ' then some rest else none
    | [] => none
  let (hour, rest) ← digits? 2 rest
  let rest ← mark? ':' rest
  let (minute, rest) ← digits? 2 rest
  let rest ← mark? ':' rest
  let (second, rest) ← digits? 2 rest
  let (nano, rest) ← fraction? rest
  let (offset, rest) ← zone? rest
  if (skipBlanks rest).isEmpty then ofLocal? year month day hour minute second nano offset
  else none

def renderYear (year : Int) : String :=
  if 0 ≤ year ∧ year ≤ 9999 then Text.padded 10 4 year.toNat
  else
    let digits := Text.ofNat year.natAbs
    let width := max 4 digits.length
    (if year < 0 then "-" else "+") ++ Text.padded 10 width year.natAbs

def renderFraction (nano : Nat) : String :=
  if nano = 0 then ""
  else if nano % 1000000 = 0 then "." ++ Text.padded 10 3 (nano / 1000000)
  else if nano % 1000 = 0 then "." ++ Text.padded 10 6 (nano / 1000)
  else "." ++ Text.padded 10 9 nano

def render (t : Timestamp) : String :=
  let (year, month, day) := civil t.day
  let isLeap := Nat.pow 10 9 ≤ t.nano
  let second := t.second % 60 + if isLeap then 1 else 0
  let nano := if isLeap then t.nano - Nat.pow 10 9 else t.nano
  renderYear year ++ "-" ++ Text.padded 10 2 month ++ "-" ++ Text.padded 10 2 day ++ "T" ++
    Text.padded 10 2 (t.second / 3600) ++ ":" ++ Text.padded 10 2 (t.second / 60 % 60) ++ ":" ++
    Text.padded 10 2 second ++ renderFraction nano ++ "Z"

end Timestamp

end BehaviorTree
