import BehaviorTree.Rule

/-!
Rules as text: `required`, `min(0)`, `max(10.5)`, `range(1, 5)`, `length(1, 32)` and
`one_of("left", up, 3, true)`. Spaces and tabs may stand around parentheses, commas and arguments,
line breaks too around a quoted text. In `one_of` a bare word is a text, except for `true` and
`false`.

A reader takes what it can from the front of a text. It refuses either mildly, and then another
kind of rule may still fit, or for good: after a number with an incomplete exponent, and after a
count that is negative, fractional or not finite.
-/
namespace BehaviorTree.RuleText

inductive Refusal where
  | mismatch
  | fatal
  deriving DecidableEq, Inhabited

abbrev Reader (α : Type) := List Char → Except Refusal (α × List Char)

def isSpace (c : Char) : Bool := c = ' ' || c = '\t'

def isSpaceOrBreak (c : Char) : Bool := c = ' ' || c = '\t' || c = '\r' || c = '\n'

def skipSpaces (cs : List Char) : List Char := cs.dropWhile isSpace

def either {α : Type} (first second : Reader α) : Reader α := fun cs =>
  match first cs with
  | .error .mismatch => second cs
  | outcome => outcome

def afterWord? (word cs : List Char) : Option (List Char) :=
  if cs.take word.length = word then some (cs.drop word.length) else none

def word (w : String) : Reader Unit := fun cs =>
  match afterWord? w.toList cs with
  | some rest => .ok ((), rest)
  | none => .error .mismatch

def mark (c : Char) : Reader Unit := fun cs =>
  match skipSpaces cs with
  | d :: rest => if d = c then .ok ((), skipSpaces rest) else .error .mismatch
  | [] => .error .mismatch

def number : Reader Double := fun cs =>
  match Numeral.scan cs with
  | .found n rest => .ok (n.toDouble, rest)
  | .badExponent => .error .fatal
  | .absent =>
    let front := Numeral.lower (cs.take 3)
    if front = "nan".toList then .ok (.notANumber, cs.drop 3)
    else if front = "inf".toList then .ok (.infinity false, cs.drop 3)
    else .error .mismatch

def spacedNumber : Reader Double := fun cs => do
  let (x, rest) ← number (skipSpaces cs)
  return (x, skipSpaces rest)

def count : Reader Nat := fun cs => do
  let (x, rest) ← spacedNumber cs
  if x.isWhole && 0 ≤ x.rank then return ((x.clamp 0 Text.maxUnsigned64).toNat, rest)
  else throw .fatal

def joinBackslashes : List Char → List Char
  | '\\' :: '\\' :: rest => '\\' :: joinBackslashes rest
  | c :: rest => c :: joinBackslashes rest
  | [] => []

def breakLines : List Char → List Char
  | '\\' :: 'n' :: rest => '\n' :: breakLines rest
  | c :: rest => c :: breakLines rest
  | [] => []

/-- The text that a quoted one stands for. Backslashes are joined before line breaks are made. -/
def unescape (cs : List Char) : String := String.ofList (breakLines (joinBackslashes cs))

def quoted : Reader Scalar := fun cs =>
  match cs.dropWhile isSpaceOrBreak with
  | '"' :: rest =>
    match rest.dropWhile (· ≠ '"') with
    | '"' :: left =>
      .ok (.text (unescape (rest.takeWhile (· ≠ '"'))), left.dropWhile isSpaceOrBreak)
    | _ => .error .mismatch
  | _ => .error .mismatch

def isWordStart (c : Char) : Bool := Text.isLetter c || c = '_'

def isWordPart (c : Char) : Bool := Text.isLetter c || Text.isDigit c || c = '_'

def wordMeaning (cs : List Char) : Scalar :=
  if cs = "true".toList then .bool true
  else if cs = "false".toList then .bool false
  else .text (String.ofList cs)

def bareWord : Reader Scalar := fun cs =>
  match cs with
  | c :: _ =>
    if isWordStart c then .ok (wordMeaning (cs.takeWhile isWordPart), cs.dropWhile isWordPart)
    else .error .mismatch
  | [] => .error .mismatch

def numberOption : Reader Scalar := fun cs => do
  let (x, rest) ← number cs
  return ((Number.ofDouble? x).elim .null .number, rest)

def option : Reader Scalar := fun cs => do
  let (value, rest) ← either quoted (either bareWord numberOption) (skipSpaces cs)
  return (value, skipSpaces rest)

/-- Further options after commas. A comma that no option follows is left unread. -/
def moreOptions : (fuel : Nat) → Reader (List Scalar)
  | 0, cs => .ok ([], cs)
  | fuel + 1, cs =>
    match mark ',' cs with
    | .error _ => .ok ([], cs)
    | .ok (_, rest) =>
      match option rest with
      | .error .mismatch => .ok ([], cs)
      | .error .fatal => .error .fatal
      | .ok (value, rest) => do
        let (values, left) ← moreOptions fuel rest
        return (value :: values, left)

def options : Reader (List Scalar) := fun cs => do
  let (value, rest) ← option cs
  let (values, left) ← moreOptions rest.length rest
  return (value :: values, left)

def inParentheses {α : Type} (inner : Reader α) : Reader α := fun cs => do
  let (_, rest) ← mark '(' cs
  let (value, rest) ← inner rest
  let (_, left) ← mark ')' rest
  return (value, left)

def pair {α : Type} (argument : Reader α) : Reader (α × α) := fun cs => do
  let (first, rest) ← argument cs
  let (_, rest) ← mark ',' rest
  let (second, left) ← argument rest
  return ((first, second), left)

def named {α : Type} (name : String) (arguments : Reader α) (make : α → Rule) : Reader Rule :=
  fun cs => do
    let (_, rest) ← word name cs
    let (value, left) ← inParentheses arguments rest
    return (make value, left)

def required : Reader Rule := fun cs => do
  let (_, left) ← word "required" cs
  return (.required, left)

def bareRule : Reader Rule :=
  either (named "range" (pair spacedNumber) fun p => .range p.1 p.2) <|
  either (named "length" (pair count) fun p => .length p.1 p.2) <|
  either (named "one_of" options .oneOf) <|
  either (named "min" spacedNumber .min) <|
  either (named "max" spacedNumber .max) required

def rule : Reader Rule := fun cs => do
  let (value, rest) ← bareRule (skipSpaces cs)
  return (value, skipSpaces rest)

def read? (text : String) : Option Rule :=
  match rule (Text.trim text.toList) with
  | .ok (value, []) => some value
  | _ => none

end BehaviorTree.RuleText
