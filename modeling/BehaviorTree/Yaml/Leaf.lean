import BehaviorTree.Reading

/-!
What a scalar of a YAML text means. A tag can ask for null, a truth value, a number or a text.
Without a tag a plain scalar is one of these by its form, while quotes and blocks hold texts. Where
a text is asked for, every scalar gives its own.
-/
namespace BehaviorTree.Yaml

/-- The type that a document gives a node: a name within the names of a handle. -/
structure Tag where
  handle : String
  name : String
  deriving DecidableEq

namespace Tag

def standard (name : String) : Tag := ⟨"!!", name⟩

def localName? (tag : Tag) : Option String := if tag.handle = "!" then some tag.name else none

end Tag

structure Leaf where
  text : String
  isPlain : Bool
  tag : Option Tag
  /-- Whether the scalar is the value of a field whose name is written elsewhere. -/
  isNamedByReference : Bool := false
  deriving DecidableEq

inductive Meaning where
  | null
  | bool (value : Bool)
  | whole (value : Int)
  | double (value : Double)
  | text
  deriving DecidableEq

namespace Meaning

def bool? (text : String) : Option Bool := [("true", true), ("false", false)].lookup text

def isNull (text : String) : Bool := text = "~" || text = "null"

def bases : List (Char × Nat) := [('x', 16), ('o', 8), ('b', 2)]

def basedWhole? : List Char → Option Int
  | '-' :: '0' :: mark :: digits =>
    (bases.lookup mark).bind fun base =>
      Text.readSigned? base Text.minSigned64 Text.maxSigned64 ('-' :: digits)
  | '+' :: '0' :: mark :: digits => unsigned? mark digits
  | '0' :: mark :: digits => unsigned? mark digits
  | _ => none
where
  unsigned? (mark : Char) (digits : List Char) : Option Int :=
    (bases.lookup mark).bind fun base =>
      (Text.readUnsigned? base Text.maxUnsigned64 digits).map Int.ofNat

def hasSpareZero (cs : List Char) : Bool :=
  match (Numeral.splitSign cs).2 with
  | '0' :: digits => !digits.isEmpty && digits.all Text.isDigit
  | _ => false

def infinity? (text : String) : Option Double :=
  if String.ofList (text.toList.dropWhile (· = '+')) ∈ [".inf", ".Inf", ".INF"] then
    some (.infinity false)
  else if text ∈ ["-.inf", "-.Inf", "-.INF"] then some (.infinity true)
  else none

def minWide : Int := -(Nat.pow 2 127 : Nat)

def maxWide : Int := (Nat.pow 2 128 : Nat) - 1

/-- What a plain scalar without a tag means. There is nothing that a whole number means which is
too wide for 64 bits and yet fits 128; a wider one is a float. -/
def ofPlain? (text : String) : Option Meaning :=
  let cs := text.toList
  if isNull text then some .null
  else if let some b := bool? text then some (.bool b)
  else if let some n := basedWhole? cs then some (.whole n)
  else if hasSpareZero cs then some .text
  else if let some n := Text.readSigned? 10 minWide maxWide cs then
    if Text.minSigned64 ≤ n ∧ n ≤ Text.maxUnsigned64 then some (.whole n) else none
  else if let some x := infinity? text then some (.double x)
  else if text ∈ [".nan", ".NaN", ".NAN"] then some (.double .notANumber)
  else if let some x := (Numeral.read? cs).filter Double.isFinite then some (.double x)
  else some .text

def ofTagged? (tag : Tag) (text : String) : Option Meaning :=
  if tag = .standard "bool" then (bool? text).map .bool
  else if tag = .standard "int" then
    (Text.readSigned? 10 Text.minSigned64 Text.maxSigned64 text.toList).map .whole
  else if tag = .standard "float" then (Numeral.read? text.toList).map .double
  else if tag = .standard "null" then if isNull text then some .null else none
  else some .text

end Meaning

namespace Leaf

def absent : Leaf := ⟨"~", true, none, false⟩

def meaning? (leaf : Leaf) : Option Meaning :=
  match leaf.tag with
  | some tag => Meaning.ofTagged? tag leaf.text
  | none => if leaf.isPlain then Meaning.ofPlain? leaf.text else some .text

/-- A value that may be left out is left out by a plain null, and by nothing else: a null in quotes
or in a block is given, whatever its tag, and a plain scalar that a tag calls null has to be it. -/
def givesValue? (leaf : Leaf) : Option Bool :=
  if !leaf.isPlain then some true
  else match leaf.tag with
    | none => some (!Meaning.isNull leaf.text)
    | some tag =>
      if tag ≠ .standard "null" then some true
      else if Meaning.isNull leaf.text then some false
      else none

instance : Source Leaf where
  text? leaf := some leaf.text
  bool? leaf := match leaf.meaning? with
    | some (.bool b) => some b
    | _ => none
  whole? leaf := match leaf.meaning? with
    | some (.whole n) => some n
    | _ => none
  double? leaf := match leaf.meaning? with
    | some (.whole n) => some (.ofInt n)
    | some (.double x) => some x
    | _ => none
  saysNameOnly leaf := leaf.meaning? = some .null && !leaf.isNamedByReference
  givesValue? := givesValue?
  mark? leaf := leaf.tag.bind Tag.localName?
  scalar? leaf := leaf.meaning?.map fun
    | .null => .null
    | .bool b => .bool b
    | .whole n => .number (.int n)
    | .double x => (Number.ofDouble? x).elim .null .number
    | .text => .text leaf.text

end Leaf

end BehaviorTree.Yaml
