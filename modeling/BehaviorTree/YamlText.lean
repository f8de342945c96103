import BehaviorTree.Writing
import BehaviorTree.Yaml.Grammar
import BehaviorTree.Yaml.Lexer

/-!
YAML as text. Of the many ways to write a datum the writer takes blocks, with every value on a
line of its own; a text stays plain unless it could be taken for something else.
-/
namespace BehaviorTree.YamlText

def read? (text : String) (shape : Shape) : Option (Datum (Option Yaml.Leaf)) :=
  ((Yaml.tokens? text).bind Yaml.Document.ofTokens?).map (·.datum shape)

def reservedWords : List String :=
  ["yes", "Yes", "YES", "no", "No", "NO", "True", "TRUE", "true", "False", "FALSE", "false",
    "on", "On", "ON", "off", "Off", "OFF", "null", "Null", "NULL", "~"]

def isFrontMark (c : Char) : Bool :=
  c ∈ ['&', '*', '?', '|', '-', '<', '>', '=', '!', '%', '@', '.', ' ']

/-- Characters that need quotes at any place. Of the control characters some do without. -/
def isMark (c : Char) : Bool :=
  Yaml.isFlowMark c || c ∈ [':', '#', '\x60', '"', '\'', '\\'] ||
    [(0x00, 0x06), (0x09, 0x0A), (0x0D, 0x1A), (0x1C, 0x1F)].any fun r =>
      r.1 ≤ c.toNat && c.toNat ≤ r.2

def looksLikeNumber (cs : List Char) : Bool :=
  "0x".toList.isPrefixOf cs || (Numeral.read? cs).isSome

def needsQuotes (text : String) : Bool :=
  let cs := text.toList
  cs.isEmpty || cs.head?.any isFrontMark || cs.getLast? = some ' ' || cs.any isMark ||
    text ∈ reservedWords || looksLikeNumber cs

def escape (c : Char) : List Char :=
  match c with
  | '"' => ['\\', '"']
  | '\\' => ['\\', '\\']
  | '\x08' => ['\\', 'b']
  | '\t' => ['\\', 't']
  | '\n' => ['\\', 'n']
  | '\x0c' => ['\\', 'f']
  | '\x0d' => ['\\', 'r']
  | c =>
    if c.toNat < 0x20 || c.toNat = 0x7F then '\\' :: 'u' :: Text.lastDigits 16 c.toNat 4
    else [c]

def spellText (text : String) : String :=
  if needsQuotes text then "\"" ++ String.ofList (text.toList.flatMap escape) ++ "\"" else text

structure Spelling where
  text : String

def layout : Decimal.Layout := ⟨""⟩

def spellDouble (x : Double) : String :=
  if x.isFinite then Decimal.ofFinite layout x
  else if x.isNaN then ".nan"
  else if x.isNegative then "-.inf"
  else ".inf"

def spellScalar : Scalar → String
  | .null => "~"
  | .bool b => if b then "true" else "false"
  | .number (.int n) => Text.ofInt n
  | .number (.float x _) => spellDouble x
  | .text s => spellText s

instance : Sink Spelling where
  scalar s := ⟨spellScalar s⟩
  double x := ⟨spellDouble x⟩

def isBlock : Datum Spelling → Bool
  | .leaf _ => false
  | .list items => !items.isEmpty
  | .fields entries => !entries.isEmpty

def indent (lines : List String) : List String := lines.map ("  " ++ ·)

def hang (mark : String) : List String → List String
  | [] => []
  | line :: rest => (mark ++ line) :: indent rest

mutual

def lines : Datum Spelling → List String
  | .leaf s => [s.text]
  | .list items => if items.isEmpty then ["[]"] else itemLines items
  | .fields entries => if entries.isEmpty then ["\x7b\x7d"] else entryLines entries

def itemLines : List (Datum Spelling) → List String
  | [] => []
  | item :: rest => hang "- " (lines item) ++ itemLines rest

def entryLines : List (String × Datum Spelling) → List String
  | [] => []
  | (name, value) :: rest =>
    let mark := spellText name ++ ":"
    (if isBlock value then mark :: indent (lines value) else hang (mark ++ " ") (lines value)) ++
      entryLines rest

end

def render (d : Datum Spelling) : String := "---\n" ++ Text.join "\n" (lines d) ++ "\n"

end BehaviorTree.YamlText
