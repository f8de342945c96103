import BehaviorTree.Blackboard
import BehaviorTree.QuotedText
import BehaviorTree.Reading
import BehaviorTree.RuleText
import BehaviorTree.Writing

/-!
The typed and named inputs of a node. A parameter has a kind, an assigned value or a default, and
rules, which are kept as they were written. A value is assigned only after its kind accepts it and
its rules admit it. A parameter may instead name a key of the blackboard; what a leaf then sees is
what the board holds under that key.
-/
namespace BehaviorTree

inductive ParamKind where
  | number
  | integer
  | string
  | boolean
  | blackboardKey
  | any
  deriving DecidableEq, Inhabited, Repr

namespace ParamKind

def name : ParamKind → String
  | number => "number"
  | integer => "integer"
  | string => "string"
  | boolean => "boolean"
  | blackboardKey => "blackboardKey"
  | any => "any"

def names : List (String × ParamKind) :=
  [number, integer, string, boolean, blackboardKey, any].map fun k => (k.name, k)

/-- Null is accepted by every kind, and a whole float by the integers. -/
def accepts (kind : ParamKind) (value : Json) : Bool :=
  match kind, value with
  | _, .leaf .null => true
  | any, _ => true
  | number, .leaf (.number _) => true
  | integer, .leaf (.number n) => n.isWhole
  | string, .leaf (.text _) => true
  | blackboardKey, .leaf (.text _) => true
  | boolean, .leaf (.bool _) => true
  | _, _ => false

end ParamKind

inductive ParameterError where
  | unknown (name : String)
  | typeMismatch (name : String) (expected : ParamKind)
  | ruleViolated (name rule : String)
  | invalidRule (rule : String)
  deriving DecidableEq

namespace ParameterError

def message : ParameterError → String
  | unknown name => "Unknown parameter " ++ QuotedText.quote name
  | typeMismatch name expected =>
    "Parameter " ++ QuotedText.quote name ++ " expects a value of type " ++ expected.name
  | ruleViolated name rule =>
    "Parameter " ++ QuotedText.quote name ++ " violates rule " ++ QuotedText.quote rule
  | invalidRule rule => "Could not parse rule " ++ QuotedText.quote rule

end ParameterError

structure Parameter where
  kind : ParamKind
  value : Option Json := none
  default : Option Json := none
  rules : List String := []
  description : Option String := none
  deriving DecidableEq, Inhabited

namespace Parameter

def effective (p : Parameter) : Option Json := p.value <|> p.default

/-- The first rule that cannot be read or does not admit a value. A key of the blackboard is only
a name, so of its rules none but `required` looks at it. -/
def checkRules (name : String) (kind : ParamKind) (value : Option Json) :
    List String → Except ParameterError Unit
  | [] => .ok ()
  | source :: rest =>
    match RuleText.read? source with
    | none => .error (.invalidRule source)
    | some rule =>
      if (kind ≠ .blackboardKey ∨ rule = .required) ∧ rule.holds value = false then
        .error (.ruleViolated name source)
      else checkRules name kind value rest

def check (p : Parameter) (name : String) (value : Option Json) : Except ParameterError Unit :=
  if value.any fun v => !p.kind.accepts v then .error (.typeMismatch name p.kind)
  else checkRules name p.kind value p.rules

def fieldNames : List String := ["type", "value", "default", "rules", "description"]

def shape : Shape := .ofNames fieldNames

variable {α : Type}

def read? [Source α] (d : Datum α) : Option Parameter := do
  let m ← Members.ofDatum? fieldNames d
  let kind ← m.withDefault "type" .any (Datum.variant? ParamKind.names)
  let value ← m.nullable "value" Datum.json?
  let default ← m.nullable "default" Datum.json?
  let rules ← m.withDefault "rules" [] (Datum.list? Datum.text?)
  let description ← m.nullable "description" Datum.text?
  return { kind, value, default, rules, description }

def write [Sink α] (p : Parameter) : Datum α :=
  .fields <|
    [("type", .text p.kind.name)] ++ Datum.field? "value" Datum.ofJson p.value ++
    Datum.field? "default" Datum.ofJson p.default ++
    (if p.rules.isEmpty then [] else [("rules", .list (p.rules.map .text))]) ++
    Datum.field? "description" .text p.description

end Parameter

abbrev ParameterSet := Dict Parameter

namespace ParameterSet

def assign (set : ParameterSet) (name : String) (value : Json) :
    Except ParameterError ParameterSet :=
  match Dict.get? set name with
  | none => .error (.unknown name)
  | some p => do
    p.check name (some value)
    return Dict.insert set name { p with value := some value }

def validateEntries : List (String × Parameter) → Except ParameterError Unit
  | [] => .ok ()
  | (name, p) :: rest => do
    p.check name p.effective
    validateEntries rest

def validate (set : ParameterSet) : Except ParameterError Unit := validateEntries set.entries

def keyOf? (p : Parameter) : Option String :=
  match p.kind, p.effective with
  | .blackboardKey, some (.leaf (.text key)) => some key
  | _, _ => none

def resolved (p : Parameter) (board : Blackboard) : Json :=
  match keyOf? p with
  | some key => (board.get? key).getD Json.null
  | none => p.effective.getD Json.null

def trackAll (node : String) : List (String × Parameter) → Blackboard → Blackboard
  | [], board => board
  | (_, p) :: rest, board =>
    match keyOf? p with
    | some key => trackAll node rest (board.track key node)
    | none => trackAll node rest board

def resolve (set : ParameterSet) (board : Blackboard) (node : String) : Dict Json × Blackboard :=
  (Dict.map (fun _ p => resolved p board) set, trackAll node set.entries board)

def shape : Shape := .each Parameter.shape

variable {α : Type}

def read? [Source α] (d : Datum α) : Option ParameterSet := Datum.dict? Parameter.read? d

def write [Sink α] (set : ParameterSet) : Datum α :=
  .fields (set.entries.map fun e => (e.1, e.2.write))

end ParameterSet

end BehaviorTree
