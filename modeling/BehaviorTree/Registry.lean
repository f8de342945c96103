import BehaviorTree.BuiltIn
import BehaviorTree.Node

/-!
The types that nodes can be built of. Each type is a template under a name. The built-in types are
there from the beginning; a host may register further behaviors, and authors may add custom leaves
with code of their own. A custom leaf is of the type `CustomAction` whatever its name, and its
library type remembers the name. Custom leaves never take the place of a built-in type.
-/
namespace BehaviorTree

structure Template where
  typeName : String
  behavior : Behavior
  label : String
  icon : String
  color : String
  code : Option String
  config : Dict Json
  parameters : ParameterSet
  libraryType : Option String
  libraryVersion : Option String

structure BuiltInType where
  kind : BuiltIn
  icon : String
  color : String

def customAction : String := "CustomAction"

def builtInTypes : List (String × BuiltInType) := [
  ("Sequence", ⟨.sequence, "→", "#4a90d9"⟩),
  ("Selector", ⟨.selector, "?", "#d9a441"⟩),
  ("Parallel", ⟨.parallel, "⇉", "#8e6bd9"⟩),
  ("Inverter", ⟨.inverter, "!", "#d95f5f"⟩),
  ("Repeater", ⟨.repeater, "↻", "#5fb3d9"⟩),
  ("UntilSuccess", ⟨.untilSuccess, "✓", "#5fd97a"⟩),
  ("UntilFail", ⟨.untilFail, "✗", "#d97a5f"⟩),
  (startType, ⟨.start, "▶", "#3cb371"⟩),
  ("Action", ⟨.script, "⚡", "#9aa0a6"⟩),
  ("Wait", ⟨.script, "⏱", "#9aa0a6"⟩),
  ("GoTo", ⟨.script, "➜", "#9aa0a6"⟩),
  (customAction, ⟨.script, "★", "#c27ba0"⟩)]

namespace Template

/-- A template without code, config and parameters. The name of a built-in type brings its icon and
color along, whatever the behavior. -/
def plain (typeName : String) (behavior : Behavior) : Template where
  typeName := typeName
  behavior := behavior
  label := typeName
  icon := (builtInTypes.lookup typeName).elim "" (·.icon)
  color := (builtInTypes.lookup typeName).elim "" (·.color)
  code := none
  config := .empty
  parameters := .empty
  libraryType := none
  libraryVersion := none

def instantiate (t : Template) (id : String) : NodeSpec where
  id := id
  typeName := t.typeName
  behavior := t.behavior
  config := t.config
  code := t.code
  parameters := t.parameters
  label := t.label
  position := .origin
  icon := t.icon
  color := t.color
  libraryType := t.libraryType
  libraryVersion := t.libraryVersion
  isModified := false
  ports := .of t.behavior.category t.typeName

end Template

structure CustomLeaf where
  name : String
  code : String
  label : Option String := none
  parameters : ParameterSet := .empty
  icon : Option String := none
  color : Option String := none
  version : Option String := none

def CustomLeaf.template (leaf : CustomLeaf) : Template :=
  let base := Template.plain customAction BuiltIn.script.behavior
  { base with
    label := leaf.label.getD leaf.name
    icon := leaf.icon.getD base.icon
    color := leaf.color.getD base.color
    code := some leaf.code
    parameters := leaf.parameters
    libraryType := some leaf.name
    libraryVersion := leaf.version }

abbrev Registry := Dict Template

namespace Registry

def register (r : Registry) (typeName : String) (behavior : Behavior) : Registry :=
  Dict.insert r typeName (.plain typeName behavior)

def registerCustom (r : Registry) (leaf : CustomLeaf) : Bool × Registry :=
  if (builtInTypes.lookup leaf.name).isSome then (false, r)
  else (true, Dict.insert r leaf.name leaf.template)

def setDefaultConfig (r : Registry) (typeName : String) (config : Dict Json) : Registry :=
  Dict.modify r typeName fun t => { t with config }

def setDefaultParameters (r : Registry) (typeName : String) (parameters : ParameterSet) :
    Registry :=
  Dict.modify r typeName fun t => { t with parameters }

def build? (r : Registry) (typeName id : String) : Option NodeSpec :=
  (Dict.get? r typeName).map fun t => t.instantiate id

def registerAll (r : Registry) (types : List (String × BuiltInType)) : Registry :=
  types.foldl (fun r t => r.register t.1 t.2.kind.behavior) r

def parallelConfig : Dict Json :=
  .ofList [("minSuccess", Json.int (-1)), ("minFailure", Json.int 1)]

def repeaterConfig : Dict Json :=
  .ofList [("count", Json.int 3), ("repeatForever", Json.bool false)]

def waitParameters : ParameterSet :=
  .ofList [("duration", { kind := .number, default := some (Json.int 1), rules := ["min(0)"] })]

def goToParameters : ParameterSet :=
  .ofList [("target",
    { kind := .blackboardKey, default := some (Json.text "target"), rules := ["required"] })]

def standard : Registry :=
  (registerAll .empty builtInTypes)
    |>.setDefaultConfig "Parallel" parallelConfig
    |>.setDefaultConfig "Repeater" repeaterConfig
    |>.setDefaultParameters "Wait" waitParameters
    |>.setDefaultParameters "GoTo" goToParameters

end Registry

end BehaviorTree
