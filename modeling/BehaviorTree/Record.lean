import BehaviorTree.Forest
import BehaviorTree.Reading
import BehaviorTree.Writing

/-!
Records: nodes as documents hold them. A record names its children by their ids and may leave out
most of its fields. A field that is left out keeps what a fresh node of its type has, except for
the code, which is then none.
-/
namespace BehaviorTree

variable {α : Type}

namespace Position

def fieldNames : List String := ["x", "y"]

def shape : Shape := .ofNames fieldNames

def read? [Source α] (d : Datum α) : Option Position := do
  let m ← Members.ofDatum? fieldNames d
  let x ← m.required "x" Datum.double?
  let y ← m.required "y" Datum.double?
  return ⟨x, y⟩

def write [Sink α] (p : Position) : Datum α := .fields [("x", .double p.x), ("y", .double p.y)]

end Position

structure Record where
  id : String
  typeName : String
  label : Option String := none
  category : Category := .leaf
  position : Position := .origin
  icon : Option String := none
  color : Option String := none
  code : Option String := none
  config : Option (Dict Json) := none
  parameters : Option ParameterSet := none
  children : List String := []
  libraryType : Option String := none
  isModified : Bool := false
  libraryVersion : Option String := none
  inputPort : Option Port := none
  outputPort : Option Port := none
  deriving DecidableEq

namespace Record

def fieldNames : List String :=
  ["id", "type", "label", "category", "position", "icon", "color", "code", "config",
    "parameters", "children", "libraryType", "isModified", "libraryVersion", "inputPortType",
    "outputPortType"]

def shape : Shape :=
  ((Shape.ofNames fieldNames).refine "position" Position.shape).refine "parameters"
    ParameterSet.shape

def read? [Source α] (d : Datum α) : Option Record := do
  let m ← Members.ofDatum? fieldNames d
  let id ← m.required "id" Datum.text?
  let typeName ← m.required "type" Datum.text?
  let label ← m.nullable "label" Datum.text?
  let category ← m.withDefault "category" .leaf (Datum.variant? Category.names)
  let position ← m.withDefault "position" .origin Position.read?
  let icon ← m.nullable "icon" Datum.text?
  let color ← m.nullable "color" Datum.text?
  let code ← m.nullable "code" Datum.text?
  let config ← m.nullable "config" (Datum.dict? Datum.json?)
  let parameters ← m.nullable "parameters" ParameterSet.read?
  let children ← m.withDefault "children" [] (Datum.list? Datum.text?)
  let libraryType ← m.nullable "libraryType" Datum.text?
  let isModified ← m.withDefault "isModified" false Datum.bool?
  let libraryVersion ← m.nullable "libraryVersion" Datum.text?
  let inputPort ← m.nullable "inputPortType" (Datum.variant? Port.names)
  let outputPort ← m.nullable "outputPortType" (Datum.variant? Port.names)
  return { id, typeName, label, category, position, icon, color, code, config, parameters,
           children, libraryType, isModified, libraryVersion, inputPort, outputPort }

def write [Sink α] (r : Record) : Datum α :=
  .fields <|
    [("id", .text r.id), ("type", .text r.typeName)] ++
    Datum.field? "label" .text r.label ++
    [("category", .text r.category.name), ("position", r.position.write)] ++
    Datum.field? "icon" .text r.icon ++
    Datum.field? "color" .text r.color ++
    Datum.field? "code" .text r.code ++
    Datum.field? "config" .ofDict r.config ++
    Datum.field? "parameters" ParameterSet.write r.parameters ++
    [("children", .list (r.children.map .text))] ++
    Datum.field? "libraryType" .text r.libraryType ++
    [("isModified", .bool r.isModified)] ++
    Datum.field? "libraryVersion" .text r.libraryVersion ++
    Datum.field? "inputPortType" (fun p => .text (Port.name p)) r.inputPort ++
    Datum.field? "outputPortType" (fun p => .text (Port.name p)) r.outputPort

def ofSpec (spec : NodeSpec) (children : List String) : Record where
  id := spec.id
  typeName := spec.typeName
  label := some spec.label
  category := spec.category
  position := spec.position
  icon := some spec.icon
  color := some spec.color
  code := spec.code
  config := some spec.config
  parameters := some spec.parameters
  children := children
  libraryType := spec.libraryType
  isModified := spec.isModified
  libraryVersion := spec.libraryVersion
  inputPort := some spec.ports.input
  outputPort := some spec.ports.output

/-- What a record says about a node, on top of what the node has already. -/
def applyTo (r : Record) (spec : NodeSpec) : NodeSpec :=
  { spec with
    id := r.id
    position := r.position
    isModified := r.isModified
    code := r.code
    label := r.label.getD spec.label
    icon := r.icon.getD spec.icon
    color := r.color.getD spec.color
    libraryType := r.libraryType <|> spec.libraryType
    libraryVersion := r.libraryVersion <|> spec.libraryVersion
    ports := ⟨r.inputPort.getD spec.ports.input, r.outputPort.getD spec.ports.output⟩
    config := r.config.getD spec.config
    parameters := r.parameters.getD spec.parameters }

end Record

namespace Forest

def id? (f : Forest) (k : NodeKey) : Option String := (f.node? k).map (·.spec.id)

def record? (f : Forest) (k : NodeKey) : Option Record :=
  (f.node? k).map fun n => .ofSpec n.spec (n.children.filterMap f.id?)

end Forest

end BehaviorTree
