import BehaviorTree.Document
import BehaviorTree.Migration
import BehaviorTree.Registry

/-!
Loading. A raw document that passes its checks is always loaded, as far as it can be: a record that
cannot be read, repeats an id or has an unknown type is passed over, and so is an edge whose child
is missing or cannot be attached. All nodes are made before the first edge.
-/
namespace BehaviorTree

inductive LoadError where
  | invalid (problems : List Problem)
  | migration (error : MigrationError)
  /-- A text that is no JSON. -/
  | json
  /-- A text that is no YAML. -/
  | yaml
  deriving DecidableEq

structure Loaded where
  root : Option NodeKey
  /-- The nodes in the order of their records, whether or not the root reaches them. -/
  nodes : List NodeKey
  values : Dict Json
  metadata : Metadata

namespace Loading

abbrev Kept := List (Record × NodeKey)

def find? (kept : Kept) (id : String) : Option NodeKey :=
  (kept.find? fun e => e.1.id = id).map (·.2)

/-- Makes the node of a record, unless the record has to be passed over. -/
def create (registry : Registry) (state : Forest × Kept) (raw : Json) : Forest × Kept :=
  let (f, kept) := state
  match Record.read? raw with
  | none => state
  | some record =>
    if (find? kept record.id).isSome then state
    else match registry.build? record.typeName record.id with
      | none => state
      | some spec =>
        let (key, f) := f.add (record.applyTo spec)
        (f, kept ++ [(record, key)])

def wireChild (kept : Kept) (parent : NodeKey) (f : Forest) (child : String) : Forest :=
  match find? kept child with
  | none => f
  | some key => (f.adopt parent key).2

def wireRecord (kept : Kept) (f : Forest) (entry : Record × NodeKey) : Forest :=
  entry.1.children.foldl (wireChild kept entry.2) f

def metadataOf (doc : Json) : Metadata :=
  ((doc.get? "metadata").bind Metadata.read?).getD {}

def valuesOf (doc : Json) : Dict Json :=
  (((doc.get? "blackboard").bind fun b => b.get? "initialValues").bind Json.fields?).getD .empty

def recordsOf (doc : Json) : List Json :=
  (((doc.get? "tree").bind fun t => t.get? "nodes").bind Json.list?).getD []

def rootOf (doc : Json) : Option String :=
  ((doc.get? "tree").bind fun t => t.get? "root").bind Json.text?

def build (registry : Registry) (f : Forest) (doc : Json) : Loaded × Forest :=
  let (f, kept) := (recordsOf doc).foldl (create registry) (f, [])
  let f := kept.foldl (wireRecord kept) f
  ({ root := (rootOf doc).bind (find? kept)
     nodes := kept.map (·.2)
     values := valuesOf doc
     metadata := metadataOf doc }, f)

def load (registry : Registry) (migrator : Migrator) (f : Forest) (doc : Json) :
    Except LoadError (Loaded × Forest) :=
  match migrator.problems doc with
  | [] =>
    match migrator.migrate doc with
    | .ok doc => .ok (build registry f doc)
    | .error e => .error (.migration e)
  | problems => .error (.invalid problems)

def valueOfJson? (text : String) : Option Json := (JsonText.read? text).bind Datum.json?

end Loading

end BehaviorTree
