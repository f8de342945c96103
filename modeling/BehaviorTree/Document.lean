import BehaviorTree.Record
import BehaviorTree.Timestamp
import BehaviorTree.Version

/-!
Documents: whole trees as they are kept. A document holds a version, the records of the root and
everything below it, the values of the blackboard, and some data about itself.
-/
namespace BehaviorTree

variable {α : Type}

namespace Datum

def timestamp? [Source α] (d : Datum α) : Option Timestamp := d.text?.bind Timestamp.read?

def timestamp [Sink α] (t : Timestamp) : Datum α := text t.render

end Datum

structure Metadata where
  created : Option Timestamp := none
  modified : Option Timestamp := none
  nodeCount : Nat := 0
  editorVersion : String := ""
  deriving DecidableEq, Inhabited

namespace Metadata

def fieldNames : List String := ["created", "modified", "nodeCount", "editorVersion"]

def shape : Shape := .ofNames fieldNames

def read? [Source α] (d : Datum α) : Option Metadata := do
  let m ← Members.ofDatum? fieldNames d
  let created ← m.nullable "created" Datum.timestamp?
  let modified ← m.nullable "modified" Datum.timestamp?
  let nodeCount ← m.withDefault "nodeCount" 0 (Datum.nat? Text.maxUnsigned64)
  let editorVersion ← m.withDefault "editorVersion" "" Datum.text?
  return { created, modified, nodeCount, editorVersion }

def write [Sink α] (m : Metadata) : Datum α :=
  .fields [
    ("created", .orNull .timestamp m.created),
    ("modified", .orNull .timestamp m.modified),
    ("nodeCount", .nat m.nodeCount),
    ("editorVersion", .text m.editorVersion)]

end Metadata

structure Document where
  version : String
  metadata : Metadata := {}
  nodes : List Record := []
  root : Option String := none
  initialValues : Dict Json := .empty
  deriving DecidableEq

namespace Document

def editorVersion : String := "0.1.0"

def readTree? [Source α] (d : Datum α) : Option (List Record × Option String) := do
  let m ← Members.ofDatum? ["nodes", "root"] d
  let nodes ← m.withDefault "nodes" [] (Datum.list? Record.read?)
  let root ← m.nullable "root" Datum.text?
  return (nodes, root)

def readBlackboard? [Source α] (d : Datum α) : Option (Dict Json) := do
  let m ← Members.ofDatum? ["initialValues"] d
  m.withDefault "initialValues" .empty (Datum.dict? Datum.json?)

def fieldNames : List String := ["version", "metadata", "tree", "blackboard"]

def shape : Shape :=
  .members [
    ("version", .whole),
    ("metadata", Metadata.shape),
    ("tree", .members [("nodes", .each Record.shape), ("root", .whole)]),
    ("blackboard", .ofNames ["initialValues"])]

def read? [Source α] (d : Datum α) : Option Document := do
  let m ← Members.ofDatum? fieldNames d
  let version ← m.required "version" Datum.text?
  let metadata ← m.withDefault "metadata" {} Metadata.read?
  let (nodes, root) ← m.withDefault "tree" ([], none) readTree?
  let initialValues ← m.withDefault "blackboard" .empty readBlackboard?
  return { version, metadata, nodes, root, initialValues }

def write [Sink α] (doc : Document) : Datum α :=
  .fields [
    ("version", .text doc.version),
    ("metadata", doc.metadata.write),
    ("tree", .fields [
      ("nodes", .list (doc.nodes.map Record.write)),
      ("root", .orNull .text doc.root)]),
    ("blackboard", .fields [("initialValues", .ofDict doc.initialValues)])]

/-- The document of a root and everything below it, written at a point in time. The document is as
old as the tree, or else as its writing. -/
def capture (f : Forest) (root : Option NodeKey) (values : Dict Json)
    (created : Option Timestamp) (now : Timestamp) : Document :=
  let nodes := (root.elim [] f.subtree).filterMap f.record?
  { version := Version.current.render
    metadata :=
      { created := some (created.getD now)
        modified := some now
        nodeCount := nodes.length
        editorVersion }
    nodes
    root := root.bind f.id?
    initialValues := values }

end Document

end BehaviorTree
