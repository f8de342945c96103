import BehaviorTree.JsonText
import BehaviorTree.QuotedText
import BehaviorTree.Status
import BehaviorTree.Version

/-!
Raw documents of older versions. A document is checked before it is loaded and brought to the
current version; newer ones are refused. Documents of version 1.0 do not know about ports and
modified nodes, so their records gain the fields that say so. A field that is there, whatever it
holds, stays as it is.
-/
namespace BehaviorTree

inductive MigrationError where
  | notAnObject
  | malformedVersion (text : String)
  | unsupportedVersion (found supported : Version)
  deriving DecidableEq

def MigrationError.message : MigrationError → String
  | notAnObject => "The document is not an object"
  | malformedVersion text => "Malformed version string " ++ QuotedText.quote text
  | unsupportedVersion found supported =>
    "Document version " ++ found.render ++ " is newer than supported version " ++
      supported.render

inductive Problem where
  | migration (error : MigrationError)
  | treeNotAnObject
  | nodesNotAnArray
  /-- A problem in the words of a host. -/
  | stated (text : String)
  deriving DecidableEq

def Problem.message : Problem → String
  | migration error => error.message
  | treeNotAnObject => "`tree` must be an object"
  | nodesNotAnArray => "`tree.nodes` must be an array"
  | stated text => text

def Problem.summary (problems : List Problem) : String :=
  "Invalid document: " ++ Text.join "; " (problems.map message)

/-- How raw documents are checked and brought to the current version. -/
structure Migrator where
  problems : Json → List Problem
  migrate : Json → Except MigrationError Json

namespace Migration

def parseVersion (text : String) : Except MigrationError Version :=
  match Version.read? text with
  | some version => .ok version
  | none => .error (.malformedVersion text)

/-- The version that a document states; without one it is the oldest. -/
def statedVersion (doc : Dict Json) : Except MigrationError Version :=
  match doc.get? "version" with
  | none => .ok .legacy
  | some (.leaf .null) => .ok .legacy
  | some (.leaf (.text s)) => parseVersion s
  | some other => .error (.malformedVersion (JsonText.compact other))

def versionProblems (doc : Dict Json) : List Problem :=
  match statedVersion doc with
  | .ok found =>
    if Version.current.major < found.major then
      [.migration (.unsupportedVersion found .current)]
    else []
  | .error e => [.migration e]

def treeProblems (doc : Dict Json) : List Problem :=
  match doc.get? "tree" with
  | none => []
  | some (.fields _) => []
  | some _ => [.treeNotAnObject]

def nodesProblems (doc : Dict Json) : List Problem :=
  match (doc.get? "tree").bind fun tree => tree.get? "nodes" with
  | none => []
  | some (.list _) => []
  | some _ => [.nodesNotAnArray]

def problems (v : Json) : List Problem :=
  match v.fields? with
  | none => [.migration .notAnObject]
  | some doc => versionProblems doc ++ treeProblems doc ++ nodesProblems doc

def addMissing (name : String) (value : Json) (d : Dict Json) : Dict Json :=
  if d.contains name then d else d.insert name value

def portsOf (record : Dict Json) : Ports :=
  let category := ((record.get? "category").bind (Datum.variant? Category.names)).getD .leaf
  let typeName := ((record.get? "type").bind Json.text?).getD ""
  .of category typeName

def upgradeRecord (record : Dict Json) : Dict Json :=
  let ports := portsOf record
  record
    |> addMissing "inputPortType" (Json.text ports.input.name)
    |> addMissing "outputPortType" (Json.text ports.output.name)
    |> addMissing "isModified" (Json.bool false)

def onFields (change : Dict Json → Dict Json) (v : Json) : Json :=
  match v.fields? with
  | some d => Json.ofDict (change d)
  | none => v

def onItems (change : Json → Json) : Json → Json
  | .list items => .list (items.map change)
  | v => v

def upgrade (doc : Dict Json) : Dict Json :=
  doc.modify "tree" <| onFields fun tree =>
    tree.modify "nodes" <| onItems <| onFields upgradeRecord

def migrate (v : Json) : Except MigrationError Json :=
  match v.fields? with
  | none => .error .notAnObject
  | some doc => do
    let found ← statedVersion doc
    if found.isAfter .current then throw (.unsupportedVersion found .current)
    let upgraded := if found.major = 1 ∧ found.minor = 0 then upgrade doc else doc
    return Json.ofDict (upgraded.insert "version" (Json.text Version.current.render))

def byVersion : Migrator := ⟨problems, migrate⟩

def identity : Migrator := ⟨fun _ => [], .ok⟩

def refusing (texts : List String) : Migrator := ⟨fun _ => texts.map .stated, .ok⟩

end Migration

end BehaviorTree
