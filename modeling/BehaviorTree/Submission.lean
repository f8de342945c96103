import BehaviorTree.Engine
import BehaviorTree.YamlText

/-!
Documents as they are handed over: as a raw value, or as a text that has to be read first. A tree
that is in use takes a document only as a whole. Where the text cannot be read or the document is
refused, the tree goes on as if nothing had been handed over.
-/
namespace BehaviorTree

inductive Submission where
  | value (doc : Json)
  | json (text : String)
  | yaml (text : String)

namespace Submission

def read : Submission → Except LoadError Json
  | value doc => .ok doc
  | json text =>
    match Loading.valueOfJson? text with
    | some doc => .ok doc
    | none => .error .json
  | yaml text =>
    match (YamlText.read? text .whole).bind Datum.json? with
    | some doc => .ok doc
    | none => .error .yaml

def load (registry : Registry) (migrator : Migrator) (f : Forest) (s : Submission) :
    Except LoadError (Loaded × Forest) :=
  s.read.bind (Loading.load registry migrator f)

end Submission

def Engine.submit {σ : Type} (e : Engine σ) (registry : Registry) (migrator : Migrator)
    (s : Submission) : Except LoadError Unit × Engine σ :=
  match s.read.bind (e.load registry migrator) with
  | .ok after => (.ok (), after)
  | .error error => (.error error, e)

end BehaviorTree
