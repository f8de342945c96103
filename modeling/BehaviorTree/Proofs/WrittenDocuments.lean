import BehaviorTree.Loading
import BehaviorTree.Proofs.Values

/-!
Documents as the loader sees them. A document that has been written here is of the current
version, so its check finds no problem, and bringing it to the current version changes nothing that
the loader looks at.
-/
namespace BehaviorTree

theorem Version.read?_current : read? current.render = some current := by decide

namespace Json

theorem get?_fields (entries : List (String × Json)) (name : String) :
    get? (.fields entries) name = (Dict.ofList entries).get? name := rfl

theorem fields?_ofDict (d : Dict Json) : fields? (ofDict d) = some d :=
  congrArg some d.ofList_entries

theorem get?_ofDict (d : Dict Json) (name : String) : get? (ofDict d) name = d.get? name := by
  rw [ofDict, get?_fields, Dict.ofList_entries]

end Json

namespace Document

open Loading Migration

/-- From the raw document the loader takes the records, the root and the values of a document. -/
structure Shows (doc : Document) (raw : Json) : Prop where
  records : recordsOf raw = doc.nodes.map Record.write
  root : rootOf raw = doc.root
  values : valuesOf raw = doc.initialValues

structure Written (doc : Document) (d : Dict Json) : Prop where
  version : d.get? "version" = some (Json.text doc.version)
  tree : d.get? "tree" = some (.fields [
    ("nodes", .list (doc.nodes.map Record.write)), ("root", Datum.orNull Datum.text doc.root)])
  blackboard : d.get? "blackboard" = some (.fields [
    ("initialValues", Datum.ofDict doc.initialValues)])

theorem exists_written (doc : Document) :
    ∃ d, Json.fields? (doc.write : Json) = some d ∧ Written doc d := by
  refine ⟨_, rfl, ?_⟩
  constructor <;> simp [Dict.ofList, Datum.text, Json.text, Sink.scalar]

/-- Fields with the tree and the blackboard of a written document. -/
theorem shows_of_fields {doc : Document} {d d' : Dict Json} (h : Written doc d)
    (htree : d'.get? "tree" = d.get? "tree")
    (hblackboard : d'.get? "blackboard" = d.get? "blackboard") :
    Shows doc (Json.ofDict d') where
  records := by
    simp [recordsOf, Json.get?_ofDict, htree, h.tree, Json.get?_fields, Dict.ofList, Json.list?]
  root := by
    cases hroot : doc.root <;>
      simp [rootOf, Json.get?_ofDict, htree, h.tree, Json.get?_fields, Dict.ofList, hroot,
        Datum.orNull, Datum.null, Datum.text, Json.text?, Sink.scalar]
  values := by
    have hvalues : Json.get? (.fields [("initialValues", Datum.ofDict doc.initialValues)])
        "initialValues" = some (Json.ofDict doc.initialValues) := by
      simp [Json.get?_fields, Dict.ofList, Datum.ofDict_eq_self]
    rw [valuesOf, Json.get?_ofDict, hblackboard, h.blackboard, Option.bind_some, hvalues,
      Option.bind_some, Json.fields?_ofDict, Option.getD_some]

theorem Written.statedVersion {doc : Document} {d : Dict Json} (h : Written doc d)
    (hversion : doc.version = Version.current.render) : statedVersion d = .ok .current := by
  simp [Migration.statedVersion, h.version, Json.text, parseVersion, hversion,
    Version.read?_current]

/-- There is nothing wrong with a document that has been written. -/
theorem problems_write (doc : Document) (hversion : doc.version = Version.current.render) :
    byVersion.problems doc.write = [] := by
  obtain ⟨d, hd, h⟩ := exists_written doc
  have hold : versionProblems d = [] := by
    simp [versionProblems, h.statedVersion hversion]
  have htree : treeProblems d = [] := by simp [treeProblems, h.tree]
  have hnodes : nodesProblems d = [] := by
    simp [nodesProblems, h.tree, Json.get?_fields, Dict.ofList]
  simp [byVersion, problems, hd, hold, htree, hnodes]

/-- A written document is migrated without losing anything that the loader takes from it. -/
theorem migrate_write (doc : Document) (hversion : doc.version = Version.current.render) :
    ∃ raw, byVersion.migrate doc.write = .ok raw ∧ Shows doc raw := by
  obtain ⟨d, hd, h⟩ := exists_written doc
  refine ⟨Json.ofDict (d.insert "version" (Json.text Version.current.render)), ?_, ?_⟩
  · simp only [byVersion, migrate, hd, h.statedVersion hversion]
    rfl
  · exact shows_of_fields h (by simp) (by simp)

end Document

end BehaviorTree
