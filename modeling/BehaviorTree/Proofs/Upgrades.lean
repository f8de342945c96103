import BehaviorTree.Proofs.WrittenDocuments

/-!
What bringing a document to the current version does to the parts that the loader looks at. Each
record is upgraded by itself, in its place; the root, the values and the data about the document
stay what they are.
-/
namespace BehaviorTree.Migration

open Loading

variable {doc migrated : Json} {d : Dict Json} {found : Version}

def upgradeOf (found : Version) : Json → Json :=
  if found.major = 1 ∧ found.minor = 0 then onFields upgradeRecord else id

theorem upgradeOf_current : upgradeOf .current = id := by
  unfold upgradeOf
  exact if_neg (by decide)

theorem get?_onFields (change : Dict Json → Dict Json) (v : Json) (name : String) :
    (onFields change v).get? name = v.fields?.bind fun d => (change d).get? name := by
  unfold onFields
  cases hv : v.fields? with
  | none => simp [Json.get?, hv]
  | some d => simp [Json.get?_ofDict]

theorem list?_onItems (change : Json → Json) (v : Json) :
    (onItems change v).list? = v.list?.map fun items => items.map change := by
  cases v with
  | list items => rfl
  | leaf a => rfl
  | fields entries => rfl

def listed? (doc : Json) : Option (List Json) :=
  ((doc.get? "tree").bind fun tree => tree.get? "nodes").bind Json.list?

theorem recordsOf_eq (doc : Json) : recordsOf doc = (listed? doc).getD [] := rfl

def onRecords (change : Json → Json) (doc : Dict Json) : Dict Json :=
  doc.modify "tree" (onFields fun tree => tree.modify "nodes" change)

theorem get?_onRecords {name : String} (hname : name ≠ "tree") (change : Json → Json)
    (doc : Dict Json) : (onRecords change doc).get? name = doc.get? name := by
  unfold onRecords
  rw [Dict.get?_modify]
  simp [hname]

theorem nodes?_onRecords (change : Json → Json) (doc : Dict Json) :
    (((onRecords change doc).get? "tree").bind fun tree => tree.get? "nodes") =
      ((doc.get? "tree").bind fun tree => tree.get? "nodes").map change := by
  unfold onRecords
  rw [Dict.get?_modify]
  cases doc.get? "tree" with
  | none => rfl
  | some tree =>
    simp only [Option.map_some, if_true, Option.bind_some, get?_onFields]
    cases hfields : tree.fields? with
    | none => simp [Json.get?, hfields]
    | some t => simp [Json.get?, hfields]

theorem listed?_onRecords {change : Json → Json} {f : List Json → List Json}
    (hchange : ∀ v : Json, (change v).list? = v.list?.map f) (doc : Dict Json) :
    listed? (Json.ofDict (onRecords change doc)) = (listed? (Json.ofDict doc)).map f := by
  unfold listed?
  rw [Json.get?_ofDict, Json.get?_ofDict, nodes?_onRecords]
  cases (doc.get? "tree").bind fun tree => tree.get? "nodes" with
  | none => rfl
  | some nodes => exact hchange nodes

/-- Changes of the records alone leave the root alone. -/
theorem rootOf_onRecords (change : Json → Json) (doc : Dict Json) :
    rootOf (Json.ofDict (onRecords change doc)) = rootOf (Json.ofDict doc) := by
  unfold rootOf onRecords
  rw [Json.get?_ofDict, Json.get?_ofDict, Dict.get?_modify]
  cases htree : doc.get? "tree" with
  | none => rfl
  | some tree =>
    simp only [Option.map_some, if_true, Option.bind_some, get?_onFields]
    cases hfields : tree.fields? with
    | none => simp [Json.get?, hfields]
    | some t => simp [Json.get?, hfields]

def brought (found : Version) (d : Dict Json) : Dict Json :=
  (if found.major = 1 ∧ found.minor = 0 then upgrade d else d).insert "version"
    (Json.text Version.current.render)

/-- A version that is not later than the current one is brought to it. -/
theorem migrate_of_fields (hfields : doc.fields? = some d) (hfound : statedVersion d = .ok found)
    (hold : found.isAfter .current = false) :
    byVersion.migrate doc = .ok (Json.ofDict (brought found d)) := by
  simp only [byVersion, migrate, hfields, hfound, brought]
  change (if found.isAfter .current = true then _ else _) = _
  rw [hold]
  rfl

theorem migrate_of_stated_error {e : MigrationError} (hfields : doc.fields? = some d)
    (hstated : statedVersion d = .error e) : byVersion.migrate doc = .error e := by
  simp only [byVersion, migrate, hfields, hstated]
  rfl

/-- A later version is not supported. -/
theorem migrate_of_after (hfields : doc.fields? = some d) (hfound : statedVersion d = .ok found)
    (hafter : found.isAfter .current = true) :
    byVersion.migrate doc = .error (.unsupportedVersion found .current) := by
  simp only [byVersion, migrate, hfields, hfound]
  change (if found.isAfter .current = true then _ else _) = _
  rw [hafter]
  rfl

/-- What has been migrated is what a document has been brought to. -/
theorem exists_of_migrate (h : byVersion.migrate doc = .ok migrated) :
    ∃ d found, doc.fields? = some d ∧ statedVersion d = .ok found ∧
      found.isAfter .current = false ∧ migrated = Json.ofDict (brought found d) := by
  cases hfields : doc.fields? with
  | none => simp [byVersion, migrate, hfields] at h
  | some d =>
    cases hfound : statedVersion d with
    | error e => cases (migrate_of_stated_error hfields hfound).symm.trans h
    | ok found =>
      cases hold : found.isAfter .current with
      | true => cases (migrate_of_after hfields hfound hold).symm.trans h
      | false =>
        have hmigrate := migrate_of_fields hfields hfound hold
        exact ⟨d, found, rfl, hfound, hold, Except.ok.inj (h.symm.trans hmigrate)⟩

theorem get?_brought (found : Version) (d : Dict Json) {name : String} (htree : name ≠ "tree")
    (hversion : name ≠ "version") : (brought found d).get? name = d.get? name := by
  unfold brought
  rw [Dict.get?_insert, if_neg hversion]
  split_ifs
  · exact get?_onRecords htree _ d
  · rfl

theorem recordsOf_insert_version (d : Dict Json) (version : Json) :
    recordsOf (Json.ofDict (d.insert "version" version)) = recordsOf (Json.ofDict d) := by
  simp [recordsOf, Json.get?_ofDict]

theorem rootOf_insert_version (d : Dict Json) (version : Json) :
    rootOf (Json.ofDict (d.insert "version" version)) = rootOf (Json.ofDict d) := by
  simp [rootOf, Json.get?_ofDict]

/-- Every record is upgraded in its place. -/
theorem recordsOf_brought (found : Version) (d : Dict Json) :
    recordsOf (Json.ofDict (brought found d)) =
      (recordsOf (Json.ofDict d)).map (upgradeOf found) := by
  unfold brought upgradeOf
  rw [recordsOf_insert_version]
  split_ifs
  · have hlisted := listed?_onRecords (list?_onItems (onFields upgradeRecord)) d
    rw [recordsOf_eq, recordsOf_eq, upgrade, ← onRecords, hlisted]
    cases listed? (Json.ofDict d) with
    | none => rfl
    | some items => rfl
  · simp

theorem rootOf_brought (found : Version) (d : Dict Json) :
    rootOf (Json.ofDict (brought found d)) = rootOf (Json.ofDict d) := by
  unfold brought
  rw [rootOf_insert_version]
  split_ifs
  · exact rootOf_onRecords _ d
  · rfl

theorem recordsOf_of_fields (hfields : doc.fields? = some d) :
    recordsOf (Json.ofDict d) = recordsOf doc := by
  simp [recordsOf, Json.get?, Json.fields?_ofDict, hfields]

/-- A document of the current version is loaded with its records as they are. -/
theorem recordsOf_migrate_current (hfields : doc.fields? = some d)
    (hcurrent : statedVersion d = .ok .current) (h : byVersion.migrate doc = .ok migrated) :
    recordsOf migrated = recordsOf doc := by
  have hmigrate := migrate_of_fields hfields hcurrent (by decide)
  obtain rfl := Except.ok.inj (h.symm.trans hmigrate)
  rw [recordsOf_brought, upgradeOf_current, List.map_id, recordsOf_of_fields hfields]

end BehaviorTree.Migration
