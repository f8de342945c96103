import BehaviorTree.Proofs.Admission

/-!
What bringing a document to the current version adds to it. A record of version 1.0 gains the fields
that say about its ports and whether it has been modified, as far as it lacks them. All that is
there stays, in its place and whatever it holds, and a document that has been brought to the current
version once has nothing to gain any more. Documents of versions before 1.0 are stamped and nothing
else.
-/
namespace BehaviorTree

namespace Dict

variable {α : Type}

theorem insertEntry_insertEntry (key : String) (value value' : α) (entries : List (String × α)) :
    insertEntry key value' (insertEntry key value entries) = insertEntry key value' entries := by
  induction entries with
  | nil => simp [insertEntry]
  | cons head rest ih =>
    obtain ⟨k, v⟩ := head
    by_cases hlt : key < k
    · simp [insertEntry, hlt]
    · by_cases heq : key = k
      · simp [insertEntry, heq]
      · simp [insertEntry, hlt, heq, ih]

/-- Of two values under one key the later counts. -/
theorem insert_insert (d : Dict α) (key : String) (value value' : α) :
    (d.insert key value).insert key value' = d.insert key value' :=
  eq_of_entries_eq (insertEntry_insertEntry key value value' d.entries)

end Dict

namespace Migration

open Loading

variable {doc migrated : Json} {d : Dict Json} {found : Version}

/-- The fields that records of version 1.0 do not know about, with what they say for a record that
lacks them. -/
def additions (record : Dict Json) : List (String × Json) :=
  [("inputPortType", Json.text (portsOf record).input.name),
    ("outputPortType", Json.text (portsOf record).output.name),
    ("isModified", Json.bool false)]

/-- A record before and after it has gained the fields that it lacks. -/
structure Supplemented (old new : Dict Json) : Prop where
  kept : ∀ name value, old.get? name = some value → new.get? name = some value
  added : ∀ name value, (additions old).lookup name = some value → old.get? name = none →
    new.get? name = some value
  nothing_else : ∀ name, (additions old).lookup name = none → new.get? name = old.get? name

/-- A field that is added where it is missing does not hide another one. -/
theorem get?_addMissing (name : String) (value : Json) (d : Dict Json) (key : String) :
    (addMissing name value d).get? key =
      (d.get? key).or (if key = name then some value else none) := by
  unfold addMissing Dict.contains
  by_cases hkey : key = name
  · subst hkey
    cases hget : d.get? key <;> simp [hget]
  · split <;> simp [hkey]

theorem get?_foldl_addMissing (fields : List (String × Json)) (d : Dict Json) (key : String) :
    (fields.foldl (fun d e => addMissing e.1 e.2 d) d).get? key =
      (d.get? key).or (fields.lookup key) := by
  induction fields generalizing d with
  | nil => simp
  | cons field rest ih =>
    obtain ⟨name, value⟩ := field
    rw [List.foldl_cons, ih, get?_addMissing, Option.or_assoc, Dict.lookup_cons]
    by_cases hkey : key = name <;> simp [hkey]

/-- A record that has been upgraded has its own fields, and for want of them the additions. -/
theorem get?_upgradeRecord (record : Dict Json) (name : String) :
    (upgradeRecord record).get? name = (record.get? name).or ((additions record).lookup name) :=
  get?_foldl_addMissing (additions record) record name

theorem supplemented_upgradeRecord (record : Dict Json) :
    Supplemented record (upgradeRecord record) where
  kept name value h := by rw [get?_upgradeRecord, h, Option.some_or]
  added name value hadd h := by rw [get?_upgradeRecord, h, Option.none_or, hadd]
  nothing_else name hadd := by rw [get?_upgradeRecord, hadd, Option.or_none]

/-- A value whose field of this name alone has changed. What has no fields has not changed. -/
inductive ChangedAt (name : String) (R : Json → Json → Prop) : Json → Json → Prop
  | fields {v : Json} {old new : Dict Json} (hv : v.fields? = some old)
      (others : ∀ other, other ≠ name → new.get? other = old.get? other)
      (value : Option.Rel R (old.get? name) (new.get? name)) :
      ChangedAt name R v (Json.ofDict new)
  | other {v : Json} (hv : v.fields? = none) : ChangedAt name R v v

/-- An element of the list of nodes. What is no record stays as it is. -/
inductive ElementUpgraded : Json → Json → Prop
  | record {v : Json} {old new : Dict Json} (hv : v.fields? = some old)
      (hnew : Supplemented old new) : ElementUpgraded v (Json.ofDict new)
  | other {v : Json} (hv : v.fields? = none) : ElementUpgraded v v

inductive NodesUpgraded : Json → Json → Prop
  | list {old new : List Json} (h : List.Forall₂ ElementUpgraded old new) :
      NodesUpgraded (.list old) (.list new)
  | other {v : Json} (hv : v.list? = none) : NodesUpgraded v v

/-- A document of some version before and after it has been brought to the current one. -/
structure Upgraded (found : Version) (old new : Dict Json) : Prop where
  version : new.get? "version" = some (Json.text "1.1.0")
  others : ∀ name, name ≠ "version" → name ≠ "tree" → new.get? name = old.get? name
  recent : found.major = 1 → found.minor = 0 →
    Option.Rel (ChangedAt "nodes" NodesUpgraded) (old.get? "tree") (new.get? "tree")
  other_versions : ¬ (found.major = 1 ∧ found.minor = 0) → new.get? "tree" = old.get? "tree"

theorem elementUpgraded (v : Json) : ElementUpgraded v (onFields upgradeRecord v) := by
  unfold onFields
  cases hv : v.fields? with
  | none => exact .other hv
  | some record => exact .record hv (supplemented_upgradeRecord record)

theorem nodesUpgraded (v : Json) : NodesUpgraded v (onItems (onFields upgradeRecord) v) := by
  cases v with
  | list items =>
    apply NodesUpgraded.list
    rw [List.forall₂_map_right_iff, List.forall₂_same]
    intro item _
    exact elementUpgraded item
  | leaf a => exact .other rfl
  | fields entries => exact .other rfl

theorem rel_map {R : Json → Json → Prop} {change : Json → Json} (h : ∀ v, R v (change v))
    (value : Option Json) : Option.Rel R value (value.map change) := by
  cases value with
  | none => exact .none
  | some v => exact .some (h v)

/-- Changing the value of one field changes nothing else. -/
theorem changedAt_modify {R : Json → Json → Prop} {change : Json → Json} (h : ∀ v, R v (change v))
    (name : String) (v : Json) :
    ChangedAt name R v (onFields (fun d => d.modify name change) v) := by
  unfold onFields
  cases hv : v.fields? with
  | none => exact .other hv
  | some d =>
    refine .fields hv (fun other hother => ?_) ?_
    · rw [Dict.get?_modify]
      simp [hother]
    · rw [Dict.get?_modify]
      simpa using rel_map h (d.get? name)

/-- Bringing a document to the current version upgrades it. -/
theorem upgraded_brought (found : Version) (d : Dict Json) :
    Upgraded found d (brought found d) where
  version := by
    rw [brought, Dict.get?_insert, if_pos rfl]
    rfl
  others name hversion htree := get?_brought found d htree hversion
  recent hmajor hminor := by
    have htree : (brought found d).get? "tree" = (upgrade d).get? "tree" := by
      simp [brought, hmajor, hminor]
    rw [htree, upgrade, Dict.get?_modify]
    simpa using rel_map (changedAt_modify nodesUpgraded "nodes") (d.get? "tree")
  other_versions hversion := by
    rw [brought, if_neg hversion, Dict.get?_insert, if_neg (by decide)]

theorem states_brought (found : Version) (d : Dict Json) : States (brought found d) .current :=
  .text (upgraded_brought found d).version Version.read?_current

/-- A document that has been brought to the current version stays as it is. -/
theorem brought_brought (found : Version) (d : Dict Json) :
    brought .current (brought found d) = brought found d := by
  have hcurrent : ¬ (Version.current.major = 1 ∧ Version.current.minor = 0) := by decide
  have hstamp : brought .current (brought found d) =
      (brought found d).insert "version" (Json.text Version.current.render) := by
    rw [brought, if_neg hcurrent]
  rw [hstamp, brought, Dict.insert_insert]

theorem exists_of_rel {R : Json → Json → Prop} {old new : Option Json} {w : Json}
    (h : Option.Rel R old new) (hw : new = some w) : ∃ v, old = some v ∧ R v w := by
  cases h with
  | none => cases hw
  | some hR =>
    cases hw
    exact ⟨_, rfl, hR⟩

theorem ChangedAt.get? {name : String} {R : Json → Json → Prop} {v w : Json}
    (h : ChangedAt name R v w) : Option.Rel R (v.get? name) (w.get? name) := by
  cases h with
  | fields hv others value =>
    rw [Json.get?_ofDict, Json.get?, hv, Option.bind_some]
    exact value
  | other hv =>
    rw [Json.get?, hv, Option.bind_none]
    exact .none

/-- What is upgraded stays in shape. -/
theorem wellShaped_brought (h : WellShaped d) : WellShaped (brought found d) := by
  have hup := upgraded_brought found d
  by_cases hversion : found.major = 1 ∧ found.minor = 0
  · have htree := hup.recent hversion.1 hversion.2
    constructor
    · intro tree hnew
      obtain ⟨old, hold, hchanged⟩ := exists_of_rel htree hnew
      obtain ⟨entries, rfl⟩ := h.tree old hold
      cases hchanged with
      | fields => exact ⟨_, rfl⟩
      | other => exact ⟨entries, rfl⟩
    · intro tree hnew nodes hnodes
      obtain ⟨old, hold, hchanged⟩ := exists_of_rel htree hnew
      obtain ⟨oldNodes, hget, hlist⟩ := exists_of_rel hchanged.get? hnodes
      obtain ⟨items, rfl⟩ := h.nodes old hold oldNodes hget
      cases hlist with
      | list => exact ⟨_, rfl⟩
      | other => exact ⟨items, rfl⟩
  · have htree := hup.other_versions hversion
    exact ⟨fun tree => htree ▸ h.tree tree, fun tree => htree ▸ h.nodes tree⟩

/-- Bringing a document to the current version adds to its records what they lack, if it is of
version 1.0, and otherwise changes the version alone. A second time there is nothing left to do. -/
theorem migrate_only_adds (h : byVersion.migrate doc = .ok migrated) :
    byVersion.migrate migrated = .ok migrated ∧
      (byVersion.problems doc = [] → byVersion.problems migrated = []) ∧
      ∃ d d' found, doc.fields? = some d ∧ migrated = Json.ofDict d' ∧ States d found ∧
        Upgraded found d d' := by
  obtain ⟨d, found, hd, hfound, hold, rfl⟩ := exists_of_migrate h
  have hfields := Json.fields?_ofDict (brought found d)
  have hstates := states_brought found d
  refine ⟨?_, fun hvalid => ?_, ?_⟩
  · have hagain := migrate_of_fields hfields (statedVersion_eq_ok_iff.mpr hstates) (by decide)
    rw [hagain, brought_brought]
  · obtain ⟨d', hd', -, hshape⟩ := problems_eq_nil_iff.mp hvalid
    obtain rfl := Option.some.inj (hd'.symm.trans hd)
    have hmajor : Version.current < ⟨2, 0, 0⟩ := by decide
    exact problems_eq_nil_iff.mpr
      ⟨brought found d', hfields, ⟨.current, hstates, hmajor⟩, wellShaped_brought hshape⟩
  · exact ⟨d, brought found d, found, hd, rfl, statedVersion_eq_ok_iff.mp hfound,
      upgraded_brought found d⟩

def unversioned : Json :=
  .fields [
    ("tree", .fields [
      ("nodes", .list [
        .fields [("category", Json.text "composite"), ("id", Json.text "s")],
        .fields [("id", Json.text "a"), ("inputPortType", Json.null),
          ("isModified", Json.bool true), ("outputPortType", Json.text "multiple")],
        Json.text "stray"])])]

def versioned : Json :=
  .fields [
    ("tree", .fields [
      ("nodes", .list [
        .fields [("category", Json.text "composite"), ("id", Json.text "s"),
          ("inputPortType", Json.text "single"), ("isModified", Json.bool false),
          ("outputPortType", Json.text "multiple")],
        .fields [("id", Json.text "a"), ("inputPortType", Json.null),
          ("isModified", Json.bool true), ("outputPortType", Json.text "multiple")],
        Json.text "stray"])]),
    ("version", Json.text "1.1.0")]

/-- One document without a version gains what its element lacks, and nothing when it is migrated
once more. -/
theorem migrate_only_adds_unversioned :
    byVersion.migrate unversioned = .ok versioned ∧
      byVersion.migrate versioned = .ok versioned ∧ byVersion.problems versioned = [] ∧
      ∃ d d' found, unversioned.fields? = some d ∧ versioned = Json.ofDict d' ∧ States d found ∧
        Upgraded found d d' := by
  have hmigrate : byVersion.migrate unversioned = .ok versioned := by rfl
  obtain ⟨hagain, hvalid, hup⟩ := migrate_only_adds hmigrate
  exact ⟨hmigrate, hagain, hvalid (by decide), hup⟩

def Complete (record : Dict Json) : Prop :=
  ∀ name ∈ ["inputPortType", "outputPortType", "isModified"], record.contains name = true

theorem complete_upgradeRecord (record : Dict Json) : Complete (upgradeRecord record) := by
  intro name hname
  have hadd : ((additions record).lookup name).isSome = true := by
    simp only [List.mem_cons, List.not_mem_nil, or_false] at hname
    rcases hname with rfl | rfl | rfl <;> rfl
  rw [Dict.contains, get?_upgradeRecord, Option.isSome_or, hadd, Bool.or_true]

theorem upgradeOf_of_since (hsince : .legacy ≤ found) (hold : found < .current) :
    upgradeOf found = onFields upgradeRecord := by
  rw [Version.lt_iff] at hold
  rw [← not_lt, Version.lt_iff] at hsince
  simp only [Version.legacy, Version.current] at hold hsince
  have hrecent : found.major = 1 ∧ found.minor = 0 := by omega
  rw [upgradeOf, if_pos hrecent]

theorem upgradeOf_of_before (hbefore : found < .legacy) : upgradeOf found = id := by
  rw [Version.lt_iff] at hbefore
  simp only [Version.legacy] at hbefore
  have hearly : ¬ (found.major = 1 ∧ found.minor = 0) := by omega
  rw [upgradeOf, if_neg hearly]

/-- From version 1.0.0 on, the records of an older document are complete in the current version. The
records of a document of an earlier version stay as they are. -/
theorem records_of_older (h : byVersion.migrate doc = .ok migrated) (hd : doc.fields? = some d)
    (hfound : States d found) (hold : found < .current) :
    (.legacy ≤ found → ∀ element ∈ recordsOf migrated, ∀ record,
      element.fields? = some record → Complete record) ∧
    (found < .legacy → recordsOf migrated = recordsOf doc) := by
  obtain ⟨d', found', hd', hfound', -, rfl⟩ := exists_of_migrate h
  obtain rfl := Option.some.inj (hd'.symm.trans hd)
  obtain rfl := hfound.unique (statedVersion_eq_ok_iff.mp hfound')
  have hrecords := recordsOf_brought found d'
  rw [recordsOf_of_fields hd] at hrecords
  rw [hrecords]
  constructor
  · intro hsince element helement record hrecord
    rw [upgradeOf_of_since hsince hold] at helement
    obtain ⟨raw, -, rfl⟩ := List.mem_map.mp helement
    unfold onFields at hrecord
    cases hraw : raw.fields? with
    | none =>
      rw [hraw] at hrecord
      cases hraw.symm.trans hrecord
    | some r =>
      rw [hraw] at hrecord
      obtain rfl := Option.some.inj ((Json.fields?_ofDict _).symm.trans hrecord)
      exact complete_upgradeRecord r
  · intro hbefore
    rw [upgradeOf_of_before hbefore, List.map_id]

def bare (version : String) : Json :=
  .fields [
    ("tree", .fields [
      ("nodes", .list [.fields [("id", Json.text "a"), ("type", Json.text "Action")]])]),
    ("version", Json.text version)]

/-- The record of a document of version 1.0.7 is completed. -/
theorem records_of_older_bare :
    ∃ d migrated, (bare "1.0.7").fields? = some d ∧ States d ⟨1, 0, 7⟩ ∧
      byVersion.migrate (bare "1.0.7") = .ok migrated ∧ (recordsOf migrated).length = 1 ∧
      ∀ element ∈ recordsOf migrated, ∀ record, element.fields? = some record →
        Complete record := by
  have hmigrate : ∃ d migrated, (bare "1.0.7").fields? = some d ∧ States d ⟨1, 0, 7⟩ ∧
      byVersion.migrate (bare "1.0.7") = .ok migrated ∧ (recordsOf migrated).length = 1 :=
    ⟨_, _, rfl, .text rfl (by decide), rfl, rfl⟩
  obtain ⟨d, migrated, hd, hstates, hmigrate, hlength⟩ := hmigrate
  have hcomplete := (records_of_older hmigrate hd hstates (by decide)).1 (by decide)
  exact ⟨d, migrated, hd, hstates, hmigrate, hlength, hcomplete⟩

/-- A record of a version before 1.0.0 is bare in the current version too. -/
theorem prehistoric_stays_bare :
    ∃ d migrated, (bare "0.9.0").fields? = some d ∧ States d ⟨0, 9, 0⟩ ∧
      (⟨0, 9, 0⟩ : Version) < .current ∧ byVersion.migrate (bare "0.9.0") = .ok migrated ∧
      ∃ element ∈ recordsOf migrated, ∃ record, element.fields? = some record ∧
        ¬ Complete record := by
  refine ⟨_, _, rfl, .text rfl (by decide), by decide, rfl, _, List.mem_cons_self, _, rfl, ?_⟩
  intro hcomplete
  have hports := hcomplete "inputPortType" List.mem_cons_self
  revert hports
  decide

end Migration

end BehaviorTree
