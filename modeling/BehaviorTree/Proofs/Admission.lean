import BehaviorTree.Proofs.LoadedForest
import BehaviorTree.Proofs.Upgrades
import Mathlib.Data.Prod.Lex

/-!
Which documents load. A document is checked twice: the first check looks at the shape of the
document and at the first number of its version, the second one compares whole versions. Together
they sort all values into those that load, those that are invalid, and those that are valid but
newer than the current version. Nothing in a document that has passed both can keep it from loading.
-/
namespace BehaviorTree

namespace Version

def rank (v : Version) : ℕ ×ₗ ℕ ×ₗ ℕ := toLex (v.major, toLex (v.minor, v.patch))

theorem rank_injective : Function.Injective rank := by
  rintro ⟨a, b, c⟩ ⟨a', b', c'⟩ h
  simpa [rank] using h

instance : LinearOrder Version := LinearOrder.lift' rank rank_injective

theorem lt_iff (v w : Version) :
    v < w ↔ v.major < w.major ∨ v.major = w.major ∧
      (v.minor < w.minor ∨ v.minor = w.minor ∧ v.patch < w.patch) := by
  change v.rank < w.rank ↔ _
  simp only [rank, Prod.Lex.toLex_lt_toLex]

/-- The comparison of the migrator is the order of versions. -/
theorem isAfter_iff (v w : Version) : v.isAfter w = true ↔ w < v := by
  rw [lt_iff]
  simp only [isAfter, compare, Ordering.then_eq_gt, Nat.compare_eq_gt, Nat.compare_eq_eq,
    beq_iff_eq]
  omega

theorem isAfter_eq_false_iff (v w : Version) : v.isAfter w = false ↔ v ≤ w := by
  rw [← not_lt, ← isAfter_iff, Bool.not_eq_true]

/-- The versions before the next major one. -/
theorem lt_major_iff (v : Version) (major : ℕ) : v < ⟨major, 0, 0⟩ ↔ v.major < major := by
  rw [lt_iff]
  simp

end Version

namespace Migration

variable {d : Dict Json} {v : Version}

/-- The version of a document; one that does not say is of the oldest. -/
inductive States (d : Dict Json) : Version → Prop
  | absent (h : d.get? "version" = none) : States d .legacy
  | null (h : d.get? "version" = some Json.null) : States d .legacy
  | text {s : String} {v : Version} (h : d.get? "version" = some (Json.text s))
      (hread : Version.read? s = some v) : States d v

/-- The tree, if there is one, has fields, and its nodes, if there are any, are a list. -/
structure WellShaped (d : Dict Json) : Prop where
  tree : ∀ tree, d.get? "tree" = some tree → ∃ entries, tree = .fields entries
  nodes : ∀ tree, d.get? "tree" = some tree → ∀ nodes, tree.get? "nodes" = some nodes →
    ∃ items, nodes = .list items

structure Admissible (d : Dict Json) : Prop where
  version : ∃ v, States d v ∧ v ≤ .current
  shape : WellShaped d

/-- A document that nothing is wrong with but that it is of a later minor version. -/
structure Newer (d : Dict Json) (v : Version) : Prop where
  version : States d v
  above : .current < v
  below : v < ⟨2, 0, 0⟩
  shape : WellShaped d

inductive Invalid (doc : Json) : Prop
  | noFields (h : doc.fields? = none)
  | versionKind {d : Dict Json} {w : Json} (hd : doc.fields? = some d)
      (h : d.get? "version" = some w) (hnull : w ≠ Json.null) (htext : ∀ s, w ≠ Json.text s)
  | versionText {d : Dict Json} {s : String} (hd : doc.fields? = some d)
      (h : d.get? "version" = some (Json.text s)) (hread : Version.read? s = none)
  | versionMajor {d : Dict Json} {v : Version} (hd : doc.fields? = some d) (h : States d v)
      (hmajor : 1 < v.major)
  | treeKind {d : Dict Json} {tree : Json} (hd : doc.fields? = some d)
      (h : d.get? "tree" = some tree) (hkind : ∀ entries, tree ≠ .fields entries)
  | nodesKind {d : Dict Json} {tree nodes : Json} (hd : doc.fields? = some d)
      (htree : d.get? "tree" = some tree) (h : tree.get? "nodes" = some nodes)
      (hkind : ∀ items, nodes ≠ .list items)

/-- The version that is found in a document is the one that the document states. -/
theorem statedVersion_eq_ok_iff : statedVersion d = .ok v ↔ States d v := by
  constructor
  · intro h
    unfold statedVersion at h
    split at h
    · next habsent =>
      cases h
      exact .absent habsent
    · next hnull =>
      cases h
      exact .null hnull
    · next s htext =>
      unfold parseVersion at h
      split at h
      · next w hread =>
        cases h
        exact .text htext hread
      · cases h
    · cases h
  · intro h
    cases h with
    | absent h => simp [statedVersion, h]
    | null h => simp [statedVersion, h, Json.null]
    | text h hread => simp [statedVersion, h, Json.text, parseVersion, hread]

theorem States.unique {w : Version} (hv : States d v) (hw : States d w) : v = w := by
  rw [← statedVersion_eq_ok_iff] at hv hw
  exact Except.ok.inj (hv.symm.trans hw)

/-- The first check compares the first numbers only. -/
theorem versionProblems_eq_nil_iff :
    versionProblems d = [] ↔ ∃ v, States d v ∧ v < ⟨2, 0, 0⟩ := by
  unfold versionProblems
  cases hstated : statedVersion d with
  | error e =>
    simp only [reduceCtorEq, false_iff, not_exists, not_and, ← statedVersion_eq_ok_iff, hstated]
    intro v h
    cases h
  | ok found =>
    have hfound := statedVersion_eq_ok_iff.mp hstated
    simp only [ite_eq_right_iff, reduceCtorEq, imp_false, Version.lt_major_iff]
    constructor
    · intro h
      exact ⟨found, hfound, Nat.lt_succ_of_le (Nat.le_of_not_lt h)⟩
    · rintro ⟨v, hv, hmajor⟩
      obtain rfl := hv.unique hfound
      exact Nat.not_lt.mpr (Nat.le_of_lt_succ hmajor)

theorem treeProblems_eq_nil_iff :
    treeProblems d = [] ↔
      ∀ tree, d.get? "tree" = some tree → ∃ entries, tree = .fields entries := by
  unfold treeProblems
  cases d.get? "tree" with
  | none => simp
  | some tree => cases tree <;> simp

theorem nodesProblems_eq_nil_iff :
    nodesProblems d = [] ↔ ∀ tree, d.get? "tree" = some tree →
      ∀ nodes, tree.get? "nodes" = some nodes → ∃ items, nodes = .list items := by
  unfold nodesProblems
  cases d.get? "tree" with
  | none => simp
  | some tree =>
    simp only [Option.bind_some, Option.some.injEq, forall_eq']
    cases tree.get? "nodes" with
    | none => simp
    | some nodes => cases nodes <;> simp

/-- Nothing is wrong with a value that has fields, states a version below 2.0.0 and is well shaped.
-/
theorem problems_eq_nil_iff {doc : Json} :
    problems doc = [] ↔
      ∃ d, doc.fields? = some d ∧ (∃ v, States d v ∧ v < ⟨2, 0, 0⟩) ∧ WellShaped d := by
  unfold problems
  cases doc.fields? with
  | none => simp
  | some d =>
    simp only [List.append_eq_nil_iff, versionProblems_eq_nil_iff, treeProblems_eq_nil_iff,
      nodesProblems_eq_nil_iff, Option.some.injEq, exists_eq_left', and_assoc]
    exact and_congr_right' ⟨fun h => ⟨h.1, h.2⟩, fun h => ⟨h.tree, h.nodes⟩⟩

theorem Invalid.problems_ne_nil {doc : Json} (h : Invalid doc) : problems doc ≠ [] := by
  rw [Ne, problems_eq_nil_iff]
  rintro ⟨d, hd, ⟨v, hv, hmajor⟩, hshape⟩
  have hsame : ∀ {d'}, doc.fields? = some d' → d' = d := fun hd' =>
    Option.some.inj (hd'.symm.trans hd)
  cases h with
  | noFields h => cases h.symm.trans hd
  | versionKind hd' h hnull htext =>
    obtain rfl := hsame hd'
    cases hv with
    | absent habsent => cases habsent.symm.trans h
    | null h' => exact hnull (Option.some.inj (h.symm.trans h'))
    | text h' _ => exact htext _ (Option.some.inj (h.symm.trans h'))
  | versionText hd' h hread =>
    obtain rfl := hsame hd'
    cases hv with
    | absent habsent => cases habsent.symm.trans h
    | null h' => cases h'.symm.trans h
    | text h' hread' =>
      cases h'.symm.trans h
      cases hread'.symm.trans hread
  | versionMajor hd' h hbig =>
    obtain rfl := hsame hd'
    obtain rfl := h.unique hv
    rw [Version.lt_major_iff] at hmajor
    omega
  | treeKind hd' h hkind =>
    obtain rfl := hsame hd'
    obtain ⟨entries, hentries⟩ := hshape.tree _ h
    exact hkind entries hentries
  | nodesKind hd' htree h hkind =>
    obtain rfl := hsame hd'
    obtain ⟨items, hitems⟩ := hshape.nodes _ htree _ h
    exact hkind items hitems

/-- A version that is not stated is of another kind or cannot be read. -/
theorem Invalid.of_unstated {doc : Json} (hd : doc.fields? = some d)
    (h : ¬ ∃ v, States d v) : Invalid doc := by
  cases hversion : d.get? "version" with
  | none => exact absurd ⟨_, .absent hversion⟩ h
  | some w =>
    by_cases hnull : w = Json.null
    · exact absurd ⟨_, .null (hversion.trans (congrArg some hnull))⟩ h
    · by_cases htext : ∃ s, w = Json.text s
      · obtain ⟨s, rfl⟩ := htext
        cases hread : Version.read? s with
        | none => exact .versionText hd hversion hread
        | some v => exact absurd ⟨v, .text hversion hread⟩ h
      · exact .versionKind hd hversion hnull (not_exists.mp htext)

theorem Invalid.of_misshaped {doc : Json} (hd : doc.fields? = some d)
    (h : ¬ WellShaped d) : Invalid doc := by
  by_cases htree : ∀ tree, d.get? "tree" = some tree → ∃ entries, tree = .fields entries
  · by_contra hvalid
    refine h ⟨htree, fun tree hget nodes hnodes => ?_⟩
    by_contra hkind
    exact hvalid (.nodesKind hd hget hnodes (not_exists.mp hkind))
  · simp only [not_forall, not_exists] at htree
    obtain ⟨tree, hget, hkind⟩ := htree
    exact .treeKind hd hget hkind

/-- The reasons for a value to be invalid are all the problems that are found in it. -/
theorem invalid_iff {doc : Json} : Invalid doc ↔ problems doc ≠ [] := by
  refine ⟨Invalid.problems_ne_nil, fun h => ?_⟩
  cases hd : doc.fields? with
  | none => exact .noFields hd
  | some d =>
    by_cases hshape : WellShaped d
    · by_cases hstated : ∃ v, States d v
      · obtain ⟨v, hv⟩ := hstated
        refine .versionMajor hd hv (Nat.lt_of_not_le fun hle => h ?_)
        have hmajor : v < ⟨2, 0, 0⟩ := (v.lt_major_iff 2).mpr (Nat.lt_succ_of_le hle)
        exact problems_eq_nil_iff.mpr ⟨d, hd, ⟨v, hv, hmajor⟩, hshape⟩
      · exact .of_unstated hd hstated
    · exact .of_misshaped hd hshape

end Migration

namespace Loading

open Migration

variable {registry : Registry} {f : Forest} {doc : Json}

/-- Where the first check finds nothing, the second one decides. -/
theorem load_of_valid (registry : Registry) (f : Forest) {d : Dict Json} {v : Version}
    (hd : doc.fields? = some d) (hv : States d v) (hmajor : v < ⟨2, 0, 0⟩) (hshape : WellShaped d) :
    load registry byVersion f doc =
      if .current < v then .error (.migration (.unsupportedVersion v .current))
      else .ok (build registry f (Json.ofDict (brought v d))) := by
  have hstated := statedVersion_eq_ok_iff.mpr hv
  have hproblems : byVersion.problems doc = [] :=
    problems_eq_nil_iff.mpr ⟨d, hd, ⟨v, hv, hmajor⟩, hshape⟩
  split_ifs with hafter
  · have hmigrate := migrate_of_after hd hstated ((v.isAfter_iff _).mpr hafter)
    simp only [load, hproblems, hmigrate]
  · have hbefore := (v.isAfter_eq_false_iff _).mpr (not_lt.mp hafter)
    exact load_eq_ok hproblems (migrate_of_fields hd hstated hbefore)

/-- An invalid value is refused with all of its problems. -/
theorem load_of_invalid (registry : Registry) (f : Forest) (h : Invalid doc) :
    load registry byVersion f doc = .error (.invalid (problems doc)) := by
  have hproblems : byVersion.problems doc = problems doc := rfl
  unfold load
  rw [hproblems]
  cases hlist : problems doc with
  | nil => exact absurd hlist h.problems_ne_nil
  | cons problem rest => rfl

/-- A value is invalid as a document, or only the second check can still refuse it. -/
theorem invalid_or_valid (doc : Json) :
    Invalid doc ∨
      ∃ d v, doc.fields? = some d ∧ States d v ∧ v < ⟨2, 0, 0⟩ ∧ WellShaped d := by
  by_cases h : problems doc = []
  · obtain ⟨d, hd, ⟨v, hv, hmajor⟩, hshape⟩ := problems_eq_nil_iff.mp h
    exact Or.inr ⟨d, v, hd, hv, hmajor, hshape⟩
  · exact Or.inl (invalid_iff.mpr h)

/-- The admissible documents are loaded, and no other values. -/
theorem load_ok_iff :
    (∃ loaded g, load registry byVersion f doc = .ok (loaded, g)) ↔
      ∃ d, doc.fields? = some d ∧ Admissible d := by
  constructor
  · rintro ⟨loaded, g, hload⟩
    rcases invalid_or_valid doc with hinvalid | ⟨d, v, hd, hv, hmajor, hshape⟩
    · cases (load_of_invalid registry f hinvalid).symm.trans hload
    · rw [load_of_valid registry f hd hv hmajor hshape] at hload
      split_ifs at hload with hafter
      exact ⟨d, hd, ⟨v, hv, not_lt.mp hafter⟩, hshape⟩
  · rintro ⟨d, hd, ⟨v, hv, hle⟩, hshape⟩
    have hmajor : v < ⟨2, 0, 0⟩ := hle.trans_lt (by decide)
    rw [load_of_valid registry f hd hv hmajor hshape, if_neg (not_lt.mpr hle)]
    exact ⟨_, _, rfl⟩

/-- The invalid values are refused as such, and no others. -/
theorem load_invalid_iff :
    (∃ problems, load registry byVersion f doc = .error (.invalid problems)) ↔ Invalid doc := by
  refine ⟨?_, fun h => ⟨_, load_of_invalid registry f h⟩⟩
  rintro ⟨problems, hload⟩
  rcases invalid_or_valid doc with hinvalid | ⟨d, v, hd, hv, hmajor, hshape⟩
  · exact hinvalid
  · rw [load_of_valid registry f hd hv hmajor hshape] at hload
    split_ifs at hload
    cases hload

/-- Only a document of a later minor version is refused by the migration, which names both versions.
-/
theorem load_migration_iff (error : MigrationError) :
    load registry byVersion f doc = .error (.migration error) ↔
      ∃ d found, doc.fields? = some d ∧ Newer d found ∧
        error = .unsupportedVersion found .current := by
  constructor
  · intro hload
    rcases invalid_or_valid doc with hinvalid | ⟨d, v, hd, hv, hmajor, hshape⟩
    · cases (load_of_invalid registry f hinvalid).symm.trans hload
    · rw [load_of_valid registry f hd hv hmajor hshape] at hload
      split_ifs at hload with hafter
      cases hload
      exact ⟨d, v, hd, ⟨hv, hafter, hmajor, hshape⟩, rfl⟩
  · rintro ⟨d, v, hd, hnewer, rfl⟩
    rw [load_of_valid registry f hd hnewer.version hnewer.below hnewer.shape, if_pos hnewer.above]

/-- Every value loads as a document, is invalid as one, or is of a later version than can be loaded,
whatever the registry and the nodes that are there already. -/
theorem load_outcomes (registry : Registry) (f : Forest) (doc : Json) :
    ((∃ loaded g, load registry byVersion f doc = .ok (loaded, g)) ↔
      ∃ d, doc.fields? = some d ∧ Admissible d) ∧
    ((∃ problems, load registry byVersion f doc = .error (.invalid problems)) ↔ Invalid doc) ∧
    (∀ error, load registry byVersion f doc = .error (.migration error) ↔
      ∃ d found, doc.fields? = some d ∧ Newer d found ∧
        error = .unsupportedVersion found .current) ∧
    load registry byVersion f doc ≠ .error .json ∧
    load registry byVersion f doc ≠ .error .yaml := by
  refine ⟨load_ok_iff, load_invalid_iff, load_migration_iff, ?_⟩
  rcases invalid_or_valid doc with hinvalid | ⟨d, v, hd, hv, hmajor, hshape⟩
  · rw [load_of_invalid registry f hinvalid]
    exact ⟨nofun, nofun⟩
  · rw [load_of_valid registry f hd hv hmajor hshape]
    split_ifs
    · exact ⟨nofun, nofun⟩
    · exact ⟨nofun, nofun⟩

end Loading

end BehaviorTree
