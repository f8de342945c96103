import BehaviorTree.Proofs.LoadedForest
import BehaviorTree.Proofs.RecordCodec
import BehaviorTree.Proofs.Upgrades
import Mathlib.Data.List.Forall2

/-!
What a record says and what it leaves out. Ten fields of a record may be left out or be null, and a
template has something for each of them. A node that is loaded has what its record gives. Of what the
record does not give, it has what its template has, with the exception of the code: a record without
code takes the code of the template away.
-/
namespace BehaviorTree

open Forest Loading Migration

/-- The fields that a record may leave out although the node has them. -/
inductive OptionalField where
  | label
  | icon
  | color
  | code
  | config
  | parameters
  | libraryType
  | libraryVersion
  | inputPort
  | outputPort
  deriving DecidableEq

namespace OptionalField

def Value : OptionalField → Type
  | config => Dict Json
  | parameters => ParameterSet
  | inputPort | outputPort => Port
  | label | icon | color | code | libraryType | libraryVersion => String

def name : OptionalField → String
  | label => "label"
  | icon => "icon"
  | color => "color"
  | code => "code"
  | config => "config"
  | parameters => "parameters"
  | libraryType => "libraryType"
  | libraryVersion => "libraryVersion"
  | inputPort => "inputPortType"
  | outputPort => "outputPortType"

def read? : (field : OptionalField) → Json → Option field.Value
  | config => Datum.dict? Datum.json?
  | parameters => ParameterSet.read?
  | inputPort | outputPort => Datum.variant? Port.names
  | label | icon | color | code | libraryType | libraryVersion => Datum.text?

def ofRecord? (r : Record) : (field : OptionalField) → Option field.Value
  | label => r.label
  | icon => r.icon
  | color => r.color
  | code => r.code
  | config => r.config
  | parameters => r.parameters
  | libraryType => r.libraryType
  | libraryVersion => r.libraryVersion
  | inputPort => r.inputPort
  | outputPort => r.outputPort

def ofNode? (spec : NodeSpec) : (field : OptionalField) → Option field.Value
  | label => some spec.label
  | icon => some spec.icon
  | color => some spec.color
  | code => spec.code
  | config => some spec.config
  | parameters => some spec.parameters
  | libraryType => spec.libraryType
  | libraryVersion => spec.libraryVersion
  | inputPort => some spec.ports.input
  | outputPort => some spec.ports.output

/-- What a raw record gives for the field. Null is as good as nothing. -/
def given? (raw : Json) (field : OptionalField) : Option Json :=
  ((Members.ofDatum? Record.fieldNames raw).bind fun m => m field.name).filter
    fun d => d ≠ Json.null

variable {raw : Json} {r : Record}

/-- A record is read field by field. -/
theorem exists_members (h : Record.read? raw = some r) :
    ∃ m, Members.ofDatum? Record.fieldNames raw = some m ∧
      ∀ field : OptionalField, m.nullable field.name field.read? = some (field.ofRecord? r) := by
  obtain ⟨m, hm, hr⟩ := Record.read?_eq_some_iff.mp h
  refine ⟨m, hm, fun field => ?_⟩
  cases field with
  | label => exact hr.label
  | icon => exact hr.icon
  | color => exact hr.color
  | code => exact hr.code
  | config => exact hr.config
  | parameters => exact hr.parameters
  | libraryType => exact hr.libraryType
  | libraryVersion => exact hr.libraryVersion
  | inputPort => exact hr.inputPort
  | outputPort => exact hr.outputPort

end OptionalField

/-- A member that may be left out and is left out, or is null, is read as nothing; otherwise it is
read as what it is. -/
theorem Members.nullable_iff {β : Type} {m : Members Scalar} {name : String}
    {read : Json → Option β} {value : Option β} (h : m.nullable name read = some value) :
    (∀ d, (m name).filter (fun d => d ≠ Json.null) = some d →
        ∃ v, read d = some v ∧ value = some v) ∧
      ((m name).filter (fun d => d ≠ Json.null) = none → value = none) := by
  unfold Members.nullable at h
  cases hm : m name with
  | none =>
    rw [withDefault_of_none hm] at h
    obtain rfl := Option.some.inj h
    simp
  | some d =>
    rw [withDefault_of_some hm, Datum.nullable?] at h
    by_cases hnull : d = Json.null
    · subst hnull
      simp [Json.null, Datum.givesValue?, Source.givesValue?] at h
      simp [Json.null, ← h]
    · have hgiven := Json.givesValue?_of_ne_null hnull
      rw [hgiven] at h
      obtain ⟨v, hv, rfl⟩ := Option.map_eq_some_iff.mp h
      simp [hnull, hv]

/-- The node has what the raw record gives, and what the record does not give it has from the fresh
node, except for the code. -/
structure Completes (raw : Json) (fresh spec : NodeSpec) : Prop where
  given : ∀ (field : OptionalField) (d : Json), field.given? raw = some d →
    ∃ v, field.read? d = some v ∧ field.ofNode? spec = some v
  kept : ∀ field : OptionalField, field ≠ .code → field.given? raw = none →
    field.ofNode? spec = field.ofNode? fresh
  code : OptionalField.code.given? raw = none → spec.code = none

namespace OptionalField

variable {raw : Json} {r : Record}

/-- Nine of the fields fall back on the fresh node, the code does not. -/
theorem ofNode?_applyTo (r : Record) (fresh : NodeSpec) (field : OptionalField) :
    field.ofNode? (r.applyTo fresh) =
      (field.ofRecord? r <|> if field = .code then none else field.ofNode? fresh) := by
  have hdefault : ∀ {α : Type} (o : Option α) (a : α), some (o.getD a) = (o <|> some a) := by
    intro α o a
    cases o with
    | none => rfl
    | some v => rfl
  have hnothing : ∀ {α : Type} (o : Option α), o = (o <|> none) := by
    intro α o
    cases o with
    | none => rfl
    | some v => rfl
  cases field with
  | label => exact hdefault r.label fresh.label
  | icon => exact hdefault r.icon fresh.icon
  | color => exact hdefault r.color fresh.color
  | code => exact hnothing r.code
  | config => exact hdefault r.config fresh.config
  | parameters => exact hdefault r.parameters fresh.parameters
  | libraryType => rfl
  | libraryVersion => rfl
  | inputPort => exact hdefault r.inputPort fresh.ports.input
  | outputPort => exact hdefault r.outputPort fresh.ports.output

end OptionalField

theorem completes_of_read? {raw : Json} {r : Record} (h : Record.read? raw = some r)
    (fresh : NodeSpec) : Completes raw fresh (r.applyTo fresh) := by
  obtain ⟨m, hm, hread⟩ := OptionalField.exists_members h
  have hgiven : ∀ field : OptionalField,
      field.given? raw = (m field.name).filter fun d => d ≠ Json.null := by
    intro field
    rw [OptionalField.given?, hm, Option.bind_some]
  constructor
  · intro field d hd
    rw [hgiven] at hd
    obtain ⟨v, hv, hrecord⟩ := (Members.nullable_iff (hread field)).1 d hd
    refine ⟨v, hv, ?_⟩
    rw [OptionalField.ofNode?_applyTo, hrecord]
    rfl
  · intro field hcode hnone
    rw [hgiven] at hnone
    have hrecord := (Members.nullable_iff (hread field)).2 hnone
    rw [OptionalField.ofNode?_applyTo, hrecord, if_neg hcode]
    rfl
  · intro hnone
    rw [hgiven] at hnone
    exact (Members.nullable_iff (hread .code)).2 hnone

namespace Loading

variable {registry : Registry} {f g : Forest} {loaded : Loaded}

/-- The raw records that the usable ones are read from, in their order. Before they are read, all of
them may be prepared in some way. -/
structure Chosen (registry : Registry) (prepare : Json → Json) (raws chosen : List Json) : Prop where
  sublist : chosen.Sublist raws
  records : chosen.map (fun raw => Record.read? (prepare raw)) =
    (usable registry [] (raws.map prepare)).map some

/-- Every usable record is read from one of the raw records. -/
theorem exists_raws (registry : Registry) (seen : List String) (raws : List Json) :
    ∃ chosen : List Json, chosen.Sublist raws ∧
      chosen.map Record.read? = (usable registry seen raws).map some := by
  induction raws generalizing seen with
  | nil => exact ⟨[], List.Sublist.refl _, rfl⟩
  | cons raw rest ih =>
    cases hread : Record.read? raw with
    | none =>
      obtain ⟨chosen, hsub, hall⟩ := ih seen
      exact ⟨chosen, hsub.cons _, by simpa only [usable, hread] using hall⟩
    | some r =>
      by_cases hpass : r.id ∈ seen ∨ Dict.contains registry r.typeName = false
      · obtain ⟨chosen, hsub, hall⟩ := ih seen
        exact ⟨chosen, hsub.cons _, by simpa only [usable, hread, if_pos hpass] using hall⟩
      · obtain ⟨chosen, hsub, hall⟩ := ih (seen ++ [r.id])
        refine ⟨raw :: chosen, hsub.cons_cons raw, ?_⟩
        simp only [usable, hread, if_neg hpass, List.map_cons, hall]

def MadeOf (registry : Registry) (g : Forest) (k : NodeKey) (raw : Json) : Prop :=
  ∃ r n fresh, Record.read? raw = some r ∧ g.node? k = some n ∧ n.spec.id = r.id ∧
    registry.build? r.typeName r.id = some fresh ∧ Completes raw fresh n.spec

def BuiltOf (registry : Registry) (g : Forest) (k : NodeKey) (raw : Json) : Prop :=
  ∃ r n, Record.read? raw = some r ∧ g.node? k = some n ∧ n.spec.id = r.id ∧
    Describes registry r n.spec

theorem BuiltOf.madeOf {k : NodeKey} {raw : Json} (h : BuiltOf registry g k raw) :
    MadeOf registry g k raw := by
  obtain ⟨r, n, hread, hn, hid, fresh, hfresh, hspec⟩ := h
  refine ⟨r, n, fresh, hread, hn, hid, hfresh, ?_⟩
  rw [hspec]
  exact completes_of_read? hread fresh

/-- The nodes of a loaded document are built of its usable records, one of each. -/
theorem Faithful.builtOf {doc : Json} {kept : Kept}
    (hfaithful : Faithful registry f doc loaded g kept) :
    ∃ raws, Chosen registry id (recordsOf doc) raws ∧
      List.Forall₂ (BuiltOf registry g) loaded.nodes raws := by
  obtain ⟨raws, hsub, hrecords⟩ := exists_raws registry [] (recordsOf doc)
  refine ⟨raws, ⟨hsub, by rwa [List.map_id]⟩, ?_⟩
  rw [← hfaithful.records, List.map_map] at hrecords
  have hread : List.Forall₂ (fun e raw => Record.read? raw = some e.1) kept raws := by
    rw [← List.forall₂_eq_eq_eq, List.forall₂_map_left_iff, List.forall₂_map_right_iff] at hrecords
    exact hrecords.flip
  rw [hfaithful.nodes, List.forall₂_map_left_iff]
  have hkept := List.forall₂_and_left (p := fun e => e ∈ kept) kept raws |>.mpr
    ⟨fun e he => he, hread⟩
  refine hkept.imp ?_
  rintro e raw ⟨he, hraw⟩
  obtain ⟨n, hn, hspec, hid, -⟩ := hfaithful.node e he
  exact ⟨e.1, n, hraw, hn, hid, hspec⟩

/-- The nodes of a loaded document of the current version are made of its usable records. Each has
what a fresh node has in all that its record does not give, except for the code. -/
theorem load_completes {doc : Json} {d : Dict Json} (hf : f.Reachable)
    (hfields : doc.fields? = some d) (hcurrent : statedVersion d = .ok .current)
    (hload : load registry byVersion f doc = .ok (loaded, g)) :
    ∃ raws, Chosen registry id (recordsOf doc) raws ∧
      List.Forall₂ (MadeOf registry g) loaded.nodes raws := by
  obtain ⟨-, migrated, hmigrated, hbuild⟩ := load_eq_ok_iff.mp hload
  obtain ⟨kept, hfaithful⟩ := faithful_build registry hf migrated
  rw [hbuild] at hfaithful
  rw [← recordsOf_migrate_current hfields hcurrent hmigrated]
  obtain ⟨raws, hchosen, hbuilt⟩ := hfaithful.builtOf
  exact ⟨raws, hchosen, hbuilt.imp fun _ _ h => h.madeOf⟩

def catalog : Registry :=
  (Registry.standard.registerCustom
    { name := "Patrol", code := "patrol()", parameters := Registry.waitParameters,
      version := some "2" }).2

def terse : Json :=
  .fields [
    ("tree", .fields [
      ("nodes", .list [.fields [("id", Json.text "p"), ("label", Json.text "Guard"),
        ("type", Json.text "Patrol")]])]),
    ("version", Json.text "1.1.0")]

/-- The node of the terse document has what its record and its template give. -/
theorem load_completes_terse :
    empty.Reachable ∧ ∃ d loaded g, terse.fields? = some d ∧ statedVersion d = .ok .current ∧
      load catalog byVersion empty terse = .ok (loaded, g) ∧ loaded.nodes.length = 1 ∧
      ∃ raws, Chosen catalog id (recordsOf terse) raws ∧
        List.Forall₂ (MadeOf catalog g) loaded.nodes raws := by
  have hempty : empty.Reachable := Relation.ReflTransGen.refl
  have hload : ∃ d loaded g, terse.fields? = some d ∧ statedVersion d = .ok .current ∧
      load catalog byVersion empty terse = .ok (loaded, g) ∧ loaded.nodes.length = 1 :=
    ⟨_, _, _, rfl, by rfl, rfl, by rfl⟩
  obtain ⟨d, loaded, g, hfields, hcurrent, hload, hlength⟩ := hload
  exact ⟨hempty, d, loaded, g, hfields, hcurrent, hload, hlength,
    load_completes hempty hfields hcurrent hload⟩

/-- The template has code and the record gives none, but the node is left without code. -/
theorem terse_loses_code :
    ∃ loaded g k r n fresh raw, load catalog byVersion empty terse = .ok (loaded, g) ∧
      loaded.nodes = [k] ∧ recordsOf terse = [raw] ∧ Record.read? raw = some r ∧
      g.node? k = some n ∧ n.spec.id = r.id ∧
      catalog.build? r.typeName r.id = some fresh ∧
      OptionalField.code.given? raw = none ∧ fresh.code = some "patrol()" ∧
      OptionalField.code.ofNode? n.spec ≠ OptionalField.code.ofNode? fresh := by
  refine ⟨_, _, _, _, _, _, _, rfl, rfl, rfl, rfl, rfl, rfl, rfl, rfl, rfl, ?_⟩
  intro h
  exact absurd h nofun

end Loading

end BehaviorTree
