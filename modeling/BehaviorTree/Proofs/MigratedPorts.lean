import BehaviorTree.Proofs.Additions
import BehaviorTree.Proofs.Omissions
import BehaviorTree.Proofs.Templates

/-!
The ports of nodes whose records do not say. A template has the ports that its behavior calls for,
and a record that is silent about them leaves them to the template, with one exception. A record of
version 1.0 is upgraded before there is any node, and gains the ports that fit the category it
states. What it enters by is the same for all categories. What it leaves by is not, so a record that
states another category than its node has, or states none at all, may end up with a wrong port.
-/
namespace BehaviorTree

open Forest Loading Migration

namespace Dict

variable {α : Type}

theorem lookup_eq_none_of_ofList {entries : List (String × α)} {key : String}
    (h : (ofList entries).get? key = none) : entries.lookup key = none := by
  have hfold : ∀ (entries : List (String × α)) (d : Dict α),
      (entries.foldl (fun d e => d.insert e.1 e.2) d).get? key = none →
        d.get? key = none ∧ entries.lookup key = none := by
    intro entries
    induction entries with
    | nil => exact fun d hd => ⟨hd, rfl⟩
    | cons e rest ih =>
      intro d hd
      obtain ⟨hinsert, hrest⟩ := ih _ hd
      rw [get?_insert] at hinsert
      split_ifs at hinsert with hkey
      exact ⟨hinsert, by rw [lookup_cons, if_neg hkey, hrest]⟩
  exact (hfold entries empty h).2

end Dict

/-- What a raw record has in a field. A list of values has them in the order of the fields. -/
def Record.said? (raw : Json) (name : String) : Option Json :=
  match raw with
  | .list items => (fieldNames.zip items).lookup name
  | raw => raw.get? name

/-- The category that a raw record states, which is that of a leaf if it states none. -/
def Record.statedCategory (raw : Json) : Category :=
  ((said? raw "category").bind (Datum.variant? Category.names)).getD .leaf

def NodeSpec.ownPorts (spec : NodeSpec) : Ports := .of spec.category spec.typeName

namespace Record

variable {raw : Json} {m : Members Scalar} {r : Record} {d : Dict Json}

/-- A record that does not say anything in a field is read without it. -/
theorem member_of_said? (hm : Members.ofDatum? fieldNames raw = some m) {name : String}
    (h : said? raw name = none) : m name = none := by
  cases raw with
  | leaf a => cases hm
  | list items =>
    simp only [Members.ofDatum?] at hm
    split_ifs at hm
    obtain rfl := Option.some.inj hm
    exact h
  | fields entries =>
    simp only [Members.ofDatum?] at hm
    split_ifs at hm
    obtain rfl := Option.some.inj hm
    exact Dict.lookup_eq_none_of_ofList h

theorem said?_of_fields (h : raw.fields? = some d) (name : String) :
    said? raw name = d.get? name := by
  cases raw with
  | leaf a => cases h
  | list items => cases h
  | fields entries =>
    obtain rfl := Option.some.inj h
    rfl

theorem port_of_none {port : Option Port} {name : String} (hm : m name = none)
    (hread : m.nullable name (Datum.variant? Port.names) = some port) : port = none :=
  (Option.some.inj ((Members.withDefault_of_none hm).symm.trans hread)).symm

theorem port_of_text {port : Option Port} {name : String} {value : Port}
    (hm : m name = some (Json.text value.name))
    (hread : m.nullable name (Datum.variant? Port.names) = some port) : port = some value := by
  have hname : m name = (some value).map fun p => Datum.text (Port.name p) := hm
  have hvalue : m.nullable name (Datum.variant? Port.names) = some (some value) :=
    nullable_port hname
  exact (Option.some.inj (hvalue.symm.trans hread)).symm

section

variable (hm : ∀ name, m name = (upgradeRecord d).get? name) (hr : ReadFrom r m)
include hm hr

/-- The upgrade looks at the very category that is read afterwards. -/
theorem category_of_upgraded :
    ((d.get? "category").bind (Datum.variant? Category.names)).getD .leaf = r.category := by
  have hkept : m "category" = d.get? "category" :=
    (hm "category").trans ((supplemented_upgradeRecord d).nothing_else _ (by simp [additions]))
  have hread := hr.category
  unfold Members.withDefault at hread
  rw [hkept] at hread
  cases hget : d.get? "category" with
  | none =>
    rw [hget] at hread
    exact Option.some.inj hread
  | some v =>
    rw [hget] at hread
    rw [Option.bind_some]
    exact congrArg (Option.getD · .leaf) hread

/-- The upgrade fills in the ports of the category that the record states. -/
theorem portsOf_upgraded : portsOf d = .of r.category r.typeName := by
  have hkept : m "type" = d.get? "type" :=
    (hm "type").trans ((supplemented_upgradeRecord d).nothing_else _ (by simp [additions]))
  have htext : (Datum.text? : Json → Option String) = Json.text? := by
    funext v
    cases v with
    | leaf s => cases s <;> rfl
    | list items => rfl
    | fields entries => rfl
  have htype : (d.get? "type").bind Json.text? = some r.typeName := by
    rw [← htext, ← hkept]
    exact hr.typeName
  simp only [portsOf, htype, Option.getD_some, category_of_upgraded hm hr]

/-- A port that an upgraded record had not said anything about is one that fits its category. -/
theorem ports_of_upgraded :
    (d.get? "inputPortType" = none →
      r.inputPort = some (Ports.of r.category r.typeName).input) ∧
    (d.get? "outputPortType" = none →
      r.outputPort = some (Ports.of r.category r.typeName).output) := by
  have hadded := (supplemented_upgradeRecord d).added
  rw [← portsOf_upgraded hm hr]
  constructor
  · intro hnone
    exact port_of_text ((hm _).trans (hadded _ _ rfl hnone)) hr.inputPort
  · intro hnone
    exact port_of_text ((hm _).trans (hadded _ _ rfl hnone)) hr.outputPort

end

end Record

theorem Ports.of_input (c c' : Category) (typeName : String) :
    (Ports.of c typeName).input = (Ports.of c' typeName).input := by
  unfold Ports.of
  split
  · rfl
  · cases c <;> cases c' <;> rfl

/-- Only the output tells one category from another, and not at a start node. -/
theorem Ports.of_output_eq_iff {c c' : Category} {typeName : String} :
    (Ports.of c typeName).output = (Ports.of c' typeName).output ↔
      typeName = startType ∨ c = c' := by
  unfold Ports.of
  split
  · next hstart => simp [hstart]
  · next hother => cases c <;> cases c' <;> simp [hother]

def Record.Upgraded (found : Version) (raw : Json) : Prop :=
  found.major = 1 ∧ found.minor = 0 ∧ ∃ d, raw.fields? = some d

/-- The ports of a node about which its record does not say anything. -/
structure NodeSpec.PortsFit (found : Version) (raw : Json) (spec : NodeSpec) : Prop where
  input : Record.said? raw "inputPortType" = none → spec.ports.input = spec.ownPorts.input
  kept : Record.said? raw "outputPortType" = none → ¬ Record.Upgraded found raw →
    spec.ports.output = spec.ownPorts.output
  stated : Record.said? raw "outputPortType" = none → Record.Upgraded found raw →
    spec.ports.output = (Ports.of (Record.statedCategory raw) spec.typeName).output
  fits_iff : Record.said? raw "outputPortType" = none → Record.Upgraded found raw →
    (spec.ports.output = spec.ownPorts.output ↔
      spec.typeName = startType ∨ Record.statedCategory raw = spec.category)

namespace Loading

variable {registry : Registry} {f g : Forest} {loaded : Loaded} {k : NodeKey} {raw doc : Json}
  {d : Dict Json} {found : Version} {r : Record} {spec : NodeSpec}

/-- What a record says about the ports goes before what the node calls for. -/
theorem Describes.ports (h : Describes registry r spec) (hreg : registry.Regular) :
    spec.typeName = r.typeName ∧ spec.ports =
      ⟨r.inputPort.getD spec.ownPorts.input, r.outputPort.getD spec.ownPorts.output⟩ := by
  obtain ⟨fresh, hfresh, rfl⟩ := h
  obtain ⟨t, ht, rfl⟩ := Option.map_eq_some_iff.mp hfresh
  exact ⟨(hreg r.typeName t ht).typeName, rfl⟩

theorem upgradeOf_of_not (h : ¬ Record.Upgraded found raw) : upgradeOf found raw = raw := by
  unfold upgradeOf
  split
  · next hversion =>
    unfold onFields
    cases hfields : raw.fields? with
    | none => rfl
    | some d => exact absurd ⟨hversion.1, hversion.2, d, hfields⟩ h
  · rfl

theorem upgradeOf_of_fields (hmajor : found.major = 1) (hminor : found.minor = 0)
    (hfields : raw.fields? = some d) : upgradeOf found raw = Json.ofDict (upgradeRecord d) := by
  rw [upgradeOf, if_pos ⟨hmajor, hminor⟩, onFields, hfields]

/-- The node is the one that its record and the registry call for, and the ports that the record is
silent about are its own, except for those that were filled in for the category it stated. -/
def PortedFrom (found : Version) (g : Forest) (k : NodeKey) (raw : Json) : Prop :=
  ∃ r n, Record.read? (upgradeOf found raw) = some r ∧ g.node? k = some n ∧ n.spec.id = r.id ∧
    n.spec.typeName = r.typeName ∧ n.spec.PortsFit found raw

/-- A node that is built of a record has the ports that the record calls for. -/
theorem BuiltOf.portedFrom (h : BuiltOf registry g k (upgradeOf found raw))
    (hreg : registry.Regular) : PortedFrom found g k raw := by
  obtain ⟨r, n, hread, hn, hid, hspec⟩ := h
  obtain ⟨htype, hports⟩ := hspec.ports hreg
  obtain ⟨m, hm, hr⟩ := Record.read?_eq_some_iff.mp hread
  refine ⟨r, n, hread, hn, hid, htype, ?_⟩
  by_cases hup : Record.Upgraded found raw
  · obtain ⟨hmajor, hminor, d, hfields⟩ := id hup
    rw [upgradeOf_of_fields hmajor hminor hfields] at hm
    have hget : ∀ name, m name = (upgradeRecord d).get? name := by
      simp only [Json.ofDict, Members.ofDatum?] at hm
      split_ifs at hm
      obtain rfl := Option.some.inj hm
      exact fun name => rfl
    have hsaid := Record.said?_of_fields hfields
    have hcategory : Record.statedCategory raw = r.category := by
      rw [Record.statedCategory, hsaid]
      exact Record.category_of_upgraded hget hr
    obtain ⟨hinput, houtput⟩ := Record.ports_of_upgraded hget hr
    have hstated : Record.said? raw "outputPortType" = none →
        n.spec.ports.output = (Ports.of (Record.statedCategory raw) n.spec.typeName).output := by
      intro hnone
      rw [hports, houtput (hsaid _ ▸ hnone), Option.getD_some, hcategory, htype]
    refine ⟨fun hnone => ?_, fun _ hnot => absurd hup hnot, fun hnone _ => hstated hnone,
      fun hnone _ => ?_⟩
    · rw [hports, hinput (hsaid _ ▸ hnone), Option.getD_some, ← htype]
      exact Ports.of_input _ _ _
    · rw [hstated hnone, NodeSpec.ownPorts]
      exact Ports.of_output_eq_iff
  · rw [upgradeOf_of_not hup] at hm
    refine ⟨fun hnone => ?_, fun hnone _ => ?_, fun _ h => absurd h hup, fun _ h => absurd h hup⟩
    · have hport := Record.port_of_none (Record.member_of_said? hm hnone) hr.inputPort
      rw [hports, hport, Option.getD_none]
    · have hport := Record.port_of_none (Record.member_of_said? hm hnone) hr.outputPort
      rw [hports, hport, Option.getD_none]

/-- Every node of a loaded document enters by the port that it calls for, if its record does not say
otherwise. It leaves by the port that it calls for too, unless its record was upgraded and states
another category than that of the node. -/
theorem load_ports (hreg : registry.Regular) (hf : f.Reachable) (hfields : doc.fields? = some d)
    (hfound : States d found) (hload : load registry byVersion f doc = .ok (loaded, g)) :
    ∃ raws, Chosen registry (upgradeOf found) (recordsOf doc) raws ∧
      List.Forall₂ (PortedFrom found g) loaded.nodes raws := by
  obtain ⟨-, migrated, hmigrated, hbuild⟩ := load_eq_ok_iff.mp hload
  obtain ⟨kept, hfaithful⟩ := faithful_build registry hf migrated
  rw [hbuild] at hfaithful
  obtain ⟨taken, hchosen, hbuilt⟩ := hfaithful.builtOf
  obtain ⟨d', found', hfields', hfound', -, rfl⟩ := exists_of_migrate hmigrated
  obtain rfl := Option.some.inj (hfields'.symm.trans hfields)
  obtain rfl := hfound.unique (statedVersion_eq_ok_iff.mp hfound')
  rw [recordsOf_brought, recordsOf_of_fields hfields] at hchosen
  obtain ⟨raws, hsub, rfl⟩ := List.sublist_map_iff.mp hchosen.sublist
  have hrecords := hchosen.records
  rw [List.map_id, List.map_map] at hrecords
  rw [List.forall₂_map_right_iff] at hbuilt
  exact ⟨raws, ⟨hsub, hrecords⟩, hbuilt.imp fun _ _ h => h.portedFrom hreg⟩

def lone (stamp said : List (String × Json)) : Json :=
  .fields ([("tree", .fields [
    ("nodes", .list [.fields (said ++ [("id", Json.text "q"), ("type", Json.text "Sequence")])]),
    ("root", Json.text "q")])] ++ stamp)

/-- A sequence that says that it is a composite has a fitting port. -/
theorem load_ports_lone :
    let doc := lone [("version", Json.text "1.0.3")] [("category", Json.text "composite")]
    empty.Reachable ∧ ∃ d loaded g, doc.fields? = some d ∧ States d ⟨1, 0, 3⟩ ∧
      load .standard byVersion empty doc = .ok (loaded, g) ∧ loaded.nodes.length = 1 ∧
      ∃ raws, Chosen .standard (upgradeOf ⟨1, 0, 3⟩) (recordsOf doc) raws ∧
        List.Forall₂ (PortedFrom ⟨1, 0, 3⟩ g) loaded.nodes raws := by
  intro doc
  have hempty : empty.Reachable := Relation.ReflTransGen.refl
  have hload : ∃ d loaded g, doc.fields? = some d ∧ States d ⟨1, 0, 3⟩ ∧
      load .standard byVersion empty doc = .ok (loaded, g) ∧ loaded.nodes.length = 1 :=
    ⟨_, _, _, rfl, .text rfl (by decide), rfl, by rfl⟩
  obtain ⟨d, loaded, g, hfields, hstates, hload, hlength⟩ := hload
  exact ⟨hempty, d, loaded, g, hfields, hstates, hload, hlength,
    load_ports Registry.standard_regular hempty hfields hstates hload⟩

/-- The output of a sequence in a document without a version is closed, as that of a leaf would be.
In a document of the current version the same record leaves it open. -/
theorem silent_sequence_is_closed :
    ∃ d loaded g n loaded' g' n' raw,
      (lone [] []).fields? = some d ∧ States d .legacy ∧ recordsOf (lone [] []) = [raw] ∧
      Record.said? raw "outputPortType" = none ∧
      load .standard byVersion empty (lone [] []) = .ok (loaded, g) ∧ loaded.nodes = [0] ∧
      g.node? 0 = some n ∧ n.spec.ports.output ≠ n.spec.ownPorts.output ∧
      recordsOf (lone [("version", Json.text "1.1.0")] []) = [raw] ∧
      load .standard byVersion empty (lone [("version", Json.text "1.1.0")] []) =
        .ok (loaded', g') ∧
      g'.node? 0 = some n' ∧ n'.spec.ports.output = n'.spec.ownPorts.output := by
  refine ⟨_, _, _, _, _, _, _, _, rfl, .absent rfl, rfl, rfl, rfl, rfl, rfl, ?_, rfl, rfl, rfl,
    rfl⟩
  intro h
  exact absurd h nofun

end Loading

end BehaviorTree
