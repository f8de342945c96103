import BehaviorTree.Proofs.RecordCodec
import BehaviorTree.Proofs.WholeFloats

/-!
Documents and runs with whole numbers that are written as floats. Reading a record, upgrading it
and putting its config over that of a template keep apart what is written in one way and in the
other, so two such documents are loaded as two such sets of nodes. From then on the nodes are
ticked alike. As long as no limit on children is among the numbers, they are linked alike too.
-/
namespace BehaviorTree

open Forest Loading Migration
open Json (WholeFloat)

variable {σ : Type} {names : List String} {raw raw' : Json}

/-- The value that a record has for its config, with floats for whole numbers under some names. -/
inductive Json.ConfigFloats (names : List String) : Json → Json → Prop
  | same (v : Json) : ConfigFloats names v v
  | fields {entries entries' : List (String × Json)}
      (h : Dict.Entrywise (WholeFloat names) entries entries') :
      ConfigFloats names (.fields entries) (.fields entries')

open Json (ConfigFloats)

inductive Json.FieldFloats (names : List String) (key : String) : Json → Json → Prop
  | same (v : Json) : FieldFloats names key v v
  | config {v v' : Json} (hkey : key = "config") (h : ConfigFloats names v v') :
      FieldFloats names key v v'

open Json (FieldFloats)

/-- A raw record whose config has floats for whole numbers under some names. In a record that is a
list of values, the config is the ninth. -/
inductive Json.RecordFloats (names : List String) : Json → Json → Prop
  | same (raw : Json) : RecordFloats names raw raw
  | fields {entries entries' : List (String × Json)}
      (h : Dict.Entrywise (FieldFloats names) entries entries') :
      RecordFloats names (.fields entries) (.fields entries')
  | list (before after : List Json) {v v' : Json} (hbefore : before.length = 8)
      (h : ConfigFloats names v v') :
      RecordFloats names (.list (before ++ v :: after)) (.list (before ++ v' :: after))

open Json (RecordFloats)

structure MembersFloats (names : List String) (m m' : Members Scalar) : Prop where
  others : ∀ name, name ≠ "config" → m' name = m name
  config : Option.Rel (ConfigFloats names) (m "config") ( m' "config")

theorem MembersFloats.of_entrywise {entries entries' : List (String × Json)}
    (h : Dict.Entrywise (FieldFloats names) entries entries') :
    MembersFloats names (fun name => entries.lookup name) fun name => entries'.lookup name where
  others name hname := by
    rcases rel_cases (h.lookup name) with ⟨hv, hv'⟩ | ⟨v, v', hv, hv', hfield⟩
    · rw [hv, hv']
    · cases hfield with
      | same => rw [hv, hv']
      | config hkey _ => exact absurd hkey hname
  config := by
    rcases rel_cases (h.lookup "config") with ⟨hv, hv'⟩ | ⟨v, v', hv, hv', hfield⟩
    · rw [hv, hv']
      exact .none
    · rw [hv, hv']
      cases hfield with
      | same => exact .some (.same _)
      | config _ h => exact .some h

/-- Records that differ in such floats have members that do. -/
theorem Json.RecordFloats.members (h : RecordFloats names raw raw') :
    Option.Rel (MembersFloats names) (Members.ofDatum? Record.fieldNames raw)
      (Members.ofDatum? Record.fieldNames raw') := by
  cases h with
  | same =>
    refine rel_refl (fun m => ?_) _
    exact ⟨fun _ _ => rfl, rel_refl .same _⟩
  | fields h =>
    simp only [Members.ofDatum?, h.keys]
    split
    · exact .none
    · exact .some (.of_entrywise h)
  | @list before after v v' hbefore h =>
    -- the names are given to the values in their order, so the config is the same place in both
    have hnames : Record.fieldNames =
        Record.fieldNames.take 8 ++ "config" :: Record.fieldNames.drop 9 := rfl
    have hzip : ∀ w : Json, Record.fieldNames.zip (before ++ w :: after) =
        (Record.fieldNames.take 8).zip before ++
          ("config", w) :: (Record.fieldNames.drop 9).zip after := by
      intro w
      have hlength : (Record.fieldNames.take 8).length = before.length := hbefore.symm
      rw [hnames, List.zip_append hlength, List.zip_cons_cons]
      rfl
    have hrest := fun l => Dict.Entrywise.refl (P := FieldFloats names) (fun _ => .same) l
    have hzipped : Dict.Entrywise (FieldFloats names)
        (Record.fieldNames.zip (before ++ v :: after))
        (Record.fieldNames.zip (before ++ v' :: after)) := by
      rw [hzip, hzip]
      exact List.rel_append (hrest _) (.cons ⟨rfl, .config rfl h⟩ (hrest _))
    simp only [Members.ofDatum?, List.length_append, List.length_cons]
    split
    · exact .none
    · exact .some (.of_entrywise hzipped)

/-- A record whose config has floats for whole numbers under some names. -/
structure Record.Reworded (names : List String) (r s : Record) : Prop where
  config : Option.Rel (Dict.FloatsFor names) r.config s.config
  others : s = { r with config := s.config }

theorem Dict.Entrywise.mapM_json? {entries entries' : List (String × Json)}
    (h : Dict.Entrywise (WholeFloat names) entries entries') :
    Option.Rel (Dict.Entrywise (WholeFloat names))
      (entries.mapM fun e => (Datum.json? e.2).map (e.1, ·))
      (entries'.mapM fun e => (Datum.json? e.2).map (e.1, ·)) := by
  induction h with
  | nil => exact .some .nil
  | @cons e e' _ _ he _ ih =>
    obtain ⟨k, v⟩ := e
    obtain ⟨k', v'⟩ := e'
    obtain ⟨rfl, hv⟩ := he
    rw [List.mapM_cons, List.mapM_cons]
    refine rel_bind (P := fun e e' => e'.1 = e.1 ∧ WholeFloat names e.1 e.2 e'.2) ?_ ?_
    · rcases rel_cases hv.json? with ⟨ho, ho'⟩ | ⟨w, w', ho, ho', hw⟩
      · rw [ho, ho']
        exact .none
      · rw [ho, ho']
        exact .some ⟨rfl, hw⟩
    · intro e e' he
      refine rel_bind ih fun rest rest' hrest => ?_
      exact .some (.cons he hrest)

theorem MembersFloats.config? {m m' : Members Scalar} (h : MembersFloats names m m') :
    Option.Rel (Option.Rel (Dict.FloatsFor names))
      (m.nullable "config" (Datum.dict? Datum.json?))
      (m'.nullable "config" (Datum.dict? Datum.json?)) := by
  unfold Members.nullable Members.withDefault
  rcases rel_cases h.config with ⟨hc, hc'⟩ | ⟨v, v', hc, hc', hv⟩
  · rw [hc, hc']
    exact .some .none
  · rw [hc, hc']
    cases hv with
    | same => exact rel_refl (rel_refl Dict.floatsFor_refl) _
    | @fields entries entries' hentries =>
      simp only [Datum.nullable?, Datum.givesValue?, Option.bind_some, if_true, Datum.dict?]
      rcases rel_cases hentries.mapM_json? with ⟨hread, hread'⟩ | ⟨es, es', hread, hread', hes⟩
      · rw [hread, hread']
        exact .none
      · rw [hread, hread']
        exact .some (.some hes.ofList)

/-- Both records are read, and come out with such a difference in their configs at most. -/
theorem Json.RecordFloats.read? (h : RecordFloats names raw raw') :
    Option.Rel (Record.Reworded names) (Record.read? raw) (Record.read? raw') := by
  have hsame : ∀ {α β γ : Type} {Q : β → γ → Prop} {o : Option α} {next : α → Option β}
      {next' : α → Option γ}, (∀ a, Option.Rel Q (next a) (next' a)) →
        Option.Rel Q (o >>= next) (o >>= next') := fun hnext =>
    rel_bind (rel_refl (P := Eq) (fun _ => rfl) _) fun a b hab => hab ▸ hnext a
  refine rel_bind h.members fun m m' hm => ?_
  have hrequired : ∀ {α : Type} {name : String} {read : Json → Option α}, name ≠ "config" →
      m'.required name read = m.required name read := fun hname => by
    rw [Members.required, Members.required, hm.others _ hname]
  have hdefault : ∀ {α : Type} {name : String} {default : α} {read : Json → Option α},
      name ≠ "config" → m'.withDefault name default read = m.withDefault name default read :=
    fun hname => by rw [Members.withDefault, Members.withDefault, hm.others _ hname]
  have hnullable : ∀ {α : Type} {name : String} {read : Json → Option α}, name ≠ "config" →
      m'.nullable name read = m.nullable name read := fun hname => hdefault hname
  simp (disch := decide) only [hrequired, hdefault, hnullable]
  iterate 8 refine hsame fun _ => ?_
  refine rel_bind hm.config? fun config config' hconfig => ?_
  iterate 7 refine hsame fun _ => ?_
  exact .some ⟨hconfig, rfl⟩

theorem portsOf_congr {d d' : Dict Json} (hcategory : d'.get? "category" = d.get? "category")
    (htype : d'.get? "type" = d.get? "type") : portsOf d' = portsOf d := by
  unfold portsOf
  rw [hcategory, htype]

theorem Dict.Entrywise.upgradeRecord {d d' : Dict Json}
    (h : Dict.Entrywise (FieldFloats names) d.entries d'.entries) :
    Dict.Entrywise (FieldFloats names) (Migration.upgradeRecord d).entries
      (Migration.upgradeRecord d').entries := by
  have hmembers := MembersFloats.of_entrywise h
  have hports : portsOf d' = portsOf d :=
    portsOf_congr (hmembers.others "category" (by decide)) (hmembers.others "type" (by decide))
  unfold Migration.upgradeRecord
  rw [hports]
  exact ((h.addMissing _ (.same _)).addMissing _ (.same _)).addMissing _ (.same _)

theorem Json.RecordFloats.upgradeOf (h : RecordFloats names raw raw') (found : Version) :
    RecordFloats names (Migration.upgradeOf found raw) (Migration.upgradeOf found raw') := by
  unfold Migration.upgradeOf
  split
  · cases h with
    | same => exact .same _
    | fields h => exact .fields h.ofList.upgradeRecord
    | list before after hbefore h => exact .list before after hbefore h
  · exact h

def Registry.BuiltInOnly (registry : Registry) : Prop :=
  ∀ name t, Dict.get? registry name = some t → ∃ kind : BuiltIn, t.behavior = kind.behavior

namespace Registry

variable {r : Registry}

theorem register_builtInOnly (hr : r.BuiltInOnly) (typeName : String) (kind : BuiltIn) :
    (r.register typeName kind.behavior).BuiltInOnly :=
  Dict.All.insert hr ⟨kind, rfl⟩

theorem registerAll_builtInOnly (hr : r.BuiltInOnly) (types : List (String × BuiltInType)) :
    (r.registerAll types).BuiltInOnly := by
  induction types generalizing r with
  | nil => exact hr
  | cons type rest ih => exact ih (register_builtInOnly hr type.1 type.2.kind)

theorem modify_builtInOnly (hr : r.BuiltInOnly) (typeName : String) {change : Template → Template}
    (hchange : ∀ t, (change t).behavior = t.behavior) :
    BuiltInOnly (Dict.modify r typeName change) :=
  Dict.All.modify hr typeName fun _ t ⟨kind, hkind⟩ => ⟨kind, (hchange t).trans hkind⟩

theorem setDefaultConfig_builtInOnly (hr : r.BuiltInOnly) (typeName : String)
    (config : Dict Json) : (r.setDefaultConfig typeName config).BuiltInOnly :=
  modify_builtInOnly hr typeName fun _ => rfl

theorem setDefaultParameters_builtInOnly (hr : r.BuiltInOnly) (typeName : String)
    (parameters : ParameterSet) : (r.setDefaultParameters typeName parameters).BuiltInOnly :=
  modify_builtInOnly hr typeName fun _ => rfl

theorem standard_builtInOnly : standard.BuiltInOnly := by
  have hempty : BuiltInOnly .empty := fun name t ht => absurd ht nofun
  have htypes := registerAll_builtInOnly hempty builtInTypes
  have hparallel := setDefaultConfig_builtInOnly htypes "Parallel" parallelConfig
  have hrepeater := setDefaultConfig_builtInOnly hparallel "Repeater" repeaterConfig
  have hwait := setDefaultParameters_builtInOnly hrepeater "Wait" waitParameters
  exact setDefaultParameters_builtInOnly hwait "GoTo" goToParameters

end Registry

variable {registry : Registry} {doc : Json} {raws : List Json}

/-- Nodes made of both records are the same in other words. -/
theorem Record.Reworded.alike {r s : Record} (h : r.Reworded names s)
    (hreg : registry.BuiltInOnly) : RecordAlike registry (NodeSpec.Reworded names) r s := by
  obtain ⟨hconfig, hothers⟩ := h
  generalize s.config = config at hconfig hothers
  subst hothers
  refine ⟨rfl, rfl, rfl, fun fresh hfresh => ?_⟩
  obtain ⟨t, ht, rfl⟩ := Option.map_eq_some_iff.mp hfresh
  refine ⟨hreg r.typeName t ht, ?_, rfl⟩
  change (r.config.getD t.config).FloatsFor names (config.getD t.config)
  generalize r.config = o at hconfig
  cases hconfig with
  | none => exact Dict.floatsFor_refl t.config
  | some h => exact h

/-- A document is checked and brought to the current version whether its configs have floats or
not, and the records then have floats where they had them before. -/
theorem submittedAlike_of_floats (hreg : registry.BuiltInOnly)
    (hraws : List.Forall₂ (RecordFloats names) (recordsOf doc) raws) :
    SubmittedAlike registry byVersion (NodeSpec.Reworded names) doc (withRecords raws doc) where
  problems := problems_withRecords raws doc
  refused e he := migrate_withRecords_error he
  migrated new hnew := by
    have hnil : recordsOf doc = [] → raws = [] := by
      intro hnil
      rw [hnil] at hraws
      cases hraws
      rfl
    obtain ⟨found, new', hnew', hold, hmade, hroot, hvalues, hmetadata⟩ :=
      migrate_withRecords hnew hnil
    refine ⟨new', hnew', ?_, hroot, hvalues, hmetadata⟩
    rw [hold, hmade, List.forall₂_map_left_iff, List.forall₂_map_right_iff]
    refine hraws.imp fun raw raw' hraw => ?_
    rcases rel_cases (hraw.upgradeOf found).read? with ⟨ho, ho'⟩ | ⟨r, s, ho, ho', h⟩
    · rw [ho, ho']
      exact .none
    · rw [ho, ho']
      exact .some (h.alike hreg)

/-- What a host may do to two engines of which one has floats for whole numbers under some names.
Documents and new edges have a part in it unless the limit on children is among the names. -/
inductive Call.WithFloats (names : List String) : Call → Call → Prop
  | same {c : Call} (h : c.KeepsForest) : WithFloats names c c
  | attach (p c : NodeKey) (hnames : "maxChildren" ∉ names) :
      WithFloats names (.edit fun f => (f.adopt p c).2) (.edit fun f => (f.adopt p c).2)
  | detach (p c : NodeKey) :
      WithFloats names (.edit fun f => (f.detach p c).2) (.edit fun f => (f.detach p c).2)
  | load {registry : Registry} {doc : Json} {raws : List Json} (hnames : "maxChildren" ∉ names)
      (hreg : registry.BuiltInOnly)
      (hraws : List.Forall₂ (RecordFloats names) (recordsOf doc) raws) :
      WithFloats names (.load registry byVersion (some doc))
        (.load registry byVersion (some (withRecords raws doc)))

/-- Floats for whole numbers make no difference to the room for children, as long as the limit is no
such float. -/
theorem capacity_of_reworded (hnames : "maxChildren" ∉ names) :
    ∀ s t : NodeSpec, s.Reworded names t → t.capacity = s.capacity :=
  fun _ _ h => h.capacity_eq hnames

theorem Call.WithFloats.alike {c c' : Call} (h : c.WithFloats names c') :
    c.Alike (NodeSpec.Reworded names) c' := by
  cases h with
  | same h => exact .same h
  | attach p c hnames =>
    exact .edit fun f g hf => (hf.adopt (capacity_of_reworded hnames) p c).2
  | detach p c => exact .edit fun f g hf => (hf.detach p c).2
  | load hnames hreg hraws =>
    exact .load (capacity_of_reworded hnames) (submittedAlike_of_floats hreg hraws)

/-- Two engines of which one has floats for whole numbers under some names, as far as a host can
tell. -/
structure Engine.SameButFloats (names : List String) (ex : Executor σ) (e d : Engine σ) :
    Prop where
  /-- Trees, clocks, memories and notices are the same, and so are all nodes but for configs. -/
  alike : e.Alike (NodeSpec.Reworded names) d
  /-- The status of the next pass, its requests and the blackboard that it leaves. -/
  report : (d.observe ex).1 = (e.observe ex).1
  tickNode : ∀ k, (d.tickNode ex k).1 = (e.tickNode ex k).1 ∧
    (e.tickNode ex k).2.Alike (NodeSpec.Reworded names) (d.tickNode ex k).2
  attach : "maxChildren" ∉ names → ∀ p c, (d.forest.adopt p c).1 = (e.forest.adopt p c).1
  load : "maxChildren" ∉ names → ∀ (registry : Registry) (doc : Json) (raws : List Json),
    registry.BuiltInOnly → List.Forall₂ (RecordFloats names) (recordsOf doc) raws →
      LoadedAlike (NodeSpec.Reworded names) (Loading.load registry byVersion e.forest doc)
        (Loading.load registry byVersion d.forest (withRecords raws doc))
  /-- A limit that is written as a float is none. -/
  unlimited : ∀ p n x, d.forest.node? p = some n →
    n.spec.config.get? "maxChildren" = some (Json.float x) →
      d.forest.capacity p = n.spec.behavior.capacity

/-- Whole numbers in the configs of built-in nodes may be written as floats, and no run shows a
difference, with one exception: a float does not limit the children of a composite. -/
theorem Engine.run_with_floats {e d : Engine σ} (h : e.Alike (NodeSpec.Reworded names) d)
    (ex : Executor σ) {calls calls' : List Call}
    (hcalls : List.Forall₂ (Call.WithFloats names) calls calls') :
    (e.run ex calls).SameButFloats names ex (d.run ex calls') := by
  have hruns : ∀ s t : NodeSpec, s.Reworded names t → s.RunsLike t := fun _ _ h => h.runsLike
  have hrun := h.run hruns ex (hcalls.imp fun _ _ hc => hc.alike)
  refine ⟨hrun, hrun.report hruns ex, hrun.tickNode hruns ex, ?_, ?_, ?_⟩
  · exact fun hnames p c => (hrun.forest.adopt (capacity_of_reworded hnames) p c).1
  · intro hnames registry doc raws hreg hraws
    exact load_alike (capacity_of_reworded hnames) hrun.forest
      (submittedAlike_of_floats hreg hraws)
  · intro p n x hn hlimit
    rw [Forest.capacity, hn, Option.map_some, Option.getD_some,
      NodeSpec.capacity_of_float hlimit]

def workshop (kind : BuiltIn) (typeName key : String) (value : Json) : Forest :=
  let new (kind : BuiltIn) (typeName id : String) : NodeSpec :=
    (Template.plain typeName kind.behavior).instantiate id
  let top := { new kind typeName "top" with config := .ofList [(key, value)] }
  (((empty.add top).2.add (new .script "Action" "a")).2.add (new .script "Action" "b")).2

theorem workshop_alike {kind : BuiltIn} {typeName key : String} {n : ℕ} (hkey : key ∈ names)
    (hn : n < 2 ^ 53) : (workshop kind typeName key (Json.int n)).Alike (NodeSpec.Reworded names)
      (workshop kind typeName key (Json.float (.ofNat n))) := by
  have haction : ∀ id : String,
      ((Template.plain "Action" BuiltIn.script.behavior).instantiate id).Reworded names
        ((Template.plain "Action" BuiltIn.script.behavior).instantiate id) :=
    fun id => ⟨⟨.script, rfl⟩, Dict.floatsFor_refl _, rfl⟩
  have hconfig : (Dict.ofList [(key, Json.int n)]).FloatsFor names
      (Dict.ofList [(key, Json.float (.ofNat n))]) :=
    Dict.Entrywise.ofList (.cons ⟨rfl, .float hkey hn⟩ .nil)
  exact ((alike_empty.add ⟨⟨kind, rfl⟩, hconfig, rfl⟩).add (haction "a")).add (haction "b")

def repeating (count : Json) : Json :=
  .fields [("tree", .fields [("nodes", .list [.fields [("config", .fields [("count", count)]),
    ("id", Json.text "r"), ("type", Json.text "Repeater")]])])]

def repeatingCalls (doc : Json) : List Call :=
  [.edit fun f => (f.adopt 0 1).2, .setRoot (some 0), .tick, .load .standard byVersion (some doc)]

/-- The repeating host cannot tell a count of one notation from the other. -/
theorem Engine.run_with_floats_repeating :
    let names := ["minSuccess", "minFailure", "count"]
    let ex : Executor Unit := fun _ world => (.ok .success, world)
    let whole := Engine.begin 10 0 (workshop .repeater "Repeater" "count" (Json.int 2)) ()
    let float :=
      Engine.begin 10 0 (workshop .repeater "Repeater" "count" (Json.float (.ofNat 2))) ()
    let doc := repeating (Json.int 3)
    let doc' := withRecords (recordsOf (repeating (Json.float (.ofNat 3)))) doc
    whole.Alike (NodeSpec.Reworded names) float ∧
      List.Forall₂ (Call.WithFloats names) (repeatingCalls doc) (repeatingCalls doc') ∧
      (whole.run ex (repeatingCalls doc)).SameButFloats names ex
        (float.run ex (repeatingCalls doc')) := by
  intro names ex whole float doc doc'
  have hnames : "maxChildren" ∉ names := by decide
  have hcount : "count" ∈ names := by decide
  have halike : whole.Alike (NodeSpec.Reworded names) float :=
    ⟨workshop_alike hcount (n := 2) (by decide), rfl, rfl, rfl, rfl⟩
  have hraws : List.Forall₂ (RecordFloats names) (recordsOf doc)
      (recordsOf (repeating (Json.float (.ofNat 3)))) := by
    have hrest := Dict.Entrywise.refl (P := FieldFloats names) (fun _ => .same)
      [("id", Json.text "r"), ("type", Json.text "Repeater")]
    have hconfig : ConfigFloats names (.fields [("count", Json.int 3)])
        (.fields [("count", Json.float (.ofNat 3))]) :=
      .fields (.cons ⟨rfl, .float (n := 3) hcount (by decide)⟩ .nil)
    exact .cons (.fields (.cons ⟨rfl, .config rfl hconfig⟩ hrest)) .nil
  have hcalls : List.Forall₂ (Call.WithFloats names) (repeatingCalls doc) (repeatingCalls doc') :=
    .cons (.attach 0 1 hnames) <| .cons (.same trivial) <| .cons (.same trivial) <|
      .cons (.load hnames Registry.standard_builtInOnly hraws) .nil
  exact ⟨halike, hcalls, Engine.run_with_floats halike ex hcalls⟩

/-- A sequence that may have one child has one already. As a float its limit is none. -/
theorem float_lifts_limit :
    ∃ f g : Forest, f.Reachable ∧ g.Reachable ∧ f.Alike (NodeSpec.Reworded ["maxChildren"]) g ∧
      (f.adopt 0 2).1 = .error (.tooManyNodes 1) ∧ (g.adopt 0 2).1 = .ok () := by
  have hsize : ∀ value, (workshop .sequence "Sequence" "maxChildren" value).size = 3 :=
    fun value => by simp only [workshop, size_add]; rfl
  have hnew : ∀ value, (workshop .sequence "Sequence" "maxChildren" value).Reachable := fun value =>
    ((Relation.ReflTransGen.refl.tail (Step.add _)).tail (Step.add _)).tail (Step.add _)
  have hreach : ∀ value,
      ((workshop .sequence "Sequence" "maxChildren" value).adopt 0 1).2.Reachable := fun value =>
    (hnew value).tail (Step.adopt (by rw [hsize]; decide) (by rw [hsize]; decide))
  have halike : (workshop .sequence "Sequence" "maxChildren" (Json.int 1)).Alike
      (NodeSpec.Reworded ["maxChildren"])
      (workshop .sequence "Sequence" "maxChildren" (Json.float (.ofNat 1))) :=
    workshop_alike (n := 1) (by decide) (by decide)
  -- which float it is does not matter for the limit
  obtain ⟨x, hx, hfloat⟩ : ∃ x hx, Json.float (.ofNat 1) = .leaf (.number (.float x hx)) :=
    ⟨_, _, Json.float_ofNat (by decide)⟩
  rw [hfloat] at halike
  exact ⟨_, _, hreach (Json.int 1), hreach (.leaf (.number (.float x hx))), halike.link 0 1,
    by rfl, by rfl⟩

end BehaviorTree
