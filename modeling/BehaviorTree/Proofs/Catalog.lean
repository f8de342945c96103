import BehaviorTree.Proofs.LoadedForest
import BehaviorTree.Proofs.Templates
import BehaviorTree.Proofs.NodeHistory

/-!
Registries that change. Behaviors may be registered, custom leaves added and defaults set in any
order, and nodes may be built and loaded in between: nothing that a registry knows is ever
forgotten, so the type of every node stays one that the registry can make nodes of. Custom leaves
are of the type of all custom leaves, which is there from the beginning and which none of them can
take for itself.
-/
namespace BehaviorTree

open Relation

def builtInNames : List String :=
  ["Sequence", "Selector", "Parallel", "Inverter", "Repeater", "UntilSuccess", "UntilFail",
    "Start", "Action", "Wait", "GoTo", "CustomAction"]

theorem isSome_lookup_builtInTypes {name : String} :
    (builtInTypes.lookup name).isSome = true ↔ name ∈ builtInNames := by
  have hnames : builtInTypes.map (·.1) = builtInNames := rfl
  rw [List.lookup_isSome_iff, ← hnames, List.mem_map]
  simp only [beq_iff_eq]
  exact exists_congr fun t => and_congr_right fun _ => eq_comm

/-- A template makes nodes of the type that it is the template of, or custom leaves that remember
which one it is. -/
def Template.Answers (t : Template) (name : String) : Prop :=
  t.typeName = name ∨ t.typeName = customAction ∧ t.libraryType = some name

namespace Registry

variable {r r' : Registry} {name id : String} {spec : NodeSpec} {leaf : CustomLeaf}

/-- A node can be built of the types that are in the registry. -/
theorem exists_build?_iff :
    (∃ spec, r.build? name id = some spec) ↔ Dict.contains r name = true := by
  rw [← Option.isSome_iff_exists, build?, Option.isSome_map, Dict.contains]

theorem registerCustom_of_mem (h : leaf.name ∈ builtInNames) :
    r.registerCustom leaf = (false, r) :=
  if_pos (isSome_lookup_builtInTypes.mpr h)

theorem registerCustom_of_not_mem (h : leaf.name ∉ builtInNames) :
    r.registerCustom leaf = (true, Dict.insert r leaf.name leaf.template) :=
  if_neg (mt isSome_lookup_builtInTypes.mp h)

/-- A custom leaf is refused if its name is a built-in one, and only then. -/
theorem registerCustom_eq_false_iff :
    r.registerCustom leaf = (false, r) ↔ leaf.name ∈ builtInNames := by
  refine ⟨fun h => ?_, registerCustom_of_mem⟩
  by_contra hname
  rw [registerCustom_of_not_mem hname] at h
  cases congrArg Prod.fst h

/-- A custom leaf is refused exactly if its name is that of a built-in type. -/
theorem registerCustom_eq_true_iff :
    (r.registerCustom leaf).1 = true ↔ leaf.name ∉ builtInNames := by
  by_cases h : leaf.name ∈ builtInNames
  · rw [registerCustom_of_mem h]
    exact ⟨nofun, fun hname => absurd h hname⟩
  · rw [registerCustom_of_not_mem h]
    exact ⟨fun _ => h, fun _ => rfl⟩

theorem build?_registerCustom (h : leaf.name ∉ builtInNames) (id : String) :
    (r.registerCustom leaf).2.build? leaf.name id = some (leaf.template.instantiate id) := by
  rw [registerCustom_of_not_mem h, build?, Dict.get?_insert, if_pos rfl, Option.map_some]

def addLeaves (r : Registry) (leaves : List CustomLeaf) : Registry :=
  leaves.foldl (fun r leaf => (r.registerCustom leaf).2) r

/-- Custom leaves do not matter to the nodes of a built-in type. -/
theorem build?_addLeaves (leaves : List CustomLeaf) (h : name ∈ builtInNames) :
    (r.addLeaves leaves).build? name id = r.build? name id := by
  induction leaves generalizing r with
  | nil => rfl
  | cons leaf rest ih =>
    change Registry.build? (addLeaves (r.registerCustom leaf).2 rest) name id = _
    rw [ih]
    by_cases hleaf : leaf.name ∈ builtInNames
    · rw [registerCustom_of_mem hleaf]
    · have hne : name ≠ leaf.name := fun heq => hleaf (heq ▸ h)
      rw [registerCustom_of_not_mem hleaf, build?, Dict.get?_insert, if_neg hne]
      rfl

inductive Change : Registry → Registry → Prop
  | register {r : Registry} (name : String) (behavior : Behavior) :
      Change r (r.register name behavior)
  | registerCustom {r : Registry} (leaf : CustomLeaf) : Change r (r.registerCustom leaf).2
  | setDefaultConfig {r : Registry} (name : String) (config : Dict Json) :
      Change r (r.setDefaultConfig name config)
  | setDefaultParameters {r : Registry} (name : String) (parameters : ParameterSet) :
      Change r (r.setDefaultParameters name parameters)

/-- A change is nothing, puts a template under a name that it answers to, or gives the template
under a name other defaults. -/
theorem Change.cases (h : r.Change r') :
    r' = r ∨ (∃ (name : String) (t : Template), t.Answers name ∧ r' = Dict.insert r name t) ∨
      ∃ (name : String) (change : Template → Template),
        (∀ other t, t.Answers other → (change t).Answers other) ∧
          r' = Dict.modify r name change := by
  cases h with
  | register name behavior => exact Or.inr (Or.inl ⟨name, _, Or.inl rfl, rfl⟩)
  | registerCustom leaf =>
    by_cases hleaf : leaf.name ∈ builtInNames
    · exact Or.inl (congrArg Prod.snd (registerCustom_of_mem hleaf))
    · exact Or.inr (Or.inl ⟨leaf.name, leaf.template, Or.inr ⟨rfl, rfl⟩,
        congrArg Prod.snd (registerCustom_of_not_mem hleaf)⟩)
  | setDefaultConfig name config =>
    exact Or.inr (Or.inr ⟨name, fun t => { t with config }, fun _ _ ht => ht, rfl⟩)
  | setDefaultParameters name parameters =>
    exact Or.inr (Or.inr ⟨name, fun t => { t with parameters }, fun _ _ ht => ht, rfl⟩)

/-- Nothing is ever forgotten. -/
theorem Change.contains (h : r.Change r') (hname : Dict.contains r name = true) :
    Dict.contains r' name = true := by
  rcases h.cases with rfl | ⟨other, t, -, rfl⟩ | ⟨other, change, -, rfl⟩
  · exact hname
  · exact (Dict.contains_insert r other t name).mpr (Or.inr hname)
  · rw [Dict.contains_modify]
    exact hname

/-- A registry that can still make nodes of all types that it has made nodes of. -/
structure Stocked (r : Registry) : Prop where
  answers : Dict.All (fun name t => t.Answers name) r
  builtIn : ∀ name ∈ builtInNames, Dict.contains r name = true

/-- No change to a registry takes a type away. -/
theorem Stocked.change (hr : r.Stocked) (h : r.Change r') : r'.Stocked where
  answers := by
    rcases h.cases with rfl | ⟨name, t, ht, rfl⟩ | ⟨name, change, hchange, rfl⟩
    · exact hr.answers
    · exact hr.answers.insert ht
    · exact hr.answers.modify name hchange
  builtIn name hname := h.contains (hr.builtIn name hname)

theorem contains_registerAll (types : List (String × BuiltInType))
    (h : name ∈ types.map (·.1) ∨ Dict.contains r name = true) :
    Dict.contains (r.registerAll types) name = true := by
  induction types generalizing r with
  | nil => exact h.resolve_left List.not_mem_nil
  | cons type rest ih =>
    have hfirst : Dict.contains (r.register type.1 type.2.kind.behavior) name = true ↔
        name = type.1 ∨ Dict.contains r name = true := Dict.contains_insert _ _ _ _
    apply ih
    rcases h with h | h
    · rcases List.mem_cons.mp h with h | h
      · exact Or.inr (hfirst.mpr (Or.inl h))
      · exact Or.inl h
    · exact Or.inr (hfirst.mpr (Or.inr h))

theorem standard_stocked : standard.Stocked where
  answers name t ht := Or.inl (standard_regular name t ht).typeName
  builtIn name hname := by
    have hall := contains_registerAll (r := .empty) builtInTypes (Or.inl hname)
    simp only [standard, setDefaultConfig, setDefaultParameters, Dict.contains_modify]
    exact hall

/-- What is built is of a type that is known, and tells under which name it has been built. -/
theorem Stocked.build (hr : r.Stocked) (h : r.build? name id = some spec) :
    (spec.typeName = name ∨ spec.typeName = customAction ∧ spec.libraryType = some name) ∧
      Dict.contains r spec.typeName = true := by
  have hname : Dict.contains r name = true := exists_build?_iff.mp ⟨spec, h⟩
  obtain ⟨t, ht, rfl⟩ := Option.map_eq_some_iff.mp h
  have hanswers := hr.answers name t ht
  refine ⟨hanswers, ?_⟩
  rcases hanswers with htype | ⟨htype, -⟩
  · change Dict.contains r t.typeName = true
    rwa [htype]
  · change Dict.contains r t.typeName = true
    rw [htype]
    exact hr.builtIn customAction (by decide)

/-- A registry that has been changed in any way still has all of its types. -/
theorem stocked_of_changes (h : ReflTransGen Change standard r) : r.Stocked := by
  induction h with
  | refl => exact standard_stocked
  | tail _ hchange ih => exact ih.change hchange

end Registry

open Forest

/-- What may happen to a registry and to the nodes that have been built with it. -/
inductive Work : Registry × Forest → Registry × Forest → Prop
  | change {r r' : Registry} {f : Forest} (h : r.Change r') : Work (r, f) (r', f)
  | build {r : Registry} {f : Forest} {name id : String} {spec : NodeSpec}
      (h : r.build? name id = some spec) : Work (r, f) (r, (f.add spec).2)
  | load {r : Registry} {f g : Forest} {migrator : Migrator} {doc : Json} {loaded : Loaded}
      (h : Loading.load r migrator f doc = .ok (loaded, g)) : Work (r, f) (r, g)
  /-- Any operation that adds no node. -/
  | operate {r : Registry} {f g : Forest} (h : Step f g) (hsize : g.size = f.size) :
      Work (r, f) (r, g)

structure InStock (r : Registry) (f : Forest) : Prop where
  stocked : r.Stocked
  reachable : f.Reachable
  types : ∀ k n, f.node? k = some n → Dict.contains r n.spec.typeName = true

namespace Loading

theorem reachable_build (registry : Registry) {f : Forest} (hf : f.Reachable) (doc : Json) :
    (build registry f doc).2.Reachable := by
  obtain ⟨g, kept, hplant, -, hbuild⟩ := exists_planted registry f doc
  rw [hbuild]
  exact (servedAll_of_planted hplant hf).1.reachable

end Loading

namespace Forest

variable {f g : Forest} {k : NodeKey} {n m : Node}

theorem SameButStates.typeName_eq (hsame : f.SameButStates g) (hn : f.node? k = some n)
    (hm : g.node? k = some m) : m.spec.typeName = n.spec.typeName := by
  have hspec := hsame.spec? k
  rw [hn, hm, Option.map_some, Option.map_some, Option.some_inj] at hspec
  rw [hspec]

/-- No operation changes the type of a node. -/
theorem Step.typeName_eq (hs : f.Sound) (h : Step f g) (hn : f.node? k = some n)
    (hm : g.node? k = some m) : m.spec.typeName = n.spec.typeName := by
  rcases h.revision_or with hrevision | ⟨_, ex, t, w, rfl⟩ | ⟨j, rfl⟩
  · cases hrevision with
    | link hedit =>
      have hself : f.self? k = some (n.spec, n.state) := by rw [self?, hn, Option.map_some]
      have hafter := hedit.self?_eq hs hself
      rw [self?, hm, Option.map_some, Option.some_inj] at hafter
      exact congrArg (fun self => self.1.typeName) hafter
    | rewrite j change hkind =>
      rw [node?_updateSpec, hn, Option.map_some, Option.some_inj] at hm
      rw [← hm]
      split_ifs
      · exact (hkind n.spec).typeName
      · rfl
  · exact (tick_sameButStates f ex t w).typeName_eq hn hm
  · exact (reset_sameButStates f j).typeName_eq hn hm

end Forest

namespace InStock

variable {r r' : Registry} {f g : Forest}

theorem change (h : InStock r f) (hchange : r.Change r') : InStock r' f :=
  ⟨h.stocked.change hchange, h.reachable, fun k n hn => hchange.contains (h.types k n hn)⟩

/-- A node that has just been built is of a type in the registry. -/
theorem build (h : InStock r f) {name id : String} {spec : NodeSpec}
    (hspec : r.build? name id = some spec) : InStock r (f.add spec).2 where
  stocked := h.stocked
  reachable := h.reachable.tail (.add spec)
  types k n hn := by
    rw [node?_add] at hn
    split_ifs at hn
    · cases hn
      exact (h.stocked.build hspec).2
    · exact h.types k n hn

theorem operate (h : InStock r f) (hstep : Step f g) (hsize : g.size = f.size) : InStock r g where
  stocked := h.stocked
  reachable := h.reachable.tail hstep
  types k m hm := by
    have hlt : k < f.size := hsize ▸ lt_size_of_node? hm
    obtain ⟨n, hn⟩ := exists_node hlt
    rw [hstep.typeName_eq h.reachable.sound hn hm]
    exact h.types k n hn

theorem load (h : InStock r f) {migrator : Migrator} {doc : Json} {loaded : Loaded}
    (hload : Loading.load r migrator f doc = .ok (loaded, g)) : InStock r g := by
  obtain ⟨migrated, kept, -, hbuild, hfaithful⟩ := Loading.faithful_of_load h.reachable hload
  have hreachable := Loading.reachable_build r h.reachable migrated
  rw [hbuild] at hreachable
  refine ⟨h.stocked, hreachable, fun k n hn => ?_⟩
  by_cases hold : k < f.size
  · rw [hfaithful.old k hold] at hn
    exact h.types k n hn
  · have hlt : k < f.size + kept.length := hfaithful.size ▸ lt_size_of_node? hn
    have hnew : k ∈ loaded.nodes := by
      rw [hfaithful.keys, List.mem_range'_1]
      exact ⟨Nat.le_of_not_lt hold, hlt⟩
    rw [hfaithful.nodes] at hnew
    obtain ⟨e, he, rfl⟩ := List.mem_map.mp hnew
    obtain ⟨m, hm, ⟨fresh, hfresh, hspec⟩, -, -⟩ := hfaithful.node e he
    obtain rfl : m = n := Option.some.inj (hm.symm.trans hn)
    rw [hspec]
    exact (h.stocked.build hfresh).2

/-- The type that the record of a node carries is one that nodes can be made of. -/
theorem exists_build?_record (h : InStock r f) {k : NodeKey} {record : Record}
    (hrecord : f.record? k = some record) (id : String) :
    ∃ fresh, r.build? record.typeName id = some fresh := by
  obtain ⟨n, hn, rfl⟩ := Option.map_eq_some_iff.mp hrecord
  exact Registry.exists_build?_iff.mpr (h.types k n hn)

end InStock

/-- Whatever has been done to registry and nodes, every node is of a type that can be built again.
-/
theorem inStock_of_work {w : Registry × Forest} (h : ReflTransGen Work (.standard, .empty) w) :
    InStock w.1 w.2 := by
  induction h with
  | refl =>
    refine ⟨Registry.standard_stocked, .refl, fun k n hn => ?_⟩
    simp [node?, empty] at hn
  | tail _ hwork ih =>
    cases hwork with
    | change h => exact ih.change h
    | build h => exact ih.build h
    | load h => exact ih.load h
    | operate h hsize => exact ih.operate h hsize

namespace Registry

/-- Whatever has been done to a registry, what it builds is of the type that it has been asked for,
or a custom leaf that remembers what has been asked for, and it can be built again from its type
alone. So can every node that has been built or loaded while the registry was changed. Of custom
leaves those with a built-in name are refused, and no others, so that they never matter to what is
built under such a name. -/
theorem built_can_be_built_again {r : Registry} (hr : ReflTransGen Change standard r) :
    (∀ name id spec, r.build? name id = some spec →
      (spec.typeName = name ∨ spec.typeName = customAction ∧ spec.libraryType = some name) ∧
        Dict.contains r spec.typeName = true ∧
        ∀ id, ∃ fresh, r.build? spec.typeName id = some fresh) ∧
    (∀ f, ReflTransGen Work (standard, .empty) (r, f) → ∀ k record, f.record? k = some record →
      ∀ id, ∃ fresh, r.build? record.typeName id = some fresh) ∧
    (∀ leaf, (r.registerCustom leaf = (false, r) ↔ leaf.name ∈ builtInNames) ∧
      ((r.registerCustom leaf).1 = true ↔ leaf.name ∉ builtInNames)) ∧
    ∀ leaves name id, name ∈ builtInNames →
      (r.addLeaves leaves).build? name id = r.build? name id := by
  have hstocked := stocked_of_changes hr
  refine ⟨fun name id spec h => ?_, fun f hwork k record hrecord id => ?_,
    fun leaf => ⟨registerCustom_eq_false_iff, registerCustom_eq_true_iff⟩,
    fun leaves name id => build?_addLeaves leaves⟩
  · obtain ⟨hanswers, hknown⟩ := hstocked.build h
    exact ⟨hanswers, hknown, fun id => exists_build?_iff.mpr hknown⟩
  · exact (inStock_of_work hwork).exists_build?_record hrecord id

def patrol : CustomLeaf where
  name := "Patrol"
  code := "patrol()"

/-- A patrol is built, and a leaf that is called like a sequence is refused. -/
theorem built_can_be_built_again_patrol :
    let r := (standard.registerCustom patrol).2
    let f := (empty.add (patrol.template.instantiate "scout")).2
    ReflTransGen Change standard r ∧ ReflTransGen Work (standard, .empty) (r, f) ∧
      r.build? "Patrol" "scout" = some (patrol.template.instantiate "scout") ∧
      (∃ record, f.record? 0 = some record ∧ record.typeName = "CustomAction" ∧
        ∃ fresh, r.build? record.typeName "again" = some fresh) ∧
      r.registerCustom { patrol with name := "Sequence" } = (false, r) ∧
      (r.addLeaves [{ patrol with name := "Wait" }, patrol]).build? "Wait" "id" =
        r.build? "Wait" "id" := by
  intro r f
  have hchanges : ReflTransGen Change standard r := .single (.registerCustom patrol)
  have hbuild : r.build? "Patrol" "scout" = some (patrol.template.instantiate "scout") :=
    build?_registerCustom (by decide) "scout"
  have hwork : ReflTransGen Work (standard, .empty) (r, f) :=
    (ReflTransGen.single (.change (.registerCustom patrol))).tail (.build hbuild)
  obtain ⟨-, hrecords, hrefused, hkept⟩ := built_can_be_built_again hchanges
  exact ⟨hchanges, hwork, hbuild, ⟨_, rfl, rfl, hrecords f hwork 0 _ rfl "again"⟩,
    (hrefused _).1.mpr (by decide), hkept _ "Wait" "id" (by decide)⟩

end Registry

end BehaviorTree
