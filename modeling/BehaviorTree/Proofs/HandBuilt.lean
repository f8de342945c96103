import BehaviorTree.Proofs.Adoption
import BehaviorTree.Proofs.Templates

/-!
Trees that are put together by hand: their nodes are built by a registry, attached, detached and
edited in any order. Whatever the order, every node is of a type that the registry knows, and it
behaves as that type does. So what a record of the node is read back as makes a node of the same
behavior, with room for as many children.
-/
namespace BehaviorTree

open Forest Loading Relation

variable {registry : Registry} {f g : Forest}

/-- A node of a type of the registry, at a place that can be written down. -/
structure NodeSpec.HandMade (registry : Registry) (spec : NodeSpec) : Prop where
  template : ∃ t, Dict.get? registry spec.typeName = some t ∧ t.behavior = spec.behavior
  position : spec.position.Finite

namespace NodeSpec

/-- Reading keeps the entry that limits the children of a node, whatever it does to the others. -/
theorem capacity_reread {spec fresh : NodeSpec} (hbehavior : fresh.behavior = spec.behavior)
    (ids : List String) :
    ((Record.ofSpec spec ids).reread.applyTo fresh).capacity = spec.capacity := by
  have hlimit : ((spec.config.map fun _ => Json.reread).get? "maxChildren").bind Json.number? =
      (spec.config.get? "maxChildren").bind Json.number? := by
    rw [Dict.get?_map, Option.bind_map]
    exact congrArg _ (funext Json.number?_reread)
  have hconfig : ((Record.ofSpec spec ids).reread.applyTo fresh).config =
      spec.config.map fun _ => Json.reread := rfl
  have hkind : ((Record.ofSpec spec ids).reread.applyTo fresh).behavior = spec.behavior := hbehavior
  unfold NodeSpec.capacity NodeSpec.category
  rw [hconfig, hkind, hlimit]

namespace HandMade

variable {s t : NodeSpec}

theorem of_build {typeName id : String} (hregistry : registry.Regular)
    (hs : registry.build? typeName id = some s) : s.HandMade registry := by
  obtain ⟨t, ht, rfl⟩ := Option.map_eq_some_iff.mp hs
  obtain rfl : t.typeName = typeName := (hregistry typeName t ht).typeName
  exact ⟨⟨t, ht, rfl⟩, Position.origin_finite⟩

/-- Edits that keep type and finite positions make no difference to that. -/
theorem edit (hs : s.HandMade registry) (hkind : s.SameKind t) (hfinite : t.position.Finite) :
    t.HandMade registry := by
  obtain ⟨template, htemplate, hbehavior⟩ := hs.template
  refine ⟨⟨template, ?_, hbehavior.trans hkind.behavior.symm⟩, hfinite⟩
  rw [hkind.typeName]
  exact htemplate

theorem build?_eq (hs : s.HandMade registry) :
    ∃ fresh, registry.build? s.typeName s.id = some fresh ∧ fresh.behavior = s.behavior := by
  obtain ⟨t, ht, hbehavior⟩ := hs.template
  refine ⟨t.instantiate s.id, ?_, hbehavior⟩
  rw [Registry.build?, ht, Option.map_some]

theorem exists_describes (hs : s.HandMade registry) (ids : List String) :
    ∃ t, Describes registry (.ofSpec s ids) t := by
  obtain ⟨fresh, hfresh, -⟩ := hs.build?_eq
  exact ⟨_, fresh, hfresh, rfl⟩

/-- What a record of the node is read back as makes a node with room for as many children. -/
theorem capacity_eq (hs : s.HandMade registry) {ids : List String}
    (ht : Describes registry (Record.ofSpec s ids).reread t) : t.capacity = s.capacity := by
  obtain ⟨fresh, hfresh, hbehavior⟩ := hs.build?_eq
  obtain ⟨built, hbuilt, rfl⟩ := ht
  obtain rfl : fresh = built := Option.some.inj (hfresh.symm.trans hbuilt)
  exact capacity_reread hbehavior ids

end HandMade

end NodeSpec

namespace Forest

inductive HandStep (registry : Registry) : Forest → Forest → Prop
  | build {f : Forest} {typeName id : String} {spec : NodeSpec}
      (hspec : registry.build? typeName id = some spec) : HandStep registry f (f.add spec).2
  | adopt {f : Forest} {p c : NodeKey} (hp : p < f.size) (hc : c < f.size) :
      HandStep registry f (f.adopt p c).2
  | detach {f : Forest} (p c : NodeKey) : HandStep registry f (f.detach p c).2
  | detachAll {f : Forest} (p : NodeKey) : HandStep registry f (f.detachAll p)
  | edit {f : Forest} (k : NodeKey) (change : NodeSpec → NodeSpec)
      (hkind : ∀ s : NodeSpec, s.SameKind (change s))
      (hfinite : ∀ s : NodeSpec, s.position.Finite → (change s).position.Finite) :
      HandStep registry f (f.updateSpec k change)

def HandBuilt (registry : Registry) (f : Forest) : Prop := ReflTransGen (HandStep registry) empty f

theorem HandStep.step (hstep : HandStep registry f g) : Step f g := by
  cases hstep with
  | build hspec => exact Step.add _
  | adopt hp hc => exact Step.adopt hp hc
  | detach p c => exact Step.detach p c
  | detachAll p => exact Step.detachAll p
  | edit k change hkind _ => exact Step.edit k change hkind

/-- What has been built by hand has come about from no nodes. -/
theorem HandBuilt.reachable (hf : f.HandBuilt registry) : f.Reachable :=
  ReflTransGen.mono (fun _ _ hstep => hstep.step) empty f hf

def AllHandMade (registry : Registry) (f : Forest) : Prop :=
  ∀ k n, f.node? k = some n → n.spec.HandMade registry

/-- Operations on links leave the nodes as hand-made as they were. -/
theorem AllHandMade.of_node? (hf : f.AllHandMade registry) {φ : NodeKey → Node → Node}
    (hmap : ∀ k, g.node? k = (f.node? k).map (φ k)) (hspec : ∀ k n, (φ k n).spec = n.spec) :
    g.AllHandMade registry := by
  intro k n hk
  rw [hmap] at hk
  obtain ⟨m, hm, rfl⟩ := Option.map_eq_some_iff.mp hk
  rw [hspec]
  exact hf k m hm

theorem HandStep.allHandMade (hstep : HandStep registry f g) (hregistry : registry.Regular)
    (hs : f.Sound) (hf : f.AllHandMade registry) : g.AllHandMade registry := by
  cases hstep with
  | build hspec =>
    intro k n hk
    rw [node?_add] at hk
    split_ifs at hk
    · obtain rfl := Option.some.inj hk
      exact NodeSpec.HandMade.of_build hregistry hspec
    · exact hf k n hk
  | @adopt p c hp hc =>
    rcases adopt_forest f p c with hadopt | ⟨-, -, -, hadopt⟩
    · rwa [hadopt]
    · rw [hadopt]
      exact hf.of_node? (node?_release_link hs p c) fun _ _ => rfl
  | detach p c =>
    by_cases hc : c ∈ f.children p
    · exact hf.of_node? (node?_detach hc) fun _ _ => rfl
    · rwa [detach_of_not_mem hc]
  | detachAll p => exact hf.of_node? (node?_detachAll f p) fun _ _ => rfl
  | edit j change hkind hfinite =>
    intro k n hk
    rw [node?_updateSpec] at hk
    obtain ⟨m, hm, rfl⟩ := Option.map_eq_some_iff.mp hk
    have hmade := hf k m hm
    split_ifs
    · exact hmade.edit (hkind m.spec) (hfinite m.spec hmade.position)
    · exact hmade

/-- All nodes of a forest that has been built by hand are hand-made. -/
theorem HandBuilt.allHandMade (hf : f.HandBuilt registry) (hregistry : registry.Regular) :
    f.AllHandMade registry := by
  induction hf with
  | refl =>
    intro k n hk
    simp [node?, empty] at hk
  | tail hrun hstep ih =>
    exact hstep.allHandMade hregistry (HandBuilt.reachable hrun).sound ih

end Forest

end BehaviorTree
