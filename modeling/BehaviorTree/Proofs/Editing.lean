import BehaviorTree.Proofs.Links
import BehaviorTree.Registry

/-!
Everything that can be done to a forest, one step at a time: nodes are added, attached, detached,
edited, ticked and reset. Whatever the order, the links of the forest stay coherent: child lists
and parent links agree, no way leads around in a circle, and the walks up and down find the same.
-/
namespace BehaviorTree

/-- Edits change what is written about a node, never its type and behavior. -/
structure NodeSpec.SameKind (s t : NodeSpec) : Prop where
  typeName : t.typeName = s.typeName
  behavior : t.behavior = s.behavior

namespace Forest

open Relation

/-- One operation on a forest. Whoever attaches a node has that node and its parent-to-be. -/
inductive Step : Forest → Forest → Prop
  | add {f : Forest} (spec : NodeSpec) : Step f (f.add spec).2
  | adopt {f : Forest} {p c : NodeKey} (hp : p < f.size) (hc : c < f.size) : Step f (f.adopt p c).2
  | detach {f : Forest} (p c : NodeKey) : Step f (f.detach p c).2
  | detachAll {f : Forest} (p : NodeKey) : Step f (f.detachAll p)
  | edit {f : Forest} (k : NodeKey) (change : NodeSpec → NodeSpec)
      (hkind : ∀ s : NodeSpec, s.SameKind (change s)) : Step f (f.updateSpec k change)
  | tick {f : Forest} {σ : Type} (ex : Executor σ) (k : NodeKey) (world : World σ) :
      Step f (f.tick ex k world).2.1
  | reset {f : Forest} (k : NodeKey) : Step f (f.reset k)

def Reachable (f : Forest) : Prop := ReflTransGen Step empty f

variable {f g : Forest}

/-- No operation breaks the links. -/
theorem step_sound (hstep : Step f g) (hs : f.Sound) : g.Sound := by
  cases hstep with
  | add spec => exact hs.of_same_links (children_add f spec) (parent?_add f spec)
  | adopt hp hc => exact adopt_sound hs hp hc
  | detach p c => exact detach_sound hs p c
  | detachAll p => exact detachAll_sound hs p
  | edit k change _ =>
    exact hs.of_same_links (children_updateSpec f k change) (parent?_updateSpec f k change)
  | tick ex k world =>
    have hsame := tick_sameButStates f ex k world
    exact hs.of_same_links hsame.children hsame.parent?
  | reset k =>
    have hsame := reset_sameButStates f k
    exact hs.of_same_links hsame.children hsame.parent?

theorem empty_sound : empty.Sound where
  linked p c := by simp [children, parent?, node?, empty]
  nodup p := by simp [children, node?, empty]
  acyclic k hk := by
    obtain ⟨p, -, hp⟩ := TransGen.tail'_iff.mp hk
    simp [IsParent, parent?, node?, empty] at hp

/-- What has come about from no nodes is linked as it should be. -/
theorem Reachable.sound (hf : f.Reachable) : f.Sound := by
  induction hf with
  | refl => exact empty_sound
  | tail _ hstep ih => exact step_sound hstep ih

/-- What the links of a forest and the walks along them have to do with each other. The bounds on
the walks are given more steps than needed, so it is never a bound that ends a walk. -/
structure Coherent (f : Forest) : Prop where
  linked : ∀ p c, c ∈ f.children p ↔ f.parent? c = some p
  listed_once : ∀ p, (f.children p).Nodup
  one_parent : ∀ p q c, c ∈ f.children p → c ∈ f.children q → p = q
  acyclic : ∀ k, ¬ f.IsAbove k k
  chain_ends : ∀ k fuel, f.size ≤ fuel → f.chain fuel k = f.ancestors k
  below_ends : ∀ k fuel, f.size ≤ fuel → f.below fuel k = f.descendants k
  isAncestor_iff_isAbove : ∀ a b, f.isAncestor a b = true ↔ f.IsAbove a b
  isAncestor_iff_mem : ∀ a b, f.isAncestor a b = true ↔ b ∈ f.descendants a
  descendants_once : ∀ a, (f.descendants a).Nodup
  parent_first : ∀ a before b after, f.descendants a = before ++ b :: after →
    ∃ p ∈ a :: before, f.parent? b = some p

/-- Parents and children know of each other in every forest that has come about from no nodes,
nothing is above itself, and the walks up and down meet what the links tell. -/
theorem coherent_of_reachable (hf : f.Reachable) : f.Coherent := by
  have hs : f.Sound := hf.sound
  refine {
    linked := hs.linked
    listed_once := hs.nodup
    one_parent := fun p q c hp hq => ?_
    acyclic := hs.acyclic
    chain_ends := fun k fuel h => hs.chain_eq_ancestors h k
    below_ends := fun k fuel h => hs.below_eq_descendants h k
    isAncestor_iff_isAbove := fun a b => hs.isAncestor_iff
    isAncestor_iff_mem := fun a b => hs.isAncestor_iff.trans hs.mem_descendants.symm
    descendants_once := hs.below_nodup f.size
    parent_first := fun a before b after h => hs.parent_before h
  }
  have hpq : some p = some q := ((hs.linked p c).mp hp).symm.trans ((hs.linked q c).mp hq)
  exact Option.some.inj hpq

def strangers : Forest :=
  let new (kind : BuiltIn) (name : String) : NodeSpec :=
    (Template.plain name kind.behavior).instantiate name
  (((empty.add (new .sequence "Sequence")).2.add (new .selector "Selector")).2.add
    (new .script "Action")).2

def family : Forest := (((strangers.adopt 0 2).2.adopt 1 2).2.adopt 0 1).2

theorem family_reachable : family.Reachable := by
  have hnew : strangers.Reachable :=
    ((ReflTransGen.refl.tail (Step.add _)).tail (Step.add _)).tail (Step.add _)
  have haction : (strangers.adopt 0 2).2.Reachable :=
    hnew.tail (Step.adopt (by decide) (by decide))
  have hmoved : ((strangers.adopt 0 2).2.adopt 1 2).2.Reachable :=
    haction.tail (Step.adopt (by decide) (by decide))
  exact hmoved.tail (Step.adopt (by decide) (by decide))

/-- The family after the takeover. -/
theorem coherent_family :
    family.Reachable ∧ family.descendants 0 = [1, 2] ∧ family.Coherent :=
  ⟨family_reachable, by decide, coherent_of_reachable family_reachable⟩

def workerSpec (kind : BuiltIn) (name : String) : NodeSpec :=
  { (Template.plain name kind.behavior).instantiate name with code := some name }

def patrol : Forest :=
  let f := (((empty.add (workerSpec .sequence "patrol")).2.add (workerSpec .script "go")).2.add
    (workerSpec .script "look")).2
  ((f.adopt 0 1).2.adopt 0 2).2

def patrolPlan : Plan :=
  .node (workerSpec .sequence "patrol")
    [.node (workerSpec .script "go") [], .node (workerSpec .script "look") []]

theorem patrol_plan : patrol.plan? 0 = some patrolPlan := by rfl

theorem patrol_reachable : patrol.Reachable := by
  refine .tail (.tail ?_ (Step.adopt (by decide) (by decide))) (Step.adopt (by decide) (by decide))
  exact ((ReflTransGen.refl.tail (Step.add _)).tail (Step.add _)).tail (Step.add _)

def grown (specs : List NodeSpec) (links : List (NodeKey × NodeKey)) : Forest :=
  links.foldl (fun f link => (f.adopt link.1 link.2).2)
    (specs.foldl (fun f spec => (f.add spec).2) empty)

/-- Nodes of any kind may be added and attached to one another. -/
theorem grown_reachable {specs : List NodeSpec} {links : List (NodeKey × NodeKey)}
    (h : ∀ link ∈ links, link.1 < specs.length ∧ link.2 < specs.length) :
    (grown specs links).Reachable := by
  have hadd : ∀ (specs : List NodeSpec) (f : Forest), f.Reachable →
      (specs.foldl (fun f spec => (f.add spec).2) f).Reachable ∧
        (specs.foldl (fun f spec => (f.add spec).2) f).size = f.size + specs.length := by
    intro specs
    induction specs with
    | nil => exact fun f hf => ⟨hf, rfl⟩
    | cons spec rest ih =>
      intro f hf
      obtain ⟨hreachable, hsize⟩ := ih (f.add spec).2 (hf.tail (Step.add spec))
      refine ⟨hreachable, ?_⟩
      rw [List.foldl_cons, hsize, size_add, List.length_cons]
      omega
  have hadopt : ∀ (links : List (NodeKey × NodeKey)) (f : Forest), f.Reachable →
      (∀ link ∈ links, link.1 < f.size ∧ link.2 < f.size) →
      (links.foldl (fun f link => (f.adopt link.1 link.2).2) f).Reachable := by
    intro links
    induction links with
    | nil => exact fun f hf _ => hf
    | cons link rest ih =>
      intro f hf hrange
      obtain ⟨hlink, hrest⟩ := List.forall_mem_cons.mp hrange
      refine ih _ (hf.tail (Step.adopt hlink.1 hlink.2)) fun later hlater => ?_
      rw [size_adopt]
      exact hrest later hlater
  obtain ⟨hnodes, hsize⟩ := hadd specs empty ReflTransGen.refl
  refine hadopt links _ hnodes fun link hlink => ?_
  have hempty : empty.size = 0 := rfl
  rw [hsize, hempty, Nat.zero_add]
  exact h link hlink

end Forest

end BehaviorTree
