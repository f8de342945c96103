import BehaviorTree.Proofs.Lockstep
import BehaviorTree.Proofs.Passes

/-!
Forests of the same shape whose nodes are written in different words. Nodes that stand in the same
place run alike and are in the same run state, although their specifications differ. Ticks and
resets then go alike in both forests, and so does all editing where the nodes have the same room
for children too. Which differences there may be is left open: a relation between specifications
says which words may stand for which.
-/
namespace BehaviorTree

variable {σ : Type} {R : NodeSpec → NodeSpec → Prop}

theorem rel_cases {α β : Type} {P : α → β → Prop} {o : Option α} {o' : Option β}
    (h : Option.Rel P o o') :
    o = none ∧ o' = none ∨ ∃ a b, o = some a ∧ o' = some b ∧ P a b := by
  cases h with
  | none => exact .inl ⟨rfl, rfl⟩
  | some hab => exact .inr ⟨_, _, rfl, rfl, hab⟩

/-- Whatever the children, the two nodes are ticked alike and are as likely to be started. -/
structure NodeSpec.RunsLike (s t : NodeSpec) : Prop where
  typeName : t.typeName = s.typeName
  position : t.position = s.position
  step : ∀ {σ : Type} (ex : Executor σ), t.step ex = s.step ex

structure Node.Alike (R : NodeSpec → NodeSpec → Prop) (n m : Node) : Prop where
  spec : R n.spec m.spec
  parent : m.parent = n.parent
  children : m.children = n.children
  state : m.state = n.state

namespace Forest

def Alike (R : NodeSpec → NodeSpec → Prop) (f g : Forest) : Prop :=
  ∀ k, Option.Rel (Node.Alike R) (f.node? k) (g.node? k)

variable {f g : Forest} {k : NodeKey}

theorem alike_empty : empty.Alike R empty := fun _ => .none

namespace Alike

variable (h : f.Alike R g)
include h

theorem node?_cases (k : NodeKey) :
    f.node? k = none ∧ g.node? k = none ∨
      ∃ n m, f.node? k = some n ∧ g.node? k = some m ∧ n.Alike R m := rel_cases (h k)

/-- What is the same for nodes that stand for each other is the same all over the forests. -/
theorem map_node? {α : Type} {value : Node → α}
    (hvalue : ∀ n m : Node, n.Alike R m → value m = value n) (k : NodeKey) :
    (g.node? k).map value = (f.node? k).map value := by
  rcases h.node?_cases k with ⟨hn, hm⟩ | ⟨n, m, hn, hm, hnm⟩
  · rw [hn, hm]
  · rw [hn, hm, Option.map_some, Option.map_some, hvalue n m hnm]

theorem size : g.size = f.size := by
  have hnone : ∀ k, g.node? k = none ↔ f.node? k = none := by
    intro k
    rcases h.node?_cases k with ⟨hn, hm⟩ | ⟨n, m, hn, hm, -⟩ <;> simp [hn, hm]
  simp only [node?_eq_none_iff] at hnone
  exact Nat.le_antisymm ((hnone f.size).mpr (Nat.le_refl _)) ((hnone g.size).mp (Nat.le_refl _))

theorem children (k : NodeKey) : g.children k = f.children k :=
  congrArg (Option.getD · []) (h.map_node? (fun _ _ hnm => hnm.children) k)

theorem parent? (k : NodeKey) : g.parent? k = f.parent? k := by
  rcases h.node?_cases k with ⟨hn, hm⟩ | ⟨n, m, hn, hm, hnm⟩
  · rw [Forest.parent?, Forest.parent?, hn, hm]
  · rw [parent?_eq hn, parent?_eq hm, hnm.parent]

theorem subtree (k : NodeKey) : g.subtree k = f.subtree k := subtree_congr h.size h.children k

theorem isAncestor (a k : NodeKey) : g.isAncestor a k = f.isAncestor a k := by
  have hchain : ∀ fuel k, g.chain fuel k = f.chain fuel k := by
    intro fuel
    induction fuel with
    | zero => exact fun _ => rfl
    | succ fuel ih =>
      intro k
      rw [chain, chain, h.parent?]
      cases f.parent? k with
      | none => rfl
      | some p => exact congrArg (p :: ·) (ih p)
  rw [Forest.isAncestor, Forest.isAncestor, ancestors, ancestors, hchain, h.size]

theorem add {s t : NodeSpec} (hspec : R s t) : (f.add s).2.Alike R (g.add t).2 := by
  intro k
  rw [node?_add, node?_add, h.size]
  split
  · exact .some ⟨hspec, rfl, rfl, rfl⟩
  · exact h k

theorem update {change : Node → Node}
    (hchange : ∀ n m : Node, n.Alike R m → (change n).Alike R (change m)) (k : NodeKey) :
    (f.update k change).Alike R (g.update k change) := by
  intro j
  rw [node?_update, node?_update]
  split
  · rcases h.node?_cases j with ⟨hn, hm⟩ | ⟨n, m, hn, hm, hnm⟩
    · rw [hn, hm]
      exact .none
    · rw [hn, hm]
      exact .some (hchange n m hnm)
  · exact h j

theorem setState (k : NodeKey) (state : RunState) :
    (f.setState k state).Alike R (g.setState k state) := by
  refine h.update (fun n m hnm => ?_) k
  exact ⟨hnm.spec, hnm.parent, hnm.children, rfl⟩

theorem setParent (k : NodeKey) (parent : Option NodeKey) :
    (f.update k fun n => { n with parent }).Alike R (g.update k fun n => { n with parent }) := by
  refine h.update (fun n m hnm => ?_) k
  exact ⟨hnm.spec, rfl, hnm.children, hnm.state⟩

theorem mapChildren (k : NodeKey) (change : List NodeKey → List NodeKey) :
    (f.update k fun n => { n with children := change n.children }).Alike R
      (g.update k fun n => { n with children := change n.children }) := by
  refine h.update (fun n m hnm => ?_) k
  exact ⟨hnm.spec, hnm.parent, congrArg change hnm.children, hnm.state⟩

theorem detach (p c : NodeKey) :
    (g.detach p c).1 = (f.detach p c).1 ∧ (f.detach p c).2.Alike R (g.detach p c).2 := by
  simp only [Forest.detach, h.children]
  split
  · exact ⟨rfl, (h.mapChildren p _).setParent c none⟩
  · exact ⟨rfl, h⟩

theorem release (c : NodeKey) : (f.release c).Alike R (g.release c) := by
  simp only [Forest.release, h.parent?]
  split
  · exact (h.detach _ c).2
  · exact h

theorem link (p c : NodeKey) : (f.link p c).Alike R (g.link p c) :=
  (h.mapChildren p (· ++ [c])).setParent c (some p)

/-- The same attempts are refused for the same reasons, as long as there is as much room. -/
theorem refusal? (hroom : ∀ s t, R s t → t.capacity = s.capacity) (p c : NodeKey) :
    g.refusal? p c = f.refusal? p c := by
  have hroom : (g.node? p).map (·.spec.capacity) = (f.node? p).map (·.spec.capacity) :=
    h.map_node? (fun n m hnm => hroom n.spec m.spec hnm.spec) p
  have hcapacity : g.capacity p = f.capacity p := by
    rw [Forest.capacity, Forest.capacity, hroom]
  have hcycle : refusal?.cycle? g p c = refusal?.cycle? f p c := by
    rw [refusal?.cycle?, refusal?.cycle?, h.isAncestor]
  rw [Forest.refusal?, Forest.refusal?, hcapacity, hcycle, h.children]

/-- Where the nodes have the same room, a child is attached in both forests or in neither. -/
theorem adopt (hroom : ∀ s t, R s t → t.capacity = s.capacity) (p c : NodeKey) :
    (g.adopt p c).1 = (f.adopt p c).1 ∧ (f.adopt p c).2.Alike R (g.adopt p c).2 := by
  simp only [Forest.adopt, h.children, h.refusal? hroom]
  split
  · exact ⟨rfl, h⟩
  · split
    · exact ⟨rfl, h⟩
    · split
      · exact ⟨rfl, h⟩
      · exact ⟨rfl, (h.release c).link p c⟩

theorem reset (k : NodeKey) : (f.reset k).Alike R (g.reset k) := by
  rw [Forest.reset, Forest.reset, h.subtree]
  exact List.foldl_rel h fun j _ f' g' h' => h'.setState j .fresh

theorem progress? (k : NodeKey) : g.progress? k = f.progress? k := by
  have hprogress : ∀ fuel k, g.progressTo fuel k = f.progressTo fuel k := by
    intro fuel
    induction fuel with
    | zero => exact fun _ => rfl
    | succ fuel ih =>
      intro k
      rw [progressTo, progressTo, funext ih]
      refine h.map_node? (fun n m hnm => ?_) k
      rw [hnm.state, hnm.children]
  rw [Forest.progress?, Forest.progress?, h.size, hprogress]

/-- The subtrees are ticked alike, although their plans may differ in every node. -/
theorem stepper? (hruns : ∀ s t, R s t → s.RunsLike t) (ex : Executor σ) (k : NodeKey) :
    (g.plan? k).map (Plan.tick ex) = (f.plan? k).map (Plan.tick ex) := by
  have hstepper : ∀ fuel k,
      (g.planTo fuel k).map (Plan.tick ex) = (f.planTo fuel k).map (Plan.tick ex) := by
    intro fuel
    induction fuel with
    | zero => exact fun _ => rfl
    | succ fuel ih =>
      intro k
      rw [planTo, planTo]
      rcases h.node?_cases k with ⟨hn, hm⟩ | ⟨n, m, hn, hm, hnm⟩
      · rw [hn, hm]
        rfl
      · have hsteppers : Plan.steppers ex (m.children.filterMap (g.planTo fuel)) =
            Plan.steppers ex (n.children.filterMap (f.planTo fuel)) := by
          rw [Plan.steppers_eq_map, Plan.steppers_eq_map, List.map_filterMap, List.map_filterMap,
            funext ih, hnm.children]
        simp only [hn, hm, Option.map_some, Plan.tick, hsteppers, (hruns _ _ hnm.spec).step]
  rw [Forest.plan?, Forest.plan?, h.size, hstepper]

end Alike

mutual

/-- Run states are written back alike. -/
theorem Alike.store {f g : Forest} (h : f.Alike R g) (k : NodeKey) :
    (a : Progress) → (f.store k a).Alike R (g.store k a)
  | .node state children => by
    rw [Forest.store, Forest.store, h.children]
    exact Alike.storeAll (h.setState k state) (f.children k) children

/-- Storing the same progress leaves both forests alike. -/
theorem Alike.storeAll {f g : Forest} (h : f.Alike R g) (keys : List NodeKey) :
    (children : List Progress) → (f.storeAll keys children).Alike R (g.storeAll keys children)
  | [] => h
  | a :: rest =>
    match keys with
    | [] => h
    | k :: keys => Alike.storeAll (Alike.store h k a) keys rest

end

namespace Alike

variable (h : f.Alike R g) (hruns : ∀ s t, R s t → s.RunsLike t)
include h hruns

theorem tick (ex : Executor σ) (k : NodeKey) (w : World σ) :
    (g.tick ex k w).1 = (f.tick ex k w).1 ∧ (g.tick ex k w).2.2 = (f.tick ex k w).2.2 ∧
      (f.tick ex k w).2.1.Alike R (g.tick ex k w).2.1 := by
  have hstepper := h.stepper? hruns ex k
  simp only [Forest.tick, h.progress?]
  cases hp : f.plan? k with
  | none =>
    rw [hp, Option.map_none, Option.map_eq_none_iff] at hstepper
    rw [hstepper]
    exact ⟨rfl, rfl, h⟩
  | some p =>
    rw [hp, Option.map_some, Option.map_eq_some_iff] at hstepper
    obtain ⟨q, hq, hsame⟩ := hstepper
    rw [hq]
    cases f.progress? k with
    | none => exact ⟨rfl, rfl, h⟩
    | some a =>
      simp only [hsame]
      exact ⟨trivial, trivial, h.store k _⟩

theorem startNodes (t : Tree) : t.startNodes g = t.startNodes f := by
  refine startNodes_congr (fun k => ?_) (fun k => ?_) t
  · rw [Tree.isStart, Tree.isStart]
    rcases h.node?_cases k with ⟨hn, hm⟩ | ⟨n, m, hn, hm, hnm⟩
    · rw [hn, hm]
    · rw [hn, hm, Option.any_some, Option.any_some, (hruns _ _ hnm.spec).typeName]
  · rw [Tree.positionX, Tree.positionX]
    rcases h.node?_cases k with ⟨hn, hm⟩ | ⟨n, m, hn, hm, hnm⟩
    · rw [hn, hm]
    · rw [hn, hm, Option.map_some, Option.map_some, (hruns _ _ hnm.spec).position]

end Alike

end Forest

end BehaviorTree
