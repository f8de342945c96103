import BehaviorTree.Proofs.Ancestry
import Mathlib.Tactic.SplitIfs

/-!
What each operation does to the links of a forest. Ticks and resets change nothing but run states;
attaching and detaching change the nodes on both sides of one link. The effect is stated node by
node, once for each operation, and every operation keeps forests sound.
-/
namespace BehaviorTree.Forest

open Relation

variable {f g h : Forest}

def bare? (f : Forest) (k : NodeKey) : Option (NodeSpec × Option NodeKey × List NodeKey) :=
  (f.node? k).map fun n => (n.spec, n.parent, n.children)

/-- Two forests of the same nodes that are linked in the same way. Run states may differ. -/
structure SameButStates (f g : Forest) : Prop where
  size : g.size = f.size
  bare? : ∀ k, g.bare? k = f.bare? k

namespace SameButStates

theorem refl (f : Forest) : f.SameButStates f := ⟨rfl, fun _ => rfl⟩

theorem trans (hfg : f.SameButStates g) (hgh : g.SameButStates h) : f.SameButStates h :=
  ⟨hgh.size.trans hfg.size, fun k => (hgh.bare? k).trans (hfg.bare? k)⟩

theorem children (hfg : f.SameButStates g) (k : NodeKey) : g.children k = f.children k := by
  have hk := congrArg (Option.map fun b => b.2.2) (hfg.bare? k)
  simp only [Forest.bare?, Option.map_map] at hk
  exact congrArg (Option.getD · []) hk

theorem parent? (hfg : f.SameButStates g) (k : NodeKey) : g.parent? k = f.parent? k := by
  have hk := congrArg (Option.bind · fun b => b.2.1) (hfg.bare? k)
  simp only [Forest.bare?, Option.bind_map] at hk
  exact hk

theorem spec? (hfg : f.SameButStates g) (k : NodeKey) :
    (g.node? k).map (·.spec) = (f.node? k).map (·.spec) := by
  have hk := congrArg (Option.map fun b => b.1) (hfg.bare? k)
  simp only [Forest.bare?, Option.map_map] at hk
  exact hk

end SameButStates

theorem setState_sameButStates (f : Forest) (k : NodeKey) (state : RunState) :
    f.SameButStates (f.setState k state) := by
  refine ⟨size_update f k _, fun j => ?_⟩
  simp only [bare?, setState, node?_update]
  split_ifs
  · cases f.node? j <;> rfl
  · rfl

mutual

theorem store_sameButStates (f : Forest) (k : NodeKey) :
    (p : Progress) → f.SameButStates (f.store k p)
  | .node state children =>
    (setState_sameButStates f k state).trans (storeAll_sameButStates _ _ children)

theorem storeAll_sameButStates (f : Forest) (keys : List NodeKey) :
    (ps : List Progress) → f.SameButStates (f.storeAll keys ps)
  | [] => SameButStates.refl f
  | p :: rest =>
    match keys with
    | [] => SameButStates.refl f
    | k :: keys => (store_sameButStates f k p).trans (storeAll_sameButStates _ keys rest)

end

/-- A tick changes nothing but run states. -/
theorem tick_sameButStates {σ : Type} (f : Forest) (ex : Executor σ) (k : NodeKey)
    (world : World σ) : f.SameButStates (f.tick ex k world).2.1 := by
  simp only [tick]
  split
  · exact store_sameButStates f k _
  · exact SameButStates.refl f

theorem reset_sameButStates (f : Forest) (k : NodeKey) : f.SameButStates (f.reset k) := by
  have hfold : ∀ (keys : List NodeKey) (g : Forest),
      g.SameButStates (keys.foldl (fun g j => g.setState j .fresh) g) := by
    intro keys
    induction keys with
    | nil => exact SameButStates.refl
    | cons j rest ih => exact fun g => (setState_sameButStates g j .fresh).trans (ih _)
  exact hfold (f.subtree k) f

theorem children_add (f : Forest) (spec : NodeSpec) (k : NodeKey) :
    (f.add spec).2.children k = f.children k := by
  simp only [children, node?_add]
  split_ifs with hk
  · have hnone : f.node? k = none := node?_eq_none_iff.mpr (Nat.le_of_eq hk.symm)
    simp [hnone]
  · rfl

theorem parent?_add (f : Forest) (spec : NodeSpec) (k : NodeKey) :
    (f.add spec).2.parent? k = f.parent? k := by
  simp only [parent?, node?_add]
  split_ifs with hk
  · have hnone : f.node? k = none := node?_eq_none_iff.mpr (Nat.le_of_eq hk.symm)
    simp [hnone]
  · rfl

theorem node?_updateSpec (f : Forest) (j : NodeKey) (change : NodeSpec → NodeSpec) (k : NodeKey) :
    (f.updateSpec j change).node? k =
      (f.node? k).map fun n => { n with spec := if k = j then change n.spec else n.spec } := by
  rw [updateSpec, node?_update]
  by_cases hkj : k = j <;> simp [hkj]

theorem children_updateSpec (f : Forest) (j : NodeKey) (change : NodeSpec → NodeSpec)
    (k : NodeKey) : (f.updateSpec j change).children k = f.children k := by
  simp only [children, node?_updateSpec, Option.map_map]
  rfl

theorem parent?_updateSpec (f : Forest) (j : NodeKey) (change : NodeSpec → NodeSpec)
    (k : NodeKey) : (f.updateSpec j change).parent? k = f.parent? k := by
  simp only [parent?, node?_updateSpec, Option.bind_map]
  rfl

/-- Taking a child away changes the child and the node that it belonged to. -/
theorem node?_detach {p c : NodeKey} (hc : c ∈ f.children p) (k : NodeKey) :
    (f.detach p c).2.node? k =
      (f.node? k).map fun n =>
        { n with
          parent := if k = c then none else n.parent
          children := if k = p then n.children.filter (· ≠ c) else n.children } := by
  have hcontains : (f.children p).contains c = true := List.contains_iff_mem.mpr hc
  simp only [detach, hcontains, if_true, node?_update]
  cases f.node? k with
  | none => simp
  | some n => split_ifs <;> rfl

theorem detach_of_not_mem {p c : NodeKey} (hc : c ∉ f.children p) : f.detach p c = (false, f) := by
  have hcontains : ¬ (f.children p).contains c = true := fun h => hc (List.contains_iff_mem.mp h)
  simp only [detach, hcontains]
  rfl

/-- Putting a child in its place changes the child and its new parent. -/
theorem node?_link (f : Forest) (p c k : NodeKey) :
    (f.link p c).node? k =
      (f.node? k).map fun n =>
        { n with
          parent := if k = c then some p else n.parent
          children := if k = p then n.children ++ [c] else n.children } := by
  simp only [link, node?_update]
  cases f.node? k with
  | none => simp
  | some n => split_ifs <;> rfl

def orphan (f : Forest) (keys : List NodeKey) : Forest :=
  keys.foldl (fun g c => g.update c fun n => { n with parent := none }) f

theorem node?_orphan (f : Forest) (keys : List NodeKey) (k : NodeKey) :
    (f.orphan keys).node? k =
      (f.node? k).map fun n => { n with parent := if k ∈ keys then none else n.parent } := by
  induction keys generalizing f with
  | nil => simp [orphan]
  | cons c rest ih =>
    have hstep : f.orphan (c :: rest) =
        (f.update c fun n => { n with parent := none }).orphan rest := rfl
    rw [hstep, ih, node?_update]
    by_cases hkc : k = c
    · cases f.node? k <;> simp [hkc]
    · simp [hkc]

/-- Taking all children away changes the node and these children. -/
theorem node?_detachAll (f : Forest) (p k : NodeKey) :
    (f.detachAll p).node? k =
      (f.node? k).map fun n =>
        { n with
          parent := if k ∈ f.children p then none else n.parent
          children := if k = p then [] else n.children } := by
  have hbare : f.detachAll p =
      (f.update p fun n => { n with children := [] }).orphan (f.children p) := rfl
  rw [hbare, node?_orphan, node?_update]
  cases f.node? k with
  | none => simp
  | some n => split_ifs <;> rfl

/-- Taking a node away from its parent, if it has one, changes no more than these two nodes. -/
theorem node?_release (hs : f.Sound) (c k : NodeKey) :
    (f.release c).node? k =
      (f.node? k).map fun n =>
        { n with
          parent := if k = c then none else n.parent
          children := if f.parent? c = some k then n.children.filter (· ≠ c) else n.children } := by
  cases hparent : f.parent? c with
  | none =>
    simp only [release, hparent]
    cases hk : f.node? k with
    | none => rfl
    | some n =>
      by_cases hkc : k = c
      · have hnone : n.parent = none := by rw [← parent?_eq hk, hkc, hparent]
        simp only [Option.map_some, reduceCtorEq, if_false, if_pos hkc]
        rw [← hnone]
      · simp [hkc]
  | some p =>
    simp only [release, hparent, node?_detach (hs.mem_children.mpr hparent)]
    cases f.node? k with
    | none => rfl
    | some n => simp [eq_comm]

theorem children_of_node? {φ : NodeKey → Node → Node}
    (hmap : ∀ k, g.node? k = (f.node? k).map (φ k)) (k : NodeKey) :
    g.children k = ((f.node? k).map fun n => (φ k n).children).getD [] := by
  simp only [children, hmap, Option.map_map]
  rfl

theorem parent?_of_node? {φ : NodeKey → Node → Node}
    (hmap : ∀ k, g.node? k = (f.node? k).map (φ k)) (k : NodeKey) :
    g.parent? k = (f.node? k).bind fun n => (φ k n).parent := by
  simp only [parent?, hmap, Option.bind_map]
  rfl

theorem Sound.of_same_links (hs : f.Sound) (hchildren : ∀ k, g.children k = f.children k)
    (hparent : ∀ k, g.parent? k = f.parent? k) : g.Sound where
  linked p c := by rw [hchildren, hparent, hs.linked]
  nodup p := hchildren p ▸ hs.nodup p
  acyclic k hk := hs.acyclic k (isAbove_mono (fun _ c h => (hparent c).symm.trans h) hk)

/-- Cutting some children of one node off on both sides keeps a forest sound. -/
theorem Sound.of_cut (hs : f.Sound) (p : NodeKey) (cut : List NodeKey)
    (hcut : ∀ c ∈ cut, f.IsParent p c)
    (hparent : ∀ k, g.parent? k = if k ∈ cut then none else f.parent? k)
    (hchildren : ∀ k, g.children k =
      if k = p then (f.children p).filter (· ∉ cut) else f.children k) : g.Sound where
  linked q c := by
    rw [hchildren, hparent]
    by_cases hc : c ∈ cut
    · have hother : q ≠ p → c ∉ f.children q := by
        intro hqp hcq
        exact hqp (Option.some.inj ((hs.mem_children.mp hcq).symm.trans (hcut c hc)))
      by_cases hqp : q = p
      · simp [hqp, hc]
      · simp [hqp, hc, hother hqp]
    · by_cases hqp : q = p
      · simp [hqp, hc, hs.linked]
      · simp [hqp, hc, hs.linked]
  nodup q := by
    rw [hchildren]
    split_ifs
    · exact (hs.nodup p).filter _
    · exact hs.nodup q
  acyclic k hk := by
    refine hs.acyclic k (isAbove_mono (fun p c h => ?_) hk)
    have hcp : (if c ∈ cut then none else f.parent? c) = some p := (hparent c).symm.trans h
    split_ifs at hcp
    exact hcp

theorem parent?_detach {p c : NodeKey} (hc : c ∈ f.children p) (k : NodeKey) :
    (f.detach p c).2.parent? k = if k = c then none else f.parent? k := by
  rw [parent?_of_node? (node?_detach hc), parent?]
  cases f.node? k <;> simp

theorem children_detach {p c : NodeKey} (hc : c ∈ f.children p) (k : NodeKey) :
    (f.detach p c).2.children k =
      if k = p then (f.children p).filter (· ≠ c) else f.children k := by
  rw [children_of_node? (node?_detach hc)]
  by_cases hkp : k = p
  · subst hkp
    cases hk : f.node? k <;> simp [children, hk]
  · cases hk : f.node? k <;> simp [children, hk, hkp]

theorem detach_sound (hs : f.Sound) (p c : NodeKey) : (f.detach p c).2.Sound := by
  by_cases hc : c ∈ f.children p
  · refine hs.of_cut p [c] ?_ (fun k => ?_) fun k => ?_
    · simpa using hs.mem_children.mp hc
    · simp [parent?_detach hc]
    · simp [children_detach hc]
  · rw [detach_of_not_mem hc]
    exact hs

theorem detachAll_sound (hs : f.Sound) (p : NodeKey) : (f.detachAll p).Sound := by
  refine hs.of_cut p (f.children p) (fun c => hs.mem_children.mp) (fun k => ?_)
    fun k => ?_
  · rw [parent?_of_node? (node?_detachAll f p), parent?]
    cases f.node? k <;> simp
  · rw [children_of_node? (node?_detachAll f p)]
    by_cases hkp : k = p
    · subst hkp
      cases hk : f.node? k <;> simp [children, hk]
    · cases hk : f.node? k <;> simp [children, hk, hkp]

theorem parent?_link {p c : NodeKey} (hc : c < f.size) (k : NodeKey) :
    (f.link p c).parent? k = if k = c then some p else f.parent? k := by
  rw [parent?_of_node? (node?_link f p c)]
  by_cases hkc : k = c
  · subst hkc
    obtain ⟨n, hn⟩ := exists_node hc
    simp [hn]
  · simp [parent?, hkc]

theorem children_link {p c : NodeKey} (hp : p < f.size) (k : NodeKey) :
    (f.link p c).children k = if k = p then f.children p ++ [c] else f.children k := by
  rw [children_of_node? (node?_link f p c)]
  by_cases hkp : k = p
  · subst hkp
    obtain ⟨n, hn⟩ := exists_node hp
    simp [children, hn]
  · simp [children, hkp]

/-- Every way up in the new forest is an old one, or uses the new link once. -/
theorem isAbove_of_link {p c a b : NodeKey} (hc : c < f.size) (h : (f.link p c).IsAbove a b) :
    f.IsAbove a b ∨ ReflTransGen f.IsParent a p ∧ ReflTransGen f.IsParent c b := by
  have hstep : ∀ {x y}, (f.link p c).IsParent x y → y = c ∧ x = p ∨ f.IsParent x y := by
    intro x y hxy
    rw [IsParent, parent?_link hc] at hxy
    split_ifs at hxy with hyc
    · exact Or.inl ⟨hyc, (Option.some.inj hxy).symm⟩
    · exact Or.inr hxy
  induction h with
  | single hab =>
    rcases hstep hab with ⟨rfl, rfl⟩ | hab
    · exact Or.inr ⟨ReflTransGen.refl, ReflTransGen.refl⟩
    · exact Or.inl (TransGen.single hab)
  | tail _ hbd ih =>
    rcases hstep hbd with ⟨rfl, rfl⟩ | hbd
    · rcases ih with hab | ⟨hap, -⟩
      · exact Or.inr ⟨hab.to_reflTransGen, ReflTransGen.refl⟩
      · exact Or.inr ⟨hap, ReflTransGen.refl⟩
    · rcases ih with hab | ⟨hap, hcb⟩
      · exact Or.inl (hab.tail hbd)
      · exact Or.inr ⟨hap, hcb.tail hbd⟩

/-- A node without a parent may be put under a node that it is neither above nor at. -/
theorem link_sound (hs : f.Sound) {p c : NodeKey} (hp : p < f.size) (hc : c < f.size)
    (hfree : f.parent? c = none) (hnot : ¬ ReflTransGen f.IsParent c p) : (f.link p c).Sound where
  linked q d := by
    rw [children_link hp, parent?_link hc]
    by_cases hdc : d = c
    · subst hdc
      have hnone : ∀ q, d ∉ f.children q := fun q h => by
        have := hs.mem_children.mp h
        simp [IsParent, hfree] at this
      by_cases hqp : q = p
      · simp [hqp]
      · simp [hqp, hnone q, Ne.symm hqp]
    · by_cases hqp : q = p
      · simp [hqp, hdc, hs.linked]
      · simp [hqp, hdc, hs.linked]
  nodup q := by
    rw [children_link hp]
    split_ifs
    · refine List.nodup_append.mpr ⟨hs.nodup p, List.nodup_singleton c, ?_⟩
      intro a ha b hb hab
      have hcp : f.IsParent p c := hs.mem_children.mp (List.mem_singleton.mp hb ▸ hab ▸ ha)
      simp [IsParent, hfree] at hcp
    · exact hs.nodup q
  acyclic k hk := by
    rcases isAbove_of_link hc hk with h | ⟨hkp, hck⟩
    · exact hs.acyclic k h
    · exact hnot (hck.trans hkp)

theorem size_detach (f : Forest) (p c : NodeKey) : (f.detach p c).2.size = f.size := by
  simp only [detach]
  split_ifs <;> simp

theorem size_release (f : Forest) (c : NodeKey) : (f.release c).size = f.size := by
  simp only [release]
  cases f.parent? c with
  | none => rfl
  | some p => exact size_detach f p c

theorem size_link (f : Forest) (p c : NodeKey) : (f.link p c).size = f.size := by
  simp [link]

theorem release_sound (hs : f.Sound) (c : NodeKey) : (f.release c).Sound := by
  simp only [release]
  cases f.parent? c with
  | none => exact hs
  | some p => exact detach_sound hs p c

theorem parent?_release (hs : f.Sound) (c k : NodeKey) :
    (f.release c).parent? k = if k = c then none else f.parent? k := by
  rw [parent?_of_node? (node?_release hs c)]
  cases hk : f.node? k <;> simp [parent?, hk]

/-- Whoever is a parent after a release was one before. -/
theorem isParent_of_release (hs : f.Sound) {c p d : NodeKey} (h : (f.release c).IsParent p d) :
    f.IsParent p d := by
  rw [IsParent, parent?_release hs] at h
  split_ifs at h
  exact h

/-- What an attempt to attach a node comes to. -/
theorem adopt_cases (f : Forest) (p c : NodeKey) :
    p = c ∧ f.adopt p c = (.error .selfReference, f) ∨
    p ≠ c ∧ c ∈ f.children p ∧ f.adopt p c = (.ok (), f) ∨
    p ≠ c ∧ c ∉ f.children p ∧
      (∃ e, f.refusal? p c = some e ∧ f.adopt p c = (.error e, f)) ∨
    p ≠ c ∧ c ∉ f.children p ∧ f.refusal? p c = none ∧
      f.adopt p c = (.ok (), (f.release c).link p c) := by
  by_cases hpc : p = c
  · exact Or.inl ⟨hpc, by simp [adopt, hpc]⟩
  · by_cases hmem : c ∈ f.children p
    · exact Or.inr (Or.inl ⟨hpc, hmem, by simp [adopt, hpc, hmem]⟩)
    · cases hrefusal : f.refusal? p c with
      | some e =>
        exact Or.inr (Or.inr (Or.inl ⟨hpc, hmem, e, rfl, by simp [adopt, hpc, hmem, hrefusal]⟩))
      | none =>
        exact Or.inr (Or.inr (Or.inr ⟨hpc, hmem, rfl, by simp [adopt, hpc, hmem, hrefusal]⟩))

/-- An attempt leaves the forest alone, or it takes the node from its parent and links it anew. -/
theorem adopt_forest (f : Forest) (p c : NodeKey) :
    (f.adopt p c).2 = f ∨
    p ≠ c ∧ c ∉ f.children p ∧ f.refusal? p c = none ∧
      (f.adopt p c).2 = (f.release c).link p c := by
  rcases adopt_cases f p c with
    ⟨-, h⟩ | ⟨-, -, h⟩ | ⟨-, -, e, -, h⟩ | ⟨hpc, hc, hnone, h⟩
  · exact Or.inl (by rw [h])
  · exact Or.inl (by rw [h])
  · exact Or.inl (by rw [h])
  · exact Or.inr ⟨hpc, hc, hnone, by rw [h]⟩

theorem size_adopt (f : Forest) (p c : NodeKey) : (f.adopt p c).2.size = f.size := by
  rcases adopt_forest f p c with h | ⟨-, -, -, h⟩
  · rw [h]
  · rw [h, size_link, size_release]

theorem not_isAncestor_of_refusal? {p c : NodeKey} (h : f.refusal? p c = none) :
    f.isAncestor c p = false := by
  by_contra ha
  simp only [refusal?, refusal?.cycle?, Bool.not_eq_false] at h ha
  rw [ha] at h
  cases hcap : f.capacity p with
  | unlimited => simp [hcap] at h
  | atMost limit =>
    simp only [hcap] at h
    split_ifs at h

/-- An attempt to attach a node breaks no links, whatever its answer. -/
theorem adopt_sound (hs : f.Sound) {p c : NodeKey} (hp : p < f.size) (hc : c < f.size) :
    (f.adopt p c).2.Sound := by
  rcases adopt_forest f p c with h | ⟨hpc, -, hnone, h⟩
  · rwa [h]
  · have hnot : ¬ f.IsAbove c p := fun ha => by
      have hfalse := not_isAncestor_of_refusal? hnone
      rw [hs.isAncestor_iff.mpr ha] at hfalse
      exact Bool.noConfusion hfalse
    rw [h]
    refine link_sound (release_sound hs c) ?_ ?_ (by simp [parent?_release hs]) fun hcp => ?_
    · rwa [size_release]
    · rwa [size_release]
    · rcases reflTransGen_iff_eq_or_transGen.mp hcp with rfl | hcp
      · exact hpc rfl
      · exact hnot (isAbove_mono (fun _ _ => isParent_of_release hs) hcp)

end BehaviorTree.Forest
