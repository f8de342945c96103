import BehaviorTree.Forest
import Mathlib.Data.List.Nodup
import Mathlib.Data.List.Perm.Subperm
import Mathlib.Data.List.Range
import Mathlib.Logic.Relation

/-!
Ancestry in a forest. A sound forest has parent links and child lists that agree, no child listed
twice, and no node above itself. In a sound forest both walks end by themselves: the bound on
their steps is never reached, the walk up finds the nodes above a node, and the walk down finds the
nodes below it, each of them once and behind its parent.
-/
namespace BehaviorTree.Forest

open Relation

/-- The parent link of the second node leads to the first one. -/
def IsParent (f : Forest) (p c : NodeKey) : Prop := f.parent? c = some p

/-- One or more parent links lead from the second node to the first one. -/
def IsAbove (f : Forest) : NodeKey → NodeKey → Prop := TransGen f.IsParent

structure Sound (f : Forest) : Prop where
  linked : ∀ p c, c ∈ f.children p ↔ f.parent? c = some p
  nodup : ∀ p, (f.children p).Nodup
  acyclic : ∀ k, ¬ f.IsAbove k k

variable {f : Forest}

theorem isAbove_mono {g : Forest} (h : ∀ p c, f.IsParent p c → g.IsParent p c) {a b : NodeKey}
    (hab : f.IsAbove a b) : g.IsAbove a b :=
  TransGen.mono h a b hab

theorem parent?_of_size_le {k : NodeKey} (h : f.size ≤ k) : f.parent? k = none := by
  have hnone : f.nodes[k]? = none := Array.getElem?_eq_none h
  simp [parent?, node?, hnone]

theorem children_of_size_le {k : NodeKey} (h : f.size ≤ k) : f.children k = [] := by
  have hnone : f.nodes[k]? = none := Array.getElem?_eq_none h
  simp [children, node?, hnone]

theorem lt_size_of_node? {k : NodeKey} {n : Node} (h : f.node? k = some n) : k < f.size := by
  by_contra hle
  rw [node?_eq_none_iff.mpr (Nat.le_of_not_lt hle)] at h
  cases h

theorem lt_size_of_isParent {p c : NodeKey} (h : f.IsParent p c) : c < f.size := by
  by_contra hc
  have hnone := parent?_of_size_le (f := f) (Nat.le_of_not_lt hc)
  simp [IsParent, hnone] at h

namespace Sound

variable (hs : f.Sound)
include hs

theorem mem_children {p c : NodeKey} : c ∈ f.children p ↔ f.IsParent p c := hs.linked p c

theorem parent_lt_size {p c : NodeKey} (h : f.IsParent p c) : p < f.size := by
  by_contra hp
  have hnil := children_of_size_le (f := f) (Nat.le_of_not_lt hp)
  have hmem := hs.mem_children.mpr h
  simp [hnil] at hmem

theorem child_lt_size {p c : NodeKey} (h : c ∈ f.children p) : c < f.size :=
  lt_size_of_isParent (hs.mem_children.mp h)

end Sound

/-- Of two nodes on the way up from a third one, the later one is above the earlier one. -/
theorem isAbove_total {a b k : NodeKey} (ha : f.IsAbove a k) (hb : f.IsAbove b k) :
    a = b ∨ f.IsAbove a b ∨ f.IsAbove b a := by
  induction ha with
  | single hak =>
    obtain ⟨p, hbp, hpk⟩ := TransGen.tail'_iff.mp hb
    have hp : p = _ := Option.some.inj (hpk.symm.trans hak)
    subst p
    rcases reflTransGen_iff_eq_or_transGen.mp hbp with heq | hba
    · exact Or.inl heq
    · exact Or.inr (Or.inr hba)
  | tail hap hpk ih =>
    obtain ⟨q, hbq, hqk⟩ := TransGen.tail'_iff.mp hb
    have hq : q = _ := Option.some.inj (hqk.symm.trans hpk)
    subst q
    rcases reflTransGen_iff_eq_or_transGen.mp hbq with rfl | hbp
    · exact Or.inr (Or.inl hap)
    · exact ih hbp

theorem isAbove_of_mem_chain {fuel : ℕ} {a k : NodeKey} (h : a ∈ f.chain fuel k) :
    f.IsAbove a k := by
  induction fuel generalizing k with
  | zero => simp [chain] at h
  | succ n ih =>
    cases hp : f.parent? k with
    | none => simp [chain, hp] at h
    | some p =>
      have hstep : f.IsParent p k := hp
      simp only [chain, hp, List.mem_cons] at h
      rcases h with rfl | h
      · exact TransGen.single hstep
      · exact TransGen.tail (ih h) hstep

namespace Sound

variable (hs : f.Sound)
include hs

theorem isAbove_lt_size {a k : NodeKey} (h : f.IsAbove a k) : a < f.size := by
  obtain ⟨c, hc, -⟩ := TransGen.head'_iff.mp h
  exact hs.parent_lt_size hc

theorem chain_nodup (fuel : ℕ) (k : NodeKey) : (f.chain fuel k).Nodup := by
  induction fuel generalizing k with
  | zero => simp [chain]
  | succ n ih =>
    cases hp : f.parent? k with
    | none => simp [chain, hp]
    | some p =>
      have hnot : p ∉ f.chain n p := fun h => hs.acyclic p (isAbove_of_mem_chain h)
      simpa [chain, hp] using And.intro hnot (ih p)

/-- A walk meets fewer nodes than there are: no node twice, and not the one it begins at. -/
theorem chain_length_lt (fuel : ℕ) {k : NodeKey} (hk : k < f.size) :
    (f.chain fuel k).length < f.size := by
  have hnot : k ∉ f.chain fuel k := fun h => hs.acyclic k (isAbove_of_mem_chain h)
  have hnodup : (k :: f.chain fuel k).Nodup := List.nodup_cons.mpr ⟨hnot, hs.chain_nodup fuel k⟩
  have hsub : k :: f.chain fuel k ⊆ List.range f.size := by
    intro a ha
    rcases List.mem_cons.mp ha with rfl | ha
    · exact List.mem_range.mpr hk
    · exact List.mem_range.mpr (hs.isAbove_lt_size (isAbove_of_mem_chain ha))
  have hlen := (hnodup.subperm hsub).length_le
  simp only [List.length_cons, List.length_range] at hlen
  omega

end Sound

/-- A walk that takes fewer steps than it may has come to a node without a parent. -/
theorem chain_succ_of_length_lt {fuel : ℕ} {k : NodeKey} (h : (f.chain fuel k).length < fuel) :
    f.chain (fuel + 1) k = f.chain fuel k := by
  induction fuel generalizing k with
  | zero => simp at h
  | succ n ih =>
    cases hp : f.parent? k with
    | none => simp [chain, hp]
    | some p =>
      simp only [chain, hp, List.length_cons] at h
      have hrest : f.chain (n + 1) p = f.chain n p := ih (by omega)
      simp only [chain, hp] at hrest ⊢
      rw [hrest]

namespace Sound

variable (hs : f.Sound)
include hs

/-- The walk up ends by itself: more steps than there are nodes find nothing more. -/
theorem chain_eq_ancestors {fuel : ℕ} (h : f.size ≤ fuel) (k : NodeKey) :
    f.chain fuel k = f.ancestors k := by
  induction fuel, h using Nat.le_induction with
  | base => rfl
  | succ n hn ih =>
    by_cases hk : k < f.size
    · have hlt : (f.chain n k).length < n := by
        have := hs.chain_length_lt n hk
        omega
      rw [chain_succ_of_length_lt hlt, ih]
    · have hp := parent?_of_size_le (f := f) (Nat.le_of_not_lt hk)
      cases hsize : f.size <;> simp [ancestors, chain, hp, hsize]

theorem ancestors_of_isParent {p k : NodeKey} (h : f.IsParent p k) :
    f.ancestors k = p :: f.ancestors p := by
  have hp : f.parent? k = some p := h
  rw [← hs.chain_eq_ancestors (Nat.le_succ f.size) k]
  simp only [chain, hp]
  rfl

/-- The ancestors of a node are the nodes above it. -/
theorem mem_ancestors {a k : NodeKey} : a ∈ f.ancestors k ↔ f.IsAbove a k := by
  refine ⟨isAbove_of_mem_chain, fun h => ?_⟩
  induction h with
  | single hp => simp [hs.ancestors_of_isParent hp]
  | tail _ hp ih => simp [hs.ancestors_of_isParent hp, ih]

/-- The test for an ancestor tells which nodes are above. -/
theorem isAncestor_iff {a k : NodeKey} : f.isAncestor a k = true ↔ f.IsAbove a k := by
  rw [isAncestor, List.contains_iff_mem, hs.mem_ancestors]

end Sound

def depth (f : Forest) (k : NodeKey) : ℕ := (f.ancestors k).length

theorem isAbove_of_mem_below (hs : f.Sound) {fuel : ℕ} {a k : NodeKey}
    (h : a ∈ f.below fuel k) : f.IsAbove k a := by
  induction fuel generalizing k with
  | zero => simp [below] at h
  | succ n ih =>
    obtain ⟨c, hc, ha⟩ := List.mem_flatMap.mp h
    have hstep := hs.mem_children.mp hc
    rcases List.mem_cons.mp ha with rfl | ha
    · exact TransGen.single hstep
    · exact TransGen.head hstep (ih ha)

namespace Sound

variable (hs : f.Sound)
include hs

/-- A node has fewer nodes above it than there are in the forest. -/
theorem depth_lt_size {k : NodeKey} (hk : k < f.size) : f.depth k < f.size :=
  hs.chain_length_lt f.size hk

theorem depth_child {p c : NodeKey} (h : f.IsParent p c) : f.depth c = f.depth p + 1 := by
  simp [depth, hs.ancestors_of_isParent h]

/-- A walk down may stop as deep as there are nodes: no node is that deep. -/
theorem below_succ {fuel : ℕ} {k : NodeKey} (h : f.size ≤ fuel + f.depth k) :
    f.below (fuel + 1) k = f.below fuel k := by
  induction fuel generalizing k with
  | zero =>
    have hk : f.size ≤ k := by
      by_contra hk
      have := hs.depth_lt_size (Nat.lt_of_not_le hk)
      omega
    simp [below, children_of_size_le hk]
  | succ n ih =>
    have hchild : ∀ c ∈ f.children k, f.below (n + 1) c = f.below n c := by
      intro c hc
      have := hs.depth_child (hs.mem_children.mp hc)
      exact ih (by omega)
    rw [below, below]
    exact List.flatMap_congr fun c hc => by rw [hchild c hc]

/-- The walk down ends by itself as well. -/
theorem below_eq_descendants {fuel : ℕ} (h : f.size ≤ fuel) (k : NodeKey) :
    f.below fuel k = f.descendants k := by
  induction fuel, h using Nat.le_induction with
  | base => rfl
  | succ n hn ih => rw [hs.below_succ (by omega), ih]

/-- The descendants of a node are its children, each before its own descendants. -/
theorem descendants_eq (k : NodeKey) :
    f.descendants k = (f.children k).flatMap fun c => c :: f.descendants c := by
  rw [← hs.below_eq_descendants (Nat.le_succ f.size) k]
  rfl

/-- The descendants of a node are the nodes that it is above. -/
theorem mem_descendants {a k : NodeKey} : a ∈ f.descendants k ↔ f.IsAbove k a := by
  refine ⟨isAbove_of_mem_below hs, fun h => ?_⟩
  induction h using TransGen.head_induction_on with
  | single hp =>
    rw [hs.descendants_eq]
    exact List.mem_flatMap.mpr ⟨_, hs.mem_children.mpr hp, List.mem_cons_self⟩
  | head hp _ ih =>
    rw [hs.descendants_eq]
    exact List.mem_flatMap.mpr ⟨_, hs.mem_children.mpr hp, List.mem_cons_of_mem _ ih⟩

/-- What is below one child of a node is not below another one. -/
theorem siblings_disjoint {p c d a : NodeKey} (hc : f.IsParent p c) (hd : f.IsParent p d)
    (hcd : c ≠ d) (hca : ReflTransGen f.IsParent c a) : ¬ ReflTransGen f.IsParent d a := by
  intro hda
  -- A way up from a passes through both children, so one of them is above the other and then, by
  -- its parent link, above or at the common parent.
  have habove : f.IsAbove c d ∨ f.IsAbove d c := by
    rcases reflTransGen_iff_eq_or_transGen.mp hca with rfl | hca
    · rcases reflTransGen_iff_eq_or_transGen.mp hda with rfl | hda
      · exact absurd rfl hcd
      · exact Or.inr hda
    · rcases reflTransGen_iff_eq_or_transGen.mp hda with rfl | hda
      · exact Or.inl hca
      · exact (isAbove_total hca hda).resolve_left hcd
  have hcycle : ∀ {x y : NodeKey}, f.IsParent p x → f.IsParent p y → ¬ f.IsAbove x y := by
    intro x y hx hy hxy
    obtain ⟨q, hxq, hqy⟩ := TransGen.tail'_iff.mp hxy
    have hq : q = p := Option.some.inj (hqy.symm.trans hy)
    subst q
    exact hs.acyclic _ (TransGen.head' hx hxq)
  rcases habove with h | h
  · exact hcycle hc hd h
  · exact hcycle hd hc h

theorem mem_below_reach {fuel : ℕ} {a c : NodeKey} (h : a ∈ c :: f.below fuel c) :
    ReflTransGen f.IsParent c a := by
  rcases List.mem_cons.mp h with rfl | h
  · exact ReflTransGen.refl
  · exact (isAbove_of_mem_below hs h).to_reflTransGen

theorem below_nodup (fuel : ℕ) (k : NodeKey) : (f.below fuel k).Nodup := by
  induction fuel generalizing k with
  | zero => simp [below]
  | succ n ih =>
    rw [below, List.nodup_flatMap]
    constructor
    · intro c _
      have hnot : c ∉ f.below n c := fun h => hs.acyclic c (isAbove_of_mem_below hs h)
      exact List.nodup_cons.mpr ⟨hnot, ih c⟩
    · refine (hs.nodup k).imp_of_mem ?_
      intro c d hc hd hcd a hac had
      exact hs.siblings_disjoint (hs.mem_children.mp hc) (hs.mem_children.mp hd) hcd
        (hs.mem_below_reach hac) (hs.mem_below_reach had)

/-- In a walk down no node comes before its parent. -/
theorem below_pairwise (fuel : ℕ) (k : NodeKey) :
    (f.below fuel k).Pairwise fun a b => ¬ f.IsParent b a := by
  induction fuel generalizing k with
  | zero => simp [below]
  | succ n ih =>
    rw [below, List.pairwise_flatMap]
    constructor
    · intro c _
      refine List.pairwise_cons.mpr ⟨fun b hb hbc => ?_, ih c⟩
      exact hs.acyclic c (TransGen.tail (isAbove_of_mem_below hs hb) hbc)
    · refine (hs.nodup k).imp_of_mem ?_
      intro c d hc hd hcd a ha b hb hba
      exact hs.siblings_disjoint (hs.mem_children.mp hc) (hs.mem_children.mp hd) hcd
        (hs.mem_below_reach ha) ((hs.mem_below_reach hb).tail hba)

/-- Wherever a node stands in a walk down, its parent stands before it. -/
theorem parent_before {k a : NodeKey} {before after : List NodeKey}
    (h : f.descendants k = before ++ a :: after) : ∃ p ∈ k :: before, f.IsParent p a := by
  have ha : f.IsAbove k a := hs.mem_descendants.mp (by simp [h])
  obtain ⟨p, hkp, hpa⟩ := TransGen.tail'_iff.mp ha
  refine ⟨p, ?_, hpa⟩
  rcases reflTransGen_iff_eq_or_transGen.mp hkp with rfl | hkp
  · exact List.mem_cons_self
  · have hp : p ∈ before ++ a :: after := h ▸ hs.mem_descendants.mpr hkp
    have hpair := hs.below_pairwise f.size k
    rw [← descendants, h, List.pairwise_append, List.pairwise_cons] at hpair
    rcases List.mem_append.mp hp with hp | hp
    · exact List.mem_cons_of_mem k hp
    · rcases List.mem_cons.mp hp with rfl | hp
      · exact absurd (TransGen.single hpa) (hs.acyclic p)
      · exact absurd hpa (hpair.2.1.1 p hp)

theorem mem_subtree {k x : NodeKey} : x ∈ f.subtree k ↔ x = k ∨ f.IsAbove k x := by
  rw [subtree, List.mem_cons, hs.mem_descendants]

theorem subtree_nodup (k : NodeKey) : (f.subtree k).Nodup :=
  List.nodup_cons.mpr ⟨fun hk => hs.acyclic k (hs.mem_descendants.mp hk), hs.below_nodup f.size k⟩

theorem subtree_closed {k p c : NodeKey} (hp : p ∈ f.subtree k) (hc : c ∈ f.children p) :
    c ∈ f.subtree k := by
  have hpc : f.IsParent p c := hs.mem_children.mp hc
  rcases hs.mem_subtree.mp hp with rfl | hkp
  · exact hs.mem_subtree.mpr (Or.inr (TransGen.single hpc))
  · exact hs.mem_subtree.mpr (Or.inr (hkp.tail hpc))

/-- A list of nodes that holds the children of all of them holds their subtrees. -/
theorem subtree_subset {nodes : List NodeKey} {k : NodeKey}
    (hclosed : ∀ p ∈ nodes, ∀ c ∈ f.children p, c ∈ nodes) (hk : k ∈ nodes) :
    ∀ x ∈ f.subtree k, x ∈ nodes := by
  intro x hx
  rcases hs.mem_subtree.mp hx with rfl | hkx
  · exact hk
  · induction hkx with
    | single hpc => exact hclosed k hk _ (hs.mem_children.mpr hpc)
    | tail hkp hpc ih =>
      exact hclosed _ (ih (hs.mem_subtree.mpr (Or.inr hkp))) _ (hs.mem_children.mpr hpc)

/-- The subtree of a node holds the subtrees of all nodes in it. -/
theorem subtree_trans {k j x : NodeKey} (hj : j ∈ f.subtree k) (hx : x ∈ f.subtree j) :
    x ∈ f.subtree k :=
  hs.subtree_subset (fun _ hp _ hc => hs.subtree_closed hp hc) hj x hx

theorem child_mem_subtree {k c : NodeKey} (hc : c ∈ f.children k) : c ∈ f.subtree k :=
  hs.subtree_closed List.mem_cons_self hc

/-- In a forest without circles a property holds of a node if it holds of all of its children. -/
theorem induction_below {motive : NodeKey → Prop}
    (step : ∀ k, (∀ c ∈ f.children k, motive c) → motive k) (k : NodeKey) : motive k := by
  -- a child is one deeper than its parent, and no node is as deep as there are nodes
  induction hd : f.size - f.depth k using Nat.strong_induction_on generalizing k with
  | _ d ih =>
    refine step k fun c hc => ih _ ?_ c rfl
    have hdeep := hs.depth_child (hs.mem_children.mp hc)
    have hlt := hs.depth_lt_size (hs.child_lt_size hc)
    omega

end Sound

end BehaviorTree.Forest
