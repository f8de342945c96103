import BehaviorTree.Engine
import BehaviorTree.Proofs.Ancestry

/-!
Handles. A node lives as long as somebody holds it or a node above it: a handle keeps its node, a
node keeps its children, and the link to a parent keeps nothing. What is added to a forest beside
its nodes keeps none of them.
-/
namespace BehaviorTree

open Relation

namespace Forest

variable {f g : Forest} {handles : List NodeKey} {k : NodeKey}

/-- Whether these handles keep a node alive. -/
def Alive (f : Forest) (handles : List NodeKey) (k : NodeKey) : Prop :=
  ∃ held ∈ handles, k ∈ f.subtree held

instance (f : Forest) (handles : List NodeKey) (k : NodeKey) : Decidable (f.Alive handles k) :=
  inferInstanceAs (Decidable (∃ held ∈ handles, k ∈ f.subtree held))

/-- What a node tells of its parent, which may be gone. -/
def aliveParent? (f : Forest) (handles : List NodeKey) (k : NodeKey) : Option NodeKey :=
  (f.parent? k).filter fun p => f.Alive handles p

theorem alive_append (first second : List NodeKey) :
    f.Alive (first ++ second) k ↔ f.Alive first k ∨ f.Alive second k := by
  simp only [Alive, List.mem_append, or_and_right, exists_or]

theorem Alive.append {first : List NodeKey} (h : f.Alive first k) (second : List NodeKey) :
    f.Alive (first ++ second) k :=
  (alive_append first second).mpr (.inl h)

/-- A node is alive if somebody holds it or if its parent is alive. -/
theorem Sound.alive_iff (hs : f.Sound) :
    f.Alive handles k ↔ k ∈ handles ∨ ∃ p, f.parent? k = some p ∧ f.Alive handles p := by
  constructor
  · rintro ⟨held, hmem, hk⟩
    rcases hs.mem_subtree.mp hk with rfl | habove
    · exact .inl hmem
    · obtain ⟨p, hp, hpk⟩ := TransGen.tail'_iff.mp habove
      refine .inr ⟨p, hpk, held, hmem, hs.mem_subtree.mpr ?_⟩
      exact (reflTransGen_iff_eq_or_transGen.mp hp)
  · rintro (hmem | ⟨p, hpk, held, hmem, hp⟩)
    · exact ⟨k, hmem, List.mem_cons_self⟩
    · exact ⟨held, hmem, hs.subtree_closed hp (hs.mem_children.mpr hpk)⟩

/-- Handles of nodes that are still to come keep nothing. -/
theorem Sound.not_alive_of_new (hs : f.Sound) (hnew : ∀ held ∈ handles, f.size ≤ held)
    (hk : k < f.size) : ¬ f.Alive handles k := by
  rintro ⟨held, hmem, hbelow⟩
  have hlt : held < f.size := by
    rcases hs.mem_subtree.mp hbelow with rfl | habove
    · exact hk
    · exact hs.isAbove_lt_size habove
  exact Nat.not_lt.mpr (hnew held hmem) hlt

section Extension

variable (hf : f.Sound) (hold : ∀ k < f.size, g.node? k = f.node? k)
include hf hold

/-- Nothing is put above the old nodes. -/
theorem Sound.isAbove_iff_of_old {a : NodeKey} (hk : k < f.size) :
    g.IsAbove a k ↔ f.IsAbove a k := by
  have hstep : ∀ {p c}, c < f.size → (g.IsParent p c ↔ f.IsParent p c) := by
    intro p c hc
    rw [IsParent, parent?, hold c hc]
    rfl
  constructor
  · intro habove
    induction habove with
    | single hac => exact .single ((hstep hk).mp hac)
    | tail _ hpc ih =>
      have hparent := (hstep hk).mp hpc
      exact .tail (ih (hf.parent_lt_size hparent)) hparent
  · intro habove
    induction habove with
    | single hac => exact .single ((hstep hk).mpr hac)
    | tail _ hpc ih => exact .tail (ih (hf.parent_lt_size hpc)) ((hstep hk).mpr hpc)

/-- For the old nodes nothing has changed about what keeps them alive. -/
theorem Sound.alive_iff_of_old (hg : g.Sound) (handles : List NodeKey) (hk : k < f.size) :
    g.Alive handles k ↔ f.Alive handles k := by
  simp only [Alive, hg.mem_subtree, hf.mem_subtree, hf.isAbove_iff_of_old hold hk]

end Extension

end Forest

def Engine.handles {σ : Type} (e : Engine σ) (host : List NodeKey) : List NodeKey :=
  host ++ (e.tree.root.toList ++ e.tree.nodes)

end BehaviorTree
