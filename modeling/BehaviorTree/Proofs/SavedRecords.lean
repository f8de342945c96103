import BehaviorTree.Proofs.LoadedForest
import BehaviorTree.Proofs.Subtrees
import BehaviorTree.Proofs.Templates
import BehaviorTree.Proofs.TidyRecords
import Mathlib.Data.List.Forall2

/-!
The records of the nodes of a tree are tidy, and loading them builds the same tree again: every
record is usable, every edge is made, and every new node has the record that it was made of. The
new tree is then walked in the same order as the old one.
-/
namespace BehaviorTree

open Forest Loading Relation

variable {registry : Registry} {f g h : Forest} {nodes : List NodeKey} {k : NodeKey} {r : Record}

namespace Forest

theorem forall₂_of_map_eq {α β γ : Type} {φ : α → γ} {ψ : β → γ} {R : α → β → Prop} {xs : List α}
    {ys : List β} (hR : ∀ x ∈ xs, ∀ y ∈ ys, φ x = ψ y → R x y) (h : xs.map φ = ys.map ψ) :
    List.Forall₂ R xs ys := by
  induction xs generalizing ys with
  | nil => rw [List.map_eq_nil_iff.mp h.symm]; exact List.Forall₂.nil
  | cons x rest ih =>
    cases ys with
    | nil => simp at h
    | cons y later =>
      obtain ⟨hxy, hrest⟩ := List.cons.inj h
      refine List.Forall₂.cons (hR x List.mem_cons_self y List.mem_cons_self hxy) (ih ?_ hrest)
      exact fun a ha b hb => hR a (List.mem_cons_of_mem _ ha) b (List.mem_cons_of_mem _ hb)

theorem map_eq_of_map_eq {α β γ δ : Type} {φ : α → γ} {ψ : β → γ} {a : α → δ} {b : β → δ}
    {xs : List α} {ys : List β} (hab : ∀ x ∈ xs, ∀ y ∈ ys, φ x = ψ y → a x = b y)
    (h : xs.map φ = ys.map ψ) : xs.map a = ys.map b := by
  have hsame : List.Forall₂ (fun x y => a x = b y) xs ys := forall₂_of_map_eq hab h
  rw [← List.forall₂_eq_eq_eq, List.forall₂_map_left_iff, List.forall₂_map_right_iff]
  exact hsame

theorem filterMap_eq_of_forall₂ {α β γ : Type} {φ : α → Option γ} {ψ : β → Option γ}
    {R : α → β → Prop} (hR : ∀ x y, R x y → φ x = ψ y) {xs : List α} {ys : List β}
    (h : List.Forall₂ R xs ys) : xs.filterMap φ = ys.filterMap ψ := by
  induction h with
  | nil => rfl
  | cons hxy _ ih => rw [List.filterMap_cons, List.filterMap_cons, hR _ _ hxy, ih]

theorem below_related {R : NodeKey → NodeKey → Prop}
    (hR : ∀ x y, R x y → List.Forall₂ R (g.children x) (h.children y)) (fuel : ℕ) {x y : NodeKey}
    (hxy : R x y) : List.Forall₂ R (g.below fuel x) (h.below fuel y) := by
  induction fuel generalizing x y with
  | zero => exact List.Forall₂.nil
  | succ fuel ih =>
    rw [below, below]
    exact List.rel_flatMap (hR x y hxy) fun c d hcd => List.Forall₂.cons hcd (ih hcd)

/-- Where related nodes have related children, related nodes are walked alike. -/
theorem subtree_related {R : NodeKey → NodeKey → Prop} (hg : g.Sound) (hh : h.Sound)
    (hR : ∀ x y, R x y → List.Forall₂ R (g.children x) (h.children y)) {x y : NodeKey}
    (hxy : R x y) : List.Forall₂ R (g.subtree x) (h.subtree y) := by
  have hfuel := below_related hR (max g.size h.size) hxy
  rw [hg.below_eq_descendants (Nat.le_max_left _ _), hh.below_eq_descendants (Nat.le_max_right _ _)]
    at hfuel
  exact List.Forall₂.cons hxy hfuel

/-- The record of a node lists the ids of its children. -/
theorem record?_eq {n : Node} (hk : g.node? k = some n) :
    g.record? k = some (.ofSpec n.spec ((g.children k).filterMap g.id?)) := by
  simp [record?, hk, children_eq hk]

theorem record?_id (g : Forest) (k : NodeKey) : (g.record? k).map (·.id) = g.id? k := by
  simp only [record?, id?, Option.map_map]
  rfl

/-- Nodes together with all that is below them, each with an id of its own. -/
structure Enclosed (g : Forest) (nodes : List NodeKey) : Prop where
  sound : g.Sound
  closed : ∀ p ∈ nodes, ∀ c ∈ g.children p, c ∈ nodes
  node : ∀ k ∈ nodes, ∃ n, g.node? k = some n
  ids : ∀ j ∈ nodes, ∀ k ∈ nodes, g.id? j = g.id? k → j = k

structure Outlines (g : Forest) (k : NodeKey) (r : Record) : Prop where
  id : g.id? k = some r.id
  children : (g.children k).map g.id? = r.children.map some

namespace Enclosed

variable (hg : Enclosed g nodes)
include hg

theorem exists_record (hk : k ∈ nodes) : ∃ r, g.record? k = some r := by
  obtain ⟨n, hn⟩ := hg.node k hk
  exact ⟨_, record?_eq hn⟩

theorem outlines (hk : k ∈ nodes) (hr : g.record? k = some r) : Outlines g k r := by
  obtain ⟨n, hn⟩ := hg.node k hk
  obtain rfl := Option.some.inj ((record?_eq hn).symm.trans hr)
  refine ⟨by simp [id?, hn, Record.ofSpec], (map_some_filterMap fun c hc => ?_).symm⟩
  obtain ⟨m, hm⟩ := hg.node c (hg.closed k hk c hc)
  simp [id?, hm]

theorem exists_child (hk : k ∈ nodes) (hr : Outlines g k r) {id : String}
    (hid : id ∈ r.children) : ∃ c ∈ g.children k, c ∈ nodes ∧ g.id? c = some id := by
  have hmem : some id ∈ (g.children k).map g.id? := hr.children ▸ List.mem_map_of_mem hid
  obtain ⟨c, hc, hcid⟩ := List.mem_map.mp hmem
  exact ⟨c, hc, hg.closed k hk c hc, hcid⟩

/-- Chains of listed children are ways down in the forest. -/
theorem isAbove_of_lists {a b : String}
    (hab : TransGen (Lists (nodes.filterMap g.record?)) a b) :
    ∃ j ∈ nodes, ∃ k ∈ nodes, g.id? j = some a ∧ g.id? k = some b ∧ g.IsAbove j k := by
  have hstep : ∀ {a b}, Lists (nodes.filterMap g.record?) a b →
      ∃ j ∈ nodes, ∃ k ∈ nodes, g.id? j = some a ∧ g.id? k = some b ∧ g.IsParent j k := by
    rintro a b ⟨r, hr, rfl, hb⟩
    obtain ⟨j, hj, hjr⟩ := List.mem_filterMap.mp hr
    have houtlines := hg.outlines hj hjr
    obtain ⟨c, hc, hcn, hcid⟩ := hg.exists_child hj houtlines hb
    exact ⟨j, hj, c, hcn, houtlines.id, hcid, hg.sound.mem_children.mp hc⟩
  induction hab with
  | single hab =>
    obtain ⟨j, hj, k, hk, hja, hkb, hjk⟩ := hstep hab
    exact ⟨j, hj, k, hk, hja, hkb, TransGen.single hjk⟩
  | tail _ hbc ih =>
    obtain ⟨j, hj, k, hk, hja, hkb, hjk⟩ := ih
    obtain ⟨l, hl, m, hm, hlb, hmc, hlm⟩ := hstep hbc
    obtain rfl := hg.ids k hk l hl (hkb.trans hlb.symm)
    exact ⟨j, hj, m, hm, hja, hmc, hjk.tail hlm⟩

/-- The records of nodes with all that is below them make a forest. -/
theorem treelike : Treelike (nodes.filterMap g.record?) where
  known r hr id hid := by
    obtain ⟨k, hk, hkr⟩ := List.mem_filterMap.mp hr
    obtain ⟨c, -, hc, hcid⟩ := hg.exists_child hk (hg.outlines hk hkr) hid
    obtain ⟨s, hs⟩ := hg.exists_record hc
    have hsid : s.id = id := Option.some.inj ((hg.outlines hc hs).id.symm.trans hcid)
    exact hsid ▸ List.mem_map_of_mem (List.mem_filterMap.mpr ⟨c, hc, hs⟩)
  once r hr := by
    obtain ⟨k, hk, hkr⟩ := List.mem_filterMap.mp hr
    have hnodup : ((g.children k).map g.id?).Nodup :=
      (hg.sound.nodup k).map_on fun c hc d hd =>
        hg.ids c (hg.closed k hk c hc) d (hg.closed k hk d hd)
    rw [(hg.outlines hk hkr).children] at hnodup
    exact hnodup.of_map
  one_parent r hr s hs id hid hid' := by
    obtain ⟨j, hj, hjr⟩ := List.mem_filterMap.mp hr
    obtain ⟨k, hk, hks⟩ := List.mem_filterMap.mp hs
    have hjout := hg.outlines hj hjr
    have hkout := hg.outlines hk hks
    obtain ⟨c, hc, hcn, hcid⟩ := hg.exists_child hj hjout hid
    obtain ⟨d, hd, hdn, hdid⟩ := hg.exists_child hk hkout hid'
    obtain rfl := hg.ids c hcn d hdn (hcid.trans hdid.symm)
    have hjk : some j = some k :=
      (hg.sound.mem_children.mp hc).symm.trans (hg.sound.mem_children.mp hd)
    rw [Option.some.inj hjk] at hjout
    exact Option.some.inj (hjout.id.symm.trans hkout.id)
  acyclic id hid := by
    obtain ⟨j, hj, k, hk, hja, hka, hjk⟩ := hg.isAbove_of_lists hid
    obtain rfl := hg.ids j hj k hk (hja.trans hka.symm)
    exact hg.sound.acyclic j hjk

theorem map_some_records : (nodes.filterMap g.record?).map some = nodes.map g.record? :=
  map_some_filterMap fun _ hk => Option.isSome_iff_exists.mpr (hg.exists_record hk)

theorem ids_nodup (hnodup : nodes.Nodup) : ((nodes.filterMap g.record?).map (·.id)).Nodup := by
  have hids : ((nodes.filterMap g.record?).map (·.id)).map some = nodes.map g.id? := by
    calc ((nodes.filterMap g.record?).map (·.id)).map some
      _ = ((nodes.filterMap g.record?).map some).map (Option.map (·.id)) := by simp
      _ = nodes.map g.id? := by
        rw [hg.map_some_records, List.map_map]
        exact List.map_congr_left fun k _ => record?_id g k
  have hmap : (nodes.map g.id?).Nodup := hnodup.map_on fun j hj k hk => hg.ids j hj k hk
  exact (hids ▸ hmap).of_map

end Enclosed

theorem Sound.enclosed_subtree {root : NodeKey} (hs : g.Sound) (hroot : root < g.size)
    (hids : ((g.subtree root).map g.id?).Nodup) : Enclosed g (g.subtree root) where
  sound := hs
  closed _ hp _ hc := hs.subtree_closed hp hc
  node k hk := by
    rcases hs.mem_subtree.mp hk with rfl | habove
    · exact exists_node hroot
    · obtain ⟨p, -, hp⟩ := TransGen.tail'_iff.mp habove
      exact exists_node (lt_size_of_isParent hp)
  ids j hj k hk hjk := List.inj_on_of_nodup_map hids hj hk hjk

/-- Nodes that a document can hold, together with all that is below them. -/
structure Storable (registry : Registry) (g : Forest) (nodes : List NodeKey) : Prop where
  sound : g.Sound
  closed : ∀ p ∈ nodes, ∀ c ∈ g.children p, c ∈ nodes
  node : ∀ k ∈ nodes, ∃ n, g.node? k = some n ∧ n.spec.Settled ∧
    ∀ ids, Describes registry (.ofSpec n.spec ids) n.spec
  ids : ∀ j ∈ nodes, ∀ k ∈ nodes, g.id? j = g.id? k → j = k
  within : ∀ k ∈ nodes, g.WithinCapacity k

structure Recorded (registry : Registry) (g : Forest) (k : NodeKey) (r : Record) : Prop where
  id : g.id? k = some r.id
  children : (g.children k).map g.id? = r.children.map some
  settled : r.Settled
  describes : ∃ n, g.node? k = some n ∧ Describes registry r n.spec ∧
    r = .ofSpec n.spec r.children

namespace Storable

variable (hg : Storable registry g nodes)
include hg

theorem enclosed : Enclosed g nodes where
  sound := hg.sound
  closed := hg.closed
  node k hk :=
    let ⟨n, hn, _⟩ := hg.node k hk
    ⟨n, hn⟩
  ids := hg.ids

theorem exists_record (hk : k ∈ nodes) : ∃ r, g.record? k = some r ∧ Recorded registry g k r := by
  obtain ⟨n, hn, hsettled, hdescribes⟩ := hg.node k hk
  have houtlines := hg.enclosed.outlines hk (record?_eq hn)
  exact ⟨_, record?_eq hn, houtlines.id, houtlines.children, hsettled.record _, n, hn,
    hdescribes _, rfl⟩

theorem recorded (hk : k ∈ nodes) (hr : g.record? k = some r) : Recorded registry g k r := by
  obtain ⟨s, hs, hrecorded⟩ := hg.exists_record hk
  rwa [Option.some.inj (hr.symm.trans hs)]

theorem tidy : Tidy registry (nodes.filterMap g.record?) where
  known := hg.enclosed.treelike.known
  once := hg.enclosed.treelike.once
  one_parent := hg.enclosed.treelike.one_parent
  acyclic := hg.enclosed.treelike.acyclic
  room r hr spec hspec limit hlimit := by
    obtain ⟨k, hk, hkr⟩ := List.mem_filterMap.mp hr
    have hrecorded := hg.recorded hk hkr
    obtain ⟨n, hn, hdescribes, -⟩ := hrecorded.describes
    have hcap : g.capacity k = .atMost limit := by
      rw [← hlimit, hspec.unique hdescribes]
      simp [capacity, hn]
    have hlength := congrArg List.length hrecorded.children
    simp only [List.length_map] at hlength
    exact hlength ▸ hg.within k hk limit hcap

end Storable

/-- Written records with finite positions, ids of their own and known types are all usable. -/
theorem usable_map_write {records : List Record} {seen : List String}
    (hfinite : ∀ r ∈ records, r.position.Finite)
    (hknown : ∀ r ∈ records, ∃ spec, Describes registry r spec)
    (hids : (records.map (·.id)).Nodup) (hseen : ∀ r ∈ records, r.id ∉ seen) :
    usable registry seen (records.map Record.write) = records.map Record.reread := by
  refine usable_eq ?_ (List.forall_mem_map.mpr fun r hr => ?_) ?_ (List.forall_mem_map.mpr hseen)
  · rw [List.map_map, List.map_map]
    exact List.map_congr_left fun r hr => Record.read?_write (hfinite r hr)
  · obtain ⟨spec, hspec⟩ := hknown r hr
    exact hspec.contains
  · rw [List.map_map]
    exact hids

end Forest

end BehaviorTree
