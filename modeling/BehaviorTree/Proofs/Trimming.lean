import BehaviorTree.Proofs.HandBuilt
import BehaviorTree.Proofs.Reloading

/-!
Saving a tree that was made by hand and loading it again. The tree is not always as a loader would
have made it: a parameter may have null for its value, which is lost on the way through a document,
and the limit of a node may have been lowered below the number of children that it has. All nodes
come back in any case. Where a node has more children than it may have, it comes back with the first
of them, as many as it may have; the others belong to no one then. Elsewhere nothing is different.
-/
namespace BehaviorTree

open Forest Loading Relation

variable {registry : Registry} {f g h : Forest} {nodes : List NodeKey} {kept : Kept} {k : NodeKey}

namespace Forest

def outline (f : Forest) (k : NodeKey) : Option String × List (Option String) :=
  (f.id? k, (f.children k).map f.id?)

/-- The outline of a node without the last children, for which there is no room. -/
def trimmed (f : Forest) (k : NodeKey) : Option String × List (Option String) :=
  (f.id? k, (f.capacity k).fitting ((f.children k).map f.id?))

/-- A node keeps all of its children if there is room for them. -/
theorem trimmed_eq_outline_iff : f.trimmed k = f.outline k ↔ f.WithinCapacity k := by
  unfold trimmed outline WithinCapacity
  rw [Prod.mk.injEq, Capacity.fitting_eq_self_iff, List.length_map]
  exact and_iff_right rfl

end Forest

namespace Loading

theorem Treelike.reread {records : List Record} (h : Treelike records) :
    Treelike (records.map Record.reread) := by
  have hids : (records.map Record.reread).map (·.id) = records.map (·.id) := List.map_map
  have hlists : ∀ a b, Lists (records.map Record.reread) a b → Lists records a b := by
    rintro a b ⟨s, hs, rfl, hb⟩
    obtain ⟨r, hr, rfl⟩ := List.mem_map.mp hs
    exact ⟨r, hr, rfl, hb⟩
  constructor
  · rw [hids]
    exact List.forall_mem_map.mpr h.known
  · exact List.forall_mem_map.mpr h.once
  · refine List.forall_mem_map.mpr fun r hr => List.forall_mem_map.mpr fun s hs => ?_
    exact h.one_parent r hr s hs
  · intro id hid
    exact h.acyclic id (TransGen.mono hlists id id hid)

/-- A new node has the outline of the node whose record it was made of, trimmed to its room. -/
theorem outline_of_record (hg : Enclosed g nodes) (hmade : g.AllHandMade registry)
    (hplant : Planted registry f h kept) (htree : Treelike (kept.map (·.1))) (hf : f.Reachable)
    (hk : k ∈ nodes) {e : Record × NodeKey} (he : e ∈ kept)
    (hrecord : (g.record? k).map Record.reread = some e.1) :
    (kept.foldl (wireRecord kept) h).outline e.2 = g.trimmed k := by
  obtain ⟨hw, -⟩ := servedAll_of_planted hplant hf
  obtain ⟨n, hn⟩ := hg.node k hk
  have houtlines := hg.outlines hk (record?_eq hn)
  rw [record?_eq hn, Option.map_some] at hrecord
  have hreread := Option.some.inj hrecord
  have hid : g.id? k = some e.1.id := hreread ▸ houtlines.id
  have hids : (g.children k).map g.id? = e.1.children.map some := hreread ▸ houtlines.children
  have hcapacity : h.capacity e.2 = g.capacity k := by
    obtain ⟨spec, hspec, hnode⟩ := hplant.node e he
    have hsame := (hmade k n hn).capacity_eq (hreread ▸ hspec)
    simp [capacity, hnode, hn, hsame]
  unfold outline trimmed
  rw [funext hw.id?, hplant.id?_eq he, children_of_treelike hplant htree hf he, hid, hids,
    hcapacity, Capacity.map_fitting]

/-- Every record of the nodes is usable, as what it is read back as. -/
theorem usable_of_shows (hg : Enclosed g nodes) (hnodup : nodes.Nodup)
    (hmade : g.AllHandMade registry) {doc : Document}
    (hrecords : doc.nodes = nodes.filterMap g.record?) {raw : Json} (hraw : doc.Shows raw) :
    usable registry [] (recordsOf raw) = (nodes.filterMap g.record?).map Record.reread := by
  have hspecs : ∀ r ∈ nodes.filterMap g.record?, ∃ spec ids, r = Record.ofSpec spec ids ∧
      spec.HandMade registry := by
    intro r hr
    obtain ⟨k, hk, hkr⟩ := List.mem_filterMap.mp hr
    obtain ⟨n, hn⟩ := hg.node k hk
    exact ⟨_, _, Option.some.inj (hkr.symm.trans (record?_eq hn)), hmade k n hn⟩
  rw [hraw.records, hrecords]
  refine usable_map_write (fun r hr => ?_) (fun r hr => ?_) (hg.ids_nodup hnodup) (by simp)
  · obtain ⟨spec, ids, rfl, hspec⟩ := hspecs r hr
    exact hspec.position
  · obtain ⟨spec, ids, rfl, hspec⟩ := hspecs r hr
    exact hspec.exists_describes ids

/-- The nodes of a tree have been loaded again. All of them are there, and so is the root, but a
node has only as many children as it may have. -/
structure Reloaded (g : Forest) (saved : List NodeKey) (root : NodeKey) (h : Forest)
    (loaded : List NodeKey) (top : Option NodeKey) : Prop where
  root : ∃ j ∈ loaded, top = some j ∧ h.id? j = g.id? root
  count : loaded.length = saved.length
  closed : ∀ p ∈ loaded, ∀ c ∈ h.children p, c ∈ loaded
  outlines : loaded.map h.outline = saved.map g.trimmed

/-- Nothing is different where no node has more children than it may have, and only there. -/
theorem Reloaded.same_iff {saved loaded : List NodeKey} {root : NodeKey} {top : Option NodeKey}
    (hr : Reloaded g saved root h loaded top) :
    loaded.map h.outline = saved.map g.outline ↔ ∀ k ∈ saved, g.WithinCapacity k := by
  rw [hr.outlines, List.map_inj_left]
  exact forall₂_congr fun _ _ => trimmed_eq_outline_iff

section Reloading

variable (hg : Enclosed g nodes) (hf : f.Reachable) (hplant : Planted registry f h kept)
  (hkept : kept.map (·.1) = (nodes.filterMap g.record?).map Record.reread)
include hg hf hplant hkept

/-- The new nodes have the outlines of the old ones, as far as there is room. -/
theorem outlines_of_kept (hmade : g.AllHandMade registry) :
    (kept.map (·.2)).map (kept.foldl (wireRecord kept) h).outline = nodes.map g.trimmed := by
  have htree : Treelike (kept.map (·.1)) := hkept ▸ hg.treelike.reread
  have hpairs : nodes.map (fun k => (g.record? k).map Record.reread) =
      kept.map fun e => some e.1 := by
    calc nodes.map (fun k => (g.record? k).map Record.reread)
      _ = ((nodes.filterMap g.record?).map some).map (Option.map Record.reread) := by
        rw [hg.map_some_records, List.map_map]
        rfl
      _ = ((nodes.filterMap g.record?).map Record.reread).map some := by simp
      _ = kept.map fun e => some e.1 := by
        rw [← hkept, List.map_map]
        rfl
  rw [List.map_map]
  refine (map_eq_of_map_eq (fun k hk e he hrecord => ?_) hpairs).symm
  exact (outline_of_record hg hmade hplant htree hf hk he hrecord).symm

/-- A node of the old ones is found again under its id. -/
theorem exists_found (hk : k ∈ nodes) :
    ∃ j ∈ kept.map (·.2), (g.id? k).bind (find? kept) = some j ∧
      (kept.foldl (wireRecord kept) h).id? j = g.id? k := by
  obtain ⟨r, hr⟩ := hg.exists_record hk
  have hid : g.id? k = some r.id := (hg.outlines hk hr).id
  have hmem : r.reread ∈ kept.map (·.1) :=
    hkept ▸ List.mem_map_of_mem (List.mem_filterMap.mpr ⟨k, hk, hr⟩)
  obtain ⟨e, he, hereread⟩ := List.mem_map.mp hmem
  have heid : e.1.id = r.id := by
    rw [hereread]
    rfl
  have hsome : (find? kept r.id).isSome = true :=
    find?_isSome.mpr (List.mem_map.mpr ⟨e, he, heid⟩)
  obtain ⟨j, hj⟩ := Option.isSome_iff_exists.mp hsome
  obtain ⟨hjkept, hjid⟩ := hplant.find?_eq_some.mp hj
  obtain ⟨hw, -⟩ := servedAll_of_planted hplant hf
  refine ⟨j, hjkept, ?_, ?_⟩
  · rw [hid, Option.bind_some, hj]
  · rw [hw.id?, hjid, hid]

end Reloading

/-- A document of nodes made by hand is loaded with all of them. -/
theorem exists_reloaded (hg : Enclosed g nodes) (hnodup : nodes.Nodup)
    (hmade : g.AllHandMade registry) (hf : f.Reachable) {doc : Document}
    (hrecords : doc.nodes = nodes.filterMap g.record?) (hk : k ∈ nodes) (hroot : doc.root = g.id? k)
    {raw : Json} (hraw : doc.Shows raw) :
    ∃ loaded h, build registry f raw = (loaded, h) ∧
      Reloaded g nodes k h loaded.nodes loaded.root := by
  obtain ⟨planted, kept, hplant, husable, hbuild⟩ := exists_planted registry f raw
  have hkept : kept.map (·.1) = (nodes.filterMap g.record?).map Record.reread :=
    husable.trans (usable_of_shows hg hnodup hmade hrecords hraw)
  have houtlines := outlines_of_kept hg hf hplant hkept hmade
  refine ⟨_, _, hbuild, ?_, ?_, fun p hp c hc => ?_, houtlines⟩
  · obtain ⟨j, hj, hfound, hjid⟩ := exists_found hg hf hplant hkept hk
    refine ⟨j, hj, ?_, hjid⟩
    rw [hraw.root, hroot]
    exact hfound
  · simpa only [List.length_map] using congrArg List.length houtlines
  · obtain ⟨e, he, rfl⟩ := List.mem_map.mp hp
    obtain ⟨d, hd, rfl⟩ := hplant.exists_child_entry hf he hc
    exact List.mem_map_of_mem hd

end Loading

namespace Engine

variable {σ τ : Type}

/-- A tree that is built by hand is saved and loaded with all of its nodes, and with all edges for
which there is room. -/
theorem reload_trimmed {e : Engine σ} {other : Engine τ} {root : NodeKey}
    (he : e.forest.HandBuilt .standard) (hroot : e.tree.root = some root)
    (hexists : root < e.forest.size)
    (hids : ((e.forest.subtree root).map e.forest.id?).Nodup) (hother : other.forest.Reachable)
    (now : Timestamp) :
    ∃ other', other.load .standard Migration.byVersion (e.document now).write = .ok other' ∧
      Reloaded e.forest (e.forest.subtree root) root other'.forest other'.tree.nodes
        other'.tree.root ∧
      (other'.tree.nodes.map other'.forest.outline =
          (e.forest.subtree root).map e.forest.outline ↔
        ∀ k ∈ e.forest.subtree root, e.forest.WithinCapacity k) := by
  have hs : e.forest.Sound := he.reachable.sound
  have hg := hs.enclosed_subtree hexists hids
  have hmade := he.allHandMade Registry.standard_regular
  have hversion : (e.document now).version = Version.current.render := rfl
  have hrecords : (e.document now).nodes = (e.forest.subtree root).filterMap e.forest.record? := by
    simp [document, Document.capture, hroot]
  have hdocroot : (e.document now).root = e.forest.id? root := by
    simp [document, Document.capture, hroot]
  obtain ⟨raw, hmigrate, hraw⟩ := Document.migrate_write _ hversion
  obtain ⟨loaded, h, hbuild, hreloaded⟩ := exists_reloaded hg (hs.subtree_nodup root) hmade hother
    hrecords List.mem_cons_self hdocroot hraw
  have hload := (Loading.load_eq_ok (Document.problems_write _ hversion) hmigrate).trans
    (congrArg Except.ok hbuild)
  exact ⟨_, load_eq_ok_iff.mpr ⟨loaded, h, hload, rfl⟩, hreloaded, hreloaded.same_iff⟩

def limitToOne (s : NodeSpec) : NodeSpec :=
  { s with config := s.config.insert "maxChildren" (Json.int 1) }

def crowded : Engine Unit :=
  { blank with
    forest := ((strangers.adopt 0 1).2.adopt 0 2).2.updateSpec 0 limitToOne
    tree := { blank.tree with root := some 0 } }

theorem crowded_handBuilt : crowded.forest.HandBuilt .standard := by
  have hsequence : Registry.standard.build? "Sequence" "Sequence" =
      some ((Template.plain "Sequence" BuiltIn.sequence.behavior).instantiate "Sequence") := by rfl
  have hselector : Registry.standard.build? "Selector" "Selector" =
      some ((Template.plain "Selector" BuiltIn.selector.behavior).instantiate "Selector") := by rfl
  have haction : Registry.standard.build? "Action" "Action" =
      some ((Template.plain "Action" BuiltIn.script.behavior).instantiate "Action") := by rfl
  have hnew : strangers.HandBuilt .standard :=
    ((ReflTransGen.refl.tail (HandStep.build hsequence)).tail (HandStep.build hselector)).tail
      (HandStep.build haction)
  have hfirst : (strangers.adopt 0 1).2.HandBuilt .standard :=
    hnew.tail (HandStep.adopt (by decide) (by decide))
  have hsecond : ((strangers.adopt 0 1).2.adopt 0 2).2.HandBuilt .standard :=
    hfirst.tail (HandStep.adopt (by decide) (by decide))
  exact hsecond.tail (HandStep.edit 0 limitToOne (fun _ => ⟨rfl, rfl⟩) fun _ hfinite => hfinite)

/-- The crowded sequence keeps its first child only. -/
theorem reload_trimmed_crowded :
    crowded.forest.HandBuilt .standard ∧ crowded.tree.root = some 0 ∧ 0 < crowded.forest.size ∧
      ((crowded.forest.subtree 0).map crowded.forest.id?).Nodup ∧ blank.forest.Reachable ∧
      crowded.forest.trimmed 0 = (some "Sequence", [some "Selector"]) ∧
      ∃ other',
        blank.load .standard Migration.byVersion (crowded.document .epoch).write = .ok other' ∧
        Reloaded crowded.forest (crowded.forest.subtree 0) 0 other'.forest other'.tree.nodes
          other'.tree.root ∧
        (other'.tree.nodes.map other'.forest.outline =
            (crowded.forest.subtree 0).map crowded.forest.outline ↔
          ∀ k ∈ crowded.forest.subtree 0, crowded.forest.WithinCapacity k) := by
  have hroot : crowded.tree.root = some 0 := rfl
  have hexists : 0 < crowded.forest.size := by decide
  have hids : ((crowded.forest.subtree 0).map crowded.forest.id?).Nodup := by decide
  have hblank : blank.forest.Reachable := ReflTransGen.refl
  exact ⟨crowded_handBuilt, hroot, hexists, hids, hblank, by decide,
    reload_trimmed crowded_handBuilt hroot hexists hids hblank .epoch⟩

/-- The second child is loaded, but it has lost its parent. -/
theorem crowded_loses_edge :
    crowded.forest.HandBuilt .standard ∧ crowded.tree.root = some 0 ∧
      ((crowded.forest.subtree 0).map crowded.forest.id?).Nodup ∧
      (crowded.forest.subtree 0).map crowded.forest.outline =
        [(some "Sequence", [some "Selector", some "Action"]), (some "Selector", []),
          (some "Action", [])] ∧
      ∃ other',
        blank.load .standard Migration.byVersion (crowded.document .epoch).write = .ok other' ∧
        other'.tree.nodes.map other'.forest.outline =
          [(some "Sequence", [some "Selector"]), (some "Selector", []), (some "Action", [])] ∧
        other'.tree.nodes.map other'.forest.outline ≠
          (crowded.forest.subtree 0).map crowded.forest.outline :=
  ⟨crowded_handBuilt, rfl, by decide, by decide, _, rfl, by decide, by decide⟩

end Engine

end BehaviorTree
