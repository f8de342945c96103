import BehaviorTree.Proofs.SavedRecords

/-!
Loading the records of a tree builds that tree again. Nothing is passed over: the new nodes have
the very records that they were made of. Walking the new tree therefore meets the same records in
the same order.
-/
namespace BehaviorTree.Loading

open Forest Relation

variable {registry : Registry} {f g h : Forest} {nodes : List NodeKey} {kept : Kept} {doc : Json}

/-- Nodes that have been made of the records of other nodes, one of each. -/
structure Rebuilt (g : Forest) (nodes : List NodeKey) (h : Forest) (kept : Kept) : Prop where
  sound : h.Sound
  records : kept.map (·.1) = nodes.filterMap g.record?
  id : ∀ e ∈ kept, h.id? e.2 = some e.1.id
  ids : ∀ e ∈ kept, ∀ d ∈ kept, e.1.id = d.1.id → e = d
  children : ∀ e ∈ kept, (h.children e.2).map h.id? = e.1.children.map some
  closed : ∀ e ∈ kept, ∀ c ∈ h.children e.2, ∃ d ∈ kept, d.2 = c
  record : ∀ e ∈ kept, h.record? e.2 = some e.1

/-- What is made of the records of storable nodes has the same edges. -/
theorem rebuilt_of_storable (hg : Storable registry g nodes) (hf : f.Reachable)
    (hplant : Planted registry f h kept) (hrecords : kept.map (·.1) = nodes.filterMap g.record?) :
    Rebuilt g nodes (kept.foldl (wireRecord kept) h) kept := by
  obtain ⟨hw, -⟩ := servedAll_of_planted hplant hf
  have htidy : Tidy registry (kept.map (·.1)) := hrecords ▸ hg.tidy
  have hchildren : ∀ e ∈ kept, ((kept.foldl (wireRecord kept) h).children e.2).map
      (kept.foldl (wireRecord kept) h).id? = e.1.children.map some := by
    intro e he
    rw [funext hw.id?]
    exact children_of_tidy hplant htidy hf he
  refine {
    sound := hw.reachable.sound
    records := hrecords
    id := fun e he => (hw.id? e.2).trans (hplant.id?_eq he)
    ids := fun e he d hd => hplant.entry_of_id he hd
    children := hchildren
    closed := fun e he c hc => hplant.exists_child_entry hf he hc
    record := fun e he => ?_
  }
  obtain ⟨spec, hspec, hnode⟩ := hplant.node e he
  obtain ⟨n, hn, hnspec, -⟩ := hw.exists_node hnode
  have hmem : e.1 ∈ nodes.filterMap g.record? := hrecords ▸ List.mem_map_of_mem he
  obtain ⟨k, hk, hkr⟩ := List.mem_filterMap.mp hmem
  obtain ⟨m, -, hdescribes, hown⟩ := (hg.recorded hk hkr).describes
  have hids : ((kept.foldl (wireRecord kept) h).children e.2).filterMap
      (kept.foldl (wireRecord kept) h).id? = e.1.children :=
    filterMap_of_map_eq (hchildren e he)
  rw [record?_eq hn, hids, hnspec, hspec.unique hdescribes, ← hown]

def Corresponds (g : Forest) (nodes : List NodeKey) (kept : Kept) (x y : NodeKey) : Prop :=
  x ∈ nodes ∧ ∃ e ∈ kept, e.2 = y ∧ g.record? x = some e.1

theorem Rebuilt.corresponds (hr : Rebuilt g nodes h kept) (hg : Storable registry g nodes)
    {x : NodeKey} (hx : x ∈ nodes) {e : Record × NodeKey} (he : e ∈ kept)
    (hid : g.id? x = h.id? e.2) : Corresponds g nodes kept x e.2 := by
  obtain ⟨r, hxr, hrecorded⟩ := hg.exists_record hx
  have hmem : r ∈ kept.map (·.1) := hr.records ▸ List.mem_filterMap.mpr ⟨x, hx, hxr⟩
  obtain ⟨d, hd, rfl⟩ := List.mem_map.mp hmem
  have hids : some d.1.id = some e.1.id := hrecorded.id.symm.trans (hid.trans (hr.id e he))
  exact ⟨hx, e, he, rfl, hr.ids d hd e he (Option.some.inj hids) ▸ hxr⟩

/-- Nodes that correspond have children that correspond, in the same order. -/
theorem Rebuilt.corresponds_children (hr : Rebuilt g nodes h kept)
    (hg : Storable registry g nodes) {x y : NodeKey} (hxy : Corresponds g nodes kept x y) :
    List.Forall₂ (Corresponds g nodes kept) (g.children x) (h.children y) := by
  obtain ⟨hx, e, he, rfl, hxr⟩ := hxy
  have hids : (g.children x).map g.id? = (h.children e.2).map h.id? := by
    rw [hr.children e he, (hg.recorded hx hxr).children]
  refine forall₂_of_map_eq (fun c hc d hd hcd => ?_) hids
  obtain ⟨b, hb, rfl⟩ := hr.closed e he d hd
  exact hr.corresponds hg (hg.closed x hx c hc) hb hcd

/-- The subtree under a node is met again under the node made of its record. -/
theorem Rebuilt.subtree (hr : Rebuilt g nodes h kept) (hg : Storable registry g nodes)
    {k : NodeKey} (hk : k ∈ nodes) {e : Record × NodeKey} (he : e ∈ kept)
    (hid : g.id? k = some e.1.id) :
    (h.subtree e.2).filterMap h.record? = (g.subtree k).filterMap g.record? := by
  have hroot : Corresponds g nodes kept k e.2 :=
    hr.corresponds hg hk he (hid.trans (hr.id e he).symm)
  have hwalk := subtree_related hg.sound hr.sound
    (fun _ _ hxy => hr.corresponds_children hg hxy) hroot
  refine (filterMap_eq_of_forall₂ ?_ hwalk).symm
  rintro x _ ⟨-, d, hd, rfl, hxd⟩
  rw [hxd, hr.record d hd]

end BehaviorTree.Loading
