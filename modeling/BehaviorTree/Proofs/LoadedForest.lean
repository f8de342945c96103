import BehaviorTree.Proofs.Wiring

/-!
A document that passes its checks is always loaded. Whatever is wrong with its records, the usable
ones become nodes in their order, and these are linked among each other as a forest: no node
belongs to two parents or lies above itself, none has more children than it may have, and every
node has only children that its own record lists, in the order in which they are first listed. A
listed child that is missing has been taken by a later node or was refused.
-/
namespace BehaviorTree.Loading

open Forest Relation

variable {registry : Registry} {migrator : Migrator} {f g h : Forest} {kept : Kept}
  {doc migrated : Json}

/-- What loading a document makes of a forest `f`, given the records that were kept together with
the keys of their nodes. -/
structure Faithful (registry : Registry) (f : Forest) (doc : Json) (loaded : Loaded) (g : Forest)
    (kept : Kept) : Prop where
  records : kept.map (·.1) = usable registry [] (recordsOf doc)
  nodes : loaded.nodes = kept.map (·.2)
  /-- The nodes are new, and there are no other new ones. -/
  keys : loaded.nodes = List.range' f.size kept.length
  size : g.size = f.size + kept.length
  old : ∀ k < f.size, g.node? k = f.node? k
  node : ∀ e ∈ kept, ∃ n, g.node? e.2 = some n ∧ Describes registry e.1 n.spec ∧
    n.spec.id = e.1.id ∧ n.state = .fresh
  ids : (loaded.nodes.map g.id?).Nodup
  linked : ∀ p c, c ∈ g.children p ↔ g.parent? c = some p
  listed_once : ∀ p, (g.children p).Nodup
  acyclic : ∀ k, ¬ g.IsAbove k k
  apart : ∀ p c, c ∈ g.children p → (p ∈ loaded.nodes ↔ c ∈ loaded.nodes)
  within : ∀ k ∈ loaded.nodes, g.WithinCapacity k
  listed : ∀ e ∈ kept, ((g.children e.2).map g.id?).Sublist (e.1.children.eraseDups.map some)
  /-- A listed child that a node lacks has been taken by a later node, or there was a reason against
  it when the node was served. -/
  settled : ∀ before e after, kept = before ++ e :: after →
    ∃ h : Forest, h.Sound ∧ Taking h g (after.map (·.2)) ∧
      ∀ d ∈ kept, d.1.id ∈ e.1.children →
        d.2 = e.2 ∨ d.2 ∈ h.children e.2 ∨ h.IsFull e.2 ∨ h.IsAbove d.2 e.2
  root : ∀ k, loaded.root = some k ↔
    k ∈ loaded.nodes ∧ ∃ id, rootOf doc = some id ∧ g.id? k = some id

/-- Both passes over the records of a document. -/
theorem exists_planted (registry : Registry) (f : Forest) (doc : Json) :
    ∃ g kept, Planted registry f g kept ∧
      kept.map (·.1) = usable registry [] (recordsOf doc) ∧
      build registry f doc =
        ({ root := (rootOf doc).bind (find? kept)
           nodes := kept.map (·.2)
           values := valuesOf doc
           metadata := metadataOf doc }, kept.foldl (wireRecord kept) g) := by
  obtain ⟨hplant, hrecords⟩ := foldl_create (recordsOf doc) (Planted.nil registry f)
  exact ⟨_, _, hplant, by simpa using hrecords, rfl⟩

theorem Planted.find?_eq_some (hplant : Planted registry f g kept) {id : String} {k : NodeKey} :
    find? kept id = some k ↔ k ∈ kept.map (·.2) ∧ g.id? k = some id := by
  constructor
  · intro hfind
    obtain ⟨record, hmem, rfl⟩ := find?_mem hfind
    exact ⟨List.mem_map_of_mem hmem, hplant.id?_eq hmem⟩
  · rintro ⟨hmem, hid⟩
    obtain ⟨e, he, rfl⟩ := List.mem_map.mp hmem
    have hsame : e.1.id = id := Option.some.inj ((hplant.id?_eq he).symm.trans hid)
    have hsome : (find? kept id).isSome = true :=
      find?_isSome.mpr (hsame ▸ List.mem_map_of_mem he)
    obtain ⟨j, hj⟩ := Option.isSome_iff_exists.mp hsome
    obtain ⟨record, hrecord, hrid⟩ := find?_mem hj
    -- one id is kept once only, so both entries are the same one
    have hentry : e = (record, j) :=
      List.inj_on_of_nodup_map hplant.ids he hrecord (hsame.trans hrid.symm)
    rw [hj, hentry]

/-- Both passes together are faithful to the document. -/
theorem faithful_of_wired (hplant : Planted registry f g kept)
    (hrecords : kept.map (·.1) = usable registry [] (recordsOf doc)) (hw : Wired f g h)
    (hserved : ServedAll f kept kept h) {loaded : Loaded} (hnodes : loaded.nodes = kept.map (·.2))
    (hroot : loaded.root = (rootOf doc).bind (find? kept)) :
    Faithful registry f doc loaded h kept := by
  have hs : h.Sound := hw.reachable.sound
  have hkeys : loaded.nodes = List.range' f.size kept.length := hnodes.trans hplant.keys
  have hsize : h.size = f.size + kept.length := hw.size.trans hplant.size
  have hnew : ∀ k < h.size, (k ∈ loaded.nodes ↔ f.size ≤ k) := fun k hk => by
    rw [hkeys, List.mem_range'_1, ← hsize]
    exact ⟨fun hmem => hmem.1, fun hle => ⟨hle, hk⟩⟩
  have hids : loaded.nodes.map h.id? = (kept.map (·.1.id)).map some := by
    rw [hnodes, List.map_map, List.map_map]
    exact List.map_congr_left fun e he => (hw.id? e.2).trans (hplant.id?_eq he)
  refine {
    records := hrecords
    nodes := hnodes
    keys := hkeys
    size := hsize
    old := hw.old
    node := fun e he => ?_
    ids := hids ▸ hplant.ids.map fun _ _ => Option.some.inj
    linked := hs.linked
    listed_once := hs.nodup
    acyclic := hs.acyclic
    apart := fun p c hc => ?_
    within := fun k hk => hw.within k (List.mem_range'_1.mp (hkeys ▸ hk)).1
    listed := hserved.listed
    settled := fun before e after hsplit => ?_
    root := fun k => ?_
  }
  · obtain ⟨spec, hspec, hnode⟩ := hplant.node e he
    obtain ⟨n, hn, hnspec, hnstate⟩ := hw.exists_node hnode
    refine ⟨n, hn, hnspec ▸ hspec, ?_, hnstate⟩
    obtain ⟨fresh, -, rfl⟩ := hspec
    exact congrArg NodeSpec.id hnspec
  · rw [hnew p (hs.parent_lt_size (hs.mem_children.mp hc)), hnew c (hs.child_lt_size hc)]
    exact hw.apart p c (hs.mem_children.mp hc)
  · obtain ⟨i, hi, hsettled, htaking⟩ := hserved.settled before e after hsplit
    refine ⟨i, hi, htaking, fun d hd hlisted => hsettled.settled d.1.id hlisted d.2 ?_⟩
    exact hplant.find?_eq_some.mpr ⟨List.mem_map_of_mem hd, hplant.id?_eq hd⟩
  · rw [hroot, hnodes, Option.bind_eq_some_iff]
    simp only [hplant.find?_eq_some, hw.id? k]
    exact ⟨fun ⟨id, hid, hmem, hk⟩ => ⟨hmem, id, hid, hk⟩,
      fun ⟨hmem, id, hid, hk⟩ => ⟨id, hid, hmem, hk⟩⟩

/-- Whatever a document holds, what is built of it is faithful to it. -/
theorem faithful_build (registry : Registry) (hf : f.Reachable) (doc : Json) :
    ∃ kept, Faithful registry f doc (build registry f doc).1 (build registry f doc).2 kept := by
  obtain ⟨g, kept, hplant, hrecords, hbuild⟩ := exists_planted registry f doc
  obtain ⟨hw, hserved⟩ := servedAll_of_planted hplant hf
  rw [hbuild]
  exact ⟨kept, faithful_of_wired hplant hrecords hw hserved rfl rfl⟩

theorem load_eq_ok (hvalid : migrator.problems doc = [])
    (hmigrated : migrator.migrate doc = .ok migrated) :
    load registry migrator f doc = .ok (build registry f migrated) := by
  simp [load, hvalid, hmigrated]

/-- A document is loaded if there is nothing wrong with it and it can be migrated. -/
theorem load_eq_ok_iff {loaded : Loaded} :
    load registry migrator f doc = .ok (loaded, g) ↔
      migrator.problems doc = [] ∧
        ∃ migrated, migrator.migrate doc = .ok migrated ∧
          build registry f migrated = (loaded, g) := by
  constructor
  · intro hload
    simp only [load] at hload
    split at hload
    · next hvalid =>
      split at hload
      · next migrated hmigrated =>
        exact ⟨hvalid, migrated, hmigrated, Except.ok.inj hload⟩
      · exact absurd hload nofun
    · exact absurd hload nofun
  · rintro ⟨hvalid, migrated, hmigrated, hbuild⟩
    rw [load_eq_ok hvalid hmigrated, hbuild]

/-- What has been loaded is faithful to the document that the migrator has made. -/
theorem faithful_of_load {loaded : Loaded} (hf : f.Reachable)
    (hload : load registry migrator f doc = .ok (loaded, g)) :
    ∃ migrated kept, migrator.migrate doc = .ok migrated ∧
      build registry f migrated = (loaded, g) ∧ Faithful registry f migrated loaded g kept := by
  obtain ⟨-, migrated, hmigrated, hbuild⟩ := load_eq_ok_iff.mp hload
  obtain ⟨kept, hfaithful⟩ := faithful_build registry hf migrated
  rw [hbuild] at hfaithful
  exact ⟨migrated, kept, hmigrated, hbuild, hfaithful⟩

def sparse : Registry :=
  ((Registry.register .empty "Sequence" BuiltIn.sequence.behavior).register "Action"
    BuiltIn.script.behavior)

def rawRecord (id typeName : String) (children : List String) : Json :=
  .fields [("children", .list (children.map Json.text)), ("id", Json.text id),
    ("type", Json.text typeName)]

/-- A value that is no record, a repeated id and an unknown type, and among the children repeated,
missing and stolen ones, a node itself, an ancestor, and one for which there is no room. -/
def damaged : Json :=
  .fields [("tree", .fields [
    ("nodes", .list [
      Json.int 42,
      rawRecord "trunk" "Sequence" ["branch", "branch", "trunk", "ghost", "leaf"],
      rawRecord "branch" "Sequence" ["trunk", "leaf"],
      rawRecord "branch" "Action" [],
      rawRecord "stranger" "Strange" [],
      rawRecord "leaf" "Action" ["trunk"]]),
    ("root", Json.text "branch")])]

end BehaviorTree.Loading
