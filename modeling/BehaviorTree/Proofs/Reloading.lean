import BehaviorTree.Engine
import BehaviorTree.Proofs.Rebuilding
import BehaviorTree.Proofs.WrittenDocuments

/-!
Saving is stable. The first loading of a document may have to pass over much of it; what is saved
afterwards is loaded as it stands, and saving it once more gives the same again. The nodes of a
loaded forest are such that a document holds all of them, so that the saved records are those of
the nodes below the root and make the same nodes when they are loaded.
-/
namespace BehaviorTree

open Forest Loading Relation

variable {registry : Registry} {f g h : Forest} {nodes : List NodeKey} {kept : Kept}
  {loaded : Loaded}

namespace Loading

/-- Usable records are settled, since they have been read. -/
theorem settled_of_mem_usable {r : Record} {seen : List String} {raws : List Json}
    (hr : r ∈ usable registry seen raws) : r.Settled := by
  induction raws generalizing seen with
  | nil => simp [usable] at hr
  | cons raw rest ih =>
    cases hread : Record.read? raw with
    | none =>
      simp only [usable, hread] at hr
      exact ih hr
    | some record =>
      simp only [usable, hread] at hr
      split_ifs at hr
      · exact ih hr
      · rcases List.mem_cons.mp hr with rfl | hr
        · exact Record.settled_of_read? hread
        · exact ih hr

/-- All that has been loaded can be saved. -/
theorem Faithful.storable {doc : Json} (hfaithful : Faithful registry f doc loaded g kept)
    (hregistry : registry.Regular) : Storable registry g loaded.nodes where
  sound := ⟨hfaithful.linked, hfaithful.listed_once, hfaithful.acyclic⟩
  closed p hp c hc := (hfaithful.apart p c hc).mp hp
  node k hk := by
    rw [hfaithful.nodes] at hk
    obtain ⟨e, he, rfl⟩ := List.mem_map.mp hk
    obtain ⟨n, hn, hdescribes, -⟩ := hfaithful.node e he
    have husable : e.1 ∈ usable registry [] (recordsOf doc) :=
      hfaithful.records ▸ List.mem_map_of_mem he
    exact ⟨n, hn, hdescribes.settled hregistry (settled_of_mem_usable husable),
      hdescribes.ofSpec hregistry⟩
  ids j hj k hk := List.inj_on_of_nodup_map hfaithful.ids hj hk
  within := hfaithful.within

/-- The nodes under the root of what has been loaded, or none without a root. -/
theorem Faithful.storable_tree {doc : Json} (hfaithful : Faithful registry f doc loaded g kept)
    (hregistry : registry.Regular) : Storable registry g (loaded.root.elim [] g.subtree) := by
  have hall := hfaithful.storable hregistry
  cases hroot : loaded.root with
  | none =>
    exact ⟨hall.sound, by simp, by simp, by simp, by simp⟩
  | some k =>
    have hk : k ∈ loaded.nodes := ((hfaithful.root k).mp hroot).1
    have hsub := hall.sound.subtree_subset hall.closed hk
    exact ⟨hall.sound, fun p hp c hc => hall.sound.subtree_closed hp hc,
      fun x hx => hall.node x (hsub x hx),
      fun x hx y hy => hall.ids x (hsub x hx) y (hsub y hy),
      fun x hx => hall.within x (hsub x hx)⟩

theorem Rebuilt.find?_eq_some (hr : Rebuilt g nodes h kept) {e : Record × NodeKey} (he : e ∈ kept) :
    find? kept e.1.id = some e.2 := by
  obtain ⟨k, hk⟩ := Option.isSome_iff_exists.mp (find?_isSome.mpr (List.mem_map_of_mem he))
  obtain ⟨record, hmem, hid⟩ := find?_mem hk
  have hsame : (record, k) = e := hr.ids _ hmem e he hid
  rw [hk, ← hsame]

/-- The records of the new nodes are those that they were made of. -/
theorem Rebuilt.map_record? (hr : Rebuilt g nodes h kept) :
    (kept.map (·.2)).map h.record? = (nodes.filterMap g.record?).map some := by
  rw [← hr.records, List.map_map, List.map_map]
  exact List.map_congr_left hr.record

/-- Both passes over a raw document that shows the records of storable nodes. -/
theorem rebuilt_of_shows (hg : Storable registry g nodes) (hnodup : nodes.Nodup)
    (hf : f.Reachable) {doc : Document} (hrecords : doc.nodes = nodes.filterMap g.record?)
    {raw : Json} (hraw : doc.Shows raw) :
    ∃ h kept, Rebuilt g nodes h kept ∧ build registry f raw =
      ({ root := doc.root.bind (find? kept)
         nodes := kept.map (·.2)
         values := doc.initialValues
         metadata := metadataOf raw }, h) := by
  obtain ⟨planted, kept, hplant, husable, hbuild⟩ := exists_planted registry f raw
  have hkept : kept.map (·.1) = nodes.filterMap g.record? := by
    rw [husable, hraw.records, hrecords]
    have hrecorded : ∀ r ∈ nodes.filterMap g.record?, ∃ k, Recorded registry g k r := by
      intro r hr
      obtain ⟨k, hk, hkr⟩ := List.mem_filterMap.mp hr
      exact ⟨k, hg.recorded hk hkr⟩
    have hsettled : ∀ r ∈ nodes.filterMap g.record?, r.Settled := fun r hr =>
      (hrecorded r hr).elim fun _ hk => hk.settled
    rw [usable_map_write (fun r hr => (hsettled r hr).position) (fun r hr => ?_)
      (hg.enclosed.ids_nodup hnodup) (by simp)]
    · rw [List.map_congr_left fun r hr => Record.reread_of_settled (hsettled r hr), List.map_id']
    · obtain ⟨k, hk⟩ := hrecorded r hr
      obtain ⟨n, -, hdescribes, -⟩ := hk.describes
      exact ⟨n.spec, hdescribes⟩
  refine ⟨_, kept, rebuilt_of_storable hg hf hplant hkept, ?_⟩
  rw [hbuild, hraw.root, hraw.values]

end Loading

/-- What two documents have in common that are written by different trees at different times. -/
structure Document.SameContent (a b : Document) : Prop where
  version : a.version = b.version
  nodeCount : a.metadata.nodeCount = b.metadata.nodeCount
  nodes : a.nodes = b.nodes
  root : a.root = b.root
  initialValues : a.initialValues = b.initialValues

namespace Engine

variable {σ τ : Type}

/-- An engine that loads a document goes on with what has been made of it. -/
theorem load_eq_ok_iff {migrator : Migrator} {e e' : Engine σ} {doc : Json} :
    e.load registry migrator doc = .ok e' ↔
      ∃ loaded g, Loading.load registry migrator e.forest doc = .ok (loaded, g) ∧
        e' = e.replace loaded g := by
  rw [load]
  cases hload : Loading.load registry migrator e.forest doc with
  | error error => simp
  | ok result =>
    obtain ⟨loaded, g⟩ := result
    simp [eq_comm]

/-- The documents of two trees agree if the one was made of the records of the other. -/
theorem sameContent_of_rebuilt {e : Engine σ} {other : Engine τ} {now now' : Timestamp}
    (hr : Rebuilt e.forest (e.tree.root.elim [] e.forest.subtree) other.forest kept)
    (hg : Storable registry e.forest (e.tree.root.elim [] e.forest.subtree))
    (hroot : other.tree.root = (e.tree.root.bind e.forest.id?).bind (find? kept))
    (hvalues : other.tree.board.data = e.tree.board.data) :
    (other.document now').SameContent (e.document now) := by
  cases hk : e.tree.root with
  | none =>
    rw [hk] at hroot
    constructor <;> simp_all [document, Document.capture]
  | some k =>
    rw [hk] at hroot hr hg
    have hmem : k ∈ e.forest.subtree k := List.mem_cons_self
    obtain ⟨r, hkr, hrecorded⟩ := hg.exists_record hmem
    have hsaved : r ∈ kept.map (·.1) := hr.records ▸ List.mem_filterMap.mpr ⟨k, hmem, hkr⟩
    obtain ⟨d, hd, rfl⟩ := List.mem_map.mp hsaved
    have hfound : other.tree.root = some d.2 := by
      rw [hroot, Option.bind_some, hrecorded.id, Option.bind_some, hr.find?_eq_some hd]
    have hnodes : (other.document now').nodes = (e.document now).nodes := by
      simp only [document, Document.capture, hfound, hk]
      exact hr.subtree hg hmem hd hrecorded.id
    exact {
      version := rfl
      nodeCount := congrArg List.length hnodes
      nodes := hnodes
      root := by simp [document, Document.capture, hfound, hk, hr.id d hd, hrecorded.id]
      initialValues := hvalues
    }

/-- After loading a document, all nodes under the root can be saved. -/
theorem storable_of_load {migrator : Migrator} {e e' : Engine σ} {doc : Json}
    (he : e.forest.Reachable) (hregistry : registry.Regular)
    (hload : e.load registry migrator doc = .ok e') :
    Storable registry e'.forest (e'.tree.root.elim [] e'.forest.subtree) := by
  obtain ⟨loaded, g, hloaded, rfl⟩ := load_eq_ok_iff.mp hload
  obtain ⟨migrated, kept, -, -, hfaithful⟩ := faithful_of_load he hloaded
  exact hfaithful.storable_tree hregistry

theorem tree_nodup {e : Engine σ} (hs : e.forest.Sound) :
    (e.tree.root.elim [] e.forest.subtree).Nodup := by
  cases e.tree.root with
  | none => exact List.nodup_nil
  | some k => exact hs.subtree_nodup k

/-- What is saved after a load is loaded and saved again as it is. -/
theorem document_stable {e e' : Engine σ} {other : Engine τ} {doc : Json}
    (he : e.forest.Reachable) (hother : other.forest.Reachable)
    (hload : e.load .standard Migration.byVersion doc = .ok e') (now now' : Timestamp) :
    ∃ other', other.load .standard Migration.byVersion (e'.document now).write = .ok other' ∧
      other'.tree.nodes.map other'.forest.record? = (e'.document now).nodes.map some ∧
      (other'.document now').SameContent (e'.document now) := by
  have hg := storable_of_load he Registry.standard_regular hload
  have hversion : (e'.document now).version = Version.current.render := rfl
  obtain ⟨raw, hmigrate, hraw⟩ := Document.migrate_write _ hversion
  obtain ⟨h, kept, hrebuilt, hbuild⟩ :=
    rebuilt_of_shows hg (tree_nodup hg.sound) hother rfl hraw
  have hreload := (Loading.load_eq_ok (Document.problems_write _ hversion) hmigrate).trans
    (congrArg Except.ok hbuild)
  refine ⟨_, load_eq_ok_iff.mpr ⟨_, h, hreload, rfl⟩, ?_, ?_⟩
  · exact hrebuilt.map_record?
  · exact sameContent_of_rebuilt hrebuilt hg rfl rfl

def blank : Engine Unit :=
  { tree := .new TickRate.standard, forest := .empty, clock := .new, memory := (), notices := [] }

/-- Of the damaged document the branch and its leaf are saved, and these come back. -/
theorem document_stable_damaged :
    blank.forest.Reachable ∧
      ∃ e', blank.load .standard Migration.byVersion damaged = .ok e' ∧
        (e'.document .epoch).nodes.map (·.id) = ["branch", "leaf"] ∧
        ∃ other',
          blank.load .standard Migration.byVersion (e'.document .epoch).write = .ok other' ∧
          other'.tree.nodes.map other'.forest.record? = (e'.document .epoch).nodes.map some ∧
          (other'.document .epoch).SameContent (e'.document .epoch) := by
  have hblank : blank.forest.Reachable := ReflTransGen.refl
  have hload : ∃ e', blank.load .standard Migration.byVersion damaged = .ok e' ∧
      (e'.document .epoch).nodes.map (·.id) = ["branch", "leaf"] := ⟨_, rfl, by decide⟩
  obtain ⟨e', hload, hids⟩ := hload
  exact ⟨hblank, e', hload, hids, document_stable hblank hblank hload .epoch .epoch⟩

end Engine

end BehaviorTree
