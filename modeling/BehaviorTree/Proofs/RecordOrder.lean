import BehaviorTree.Proofs.LoadedForest
import BehaviorTree.Proofs.Subtrees
import BehaviorTree.Proofs.Templates
import BehaviorTree.Proofs.TidyRecords
import BehaviorTree.Proofs.Upgrades

/-!
The order of the records of a well-formed document does not matter. Whatever the order, no edge is
refused and no child is taken from another parent, so that every node ends up with the children that
its record lists and with the parent that lists it. What a node looks like then depends on the
records as a set. Keys differ from one loading to another, so nodes are compared by portraits, which
have ids in the place of keys.
-/
namespace BehaviorTree

open Forest Relation

/-- All there is to know about a node, told by ids. -/
structure Portrait where
  spec : NodeSpec
  parent : Option String
  children : List (Option String)
  state : RunState

def Forest.portrait? (f : Forest) (k : NodeKey) : Option Portrait :=
  (f.node? k).map fun n => ⟨n.spec, n.parent.bind f.id?, n.children.map f.id?, n.state⟩

namespace Loading

variable {registry : Registry} {f g h : Forest} {kept : Kept} {raws raws' : List Json}
  {records records' : List Record} {loaded : Loaded}

/-- Raw records that can all be read as records, which describe a forest. -/
structure WellFormed (registry : Registry) (raws : List Json) (records : List Record) : Prop where
  readable : raws.map Record.read? = records.map some
  ids : (records.map (·.id)).Nodup
  types : ∀ r ∈ records, Dict.contains registry r.typeName = true
  known : ∀ r ∈ records, ∀ id ∈ r.children, id ∈ records.map (·.id)
  once : (records.flatMap (·.children)).Nodup
  acyclic : ∀ id, ¬ TransGen (Lists records) id id
  room : ∀ r ∈ records, ∀ spec, Describes registry r spec → ∀ limit,
    spec.capacity = .atMost limit → r.children.length ≤ limit

theorem WellFormed.tidy (hw : WellFormed registry raws records) : Tidy registry records where
  known := hw.known
  once := (List.nodup_flatMap.mp hw.once).1
  one_parent r hr s hs id hid hid' := by
    by_contra hne
    have hrs : r ≠ s := fun heq => hne (congrArg Record.id heq)
    have hsymm : Std.Symm (Function.onFun List.Disjoint fun r : Record => r.children) :=
      ⟨fun _ _ hd => List.disjoint_symm hd⟩
    exact (List.nodup_flatMap.mp hw.once).2.forall hr hs hrs hid hid'
  acyclic := hw.acyclic
  room := hw.room

theorem lists_congr (hperm : records'.Perm records) : Lists records' = Lists records := by
  funext a b
  simp only [Lists, hperm.mem_iff]

/-- Reordered raw records are the reordered records. -/
theorem WellFormed.reorder (hw : WellFormed registry raws records) (hperm : raws'.Perm raws) :
    ∃ records', records'.Perm records ∧ WellFormed registry raws' records' := by
  have hrecords : (raws'.filterMap Record.read?).Perm records := by
    have hfiltered := hperm.filterMap Record.read?
    rwa [filterMap_of_map_eq hw.readable] at hfiltered
  have hread : ∀ raw ∈ raws', (Record.read? raw).isSome = true := by
    intro raw hraw
    have hmem : Record.read? raw ∈ records.map some :=
      hw.readable ▸ List.mem_map_of_mem (hperm.mem_iff.mp hraw)
    obtain ⟨r, -, hr⟩ := List.mem_map.mp hmem
    simp [← hr]
  refine ⟨raws'.filterMap Record.read?, hrecords, ?_⟩
  constructor
  · exact (map_some_filterMap hread).symm
  · exact (hrecords.map (·.id)).nodup_iff.mpr hw.ids
  · intro r hr
    exact hw.types r (hrecords.mem_iff.mp hr)
  · intro r hr id hid
    exact (hrecords.map (·.id)).mem_iff.mpr (hw.known r (hrecords.mem_iff.mp hr) id hid)
  · exact (hrecords.flatMap_right _).nodup_iff.mpr hw.once
  · rw [lists_congr hrecords]
    exact hw.acyclic
  · intro r hr
    exact hw.room r (hrecords.mem_iff.mp hr)

structure Depicts (registry : Registry) (records : List Record) (r : Record) (p : Portrait) :
    Prop where
  spec : Describes registry r p.spec
  parent : ∀ id, p.parent = some id ↔ Lists records id r.id
  children : p.children = r.children.map some
  state : p.state = .fresh

/-- There is one way only in which the node of a record can look. -/
theorem Depicts.unique {r : Record} {p q : Portrait} (hp : Depicts registry records r p)
    (hq : Depicts registry records' r q) (hperm : records'.Perm records) : p = q := by
  have hparent : p.parent = q.parent := by
    apply Option.ext
    intro id
    rw [hp.parent, hq.parent, lists_congr hperm]
  obtain ⟨pspec, pparent, pchildren, pstate⟩ := p
  obtain ⟨qspec, qparent, qchildren, qstate⟩ := q
  have hspec : pspec = qspec := hp.spec.unique hq.spec
  have hchildren : pchildren = qchildren := hp.children.trans hq.children.symm
  have hstate : pstate = qstate := hp.state.trans hq.state.symm
  have hparents : pparent = qparent := hparent
  rw [hspec, hparents, hchildren, hstate]

section Portraits

variable (hplant : Planted registry f g kept) (htidy : Tidy registry (kept.map (·.1)))
  (hf : f.Reachable)
include hplant htidy hf

/-- The parent of a node is the node whose record lists it. -/
theorem parent_iff_lists {e : Record × NodeKey} (he : e ∈ kept) (id : String) :
    ((kept.foldl (wireRecord kept) g).parent? e.2).bind (kept.foldl (wireRecord kept) g).id? =
      some id ↔ Lists (kept.map (·.1)) id e.1.id := by
  obtain ⟨hw, -⟩ := servedAll_of_planted hplant hf
  have hs := hw.reachable.sound
  have hchildren := fun d hd => children_of_tidy (e := d) hplant htidy hf hd
  constructor
  · intro hparent
    obtain ⟨p, hp, hpid⟩ := Option.bind_eq_some_iff.mp hparent
    have hold : f.size ≤ p := (hw.apart p e.2 hp).mpr (hplant.key_bounds he).1
    obtain ⟨d, hd, rfl⟩ := hplant.exists_entry hold (hw.size ▸ hs.parent_lt_size hp)
    have hdid : d.1.id = id :=
      Option.some.inj ((hplant.id?_eq hd).symm.trans ((hw.id? d.2).symm.trans hpid))
    have hmem : g.id? e.2 ∈ d.1.children.map some :=
      hchildren d hd ▸ List.mem_map_of_mem (hs.mem_children.mpr hp)
    rw [hplant.id?_eq he] at hmem
    exact ⟨d.1, List.mem_map_of_mem hd, hdid, by simpa using hmem⟩
  · rintro ⟨r, hr, rfl, hid⟩
    obtain ⟨d, hd, rfl⟩ := List.mem_map.mp hr
    have hmem : some e.1.id ∈ ((kept.foldl (wireRecord kept) g).children d.2).map g.id? :=
      hchildren d hd ▸ List.mem_map_of_mem hid
    obtain ⟨c, hc, hcid⟩ := List.mem_map.mp hmem
    have hparent := hs.mem_children.mp hc
    have hold : f.size ≤ c := (hw.apart d.2 c hparent).mp (hplant.key_bounds hd).1
    obtain ⟨b, hb, rfl⟩ := hplant.exists_entry hold (hw.size ▸ hs.child_lt_size hc)
    have hsame : b = e :=
      hplant.entry_of_id hb he (Option.some.inj ((hplant.id?_eq hb).symm.trans hcid))
    rw [← hsame, show (kept.foldl (wireRecord kept) g).parent? b.2 = some d.2 from hparent,
      Option.bind_some, hw.id?, hplant.id?_eq hd]

/-- The node of every record looks as the record calls for. -/
theorem exists_portrait {e : Record × NodeKey} (he : e ∈ kept) :
    ∃ p, (kept.foldl (wireRecord kept) g).portrait? e.2 = some p ∧
      Depicts registry (kept.map (·.1)) e.1 p := by
  obtain ⟨hw, -⟩ := servedAll_of_planted hplant hf
  obtain ⟨spec, hspec, hnode⟩ := hplant.node e he
  obtain ⟨n, hn, hnspec, hnstate⟩ := hw.exists_node hnode
  have hchildren := children_of_tidy hplant htidy hf he
  rw [children_eq hn, ← funext hw.id?] at hchildren
  refine ⟨_, by rw [portrait?, hn, Option.map_some], ?_⟩
  constructor
  · exact hnspec ▸ hspec
  · intro id
    have hparent := parent_iff_lists hplant htidy hf he id
    rwa [parent?_eq hn] at hparent
  · exact hchildren
  · exact hnstate

end Portraits

def Portrays (registry : Registry) (records : List Record) (g : Forest) (k : NodeKey)
    (r : Record) : Prop :=
  ∃ p, g.portrait? k = some p ∧ Depicts registry records r p

/-- Of ids, those are found again that some record has. -/
theorem bind_find?_id? (hplant : Planted registry f g kept) (hw : Wired f g h)
    (o : Option String) :
    (o.bind (find? kept)).bind h.id? =
      o.filter fun id => id ∈ (kept.map (·.1)).map (·.id) := by
  cases o with
  | none => rfl
  | some id =>
    rw [Option.bind_some, List.map_map]
    cases hfind : find? kept id with
    | none =>
      have hmissing : id ∉ kept.map (·.1.id) := by
        intro hid
        have hfound := find?_isSome.mpr hid
        simp [hfind] at hfound
      exact (Option.filter_some_neg (by simpa using hmissing)).symm
    | some k =>
      have hid : id ∈ kept.map (·.1.id) := find?_isSome.mp (by rw [hfind]; rfl)
      obtain ⟨record, hmem, rfl⟩ := find?_mem hfind
      rw [Option.bind_some, hw.id?, hplant.id?_eq hmem]
      exact (Option.filter_some_pos (by simpa using hid)).symm

structure Erected (registry : Registry) (records : List Record) (doc : Json) (loaded : Loaded)
    (g : Forest) : Prop where
  nodes : List.Forall₂ (Portrays registry records g) loaded.nodes records
  root : loaded.root.bind g.id? = (rootOf doc).filter fun id => id ∈ records.map (·.id)
  values : loaded.values = valuesOf doc
  metadata : loaded.metadata = metadataOf doc

/-- Both passes make of well-formed records what these call for. -/
theorem erected_build {doc : Json} (hf : f.Reachable)
    (hw : WellFormed registry (recordsOf doc) records) :
    Erected registry records doc (build registry f doc).1 (build registry f doc).2 := by
  obtain ⟨g, kept, hplant, husable, hbuild⟩ := exists_planted registry f doc
  have hkept : kept.map (·.1) = records :=
    husable.trans (usable_eq hw.readable hw.types hw.ids (by simp))
  subst hkept
  have hwired := (servedAll_of_planted hplant hf).1
  rw [hbuild]
  constructor
  · rw [List.forall₂_map_left_iff, List.forall₂_map_right_iff, List.forall₂_same]
    exact fun e he => exists_portrait hplant hw.tidy hf he
  · exact bind_find?_id? hplant hwired (rootOf doc)
  · rfl
  · rfl

theorem Portrays.id? {k : NodeKey} {r : Record} (h : Portrays registry records g k r) :
    g.id? k = some r.id := by
  obtain ⟨p, hp, hdepicts⟩ := h
  obtain ⟨n, hn, rfl⟩ := Option.map_eq_some_iff.mp hp
  obtain ⟨fresh, -, hspec⟩ := hdepicts.spec
  rw [Forest.id?, hn, Option.map_some]
  exact congrArg (fun spec => some spec.id) hspec

open Migration

def withItems (raws : List Json) : Json → Json
  | .list _ => .list raws
  | v => v

def withRecords (raws : List Json) : Json → Json := onFields (onRecords (withItems raws))

variable {doc migrated : Json} {d : Dict Json}

theorem list?_withItems (raws : List Json) (v : Json) :
    (withItems raws v).list? = v.list?.map fun _ => raws := by
  cases v with
  | list items => rfl
  | leaf a => rfl
  | fields entries => rfl

theorem withRecords_of_fields (hfields : doc.fields? = some d) :
    withRecords raws doc = Json.ofDict (onRecords (withItems raws) d) := by
  unfold withRecords onFields
  rw [hfields]

/-- A document has a place for records if it has a record already. -/
theorem recordsOf_withRecords (hfields : doc.fields? = some d)
    (hnil : recordsOf doc = [] → raws = []) : recordsOf (withRecords raws doc) = raws := by
  have hlisted := listed?_onRecords (list?_withItems raws) d
  rw [withRecords_of_fields hfields, recordsOf_eq, hlisted]
  rw [← recordsOf_of_fields hfields, recordsOf_eq] at hnil
  cases hitems : listed? (Json.ofDict d) with
  | none =>
    rw [hitems] at hnil
    exact (hnil rfl).symm
  | some items => rfl

theorem statedVersion_onRecords (change : Json → Json) (d : Dict Json) :
    statedVersion (onRecords change d) = statedVersion d := by
  unfold statedVersion
  rw [get?_onRecords (by decide)]

theorem treeProblems_onRecords (change : Json → Json) (d : Dict Json) :
    treeProblems (onRecords change d) = treeProblems d := by
  unfold treeProblems onRecords
  rw [Dict.get?_modify]
  cases d.get? "tree" with
  | none => rfl
  | some tree => cases tree <;> rfl

theorem nodesProblems_withItems (raws : List Json) (d : Dict Json) :
    nodesProblems (onRecords (withItems raws) d) = nodesProblems d := by
  unfold nodesProblems
  rw [nodes?_onRecords]
  cases (d.get? "tree").bind fun tree => tree.get? "nodes" with
  | none => rfl
  | some nodes => cases nodes <;> rfl

/-- The records have nothing to do with the checks of a document. -/
theorem problems_withRecords (raws : List Json) (doc : Json) :
    byVersion.problems (withRecords raws doc) = byVersion.problems doc := by
  cases hfields : doc.fields? with
  | none =>
    unfold withRecords onFields
    rw [hfields]
  | some d =>
    rw [withRecords_of_fields hfields]
    simp only [byVersion, problems, Json.fields?_ofDict, hfields, versionProblems,
      statedVersion_onRecords, treeProblems_onRecords, nodesProblems_withItems]

/-- The order of the records has nothing to do with the reasons to refuse a document. -/
theorem migrate_withRecords_error {e : MigrationError} (h : byVersion.migrate doc = .error e) :
    byVersion.migrate (withRecords raws doc) = .error e := by
  cases hfields : doc.fields? with
  | none =>
    unfold withRecords onFields
    rwa [hfields]
  | some d =>
    have hstated := statedVersion_onRecords (withItems raws) d
    rw [withRecords_of_fields hfields]
    cases hfound : statedVersion d with
    | error e' =>
      rw [← h, migrate_of_stated_error hfields hfound]
      exact migrate_of_stated_error (Json.fields?_ofDict _) (hstated.trans hfound)
    | ok found =>
      cases hold : found.isAfter .current with
      | true =>
        rw [← h, migrate_of_after hfields hfound hold]
        exact migrate_of_after (Json.fields?_ofDict _) (hstated.trans hfound) hold
      | false => cases (migrate_of_fields hfields hfound hold).symm.trans h

/-- Bringing the document to the current version, with other records, upgrades each of them in its
place and does nothing else. -/
theorem migrate_withRecords (hmigrated : byVersion.migrate doc = .ok migrated)
    (hnil : recordsOf doc = [] → raws = []) :
    ∃ found migrated', byVersion.migrate (withRecords raws doc) = .ok migrated' ∧
      recordsOf migrated = (recordsOf doc).map (upgradeOf found) ∧
      recordsOf migrated' = raws.map (upgradeOf found) ∧ rootOf migrated' = rootOf migrated ∧
      valuesOf migrated' = valuesOf migrated ∧ metadataOf migrated' = metadataOf migrated := by
  obtain ⟨d, found, hfields, hfound, hold, rfl⟩ := exists_of_migrate hmigrated
  have hrecords := recordsOf_withRecords hfields hnil
  rw [withRecords_of_fields hfields] at hrecords ⊢
  refine ⟨found, _, migrate_of_fields (Json.fields?_ofDict _)
    ((statedVersion_onRecords _ d).trans hfound) hold, ?_, ?_, ?_, ?_, ?_⟩
  · rw [recordsOf_brought, recordsOf_of_fields hfields]
  · rw [recordsOf_brought, hrecords]
  · rw [rootOf_brought, rootOf_brought, rootOf_onRecords]
  · unfold valuesOf
    rw [Json.get?_ofDict, Json.get?_ofDict, get?_brought _ _ (by decide) (by decide),
      get?_brought _ _ (by decide) (by decide), get?_onRecords (by decide)]
  · unfold metadataOf
    rw [Json.get?_ofDict, Json.get?_ofDict, get?_brought _ _ (by decide) (by decide),
      get?_brought _ _ (by decide) (by decide), get?_onRecords (by decide)]

/-- Two loaded documents have the same nodes, whatever their order and their keys. -/
structure SameNodes (loaded : Loaded) (g : Forest) (loaded' : Loaded) (g' : Forest) : Prop where
  root : loaded'.root.bind g'.id? = loaded.root.bind g.id?
  ids : (loaded'.nodes.map g'.id?).Perm (loaded.nodes.map g.id?)
  node : ∀ k ∈ loaded.nodes, ∀ k' ∈ loaded'.nodes, g'.id? k' = g.id? k →
    g'.portrait? k' = g.portrait? k
  values : loaded'.values = loaded.values
  metadata : loaded'.metadata = loaded.metadata

theorem exists_of_mem_forall₂ {α β : Type} {R : α → β → Prop} {xs : List α} {ys : List β}
    (h : List.Forall₂ R xs ys) {x : α} (hx : x ∈ xs) : ∃ y ∈ ys, R x y := by
  induction h with
  | nil => simp at hx
  | cons hab _ ih =>
    rcases List.mem_cons.mp hx with rfl | hx
    · exact ⟨_, List.mem_cons_self, hab⟩
    · obtain ⟨y, hy, hxy⟩ := ih hx
      exact ⟨y, List.mem_cons_of_mem _ hy, hxy⟩

theorem Erected.ids {doc : Json} (h : Erected registry records doc loaded g) :
    loaded.nodes.map g.id? = records.map fun r => some r.id := by
  rw [← List.forall₂_eq_eq_eq, List.forall₂_map_left_iff, List.forall₂_map_right_iff]
  exact h.nodes.imp fun k r hk => hk.id?

/-- Documents with the same records in another order have the same nodes. -/
theorem sameNodes_of_perm {doc' : Json} {loaded' : Loaded} {g' : Forest}
    (h : Erected registry records doc loaded g) (h' : Erected registry records' doc' loaded' g')
    (hids : (records.map (·.id)).Nodup) (hperm : records'.Perm records)
    (hroot : rootOf doc' = rootOf doc) (hvalues : valuesOf doc' = valuesOf doc)
    (hmetadata : metadataOf doc' = metadataOf doc) : SameNodes loaded g loaded' g' := by
  constructor
  · rw [h.root, h'.root, hroot]
    simp only [(hperm.map (·.id)).mem_iff]
  · rw [h.ids, h'.ids]
    exact hperm.map _
  · intro k hk k' hk' hid
    obtain ⟨r, hr, hkr⟩ := exists_of_mem_forall₂ h.nodes hk
    obtain ⟨r', hr', hkr'⟩ := exists_of_mem_forall₂ h'.nodes hk'
    have hsame : r' = r := by
      refine List.inj_on_of_nodup_map hids (hperm.mem_iff.mp hr') hr ?_
      exact Option.some.inj (hkr'.id?.symm.trans (hid.trans hkr.id?))
    obtain ⟨p, hp, hdepicts⟩ := hkr
    obtain ⟨p', hp', hdepicts'⟩ := hkr'
    rw [hsame] at hdepicts'
    rw [hp, hp', hdepicts.unique hdepicts' hperm]
  · rw [h.values, h'.values, hvalues]
  · rw [h.metadata, h'.metadata, hmetadata]

/-- Loading a document with well-formed records makes a node of every record, which has exactly the
children that the record lists. The order of the records changes nothing but the order of the
nodes. -/
theorem load_reordered {f' : Forest} (hf : f.Reachable) (hf' : f'.Reachable)
    (hvalid : byVersion.problems doc = []) (hmigrated : byVersion.migrate doc = .ok migrated)
    (hw : WellFormed registry (recordsOf migrated) records) (hperm : raws.Perm (recordsOf doc)) :
    ∃ loaded g loaded' g', load registry byVersion f doc = .ok (loaded, g) ∧
      load registry byVersion f' (withRecords raws doc) = .ok (loaded', g') ∧
      List.Forall₂ (Portrays registry records g) loaded.nodes records ∧
      SameNodes loaded g loaded' g' := by
  have hnil : recordsOf doc = [] → raws = [] := fun h => List.perm_nil.mp (h ▸ hperm)
  obtain ⟨found, migrated', hmigrated', hold, hnew, hroot, hvalues, hmetadata⟩ :=
    migrate_withRecords hmigrated hnil
  have hrecords : (recordsOf migrated').Perm (recordsOf migrated) := by
    rw [hold, hnew]
    exact hperm.map _
  obtain ⟨records', hperm', hw'⟩ := hw.reorder hrecords
  have herected := erected_build hf hw
  have herected' := erected_build hf' hw'
  refine ⟨_, _, _, _, load_eq_ok hvalid hmigrated,
    load_eq_ok ((problems_withRecords raws doc).trans hvalid) hmigrated', herected.nodes, ?_⟩
  exact sameNodes_of_perm herected herected' hw.ids hperm' hroot hvalues hmetadata

/-- No records lie in a circle if every child ranks higher than its parent. -/
theorem not_circular_of_rank (rank : String → ℕ)
    (hrank : ∀ r ∈ records, ∀ id ∈ r.children, rank r.id < rank id) (id : String) :
    ¬ TransGen (Lists records) id id := by
  have hup : ∀ {a b}, TransGen (Lists records) a b → rank a < rank b := by
    intro a b hab
    induction hab with
    | single hab =>
      obtain ⟨r, hr, rfl, hb⟩ := hab
      exact hrank r hr _ hb
    | tail _ hbc ih =>
      obtain ⟨r, hr, rfl, hc⟩ := hbc
      exact Nat.lt_trans ih (hrank r hr _ hc)
  intro hid
  exact Nat.lt_irrefl _ (hup hid)

def orchard : Json :=
  .fields [("tree", .fields [
    ("nodes", .list [
      rawRecord "tree" "Sequence" ["branch", "leaf"],
      rawRecord "branch" "Sequence" ["twig"],
      rawRecord "leaf" "Action" [],
      rawRecord "twig" "Action" []]),
    ("root", Json.text "tree")])]

/-- Nothing limits the sequences, unless their records do. -/
theorem sparse_room
    (h : ∀ r ∈ records, r.children = [] ∨ r.typeName = "Sequence" ∧ r.config = none) :
    ∀ r ∈ records, ∀ spec, Describes sparse r spec → ∀ limit,
      spec.capacity = .atMost limit → r.children.length ≤ limit := by
  intro r hr spec hspec limit hlimit
  rcases h r hr with hnil | ⟨htype, hconfig⟩
  · rw [hnil]
    exact Nat.zero_le limit
  · obtain ⟨fresh, hfresh, rfl⟩ := hspec
    rw [htype] at hfresh
    obtain rfl := Option.some.inj hfresh
    unfold NodeSpec.capacity Record.applyTo at hlimit
    rw [hconfig] at hlimit
    exact absurd hlimit nofun

theorem orchard_wellFormed :
    ∃ migrated, byVersion.migrate orchard = .ok migrated ∧
      WellFormed sparse (recordsOf migrated) ((recordsOf migrated).filterMap Record.read?) := by
  refine ⟨_, rfl, ?_⟩
  constructor
  · rfl
  · decide
  · decide
  · decide
  · decide
  · exact not_circular_of_rank (fun id => if id = "tree" then 0 else if id = "twig" then 2 else 1)
      (by decide)
  · exact sparse_room (by decide)

/-- The orchard in two orders. -/
theorem load_reordered_orchard :
    empty.Reachable ∧ byVersion.problems orchard = [] ∧
      ∃ migrated records, byVersion.migrate orchard = .ok migrated ∧
        WellFormed sparse (recordsOf migrated) records ∧
        (recordsOf orchard).reverse.Perm (recordsOf orchard) ∧
        ∃ loaded g loaded' g', load sparse byVersion empty orchard = .ok (loaded, g) ∧
          load sparse byVersion empty (withRecords (recordsOf orchard).reverse orchard) =
            .ok (loaded', g') ∧
          List.Forall₂ (Portrays sparse records g) loaded.nodes records ∧
          SameNodes loaded g loaded' g' := by
  have hempty : empty.Reachable := ReflTransGen.refl
  have hvalid : byVersion.problems orchard = [] := by rfl
  obtain ⟨migrated, hmigrated, hw⟩ := orchard_wellFormed
  have hperm := List.reverse_perm (recordsOf orchard)
  exact ⟨hempty, hvalid, migrated, _, hmigrated, hw, hperm,
    load_reordered hempty hempty hvalid hmigrated hw hperm⟩

end Loading

end BehaviorTree
