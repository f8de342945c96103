import BehaviorTree.Submission
import BehaviorTree.Proofs.Admission
import BehaviorTree.Proofs.Handles
import BehaviorTree.Proofs.Observation
import BehaviorTree.Proofs.Reloading

/-!
Loading into a tree that is in use. A document takes over as a whole or not at all: where it is
refused, everything is as before, and where it is taken, the tree has the root, the nodes and the
values of the document and nothing is left of the passes before, while the way in which the tree is
being run goes on. Either way, all that happens to nodes happens to new ones.
-/
namespace BehaviorTree

open Loading Migration

namespace Migration

variable {doc migrated : Json}

/-- Bringing a document to the current version leaves its values alone. -/
theorem valuesOf_migrate (h : byVersion.migrate doc = .ok migrated) :
    valuesOf migrated = valuesOf doc := by
  obtain ⟨d, found, hfields, -, -, rfl⟩ := exists_of_migrate h
  have hboard : (Json.ofDict (brought found d)).get? "blackboard" = doc.get? "blackboard" := by
    rw [Json.get?_ofDict, get?_brought found d (by decide) (by decide), Json.get?, hfields,
      Option.bind_some]
  rw [valuesOf, hboard, valuesOf]

end Migration

def Json.initialValue? (doc : Json) (key : String) : Option Json :=
  (doc.get? "blackboard").bind fun board =>
    (board.get? "initialValues").bind fun values => values.get? key

theorem get?_valuesOf (doc : Json) (key : String) :
    (valuesOf doc).get? key = doc.initialValue? key := by
  unfold valuesOf Json.initialValue?
  cases doc.get? "blackboard" with
  | none => rfl
  | some board =>
    rw [Option.bind_some, Option.bind_some]
    cases board.get? "initialValues" with
    | none => rfl
    | some values =>
      rw [Option.bind_some, Option.bind_some, Json.get?]
      cases values.fields? <;> rfl

namespace Engine

variable {σ : Type} {e after : Engine σ} {registry : Registry} {doc : Json} {loaded : Loaded}
  {s : Submission}

structure TakenOver (e after : Engine σ) (doc : Json) (loaded : Loaded) : Prop where
  root : after.tree.root = loaded.root
  nodes : after.tree.nodes = loaded.nodes
  created : after.tree.created = loaded.metadata.created
  values : ∀ key, after.tree.board.get? key = doc.initialValue? key
  unused : ∀ key, after.tree.board.users? key = none
  tickCount : after.tree.tickCount = 0
  /-- The tree is being run as before: firings that are pending stay so. -/
  state : after.tree.state = e.tree.state
  timer : after.tree.timer = e.tree.timer
  rate : after.tree.rate = e.tree.rate
  clock : after.clock = e.clock
  tickObservers : after.tree.tickObservers = e.tree.tickObservers
  stateObservers : after.tree.stateObservers = e.tree.stateObservers
  notices : after.notices = e.notices
  memory : after.memory = e.memory

theorem takenOver_replace (e : Engine σ) {forest : Forest}
    (hvalues : loaded.values = valuesOf doc) :
    e.TakenOver (e.replace loaded forest) doc loaded where
  root := rfl
  nodes := rfl
  created := rfl
  values key := (congrArg (·.get? key) hvalues).trans (get?_valuesOf doc key)
  unused _ := rfl
  tickCount := rfl
  state := rfl
  timer := rfl
  rate := rfl
  clock := rfl
  tickObservers := rfl
  stateObservers := rfl
  notices := rfl
  memory := rfl

/-- A document is taken where its text can be read and the document can be loaded. -/
theorem read_bind_load_eq_ok_iff {migrator : Migrator} :
    s.read.bind (e.load registry migrator) = .ok after ↔
      ∃ doc, s.read = .ok doc ∧ e.load registry migrator doc = .ok after := by
  cases s.read <;> simp [Except.bind]

theorem submit_of_ok (h : s.read.bind (e.load registry byVersion) = .ok after) :
    e.submit registry byVersion s = (.ok (), after) := by
  simp only [submit, h]

theorem submit_of_error {error : LoadError}
    (h : s.read.bind (e.load registry byVersion) = .error error) :
    e.submit registry byVersion s = (.error error, e) := by
  simp only [submit, h]

/-- What is loaded beside the nodes of a tree. -/
structure Beside (f g : Forest) (loaded : Loaded) : Prop where
  sound : g.Sound
  old : ∀ k < f.size, g.node? k = f.node? k
  new : ∀ k ∈ loaded.root.toList ++ loaded.nodes, f.size ≤ k

/-- A document is loaded beside the nodes that are there. -/
theorem beside_of_faithful {f g : Forest} {kept : Kept}
    (h : Faithful registry f doc loaded g kept) : Beside f g loaded where
  sound := ⟨h.linked, h.listed_once, h.acyclic⟩
  old := h.old
  new k hk := by
    have hlisted : k ∈ loaded.nodes := by
      rcases List.mem_append.mp hk with hroot | hnode
      · exact ((h.root k).mp (Option.mem_toList.mp hroot)).1
      · exact hnode
    rw [h.keys, List.mem_range'_1] at hlisted
    exact hlisted.1

/-- Loading gives the values of the document and leaves alone the nodes that are there already. -/
theorem exists_of_load {f g : Forest} (hf : f.Reachable)
    (h : Loading.load registry byVersion f doc = .ok (loaded, g)) :
    loaded.values = valuesOf doc ∧ Beside f g loaded := by
  obtain ⟨migrated, kept, hmigrated, hbuild, hfaithful⟩ := faithful_of_load hf h
  have hvalues : (build registry f migrated).1.values = valuesOf migrated := rfl
  rw [hbuild] at hvalues
  exact ⟨hvalues.trans (valuesOf_migrate hmigrated), beside_of_faithful hfaithful⟩

section Dropping

variable {g : Forest} {k : NodeKey}

/-- The tree lets go of the nodes that it held. -/
theorem Beside.alive_replace (h : Beside e.forest g loaded) (hs : e.forest.Sound)
    (host : List NodeKey) (hk : k < e.forest.size) :
    g.Alive ((e.replace loaded g).handles host) k ↔ e.forest.Alive host k := by
  rw [hs.alive_iff_of_old h.old h.sound _ hk]
  exact (Forest.alive_append _ _).trans (or_iff_left (hs.not_alive_of_new h.new hk))

/-- A node loses its parent only if the parent dies. -/
theorem Beside.aliveParent?_replace (h : Beside e.forest g loaded) (hs : e.forest.Sound)
    (host : List NodeKey) (hk : k < e.forest.size) :
    g.aliveParent? ((e.replace loaded g).handles host) k =
      (e.forest.aliveParent? (e.handles host) k).filter fun p => e.forest.Alive host p := by
  have hparent : g.parent? k = e.forest.parent? k := by
    rw [Forest.parent?, h.old k hk, Forest.parent?]
  rw [Forest.aliveParent?, hparent, Forest.aliveParent?, Option.filter_filter]
  cases hp : e.forest.parent? k with
  | none => rfl
  | some p =>
    have hafter := h.alive_replace hs host (hs.parent_lt_size hp)
    rw [Option.filter_some, Option.filter_some]
    by_cases hhost : e.forest.Alive host p
    · have hbefore : e.forest.Alive (e.handles host) p := hhost.append _
      simp only [hafter, hhost, hbefore, decide_true, Bool.and_self]
    · simp only [hafter, hhost, decide_false, Bool.and_false]

end Dropping

/-- Whatever the state of a tree and whatever is handed over to it, the tree is replaced by what the
document holds, or nothing changes at all. The nodes that were there stay as they are. Those that
only the tree has kept are gone with it, and gone from their children as parents. -/
theorem submit_all_or_nothing (hf : e.forest.Reachable) (registry : Registry) (s : Submission) :
    let answer := (e.submit registry byVersion s).1
    let after := (e.submit registry byVersion s).2
    (∀ error, answer = .error error → after = e) ∧
    (answer = .ok () ↔ ∃ doc loaded, s.read = .ok doc ∧
      Loading.load registry byVersion e.forest doc = .ok (loaded, after.forest) ∧
      e.TakenOver after doc loaded) ∧
    (∀ k < e.forest.size, after.forest.node? k = e.forest.node? k) ∧
    (answer = .ok () → ∀ host, ∀ k < e.forest.size,
      (after.forest.Alive (after.handles host) k ↔ e.forest.Alive host k) ∧
      after.forest.aliveParent? (after.handles host) k =
        (e.forest.aliveParent? (e.handles host) k).filter fun p => e.forest.Alive host p) := by
  cases hsubmit : s.read.bind (e.load registry byVersion) with
  | ok after =>
    obtain ⟨doc, hread, hload⟩ := read_bind_load_eq_ok_iff.mp hsubmit
    obtain ⟨loaded, g, hdoc, rfl⟩ := load_eq_ok_iff.mp hload
    obtain ⟨hvalues, hbeside⟩ := exists_of_load hf hdoc
    rw [submit_of_ok hsubmit]
    refine ⟨nofun, iff_of_true rfl ⟨doc, loaded, hread, hdoc, takenOver_replace e hvalues⟩,
      hbeside.old, fun _ host k hk => ?_⟩
    exact ⟨hbeside.alive_replace hf.sound host hk, hbeside.aliveParent?_replace hf.sound host hk⟩
  | error error =>
    rw [submit_of_error hsubmit]
    refine ⟨fun _ _ => rfl, iff_of_false nofun ?_, fun _ _ => rfl, nofun⟩
    rintro ⟨doc, loaded, hread, hdoc, -⟩
    have hload := load_eq_ok_iff.mpr ⟨loaded, _, hdoc, rfl⟩
    cases hsubmit.symm.trans (read_bind_load_eq_ok_iff.mpr ⟨doc, hread, hload⟩)

def lookout : Forest :=
  (Forest.patrol.tick Executor.scripted 0 ⟨.empty, [.success, .running]⟩).2.1

theorem lookout_reachable : lookout.Reachable :=
  Forest.patrol_reachable.tail (.tick _ _ _)

def onPatrol : Engine (List Status) where
  tree :=
    { root := some 0, nodes := [0], timer := some 0, state := .running, tickCount := 1,
      board := Blackboard.empty.setBy "post" (Json.int 3) "look" }
  forest := lookout
  clock := ⟨1, [(0, ⟨TickRate.interval TickRate.standard, 2⟩)]⟩
  memory := []
  notices := []

theorem onPatrol_reachable : onPatrol.forest.Reachable := by
  simp only [onPatrol]
  exact lookout_reachable

def afterPatrol : Engine (List Status) := (onPatrol.submit sparse byVersion (.value damaged)).2

/-- A damaged document takes over from the patrol, whose first node the host keeps, and a text that
breaks off does not. -/
theorem submit_all_or_nothing_onPatrol :
    onPatrol.forest.Reachable ∧ onPatrol.forest.children 0 = [1, 2] ∧
      (∃ loaded, onPatrol.TakenOver afterPatrol damaged loaded) ∧
      afterPatrol.tree.nodes = [3, 4, 5] ∧
      (∀ k < onPatrol.forest.size, afterPatrol.forest.node? k = onPatrol.forest.node? k) ∧
      afterPatrol.forest.aliveParent? (afterPatrol.handles [0]) 1 = some 0 ∧
      (onPatrol.submit sparse byVersion (.json "[3")).2 = onPatrol := by
  obtain ⟨-, htaken, hold, hheld⟩ := submit_all_or_nothing onPatrol_reachable sparse (.value damaged)
  obtain ⟨hkept, -⟩ := submit_all_or_nothing onPatrol_reachable sparse (.json "[3")
  have hok : (onPatrol.submit sparse byVersion (.value damaged)).1 = .ok () := by decide +kernel
  obtain ⟨doc, loaded, hread, -, htaken⟩ := htaken.mp hok
  obtain rfl := Except.ok.inj hread
  have hparent := (hheld hok [0] 1 (by decide +kernel)).2
  exact ⟨onPatrol_reachable, by decide +kernel, ⟨loaded, htaken⟩, by decide +kernel, hold,
    hparent.trans (by decide +kernel), hkept .json (by decide +kernel)⟩

def listedBoard : Json :=
  .fields [("blackboard", .list [.fields [("a", Json.int 1)]]),
    ("tree", .fields [("nodes", .list []), ("root", Json.null)]), ("version", Json.text "1.1.0")]

/-- Where the host keeps only a child of the patrol, the child loses its parent to a document that
takes over. The values of a blackboard that is given as a list are values of the document, but they
do not get onto the blackboard of the tree. -/
theorem takeover_orphans :
    onPatrol.forest.Reachable ∧
      (onPatrol.submit sparse byVersion (.value damaged)).1 = .ok () ∧
      onPatrol.forest.aliveParent? (onPatrol.handles [1]) 1 = some 0 ∧
      afterPatrol.forest.Alive (afterPatrol.handles [1]) 1 ∧
      afterPatrol.forest.aliveParent? (afterPatrol.handles [1]) 1 = none ∧
      (Document.read? listedBoard).map (fun doc => doc.initialValues.get? "a") =
        some (some (Json.int 1)) ∧
      (onPatrol.submit sparse byVersion (.value listedBoard)).1 = .ok () ∧
      (onPatrol.submit sparse byVersion (.value listedBoard)).2.tree.board.get? "a" = none := by
  refine ⟨onPatrol_reachable, ?_, ?_, ?_, ?_, ?_, ?_, ?_⟩ <;> decide +kernel

end Engine

end BehaviorTree
