import BehaviorTree.Proofs.Console
import BehaviorTree.Proofs.Independence
import BehaviorTree.Proofs.Omissions
import BehaviorTree.Proofs.Reloading
import BehaviorTree.Proofs.Visits

/-!
Passes over loaded documents. A document makes a forest whose nodes are all listed once, and they
stay so until a list is given that names a node twice. Every pass ticks each listed start node by
itself; a start node below another one is ticked by that one too, and then what is below it runs
more than once.
-/
namespace BehaviorTree

open Forest Event

variable {σ : Type}

def Call.KeepsNodes : Call → Prop
  | setNodes _ | load .. | edit _ => False
  | _ => True

namespace Engine

variable {e e' d : Engine σ}

/-- The same nodes are listed, and they are linked as before. -/
structure SameNodes (e d : Engine σ) : Prop where
  forest : e.forest.SameButStates d.forest
  nodes : d.tree.nodes = e.tree.nodes

namespace SameNodes

theorem refl (e : Engine σ) : e.SameNodes e := ⟨.refl e.forest, rfl⟩

theorem trans {d' : Engine σ} (h : e.SameNodes d) (h' : d.SameNodes d') : e.SameNodes d' :=
  ⟨h.forest.trans h'.forest, h'.nodes.trans h.nodes⟩

theorem foldl {α : Type} {change : Engine σ → α → Engine σ}
    (h : ∀ (e : Engine σ) x, e.SameNodes (change e x)) (e : Engine σ) (xs : List α) :
    e.SameNodes (xs.foldl change e) := by
  induction xs generalizing e with
  | nil => exact .refl e
  | cons x rest ih => exact (h e x).trans (ih (change e x))

theorem setState (e : Engine σ) (state : ExecutionState) : e.SameNodes (e.setState state) := by
  unfold Engine.setState
  split
  · exact .refl e
  · exact ⟨.refl e.forest, rfl⟩

theorem disarmTimer (e : Engine σ) : e.SameNodes e.disarmTimer := by
  unfold Engine.disarmTimer
  split
  · exact ⟨.refl e.forest, rfl⟩
  · exact .refl e

theorem armTimer (e : Engine σ) : e.SameNodes e.armTimer :=
  (disarmTimer e).trans ⟨.refl _, rfl⟩

theorem resetNode (e : Engine σ) (k : NodeKey) : e.SameNodes (e.resetNode k) :=
  ⟨reset_sameButStates e.forest k, rfl⟩

theorem reset (e : Engine σ) : e.SameNodes e.reset := by
  simp only [Engine.reset]
  cases e.tree.root with
  | none => exact ⟨.refl e.forest, rfl⟩
  | some root => exact ⟨reset_sameButStates e.forest root, rfl⟩

theorem resetAll (e : Engine σ) : e.SameNodes e.resetAll :=
  (reset e).trans (foldl resetNode _ _)

theorem tick (ex : Executor σ) (e : Engine σ) : e.SameNodes (e.tick ex).2 :=
  ⟨tick_sameButStates ex e, (tick_forest ex e []).2.1⟩

theorem tickTimes (ex : Executor σ) (count : ℕ) (e : Engine σ) :
    e.SameNodes (e.tickTimes ex count) := by
  induction count generalizing e with
  | zero => exact .refl e
  | succ count ih => exact (tick ex e).trans (ih (e.tick ex).2)

theorem call (ex : Executor σ) (e : Engine σ) {c : Call} (hc : c.KeepsNodes) :
    e.SameNodes (e.call ex c) := by
  cases c with
  | start =>
    simp only [Engine.call, start]
    split
    · exact .refl e
    · exact (armTimer e).trans (setState _ _)
  | pause =>
    simp only [Engine.call, pause]
    split
    · exact (disarmTimer e).trans (setState _ _)
    · exact .refl e
  | stop =>
    have hclear (e : Engine σ) : e.SameNodes e.clearBoard := ⟨.refl e.forest, rfl⟩
    exact (disarmTimer e).trans <| (resetAll _).trans <| (hclear _).trans (setState _ _)
  | step =>
    simp only [Engine.call, step]
    split
    · exact (disarmTimer e).trans <| (tick ex _).trans (setState _ _)
    · exact (tick ex e).trans (setState _ _)
  | tick => exact tick ex e
  | pump =>
    simp only [Engine.call, pump]
    split
    · split
      · next timer _ _ =>
        have hpolled : e.SameNodes { e with clock := (e.clock.poll timer).2 } :=
          ⟨.refl e.forest, rfl⟩
        exact hpolled.trans (tickTimes ex _ _)
      · exact .refl e
    · exact .refl e
  | setTickRate rate =>
    have hrate : e.SameNodes { e with tree := { e.tree with rate := TickRate.clamp rate } } :=
      ⟨.refl e.forest, rfl⟩
    simp only [Engine.call, setTickRate]
    split
    · exact hrate.trans (armTimer _)
    · exact hrate
  | reset => exact reset e
  | resetAll => exact resetAll e
  | setRoot | fire | watchTicks | watchState | write => exact ⟨.refl e.forest, rfl⟩
  | setNodes | load | edit => exact hc.elim

end SameNodes

/-- What can become of an engine by calls and by work on the nodes, as long as none is listed
twice. -/
inductive LeadsTo (e : Engine σ) : Engine σ → Prop where
  | refl : LeadsTo e e
  | call {d : Engine σ} (ex : Executor σ) {c : Call} (hc : c.KeepsNodes) (h : LeadsTo e d) :
      LeadsTo e (d.call ex c)
  | setNodes {d : Engine σ} (ex : Executor σ) {nodes : List NodeKey} (hnodes : nodes.Nodup)
      (h : LeadsTo e d) : LeadsTo e (d.call ex (.setNodes nodes))
  | edit {d : Engine σ} {g : Forest} (hstep : d.forest.Step g) (h : LeadsTo e d) :
      LeadsTo e { d with forest := g }

structure ListsOnce (e : Engine σ) : Prop where
  sound : e.forest.Sound
  nodup : e.tree.nodes.Nodup

/-- As long as none is listed twice, an engine over a sound forest stays one. -/
theorem LeadsTo.listsOnce (h : e.LeadsTo d) (he : e.ListsOnce) : d.ListsOnce := by
  induction h with
  | refl => exact he
  | @call d ex c hc _ ih =>
    have hsame := SameNodes.call ex d hc
    exact ⟨ih.sound.congr hsame.forest, hsame.nodes ▸ ih.nodup⟩
  | setNodes ex hnodes _ ih => exact ⟨ih.sound, hnodes⟩
  | edit hstep _ ih => exact ⟨step_sound hstep ih.sound, ih.nodup⟩

/-- A document makes a sound forest, and each of its nodes is listed once. -/
theorem listsOnce_of_load {registry : Registry} {migrator : Migrator} {doc : Json}
    (hf : e.forest.Reachable) (hload : e.load registry migrator doc = .ok e') :
    e'.ListsOnce := by
  obtain ⟨loaded, g, hloaded, rfl⟩ := load_eq_ok_iff.mp hload
  obtain ⟨migrated, kept, -, -, hfaithful⟩ := Loading.faithful_of_load hf hloaded
  refine ⟨⟨hfaithful.linked, hfaithful.listed_once, hfaithful.acyclic⟩, ?_⟩
  change loaded.nodes.Nodup
  rw [hfaithful.keys]
  exact List.nodup_range'

theorem nodup_startNodes (h : e.tree.nodes.Nodup) : e.startNodes.Nodup :=
  (sortBy_perm _ _).nodup_iff.mpr (h.filter _)

theorem exists_node_of_start {s : NodeKey} (hs : s ∈ e.startNodes) :
    ∃ n, e.forest.node? s = some n := by
  have hstart := isStart_of_mem hs
  cases hn : e.forest.node? s with
  | none => simp [Tree.isStart, hn] at hstart
  | some n => exact ⟨n, rfl⟩

/-- Let a document be loaded and anything be done that lists no node twice. Then a pass ticks every
start node, once if there is no other one above it; and where no node repeats anything by itself, as
none does but a repeater, the pass ticks a node and runs its code no more often than there are start
nodes that have it in their subtrees. -/
theorem pass_of_loaded {registry : Registry} {migrator : Migrator} {doc : Json}
    (hf : e.forest.Reachable) (hload : e.load registry migrator doc = .ok e') (hd : e'.LeadsTo d)
    (hstarts : d.startNodes ≠ []) (ex : Executor σ) :
    d.Visits ex ∧ ∀ kind, kind ≠ BuiltIn.repeater → kind.behavior.AtMostOnce := by
  have honce : d.ListsOnce := hd.listsOnce (listsOnce_of_load hf hload)
  have hstart : d.startNodes.Nodup := nodup_startNodes honce.nodup
  exact ⟨visits honce.sound hstart (fun s hs => exists_node_of_start hs) hstarts ex,
    fun kind => BuiltIn.atMostOnce⟩

def codeRecord (id typeName code : String) : Json :=
  .fields [("code", Json.text code), ("id", Json.text id), ("type", Json.text typeName)]

def nestedStarts : Json :=
  .fields [
    ("tree", .fields [
      ("nodes", .list [
        Loading.rawRecord "outer" "Start" ["inner"],
        Loading.rawRecord "inner" "Start" ["leaf"],
        codeRecord "leaf" "Action" "go"]),
      ("root", Json.text "outer")]),
    ("version", Json.text "1.1.0")]

def unloaded : Engine (List Status) := begin TickRate.standard 0 .empty []

/-- A pass over a start node below another one. -/
theorem pass_of_loaded_nestedStarts :
    Forest.empty.Reachable ∧
    ∃ e', unloaded.load .standard Migration.byVersion nestedStarts = .ok e' ∧
      e'.LeadsTo (e'.call Executor.scripted .tick) ∧
      (e'.call Executor.scripted .tick).startNodes = [0, 1] ∧
      (e'.call Executor.scripted .tick).Visits Executor.scripted := by
  have hempty : Forest.empty.Reachable := Relation.ReflTransGen.refl
  have hload : ∃ e', unloaded.load .standard Migration.byVersion nestedStarts = .ok e' ∧
      (e'.call Executor.scripted .tick).startNodes = [0, 1] := ⟨_, rfl, by decide +kernel⟩
  obtain ⟨e', hload, hstarts⟩ := hload
  have hled : e'.LeadsTo (e'.call Executor.scripted .tick) := .call _ trivial .refl
  have hvisits := (pass_of_loaded hempty hload hled (by rw [hstarts]; exact List.cons_ne_nil _ _)
    Executor.scripted).1
  exact ⟨hempty, e', hload, hled, hstarts, hvisits⟩

def doubling : Behavior :=
  { BuiltIn.inverter.behavior with
    routine := fun view => withChild view .success (.tickChild 0 fun _ => .tickChild 0 .finish) }

def startOfTwice : Json :=
  .fields [
    ("tree", .fields [
      ("nodes", .list [
        Loading.rawRecord "start" "Start" ["twice"],
        Loading.rawRecord "twice" "Twice" ["leaf"],
        codeRecord "leaf" "Action" "go"])]),
    ("version", Json.text "1.1.0")]

def typeNames (e : Engine σ) : List String :=
  e.tree.nodes.filterMap fun k => (e.forest.node? k).map (·.spec.typeName)

/-- The inner start node is ticked by the outer one and by itself, and so the leaf runs twice in a
pass. It also does where its parent is of a type that ticks it twice, and where a start node is
listed twice. -/
theorem loaded_pass_visits_twice :
    (∃ e', unloaded.load .standard Migration.byVersion nestedStarts = .ok e' ∧
      e'.typeNames = ["Start", "Start", "Action"] ∧ e'.startNodes = [0, 1] ∧
      ticksOf 1 (e'.eventsOfPass Executor.scripted) = 2 ∧
      requestsOf 2 (e'.eventsOfPass Executor.scripted) = 2) ∧
    (∃ e', unloaded.load (Registry.standard.register "Twice" doubling) Migration.byVersion
        startOfTwice = .ok e' ∧
      e'.typeNames = ["Start", "Twice", "Action"] ∧ e'.startNodes = [0] ∧
      requestsOf 2 (e'.eventsOfPass Executor.scripted) = 2) ∧
    ∃ e', unloaded.load .standard Migration.byVersion nestedStarts = .ok e' ∧
      (e'.call Executor.scripted (.setNodes [1, 1])).startNodes = [1, 1] ∧
      ticksOf 1 ((e'.call Executor.scripted (.setNodes [1, 1])).eventsOfPass
        Executor.scripted) = 2 :=
  ⟨⟨_, rfl, by decide +kernel, by decide +kernel, by decide +kernel, by decide +kernel⟩,
    ⟨_, rfl, by decide +kernel, by decide +kernel, by decide +kernel⟩,
    ⟨_, rfl, by decide +kernel, by decide +kernel⟩⟩

end Engine

end BehaviorTree
