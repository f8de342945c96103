import BehaviorTree.Proofs.LoadedForest
import BehaviorTree.Proofs.Rewording
import BehaviorTree.Proofs.Twins
import Mathlib.Data.List.Forall2

/-!
Runs of engines whose nodes are written in different words. The engines are the same but for that,
and are called alike: the calls are the same, or load documents whose records make nodes in other
words, or edit the nodes in a way that keeps them alike. Then nothing tells the engines apart
afterwards. Where the nodes have the same room for children, loading alike documents makes the same
nodes with the same edges.
-/
namespace BehaviorTree

open Forest

variable {σ τ : Type} {R : NodeSpec → NodeSpec → Prop}

namespace Loading

variable {registry : Registry} {migrator : Migrator} {f g : Forest} {kept kept' : Kept}
  {doc doc' : Json}

/-- A record of the same node, whatever the type has to say about it, in other words. -/
structure RecordAlike (registry : Registry) (R : NodeSpec → NodeSpec → Prop) (r s : Record) :
    Prop where
  id : s.id = r.id
  typeName : s.typeName = r.typeName
  children : s.children = r.children
  spec : ∀ fresh, registry.build? r.typeName r.id = some fresh →
    R (r.applyTo fresh) (s.applyTo fresh)

/-- What loading takes from the two documents differs in the words of records at most. -/
structure DocumentAlike (registry : Registry) (R : NodeSpec → NodeSpec → Prop) (doc doc' : Json) :
    Prop where
  records : List.Forall₂
    (fun raw raw' => Option.Rel (RecordAlike registry R) (Record.read? raw) (Record.read? raw'))
    (recordsOf doc) (recordsOf doc')
  root : rootOf doc' = rootOf doc
  values : valuesOf doc' = valuesOf doc
  metadata : metadataOf doc' = metadataOf doc

/-- The migrator refuses both documents for the same reasons, or it makes documents of them that
differ in the words of records at most. -/
structure SubmittedAlike (registry : Registry) (migrator : Migrator)
    (R : NodeSpec → NodeSpec → Prop) (doc doc' : Json) : Prop where
  problems : migrator.problems doc' = migrator.problems doc
  refused : ∀ e, migrator.migrate doc = .error e → migrator.migrate doc' = .error e
  migrated : ∀ new, migrator.migrate doc = .ok new →
    ∃ new', migrator.migrate doc' = .ok new' ∧ DocumentAlike registry R new new'

/-- Both documents are refused for the same reason, or the same nodes and edges are made of them. -/
inductive LoadedAlike (R : NodeSpec → NodeSpec → Prop) :
    Except LoadError (Loaded × Forest) → Except LoadError (Loaded × Forest) → Prop
  | ok {f g : Forest} (loaded : Loaded) (h : f.Alike R g) :
      LoadedAlike R (.ok (loaded, f)) (.ok (loaded, g))
  | error (e : LoadError) : LoadedAlike R (.error e) (.error e)

structure EntryAlike (e e' : Record × NodeKey) : Prop where
  id : e'.1.id = e.1.id
  children : e'.1.children = e.1.children
  key : e'.2 = e.2

theorem find?_alike (h : List.Forall₂ EntryAlike kept kept') (id : String) :
    find? kept' id = find? kept id := by
  unfold find?
  induction h with
  | nil => rfl
  | cons he _ ih =>
    rw [List.find?_cons, List.find?_cons, he.id]
    split
    · rw [Option.map_some, Option.map_some, he.key]
    · exact ih

theorem create_alike (hf : f.Alike R g) (hkept : List.Forall₂ EntryAlike kept kept')
    {raw raw' : Json}
    (hraw : Option.Rel (RecordAlike registry R) (Record.read? raw) (Record.read? raw')) :
    (create registry (f, kept) raw).1.Alike R (create registry (g, kept') raw').1 ∧
      List.Forall₂ EntryAlike (create registry (f, kept) raw).2
        (create registry (g, kept') raw').2 := by
  simp only [create]
  generalize Record.read? raw = o at hraw
  generalize Record.read? raw' = o' at hraw
  cases hraw with
  | none => exact ⟨hf, hkept⟩
  | @some r s hrs =>
    simp only [find?_alike hkept, hrs.id, hrs.typeName]
    by_cases hseen : (find? kept r.id).isSome = true
    · simp only [if_pos hseen]
      exact ⟨hf, hkept⟩
    · simp only [if_neg hseen]
      cases hbuild : registry.build? r.typeName r.id with
      | none => exact ⟨hf, hkept⟩
      | some fresh =>
        refine ⟨hf.add (hrs.spec fresh hbuild), List.rel_append hkept (.cons ?_ .nil)⟩
        exact ⟨hrs.id, hrs.children, hf.size⟩

/-- The first pass makes the same nodes in other words. -/
theorem foldl_create_alike {raws raws' : List Json}
    (hraws : List.Forall₂
      (fun raw raw' => Option.Rel (RecordAlike registry R) (Record.read? raw) (Record.read? raw'))
      raws raws')
    (hf : f.Alike R g) (hkept : List.Forall₂ EntryAlike kept kept') :
    (raws.foldl (create registry) (f, kept)).1.Alike R
        (raws'.foldl (create registry) (g, kept')).1 ∧
      List.Forall₂ EntryAlike (raws.foldl (create registry) (f, kept)).2
        (raws'.foldl (create registry) (g, kept')).2 := by
  induction hraws generalizing f g kept kept' with
  | nil => exact ⟨hf, hkept⟩
  | cons hraw _ ih =>
    obtain ⟨hmade, hlisted⟩ := create_alike hf hkept hraw
    exact ih hmade hlisted

variable (hroom : ∀ s t, R s t → t.capacity = s.capacity)
include hroom

theorem wireRecord_alike (hf : f.Alike R g) (hkept : List.Forall₂ EntryAlike kept kept')
    {e e' : Record × NodeKey} (he : EntryAlike e e') :
    (wireRecord kept f e).Alike R (wireRecord kept' g e') := by
  rw [wireRecord, wireRecord, he.children, he.key]
  refine List.foldl_rel hf fun id _ f' g' h' => ?_
  rw [wireChild, wireChild, find?_alike hkept]
  cases find? kept id with
  | none => exact h'
  | some k => exact (h'.adopt hroom e.2 k).2

/-- Of both documents the same nodes and edges are made. -/
theorem build_alike (hf : f.Alike R g) (hdoc : DocumentAlike registry R doc doc') :
    (build registry g doc').1 = (build registry f doc).1 ∧
      (build registry f doc).2.Alike R (build registry g doc').2 := by
  obtain ⟨hmade, hkept⟩ := foldl_create_alike hdoc.records hf .nil
  have hkeys : ((recordsOf doc').foldl (create registry) (g, [])).2.map (·.2) =
      ((recordsOf doc).foldl (create registry) (f, [])).2.map (·.2) := by
    refine List.forall₂_eq_eq_eq ▸ ?_
    rw [List.forall₂_map_left_iff, List.forall₂_map_right_iff]
    exact (hkept.imp fun _ _ he => he.key).flip
  constructor
  · simp only [build, hkeys, hdoc.root, hdoc.values, hdoc.metadata, funext (find?_alike hkept)]
  · refine List.rel_foldl (P := Forest.Alike R) ?_ hmade hkept
    exact fun f' g' h e e' he => wireRecord_alike hroom h hkept he

/-- Both documents are refused for the same reason, or loaded alike. -/
theorem load_alike (hf : f.Alike R g) (hdoc : SubmittedAlike registry migrator R doc doc') :
    LoadedAlike R (load registry migrator f doc) (load registry migrator g doc') := by
  simp only [load, hdoc.problems]
  cases migrator.problems doc with
  | cons problem rest => exact .error _
  | nil =>
    cases hmigrated : migrator.migrate doc with
    | error e =>
      rw [hdoc.refused e hmigrated]
      exact .error _
    | ok new =>
      obtain ⟨new', hnew', halike⟩ := hdoc.migrated new hmigrated
      obtain ⟨hloaded, hbuilt⟩ := build_alike hroom hf halike
      simp only [hnew']
      generalize build registry f new = made at hloaded hbuilt
      generalize build registry g new' = made' at hloaded hbuilt
      obtain ⟨loaded, f'⟩ := made
      obtain ⟨loaded', g'⟩ := made'
      obtain rfl := hloaded
      exact .ok _ hbuilt

end Loading

/-- Two engines that are the same except for the words of their nodes. -/
structure Engine.Alike (R : NodeSpec → NodeSpec → Prop) (e d : Engine σ) : Prop where
  forest : e.forest.Alike R d.forest
  tree : d.tree = e.tree
  clock : d.clock = e.clock
  memory : d.memory = e.memory
  notices : d.notices = e.notices

def Call.KeepsForest : Call → Prop
  | load .. | edit _ => False
  | _ => True

inductive Call.Alike (R : NodeSpec → NodeSpec → Prop) : Call → Call → Prop
  | same {c : Call} (h : c.KeepsForest) : Call.Alike R c c
  | load {registry : Registry} {migrator : Migrator} {doc doc' : Json}
      (hroom : ∀ s t, R s t → t.capacity = s.capacity)
      (h : Loading.SubmittedAlike registry migrator R doc doc') :
      Call.Alike R (.load registry migrator (some doc)) (.load registry migrator (some doc'))
  | edit {change change' : Forest → Forest}
      (h : ∀ f g : Forest, f.Alike R g → (change f).Alike R (change' g)) :
      Call.Alike R (.edit change) (.edit change')

namespace Engine.Alike

variable {e d : Engine σ} {k : NodeKey} (h : e.Alike R d)
include h

theorem resetNode (k : NodeKey) : (e.resetNode k).Alike R (d.resetNode k) :=
  { h with forest := h.forest.reset k }

theorem restart (k : NodeKey) (status : Status) :
    (e.restart k status).Alike R (d.restart k status) := by
  unfold Engine.restart
  split
  · exact h.resetNode k
  · exact h

theorem countPass : e.countPass.Alike R d.countPass :=
  { h with tree := by simp only [Engine.countPass, h.tree] }

theorem announce (status : Status) : (e.announce status).Alike R (d.announce status) :=
  { h with notices := by simp only [Engine.announce, h.tree, h.notices] }

theorem setState (state : ExecutionState) : (e.setState state).Alike R (d.setState state) := by
  simp only [Engine.setState, h.tree]
  split
  · exact h
  · exact { h with tree := rfl, notices := by simp only [h.notices] }

theorem disarmTimer : e.disarmTimer.Alike R d.disarmTimer := by
  simp only [Engine.disarmTimer, h.tree]
  split
  · exact { h with tree := rfl, clock := by simp only [h.clock] }
  · exact h

theorem armTimer : e.armTimer.Alike R d.armTimer := by
  have hd := h.disarmTimer
  exact
    { hd with
      tree := by simp only [Engine.armTimer, hd.tree, hd.clock]
      clock := by simp only [Engine.armTimer, hd.tree, hd.clock] }

theorem setTickRate (rate : ℕ) : (e.setTickRate rate).Alike R (d.setTickRate rate) := by
  have hrate : (e.rated rate).Alike R (d.rated rate) :=
    { h with tree := by simp only [rated, h.tree] }
  rw [setTickRate_eq, setTickRate_eq, h.tree]
  split
  · exact hrate.armTimer
  · exact hrate

section

variable (hruns : ∀ s t, R s t → s.RunsLike t)
include hruns

/-- The start nodes are the same and in the same order. -/
theorem startNodes : d.startNodes = e.startNodes := by
  rw [Engine.startNodes, Engine.startNodes, h.tree, h.forest.startNodes hruns]

theorem tickNode (ex : Executor σ) (k : NodeKey) :
    (d.tickNode ex k).1 = (e.tickNode ex k).1 ∧
      (e.tickNode ex k).2.Alike R (d.tickNode ex k).2 := by
  obtain ⟨hstatus, hworld, hforest⟩ := h.forest.tick hruns ex k ⟨e.tree.board, e.memory⟩
  simp only [Engine.tickNode, h.tree, h.memory]
  exact ⟨hstatus,
    { forest := hforest
      tree := by simp only [hworld]
      clock := h.clock
      memory := congrArg World.memory hworld
      notices := h.notices }⟩

theorem tickNodes (ex : Executor σ) (keys : List NodeKey) :
    (d.tickNodes ex keys).1 = (e.tickNodes ex keys).1 ∧
      (e.tickNodes ex keys).2.Alike R (d.tickNodes ex keys).2 := by
  induction keys generalizing e d with
  | nil => exact ⟨rfl, h⟩
  | cons k rest ih =>
    obtain ⟨hstatus, hfirst⟩ := h.tickNode hruns ex k
    obtain ⟨hstatuses, hrest⟩ := ih hfirst
    exact ⟨List.cons_eq_cons.mpr ⟨hstatus, hstatuses⟩, hrest⟩

/-- A pass comes to the same and leaves both engines alike. -/
theorem tick (ex : Executor σ) :
    (d.tick ex).1 = (e.tick ex).1 ∧ (e.tick ex).2.Alike R (d.tick ex).2 := by
  simp only [Engine.tick, h.startNodes hruns, h.tree]
  split
  · exact ⟨rfl, h⟩
  · next root _ _ =>
    obtain ⟨hstatus, hticked⟩ := h.countPass.tickNode hruns ex root
    simp only [tickRoot, hstatus]
    exact ⟨trivial, (hticked.announce _).restart root _⟩
  · obtain ⟨hstatuses, hticked⟩ := h.countPass.tickNodes hruns ex e.startNodes
    simp only [tickStarts, hstatuses]
    refine ⟨trivial, announce ?_ _⟩
    exact List.foldl_rel hticked fun p _ e' d' h' => h'.restart p.1 p.2

theorem tickTimes (ex : Executor σ) (count : ℕ) :
    (e.tickTimes ex count).Alike R (d.tickTimes ex count) := by
  induction count generalizing e d with
  | zero => exact h
  | succ count ih => exact ih (h.tick hruns ex).2

theorem pump (ex : Executor σ) :
    (d.pump ex).1 = (e.pump ex).1 ∧ (e.pump ex).2.Alike R (d.pump ex).2 := by
  simp only [Engine.pump, h.tree, h.clock]
  split
  · next timer _ =>
    split
    · have hpolled : { e with clock := (e.clock.poll timer).2 }.Alike R
          { d with tree := e.tree, clock := (e.clock.poll timer).2 } :=
        { h with tree := rfl, clock := rfl }
      exact ⟨rfl, hpolled.tickTimes hruns ex _⟩
    · exact ⟨rfl, h⟩
  · exact ⟨rfl, h⟩

theorem step (ex : Executor σ) :
    (d.step ex).1 = (e.step ex).1 ∧ (e.step ex).2.Alike R (d.step ex).2 := by
  have hprior : (if e.tree.state = .running then e.disarmTimer else e).Alike R
      (if e.tree.state = .running then d.disarmTimer else d) := by
    split
    · exact h.disarmTimer
    · exact h
  obtain ⟨hstatus, hticked⟩ := hprior.tick hruns ex
  simp only [Engine.step, h.tree]
  exact ⟨hstatus, hticked.setState _⟩

omit hruns in
theorem reset : e.reset.Alike R d.reset := by
  have hzero : e.recounted.Alike R d.recounted :=
    { h with tree := by simp only [recounted, h.tree] }
  rw [reset_eq, reset_eq, h.tree]
  cases e.tree.root with
  | none => exact hzero
  | some root => exact hzero.resetNode root

theorem resetAll : e.resetAll.Alike R d.resetAll := by
  have hreset := h.reset
  simp only [Engine.resetAll, hreset.startNodes hruns]
  exact List.foldl_rel hreset fun k _ e' d' h' => h'.resetNode k

theorem stop : e.stop.Alike R d.stop := by
  have hall := h.disarmTimer.resetAll hruns
  have hcleared : e.disarmTimer.resetAll.clearBoard.Alike R d.disarmTimer.resetAll.clearBoard :=
    { hall with tree := by simp only [clearBoard, hall.tree] }
  exact hcleared.setState .idle

/-- A call to one of them and the same in other words to the other leave them alike. -/
theorem call (ex : Executor σ) {c c' : Call} (hc : c.Alike R c') :
    (e.call ex c).Alike R (d.call ex c') := by
  cases hc with
  | edit hchange => exact { h with forest := hchange _ _ h.forest }
  | @load registry migrator doc doc' hroom hdoc =>
    have hload := Loading.load_alike hroom h.forest hdoc
    simp only [Engine.call, Engine.load, Option.map_some]
    generalize Loading.load registry migrator e.forest doc = made at hload
    generalize Loading.load registry migrator d.forest doc' = made' at hload
    cases hload with
    | error _ => exact h
    | ok loaded hforest =>
      exact
        { h with
          forest := hforest
          tree := by simp only [replace, h.tree] }
  | same hkeeps =>
    cases c with
    | start =>
      simp only [Engine.call, start, h.tree]
      split
      · exact h
      · exact h.armTimer.setState .running
    | pause =>
      simp only [Engine.call, pause, h.tree]
      split
      · exact h.disarmTimer.setState .paused
      · exact h
    | stop => exact h.stop hruns
    | step => exact (h.step hruns ex).2
    | tick => exact (h.tick hruns ex).2
    | pump => exact (h.pump hruns ex).2
    | setTickRate rate => exact h.setTickRate rate
    | reset => exact h.reset
    | resetAll => exact h.resetAll hruns
    | setRoot root => exact { h with tree := by simp only [Engine.call, h.tree] }
    | setNodes nodes => exact { h with tree := by simp only [Engine.call, h.tree] }
    | fire count => exact { h with clock := by simp only [Engine.call, h.clock] }
    | watchTicks observer => exact { h with tree := by simp only [Engine.call, h.tree] }
    | watchState observer => exact { h with tree := by simp only [Engine.call, h.tree] }
    | write change => exact { h with tree := by simp only [Engine.call, h.tree] }
    | load | edit => exact hkeeps.elim

/-- Whatever the host does, the engines stay alike. -/
theorem run (ex : Executor σ) {calls calls' : List Call}
    (hcalls : List.Forall₂ (Call.Alike R) calls calls') :
    (e.run ex calls).Alike R (d.run ex calls') := by
  induction hcalls generalizing e d with
  | nil => exact h
  | cons hc _ ih => exact ih (h.call hruns ex hc)

/-- Nobody sees a difference in a pass, nor in what the executor is asked for. -/
theorem report (ex : Executor σ) : (d.observe ex).1 = (e.observe ex).1 := by
  have hlogged : (e.withLog ([] : List Sent)).Alike R (d.withLog []) :=
    { forest := h.forest
      tree := h.tree
      clock := h.clock
      memory := congrArg (·, []) h.memory
      notices := h.notices }
  obtain ⟨hstatus, hticked⟩ := hlogged.tick hruns ex.recording
  simp only [observe, hstatus, hticked.tree, hticked.memory]

end

end Engine.Alike

end BehaviorTree
