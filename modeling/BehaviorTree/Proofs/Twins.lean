import BehaviorTree.Proofs.Copies
import BehaviorTree.Proofs.Timekeeping

/-!
Twins. Two engines are in step when the second one has a copy of everything that the first one
ticks, in the same run states, and is the same otherwise. The keys of nodes and the numbers of
timers are each engine's own, and so is what had been told before. Every call that leaves the nodes
in place keeps twins in step, so a host who does the same to both never learns which one it has.
-/
namespace BehaviorTree

open Forest

variable {σ τ : Type}

def Call.KeepsTree : Call → Prop
  | setRoot _ | setNodes _ | load .. | edit _ => False
  | _ => True

namespace Engine

variable {e d : Engine σ} {φ : NodeKey → NodeKey} {keys : List NodeKey}
  {past : List Notice} {k : NodeKey}

/-- Two clocks with the timers of two trees, one each. Either neither tree has a timer or both have
one, and the timers are alike but for their numbers. -/
inductive SameTimers (timer : Option TimerId) (clock : ManualClock) (timer' : Option TimerId)
    (clock' : ManualClock) : Prop where
  | quiet (h : timer = none) (h' : timer' = none) (hclock : clock.timers = [])
      (hclock' : clock'.timers = [])
  | ticking (i j : TimerId) (t : ManualTimer) (h : timer = some i) (h' : timer' = some j)
      (hclock : clock.timers = [(i, t)]) (hclock' : clock'.timers = [(j, t)])

namespace SameTimers

variable {timer timer' : Option TimerId} {clock clock' : ManualClock} {i j : TimerId}
  {t : ManualTimer}

theorem arm (hclock : clock.timers = []) (hclock' : clock'.timers = []) {interval interval' : ℕ}
    (hinterval : interval' = interval) :
    SameTimers (some (clock.arm interval).1) (clock.arm interval).2 (some (clock'.arm interval').1)
      (clock'.arm interval').2 := by
  have harmed : (clock.arm interval).2.timers = [(clock.nextId, ⟨interval, 0⟩)] := by
    rw [ManualClock.arm, hclock, List.nil_append]
  have harmed' : (clock'.arm interval').2.timers = [(clock'.nextId, ⟨interval, 0⟩)] := by
    rw [ManualClock.arm, hclock', hinterval, List.nil_append]
  exact .ticking _ _ _ rfl rfl harmed harmed'

theorem timers_disarm (h : clock.timers = [(i, t)]) : (clock.disarm i).timers = [] := by
  simp [ManualClock.disarm, removeTimer, h]

theorem timers_fire (h : clock.timers = [(i, t)]) (count : UInt32) :
    (clock.fire count).timers = [(i, { t with pending := t.pending + count })] := by
  rw [ManualClock.fire, h, List.map_singleton]

theorem fire (h : SameTimers timer clock timer' clock') (count : UInt32) :
    SameTimers timer (clock.fire count) timer' (clock'.fire count) := by
  cases h with
  | quiet hnone hnone' hclock hclock' =>
    refine .quiet hnone hnone' ?_ ?_
    · rw [ManualClock.fire, hclock, List.map_nil]
    · rw [ManualClock.fire, hclock', List.map_nil]
  | ticking i j t hi hj hclock hclock' =>
    exact .ticking i j _ hi hj (timers_fire hclock count) (timers_fire hclock' count)

theorem poll_eq (h : clock.timers = [(i, t)]) : (clock.poll i).1 = t.pending ∧
    (clock.poll i).2.timers = [(i, { t with pending := 0 })] := by
  constructor
  · simp [ManualClock.poll, ManualClock.pending, h]
  · simp [ManualClock.poll, updateTimer, h]

end SameTimers

def recounted (e : Engine σ) : Engine σ := { e with tree := { e.tree with tickCount := 0 } }

theorem reset_eq (e : Engine σ) :
    e.reset = e.tree.root.elim e.recounted e.recounted.resetNode := rfl

def rated (e : Engine σ) (rate : ℕ) : Engine σ :=
  { e with tree := { e.tree with rate := TickRate.clamp rate } }

theorem setTickRate_eq (e : Engine σ) (rate : ℕ) : e.setTickRate rate =
    if e.tree.state = .running then (e.rated rate).armTimer else e.rated rate := rfl

/-- Two engines in step. What the first one is about to tick has a copy in the second one, and all
else that a host can see of them is the same, but for what had been told before. -/
structure Twins (φ : NodeKey → NodeKey) (keys : List NodeKey) (past : List Notice)
    (e d : Engine σ) : Prop where
  forest : e.forest.Twin d.forest φ keys
  root : d.tree.root = e.tree.root.map φ
  nodes : d.tree.nodes = e.tree.nodes.map φ
  rooted : ∀ r ∈ e.tree.root, r ∈ keys
  started : ∀ s ∈ e.startNodes, s ∈ keys
  listed : ∀ k ∈ e.tree.nodes,
    (d.forest.node? (φ k)).map (·.spec) = (e.forest.node? k).map (·.spec)
  board : d.tree.board = e.tree.board
  memory : d.memory = e.memory
  count : d.tree.tickCount = e.tree.tickCount
  state : d.tree.state = e.tree.state
  rate : d.tree.rate = e.tree.rate
  tickObservers : d.tree.tickObservers = e.tree.tickObservers
  stateObservers : d.tree.stateObservers = e.tree.stateObservers
  timers : SameTimers e.tree.timer e.clock d.tree.timer d.clock
  notices : e.notices = past ++ d.notices

namespace Twins

variable (h : e.Twins φ keys past d)
include h

/-- The start nodes of the second engine are the copies of those of the first. -/
theorem startNodes : d.startNodes = e.startNodes.map φ := Tree.startNodes_map h.nodes h.listed

/-- Only run states change. -/
theorem withForest {f g : Forest} (hf : e.forest.SameButStates f) (hg : d.forest.SameButStates g)
    (hfg : f.Twin g φ keys) : { e with forest := f }.Twins φ keys past { d with forest := g } where
  __ := h
  forest := hfg
  started := by
    have hstarts : ({ e with forest := f } : Engine σ).startNodes = e.startNodes :=
      hf.startNodes e.tree
    rw [hstarts]
    exact h.started
  listed k hk := by
    have hspec := h.listed k hk
    rw [← hf.spec?, ← hg.spec?] at hspec
    exact hspec

theorem countPass : e.countPass.Twins φ keys past d.countPass where
  __ := h
  count := congrArg (· + 1) h.count

theorem announce (status : Status) : (e.announce status).Twins φ keys past (d.announce status) where
  __ := h
  notices := by
    simp only [Engine.announce, h.notices, h.tickObservers, List.append_assoc]

theorem resetNode (hk : k ∈ keys) : (e.resetNode k).Twins φ keys past (d.resetNode (φ k)) :=
  h.withForest (reset_sameButStates e.forest k) (reset_sameButStates d.forest (φ k))
    (h.forest.reset (mem_under hk))

theorem restart (hk : k ∈ keys) (status : Status) :
    (e.restart k status).Twins φ keys past (d.restart (φ k) status) := by
  unfold Engine.restart
  split
  · exact h.resetNode hk
  · exact h

theorem restarts {ended : List NodeKey} (hended : ∀ k ∈ ended, k ∈ keys)
    (statuses : List Status) :
    ((ended.zip statuses).foldl (fun e p => e.restart p.1 p.2) e).Twins φ keys past
      (((ended.map φ).zip statuses).foldl (fun d p => d.restart p.1 p.2) d) := by
  induction ended generalizing statuses e d with
  | nil => exact h
  | cons k rest ih =>
    cases statuses with
    | nil => exact h
    | cons status later =>
      exact ih (h.restart (hended k List.mem_cons_self) status)
        (fun j hj => hended j (List.mem_cons_of_mem k hj)) later

theorem tickNode (hk : k ∈ keys) (ex : Executor σ) :
    (d.tickNode ex (φ k)).1 = (e.tickNode ex k).1 ∧
      (e.tickNode ex k).2.Twins φ keys past (d.tickNode ex (φ k)).2 := by
  have hworld : (⟨d.tree.board, d.memory⟩ : World σ) = ⟨e.tree.board, e.memory⟩ := by
    rw [h.board, h.memory]
  obtain ⟨hstatus, hforest, hafter⟩ :=
    h.forest.tick (mem_under hk) ex ⟨e.tree.board, e.memory⟩
  have hticked := h.withForest (Forest.tick_sameButStates e.forest ex k ⟨e.tree.board, e.memory⟩)
    (Forest.tick_sameButStates d.forest ex (φ k) ⟨e.tree.board, e.memory⟩) hforest
  simp only [Engine.tickNode, hworld]
  exact ⟨hstatus,
    { hticked with
      board := congrArg World.board hafter
      memory := congrArg World.memory hafter }⟩

theorem tickNodes {nodes : List NodeKey} (hnodes : ∀ k ∈ nodes, k ∈ keys) (ex : Executor σ) :
    (d.tickNodes ex (nodes.map φ)).1 = (e.tickNodes ex nodes).1 ∧
      (e.tickNodes ex nodes).2.Twins φ keys past (d.tickNodes ex (nodes.map φ)).2 := by
  induction nodes generalizing e d with
  | nil => exact ⟨rfl, h⟩
  | cons k rest ih =>
    obtain ⟨hstatus, hfirst⟩ := h.tickNode (hnodes k List.mem_cons_self) ex
    obtain ⟨hstatuses, hrest⟩ := ih hfirst fun j hj => hnodes j (List.mem_cons_of_mem k hj)
    exact ⟨List.cons_eq_cons.mpr ⟨hstatus, hstatuses⟩, hrest⟩

/-- A pass of either engine comes to the same and leaves them in step. -/
theorem tick (ex : Executor σ) :
    (d.tick ex).1 = (e.tick ex).1 ∧ (e.tick ex).2.Twins φ keys past (d.tick ex).2 := by
  have hstarts := h.startNodes
  have hroot := h.root
  unfold Engine.tick
  cases hentries : e.startNodes with
  | nil =>
    rw [hentries, List.map_nil] at hstarts
    rw [hstarts]
    cases hr : e.tree.root with
    | none =>
      rw [hr, Option.map_none] at hroot
      rw [hroot]
      exact ⟨rfl, h⟩
    | some root =>
      have hkey : root ∈ keys := h.rooted root hr
      obtain ⟨hstatus, hticked⟩ := h.countPass.tickNode hkey ex
      rw [hr, Option.map_some] at hroot
      rw [hroot]
      simp only [tickRoot, hstatus]
      exact ⟨trivial, (hticked.announce _).restart hkey _⟩
  | cons s rest =>
    have hkeys : ∀ k ∈ s :: rest, k ∈ keys := hentries ▸ h.started
    obtain ⟨hstatuses, hticked⟩ := h.countPass.tickNodes hkeys ex
    have hrestarted := hticked.restarts hkeys (e.countPass.tickNodes ex (s :: rest)).1
    rw [hentries, List.map_cons] at hstarts
    rw [List.map_cons] at hstatuses hrestarted
    rw [hstarts]
    simp only [tickStarts, hstatuses]
    exact ⟨trivial, hrestarted.announce _⟩

theorem tickTimes (ex : Executor σ) (count : ℕ) :
    (e.tickTimes ex count).Twins φ keys past (d.tickTimes ex count) := by
  induction count generalizing e d with
  | zero => exact h
  | succ count ih => exact ih (h.tick ex).2

theorem setState (state : ExecutionState) :
    (e.setState state).Twins φ keys past (d.setState state) := by
  simp only [Engine.setState, h.state]
  split
  · exact h
  · exact
      { h with
        state := rfl
        notices := by simp only [h.notices, h.stateObservers, List.append_assoc] }

/-- Afterwards neither of the trees has a timer. -/
theorem disarmTimer : e.disarmTimer.Twins φ keys past d.disarmTimer ∧
    e.disarmTimer.clock.timers = [] ∧ d.disarmTimer.clock.timers = [] := by
  cases h.timers with
  | quiet hnone hnone' hclock hclock' =>
    simp only [Engine.disarmTimer, hnone, hnone']
    exact ⟨h, hclock, hclock'⟩
  | ticking i j t hi hj hclock hclock' =>
    have hleft := SameTimers.timers_disarm hclock
    have hleft' := SameTimers.timers_disarm hclock'
    simp only [Engine.disarmTimer, hi, hj]
    exact ⟨{ h with timers := .quiet rfl rfl hleft hleft' }, hleft, hleft'⟩

theorem armTimer : e.armTimer.Twins φ keys past d.armTimer := by
  obtain ⟨hdisarmed, hclock, hclock'⟩ := h.disarmTimer
  have hinterval : TickRate.interval d.disarmTimer.tree.rate =
      TickRate.interval e.disarmTimer.tree.rate := congrArg TickRate.interval hdisarmed.rate
  exact { hdisarmed with timers := .arm hclock hclock' hinterval }

theorem pump (ex : Executor σ) :
    (d.pump ex).1 = (e.pump ex).1 ∧ (e.pump ex).2.Twins φ keys past (d.pump ex).2 := by
  cases h.timers with
  | quiet hnone hnone' hclock hclock' =>
    simp only [Engine.pump, hnone, hnone']
    exact ⟨trivial, h⟩
  | ticking i j t hi hj hclock hclock' =>
    obtain ⟨hdue, hpolled⟩ := SameTimers.poll_eq hclock
    obtain ⟨hdue', hpolled'⟩ := SameTimers.poll_eq hclock'
    have htaken : { e with clock := (e.clock.poll i).2 }.Twins φ keys past
        { d with clock := (d.clock.poll j).2 } :=
      { h with timers := .ticking i j _ hi hj hpolled hpolled' }
    simp only [Engine.pump, hi, hj, h.state, hdue, hdue']
    split
    · exact ⟨rfl, htaken.tickTimes ex _⟩
    · exact ⟨rfl, h⟩

theorem resetNodes {nodes : List NodeKey} (hnodes : ∀ k ∈ nodes, k ∈ keys) :
    (nodes.foldl Engine.resetNode e).Twins φ keys past
      ((nodes.map φ).foldl Engine.resetNode d) := by
  induction nodes generalizing e d with
  | nil => exact h
  | cons k rest ih =>
    exact ih (h.resetNode (hnodes k List.mem_cons_self)) fun j hj =>
      hnodes j (List.mem_cons_of_mem k hj)

theorem reset : e.reset.Twins φ keys past d.reset := by
  have hzero : e.recounted.Twins φ keys past d.recounted := { h with count := rfl }
  rw [reset_eq, reset_eq, h.root]
  cases hr : e.tree.root with
  | none => exact hzero
  | some root => exact hzero.resetNode (h.rooted root hr)

theorem resetAll : e.resetAll.Twins φ keys past d.resetAll := by
  have hreset := h.reset
  simp only [Engine.resetAll, hreset.startNodes]
  exact hreset.resetNodes hreset.started

theorem stop : e.stop.Twins φ keys past d.stop := by
  have hcleared : e.disarmTimer.resetAll.clearBoard.Twins φ keys past
      d.disarmTimer.resetAll.clearBoard := { h.disarmTimer.1.resetAll with board := rfl }
  exact hcleared.setState .idle

theorem step (ex : Executor σ) :
    (d.step ex).1 = (e.step ex).1 ∧ (e.step ex).2.Twins φ keys past (d.step ex).2 := by
  have hprior : (if e.tree.state = .running then e.disarmTimer else e).Twins φ keys past
      (if e.tree.state = .running then d.disarmTimer else d) := by
    split
    · exact h.disarmTimer.1
    · exact h
  obtain ⟨hstatus, hticked⟩ := hprior.tick ex
  simp only [Engine.step, h.state]
  exact ⟨hstatus, hticked.setState _⟩

theorem setTickRate (rate : ℕ) :
    (e.setTickRate rate).Twins φ keys past (d.setTickRate rate) := by
  have hrate : (e.rated rate).Twins φ keys past (d.rated rate) := { h with rate := rfl }
  rw [setTickRate_eq, setTickRate_eq, h.state]
  split
  · exact hrate.armTimer
  · exact hrate

/-- The same call to both leaves them in step, as long as it is not about nodes. -/
theorem call (ex : Executor σ) {c : Call} (hc : c.KeepsTree) :
    (e.call ex c).Twins φ keys past (d.call ex c) := by
  cases c with
  | start =>
    simp only [Engine.call, start, h.state]
    split
    · exact h
    · exact h.armTimer.setState .running
  | pause =>
    simp only [Engine.call, pause, h.state]
    split
    · exact h.disarmTimer.1.setState .paused
    · exact h
  | stop => exact h.stop
  | step => exact (h.step ex).2
  | tick => exact (h.tick ex).2
  | pump => exact (h.pump ex).2
  | setTickRate rate => exact h.setTickRate rate
  | reset => exact h.reset
  | resetAll => exact h.resetAll
  | fire count => exact { h with timers := h.timers.fire count }
  | watchTicks observer =>
    exact { h with tickObservers := congrArg (· ++ [observer]) h.tickObservers }
  | watchState observer =>
    exact { h with stateObservers := congrArg (· ++ [observer]) h.stateObservers }
  | write change => exact { h with board := congrArg change h.board }
  | setRoot | setNodes | load | edit => exact hc.elim

/-- Whatever the host does with both, they stay in step. -/
theorem run (ex : Executor σ) {calls : List Call} (hcalls : ∀ c ∈ calls, c.KeepsTree) :
    (e.run ex calls).Twins φ keys past (d.run ex calls) := by
  induction calls generalizing e d with
  | nil => exact h
  | cons c rest ih =>
    exact ih (h.call ex (hcalls c List.mem_cons_self)) fun c' hc' =>
      hcalls c' (List.mem_cons_of_mem c hc')

end Twins

/-- All that a host learns of a tree, now and by its next call. -/
structure SameToHost (ex : Executor σ) (e d : Engine σ) : Prop where
  /-- The status of a pass, the requests of its nodes and the blackboard that it leaves. -/
  report : (d.observe ex).1 = (e.observe ex).1
  stepped : (d.step ex).1 = (e.step ex).1
  due : (d.pump ex).1 = (e.pump ex).1
  board : d.tree.board = e.tree.board
  memory : d.memory = e.memory
  count : d.tree.tickCount = e.tree.tickCount
  state : d.tree.state = e.tree.state
  rate : d.tree.rate = e.tree.rate
  /-- The intervals of armed timers, and what is pending of them. -/
  timers : d.clock.timers.map Prod.snd = e.clock.timers.map Prod.snd

theorem Twins.withLog (h : e.Twins φ keys past d) (log : τ) :
    (e.withLog log).Twins φ keys past (d.withLog log) where
  forest := h.forest
  root := h.root
  nodes := h.nodes
  rooted := h.rooted
  started := h.started
  listed := h.listed
  board := h.board
  memory := congrArg (·, log) h.memory
  count := h.count
  state := h.state
  rate := h.rate
  tickObservers := h.tickObservers
  stateObservers := h.stateObservers
  timers := h.timers
  notices := h.notices

/-- Engines in step are the same to their host. -/
theorem Twins.sameToHost (h : e.Twins φ keys past d) (ex : Executor σ) : e.SameToHost ex d where
  report := by
    obtain ⟨hstatus, hticked⟩ := (h.withLog []).tick ex.recording
    have hboard := hticked.board
    have hrequests := congrArg Prod.snd hticked.memory
    simp only [observe, hstatus, hboard, hrequests]
  stepped := (h.step ex).1
  due := (h.pump ex).1
  board := h.board
  memory := h.memory
  count := h.count
  state := h.state
  rate := h.rate
  timers := by
    cases h.timers with
    | quiet _ _ hclock hclock' => rw [hclock, hclock']
    | ticking i j t _ _ hclock hclock' => rw [hclock, hclock']; rfl

end Engine

end BehaviorTree
