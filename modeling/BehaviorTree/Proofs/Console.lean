import BehaviorTree.Engine
import Mathlib.Data.List.Basic

/-!
What the host of a tree does to it, and the part of an engine that is not about nodes: the state of
execution, the timer, the rate, the clock and what the observers of the state have been told. This
part, the console, goes its own way. A call moves it as the same call moves a console alone,
whatever the nodes are and whatever the executor does.
-/
namespace BehaviorTree

/-- What the host can do to a tree. Between calls it may also change nodes and values at will. -/
inductive Call where
  | start
  | pause
  | stop
  | step
  | tick
  | pump
  | setTickRate (rate : ℕ)
  | reset
  | resetAll
  | setRoot (root : Option NodeKey)
  | setNodes (nodes : List NodeKey)
  /-- Loads a document; there is none where its text cannot be read. -/
  | load (registry : Registry) (migrator : Migrator) (doc : Option Json)
  /-- Lets every armed timer fire so many times. -/
  | fire (count : UInt32)
  | watchTicks (observer : String)
  | watchState (observer : String)
  | edit (change : Forest → Forest)
  | write (change : Blackboard → Blackboard)

def Call.moves : Call → ExecutionState → ExecutionState
  | start, _ => .running
  | pause, .running => .paused
  | stop, _ => .idle
  | step, .idle => .idle
  | step, _ => .paused
  | _, state => state

def Call.observer? : Call → Option String
  | watchState observer => some observer
  | _ => none

def Notice.change? : Notice → Option (String × ExecutionState)
  | changed observer state => some (observer, state)
  | ticked _ _ => none

namespace Engine

variable {σ : Type}

def begin (rate : ℕ) (first : TimerId) (forest : Forest) (memory : σ) : Engine σ :=
  ⟨.new rate, forest, ⟨first, []⟩, memory, []⟩

def call (ex : Executor σ) (e : Engine σ) : Call → Engine σ
  | .start => e.start
  | .pause => e.pause
  | .stop => e.stop
  | .step => (e.step ex).2
  | .tick => (e.tick ex).2
  | .pump => (e.pump ex).2
  | .setTickRate rate => e.setTickRate rate
  | .reset => e.reset
  | .resetAll => e.resetAll
  | .setRoot root => { e with tree := { e.tree with root } }
  | .setNodes nodes => { e with tree := { e.tree with nodes } }
  | .load registry migrator doc =>
    match doc.map (e.load registry migrator) with
    | some (.ok e) => e
    | _ => e
  | .fire count => { e with clock := e.clock.fire count }
  | .watchTicks observer =>
    { e with tree := { e.tree with tickObservers := e.tree.tickObservers ++ [observer] } }
  | .watchState observer =>
    { e with tree := { e.tree with stateObservers := e.tree.stateObservers ++ [observer] } }
  | .edit change => { e with forest := change e.forest }
  | .write change => { e with tree := { e.tree with board := change e.tree.board } }

def run (ex : Executor σ) (e : Engine σ) (calls : List Call) : Engine σ := calls.foldl (call ex) e

end Engine

structure Console where
  state : ExecutionState
  timer : Option TimerId
  rate : ℕ
  clock : ManualClock
  observers : List String
  /-- The changes of state that observers have been told, with the observer. -/
  told : List (String × ExecutionState)

namespace Console

def enter (c : Console) (state : ExecutionState) : Console :=
  if c.state = state then c
  else { c with state, told := c.told ++ c.observers.map fun o => (o, state) }

def disarm (c : Console) : Console :=
  match c.timer with
  | some timer => { c with clock := c.clock.disarm timer, timer := none }
  | none => c

def arm (c : Console) : Console :=
  let c := c.disarm
  let (timer, clock) := c.clock.arm (TickRate.interval c.rate)
  { c with clock, timer := some timer }

def poll (c : Console) : Console :=
  match c.timer with
  | some timer =>
    if c.state = .running then { c with clock := (c.clock.poll timer).2 } else c
  | none => c

def act (c : Console) : Call → Console
  | .start => if c.state = .running then c else c.arm.enter .running
  | .pause => if c.state = .running then c.disarm.enter .paused else c
  | .stop => c.disarm.enter .idle
  | .step =>
    (if c.state = .running then c.disarm else c).enter (if c.state = .idle then .idle else .paused)
  | .pump => c.poll
  | .setTickRate rate =>
    if c.state = .running then { c with rate := TickRate.clamp rate : Console }.arm
    else { c with rate := TickRate.clamp rate }
  | .fire count => { c with clock := c.clock.fire count }
  | .watchState observer => { c with observers := c.observers ++ [observer] }
  | .tick | .reset | .resetAll | .setRoot _ | .setNodes _ | .load .. | .watchTicks _ | .edit _
  | .write _ => c

end Console

namespace Engine

variable {σ : Type}

def console (e : Engine σ) : Console :=
  ⟨e.tree.state, e.tree.timer, e.tree.rate, e.clock, e.tree.stateObservers,
    e.notices.filterMap Notice.change?⟩

theorem console_announce (e : Engine σ) (status : Status) :
    (e.announce status).console = e.console := by
  have hticked : (e.tree.tickObservers.map fun o => Notice.ticked o status).filterMap
      Notice.change? = [] := by
    simp [List.filterMap_map, Function.comp_def, Notice.change?]
  simp only [console, announce, List.filterMap_append, hticked, List.append_nil]

theorem console_restart (e : Engine σ) (k : NodeKey) (status : Status) :
    (e.restart k status).console = e.console := by
  unfold restart
  split <;> rfl

theorem console_foldl {α : Type} (change : Engine σ → α → Engine σ)
    (h : ∀ e x, (change e x).console = e.console) (e : Engine σ) (xs : List α) :
    (xs.foldl change e).console = e.console := by
  induction xs generalizing e with
  | nil => rfl
  | cons x rest ih => rw [List.foldl_cons, ih, h]

/-- The console does not notice how nodes are ticked. -/
theorem console_tickNodes (ex : Executor σ) (e : Engine σ) (keys : List NodeKey) :
    (e.tickNodes ex keys).2.console = e.console := by
  induction keys generalizing e with
  | nil => rfl
  | cons k rest ih => exact ih (e.tickNode ex k).2

/-- A pass is about nodes and values alone. -/
theorem console_tick (ex : Executor σ) (e : Engine σ) : (e.tick ex).2.console = e.console := by
  unfold tick
  split
  · rfl
  · simp only [tickRoot]
    rw [console_restart, console_announce]
    rfl
  · simp only [tickStarts]
    rw [console_announce, console_foldl _ (fun e (p : NodeKey × Status) =>
      console_restart e p.1 p.2), console_tickNodes]
    rfl

theorem console_tickTimes (ex : Executor σ) (count : ℕ) (e : Engine σ) :
    (tickTimes ex count e).console = e.console := by
  induction count generalizing e with
  | zero => rfl
  | succ count ih => rw [tickTimes, ih, console_tick]

theorem console_reset (e : Engine σ) : e.reset.console = e.console := by
  simp only [reset]
  cases e.tree.root <;> rfl

theorem console_resetAll (e : Engine σ) : e.resetAll.console = e.console :=
  (console_foldl resetNode (fun _ _ => rfl) _ _).trans (console_reset e)

theorem console_load {e : Engine σ} {registry : Registry} {migrator : Migrator} {doc : Json}
    {e' : Engine σ} (h : e.load registry migrator doc = .ok e') : e'.console = e.console := by
  unfold load at h
  split at h
  · obtain rfl := Except.ok.inj h
    rfl
  · exact absurd h (by simp)

theorem console_ite (e : Engine σ) (state : ExecutionState) (e₁ e₂ : Engine σ) :
    (if e.tree.state = state then e₁ else e₂).console =
      if e.console.state = state then e₁.console else e₂.console :=
  apply_ite console _ _ _

/-- Observers are told of a change of state by the console alone. -/
theorem console_setState (e : Engine σ) (state : ExecutionState) :
    (e.setState state).console = e.console.enter state := by
  have hchanged : (e.tree.stateObservers.map fun o => Notice.changed o state).filterMap
      Notice.change? = e.tree.stateObservers.map fun o => (o, state) := by
    simp [List.filterMap_map, Function.comp_def, Notice.change?]
  rw [setState, console_ite, Console.enter]
  simp only [console, List.filterMap_append, hchanged]
  rfl

theorem console_disarmTimer (e : Engine σ) : e.disarmTimer.console = e.console.disarm := by
  cases htimer : e.tree.timer with
  | none => simp only [disarmTimer, Console.disarm, console, htimer]
  | some timer => simp only [disarmTimer, Console.disarm, console, htimer]

theorem console_armTimer (e : Engine σ) : e.armTimer.console = e.console.arm := by
  have h := console_disarmTimer e
  unfold Console.arm
  rw [← h]
  rfl

/-- A pump is a poll of the timer, as far as the console is concerned. -/
theorem console_pump (ex : Executor σ) (e : Engine σ) :
    (e.pump ex).2.console = e.console.poll := by
  cases htimer : e.tree.timer with
  | none => simp only [pump, Console.poll, console, htimer]
  | some timer =>
    have hheld : e.console.timer = some timer := htimer
    simp only [pump, Console.poll, htimer, hheld, apply_ite Prod.snd, console_ite,
      console_tickTimes]
    simp only [console, htimer]

/-- A step is the same to the console as to the engine. -/
theorem console_step (ex : Executor σ) (e : Engine σ) :
    (e.step ex).2.console = e.console.act .step := by
  simp only [step, console_setState, console_tick, console_ite, console_disarmTimer]
  rfl

theorem console_setTickRate (e : Engine σ) (rate : ℕ) :
    (e.setTickRate rate).console = e.console.act (.setTickRate rate) := by
  rw [setTickRate, console_ite, console_armTimer]
  rfl

/-- A call moves the console as if there were nothing else. -/
theorem console_call (ex : Executor σ) (e : Engine σ) (c : Call) :
    (e.call ex c).console = e.console.act c := by
  cases c with
  | start =>
    simp only [call, start, Console.act, console_ite, console_setState, console_armTimer]
  | pause =>
    simp only [call, pause, Console.act, console_ite, console_setState, console_disarmTimer]
  | stop =>
    have hclear : (e.disarmTimer.resetAll.clearBoard).console = e.console.disarm :=
      (console_resetAll _).trans (console_disarmTimer e)
    simp only [call, stop, Console.act, console_setState, hclear]
  | step => exact console_step ex e
  | tick => exact console_tick ex e
  | pump => exact console_pump ex e
  | setTickRate rate => exact console_setTickRate e rate
  | reset => exact console_reset e
  | resetAll => exact console_resetAll e
  | load registry migrator doc =>
    simp only [call, Console.act]
    split
    · next e' h =>
      obtain ⟨doc, -, hload⟩ := Option.map_eq_some_iff.mp h
      exact console_load hload
    · rfl
  | setRoot | setNodes | fire | watchTicks | watchState | edit | write => rfl

/-- A run moves the console as if there were nothing else. -/
theorem console_run (ex : Executor σ) (e : Engine σ) (calls : List Call) :
    (e.run ex calls).console = calls.foldl Console.act e.console := by
  induction calls generalizing e with
  | nil => rfl
  | cons c rest ih =>
    have hrest := ih (e.call ex c)
    rw [console_call] at hrest
    exact hrest

end Engine

end BehaviorTree
