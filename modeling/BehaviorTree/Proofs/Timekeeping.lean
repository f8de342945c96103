import BehaviorTree.Proofs.Console
import Mathlib.Data.List.Destutter

/-!
Keeping time. A tree that is running holds the only timer of its clock, which fires at the current
rate, and any other tree leaves the clock without timers. An observer of states is told the states
that the calls lead to, without repetitions: each call is told once, if it comes to another state,
and nothing that happens in between.
-/
namespace BehaviorTree

namespace TickRate

theorem slowest_le_clamp (rate : ℕ) : slowest ≤ clamp rate := Nat.le_max_left _ _

theorem clamp_le_fastest (rate : ℕ) : clamp rate ≤ fastest := by
  unfold clamp slowest fastest
  omega

theorem clamp_of_le {rate : ℕ} (hslow : slowest ≤ rate) (hfast : rate ≤ fastest) :
    clamp rate = rate := by
  unfold clamp
  rw [Nat.min_eq_right hfast, Nat.max_eq_right hslow]

end TickRate

namespace Console

variable {c : Console}

/-- A console without a timer, on a clock without timers. -/
structure Quiet (c : Console) : Prop where
  timer : c.timer = none
  timers : c.clock.timers = []

/-- A console with the only timer of its clock, which fires at the current rate. -/
structure Ticking (c : Console) : Prop where
  alone : ∃ id pending, c.timer = some id ∧
    c.clock.timers = [(id, ⟨TickRate.interval c.rate, pending⟩)]

/-- The timers are those of the state of execution, and the rate is within its bounds. -/
structure Orderly (c : Console) : Prop where
  ticking : c.state = .running → c.Ticking
  quiet : c.state ≠ .running → c.Quiet
  slowest : TickRate.slowest ≤ c.rate
  fastest : c.rate ≤ TickRate.fastest

@[simp] theorem enter_state (c : Console) (state : ExecutionState) :
    (c.enter state).state = state := by
  unfold enter
  split
  · assumption
  · rfl

@[simp] theorem enter_timer (c : Console) (state : ExecutionState) :
    (c.enter state).timer = c.timer := by
  unfold enter
  split <;> rfl

@[simp] theorem enter_clock (c : Console) (state : ExecutionState) :
    (c.enter state).clock = c.clock := by
  unfold enter
  split <;> rfl

@[simp] theorem enter_rate (c : Console) (state : ExecutionState) :
    (c.enter state).rate = c.rate := by
  unfold enter
  split <;> rfl

@[simp] theorem enter_observers (c : Console) (state : ExecutionState) :
    (c.enter state).observers = c.observers := by
  unfold enter
  split <;> rfl

/-- Disarming is about the timer and the clock alone. -/
theorem disarm_keeps (c : Console) : c.disarm.state = c.state ∧ c.disarm.rate = c.rate ∧
    c.disarm.observers = c.observers ∧ c.disarm.told = c.told := by
  unfold disarm
  split <;> exact ⟨rfl, rfl, rfl, rfl⟩

/-- Arming a timer concerns nothing but timer and clock. -/
theorem arm_keeps (c : Console) : c.arm.state = c.state ∧ c.arm.rate = c.rate ∧
    c.arm.observers = c.observers ∧ c.arm.told = c.told :=
  disarm_keeps c

theorem disarm_withRate (c : Console) (rate : ℕ) :
    ({ c with rate } : Console).disarm = { c.disarm with rate } := by
  cases htimer : c.timer <;> simp only [disarm, htimer]

theorem poll_keeps (c : Console) : c.poll.state = c.state ∧ c.poll.rate = c.rate ∧
    c.poll.observers = c.observers ∧ c.poll.told = c.told := by
  unfold poll
  split
  · split <;> exact ⟨rfl, rfl, rfl, rfl⟩
  · exact ⟨rfl, rfl, rfl, rfl⟩

theorem Quiet.disarm (h : c.Quiet) : c.disarm.Quiet := by
  have hsame : c.disarm = c := by simp only [Console.disarm, h.timer]
  rwa [hsame]

theorem Ticking.disarm (h : c.Ticking) : c.disarm.Quiet := by
  obtain ⟨id, pending, htimer, htimers⟩ := h.alone
  constructor
  · simp only [Console.disarm, htimer]
  · simp [Console.disarm, htimer, ManualClock.disarm, removeTimer, htimers]

theorem Orderly.disarm (h : c.Orderly) : c.disarm.Quiet := by
  by_cases hrun : c.state = .running
  · exact (h.ticking hrun).disarm
  · exact (h.quiet hrun).disarm

/-- A timer that is armed takes the place of an earlier one. -/
theorem Quiet.arm (h : c.disarm.Quiet) : c.arm.Ticking := by
  refine ⟨c.disarm.clock.nextId, 0, rfl, ?_⟩
  simp [Console.arm, ManualClock.arm, h.timers]

theorem Quiet.enter (h : c.Quiet) (state : ExecutionState) : (c.enter state).Quiet :=
  ⟨by rw [enter_timer, h.timer], by rw [enter_clock, h.timers]⟩

theorem Ticking.enter (h : c.Ticking) (state : ExecutionState) : (c.enter state).Ticking :=
  ⟨by simpa only [enter_timer, enter_clock, enter_rate] using h.alone⟩

theorem Ticking.fire (h : c.Ticking) (count : UInt32) :
    { c with clock := c.clock.fire count : Console }.Ticking := by
  obtain ⟨id, pending, htimer, htimers⟩ := h.alone
  exact ⟨id, pending + count, htimer, by simp [ManualClock.fire, htimers]⟩

theorem Ticking.poll (h : c.Ticking) (hrun : c.state = .running) : c.poll.Ticking := by
  obtain ⟨id, pending, htimer, htimers⟩ := h.alone
  refine ⟨id, 0, ?_, ?_⟩
  · simp [Console.poll, htimer, if_pos hrun]
  · simp [Console.poll, htimer, if_pos hrun, ManualClock.poll, updateTimer, htimers]

/-- The state that an orderly console comes to, with the timers that go with it. -/
theorem Orderly.leave (h : c.Orderly) {state : ExecutionState} (hstate : state ≠ .running) :
    (c.disarm.enter state).Orderly where
  ticking hrun := absurd (by simpa using hrun) hstate
  quiet _ := h.disarm.enter state
  slowest := by simpa [(disarm_keeps c).2.1] using h.slowest
  fastest := by simpa [(disarm_keeps c).2.1] using h.fastest

/-- Every call keeps a console in order. -/
theorem Orderly.act (h : c.Orderly) (call : Call) : (c.act call).Orderly := by
  cases call with
  | start =>
    simp only [Console.act]
    split
    · exact h
    · exact
        { ticking := fun _ => h.disarm.arm.enter .running
          quiet := fun hrest => absurd (enter_state _ _) hrest
          slowest := by simpa [(arm_keeps c).2.1] using h.slowest
          fastest := by simpa [(arm_keeps c).2.1] using h.fastest }
  | pause =>
    simp only [Console.act]
    split
    · exact h.leave (by decide)
    · exact h
  | stop => exact h.leave (by decide)
  | step =>
    have hnext : (if c.state = .idle then ExecutionState.idle else .paused) ≠ .running := by
      split <;> decide
    simp only [Console.act]
    by_cases hrun : c.state = .running
    · rw [if_pos hrun]
      exact h.leave hnext
    · rw [if_neg hrun]
      exact
        { ticking := fun hrun => absurd (by simpa using hrun) hnext
          quiet := fun _ => (h.quiet hrun).enter _
          slowest := by simpa using h.slowest
          fastest := by simpa using h.fastest }
  | pump =>
    simp only [Console.act]
    by_cases hrun : c.state = .running
    · exact
        { ticking := fun _ => (h.ticking hrun).poll hrun
          quiet := fun hrest => absurd ((poll_keeps c).1.trans hrun) hrest
          slowest := (poll_keeps c).2.1 ▸ h.slowest
          fastest := (poll_keeps c).2.1 ▸ h.fastest }
    · have hsame : c.poll = c := by simp only [Console.poll, (h.quiet hrun).timer]
      rwa [hsame]
  | setTickRate rate =>
    simp only [Console.act]
    by_cases hrun : c.state = .running
    · have hquiet : ({ c with rate := TickRate.clamp rate } : Console).disarm.Quiet :=
        disarm_withRate c _ ▸ ⟨h.disarm.timer, h.disarm.timers⟩
      have hkeeps := arm_keeps { c with rate := TickRate.clamp rate }
      rw [if_pos hrun]
      exact
        { ticking := fun _ => hquiet.arm
          quiet := fun hrest => absurd (hkeeps.1.trans hrun) hrest
          slowest := hkeeps.2.1 ▸ TickRate.slowest_le_clamp rate
          fastest := hkeeps.2.1 ▸ TickRate.clamp_le_fastest rate }
    · rw [if_neg hrun]
      exact
        { ticking := fun hrun' => absurd hrun' hrun
          quiet := fun _ => ⟨(h.quiet hrun).timer, (h.quiet hrun).timers⟩
          slowest := TickRate.slowest_le_clamp rate
          fastest := TickRate.clamp_le_fastest rate }
  | fire count =>
    exact
      { ticking := fun hrun => (h.ticking hrun).fire count
        quiet := fun hrest => ⟨(h.quiet hrest).timer, by
          simp [Console.act, ManualClock.fire, (h.quiet hrest).timers]⟩
        slowest := h.slowest
        fastest := h.fastest }
  | watchState observer =>
    exact
      { ticking := fun hrun => ⟨(h.ticking hrun).alone⟩
        quiet := fun hrest => ⟨(h.quiet hrest).timer, (h.quiet hrest).timers⟩
        slowest := h.slowest
        fastest := h.fastest }
  | tick | reset | resetAll | setRoot | setNodes | load | watchTicks | edit | write => exact h

/-- An orderly console stays orderly, whatever the host does. -/
theorem Orderly.run (h : c.Orderly) (calls : List Call) : (calls.foldl Console.act c).Orderly := by
  induction calls generalizing c with
  | nil => exact h
  | cons call rest ih => exact ih (h.act call)

/-- A call leads to the state that it stands for. -/
theorem act_state (c : Console) (call : Call) : (c.act call).state = call.moves c.state := by
  cases call with
  | start =>
    simp only [act, Call.moves]
    split
    · assumption
    · exact enter_state _ _
  | pause =>
    simp only [act]
    split
    · next h => rw [enter_state, h]; rfl
    · next h => cases hstate : c.state <;> simp_all [Call.moves]
  | stop => exact enter_state _ _
  | step => cases hstate : c.state <;> simp [act, Call.moves, hstate]
  | pump => exact (poll_keeps c).1
  | setTickRate rate =>
    simp only [act, Call.moves]
    split
    · exact (arm_keeps _).1
    · rfl
  | tick | reset | resetAll | setRoot | setNodes | load | watchTicks | edit | write | fire
  | watchState => rfl

def heard (c : Console) (observer : String) : List ExecutionState :=
  (c.told.filter fun t => t.1 = observer).map Prod.snd

variable {o : String}

/-- Every change is told to an observer as often as it has been added. -/
theorem heard_enter (c : Console) (o : String) (state : ExecutionState) :
    (c.enter state).heard o =
      c.heard o ++ if c.state = state then [] else .replicate (c.observers.count o) state := by
  unfold enter
  split
  · exact (List.append_nil _).symm
  · simp [heard, List.filter_map, Function.comp_def, List.filter_eq]

/-- Only a call that adds an observer changes who is told. -/
theorem observers_act (c : Console) (call : Call) :
    (c.act call).observers = c.observers ++ call.observer?.toList := by
  cases call with
  | start | pause | setTickRate =>
    simp only [act]
    split <;> simp [Call.observer?, disarm_keeps, arm_keeps]
  | stop => simp [act, Call.observer?, disarm_keeps]
  | step =>
    simp only [act, enter_observers]
    split <;> simp [Call.observer?, disarm_keeps]
  | pump => simp [act, Call.observer?, poll_keeps]
  | tick | reset | resetAll | setRoot | setNodes | load | watchTicks | edit | write | fire =>
    simp [act, Call.observer?]
  | watchState => rfl

/-- An observer is told the state that a call leads to, if it is another one. -/
theorem heard_act (c : Console) (o : String) (call : Call) :
    (c.act call).heard o = c.heard o ++
      if c.state = (c.act call).state then []
      else .replicate (c.observers.count o) (c.act call).state := by
  have hstill {d : Console} (hstate : d.state = c.state) (htold : d.told = c.told) :
      d.heard o = c.heard o ++
        if c.state = d.state then [] else .replicate (c.observers.count o) d.state := by
    rw [if_pos hstate.symm, List.append_nil, heard, htold, heard]
  have henter {d : Console} (hkeeps : d.state = c.state ∧ d.observers = c.observers ∧
      d.told = c.told) (state : ExecutionState) :
      (d.enter state).heard o = c.heard o ++
        if c.state = (d.enter state).state then []
        else .replicate (c.observers.count o) (d.enter state).state := by
    rw [heard_enter, hkeeps.1, hkeeps.2.1, enter_state, heard, hkeeps.2.2, heard]
  have hdisarm := disarm_keeps c
  cases call with
  | start =>
    simp only [act]
    split
    · exact hstill rfl rfl
    · exact henter ⟨(arm_keeps c).1, (arm_keeps c).2.2⟩ _
  | pause =>
    simp only [act]
    split
    · exact henter ⟨hdisarm.1, hdisarm.2.2⟩ _
    · exact hstill rfl rfl
  | stop => exact henter ⟨hdisarm.1, hdisarm.2.2⟩ _
  | step =>
    simp only [act]
    by_cases hrun : c.state = .running
    · simpa only [if_pos hrun] using henter ⟨hdisarm.1, hdisarm.2.2⟩ _
    · simpa only [if_neg hrun] using henter ⟨rfl, rfl, rfl⟩ _
  | pump => exact hstill (poll_keeps c).1 (poll_keeps c).2.2.2
  | setTickRate rate =>
    simp only [act]
    split
    · exact hstill (arm_keeps _).1 (arm_keeps _).2.2.2
    · exact hstill rfl rfl
  | tick | reset | resetAll | setRoot | setNodes | load | watchTicks | edit | write | fire
  | watchState => exact hstill rfl rfl

theorem count_act (c : Console) {call : Call} (h : call.observer? ≠ some o) :
    (c.act call).observers.count o = c.observers.count o := by
  rw [observers_act, List.count_append]
  cases hadded : call.observer? with
  | none => rfl
  | some name =>
    have hother : name ≠ o := fun heq => h (heq ▸ hadded)
    simp [hother]

theorem count_run (c : Console) {calls : List Call} (h : ∀ call ∈ calls, call.observer? ≠ some o) :
    (calls.foldl act c).observers.count o = c.observers.count o := by
  induction calls generalizing c with
  | nil => rfl
  | cons call rest ih =>
    rw [List.foldl_cons, ih _ fun call hmem => h call (List.mem_cons_of_mem _ hmem)]
    exact count_act c (h call List.mem_cons_self)

/-- Nobody is told anything before being added. -/
theorem heard_run_of_absent (h : c.observers.count o = 0) {calls : List Call}
    (hcalls : ∀ call ∈ calls, call.observer? ≠ some o) :
    (calls.foldl act c).heard o = c.heard o := by
  induction calls generalizing c with
  | nil => rfl
  | cons call rest ih =>
    have hcount := (count_act c (hcalls call List.mem_cons_self)).trans h
    rw [List.foldl_cons, ih hcount fun call hmem => hcalls call (List.mem_cons_of_mem _ hmem),
      heard_act, h]
    simp

/-- An observer is told the states that the calls lead to, without repetitions. -/
theorem heard_run (h : c.observers.count o = 1) {calls : List Call}
    (hcalls : ∀ call ∈ calls, call.observer? ≠ some o) :
    ∃ told, (calls.foldl act c).heard o = c.heard o ++ told ∧
      c.state :: told = ((calls.scanl act c).map state).destutter (· ≠ ·) := by
  induction calls generalizing c with
  | nil => exact ⟨[], by simp, by simp⟩
  | cons call rest ih =>
    have hcount := (count_act c (hcalls call List.mem_cons_self)).trans h
    have hrest : ∀ call ∈ rest, call.observer? ≠ some o :=
      fun call hmem => hcalls call (List.mem_cons_of_mem _ hmem)
    obtain ⟨told, hheard, htold⟩ := ih hcount hrest
    have hfirst : (rest.scanl act (c.act call)).map state =
        (c.act call).state :: ((rest.scanl act (c.act call)).map state).tail := by
      cases rest <;> simp
    rw [hfirst, List.destutter_cons'] at htold
    rw [List.foldl_cons, hheard, heard_act, h, List.append_assoc, List.scanl_cons, List.map_cons,
      hfirst, List.destutter_cons_cons]
    by_cases hsame : c.state = (c.act call).state
    · refine ⟨told, by rw [if_pos hsame, List.nil_append], ?_⟩
      rw [if_neg (not_not.mpr hsame), hsame]
      exact htold
    · refine ⟨(c.act call).state :: told, by rw [if_neg hsame]; rfl, ?_⟩
      rw [if_pos hsame, htold]

end Console

/-- Leaving repetitions out keeps the last element. -/
theorem getLast?_destutter {α : Type} [DecidableEq α] (xs : List α) :
    (xs.destutter (· ≠ ·)).getLast? = xs.getLast? := by
  match xs with
  | [] => rfl
  | [x] => rfl
  | x :: y :: rest =>
    have ih := getLast?_destutter (y :: rest)
    rw [List.destutter_cons'] at ih
    rw [List.destutter_cons_cons, List.getLast?_cons_cons, ← ih]
    split
    · have hne : rest.destutter' (· ≠ ·) y ≠ [] := List.destutter'_ne_nil _ _
      obtain ⟨z, zs, hcons⟩ := List.exists_cons_of_ne_nil hne
      rw [hcons, List.getLast?_cons_cons]
    · next hsame => rw [not_not.mp hsame]

namespace Engine

variable {σ : Type}

def heard (e : Engine σ) (observer : String) : List ExecutionState := e.console.heard observer

/-- A running tree holds the only timer of the clock, at the current rate; any other tree holds
none, and there is none. -/
structure KeepsTime (e : Engine σ) : Prop where
  held : e.tree.timer.isSome ↔ e.tree.state = .running
  own : e.clock.timers.map Prod.fst = e.tree.timer.toList
  armed : e.clock.armed = if e.tree.state = .running then 1 else 0
  interval : e.clock.onlyInterval? =
    if e.tree.state = .running then some (TickRate.second / e.tree.rate) else none
  slowest : 1 ≤ e.tree.rate
  fastest : e.tree.rate ≤ 60
  /-- A tree that is given up takes its timer with it. -/
  dropped : e.drop.clock.armed = 0

/-- Orderly engines keep time. -/
theorem keepsTime_of_orderly {e : Engine σ} (h : e.console.Orderly) : e.KeepsTime := by
  have hdropped : e.drop.console = e.console.disarm := console_disarmTimer e
  have hquiet : e.drop.clock.timers = [] :=
    (congrArg (fun c => c.clock.timers) hdropped).trans h.disarm.timers
  have hclamp : TickRate.clamp e.tree.rate = e.tree.rate := TickRate.clamp_of_le h.slowest h.fastest
  by_cases hrun : e.tree.state = .running
  · obtain ⟨id, pending, htimer, htimers⟩ : ∃ id pending, e.tree.timer = some id ∧
        e.clock.timers = [(id, ⟨TickRate.interval e.tree.rate, pending⟩)] := (h.ticking hrun).alone
    exact
      { held := by simp [htimer, hrun]
        own := by simp [htimer, htimers]
        armed := by simp [ManualClock.armed, htimers, hrun]
        interval := by
          simp only [ManualClock.onlyInterval?, htimers, if_pos hrun, TickRate.interval, hclamp]
        slowest := h.slowest
        fastest := h.fastest
        dropped := by rw [ManualClock.armed, hquiet, List.length_nil] }
  · have htimer : e.tree.timer = none := (h.quiet hrun).timer
    have htimers : e.clock.timers = [] := (h.quiet hrun).timers
    exact
      { held := by simp [htimer, hrun]
        own := by simp [htimer, htimers]
        armed := by simp [ManualClock.armed, htimers, hrun]
        interval := by simp only [ManualClock.onlyInterval?, htimers, if_neg hrun]
        slowest := h.slowest
        fastest := h.fastest
        dropped := by rw [ManualClock.armed, hquiet, List.length_nil] }

theorem begin_orderly (rate : ℕ) (first : TimerId) (forest : Forest) (memory : σ) :
    (begin rate first forest memory).console.Orderly where
  ticking hrun := nomatch hrun
  quiet _ := ⟨rfl, rfl⟩
  slowest := TickRate.slowest_le_clamp rate
  fastest := TickRate.clamp_le_fastest rate

/-- What an observer who is added at one point has been told later on, after some more calls. -/
structure Informs (ex : Executor σ) (added : Engine σ) (calls : List Call) (o : String) : Prop where
  /-- The state at first and what was told since are the states that the calls led to, without
  repetitions. -/
  changes : added.tree.state :: (added.run ex calls).heard o =
    ((calls.scanl (call ex) added).map (·.tree.state)).destutter (· ≠ ·)
  distinct : (added.tree.state :: (added.run ex calls).heard o).IsChain (· ≠ ·)
  latest : (added.tree.state :: (added.run ex calls).heard o).getLast? =
    some (added.run ex calls).tree.state
  /-- A step pauses a running tree and changes the state of no other one. -/
  step : ((added.run ex calls).step ex).2.heard o = (added.run ex calls).heard o ++
    if (added.run ex calls).tree.state = .running then [.paused] else []

/-- The state of execution is a matter of the calls alone. -/
theorem state_run (ex : Executor σ) (e : Engine σ) (calls : List Call) :
    (e.run ex calls).tree.state = calls.foldl (fun state c => c.moves state) e.tree.state := by
  induction calls generalizing e with
  | nil => rfl
  | cons c rest ih =>
    have hstate : (e.call ex c).tree.state = c.moves e.tree.state :=
      (congrArg Console.state (console_call ex e c)).trans (e.console.act_state c)
    rw [List.foldl_cons, ← hstate]
    exact ih (e.call ex c)

theorem map_scanl_console (ex : Executor σ) (e : Engine σ) (calls : List Call) :
    (calls.scanl (call ex) e).map (·.tree.state) =
      (calls.scanl Console.act e.console).map Console.state := by
  induction calls generalizing e with
  | nil => rfl
  | cons c rest ih =>
    rw [List.scanl_cons, List.map_cons, ih, console_call, List.scanl_cons, List.map_cons]
    rfl

/-- An observer is told of all changes that come after it has been added. -/
theorem informs {ex : Executor σ} {added : Engine σ} {o : String} {calls : List Call}
    (hone : added.console.observers.count o = 1) (hfirst : added.heard o = [])
    (hcalls : ∀ c ∈ calls, c.observer? ≠ some o) : Informs ex added calls o := by
  obtain ⟨told, hheard, hchanges⟩ := added.console.heard_run hone hcalls
  have hall : (added.run ex calls).heard o = told := by
    rw [heard, console_run, hheard]
    exact congrArg (· ++ told) hfirst
  have hstates := hchanges.trans (congrArg _ (map_scanl_console ex added calls).symm)
  rw [← hall] at hstates
  refine ⟨hstates, ?_, ?_, ?_⟩
  · have hchain := List.isChain_destutter (· ≠ ·)
      ((calls.scanl (call ex) added).map (·.tree.state))
    rwa [← hstates] at hchain
  · have hlast := getLast?_destutter ((calls.scanl (call ex) added).map (·.tree.state))
    rw [← hstates, List.getLast?_map, List.getLast?_scanl] at hlast
    exact hlast
  · have hcount : (added.run ex calls).console.observers.count o = 1 := by
      rw [console_run, Console.count_run _ hcalls, hone]
    have hmoves : (if (added.run ex calls).console.state =
          Call.step.moves (added.run ex calls).console.state then []
        else [Call.step.moves (added.run ex calls).console.state]) =
        if (added.run ex calls).tree.state = .running then [ExecutionState.paused] else [] := by
      have hstate : (added.run ex calls).console.state = (added.run ex calls).tree.state := rfl
      rw [hstate]
      cases (added.run ex calls).tree.state <;> rfl
    rw [heard, console_step, Console.heard_act, hcount, Console.act_state, List.replicate_one,
      hmoves]
    rfl

/-- Whatever the host does, the tree keeps time and its state of execution is the one that the calls
lead to. Whoever observes the states is told each of them once, from the time of being added. -/
theorem timekeeping (ex : Executor σ) (rate : ℕ) (first : TimerId) (forest : Forest) (memory : σ)
    (calls : List Call) :
    let fresh := begin rate first forest memory
    (fresh.run ex calls).KeepsTime ∧
      (fresh.run ex calls).tree.state = calls.foldl (fun state c => c.moves state) .idle ∧
      ∀ before o after, calls = before ++ .watchState o :: after →
        (∀ c ∈ before ++ after, c.observer? ≠ some o) →
        Informs ex (fresh.run ex (before ++ [.watchState o])) after o := by
  intro fresh
  refine ⟨?_, state_run ex fresh calls, ?_⟩
  · apply keepsTime_of_orderly
    rw [console_run]
    exact (begin_orderly rate first forest memory).run calls
  · intro before o after hcalls hother
    have hbefore : ∀ c ∈ before, c.observer? ≠ some o := fun c hc => hother c (by simp [hc])
    have hafter : ∀ c ∈ after, c.observer? ≠ some o := fun c hc => hother c (by simp [hc])
    have hconsole : (fresh.run ex (before ++ [.watchState o])).console =
        (before.foldl Console.act fresh.console).act (.watchState o) := by
      rw [console_run, List.foldl_append]
      rfl
    apply informs _ _ hafter
    · rw [hconsole, Console.observers_act, List.count_append, Console.count_run _ hbefore]
      simp [Call.observer?]
      rfl
    · rw [heard, hconsole]
      exact Console.heard_run_of_absent rfl hbefore

/-- An observer of a tree that is started, stepped while it is running, started and stopped. -/
theorem timekeeping_ordinaryDay :
    let fresh := begin 10 0 .empty ()
    let after : List Call :=
      [.tick, .start, .fire 2, .pump, .setTickRate 500, .step, .step, .start, .start, .stop, .pause]
    (∀ c ∈ [Call.stop] ++ after, c.observer? ≠ some "screen") ∧
      Informs .null (fresh.run .null [.stop, .watchState "screen"]) after "screen" ∧
      (fresh.run .null (.stop :: .watchState "screen" :: after)).heard "screen" =
        [.running, .paused, .running, .idle] := by
  intro fresh after
  have hother : ∀ c ∈ [Call.stop] ++ after, c.observer? ≠ some "screen" := by
    simp only [after]
    decide
  refine ⟨hother, (timekeeping .null 10 0 .empty () (.stop :: .watchState "screen" :: after)).2.2
    [.stop] "screen" after rfl hother, ?_⟩
  rw [heard, console_run]
  simp only [after]
  decide +kernel

end Engine

end BehaviorTree
