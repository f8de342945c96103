import BehaviorTree.Proofs.Console
import BehaviorTree.Proofs.FreshRuns
import BehaviorTree.Proofs.Passes

/-!
Accounts of passes. The count of a tree is the number of passes since it was last set to zero, and
whoever observes passes is told of each of them once, with the status that it comes to. It makes no
difference to a pass whether it is a tick, a step or one of several that a timer is due for: what a
pass does to nodes and values has nothing to do with the way in which the tree is being run.
-/
namespace BehaviorTree

variable {σ : Type}

def Notice.isPass : Notice → Bool
  | ticked _ _ => true
  | changed _ _ => false

inductive Booking where
  /-- A pass, with those who observe it and the status that it comes to. -/
  | pass (observers : List String) (status : Status)
  /-- The count begins anew. -/
  | restart
  deriving DecidableEq

namespace Booking

def isPass : Booking → Bool
  | pass _ _ => true
  | restart => false

def told : Booking → List Notice
  | pass observers status => observers.map fun o => .ticked o status
  | restart => []

def counted (book : List Booking) : ℕ := (book.reverse.takeWhile isPass).length

def next (count : ℕ) : Booking → ℕ
  | pass _ _ => count + 1
  | restart => 0

/-- The passes since the last restart are counted by going through the book from its beginning. -/
theorem counted_eq_foldl (book : List Booking) : counted book = book.foldl next 0 := by
  induction book using List.reverseRecOn with
  | nil => rfl
  | append_singleton book item ih =>
    rw [List.foldl_append, ← ih, counted, List.reverse_append]
    cases item with
    | pass observers status => rfl
    | restart => rfl

end Booking

namespace Engine

variable {e : Engine σ}

def booking (ex : Executor σ) (e : Engine σ) : List Booking :=
  if e.entries = [] then [] else [.pass e.tree.tickObservers (e.tick ex).1]

def bookings (ex : Executor σ) : ℕ → Engine σ → List Booking
  | 0, _ => []
  | count + 1, e => e.booking ex ++ bookings ex count (e.tick ex).2

def booked (ex : Executor σ) (e : Engine σ) : Call → List Booking
  | .tick | .step => e.booking ex
  | .pump => e.bookings ex (e.pump ex).1.toNat
  | .stop | .reset | .resetAll => [.restart]
  | .load registry migrator doc =>
    match doc.map (e.load registry migrator) with
    | some (.ok _) => [.restart]
    | _ => []
  | .start | .pause | .setTickRate _ | .setRoot _ | .setNodes _ | .fire _ | .watchTicks _
  | .watchState _ | .edit _ | .write _ => []

def book (ex : Executor σ) : List Call → Engine σ → List Booking
  | [], _ => []
  | c :: rest, e => e.booked ex c ++ book ex rest (e.call ex c)

/-- An engine as if it were at rest. All that passes are about is as before, and so is what
observers have been told of them; nothing is left of the way in which it is being run. -/
def atRest (e : Engine σ) : Engine σ :=
  { e with
    clock := .new
    notices := e.notices.filter Notice.isPass
    tree :=
      { e.tree with
        timer := none, rate := TickRate.standard, state := .idle, stateObservers := [] } }

theorem atRest_disarmTimer (e : Engine σ) : e.disarmTimer.atRest = e.atRest := by
  unfold disarmTimer
  split <;> rfl

theorem atRest_armTimer (e : Engine σ) : e.armTimer.atRest = e.atRest :=
  (rfl : e.armTimer.atRest = e.disarmTimer.atRest).trans (atRest_disarmTimer e)

theorem atRest_setState (e : Engine σ) (state : ExecutionState) :
    (e.setState state).atRest = e.atRest := by
  have hchanged : (e.tree.stateObservers.map fun o => Notice.changed o state).filter
      Notice.isPass = [] := by
    simp [Notice.isPass]
  unfold setState
  split
  · rfl
  · simp only [atRest, List.filter_append, hchanged, List.append_nil]

theorem atRest_setTickRate (e : Engine σ) (rate : ℕ) : (e.setTickRate rate).atRest = e.atRest := by
  simp only [setTickRate, apply_ite atRest, atRest_armTimer]
  exact ite_self _

/-- Whether an engine is at rest makes no difference to what its nodes do. -/
theorem tickNodes_atRest (ex : Executor σ) (e : Engine σ) (keys : List NodeKey) :
    e.atRest.tickNodes ex keys = ((e.tickNodes ex keys).1, (e.tickNodes ex keys).2.atRest) := by
  induction keys generalizing e with
  | nil => rfl
  | cons k rest ih =>
    have hfirst : e.atRest.tickNode ex k = ((e.tickNode ex k).1, (e.tickNode ex k).2.atRest) := rfl
    simp only [tickNodes, hfirst, ih]

theorem atRest_restart (e : Engine σ) (k : NodeKey) (status : Status) :
    (e.restart k status).atRest = e.atRest.restart k status := by
  unfold restart
  split <;> rfl

theorem atRest_restarts (ended : List (NodeKey × Status)) (e : Engine σ) :
    (ended.foldl (fun e p => e.restart p.1 p.2) e).atRest =
      ended.foldl (fun e p => e.restart p.1 p.2) e.atRest := by
  induction ended generalizing e with
  | nil => rfl
  | cons p rest ih => rw [List.foldl_cons, ih, atRest_restart, List.foldl_cons]

/-- What has been told of passes after one more. -/
theorem filter_isPass_append (notices : List Notice) (observers : List String)
    (status : Status) :
    (notices ++ observers.map fun o => Notice.ticked o status).filter Notice.isPass =
      notices.filter Notice.isPass ++ observers.map fun o => Notice.ticked o status := by
  simp [Notice.isPass]

theorem atRest_announce (e : Engine σ) (status : Status) :
    (e.announce status).atRest = e.atRest.announce status := by
  simp only [atRest, announce, filter_isPass_append]

/-- A pass goes the same way however the tree is being run. -/
theorem tick_atRest (ex : Executor σ) (e : Engine σ) :
    e.atRest.tick ex = ((e.tick ex).1, (e.tick ex).2.atRest) := by
  have hstarts : e.atRest.startNodes = e.startNodes := rfl
  have hroot : e.atRest.tree.root = e.tree.root := rfl
  have hcount : e.atRest.countPass = e.countPass.atRest := rfl
  simp only [tick, hstarts, hroot]
  split
  · rfl
  · next root _ _ =>
    simp only [tickRoot, atRest_restart, atRest_announce]
    rfl
  · simp only [tickStarts, hcount, tickNodes_atRest, atRest_announce, atRest_restarts]

theorem afterTicks_atRest (ex : Executor σ) (count : ℕ) (e : Engine σ) :
    e.atRest.afterTicks ex count = (e.afterTicks ex count).atRest := by
  have hsemiconj : Function.Semiconj atRest (fun e => (e.tick ex).2) fun e => (e.tick ex).2 :=
    fun e => (congrArg Prod.snd (tick_atRest ex e)).symm
  exact ((hsemiconj.iterate_right count).eq e).symm

/-- A step is a pass. -/
theorem step_eq_tick (ex : Executor σ) (e : Engine σ) :
    (e.step ex).1 = (e.tick ex).1 ∧ (e.step ex).2.atRest = (e.tick ex).2.atRest := by
  have hprior : (if e.tree.state = .running then e.disarmTimer else e).atRest = e.atRest := by
    split
    · exact atRest_disarmTimer e
    · rfl
  -- at rest the engine is the same before the pass, so the pass is the same
  have hpass := congrArg (tick ex) hprior
  rw [tick_atRest, tick_atRest] at hpass
  have hstatus := congrArg Prod.fst hpass
  have hengine := congrArg Prod.snd hpass
  exact ⟨hstatus, (atRest_setState _ _).trans hengine⟩

/-- Pumping makes as many passes as it tells. -/
theorem pump_atRest (ex : Executor σ) (e : Engine σ) :
    (e.pump ex).2.atRest = (e.afterTicks ex (e.pump ex).1.toNat).atRest := by
  unfold pump
  split
  · next timer _ =>
    split
    · have hpolled : { e with clock := (e.clock.poll timer).2 }.atRest = e.atRest := rfl
      simp only [tickTimes_eq_afterTicks, ← afterTicks_atRest, hpolled]
    · rfl
  · rfl

def told (e : Engine σ) : List Notice := e.notices.filter Notice.isPass

/-- What has come of one engine, as far as a book accounts for it. -/
structure Accounts (e : Engine σ) (book : List Booking) (d : Engine σ) : Prop where
  count : d.tree.tickCount = book.foldl Booking.next e.tree.tickCount
  told : d.told = e.told ++ book.flatMap Booking.told

namespace Accounts

variable {d d' : Engine σ} {book book' : List Booking}

theorem refl (e : Engine σ) : e.Accounts [] e := ⟨rfl, (List.append_nil e.told).symm⟩

theorem trans (h : e.Accounts book d) (h' : d.Accounts book' d') :
    e.Accounts (book ++ book') d' where
  count := by rw [h'.count, h.count, List.foldl_append]
  told := by rw [h'.told, h.told, List.flatMap_append, List.append_assoc]

/-- The way in which a tree is run is not in its books. -/
theorem of_atRest (h : e.Accounts book d) (hrest : d'.atRest = d.atRest) : e.Accounts book d' where
  count := (congrArg (·.tree.tickCount) hrest).trans h.count
  told := (congrArg notices hrest).trans h.told

theorem pass {observers : List String} {status : Status}
    (hcount : d.tree.tickCount = e.tree.tickCount + 1)
    (hnotices : d.notices = e.notices ++ observers.map fun o => .ticked o status) :
    e.Accounts [.pass observers status] d where
  count := hcount
  told := by
    rw [Engine.told, hnotices, filter_isPass_append, List.flatMap_singleton]
    rfl

/-- The count begins anew, and nobody is told. -/
theorem restart (hcount : d.tree.tickCount = 0) (htold : d.told = e.told) :
    e.Accounts [.restart] d where
  count := hcount
  told := htold.trans (List.append_nil e.told).symm

end Accounts

/-- Only a pass as a whole counts and is told of, and not the ticks that it is made of. -/
theorem kept_tickNodes (ex : Executor σ) (e : Engine σ) (keys : List NodeKey) :
    (e.tickNodes ex keys).2.notices = e.notices ∧
      (e.tickNodes ex keys).2.tree.tickObservers = e.tree.tickObservers ∧
      (e.tickNodes ex keys).2.tree.tickCount = e.tree.tickCount := by
  induction keys generalizing e with
  | nil => exact ⟨rfl, rfl, rfl⟩
  | cons k rest ih => exact ih (e.tickNode ex k).2

theorem notices_restarts (ended : List (NodeKey × Status)) (e : Engine σ) :
    (ended.foldl (fun e p => e.restart p.1 p.2) e).notices = e.notices := by
  induction ended generalizing e with
  | nil => rfl
  | cons p rest ih =>
    rw [List.foldl_cons, ih, restart]
    split <;> rfl

/-- A pass is counted, and everyone who observes passes is told of it. Where there is nothing to
tick, nothing happens. -/
theorem accounts_tick (ex : Executor σ) (e : Engine σ) :
    e.Accounts (e.booking ex) (e.tick ex).2 := by
  unfold booking entries tick
  cases e.startNodes with
  | nil =>
    cases e.tree.root with
    | none => exact .refl e
    | some root =>
      let announced := (e.countPass.tickNode ex root).2.announce (e.tickRoot ex root).1
      have htree := (foldl_restart [(root, (e.tickRoot ex root).1)] announced).1
      have hnotices := notices_restarts [(root, (e.tickRoot ex root).1)] announced
      exact .pass (congrArg Tree.tickCount htree) hnotices
  | cons start starts =>
    obtain ⟨hnotices, hobservers, hcount⟩ := kept_tickNodes ex e.countPass (start :: starts)
    let ticked := (e.countPass.tickNodes ex (start :: starts)).2
    let ended := (start :: starts).zip (e.countPass.tickNodes ex (start :: starts)).1
    have htree := (foldl_restart ended ticked).1
    refine .pass ((congrArg Tree.tickCount htree).trans hcount) ?_
    simp only [tickStarts, announce, notices_restarts, (foldl_restart _ _).1, hnotices, hobservers]
    rfl

/-- Passes one after the other account for themselves one by one. -/
theorem accounts_afterTicks (ex : Executor σ) (count : ℕ) (e : Engine σ) :
    e.Accounts (e.bookings ex count) (e.afterTicks ex count) := by
  induction count generalizing e with
  | zero => exact .refl e
  | succ count ih => exact (accounts_tick ex e).trans (ih (e.tick ex).2)

theorem accounts_reset (e : Engine σ) : e.Accounts [.restart] e.reset := by
  simp only [reset]
  cases e.tree.root with
  | none => exact .restart rfl rfl
  | some root => exact .restart rfl rfl

theorem accounts_resetNodes (keys : List NodeKey) (e : Engine σ) :
    e.Accounts [] (keys.foldl resetNode e) := by
  induction keys generalizing e with
  | nil => exact .refl e
  | cons k rest ih =>
    have hrest := ih (e.resetNode k)
    exact ⟨hrest.count, hrest.told⟩

theorem accounts_resetAll (e : Engine σ) : e.Accounts [.restart] e.resetAll :=
  (accounts_reset e).trans (accounts_resetNodes _ e.reset)

theorem accounts_stop (e : Engine σ) : e.Accounts [.restart] e.stop := by
  have hdisarm : e.Accounts [] e.disarmTimer := (Accounts.refl e).of_atRest (atRest_disarmTimer e)
  have hreset := hdisarm.trans (accounts_resetAll e.disarmTimer)
  have hclear : e.Accounts [.restart] e.disarmTimer.resetAll.clearBoard :=
    ⟨hreset.count, hreset.told⟩
  exact hclear.of_atRest (atRest_setState _ _)

theorem accounts_load {registry : Registry} {migrator : Migrator} {doc : Json} {d : Engine σ}
    (h : e.load registry migrator doc = .ok d) : e.Accounts [.restart] d := by
  unfold load at h
  split at h
  · obtain rfl := Except.ok.inj h
    exact .restart rfl rfl
  · exact absurd h (by simp)

/-- Every call goes into the books. -/
theorem accounts_call (ex : Executor σ) (e : Engine σ) (c : Call) :
    e.Accounts (e.booked ex c) (e.call ex c) := by
  cases c with
  | start =>
    refine (Accounts.refl e).of_atRest ?_
    simp only [call, start, apply_ite atRest, atRest_setState, atRest_armTimer, ite_self]
  | pause =>
    refine (Accounts.refl e).of_atRest ?_
    simp only [call, pause, apply_ite atRest, atRest_setState, atRest_disarmTimer, ite_self]
  | setTickRate rate => exact (Accounts.refl e).of_atRest (atRest_setTickRate e rate)
  | tick => exact accounts_tick ex e
  | step => exact (accounts_tick ex e).of_atRest (step_eq_tick ex e).2
  | pump => exact (accounts_afterTicks ex _ e).of_atRest (pump_atRest ex e)
  | stop => exact accounts_stop e
  | reset => exact accounts_reset e
  | resetAll => exact accounts_resetAll e
  | load registry migrator doc =>
    simp only [call, booked]
    cases hload : doc.map (e.load registry migrator) with
    | none => exact .refl e
    | some outcome =>
      cases outcome with
      | error error => exact .refl e
      | ok d =>
        obtain ⟨doc, -, hdoc⟩ := Option.map_eq_some_iff.mp hload
        exact accounts_load hdoc
  | setRoot | setNodes | fire | watchTicks | watchState | edit | write =>
    exact ⟨rfl, (List.append_nil e.told).symm⟩

/-- Without anything to tick there is no pass. -/
theorem tick_of_nothing (ex : Executor σ) (hstarts : e.startNodes = [])
    (hroot : e.tree.root = none) :
    e.tick ex = (.idle, e) := by
  simp only [tick, hstarts, hroot]

/-- Where there is nothing to tick, passes do not change anything. -/
theorem afterTicks_of_nothing (ex : Executor σ) (hstarts : e.startNodes = [])
    (hroot : e.tree.root = none) (count : ℕ) : e.afterTicks ex count = e := by
  induction count with
  | zero => rfl
  | succ count ih =>
    rw [afterTicks, Function.iterate_succ_apply, tick_of_nothing ex hstarts hroot]
    exact ih

/-- Whatever the host does, its calls account for all that becomes of the engine. -/
theorem accounts_run (ex : Executor σ) (calls : List Call) (e : Engine σ) :
    e.Accounts (book ex calls e) (e.run ex calls) := by
  induction calls generalizing e with
  | nil => exact .refl e
  | cons c rest ih => exact (accounts_call ex e c).trans (ih (e.call ex c))

/-- Whatever is done to a tree, its count is the number of passes since it was last set to zero, and
the observers of passes have been told of each pass. Where there is nothing to tick there is no
pass. A step is a pass, and pumping is as many of them as it tells; what these do otherwise is about
the way in which the tree is run. -/
theorem passes_accounted (ex : Executor σ) (rate : ℕ) (first : TimerId) (forest : Forest)
    (memory : σ) (calls : List Call) :
    let d := begin rate first forest memory
    let e := d.run ex calls
    e.tree.tickCount = Booking.counted (book ex calls d) ∧
      e.told = (book ex calls d).flatMap Booking.told ∧
      (e.startNodes = [] → e.tree.root = none →
        e.tick ex = (.idle, e) ∧ (e.step ex).1 = .idle ∧ (e.step ex).2.atRest = e.atRest ∧
          (e.pump ex).2.atRest = e.atRest) ∧
      (e.step ex).1 = (e.tick ex).1 ∧ (e.step ex).2.atRest = (e.tick ex).2.atRest ∧
      (e.pump ex).2.atRest = (e.afterTicks ex (e.pump ex).1.toNat).atRest := by
  intro d e
  have haccounts := accounts_run ex calls d
  obtain ⟨hstatus, hengine⟩ := step_eq_tick ex e
  refine ⟨?_, haccounts.told, fun hstarts hroot => ?_, hstatus, hengine, pump_atRest ex e⟩
  · rw [Booking.counted_eq_foldl]
    exact haccounts.count
  · have hidle := tick_of_nothing ex hstarts hroot
    have hpump := pump_atRest ex e
    rw [afterTicks_of_nothing ex hstarts hroot] at hpump
    rw [hstatus, hengine, hidle]
    exact ⟨rfl, rfl, rfl, hpump⟩

def busyDay : List Call :=
  [.watchTicks "screen", .setNodes [0, 3], .setRoot (some 1), .tick, .watchTicks "log",
    .setNodes [], .start, .fire 2, .pump, .step, .reset, .tick, .setRoot none, .tick]

def busyDayAnswers : List Status := [.success, .running, .running, .success, .running]

def busyDayBook : List Booking :=
  [.pass ["screen"] .running, .pass ["screen", "log"] .running, .pass ["screen", "log"] .success,
    .pass ["screen", "log"] .success, .restart, .pass ["screen", "log"] .success]

/-- The book of that day has five passes and a restart, and observers are told nine times in all. -/
theorem passes_accounted_busyDay :
    let d := begin 10 0 startWithin busyDayAnswers
    let e := d.run Executor.scripted busyDay
    book Executor.scripted busyDay d = busyDayBook ∧ e.tree.tickCount = 1 ∧
      e.told.length = 9 ∧ e.tick Executor.scripted = (.idle, e) := by
  have hbook : book Executor.scripted busyDay (begin 10 0 startWithin busyDayAnswers) =
      busyDayBook := by decide +kernel
  have hcounted : Booking.counted busyDayBook = 1 := by decide
  have htold : (busyDayBook.flatMap Booking.told).length = 9 := by decide
  have hnothing : ((begin 10 0 startWithin busyDayAnswers).run Executor.scripted
      busyDay).startNodes = [] := by decide +kernel
  obtain ⟨hcount, htelling, hidle, -⟩ :=
    passes_accounted Executor.scripted 10 0 startWithin busyDayAnswers busyDay
  have hone := hcount.trans ((congrArg Booking.counted hbook).trans hcounted)
  have hnine := (congrArg List.length htelling).trans
    ((congrArg (fun book => (book.flatMap Booking.told).length) hbook).trans htold)
  have hrootless : ((begin 10 0 startWithin busyDayAnswers).run Executor.scripted
      busyDay).tree.root = none := by decide +kernel
  exact ⟨hbook, hone, hnine, (hidle hnothing hrootless).1⟩

end Engine

end BehaviorTree
