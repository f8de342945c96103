/-!
Clocks with periodic timers. A tree never waits; it arms a timer and asks later how often the
timer has come due since it last asked. One clock comes due only on command, the other one as time
goes by. Timers are numbered in the order of arming, and no number is given out twice.
-/
namespace BehaviorTree

abbrev TimerId := Nat

def updateTimer {α : Type} (id : TimerId) (f : α → α) (timers : List (TimerId × α)) :
    List (TimerId × α) :=
  timers.map fun t => if t.1 = id then (t.1, f t.2) else t

def removeTimer {α : Type} (id : TimerId) (timers : List (TimerId × α)) : List (TimerId × α) :=
  timers.filter fun t => t.1 ≠ id

structure ManualTimer where
  /-- Nanoseconds between two firings. -/
  interval : Nat
  /-- Firings that nobody has asked for yet. -/
  pending : UInt32
  deriving DecidableEq

structure ManualClock where
  nextId : TimerId
  timers : List (TimerId × ManualTimer)
  deriving DecidableEq

namespace ManualClock

def new : ManualClock := ⟨0, []⟩

instance : Inhabited ManualClock := ⟨new⟩

def arm (c : ManualClock) (interval : Nat) : TimerId × ManualClock :=
  (c.nextId, ⟨c.nextId + 1, c.timers ++ [(c.nextId, ⟨interval, 0⟩)]⟩)

def disarm (c : ManualClock) (id : TimerId) : ManualClock :=
  { c with timers := removeTimer id c.timers }

def fire (c : ManualClock) (count : UInt32) : ManualClock :=
  { c with timers := c.timers.map fun t => (t.1, { t.2 with pending := t.2.pending + count }) }

def pending (c : ManualClock) (id : TimerId) : UInt32 :=
  (c.timers.lookup id).elim 0 (·.pending)

def poll (c : ManualClock) (id : TimerId) : UInt32 × ManualClock :=
  (c.pending id, { c with timers := updateTimer id (fun t => { t with pending := 0 }) c.timers })

def armed (c : ManualClock) : Nat := c.timers.length

def onlyInterval? (c : ManualClock) : Option Nat :=
  match c.timers with
  | [(_, t)] => some t.interval
  | _ => none

end ManualClock

/-- A timer of a clock that goes with time: firings up to `last` have been accounted for. -/
structure SteadyTimer where
  interval : Nat
  last : Nat
  deriving DecidableEq

/-- A clock whose timers come due as time goes by. The time of each call is given to it. -/
structure SteadyClock where
  nextId : TimerId
  timers : List (TimerId × SteadyTimer)
  deriving DecidableEq

namespace SteadyClock

def new : SteadyClock := ⟨0, []⟩

instance : Inhabited SteadyClock := ⟨new⟩

def arm (c : SteadyClock) (now interval : Nat) : TimerId × SteadyClock :=
  (c.nextId, ⟨c.nextId + 1, c.timers ++ [(c.nextId, ⟨interval, now⟩)]⟩)

def disarm (c : SteadyClock) (id : TimerId) : SteadyClock :=
  { c with timers := removeTimer id c.timers }

def mostDue : Nat := Nat.pow 2 32 - 1

/-- Whole intervals since firings were last accounted for; a timer without an interval never comes
due. -/
def due (t : SteadyTimer) (now : Nat) : Nat :=
  if t.interval = 0 then 0 else min ((now - t.last) / t.interval) mostDue

def poll (c : SteadyClock) (now : Nat) (id : TimerId) : Nat × SteadyClock :=
  match c.timers.lookup id with
  | none => (0, c)
  | some t =>
    let count := due t now
    let advanced := { t with last := t.last + t.interval * count }
    (count, { c with timers := updateTimer id (fun _ => advanced) c.timers })

def nextDue? (c : SteadyClock) (id : TimerId) : Option Nat :=
  (c.timers.lookup id).map fun t => t.last + t.interval

end SteadyClock

end BehaviorTree
