import BehaviorTree.Routine

/-!
The behaviors that every tree can use. Sequence and selector go through their children from left to
right and stop at the first failure or success; a parallel ticks all of its children and decides by
counting; decorators change what their only child comes to or how often it runs; a leaf has its
code run.
-/
namespace BehaviorTree

/-- Ticks so many children from an index on. The status `stop` of a child ends the round at once,
a running child suspends it, any other child lets it go on; `done` is the status at the end. -/
def roundFrom (stop done : Status) : (left index : Nat) → Routine
  | 0, _ => .setCursor 0 (.finish done)
  | left + 1, index => .tickChild index fun status =>
      if status = stop then .setCursor 0 (.finish stop)
      else if status = .running then .setCursor index (.finish .running)
      else roundFrom stop done left (index + 1)

def round (stop done : Status) (view : NodeView) : Routine :=
  roundFrom stop done (view.childCount - view.cursor) view.cursor

def fanOutFrom (decide : Nat → Nat → Status) : (left index successes failures : Nat) → Routine
  | 0, _, successes, failures => .finish (decide successes failures)
  | left + 1, index, successes, failures => .tickChild index fun status =>
      fanOutFrom decide left (index + 1)
        (if status = .success then successes + 1 else successes)
        (if status = .failure then failures + 1 else failures)

def minSuccess (view : NodeView) : Nat :=
  match view.configInt? "minSuccess" with
  | some n => if 0 ≤ n then n.toNat else view.childCount
  | none => view.childCount

def minFailure (view : NodeView) : Nat :=
  match view.configInt? "minFailure" with
  | some n => if 0 < n then n.toNat else 1
  | none => 1

def parallelStatus (minSuccess minFailure successes failures : Nat) : Status :=
  if minSuccess ≤ successes then .success
  else if minFailure ≤ failures then .failure
  else .running

def withChild (view : NodeView) (alone : Status) (routine : Routine) : Routine :=
  if view.childCount = 0 then .finish alone else routine

def Status.inverted : Status → Status
  | success => failure
  | failure => success
  | running => running
  | idle => idle

/-- Runs the child to its end so many times. The counter holds how often it has ended. -/
def repeatFrom : (left done : Nat) → Routine
  | 0, _ => .setCounter 0 (.finish .success)
  | left + 1, done => .tickChild 0 fun status =>
      if status = .running then .finish .running
      else .setCounter (done + 1) <| .resetChild 0 <|
        if status = .failure then .setCounter 0 (.finish .failure)
        else repeatFrom left (done + 1)

def repeatCount (view : NodeView) : Nat := ((view.configInt? "count").getD 3).toNat

def repeatForever : Routine :=
  .tickChild 0 fun status =>
    if status.isTerminal then .resetChild 0 (.finish .running) else .finish .running

def untilStatus (goal : Status) : Routine :=
  .tickChild 0 fun status =>
    if status = goal then .finish .success
    else if status = goal.inverted then .resetChild 0 (.finish .running)
    else .finish .running

def runScript (view : NodeView) : Routine :=
  match view.code with
  | none => .setCounter 0 (.finish .success)
  | some _ => .runCode view.counter fun status =>
      .setCounter (if status = .running then view.counter + 1 else 0) (.finish status)

inductive BuiltIn where
  | sequence
  | selector
  | parallel
  | inverter
  | repeater
  | untilSuccess
  | untilFail
  | start
  | script
  deriving DecidableEq, Inhabited, Repr

namespace BuiltIn

def category : BuiltIn → Category
  | sequence => .composite
  | selector => .composite
  | parallel => .composite
  | inverter => .decorator
  | repeater => .decorator
  | untilSuccess => .decorator
  | untilFail => .decorator
  | start => .decorator
  | script => .leaf

def routine (kind : BuiltIn) (view : NodeView) : Routine :=
  match kind with
  | sequence => round .failure .success view
  | selector => round .success .failure view
  | parallel =>
    if view.childCount = 0 then .finish .success
    else fanOutFrom (parallelStatus (minSuccess view) (minFailure view)) view.childCount 0 0 0
  | inverter => withChild view .failure (.tickChild 0 fun status => .finish status.inverted)
  | repeater =>
    withChild view .success <|
      if (view.configBool? "repeatForever").getD false then repeatForever
      else repeatFrom (repeatCount view - view.counter) view.counter
  | untilSuccess => withChild view .success (untilStatus .success)
  | untilFail => withChild view .success (untilStatus .failure)
  | start => withChild view .success (.tickChild 0 .finish)
  | script => runScript view

def behavior (kind : BuiltIn) : Behavior :=
  ⟨kind.category, kind.category.capacity, kind.routine⟩

end BuiltIn

end BehaviorTree
