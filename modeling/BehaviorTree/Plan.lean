import BehaviorTree.Node

/-!
Ticking a subtree. A plan is the subtree as it is written, a progress the run states of its nodes
in the same shape. A tick goes through the plan and turns one progress into the next; the plan
stays. Each child is a stepper to its parent, so a parent may tick a child as often as it likes.
-/
namespace BehaviorTree

inductive Plan where
  | node (spec : NodeSpec) (children : List Plan)

inductive Progress where
  | node (state : RunState) (children : List Progress)

namespace Progress

def state : Progress → RunState
  | node state _ => state

def children : Progress → List Progress
  | node _ children => children

mutual

def reset : Progress → Progress
  | node _ children => node .fresh (resetAll children)

def resetAll : List Progress → List Progress
  | [] => []
  | p :: rest => reset p :: resetAll rest

end

end Progress

/-- One tick of a subtree: from its progress and the world to a status and both of them after. -/
abbrev Stepper (σ : Type) := Progress → World σ → Status × Progress × World σ

/-- A node in the middle of its tick. -/
structure Ongoing (σ : Type) where
  cursor : Nat
  counter : Nat
  children : List Progress
  world : World σ

namespace Ongoing

variable {σ : Type}

def tickChild (steppers : List (Stepper σ)) (index : Nat) (o : Ongoing σ) : Status × Ongoing σ :=
  match steppers[index]?, o.children[index]? with
  | some step, some child =>
    let (status, child, world) := step child o.world
    (status, { o with children := o.children.set index child, world })
  | _, _ => (.idle, o)

def resetChild (index : Nat) (o : Ongoing σ) : Ongoing σ :=
  { o with children := o.children.modify index Progress.reset }

end Ongoing

def Routine.run {σ : Type} (ex : Executor σ) (spec : NodeSpec) (steppers : List (Stepper σ)) :
    Routine → Ongoing σ → Status × Ongoing σ
  | finish status, o => (status, o)
  | tickChild index next, o =>
    let (status, o) := o.tickChild steppers index
    (next status).run ex spec steppers o
  | resetChild index next, o => next.run ex spec steppers (o.resetChild index)
  | setCursor index next, o => next.run ex spec steppers { o with cursor := index }
  | setCounter count next, o => next.run ex spec steppers { o with counter := count }
  | runCode ticksSinceStart next, o =>
    let (status, world) := spec.execute ex ticksSinceStart o.world
    (next status).run ex spec steppers { o with world }
  | readBoard next, o => (next o.world.board).run ex spec steppers o
  | editBoard edit next, o =>
    next.run ex spec steppers { o with world := { o.world with board := edit o.world.board } }

namespace NodeSpec

def view (spec : NodeSpec) (state : RunState) (childCount : Nat) : NodeView where
  id := spec.id
  code := spec.activeCode?
  config := spec.config
  childCount := childCount
  cursor := if state.cursor < childCount then state.cursor else 0
  counter := state.counter

def step {σ : Type} (ex : Executor σ) (spec : NodeSpec) (steppers : List (Stepper σ)) :
    Stepper σ
  | .node state children, world =>
    let routine := spec.behavior.routine (spec.view state steppers.length)
    let (status, o) :=
      routine.run ex spec steppers ⟨state.cursor, state.counter, children, world⟩
    (status, .node ⟨status, o.cursor, o.counter⟩ o.children, o.world)

end NodeSpec

namespace Plan

def spec : Plan → NodeSpec
  | node spec _ => spec

def children : Plan → List Plan
  | node _ children => children

mutual

def tick {σ : Type} (ex : Executor σ) : Plan → Stepper σ
  | node spec children => spec.step ex (steppers ex children)

def steppers {σ : Type} (ex : Executor σ) : List Plan → List (Stepper σ)
  | [] => []
  | p :: rest => tick ex p :: steppers ex rest

end

mutual

def fresh : Plan → Progress
  | node _ children => .node .fresh (freshAll children)

def freshAll : List Plan → List Progress
  | [] => []
  | p :: rest => fresh p :: freshAll rest

end

end Plan

end BehaviorTree
