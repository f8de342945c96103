import BehaviorTree.BuiltIn

/-!
Behaviors for looking into a running tree. They leave on the blackboard what their node saw and
kept, under keys that carry the id of the node.
-/
namespace BehaviorTree.Probe

def put (key : String) (value : Json) (next : Routine) : Routine :=
  .editBoard (fun board => board.set key value) next

def showingCounter (kind : BuiltIn) (label : String) : Behavior where
  category := kind.category
  capacity := kind.category.capacity
  routine view := (kind.routine view).withCounter view.counter fun status counter =>
    put (label ++ view.id) (Json.int counter) (.finish status)

def repeater : Behavior := showingCounter .repeater "iteration:"

def leaf : Behavior := showingCounter .script "ticks:"

def optionalInt (n : Option Int) : Json := n.elim Json.null Json.int

def status (s : Status) : Json := Json.text s.name

/-- What a node saw during a tick: its config as whole numbers and truth values, its cursor,
children and code, and what its child and its code came to. -/
def report (view : NodeView) (child : Option Status) (own : Status) : Json :=
  let config := view.config.map fun key _ =>
    (.list [optionalInt (view.configInt? key), (view.configBool? key).elim Json.null Json.bool] : Json)
  .fields [
    ("absent", optionalInt (view.configInt? "absent")),
    ("child", child.elim Json.null status),
    ("children", Json.int view.childCount),
    ("code", view.code.elim Json.null Json.text),
    ("config", Json.ofDict config),
    ("cursor", Json.int view.cursor),
    ("own", status own)]

def conclude (view : NodeView) (child : Option Status) : Routine :=
  .runCode view.cursor fun own =>
    put ("probe:" ++ view.id) (report view child own) <|
      match view.configInt? "step" with
      | some step => .setCursor (view.cursor + step.toNat) (.finish own)
      | none => .finish own

def decorator : Behavior where
  category := .decorator
  capacity := .atMost 2
  routine view :=
    if view.childCount = 0 then conclude view none
    else .tickChild view.cursor fun child => conclude view (some child)

def bare (category : Category) : Behavior :=
  ⟨category, category.capacity, fun _ => .finish .idle⟩

end BehaviorTree.Probe
