import BehaviorTree.Executor

/-!
A small language for the code of leaves. A script is a line of words between spaces. Some commands
change the blackboard and let the script go on; others end it with a status. A script that ends
without a status, or goes on with a word that is no command, is in error. The executor of the
language keeps every request that it was handed.
-/
namespace BehaviorTree.LeafScript

def words (code : String) : List String :=
  ((Text.pieces ' ' code.toList).filter fun piece => !piece.isEmpty).map String.ofList

def intAt (board : Blackboard) (key : String) : Int :=
  (((board.get? key).bind Json.number?).bind Number.signed?).getD 0

def isTrueAt (board : Blackboard) (key : String) : Bool :=
  board.get? key = some (Json.bool true)

def toStatus (isSuccess : Bool) : Status := if isSuccess then .success else .failure

abbrev Answer := Except ScriptError Status × Blackboard

def fail (message : String) (board : Blackboard) : Answer := (.error ⟨message⟩, board)

def run (request : Request) : List String → Blackboard → Answer
  | "success" :: _, board => (.ok .success, board)
  | "failure" :: _, board => (.ok .failure, board)
  | "running" :: _, board => (.ok .running, board)
  | "idle" :: _, board => (.ok .idle, board)
  | "for" :: n :: _, board =>
    match Text.readUnsigned? 10 Text.maxUnsigned32 n.toList with
    | some limit =>
      (.ok (if request.ticksSinceStart < limit then .running else .success), board)
    | none => fail "no number of ticks" board
  | "if" :: key :: _, board =>
    let (value, board) := board.getBy key request.node
    (.ok (toStatus (value = some (Json.bool true))), board)
  | "below" :: key :: n :: _, board =>
    match Text.readSigned? 10 Text.minSigned64 Text.maxSigned64 n.toList with
    | some bound => (.ok (toStatus (intAt board key < bound)), board)
    | none => fail "no bound" board
  | "count" :: key :: rest, board =>
    run request rest (board.setBy key (Json.int (intAt board key + 1)) request.node)
  | "flip" :: key :: rest, board =>
    run request rest (board.set key (Json.bool !(isTrueAt board key)))
  | "set" :: key :: text :: rest, board =>
    run request rest (board.setBy key (Json.text text) request.node)
  | "param" :: name :: key :: rest, board =>
    let value := (request.params.get? name).getD (Json.text "absent")
    run request rest (board.setBy key value request.node)
  | "del" :: key :: rest, board => run request rest (board.delete key)
  | _, board => fail "no command" board

def executor : Executor (List Request) := fun request world =>
  let (answer, board) := run request (words request.code) world.board
  (answer, ⟨board, request :: world.memory⟩)

end BehaviorTree.LeafScript
