import BehaviorTree.Node
import BehaviorTree.QuotedText

/-!
Nodes in messages for programmers.
-/
namespace BehaviorTree.Message

def nodeHandle (spec : NodeSpec) : String := "NodeRef(" ++ spec.typeName ++ " " ++ spec.id ++ ")"

def node (spec : NodeSpec) (status : Status) (children : List String) : String :=
  "Node \x7b id: NodeId(" ++ QuotedText.quote spec.id ++ "), type_name: " ++
    QuotedText.quote spec.typeName ++ ", status: " ++ status.word ++ ", children: [" ++
    Text.join ", " children ++ "] \x7d"

end BehaviorTree.Message
