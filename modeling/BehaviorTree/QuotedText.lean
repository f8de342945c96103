import BehaviorTree.Printable
import BehaviorTree.Text

/-!
Texts as messages quote them: between double quotes, so that the end of the text can be seen, and
with a visible spelling for every character that would not show.
-/
namespace BehaviorTree.QuotedText

def hex (n : Nat) : String := String.ofList (Nat.toDigits 16 n)

def spell (c : Char) : String :=
  if c = '"' then "\\\""
  else if c = '\\' then "\\\\"
  else if c = '\n' then "\\n"
  else if c = '\r' then "\\r"
  else if c = '\t' then "\\t"
  else if c = '\x00' then "\\0"
  else if Printable.isPrintable c then String.ofList [c]
  else "\\u\x7b" ++ hex c.toNat ++ "\x7d"

def quote (s : String) : String := "\"" ++ String.join (s.toList.map spell) ++ "\""

end BehaviorTree.QuotedText
