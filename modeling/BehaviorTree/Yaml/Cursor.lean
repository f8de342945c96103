import BehaviorTree.Text

/-!
A place in a YAML text: what is left to read, and how many characters, lines and columns lie
before it. The end of the text reads as a NUL, and a NUL in the text ends it.
-/
namespace BehaviorTree.Yaml

def isEnd (c : Char) : Bool := c = '\x00'

def isBreak (c : Char) : Bool := c = '\n' || c = '\r'

def isBlank (c : Char) : Bool := c = ' ' || c = '\t'

def isBreakOrEnd (c : Char) : Bool := isBreak c || isEnd c

def isGap (c : Char) : Bool := isBlank c || isBreakOrEnd c

def isNamePart (c : Char) : Bool := Text.isLetter c || Text.isDigit c || c = '_' || c = '-'

def isFlowMark (c : Char) : Bool := c = ',' || c = '[' || c = ']' || c = '\x7b' || c = '\x7d'

structure Cursor where
  rest : List Char
  index : Nat
  line : Nat
  column : Nat

namespace Cursor

def ofText (text : String) : Cursor := ⟨text.toList, 0, 0, 0⟩

def peekAt (c : Cursor) (n : Nat) : Char := c.rest.getD n '\x00'

def peek (c : Cursor) : Char := c.peekAt 0

def skip (c : Cursor) : Cursor :=
  match c.rest with
  | [] => c
  | ch :: rest =>
    if ch = '\n' then ⟨rest, c.index + 1, c.line + 1, 0⟩
    else ⟨rest, c.index + 1, c.line, c.column + 1⟩

def skipMany : (count : Nat) → Cursor → Cursor
  | 0, c => c
  | n + 1, c => skipMany n c.skip

def skipBreak (c : Cursor) : Cursor :=
  if c.peek = '\r' && c.peekAt 1 = '\n' then c.skip.skip
  else if isBreak c.peek then c.skip
  else c

def takeWhile (p : Char → Bool) (c : Cursor) : List Char × Cursor :=
  let taken := c.rest.takeWhile p
  (taken, skipMany taken.length c)

def skipWhile (p : Char → Bool) (c : Cursor) : Cursor := (c.takeWhile p).2

def skipLine (c : Cursor) : Cursor := c.skipWhile fun ch => !isBreakOrEnd ch

def skipComment (c : Cursor) : Cursor := if c.peek = '#' then c.skipLine else c

def atMark (mark : Char) (c : Cursor) : Bool :=
  c.column = 0 && c.peek = mark && c.peekAt 1 = mark && c.peekAt 2 = mark && isGap (c.peekAt 3)

def atDocumentMark (c : Cursor) : Bool := c.atMark '-' || c.atMark '.'

end Cursor

end BehaviorTree.Yaml
