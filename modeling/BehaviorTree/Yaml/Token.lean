import BehaviorTree.Yaml.Cursor
import BehaviorTree.Yaml.Leaf

/-!
The tokens of a YAML text, and how those of them read that have a name: anchors, references to
anchors, tags, and the directives in front of a document.
-/
namespace BehaviorTree.Yaml

inductive Token where
  | directive
  | documentStart
  | documentEnd
  | blockListStart
  | blockMapStart
  | blockEnd
  | flowListStart
  | flowListEnd
  | flowMapStart
  | flowMapEnd
  | blockEntry
  | flowEntry
  | key
  | value
  | anchor (name : String)
  | reference (name : String)
  | tag (tag : Tag)
  | scalar (text : String) (isPlain : Bool)
  deriving DecidableEq

def endsName (c : Char) : Bool :=
  isGap c || c ∈ ['?', ':', ',', ']', '\x7d', '%', '@', '\x60']

def anchorName? (c : Cursor) : Option (String × Cursor) :=
  let (name, c) := c.takeWhile isNamePart
  if name.isEmpty || !endsName c.peek then none else some (String.ofList name, c)

def isUriMark (c : Char) : Bool :=
  c ∈ [';', '/', '?', ':', '@', '&', '=', '+', '$', ',', '.', '!', '~', '*', '\'', '(', ')', '[',
    ']']

def escapedByte? (c : Cursor) : Option (Nat × Cursor) :=
  if c.peek = '%' then (Text.readNat? 16 [c.peekAt 1, c.peekAt 2]).map (·, c.skipMany 3)
  else none

def laterBytes? (first : Nat) : Option Nat :=
  if first < 0x80 then some 0
  else if first < 0xC0 then none
  else if first < 0xE0 then some 1
  else if first < 0xF0 then some 2
  else if first < 0xF8 then some 3
  else none

def takeLaterBytes? : (count code : Nat) → Cursor → Option (Nat × Cursor)
  | 0, code, c => some (code, c)
  | count + 1, code, c =>
    (escapedByte? c).bind fun (byte, c) =>
      if byte / 64 = 2 then takeLaterBytes? count (code * 256 + byte) c else none

/-- An escaped character. Its bytes are marked off as in UTF-8, and make up its code point as
they are, the first as the most significant one. -/
def escapedChar? (c : Cursor) : Option (Char × Cursor) :=
  (escapedByte? c).bind fun (first, c) =>
    (laterBytes? first).bind fun count =>
      (takeLaterBytes? count first c).bind fun (code, c) =>
        if code.isValidChar then some (Char.ofNat code, c) else none

def uri? : (fuel : Nat) → (text : List Char) → Cursor → Option (List Char × Cursor)
  | 0, _, _ => none
  | fuel + 1, text, c =>
    if c.peek = '%' then
      (escapedChar? c).bind fun (ch, c) => uri? fuel (text ++ [ch]) c
    else if isNamePart c.peek || isUriMark c.peek then uri? fuel (text ++ [c.peek]) c.skip
    else some (text, c)

def someUri? (c : Cursor) : Option (List Char × Cursor) :=
  (uri? (c.rest.length + 1) [] c).filter fun p => !p.1.isEmpty

def tagHandle? (c : Cursor) : Option (List Char × Cursor) :=
  if c.peek ≠ '!' then none
  else
    let (name, c) := c.skip.takeWhile isNamePart
    if c.peek = '!' then some ('!' :: name ++ ['!'], c.skip) else some ('!' :: name, c)

def isClosedHandle (handle : List Char) : Bool :=
  1 < handle.length && handle.getLast? = some '!'

def tag? (c : Cursor) : Option (Tag × Cursor) :=
  Option.filter (fun p => isGap p.2.peek) <|
    if c.peekAt 1 = '<' then
      (someUri? c.skip.skip).bind fun (name, c) =>
        if c.peek = '>' then some (⟨"", String.ofList name⟩, c.skip) else none
    else
      (tagHandle? c).bind fun (handle, c) =>
        if isClosedHandle handle then
          (someUri? c).map fun (name, c) => (⟨String.ofList handle, String.ofList name⟩, c)
        else
          (uri? (c.rest.length + 1) (handle.drop 1) c).map fun (name, c) =>
            (if name.isEmpty then ⟨"", "!"⟩ else ⟨"!", String.ofList name⟩, c)

def versionPart? (c : Cursor) : Option Cursor :=
  let (digits, c) := c.takeWhile Text.isDigit
  if digits.isEmpty || 9 < digits.length then none else some c

def versionDirective? (c : Cursor) : Option Cursor :=
  (versionPart? (c.skipWhile isBlank)).bind fun c =>
    if c.peek = '.' then versionPart? c.skip else none

def tagDirective? (c : Cursor) : Option Cursor :=
  (tagHandle? (c.skipWhile isBlank)).bind fun (handle, c) =>
    if handle ≠ ['!'] && !isClosedHandle handle then none
    else
      (someUri? (c.skipWhile isBlank)).bind fun (_, c) => if isGap c.peek then some c else none

def directive? (c : Cursor) : Option Cursor :=
  let (name, c) := c.skip.takeWhile isNamePart
  if name.isEmpty || !isGap c.peek then none
  else
    let body :=
      if name = "YAML".toList then versionDirective? c
      else if name = "TAG".toList then tagDirective? c
      else some c.skipLine
    body.bind fun c =>
      let c := (c.skipWhile isBlank).skipComment
      if isBreakOrEnd c.peek then some c.skipBreak else none

end BehaviorTree.Yaml
