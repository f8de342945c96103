import BehaviorTree.Yaml.Scalar
import BehaviorTree.Yaml.Token

/-!
From a YAML text to its tokens. Outside of brackets the columns of lines open and close blocks.
A key shows only by the colon after it, so that its place is kept until then: the token that
begins a key is put in front of what was read since.
-/
namespace BehaviorTree.Yaml

/-- A place where a key may have begun. A key is on one line and not too long. -/
structure KeyPlace where
  tokenCount : Nat
  cursor : Cursor
  /-- Whether the text is in error unless this is a key. -/
  isRequired : Bool

namespace KeyPlace

def maxLength : Nat := 1024

def seenFrom? (c : Cursor) (place : Option KeyPlace) : Option (Option KeyPlace) :=
  match place with
  | none => some none
  | some k =>
    if k.cursor.line < c.line || k.cursor.index + maxLength < c.index then
      if k.isRequired then none else some none
    else some (some k)

end KeyPlace

structure Lexer where
  cursor : Cursor
  tokens : Array Token := #[]
  /-- The columns of the open blocks, the innermost first. -/
  blocks : List Nat := []
  keyPlace : Option KeyPlace := none
  /-- For each open bracket, the innermost first, the place of a key that may contain it. -/
  outerPlaces : List (Option KeyPlace) := []
  allowsKey : Bool := true
  /-- Where the last quoted scalar ended: a colon may follow it directly. -/
  quotedEnd : Option Nat := none

namespace Lexer

def ofText (text : String) : Lexer := { cursor := .ofText text }

def inFlow (lx : Lexer) : Bool := !lx.outerPlaces.isEmpty

def push (lx : Lexer) (token : Token) : Lexer := { lx with tokens := lx.tokens.push token }

def openBlock (lx : Lexer) (column place : Nat) (start : Token) : Lexer :=
  if lx.inFlow || lx.blocks.head?.any (column ≤ ·) then lx
  else { lx with
    blocks := column :: lx.blocks
    tokens := lx.tokens.insertIdxIfInBounds place start }

def closeBlocks (lx : Lexer) (closes : Nat → Bool) : Lexer :=
  if lx.inFlow then lx
  else { lx with
    blocks := lx.blocks.dropWhile closes
    tokens := lx.tokens ++ (lx.blocks.takeWhile closes).map fun _ => Token.blockEnd }

def openBlockHere? (lx : Lexer) (start : Token) : Option Lexer :=
  if lx.inFlow then some lx
  else if lx.allowsKey then some (lx.openBlock lx.cursor.column lx.tokens.size start)
  else none

def dropKey? (lx : Lexer) : Option Lexer :=
  if lx.keyPlace.any (·.isRequired) then none else some { lx with keyPlace := none }

def markKey? (lx : Lexer) : Option Lexer :=
  if lx.allowsKey then
    let isRequired := lx.inFlow && lx.blocks.head? = some lx.cursor.column
    lx.dropKey?.map fun lx =>
      { lx with keyPlace := some ⟨lx.tokens.size, lx.cursor, isRequired⟩ }
  else some lx

def expireKeys? (lx : Lexer) : Option Lexer := do
  let keyPlace ← KeyPlace.seenFrom? lx.cursor lx.keyPlace
  let outerPlaces ← lx.outerPlaces.mapM (KeyPlace.seenFrom? lx.cursor)
  some { lx with keyPlace, outerPlaces }

def take (lx : Lexer) (length : Nat) (token : Token) : Lexer :=
  { lx.push token with cursor := lx.cursor.skipMany length }

def takeBy? (lx : Lexer) (read : Cursor → Option (Token × Cursor)) : Option Lexer :=
  lx.markKey?.bind fun lx =>
    (read lx.cursor).map fun (token, cursor) =>
      { lx.push token with cursor, allowsKey := false }

def directive? (lx : Lexer) : Option Lexer := do
  let lx ← (lx.closeBlocks fun _ => true).dropKey?
  let cursor ← Yaml.directive? lx.cursor
  some { lx.push .directive with cursor, allowsKey := false }

def documentMark? (lx : Lexer) (mark : Token) : Option Lexer :=
  (lx.closeBlocks fun _ => true).dropKey?.map fun lx =>
    { lx with allowsKey := false }.take 3 mark

def maxFlowDepth : Nat := 255

def openFlow? (lx : Lexer) (start : Token) : Option Lexer :=
  lx.markKey?.bind fun lx =>
    if lx.outerPlaces.length < maxFlowDepth then
      some <| { lx with
        keyPlace := none
        outerPlaces := lx.keyPlace :: lx.outerPlaces
        allowsKey := true }.take 1 start
    else none

def closeFlow? (lx : Lexer) (stop : Token) : Option Lexer :=
  lx.dropKey?.map fun lx =>
    { lx with
      keyPlace := lx.outerPlaces.headD none
      outerPlaces := lx.outerPlaces.tail
      allowsKey := false }.take 1 stop

def flowEntry? (lx : Lexer) : Option Lexer :=
  lx.dropKey?.map fun lx => { lx with allowsKey := true }.take 1 .flowEntry

def blockEntry? (lx : Lexer) : Option Lexer :=
  if lx.inFlow then none
  else do
    let lx ← lx.openBlockHere? .blockListStart
    let lx ← lx.dropKey?
    some ({ lx with allowsKey := true }.take 1 .blockEntry)

def key? (lx : Lexer) : Option Lexer := do
  let lx ← lx.openBlockHere? .blockMapStart
  let lx ← lx.dropKey?
  some ({ lx with allowsKey := !lx.inFlow }.take 1 .key)

/-- The colon before a value. If a key may have begun, this is the sign that it did. -/
def value? (lx : Lexer) : Option Lexer :=
  match lx.keyPlace with
  | some k =>
    let lx := { lx with tokens := lx.tokens.insertIdxIfInBounds k.tokenCount .key }
    let lx := lx.openBlock k.cursor.column k.tokenCount .blockMapStart
    some ({ lx with keyPlace := none, allowsKey := false }.take 1 .value)
  | none =>
    (lx.openBlockHere? .blockMapStart).map fun lx =>
      { lx with allowsKey := !lx.inFlow }.take 1 .value

def block? (lx : Lexer) (isLiteral : Bool) : Option Lexer :=
  lx.markKey?.bind fun lx =>
    (Yaml.block? isLiteral lx.blocks.head? lx.cursor.skip).map fun (text, cursor) =>
      { lx.push (.scalar (String.ofList text) false) with cursor, allowsKey := true }

def quoted? (lx : Lexer) : Option Lexer :=
  (lx.takeBy? fun c =>
    (Yaml.quoted? c.peek (c.rest.length + 1) [] c.skip).map fun (text, c) =>
      (.scalar (String.ofList text) false, c)).map fun lx =>
    { lx with quotedEnd := some lx.cursor.index }

def plain? (lx : Lexer) : Option Lexer :=
  lx.markKey?.bind fun lx =>
    let indent := lx.blocks.head?.elim 0 (· + 1)
    (Yaml.plain? lx.inFlow indent (lx.cursor.rest.length + 1) [] {} lx.cursor).map
      fun (text, allowsKey, cursor) =>
        { lx.push (.scalar (String.ofList text) true) with cursor, allowsKey }

def anchor? (make : String → Token) (c : Cursor) : Option (Token × Cursor) :=
  (anchorName? c.skip).map fun (name, c) => (make name, c)

def atValue (lx : Lexer) : Bool :=
  let next := lx.cursor.peekAt 1
  isGap next || (lx.inFlow && (isFlowMark next || lx.quotedEnd = some lx.cursor.index))

def read? (lx : Lexer) : Option Lexer :=
  let c := lx.cursor
  let isApart := isGap (c.peekAt 1)
  if c.column = 0 && c.peek = '%' then lx.directive?
  else if c.atMark '-' then lx.documentMark? .documentStart
  else if c.atMark '.' then lx.documentMark? .documentEnd
  else match c.peek with
    | '[' => lx.openFlow? .flowListStart
    | ']' => lx.closeFlow? .flowListEnd
    | '\x7b' => lx.openFlow? .flowMapStart
    | '\x7d' => lx.closeFlow? .flowMapEnd
    | ',' => lx.flowEntry?
    | '-' => if isApart then lx.blockEntry? else lx.plain?
    | '?' => if isApart then lx.key? else lx.plain?
    | ':' => if lx.atValue then lx.value? else lx.plain?
    | '&' => lx.takeBy? (anchor? .anchor)
    | '*' => lx.takeBy? (anchor? .reference)
    | '!' => lx.takeBy? fun c => (tag? c).map fun (tag, c) => (.tag tag, c)
    | '|' => if lx.inFlow then lx.plain? else lx.block? true
    | '>' => if lx.inFlow then lx.plain? else lx.block? false
    | '"' => lx.quoted?
    | '\'' => lx.quoted?
    | '%' => none
    | '@' => none
    | '\x60' => none
    | _ => lx.plain?

/-- Moves to the next token. A line that ends outside of brackets lets a key begin; before a key
tabs do not count as blanks. -/
def advance : (fuel : Nat) → Lexer → Lexer
  | 0, lx => lx
  | fuel + 1, lx =>
    let c := lx.cursor
    if c.peek = ' ' || (c.peek = '\t' && (lx.inFlow || !lx.allowsKey)) then
      advance fuel { lx with cursor := c.skip }
    else if isBreak c.peek then
      advance fuel { lx with cursor := c.skipBreak, allowsKey := lx.allowsKey || !lx.inFlow }
    else if c.peek = '#' then advance fuel { lx with cursor := c.skipLine }
    else lx

def finish? (lx : Lexer) : Option (List Token) :=
  (lx.closeBlocks fun _ => true).dropKey?.map (·.tokens.toList)

def run? : (fuel : Nat) → Lexer → Option (List Token)
  | 0, _ => none
  | fuel + 1, lx =>
    (advance (lx.cursor.rest.length + 1) lx).expireKeys?.bind fun lx =>
      let lx := lx.closeBlocks (lx.cursor.column < ·)
      if isEnd lx.cursor.peek then lx.finish? else lx.read?.bind (run? fuel)

end Lexer

/-- The tokens of a text; every one but the last takes at least a character. -/
def tokens? (text : String) : Option (List Token) :=
  (Lexer.ofText text).run? (text.length + 2)

end BehaviorTree.Yaml
