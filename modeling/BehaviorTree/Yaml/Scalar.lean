import BehaviorTree.Yaml.Cursor

/-!
The text of YAML scalars. Words stand apart by gaps. A gap without line breaks stays as it is; the
first line break of a gap becomes a space, or nothing where others follow, which stay; blanks
around line breaks are dropped.
-/
namespace BehaviorTree.Yaml

structure Gap where
  blanks : List Char := []
  /-- Whether blanks no longer count, since a line has ended. -/
  isBroken : Bool := false
  hasBreak : Bool := false
  moreBreaks : Nat := 0

namespace Gap

def fill (g : Gap) : List Char :=
  if !g.isBroken then g.blanks
  else if g.hasBreak && g.moreBreaks = 0 then [' ']
  else List.replicate g.moreBreaks '\n'

def read? (tabsFrom : Nat) : (fuel : Nat) → Gap → Cursor → Option (Gap × Cursor)
  | 0, _, _ => none
  | fuel + 1, g, c =>
    if isBlank c.peek then
      if g.isBroken && c.column < tabsFrom && c.peek = '\t' then none
      else if g.isBroken then read? tabsFrom fuel g c.skip
      else read? tabsFrom fuel { g with blanks := g.blanks ++ [c.peek] } c.skip
    else if isBreak c.peek then
      if g.isBroken then
        read? tabsFrom fuel { g with moreBreaks := g.moreBreaks + 1 } c.skipBreak
      else read? tabsFrom fuel ⟨[], true, true, g.moreBreaks⟩ c.skipBreak
    else some (g, c)

end Gap

def endsPlain (inFlow : Bool) (c next : Char) : Bool :=
  (c = ':' && (isGap next || (inFlow && isFlowMark next))) || (inFlow && isFlowMark c)

def plainWord (inFlow : Bool) : List Char → List Char
  | [] => []
  | c :: rest =>
    if isGap c || endsPlain inFlow c (rest.headD '\x00') then []
    else c :: plainWord inFlow rest

def plain? (inFlow : Bool) (indent : Nat) :
    (fuel : Nat) → (text : List Char) → Gap → Cursor → Option (List Char × Bool × Cursor)
  | 0, _, _, _ => none
  | fuel + 1, text, gap, c =>
    if c.atDocumentMark || c.peek = '#' then some (text, gap.isBroken, c)
    else
      let word := plainWord inFlow c.rest
      let text := if word.isEmpty then text else text ++ gap.fill ++ word
      let gap := if word.isEmpty then gap else {}
      let c := c.skipMany word.length
      if !(isBlank c.peek || isBreak c.peek) then some (text, gap.isBroken, c)
      else
        (Gap.read? indent (c.rest.length + 1) gap c).bind fun (gap, c) =>
          if !inFlow && c.column < indent then some (text, gap.isBroken, c)
          else plain? inFlow indent fuel text gap c

def namedEscape? : Char → Option Char
  | '0' => some '\x00'
  | 'a' => some '\x07'
  | 'b' => some '\x08'
  | 't' => some '\t'
  | '\t' => some '\t'
  | 'n' => some '\n'
  | 'v' => some '\x0b'
  | 'f' => some '\x0c'
  | 'r' => some '\x0d'
  | 'e' => some '\x1b'
  | ' ' => some ' '
  | '"' => some '"'
  | '\'' => some '\''
  | '\\' => some '\\'
  | 'N' => some '\u0085'
  | '_' => some '\u00a0'
  | 'L' => some '\u2028'
  | 'P' => some '\u2029'
  | _ => none

def codeLength? : Char → Option Nat
  | 'x' => some 2
  | 'u' => some 4
  | 'U' => some 8
  | _ => none

def charOf? (code : Nat) : Option Char :=
  if code.isValidChar then some (Char.ofNat code) else none

def escape? (c : Cursor) : Option (Char × Cursor) :=
  match codeLength? c.peek with
  | some length =>
    let digits := c.skip.rest.take length
    if digits.length < length then none
    else ((Text.readNat? 16 digits).bind charOf?).map (·, c.skip.skipMany length)
  | none => (namedEscape? c.peek).map (·, c.skip)

def quotedWord? (quote : Char) :
    (fuel : Nat) → (text : List Char) → Cursor → Option (List Char × Bool × Cursor)
  | 0, _, _ => none
  | fuel + 1, text, c =>
    let next := c.peekAt 1
    if isGap c.peek then some (text, false, c)
    else if c.peek = quote then
      if quote = '\'' && next = '\'' then quotedWord? quote fuel (text ++ ['\'']) c.skip.skip
      else some (text, false, c)
    else if quote = '"' && c.peek = '\\' then
      if isBreak next then some (text, true, c.skip.skipBreak)
      else (escape? c.skip).bind fun (ch, c) => quotedWord? quote fuel (text ++ [ch]) c
    else quotedWord? quote fuel (text ++ [c.peek]) c.skip

def quoted? (quote : Char) : (fuel : Nat) → (text : List Char) → Cursor →
    Option (List Char × Cursor)
  | 0, _, _ => none
  | fuel + 1, text, c =>
    if c.atDocumentMark || isEnd c.peek then none
    else
      (quotedWord? quote (c.rest.length + 1) text c).bind fun (text, isBroken, c) =>
        if c.peek = quote then some (text, c.skip)
        else
          (Gap.read? 0 (c.rest.length + 1) { isBroken } c).bind fun (gap, c) =>
            quoted? quote fuel (text ++ gap.fill) c

/-- What becomes of the line breaks at the end of a block scalar. -/
inductive Chomping where
  | strip
  | clip
  | keep
  deriving DecidableEq

/-- The header of a block scalar: its chomping and its indentation, either one left out or both,
in any order. An indentation of zero is refused. -/
def blockHeader? (c : Cursor) : Option (Chomping × Nat × Cursor) :=
  let (chomping, c) := chompingAt c
  if c.peek = '0' then none
  else
    let (indent, c) :=
      if Text.isDigit c.peek then (c.peek.toNat - 48, c.skip) else (0, c)
    match chomping with
    | some chomping => some (chomping, indent, c)
    | none =>
      let (chomping, c) := if indent = 0 then (none, c) else chompingAt c
      some (chomping.getD .clip, indent, c)
where
  chompingAt (c : Cursor) : Option Chomping × Cursor :=
    if c.peek = '+' then (some .keep, c.skip)
    else if c.peek = '-' then (some .strip, c.skip)
    else (none, c)

def emptyLines? (indent : Nat) : (fuel : Nat) → (count widest : Nat) → Cursor →
    Option (Nat × Nat × Cursor)
  | 0, _, _, _ => none
  | fuel + 1, count, widest, c =>
    let spaces := (c.rest.takeWhile (· = ' ')).length
    let c := c.skipMany (if indent = 0 then spaces else min spaces (indent - c.column))
    let widest := max widest c.column
    if (indent = 0 || c.column < indent) && c.peek = '\t' then none
    else if isBreak c.peek then emptyLines? indent fuel (count + 1) widest c.skipBreak
    else some (count, widest, c)

structure Block where
  text : List Char := []
  /-- Whether the line before has ended in a line break. -/
  hasBreak : Bool := false
  /-- Whether the line before began with a blank, and so stays a line of its own. -/
  wasBlank : Bool := false
  emptyLines : Nat := 0

def Block.addLine (b : Block) (isLiteral : Bool) (line : List Char) : Block :=
  let isBlankLine := isBlank (line.headD '\x00')
  let joint :=
    if !b.hasBreak then []
    else if !isLiteral && !b.wasBlank && !isBlankLine then
      (if b.emptyLines = 0 then [' '] else [])
    else ['\n']
  { text := b.text ++ joint ++ List.replicate b.emptyLines '\n' ++ line
    hasBreak := false
    wasBlank := isBlankLine
    emptyLines := 0 }

def blockLines? (isLiteral : Bool) (indent : Nat) : (fuel : Nat) → Block → Cursor →
    Option (Block × Cursor)
  | 0, _, _ => none
  | fuel + 1, b, c =>
    if c.column ≠ indent || isEnd c.peek then some (b, c)
    else
      let (line, c) := c.takeWhile fun ch => !isBreakOrEnd ch
      let b := b.addLine isLiteral line
      if isEnd c.peek then some (b, c)
      else
        (emptyLines? indent (c.rest.length + 1) 0 0 c.skipBreak).bind fun (count, _, c) =>
          blockLines? isLiteral indent fuel { b with hasBreak := true, emptyLines := count } c

def Block.finish (b : Block) (chomping : Chomping) : List Char :=
  let lastBreak := if b.hasBreak then ['\n'] else []
  match chomping with
  | .strip => b.text
  | .clip => b.text ++ lastBreak
  | .keep => b.text ++ lastBreak ++ List.replicate b.emptyLines '\n'

/-- A block scalar after its mark, in a block indented to a column, or to none at the outside. Its
indentation is that of its first line unless the header gives one. -/
def block? (isLiteral : Bool) (outer : Option Nat) (c : Cursor) : Option (List Char × Cursor) :=
  (blockHeader? c).bind fun (chomping, width, c) =>
    let c := (c.skipWhile isBlank).skipComment
    if !isBreakOrEnd c.peek then none
    else
      let c := c.skipBreak
      let given := if width = 0 then 0 else outer.getD 0 + width
      (emptyLines? given (c.rest.length + 1) 0 0 c).bind fun (count, widest, c) =>
        let indent :=
          if given = 0 then max (max widest (outer.elim 0 (· + 1))) 1 else given
        (blockLines? isLiteral indent (c.rest.length + 1) { emptyLines := count } c).map
          fun (b, c) => (b.finish chomping, c)

end BehaviorTree.Yaml
