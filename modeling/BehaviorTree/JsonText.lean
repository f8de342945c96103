import BehaviorTree.Reading

/-!
JSON as text. The reader checks the whole syntax and leaves open what may still be passed over
unread: a number beyond the floats, a text with half a surrogate pair, and what lies too deep all
become leaves without a value.

A float is read the quick way: the leading digits that fit 64 bits, times or divided by a power
of ten. For short literals this is the nearest float; for long ones it may be a neighbour.
-/
namespace BehaviorTree.JsonText

/-- A literal, or none where the text is well formed and yet denotes no value. -/
abbrev Leaf := Option Scalar

def depthLimit : Nat := 127

def isSpace (c : Char) : Bool := c = ' ' || c = '\n' || c = '\t' || c = '\r'

def skipSpace (cs : List Char) : List Char := cs.dropWhile isSpace

/-- Digits taken into 64 bits one by one, until one does not fit, and how many were taken. -/
def gather (significand taken : Nat) : List Char → Nat × Nat
  | [] => (significand, taken)
  | c :: cs =>
    let next := significand * 10 + (c.toNat - 48)
    if Text.maxUnsigned64 < next then (significand, taken)
    else gather next (taken + 1) cs

def maxPower : Nat := 308

/-- A float times a power of ten, in steps small enough for the powers to be floats; none where
the product leaves the range. -/
def timesPower? : (fuel : Nat) → Double → Int → Option Double
  | 0, x, _ => some x
  | fuel + 1, x, power =>
    if power.natAbs ≤ maxPower then
      let factor := Decimal.toDouble false ⟨1, power.natAbs⟩
      if 0 ≤ power then
        let product := x.mul factor
        if product.isFinite then some product else none
      else some (x.div factor)
    else if x.magnitude = 0 then some x
    else if 0 ≤ power then none
    else timesPower? fuel (x.div (Decimal.toDouble false ⟨1, maxPower⟩)) (power + maxPower)

/-- The float of a literal. Three divisions take any 64 bits to zero. -/
def literalFloat? (n : Numeral) : Option Double :=
  let (leading, taken) := gather 0 0 n.whole
  let (significand, decimals) := gather leading 0 n.fraction
  let power := n.exponent + (n.whole.length - taken : Nat) - decimals
  (timesPower? 4 (.ofNat significand) power).map fun x => if n.negative then x.neg else x

/-- A literal without point and exponent is a whole number if it fits; minus zero is a float. -/
def literal? (n : Numeral) (plain : Bool) : Option Number :=
  let value := Numeral.digitsValue n.whole
  if plain && n.negative && 0 < value && value ≤ Nat.pow 2 63 then some (.int (-(value : Int)))
  else if plain && !n.negative && value ≤ Text.maxUnsigned64 then some (.int value)
  else (literalFloat? n).bind Number.ofDouble?

def number? (cs : List Char) : Option (Leaf × List Char) :=
  let (negative, body) := match cs with
    | '-' :: rest => (true, rest)
    | rest => (false, rest)
  let whole := body.takeWhile Text.isDigit
  let rest := body.dropWhile Text.isDigit
  if whole.isEmpty || (whole.head? = some '0' && 1 < whole.length) then none
  else
    let fraction? := match rest with
      | '.' :: rest =>
        let digits := rest.takeWhile Text.isDigit
        if digits.isEmpty then none else some (digits, rest.dropWhile Text.isDigit)
      | rest => some ([], rest)
    fraction?.bind fun (fraction, rest) =>
      (Numeral.scanExponent rest).map fun (exponent, left) =>
        let plain := fraction.isEmpty && left.length = rest.length
        ((literal? ⟨negative, whole, fraction, exponent⟩ plain).map .number, left)

def hexUnit? : List Char → Option (Nat × List Char)
  | a :: b :: c :: d :: rest => (Text.readNat? 16 [a, b, c, d]).map (·, rest)
  | _ => none

def shortEscape? : Char → Option Char
  | '"' => some '"'
  | '\\' => some '\\'
  | '/' => some '/'
  | 'b' => some '\x08'
  | 'f' => some '\x0c'
  | 'n' => some '\n'
  | 'r' => some '\r'
  | 't' => some '\t'
  | _ => none

def isHighSurrogate (unit : Nat) : Bool := 0xD800 ≤ unit && unit < 0xDC00

def isLowSurrogate (unit : Nat) : Bool := 0xDC00 ≤ unit && unit < 0xE000

def lowHalf? : List Char → Option (Nat × List Char)
  | '\\' :: 'u' :: rest => (hexUnit? rest).filter fun p => isLowSurrogate p.1
  | _ => none

def quoted? : (fuel : Nat) → List Char → Option (Option (List Char) × List Char)
  | 0, _ => none
  | _ + 1, [] => none
  | _ + 1, '"' :: rest => some (some [], rest)
  | fuel + 1, '\\' :: 'u' :: rest =>
    (hexUnit? rest).bind fun (unit, rest) =>
      if isHighSurrogate unit then
        match lowHalf? rest with
        | some (low, rest) =>
          let c := Char.ofNat (0x10000 + (unit - 0xD800) * 0x400 + (low - 0xDC00))
          (quoted? fuel rest).map fun (text, left) => (text.map (c :: ·), left)
        | none => (quoted? fuel rest).map fun (_, left) => (none, left)
      else if isLowSurrogate unit then
        (quoted? fuel rest).map fun (_, left) => (none, left)
      else (quoted? fuel rest).map fun (text, left) => (text.map (Char.ofNat unit :: ·), left)
  | fuel + 1, '\\' :: e :: rest =>
    (shortEscape? e).bind fun c =>
      (quoted? fuel rest).map fun (text, left) => (text.map (c :: ·), left)
  | fuel + 1, c :: rest =>
    if c = '\\' || c.toNat < 0x20 then none
    else (quoted? fuel rest).map fun (text, left) => (text.map (c :: ·), left)

def text? (fuel : Nat) (cs : List Char) : Option (Option String × List Char) :=
  (quoted? fuel cs).map fun (text, left) => (text.map String.ofList, left)

def word? (word : String) (cs : List Char) : Option (List Char) :=
  if cs.take word.length = word.toList then some (cs.drop word.length) else none

def fieldsOf (entries : List (Option String × Datum Leaf)) : Datum Leaf :=
  match entries.mapM fun e => e.1.map (·, e.2) with
  | some es => .fields es
  | none => .leaf none

def within (depth : Nat) (d : Datum Leaf) : Datum Leaf :=
  if depth < depthLimit then d else .leaf none

mutual

def value? : (fuel depth : Nat) → List Char → Option (Datum Leaf × List Char)
  | 0, _, _ => none
  | fuel + 1, depth, cs =>
    match skipSpace cs with
    | [] => none
    | '"' :: rest => (text? fuel rest).map fun (text, left) => (.leaf (text.map .text), left)
    | '[' :: rest =>
      match skipSpace rest with
      | ']' :: left => some (within depth (.list []), left)
      | rest => (items? fuel (depth + 1) rest).map fun (items, left) =>
          (within depth (.list items), left)
    | '{' :: rest =>
      match skipSpace rest with
      | '}' :: left => some (within depth (.fields []), left)
      | rest => (entries? fuel (depth + 1) rest).map fun (entries, left) =>
          (within depth (fieldsOf entries), left)
    | c :: rest =>
      if c = '-' || Text.isDigit c then
        (number? (c :: rest)).map fun (leaf, left) => (.leaf leaf, left)
      else
        ((word? "null" (c :: rest)).map fun left => (.leaf (some .null), left)) <|>
        ((word? "true" (c :: rest)).map fun left => (.leaf (some (.bool true)), left)) <|>
        ((word? "false" (c :: rest)).map fun left => (.leaf (some (.bool false)), left))

def items? : (fuel depth : Nat) → List Char → Option (List (Datum Leaf) × List Char)
  | 0, _, _ => none
  | fuel + 1, depth, cs =>
    (value? fuel depth cs).bind fun (item, rest) =>
      match skipSpace rest with
      | ']' :: left => some ([item], left)
      | ',' :: rest => (items? fuel depth rest).map fun (items, left) => (item :: items, left)
      | _ => none

def entries? : (fuel depth : Nat) → List Char →
    Option (List (Option String × Datum Leaf) × List Char)
  | 0, _, _ => none
  | fuel + 1, depth, cs =>
    match skipSpace cs with
    | '"' :: rest =>
      (text? fuel rest).bind fun (name, rest) =>
        match skipSpace rest with
        | ':' :: rest =>
          (value? fuel depth rest).bind fun (v, rest) =>
            match skipSpace rest with
            | '}' :: left => some ([(name, v)], left)
            | ',' :: rest => (entries? fuel depth rest).map fun (entries, left) =>
                ((name, v) :: entries, left)
            | _ => none
        | _ => none
    | _ => none

end

/-- A text that is one value and nothing else. Each character costs at most two steps. -/
def read? (text : String) : Option (Datum Leaf) :=
  let cs := text.toList
  (value? (2 * cs.length + 2) 0 cs).bind fun (d, rest) =>
    if (skipSpace rest).isEmpty then some d else none

def escape (c : Char) : String :=
  if c = '"' then "\\\""
  else if c = '\\' then "\\\\"
  else if c = '\n' then "\\n"
  else if c = '\r' then "\\r"
  else if c = '\t' then "\\t"
  else if c = '\x08' then "\\b"
  else if c = '\x0c' then "\\f"
  else if c.toNat < 0x20 then "\\u" ++ Text.padded 16 4 c.toNat
  else String.ofList [c]

def quote (s : String) : String :=
  "\"" ++ String.join (s.toList.map escape) ++ "\""

def scalar : Scalar → String
  | .null => "null"
  | .bool true => "true"
  | .bool false => "false"
  | .number n => n.render
  | .text s => quote s

mutual

def compact : Json → String
  | .leaf s => scalar s
  | .list items => "[" ++ Text.join "," (compactItems items) ++ "]"
  | .fields entries => "\x7b" ++ Text.join "," (compactEntries entries) ++ "\x7d"

def compactItems : List Json → List String
  | [] => []
  | v :: rest => compact v :: compactItems rest

def compactEntries : List (String × Json) → List String
  | [] => []
  | (name, v) :: rest => (quote name ++ ":" ++ compact v) :: compactEntries rest

end

def indent (level : Nat) : String := String.ofList (List.replicate (2 * level) ' ')

def block (opening closing : String) (level : Nat) (parts : List String) : String :=
  if parts.isEmpty then opening ++ closing
  else
    let lines := parts.map fun part => "\n" ++ indent (level + 1) ++ part
    opening ++ Text.join "," lines ++ "\n" ++ indent level ++ closing

mutual

def pretty (level : Nat) : Json → String
  | .leaf s => scalar s
  | .list items => block "[" "]" level (prettyItems (level + 1) items)
  | .fields entries => block "\x7b" "\x7d" level (prettyEntries (level + 1) entries)

def prettyItems (level : Nat) : List Json → List String
  | [] => []
  | v :: rest => pretty level v :: prettyItems level rest

def prettyEntries (level : Nat) : List (String × Json) → List String
  | [] => []
  | (name, v) :: rest => (quote name ++ ": " ++ pretty level v) :: prettyEntries level rest

end

end BehaviorTree.JsonText
