import BehaviorTree.Yaml.Node
import BehaviorTree.Yaml.Token

/-!
From tokens to a document: what tokens may follow each other, and where nodes may be left out. A
text holds one document. An anchor counts from its own node on, and the last one of a name counts.
-/
namespace BehaviorTree.Yaml

structure Stream where
  tokens : List Token
  names : List (String × Nat) := []
  targets : List (Nat × Node) := []

abbrev Grammar := StateT Stream Option

namespace Grammar

def peek : Grammar (Option Token) := return (← get).tokens.head?

def skip : Grammar Unit := modify fun s => { s with tokens := s.tokens.tail }

def next : Grammar (Option Token) := do
  let token ← peek
  skip
  return token

def nextIsIn (tokens : List Token) : Grammar Bool := return (← peek).any (· ∈ tokens)

def anchor? : Grammar (Option Nat) := do
  match ← peek with
  | some (.anchor name) =>
    skip
    let number := (← get).names.length
    modify fun s => { s with names := (name, number) :: s.names }
    return some number
  | _ => return none

def tag? : Grammar (Option Tag) := do
  match ← peek with
  | some (.tag tag) =>
    skip
    return some tag
  | _ => return none

def properties : Grammar (Option Nat × Option Tag) := do
  match ← tag? with
  | some tag => return (← anchor?, some tag)
  | none => return (← anchor?, ← tag?)

def keep (anchor : Option Nat) (node : Node) : Grammar Node := do
  if let some number := anchor then
    modify fun s => { s with targets := (number, node) :: s.targets }
  return node

def orAbsent (stops : List Token) (node : Grammar Node) : Grammar Node := do
  if ← nextIsIn stops then return .absent else node

def markedValue (stops : List Token) (node : Grammar Node) : Grammar Node := do
  if ← nextIsIn [.value] then
    skip
    orAbsent stops node
  else return .absent

def separator (isFirst : Bool) : Grammar Unit := do
  if !isFirst then
    if (← next) = some .flowEntry then return () else failure

mutual

def node : (fuel : Nat) → (inBlock isUnderKey : Bool) → Grammar Node
  | 0, _, _ => failure
  | fuel + 1, inBlock, isUnderKey => do
    if let some (.reference name) ← peek then
      skip
      match (← get).names.lookup name with
      | some number => return .reference number
      | none => failure
    else
      let (anchor, tag) ← properties
      let empty := if anchor.isSome || tag.isSome then return .scalar ⟨"", true, tag, false⟩ else failure
      let content : Grammar Node := do
        match ← peek with
        | some (.scalar text isPlain) => skip; return .scalar ⟨text, isPlain, tag, false⟩
        | some .flowListStart => skip; return .list (← flowItems fuel true)
        | some .flowMapStart => skip; return .pairs (← flowPairs fuel true)
        | some .blockListStart =>
          if inBlock then skip; return .list (← blockItems fuel) else empty
        | some .blockMapStart =>
          if inBlock then skip; return .pairs (← blockPairs fuel) else empty
        | some .blockEntry =>
          if isUnderKey then return .list (← itemsUnderKey fuel) else empty
        | _ => empty
      keep anchor (← content)

def blockItems : (fuel : Nat) → Grammar (List Node)
  | 0 => failure
  | fuel + 1 => do
    match ← next with
    | some .blockEnd => return []
    | some .blockEntry =>
      let item ← orAbsent [.blockEntry, .blockEnd] (node fuel true false)
      return item :: (← blockItems fuel)
    | _ => failure

def itemsUnderKey : (fuel : Nat) → Grammar (List Node)
  | 0 => failure
  | fuel + 1 => do
    if ← nextIsIn [.blockEntry] then
      skip
      let item ← orAbsent [.blockEntry, .key, .value, .blockEnd] (node fuel true false)
      return item :: (← itemsUnderKey fuel)
    else return []

def blockPairs : (fuel : Nat) → Grammar (List (Node × Node))
  | 0 => failure
  | fuel + 1 => do
    let stops := [.key, .value, .blockEnd]
    match ← peek with
    | some .blockEnd => skip; return []
    | some .key =>
      skip
      let key ← orAbsent stops (node fuel true true)
      let value ← markedValue stops (node fuel true true)
      return (key, value) :: (← blockPairs fuel)
    | some .value =>
      let value ← markedValue stops (node fuel true true)
      return (.absent, value) :: (← blockPairs fuel)
    | _ => failure

def flowPairs : (fuel : Nat) → (isFirst : Bool) → Grammar (List (Node × Node))
  | 0, _ => failure
  | fuel + 1, isFirst => do
    if ← nextIsIn [.flowMapEnd] then
      skip
      return []
    else
      separator isFirst
      let stops := [.flowEntry, .flowMapEnd]
      match ← peek with
      | some .flowMapEnd => skip; return []
      | some .key =>
        skip
        let key ← orAbsent (.value :: stops) (node fuel false false)
        let value ← markedValue stops (node fuel false false)
        return (key, value) :: (← flowPairs fuel false)
      | some .value =>
        let value ← markedValue stops (node fuel false false)
        return (.absent, value) :: (← flowPairs fuel false)
      | _ =>
        let key ← node fuel false false
        return (key, .absent) :: (← flowPairs fuel false)

/-- Between the brackets of a list a key makes a map of a single pair. If that key is left out, so
is the token that shows it. -/
def flowItems : (fuel : Nat) → (isFirst : Bool) → Grammar (List Node)
  | 0, _ => failure
  | fuel + 1, isFirst => do
    if ← nextIsIn [.flowListEnd] then
      skip
      return []
    else
      separator isFirst
      let stops := [.flowEntry, .flowListEnd]
      match ← peek with
      | some .flowListEnd => skip; return []
      | some .key =>
        skip
        let isAbsent ← nextIsIn (.value :: stops)
        let key ← if isAbsent then do skip; pure .absent else node fuel false false
        let value ← markedValue stops (node fuel false false)
        return .pairs [(key, value)] :: (← flowItems fuel false)
      | _ =>
        let item ← node fuel false false
        return item :: (← flowItems fuel false)

end

def dropTokens (token : Token) : Grammar Unit :=
  modify fun s => { s with tokens := s.tokens.dropWhile (· = token) }

def root (fuel : Nat) : Grammar Node := do
  if ← nextIsIn [.directive, .documentStart] then
    dropTokens .directive
    if (← next) = some .documentStart then
      if (← peek).isNone then return .absent
      else orAbsent [.directive, .documentStart, .documentEnd] (node fuel true false)
    else failure
  else node fuel true false

def document (fuel : Nat) : Grammar Document := do
  let root ← root fuel
  dropTokens .documentEnd
  if (← peek).isNone then return ⟨root, (← get).targets⟩ else failure

end Grammar

def Document.ofTokens? (tokens : List Token) : Option Document :=
  ((Grammar.document (2 * tokens.length + 2)).run ⟨tokens, [], []⟩).map (·.1)

end BehaviorTree.Yaml
