import ScriptTyping.Yaml.Token
import ScriptTyping.Yaml.Value

/-!
# Documents in YAML

What a text says is the value of its first document. Of what follows that, only the next tokens are
looked at. There are no tags and no directives.
-/

namespace ScriptTyping

namespace Yaml

/-- The values that have names, the latest first. -/
abbrev Names := List (String × Value)

/-- A reader of values. -/
abbrev Reading := StateT Names Reader

def next : Reading Token := peek

/-- A value, or nothing where one of some tokens stands. -/
def orEmpty (bounds : List Token) (value : Reading Value) : Reading Value := do
  if (← next) ∈ bounds then return .empty else value

/-- A value behind a colon, which may be left out. -/
def behindColon (bounds : List Token) (value : Reading Value) : Reading Value := do
  if (← next) = .value then
    take
    orEmpty bounds value
  else return .empty

/-- Whether a comma is passed before the next item between brackets, which is not the first. -/
def passComma (first : Bool) : Reading Unit := do
  if !first then
    guard ((← next) = .flowEntry)
    take

/-- What may stand behind an entry of a mapping in a block. -/
def entryBounds : List Token := [.key, .value, .blockEnd]

mutual

/-- A value. In a block it may be a block; below a key it may be a sequence in the same column. -/
def readValueAt : Nat → (inBlock belowKey : Bool) → Reading Value
  | 0, _, _ => failure
  | n + 1, inBlock, belowKey => do
    match ← next with
    | .mention name =>
      take
      match (← get).lookup name with
      | some v => return .mention v
      | none => failure
    | .anchor name =>
      take
      let depth := (← get).length
      modify ((name, .knot) :: ·)
      let v ← readContent n inBlock belowKey true
      modify fun names => names.set (names.length - 1 - depth) (name, v)
      return v
    | _ => readContent n inBlock belowKey false

/-- A value without its name. If it has one, it may be left out. -/
def readContent : Nat → (inBlock belowKey named : Bool) → Reading Value
  | 0, _, _, _ => failure
  | n + 1, inBlock, belowKey, named => do
    match ← next, inBlock, belowKey with
    | .scalar text plain, _, _ =>
      take
      return .scalar text plain
    | .blockEntry, _, true => return .seq (← readItemsBelowKey n)
    | .blockSeq, true, _ =>
      take
      return .seq (← readItems n)
    | .blockMap, true, _ =>
      take
      return .map (← readEntries n)
    | .flowSeq, _, _ =>
      take
      return .seq (← readFlowItems n true)
    | .flowMap, _, _ =>
      take
      return .map (← readFlowEntries n true)
    | _, _, _ =>
      guard named
      return .empty

/-- The items of a sequence in a block. -/
def readItems : Nat → Reading (List Value)
  | 0 => failure
  | n + 1 => do
    match ← next with
    | .blockEntry =>
      take
      let item ← orEmpty [.blockEntry, .blockEnd] (readValueAt n true false)
      return item :: (← readItems n)
    | .blockEnd =>
      take
      return []
    | _ => failure

/-- The items of a sequence in the column of its key. -/
def readItemsBelowKey : Nat → Reading (List Value)
  | 0 => failure
  | n + 1 => do
    match ← next with
    | .blockEntry =>
      take
      let item ← orEmpty (.blockEntry :: entryBounds) (readValueAt n true false)
      return item :: (← readItemsBelowKey n)
    | _ => return []

/-- The entries of a mapping in a block. -/
def readEntries : Nat → Reading (List (Value × Value))
  | 0 => failure
  | n + 1 => do
    match ← next with
    | .key =>
      take
      let key ← orEmpty entryBounds (readValueAt n true true)
      let value ← behindColon entryBounds (readValueAt n true true)
      return (key, value) :: (← readEntries n)
    | .blockEnd =>
      take
      return []
    | _ => failure

/-- The items of a sequence between brackets. A key and its value are a mapping. -/
def readFlowItems : Nat → (first : Bool) → Reading (List Value)
  | 0, _ => failure
  | n + 1, first => do
    if (← next) = .flowSeqEnd then
      take
      return []
    passComma first
    match ← next with
    | .flowSeqEnd =>
      take
      return []
    | .key =>
      take
      let bounds := [Token.flowEntry, .flowSeqEnd]
      let key ←
        if (← next) ∈ Token.value :: bounds then do
          take
          pure Value.empty
        else readValueAt n false false
      let value ← behindColon bounds (readValueAt n false false)
      return .map [(key, value)] :: (← readFlowItems n false)
    | _ =>
      let item ← readValueAt n false false
      return item :: (← readFlowItems n false)

/-- The entries of a mapping between brackets. -/
def readFlowEntries : Nat → (first : Bool) → Reading (List (Value × Value))
  | 0, _ => failure
  | n + 1, first => do
    if (← next) = .flowMapEnd then
      take
      return []
    passComma first
    match ← next with
    | .flowMapEnd =>
      take
      return []
    | .key =>
      take
      let bounds := [Token.flowEntry, .flowMapEnd]
      let key ← orEmpty (.value :: bounds) (readValueAt n false false)
      let value ← behindColon bounds (readValueAt n false false)
      return (key, value) :: (← readFlowEntries n false)
    | _ =>
      let key ← readValueAt n false false
      return (key, .empty) :: (← readFlowEntries n false)

end

/-- The value of the first document. -/
def readDocument (n : Nat) : Reading Value := do
  match ← next with
  | .streamEnd => return .empty
  | .documentStart =>
    take
    let v ← orEmpty [.documentStart, .documentEnd, .streamEnd] (readValueAt n true false)
    discard next
    return v
  | _ =>
    let v ← readValueAt n true false
    discard next
    return v

/-- What a text says. There are less than four tokens for each character, and a step of the reader
but one in two takes one of them. -/
def parse? (source : String) : Option Value :=
  let cs := source.toList
  if cs.all isAllowed then
    let rest := unifyBreaks (if cs.head? = some '\ufeff' then cs.tail else cs)
    ((readDocument (8 * rest.length + 16)).run' []).run' { rest }
  else none

end Yaml

end ScriptTyping
