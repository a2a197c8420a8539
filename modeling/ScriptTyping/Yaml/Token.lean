import ScriptTyping.Yaml.Scalar

/-!
# Tokens of YAML documents

**Layout.** In a block, structure is given by columns: the entries of a mapping or a sequence stand
in one column, and what belongs to an entry stands to the right of it. Tokens say where a block
starts and ends. Between brackets, columns do not matter.

**Keys.** Whether a scalar is a key shows only at the colon behind it. So the place of what may be a
key is kept, and the tokens that make it one are put before it once the colon is found. A key has
its colon on its own line, within 1024 characters.

**Reading ahead.** Tokens are read when they are asked for, with two more behind them. A fault
further on is not found.
-/

namespace ScriptTyping

namespace Yaml

/-- A unit of a document. -/
inductive Token where
  | streamEnd
  | documentStart
  | documentEnd
  | blockSeq
  | blockMap
  | blockEnd
  | flowSeq
  | flowSeqEnd
  | flowMap
  | flowMapEnd
  | blockEntry
  | flowEntry
  | key
  | value
  | anchor (name : String)
  | mention (name : String)
  | scalar (text : String) (plain : Bool)
deriving DecidableEq

/-- A token that may start a key. -/
structure Key where
  /-- How many tokens stand before it. -/
  number : Nat
  mark : Mark
  /-- Whether nothing but a key can stand there. -/
  required : Bool

/-- A document that is being read. -/
structure Source where
  rest : List Char
  mark : Mark := ⟨0, 0⟩
  /-- The columns of the blocks around, the inner ones first. -/
  blocks : List Nat := []
  /-- What may be a key between the same brackets. -/
  key : Option Key := none
  /-- What may be a key between the brackets around, the inner ones first. -/
  outer : List (Option Key) := []
  /-- Whether a key may start here. -/
  keyAllowed : Bool := true
  /-- The tokens that have been read ahead. -/
  tokens : List Token := []
  /-- How many tokens have been taken. -/
  taken : Nat := 0

namespace Source

/-- Whether one is between brackets. -/
def inFlow (s : Source) : Bool := !s.outer.isEmpty

/-- The first column that is to the right of the block around. -/
def margin (s : Source) : Nat :=
  match s.blocks with
  | [] => 0
  | column :: _ => column + 1

/-- Whether the colon of a key can stand here. -/
def isNear (s : Source) (k : Key) : Bool :=
  k.mark.line = s.mark.line && s.mark.column ≤ k.mark.column + 1024

/-- What may be a key and is the next token to be taken. -/
def nextKey? (s : Source) : Option Key :=
  (s.key :: s.outer).findSome? fun k => k.filter fun k => k.number = s.taken

end Source

/-- A reader of a document, which may refuse it. -/
abbrev Reader := StateT Source Option

/-- Pass some characters of the line. -/
def pass (count : Nat) : Reader Unit :=
  modify fun s => { s with rest := s.rest.drop count, mark := s.mark.pass count }

/-- Allow or forbid a key here. -/
def allowKey (allowed : Bool) : Reader Unit := modify fun s => { s with keyAllowed := allowed }

def emit (t : Token) : Reader Unit := modify fun s => { s with tokens := s.tokens ++ [t] }

/-- Put a token before the one of some number. -/
def insertAt (number : Nat) (t : Token) : Reader Unit :=
  modify fun s =>
    let (before, behind) := s.tokens.splitAt (number - s.taken)
    { s with tokens := before ++ t :: behind }

/-! ## Blanks and comments -/

/-- Where one is while blanks are skipped. -/
structure Skip where
  /-- Whether tabs may stand here. -/
  tabs : Bool
  inComment : Bool := false
  /-- Whether only blanks stand between here and a comment before. -/
  behindComment : Bool := false
  /-- Whether a line has been ended. -/
  broke : Bool := false

/-- Skip blanks, line breaks and comments. In a block, no tab may stand at the start of a line,
unless the line is a comment below a comment. A byte order mark may stand at the start of a line. -/
def skipFrom (inFlow : Bool) : Skip → Mark → List Char → Bool × Mark × List Char
  | k, m, [] => (k.broke, m, [])
  | k, m, c :: cs =>
    if isBreak c then
      skipFrom inFlow { k with tabs := inFlow, inComment := false, broke := true } m.newLine cs
    else if k.inComment || c = ' ' || (c = '\t' && k.tabs) || (c = '\ufeff' && m.column = 0) then
      skipFrom inFlow k m.next cs
    else if c = '#' then
      skipFrom inFlow { k with inComment := true, behindComment := true } m.next cs
    else if c = '\t' && k.behindComment &&
        (cs.dropWhile fun c => isBlank c || isBreak c).head? = some '#' then
      skipFrom inFlow k m.next cs
    else (k.broke, m, c :: cs)

/-- Go on to the next character that says something. In a block, a key may start on a new line. -/
def skip : Reader Unit :=
  modify fun s =>
    let (broke, mark, rest) :=
      skipFrom s.inFlow { tabs := s.inFlow || !s.keyAllowed } s.mark s.rest
    { s with rest, mark, keyAllowed := s.keyAllowed || (broke && !s.inFlow) }

/-- Skip a comment at the end of the line. -/
def skipComment : Reader Unit := do
  let rest := (← get).rest
  let blanks := rest.takeWhile isBlank
  let comment := (rest.drop blanks.length).takeWhile fun c => !isBreak c
  if comment.head? = some '#' then pass (blanks.length + comment.length)

/-! ## Blocks and keys -/

/-- Start a block in some column if that is to the right of the block around. Its token goes before
the one of some number, or to the end. -/
def openBlock (column : Nat) (number : Option Nat) (t : Token) : Reader Unit := do
  let s ← get
  if !s.inFlow && s.margin ≤ column then
    set { s with blocks := column :: s.blocks }
    insertAt (number.getD (s.taken + s.tokens.length)) t

/-- End the blocks that do not reach to the left as far as some margin. -/
def closeBlocks (margin : Nat) : Reader Unit :=
  modify fun s =>
    if s.inFlow then s else
      let (closed, blocks) := s.blocks.span fun column => margin ≤ column
      { s with blocks, tokens := s.tokens ++ closed.map fun _ => .blockEnd }

/-- What may be a key is none. -/
def dropKey : Reader Unit := do
  guard !((← get).key.any fun k => k.required)
  modify fun s => { s with key := none }

/-- The next token may start a key, if one is allowed. -/
def saveKey : Reader Unit := do
  if (← get).keyAllowed then
    dropKey
    modify fun s =>
      let required := !s.inFlow && s.blocks.head? = some s.mark.column
      { s with key := some ⟨s.taken + s.tokens.length, s.mark, required⟩ }

/-- Whether the colon of what may be a key can stand here. One that is required must have it. -/
def holds (k : Key) : Reader Bool := do
  let near := (← get).isNear k
  guard (near || !k.required)
  return near

/-! ## Tokens -/

def readEnd : Reader Unit := do
  modify fun s => { s with mark := if s.mark.column = 0 then s.mark else s.mark.newLine }
  closeBlocks 0
  dropKey
  allowKey false
  emit .streamEnd

/-- A mark of the bounds of a document. -/
def readDocumentMark (t : Token) : Reader Unit := do
  closeBlocks 0
  dropKey
  allowKey false
  pass 3
  emit t

def readOpening (t : Token) : Reader Unit := do
  saveKey
  modify fun s => { s with key := none, outer := s.key :: s.outer }
  allowKey true
  pass 1
  emit t

def readClosing (t : Token) : Reader Unit := do
  dropKey
  modify fun s =>
    match s.outer with
    | [] => s
    | key :: outer => { s with key, outer }
  allowKey false
  pass 1
  emit t

/-- A comma between brackets. -/
def readFlowEntry : Reader Unit := do
  dropKey
  allowKey true
  pass 1
  emit .flowEntry

/-- Start an entry of a block, which is possible only where a key may start. -/
def startEntry (t : Token) : Reader Unit := do
  let s ← get
  if !s.inFlow then
    guard s.keyAllowed
    openBlock s.mark.column none t

/-- A dash before an item. -/
def readBlockEntry : Reader Unit := do
  startEntry .blockSeq
  dropKey
  allowKey true
  pass 1
  emit .blockEntry

/-- A question mark before a key. -/
def readKey : Reader Unit := do
  startEntry .blockMap
  dropKey
  allowKey !(← get).inFlow
  pass 1
  emit .key

/-- What may be a key here, if the colon of it can stand here. -/
def heldKey? : Reader (Option Key) := do
  match (← get).key with
  | none => return none
  | some k => return if ← holds k then some k else none

/-- A colon before a value. It makes a key of what may be one. -/
def readValue : Reader Unit := do
  match ← heldKey? with
  | some k =>
    insertAt k.number .key
    openBlock k.mark.column (some k.number) .blockMap
    modify fun s => { s with key := none }
    allowKey false
  | none =>
    startEntry .blockMap
    allowKey !(← get).inFlow
  pass 1
  emit .value

/-- Whether a character may stand in a name of a value. -/
def isNameChar (c : Char) : Bool := c.isAlphanum || c = '_' || c = '-'

/-- A name of a value behind its mark. -/
def readName (t : String → Token) : Reader Unit := do
  saveKey
  allowKey false
  pass 1
  let rest := (← get).rest
  let name := rest.takeWhile isNameChar
  let behind := rest.drop name.length
  guard (!name.isEmpty &&
    (isBoundary behind || behind.head?.any fun c => c ∈ ['?', ':', ',', ']', '\x7d', '%', '@', '\x60']))
  pass name.length
  emit (t (String.ofList name))

/-- Go on behind a scalar. -/
def readPiece (plain : Bool) (p : Option Piece) : Reader Unit := do
  let p ← p
  modify fun s => { s with rest := p.rest, mark := p.mark }
  emit (.scalar (String.ofList p.text) plain)
  if p.broke then allowKey true else skipComment

def readQuoted (scan : Gap → Mark → List Char → Option Piece) : Reader Unit := do
  saveKey
  allowKey false
  pass 1
  let s ← get
  readPiece false (scan .none s.mark s.rest)

/-- A block of lines. -/
def readLines (folded : Bool) : Reader Unit := do
  dropKey
  pass 1
  let s ← get
  readPiece false (blockFrom folded s.margin s.mark s.rest)

def readPlain : Reader Unit := do
  saveKey
  allowKey false
  let s ← get
  guard (startsPlain s.inFlow s.rest)
  readPiece true (plainFrom s.inFlow s.margin .none s.mark s.rest)

/-- Read a token other than a scalar, which starts with some character. -/
def readMark (c : Char) : Reader Unit := do
  match c with
  | '[' => readOpening .flowSeq
  | '\x7b' => readOpening .flowMap
  | ']' => readClosing .flowSeqEnd
  | '\x7d' => readClosing .flowMapEnd
  | ',' => readFlowEntry
  | '?' => readKey
  | ':' => readValue
  | '*' => readName .mention
  | '&' => readName .anchor
  | _ => failure
  skipComment

/-- Read the next tokens: what a character starts, and before it the ends of blocks. -/
def read : Reader Unit := do
  skip
  closeBlocks ((← get).mark.column + 1)
  let s ← get
  match s.rest with
  | [] => readEnd
  | c :: cs =>
    if s.mark.column = 0 && isDocumentMark s.rest then
      readDocumentMark (if c = '-' then .documentStart else .documentEnd)
    else if c = '-' && isBoundary cs then readBlockEntry
    else if c ∈ ['[', ']', '\x7b', '\x7d', ',', '*', '&'] ||
        ((c = '?' || c = ':') && (s.inFlow || isBoundary cs)) then readMark c
    else if c = '\x27' then readQuoted singleFrom
    else if c = '\x22' then readQuoted (doubleFrom none)
    else if (c = '|' || c = '>') && !s.inFlow then readLines (c = '>')
    else readPlain

/-! ## Reading ahead -/

/-- Whether more must be read before the next token can be taken. -/
def mustRead : Reader Bool := do
  let s ← get
  if s.tokens.length < 3 then return true
  match s.nextKey? with
  | none => return false
  | some k => holds k

/-- Read until the next token can be taken, in at most `n` steps. -/
def readAhead : Nat → Reader Unit
  | 0 => failure
  | n + 1 => do
    if ← mustRead then
      read
      readAhead n

/-- The next token. Each step of reading ahead takes a character or finds the end of the text. -/
def peek : Reader Token := do
  readAhead ((← get).rest.length + 4)
  (← get).tokens.head?

def take : Reader Unit :=
  modify fun s => { s with tokens := s.tokens.tail, taken := s.taken + 1 }

end Yaml

end ScriptTyping
