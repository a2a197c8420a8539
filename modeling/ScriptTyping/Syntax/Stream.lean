import ScriptTyping.Token

/-!
# Reading a stream of tokens

A `Stream` is the token in hand and those behind it; the last token stays in hand forever. A
`Parser` reads some tokens and gives a value, or a fault at a place.

**Weight.** A stream weighs one for each token, and two for `>>`, which can be split into two
closing brackets. Each step of a parser makes the stream lighter, so the weight bounds how often a
loop turns and how deep productions nest. A parser that went beyond this bound would report
`SyntaxFault.exhausted`, which no tokens lead to.
-/

namespace ScriptTyping

/-! ## Faults -/

/-- Why tokens are no program. -/
inductive SyntaxFault where
  | expected (kind : Kind) (context : String)
  | unexpected (kind : Kind)
  | unexpectedAfterType (kind : Kind)
  | unclosedAngle
  | invalidTarget
  | noLiteral
  | noType
  | noPropertyName
  /-- The turns of a loop, or the levels of nesting, are used up. -/
  | exhausted
deriving DecidableEq

def SyntaxFault.message : SyntaxFault → String
  | expected kind context =>
    if context = "" then "Expected " ++ kind.name else "Expected " ++ kind.name ++ " " ++ context
  | unexpected kind => "Unexpected " ++ kind.name
  | unexpectedAfterType kind => "Unexpected " ++ kind.name ++ " after type"
  | unclosedAngle => "Expected token '>'"
  | invalidTarget => "Invalid assignment target"
  | noLiteral => "Expected a literal"
  | noType => "Expected a type"
  | noPropertyName => "Unexpected property name"
  | exhausted => "Exhausted"

/-- A fault and its place. -/
structure ParseError where
  pos : Pos
  fault : SyntaxFault
deriving DecidableEq

/-- The words for a fault, with its place. -/
def ParseError.message (e : ParseError) : String :=
  s!"{e.fault.message} at line {e.pos.line}, column {e.pos.column}"

/-! ## Streams -/

/-- The token in hand and those behind it. -/
structure Stream where
  current : Token
  rest : List Token

/-- The end that a stream has when its tokens do not bring one. -/
def Token.ending : Token := ⟨.eof, .point ⟨0, 0, 0⟩, ""⟩

/-- What a token weighs. -/
def Token.weight (t : Token) : Nat := if t.kind = .symbol .shiftRight then 2 else 1

def Token.weightAll : List Token → Nat
  | [] => 0
  | t :: ts => t.weight + weightAll ts

namespace Stream

/-- The stream of some tokens. It ends with an end of text. -/
def ofTokens (ts : List Token) : Stream :=
  match if ts.getLast?.any (·.kind = .eof) then ts else ts ++ [Token.ending] with
  | [] => ⟨.ending, []⟩
  | t :: rest => ⟨t, rest⟩

def weight (s : Stream) : Nat := s.current.weight + Token.weightAll s.rest

/-- The stream behind the token in hand. -/
def next (s : Stream) : Stream :=
  match s.rest with
  | [] => s
  | t :: rest => ⟨t, rest⟩

def peek (s : Stream) : Token := s.rest.head?.getD s.current

/-- The stream whose first token, a `>>`, has lost its first half. -/
def halve (s : Stream) : Stream :=
  let first := s.current.span.first
  let first := { first with offset := first.offset + 1, column := first.column + 1 }
  { s with current := { s.current with
      kind := .symbol .greater, span := { s.current.span with first := first } } }

end Stream

/-! ## Parsers -/

/-- A reader of tokens. -/
abbrev Parser := StateT Stream (Except ParseError)

instance : Coe Symbol Kind := ⟨.symbol⟩
instance : Coe Keyword Kind := ⟨.keyword⟩

namespace Parser

def current : Parser Token := do return (← get).current

def kind : Parser Kind := do return (← get).current.kind

def peekKind : Parser Kind := do return (← get).peek.kind

def advance : Parser Unit := modify Stream.next

/-- Report a fault at the token in hand. -/
def fail (f : SyntaxFault) : Parser α := do throw ⟨(← current).span.first, f⟩

/-- Report that the token in hand can stand here in no way. -/
def unexpected : Parser α := do fail (.unexpected (← kind))

/-- Pass a token of some kind, if it is in hand. -/
def got (k : Kind) : Parser Bool := do
  if (← kind) = k then
    advance
    return true
  else
    return false

def expect (k : Kind) (context : String) : Parser Token := do
  let t ← current
  if ← got k then return t else fail (.expected k context)

def expectIdent (context : String) : Parser String := do
  return (← expect .ident context).data

/-- Take a closing angle bracket, which may be the first half of `>>`. -/
def expectCloseAngle : Parser Unit := do
  match ← kind with
  | .symbol .greater => advance
  | .symbol .shiftRight => modify Stream.halve
  | _ => fail .unclosedAngle

/-- Take a semicolon. Before a closing brace and at the end of the text it may be left out. -/
def expectSemi (context : String) : Parser Unit := do
  if ← got Symbol.semicolon then return
  match ← kind with
  | .symbol .closeBrace | .eof => return
  | _ => fail (.expected Symbol.semicolon context)

/-- Repeat a step, at most `n` times, until it gives a result. -/
def repeatFor (step : α → Parser (α ⊕ β)) : Nat → α → Parser β
  | 0, _ => fail .exhausted
  | n + 1, a => do
    match ← step a with
    | .inl a => repeatFor step n a
    | .inr b => return b

/-- Repeat a step until it gives a result. Each step but the last takes a token. -/
def iterate (step : α → Parser (α ⊕ β)) (a : α) : Parser β := do
  repeatFor step ((← get).weight + 1) a

/-- Items with a separator between each two. -/
def sepBy (separator : Symbol) (item : Parser α) : Parser (List α) :=
  iterate (fun xs => do
    let xs := xs ++ [← item]
    return if ← got separator then .inl xs else .inr xs) []

/-- Items up to a kind of token, with commas between them, and one behind the last if need be. -/
def commaUntil (stop : Symbol) (item : Parser α) : Parser (List α) :=
  iterate (fun xs => do
    if (← kind) = stop then return .inr xs
    let xs := xs ++ [← item]
    return if ← got Symbol.comma then .inl xs else .inr xs) []

/-- As `commaUntil`, but after an item either a comma or the stop follows. -/
def commaUntilStrict (stop : Symbol) (context : String) (item : Parser α) : Parser (List α) :=
  iterate (fun xs => do
    if (← kind) = stop then return .inr xs
    let xs := xs ++ [← item]
    if ← got Symbol.comma then return .inl xs
    if (← kind) = stop then return .inl xs
    fail (.expected Symbol.comma context)) []

/-- Items up to a kind of token. -/
def manyUntil (stop : Kind → Bool) (item : Parser α) : Parser (List α) :=
  iterate (fun xs => do
    if stop (← kind) then return .inr xs
    return .inl (xs ++ [← item])) []

end Parser

end ScriptTyping
