import ScriptTyping.Text.Quoted

/-!
# Tokens

A token is a kind, the span of text that it covers and, for names, literals and illegal text,
its data. Symbols and keywords are kinds of their own, so their spelling is a function of the
kind. Kinds are numbered: the end of the text, illegal text, the symbols, the keywords, then
identifiers, numbers and strings. A number outside that list is a kind that no text produces.

Operators: a binary operator has a binding power from 1, the loosest, to 10; all of them
associate to the left.
-/

namespace ScriptTyping

/-! ## Positions -/

/-- A place in a text. Offsets count characters from 0, lines and columns from 1. Tokens that were
not read from a text can have any place. -/
structure Pos where
  offset : Int
  line : Int
  column : Int
deriving DecidableEq, Inhabited

namespace Pos

/-- The place of the first character. -/
def start : Pos := ⟨0, 1, 1⟩

/-- The place after a character that stands at `p`. -/
def after (p : Pos) (c : Char) : Pos :=
  if c = '\n' then ⟨p.offset + 1, p.line + 1, 1⟩ else ⟨p.offset + 1, p.line, p.column + 1⟩

/-- The place after a run of characters that starts at `p`. -/
def afterAll (p : Pos) (cs : List Char) : Pos := cs.foldl after p

@[simp] theorem afterAll_nil (p : Pos) : p.afterAll [] = p := rfl

@[simp] theorem afterAll_cons (p : Pos) (c : Char) (cs : List Char) :
    p.afterAll (c :: cs) = (p.after c).afterAll cs := rfl

@[simp] theorem afterAll_append (p : Pos) (cs ds : List Char) :
    p.afterAll (cs ++ ds) = (p.afterAll cs).afterAll ds := by
  simp [afterAll]

def text (p : Pos) : String := s!"{p.line}:{p.column}"

end Pos

/-- The first and the last place of a token. -/
structure Span where
  first : Pos
  last : Pos
deriving DecidableEq, Inhabited

namespace Span

def point (p : Pos) : Span := ⟨p, p⟩

/-- The span of a run of characters that starts at `p`. -/
def ofLexeme (p : Pos) (cs : List Char) : Span := ⟨p, p.afterAll cs.dropLast⟩

/-- One place, two columns of a line, or two places. -/
def text (s : Span) : String :=
  if s.first = s.last then s.first.text
  else if s.first.line = s.last.line then s!"{s.first.text}-{s.last.column}"
  else s!"{s.first.text}-{s.last.text}"

end Span

/-! ## Kinds -/

/-- Operators and punctuation. -/
inductive Symbol where
  | plus | minus | star | slash | percent | amp | bar | caret | tilde | bang
  | less | greater | assign | colon | comma | dot | semicolon
  | openParen | closeParen | openBrace | closeBrace | openBracket | closeBracket | question
  | ampAmp | barBar | shiftLeft | shiftRight | equal | notEqual | lessEqual | greaterEqual | arrow
  | plusAssign | minusAssign | starAssign | slashAssign | percentAssign
  | ampAssign | barAssign | caretAssign | increment | decrement
  | ellipsis | shiftLeftAssign | shiftRightAssign
deriving DecidableEq

namespace Symbol

/-- All symbols, in the order of their numbers. -/
def all : List Symbol :=
  [plus, minus, star, slash, percent, amp, bar, caret, tilde, bang,
   less, greater, assign, colon, comma, dot, semicolon,
   openParen, closeParen, openBrace, closeBrace, openBracket, closeBracket, question,
   ampAmp, barBar, shiftLeft, shiftRight, equal, notEqual, lessEqual, greaterEqual, arrow,
   plusAssign, minusAssign, starAssign, slashAssign, percentAssign,
   ampAssign, barAssign, caretAssign, increment, decrement,
   ellipsis, shiftLeftAssign, shiftRightAssign]

def spelling : Symbol → String
  | plus => "+" | minus => "-" | star => "*" | slash => "/" | percent => "%"
  | amp => "&" | bar => "|" | caret => "^" | tilde => "~" | bang => "!"
  | less => "<" | greater => ">" | assign => "=" | colon => ":" | comma => "," | dot => "."
  | semicolon => ";" | openParen => "(" | closeParen => ")"
  | openBrace => "\x7b" | closeBrace => "\x7d" | openBracket => "[" | closeBracket => "]"
  | question => "?" | ampAmp => "&&" | barBar => "||" | shiftLeft => "<<" | shiftRight => ">>"
  | equal => "==" | notEqual => "!=" | lessEqual => "<=" | greaterEqual => ">=" | arrow => "->"
  | plusAssign => "+=" | minusAssign => "-=" | starAssign => "*=" | slashAssign => "/="
  | percentAssign => "%=" | ampAssign => "&=" | barAssign => "|=" | caretAssign => "^="
  | increment => "++" | decrement => "--"
  | ellipsis => "..." | shiftLeftAssign => "<<=" | shiftRightAssign => ">>="

/-- The binding power of a binary operator, and 0 for every other symbol. -/
def precedence : Symbol → Nat
  | barBar => 1
  | ampAmp => 2
  | bar => 3
  | caret => 4
  | amp => 5
  | equal | notEqual => 6
  | less | greater | lessEqual | greaterEqual => 7
  | shiftLeft | shiftRight => 8
  | plus | minus => 9
  | star | slash | percent => 10
  | _ => 0

/-- Operators that stand before their operand. -/
def isPrefixOp : Symbol → Bool
  | bang | minus | plus | tilde | increment | decrement => true
  | _ => false

/-- The assignment operator and the compound ones. -/
def isAssignment : Symbol → Bool
  | assign | plusAssign | minusAssign | starAssign | slashAssign | percentAssign
  | ampAssign | barAssign | caretAssign | shiftLeftAssign | shiftRightAssign => true
  | _ => false

/-- The symbol spelled by some characters. -/
def ofChars? (cs : List Char) : Option Symbol := all.find? fun s => s.spelling.toList == cs

end Symbol

/-- Reserved words. -/
inductive Keyword where
  | kFun | kAsync | kAwait | kLet | kIf | kElse | kWhile | kFor | kReturn | kBreak | kContinue
  | kStruct | kEnum | kTrue | kFalse
deriving DecidableEq

namespace Keyword

/-- All keywords, in the order of their numbers. -/
def all : List Keyword :=
  [kFun, kAsync, kAwait, kLet, kIf, kElse, kWhile, kFor, kReturn, kBreak, kContinue,
   kStruct, kEnum, kTrue, kFalse]

def spelling : Keyword → String
  | kFun => "fun" | kAsync => "async" | kAwait => "await" | kLet => "let" | kIf => "if"
  | kElse => "else" | kWhile => "while" | kFor => "for" | kReturn => "return"
  | kBreak => "break" | kContinue => "continue" | kStruct => "struct" | kEnum => "enum"
  | kTrue => "true" | kFalse => "false"

def ofSpelling? (s : String) : Option Keyword := all.find? fun k => k.spelling == s

end Keyword

/-- What a token is. -/
inductive Kind where
  | eof
  | illegal
  | symbol (s : Symbol)
  | keyword (k : Keyword)
  | ident
  | number
  | string
  /-- A number that stands for no kind. -/
  | unknown (code : Int)
deriving DecidableEq, Inhabited

namespace Kind

/-- The kinds that have a number, in order from 0. -/
def all : List Kind :=
  [eof, illegal] ++ Symbol.all.map symbol ++ Keyword.all.map keyword ++ [ident, number, string]

def ofCode (n : Int) : Kind :=
  if 0 ≤ n then all.getD n.toNat (unknown n) else unknown n

def code : Kind → Int
  | unknown n => n
  | k => all.idxOf k

/-- The name of a kind: symbols stand between single quotation marks. -/
def name : Kind → String
  | eof => "EOF"
  | illegal => "Illegal"
  | symbol s => "'" ++ s.spelling ++ "'"
  | keyword k => k.spelling
  | ident => "Ident"
  | number => "Number"
  | string => "String"
  | unknown n => "TokenType(" ++ toString n ++ ")"

/-- The binding power of a binary operator, and 0 for every other kind. -/
def precedence : Kind → Nat
  | symbol s => s.precedence
  | _ => 0

/-- Whether a kind is a binary operator. -/
def isBinaryOp (k : Kind) : Bool := k.precedence != 0

/-- Whether a kind is an operator that stands before its operand. -/
def isPrefixOp : Kind → Bool
  | symbol s => s.isPrefixOp
  | _ => false

/-- Whether a kind is an assignment operator. -/
def isAssignment : Kind → Bool
  | symbol s => s.isAssignment
  | _ => false

end Kind

/-! ## Tokens -/

/-- A piece of text with its kind. -/
structure Token where
  kind : Kind
  span : Span
  data : String
deriving DecidableEq, Inhabited

namespace Token

/-- Span, kind and, if there are any, data. -/
def describe (t : Token) : String :=
  if t.data = "" then s!"{t.span.text}:{t.kind.name}"
  else s!"{t.span.text}:{t.kind.name} {Text.quote t.data}"

/-- The data, or the spelling of the kind where there are none. -/
def text (t : Token) : String :=
  if t.data ≠ "" then t.data
  else match t.kind with
    | .symbol s => s.spelling
    | k => k.name

/-- Tokens are alike when they have the same kind and data, wherever they stand. -/
def alike (a b : Token) : Bool := a.kind == b.kind && a.data == b.data

end Token

end ScriptTyping
