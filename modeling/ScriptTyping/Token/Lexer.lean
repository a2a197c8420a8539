import ScriptTyping.Text.Blank
import ScriptTyping.Text.Identifier
import ScriptTyping.Token

/-!
# Lexing

A `Cursor` is what is left of a text, with its place. `Cursor.next` skips blanks and comments and
reads one token. What it reads is a run of characters, the lexeme, that is split off the text, so
that places are computed from lexemes alone.

**Order of the rules.** End of the text, identifier or keyword, number, string, then the longest
symbol. A character that starts none of these is an illegal token of its own, and reading goes on
behind it.

**Progress.** Every token but the end of the text takes at least one character
(`Cursor.next_rest_lt`), so `tokenize` ends by the length of what is left.
-/

namespace ScriptTyping

/-! ## Blanks and comments -/

namespace Trivia

/-- Where the characters between two tokens stand: between comments, in a comment that ends with
its line, or in a closed comment that began at some place. -/
inductive Mode where
  | between
  | line
  | block (start : Pos)
deriving DecidableEq

/-- What is left after blanks and comments, and where a comment began that does not end. -/
structure Skipped where
  unclosed : Option Pos
  pos : Pos
  rest : List Char

/-- Skip blanks and comments. -/
def skip : Mode → Pos → List Char → Skipped
  | .between, p, '/' :: '/' :: cs => skip .line ((p.after '/').after '/') cs
  | .between, p, '/' :: '*' :: cs => skip (.block p) ((p.after '/').after '*') cs
  | .between, p, c :: cs =>
    if Text.isBlank c then skip .between (p.after c) cs else ⟨none, p, c :: cs⟩
  | .line, p, c :: cs =>
    if c = '\n' then skip .between (p.after c) cs else skip .line (p.after c) cs
  | .block _, p, '*' :: '/' :: cs => skip .between ((p.after '*').after '/') cs
  | .block start, p, c :: cs => skip (.block start) (p.after c) cs
  | .block start, p, [] => ⟨some start, p, []⟩
  | _, p, [] => ⟨none, p, []⟩

end Trivia

/-! ## Numbers -/

def isDecimal (c : Char) : Bool := '0' ≤ c && c ≤ '9'

/-- A lexeme, the data that it stands for and the text behind it. -/
structure Lexeme where
  chars : List Char
  data : List Char
  rest : List Char

/-- A number: digits, between which `_` may stand, and a fraction if a digit follows the point. -/
def scanNumber (cs : List Char) : Lexeme :=
  let whole := cs.takeWhile fun c => isDecimal c || c == '_'
  let digits := whole.filter (· != '_')
  match cs.dropWhile fun c => isDecimal c || c == '_' with
  | '.' :: d :: rest =>
    if isDecimal d then
      let fraction := '.' :: (d :: rest).takeWhile isDecimal
      ⟨whole ++ fraction, digits ++ fraction, (d :: rest).dropWhile isDecimal⟩
    else ⟨whole, digits, '.' :: d :: rest⟩
  | rest => ⟨whole, digits, rest⟩

/-! ## Strings -/

/-- Why a text is no token. -/
inductive Fault where
  | unclosedComment
  | unclosedString
  | unknownEscape (c : Char)
  | unexpected (c : Char)
deriving DecidableEq

def Fault.message : Fault → String
  | unclosedComment => "unterminated comment"
  | unclosedString => "unterminated string literal"
  | unknownEscape c => String.ofList ("unknown escape sequence '\\".toList ++ [c, '\x27'])
  | unexpected c => "Unexpected character " ++ Text.quoteChar c

/-- The character that an escape stands for. -/
def escapeValue : Char → Option Char
  | 'n' => some '\n'
  | 't' => some '\t'
  | 'r' => some '\r'
  | '0' => some '\x00'
  | '\\' => some '\\'
  | '"' => some '"'
  | '\x27' => some '\x27'
  | _ => none

/-- The part of a string behind its opening mark: the characters read, the value that they stand
for, what went wrong, and the text behind it. -/
structure StringBody where
  chars : List Char
  value : List Char
  fault : Option Fault
  rest : List Char

namespace StringBody

/-- A body that begins with some characters that stand for one. -/
def cons (cs : List Char) (v : Char) (b : StringBody) : StringBody :=
  { b with chars := cs ++ b.chars, value := v :: b.value }

/-- Read up to the closing mark. A string ends on its line. -/
def scan (mark : Char) : List Char → StringBody
  | [] => ⟨[], [], some .unclosedString, []⟩
  | c :: cs =>
    if c = mark then ⟨[c], [], none, cs⟩
    else if c = '\n' then ⟨[], [], some .unclosedString, c :: cs⟩
    else if c = '\\' then
      match cs with
      | [] => ⟨[c], [], some (.unknownEscape '�'), []⟩
      | e :: cs =>
        match escapeValue e with
        | some v => (scan mark cs).cons [c, e] v
        | none => ⟨[c], [], some (.unknownEscape e), e :: cs⟩
    else (scan mark cs).cons [c] c

end StringBody

/-! ## The cursor -/

/-- What is left of a text, and its place. -/
structure Cursor where
  pos : Pos
  rest : List Char

namespace Cursor

/-- The beginning of a text. -/
def ofString (s : String) : Cursor := ⟨.start, s.toList⟩

/-- A token for a lexeme at `p`, and the cursor behind it. -/
def accept (kind : Kind) (p : Pos) (l : Lexeme) : Token × Cursor :=
  (⟨kind, .ofLexeme p l.chars, String.ofList l.data⟩, ⟨p.afterAll l.chars, l.rest⟩)

/-- An identifier, or the keyword of that spelling. -/
def word (p : Pos) (cs : List Char) : Token × Cursor :=
  let chars := cs.takeWhile Text.isIdentContinue
  let rest := cs.dropWhile Text.isIdentContinue
  match Keyword.ofSpelling? (String.ofList chars) with
  | some k => accept (.keyword k) p ⟨chars, [], rest⟩
  | none => accept .ident p ⟨chars, chars, rest⟩

/-- A string that opens with `mark`. An illegal one ends where reading stopped. -/
def string (p : Pos) (mark : Char) (cs : List Char) : Token × Cursor :=
  let b := StringBody.scan mark cs
  match b.fault with
  | none => accept .string p ⟨mark :: b.chars, b.value, b.rest⟩
  | some f =>
    let here := p.afterAll (mark :: b.chars)
    (⟨.illegal, ⟨p, here⟩, f.message⟩, ⟨here, b.rest⟩)

/-- The symbol of `n` characters at the front of a text. -/
def symbolOfLength? (n : Nat) (cs : List Char) : Option Symbol := Symbol.ofChars? (cs.take n)

/-- The longest symbol at the front of a text. -/
def symbol? (cs : List Char) : Option Symbol :=
  symbolOfLength? 3 cs <|> symbolOfLength? 2 cs <|> symbolOfLength? 1 cs

/-- A symbol, or else one illegal character. -/
def symbol (p : Pos) (c : Char) (cs : List Char) : Token × Cursor :=
  match symbol? (c :: cs) with
  | some s =>
    let n := s.spelling.toList.length
    accept (.symbol s) p ⟨(c :: cs).take n, [], (c :: cs).drop n⟩
  | none => (⟨.illegal, .point p, (Fault.unexpected c).message⟩, ⟨p.after c, cs⟩)

/-- The token at `p`, where no blank and no comment stands. -/
def token (p : Pos) : List Char → Token × Cursor
  | [] => (⟨.eof, .point p, ""⟩, ⟨p, []⟩)
  | c :: cs =>
    if Text.isIdentStart c then word p (c :: cs)
    else if isDecimal c then accept .number p (scanNumber (c :: cs))
    else if c = '"' || c = '\x27' then string p c cs
    else symbol p c cs

/-- Skip blanks and comments, and read one token. -/
def next (c : Cursor) : Token × Cursor :=
  let t := Trivia.skip .between c.pos c.rest
  match t.unclosed with
  | some start => (⟨.illegal, .point start, Fault.unclosedComment.message⟩, ⟨t.pos, t.rest⟩)
  | none => token t.pos t.rest

/-- The first `n` tokens, also past illegal ones and past the end of the text. -/
def tokens : Nat → Cursor → List Token
  | 0, _ => []
  | n + 1, c => c.next.1 :: tokens n c.next.2

end Cursor

/-! ## Progress -/

theorem Trivia.skip_rest_le (m : Mode) (p : Pos) (cs : List Char) :
    (skip m p cs).rest.length ≤ cs.length := by
  fun_induction skip m p cs <;> simp_all <;> omega

theorem Trivia.skip_rest_eq_nil {m : Mode} {p : Pos} {cs : List Char}
    (h : (skip m p cs).unclosed.isSome) : (skip m p cs).rest = [] := by
  fun_induction skip m p cs <;> simp_all

theorem StringBody.scan_rest_le (mark : Char) (cs : List Char) : (scan mark cs).rest.length ≤ cs.length := by
  fun_induction scan mark cs <;> simp_all [StringBody.cons] <;> omega

theorem scanNumber_rest_lt {c : Char} (h : isDecimal c = true) (cs : List Char) :
    (scanNumber (c :: cs)).rest.length < (c :: cs).length := by
  have hle : ∀ (q : Char → Bool) (l : List Char), (l.dropWhile q).length ≤ l.length := fun q l =>
    (List.dropWhile_suffix q).length_le
  have hdrop := hle (fun c => isDecimal c || c == '_') cs
  unfold scanNumber
  simp only [List.dropWhile_cons, h, Bool.true_or, if_true]
  split
  next d rest heq =>
    have hrest := hle isDecimal (d :: rest)
    have := congrArg List.length heq
    split <;> simp_all
    all_goals omega
  next => exact Nat.lt_succ_of_le hdrop

theorem Symbol.spelling_length_pos (s : Symbol) : 0 < s.spelling.toList.length := by
  cases s <;> decide

namespace Cursor

theorem word_rest_lt {c : Char} (h : Text.isIdentStart c = true) (p : Pos) (cs : List Char) :
    (word p (c :: cs)).2.rest.length < (c :: cs).length := by
  have hle : (cs.dropWhile Text.isIdentContinue).length ≤ cs.length :=
    (List.dropWhile_suffix Text.isIdentContinue).length_le
  have hcont := Text.isIdentContinue_of_isIdentStart h
  simp only [word, accept]
  split <;> simp only [List.dropWhile_cons, hcont, if_true, List.length_cons] <;> omega

theorem string_rest_lt (p : Pos) (c : Char) (cs : List Char) :
    (string p c cs).2.rest.length < (c :: cs).length := by
  have hle := StringBody.scan_rest_le c cs
  simp only [string, accept]
  split <;> simp only [List.length_cons] <;> omega

theorem symbol_rest_lt (p : Pos) (c : Char) (cs : List Char) :
    (symbol p c cs).2.rest.length < (c :: cs).length := by
  unfold symbol accept
  split
  next s _ =>
    have hpos := Symbol.spelling_length_pos s
    simp only [List.length_drop, List.length_cons]
    omega
  next => simp

theorem token_rest_lt {p : Pos} {cs : List Char} (h : (token p cs).1.kind ≠ .eof) :
    (token p cs).2.rest.length < cs.length := by
  cases cs with
  | nil => simp [token] at h
  | cons c cs =>
    simp only [token]
    split
    · exact word_rest_lt ‹_› p cs
    · split
      · exact scanNumber_rest_lt ‹_› cs
      · split
        · exact string_rest_lt p c cs
        · exact symbol_rest_lt p c cs

/-- Every token but the end of the text takes at least one character. -/
theorem next_rest_lt {c : Cursor} (h : c.next.1.kind ≠ .eof) : c.next.2.rest.length < c.rest.length := by
  have hle := Trivia.skip_rest_le .between c.pos c.rest
  unfold next at h ⊢
  simp only at h ⊢
  split
  next start heq =>
    have hnil : (Trivia.skip .between c.pos c.rest).rest = [] :=
      Trivia.skip_rest_eq_nil (by simp [heq])
    cases hrest : c.rest with
    | nil => simp [hrest, Trivia.skip] at heq
    | cons d ds => rw [hrest] at hnil; simp [hnil]
  next heq =>
    rw [heq] at h
    exact Nat.lt_of_lt_of_le (token_rest_lt h) hle

end Cursor

/-! ## Whole texts -/

/-- An illegal token. -/
structure LexError where
  pos : Pos
  reason : String
deriving DecidableEq

/-- The words for an illegal token, with its place. -/
def LexError.message (e : LexError) : String :=
  s!"{e.reason} at line {e.pos.line}, column {e.pos.column}"

/-- All tokens of a text up to its end, or the first that is illegal. -/
def Cursor.tokenize (c : Cursor) : Except LexError (List Token) :=
  let t := c.next.1
  if t.kind = .illegal then .error ⟨t.span.first, t.data⟩
  else if t.kind = .eof then .ok [t]
  else (tokenize c.next.2).map (t :: ·)
termination_by c.rest.length
decreasing_by exact next_rest_lt ‹_›

/-- All tokens of a text. The last one is its end. -/
def tokenize (s : String) : Except LexError (List Token) := (Cursor.ofString s).tokenize

end ScriptTyping
