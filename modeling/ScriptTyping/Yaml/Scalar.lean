/-!
# How YAML writes scalars

A scalar is written plain, in single or double quotes, or as a block of lines behind `|` or `>`.

**Folding.** Outside blocks, a scalar may go on in the next line. A line break between two words
stands for a blank, and empty lines between them stand for line breaks.

**Line breaks.** A line ends in a line feed, a line separator or a paragraph separator; a text is
brought to this form before it is read.
-/

namespace ScriptTyping

namespace Yaml

/-! ## Characters -/

/-- Whether a character may stand in a document: no control character but those of layout. -/
def isAllowed (c : Char) : Bool :=
  let code := c.toNat
  code ∈ [0x9, 0xa, 0xd, 0x85] || (0x20 ≤ code && code ≤ 0x7e) ||
    (0xa0 ≤ code && code ≠ 0xfffe && code ≠ 0xffff)

/-- A text in which a line feed stands for each of the characters that mean the same. -/
def unifyBreaks : List Char → List Char
  | [] => []
  | '\r' :: '\n' :: cs => '\n' :: unifyBreaks cs
  | c :: cs => (if c = '\r' || c = '\x85' then '\n' else c) :: unifyBreaks cs

def isBreak (c : Char) : Bool := c ∈ ['\n', '\u2028', '\u2029']

/-- Whether a character divides words within a line. -/
def isBlank (c : Char) : Bool := c = ' ' || c = '\t'

/-- Whether a word can end before what follows. -/
def isBoundary : List Char → Bool
  | [] => true
  | c :: _ => isBlank c || isBreak c

/-- Whether what follows, at the start of a line, marks the bounds of a document. -/
def isDocumentMark (cs : List Char) : Bool :=
  (['-', '-', '-'].isPrefixOf cs || ['.', '.', '.'].isPrefixOf cs) && isBoundary (cs.drop 3)

/-- The characters that part the items between brackets. -/
def flowMarks : List Char := [',', '[', ']', '\x7b', '\x7d']

/-- The characters with which no plain scalar starts. -/
def marks : List Char :=
  flowMarks ++ ['-', '?', ':', '#', '&', '*', '!', '|', '>', '\x27', '\x22', '%', '@', '\x60']

/-! ## Places -/

/-- A place in a document, counted from 0. -/
structure Mark where
  line : Nat
  column : Nat
deriving DecidableEq

/-- The place behind some characters of the line. -/
def Mark.pass (m : Mark) (count : Nat) : Mark := { m with column := m.column + count }

/-- The place behind one character of the line. -/
def Mark.next (m : Mark) : Mark := m.pass 1

def Mark.newLine (m : Mark) : Mark := ⟨m.line + 1, 0⟩

/-- A scalar that has been read, what follows it, and whether that is on a line behind it. -/
structure Piece where
  text : List Char
  rest : List Char
  mark : Mark
  broke : Bool

/-- A scalar with more text before it. -/
def Piece.after (cs : List Char) (p : Piece) : Piece := { p with text := cs ++ p.text }

/-! ## Folding -/

/-- What stands between two words: blanks on one line, or line breaks. A first line break that is
escaped does not count. -/
inductive Gap where
  | blanks (cs : List Char)
  | breaks (first : Option Char) (more : List Char)

namespace Gap

def none : Gap := blanks []

/-- Whether two words are apart. -/
def isWide : Gap → Bool
  | blanks cs => !cs.isEmpty
  | breaks _ _ => true

/-- Whether the words are on different lines. -/
def isBroken : Gap → Bool
  | blanks _ => false
  | breaks _ _ => true

/-- A gap and a blank behind it, which counts only on the line of the word before. -/
def addBlank (g : Gap) (c : Char) : Gap :=
  match g with
  | blanks cs => blanks (cs ++ [c])
  | breaks first more => breaks first more

/-- A gap and a line break behind it. -/
def addBreak (g : Gap) (c : Char) : Gap :=
  match g with
  | blanks _ => breaks (some c) []
  | breaks first more => breaks first (more ++ [c])

/-- What a gap stands for. -/
def text : Gap → List Char
  | blanks cs => cs
  | breaks (some '\n') [] => [' ']
  | breaks (some '\n') more => more
  | breaks first more => first.toList ++ more

end Gap

/-! ## Plain scalars -/

/-- Whether a plain scalar can start here. -/
def startsPlain (inFlow : Bool) : List Char → Bool
  | [] => false
  | c :: cs =>
    if c = '-' then !isBoundary cs
    else if c = '?' || c = ':' then !inFlow && !isBoundary cs
    else !(isBlank c || c ∈ marks)

/-- Whether a plain scalar ends before a character: before a colon that ends a key, and between
brackets before a mark. -/
def endsPlain (inFlow : Bool) (c : Char) (cs : List Char) : Bool :=
  (c = ':' && isBoundary cs) || (inFlow && (c = '?' || c ∈ flowMarks))

/-- Whether a plain scalar ends in a gap before a character: before a comment, the bounds of the
document, and in a block before a line that starts to the left of the margin. -/
def endsGap (inFlow : Bool) (margin : Nat) (m : Mark) (c : Char) (cs : List Char) : Bool :=
  c = '#' || (!inFlow && m.column < margin) || (m.column = 0 && isDocumentMark (c :: cs))

/-- A plain scalar up to its end. No tab may stand to the left of the margin. -/
def plainFrom (inFlow : Bool) (margin : Nat) : Gap → Mark → List Char → Option Piece
  | gap, m, [] => some ⟨[], [], m, gap.isBroken⟩
  | gap, m, c :: cs =>
    if isBlank c then
      if gap.isBroken && m.column < margin && c = '\t' then none
      else plainFrom inFlow margin (gap.addBlank c) m.next cs
    else if isBreak c then plainFrom inFlow margin (gap.addBreak c) m.newLine cs
    else if (gap.isWide && endsGap inFlow margin m c cs) || endsPlain inFlow c cs then
      some ⟨[], c :: cs, m, gap.isBroken⟩
    else (plainFrom inFlow margin .none m.next cs).map (Piece.after (gap.text ++ [c]))

/-! ## Quotes -/

/-- A scalar in single quotes behind the first of them. -/
def singleFrom : Gap → Mark → List Char → Option Piece
  | _, _, [] => none
  | gap, m, c :: cs =>
    if isBlank c then singleFrom (gap.addBlank c) m.next cs
    else if isBreak c then singleFrom (gap.addBreak c) m.newLine cs
    else if m.column = 0 && isDocumentMark (c :: cs) then none
    else if c = '\x27' then
      match cs with
      | '\x27' :: cs => (singleFrom .none (m.pass 2) cs).map (Piece.after (gap.text ++ ['\x27']))
      | cs => some ⟨gap.text, cs, m.next, false⟩
    else (singleFrom .none m.next cs).map (Piece.after (gap.text ++ [c]))

/-- The character that a letter behind a backslash stands for. -/
def escape? : Char → Option Char
  | '0' => some '\x00'
  | 'a' => some '\x07'
  | 'b' => some '\x08'
  | 't' => some '\t'
  | '\t' => some '\t'
  | 'n' => some '\n'
  | 'v' => some '\x0b'
  | 'f' => some '\x0c'
  | 'r' => some '\r'
  | 'e' => some '\x1b'
  | ' ' => some ' '
  | '\x22' => some '\x22'
  | '\x27' => some '\x27'
  | '\\' => some '\\'
  | 'N' => some '\x85'
  | '_' => some '\xa0'
  | 'L' => some '\u2028'
  | 'P' => some '\u2029'
  | _ => none

/-- How many digits give the code of a character behind a letter, less one. -/
def moreDigits? : Char → Option Nat
  | 'x' => some 1
  | 'u' => some 3
  | 'U' => some 7
  | _ => none

def hexDigit? (c : Char) : Option Nat :=
  if '0' ≤ c ∧ c ≤ '9' then some (c.toNat - '0'.toNat)
  else if 'a' ≤ c ∧ c ≤ 'f' then some (c.toNat - 'a'.toNat + 10)
  else if 'A' ≤ c ∧ c ≤ 'F' then some (c.toNat - 'A'.toNat + 10)
  else none

def charOf? (code : Nat) : Option Char :=
  if h : code.isValidChar then some (Char.ofNatAux code h) else none

/-- A code of which some digits have been read. -/
structure Code where
  /-- How many digits follow the next one. -/
  more : Nat
  value : Nat

/-- A scalar in double quotes behind the first of them, which may be within the code of a
character. -/
def doubleFrom : Option Code → Gap → Mark → List Char → Option Piece
  | _, _, _, [] => none
  | some ⟨0, value⟩, _, m, c :: cs => do
    let d ← charOf? (16 * value + (← hexDigit? c))
    (doubleFrom none .none m.next cs).map (Piece.after [d])
  | some ⟨k + 1, value⟩, _, m, c :: cs => do
    let digit ← hexDigit? c
    doubleFrom (some ⟨k, 16 * value + digit⟩) .none m.next cs
  | none, gap, m, c :: cs =>
    if isBlank c then doubleFrom none (gap.addBlank c) m.next cs
    else if isBreak c then doubleFrom none (gap.addBreak c) m.newLine cs
    else if m.column = 0 && isDocumentMark (c :: cs) then none
    else if c = '\x22' then some ⟨gap.text, cs, m.next, false⟩
    else if c = '\\' then
      match cs with
      | [] => none
      | d :: cs =>
        if isBreak d then
          (doubleFrom none (.breaks none []) m.newLine cs).map (Piece.after gap.text)
        else match moreDigits? d, escape? d with
          | some k, _ => (doubleFrom (some ⟨k, 0⟩) .none (m.pass 2) cs).map (Piece.after gap.text)
          | none, some e => (doubleFrom none .none (m.pass 2) cs).map (Piece.after (gap.text ++ [e]))
          | none, none => none
    else (doubleFrom none .none m.next cs).map (Piece.after (gap.text ++ [c]))

/-! ## Blocks of lines -/

/-- What becomes of the line breaks at the end of a block: the last line keeps its own, or none is
kept, or all are. -/
inductive Chomp where
  | clip | strip | keep
deriving DecidableEq

/-- What a sign says about the line breaks at the end. -/
def takeChomp : List Char → Chomp × List Char
  | '-' :: cs => (.strip, cs)
  | '+' :: cs => (.keep, cs)
  | cs => (.clip, cs)

/-- The number of columns by which a block stands in, if it is given. It is not 0. -/
def takeIncrement : List Char → Option (Option Nat × List Char)
  | [] => some (none, [])
  | c :: cs =>
    if c = '0' then none
    else if c.isDigit then some (some (c.toNat - '0'.toNat), cs)
    else some (none, c :: cs)

/-- How a block is written: what becomes of its last line breaks, and its indentation. -/
def takeHeader (cs : List Char) : Option (Chomp × Option Nat × List Char) :=
  match takeChomp cs with
  | (.clip, cs) => (takeIncrement cs).map fun r =>
      let (chomp, cs) := takeChomp r.2
      (chomp, r.1, cs)
  | (chomp, cs) => (takeIncrement cs).map fun r => (chomp, r.1, r.2)

/-- How far a block has been read. -/
structure Lines where
  /-- The column of the lines, once it is known. -/
  indent : Option Nat
  /-- The widest indentation of the empty lines at the start. -/
  widest : Nat := 0
  /-- The line break behind the last line. -/
  last : List Char := []
  /-- Whether the last line starts with a blank. -/
  indented : Bool := false
  /-- The line breaks of the empty lines behind the last line. -/
  breaks : List Char := []
  /-- Whether one is within a line. -/
  inLine : Bool := false

/-- Whether a column is still in the indentation of a line. -/
def Lines.isIndent (s : Lines) (column : Nat) : Bool := s.indent.all fun i => column < i

/-- What stands between the last line and one that starts with some character. -/
def Lines.joint (s : Lines) (folded : Bool) (c : Char) : List Char :=
  if folded && !s.indented && !isBlank c && s.last = ['\n'] then
    if s.breaks.isEmpty then [' '] else s.breaks
  else s.last ++ s.breaks

/-- The line breaks at the end of a block. -/
def Lines.ending (s : Lines) : Chomp → List Char
  | .strip => []
  | .clip => s.last
  | .keep => s.last ++ s.breaks

/-- The lines of a block up to one that starts to the left of it. The first line gives the column if
the header does not. -/
def linesFrom (folded : Bool) (chomp : Chomp) (margin : Nat) : Lines → Mark → List Char → Option Piece
  | s, m, [] => some ⟨s.ending chomp, [], m, true⟩
  | s, m, c :: cs =>
    if s.inLine then
      if isBreak c then
        linesFrom folded chomp margin { s with last := [c], inLine := false } m.newLine cs
      else (linesFrom folded chomp margin s m.next cs).map (Piece.after [c])
    else if c = ' ' && s.isIndent m.column then
      linesFrom folded chomp margin { s with widest := max s.widest (m.column + 1) } m.next cs
    else if c = '\t' && s.isIndent m.column then none
    else if isBreak c then
      linesFrom folded chomp margin { s with breaks := s.breaks ++ [c] } m.newLine cs
    else
      let indent := s.indent.getD (max s.widest (max margin 1))
      if m.column = indent then
        (linesFrom folded chomp margin
          { indent := some indent, indented := isBlank c, inLine := true } m.next cs).map
          (Piece.after (s.joint folded c ++ [c]))
      else some ⟨s.ending chomp, c :: cs, m, true⟩

/-- A block behind its mark. -/
def blockFrom (folded : Bool) (margin : Nat) (m : Mark) (cs : List Char) : Option Piece := do
  let (chomp, increment, cs) ← takeHeader cs
  let s : Lines := { indent := increment.map fun i => margin - 1 + i }
  match cs.dropWhile isBlank with
  | [] => linesFrom folded chomp margin s m []
  | c :: cs =>
    guard (c = '#' || isBreak c)
    match (c :: cs).dropWhile fun c => !isBreak c with
    | [] => linesFrom folded chomp margin s m []
    | _ :: cs => linesFrom folded chomp margin s m.newLine cs

end Yaml

end ScriptTyping
