import ScriptTyping.Text.Printable

/-!
# Quoted text

A text between quotation marks, on one line and in visible characters only. The mark itself and
the backslash are escaped by a backslash, the usual control characters by a letter, and every
other character that is not printable by the number of its code point: two hexadecimal digits
for ASCII, four for the basic plane, eight beyond it.
-/

namespace ScriptTyping.Text

/-- A number in lower-case hexadecimal, filled with zeros up to a width. -/
def hex (width n : Nat) : List Char :=
  let digits := Nat.toDigits 16 n
  List.replicate (width - digits.length) '0' ++ digits

/-- The letter that stands for a control character after a backslash. -/
def controlLetter : Char → Option Char
  | '\x07' => some 'a'
  | '\x08' => some 'b'
  | '\x0c' => some 'f'
  | '\n' => some 'n'
  | '\r' => some 'r'
  | '\t' => some 't'
  | '\x0b' => some 'v'
  | _ => none

/-- The code point of a character in an escape. -/
def codePoint (c : Char) : List Char :=
  if c.toNat < 0x80 then 'x' :: hex 2 c.toNat
  else if c.toNat < 0x10000 then 'u' :: hex 4 c.toNat
  else 'U' :: hex 8 c.toNat

/-- One character as it stands between two marks. -/
def escape (mark c : Char) : List Char :=
  if c == mark || c == '\\' then ['\\', c]
  else if isPrintable c then [c]
  else match controlLetter c with
    | some letter => ['\\', letter]
    | none => '\\' :: codePoint c

/-- A text in double quotation marks. -/
def quote (s : String) : String :=
  String.ofList ('"' :: s.toList.flatMap (escape '"') ++ ['"'])

/-- A character in single quotation marks. -/
def quoteChar (c : Char) : String :=
  String.ofList ('\'' :: escape '\'' c ++ ['\''])

end ScriptTyping.Text
