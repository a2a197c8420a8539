import ScriptTyping.Text.Ranges

/-!
# Blank characters

The characters of the Unicode property White_Space: they separate tokens and mean nothing else.
-/

namespace ScriptTyping.Text

/-- White_Space. -/
def blankRanges : List Range :=
  [⟨0x09, 0x0D⟩, ⟨0x20, 0x20⟩, ⟨0x85, 0x85⟩, ⟨0xA0, 0xA0⟩, ⟨0x1680, 0x1680⟩, ⟨0x2000, 0x200A⟩,
   ⟨0x2028, 0x2029⟩, ⟨0x202F, 0x202F⟩, ⟨0x205F, 0x205F⟩, ⟨0x3000, 0x3000⟩]

/-- A character that separates tokens. -/
def isBlank (c : Char) : Bool := covers blankRanges c.toNat

end ScriptTyping.Text
