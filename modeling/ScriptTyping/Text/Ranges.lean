/-!
# Ranges of code points

A character class of a standard is a list of inclusive ranges in ascending order. Membership
stops at the first range that starts above the code point, so the early characters, which are
most of any text, meet only the first few ranges.
-/

namespace ScriptTyping.Text

/-- An inclusive range of code points. -/
structure Range where
  first : Nat
  last : Nat
deriving DecidableEq

/-- The ranges behind `last`: each is given by how far behind the end of the one before it starts, and by how
much further it goes. -/
def Range.ofSteps (last : Nat) : List Nat → List Range
  | gap :: more :: steps => ⟨last + gap, last + gap + more⟩ :: ofSteps (last + gap + more) steps
  | _ => []

/-- Whether a code point lies in one of the ranges of an ascending list. -/
def covers : List Range → Nat → Bool
  | [], _ => false
  | r :: rs, n => if n < r.first then false else n ≤ r.last || covers rs n

@[simp] theorem covers_nil (n : Nat) : covers [] n = false := rfl

end ScriptTyping.Text
