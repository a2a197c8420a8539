/-!
# The order of variables

Variables that were generated are called `T0`, `T1` and so on. They come before all others and
are ordered by their number; the others are ordered by name. Of two variables that are found to
be one, the later is bound to the earlier.
-/

namespace ScriptTyping

namespace Var

/-- The name of the `n`-th generated variable. -/
def generatedId (n : Nat) : String := "T" ++ toString n

def digitValue? (c : Char) : Option Nat :=
  if '0' ≤ c ∧ c ≤ '9' then some (c.toNat - '0'.toNat) else none

/-- The number that some decimal digits denote, after `n`. -/
def decimalFrom? (n : Nat) : List Char → Option Nat
  | [] => some n
  | c :: cs => (digitValue? c).bind fun d => decimalFrom? (10 * n + d) cs

/-- The numbers of 64 bits are those below this one. -/
def numberBound : Nat := 18446744073709551616

/-- The number of a generated variable: `T` and decimal digits that denote a number of 64 bits. -/
def generated? (id : String) : Option Nat :=
  match id.toList with
  | 'T' :: d :: ds => (decimalFrom? 0 (d :: ds)).filter (· < numberBound)
  | _ => none

/-- Generated variables by number, then the others by name. -/
def order (a b : String) : Ordering :=
  match generated? a, generated? b with
  | some m, some n => compare m n
  | some _, none => .lt
  | none, some _ => .gt
  | none, none => compare a b

end Var

end ScriptTyping
