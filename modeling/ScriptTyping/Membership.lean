import ScriptTyping.Unify.Basic

/-!
# Membership in classes

Whether a type is in a class. A variable can be put into any class: whether that was right is seen
when the variable is bound. A constructor is in the classes that are attached to it or registered
for its name, and a record in those that are attached to it.
-/

namespace ScriptTyping

namespace Ty

def isVar : Ty → Bool
  | var _ => true
  | _ => false

end Ty

namespace Registry

/-- Whether a class is registered for a type. -/
def registers (reg : Registry) (c : String) : Ty → Bool
  | .con name _ _ => (reg name).has c
  | _ => false

/-- Whether a type is known to be in a class. -/
def holds (reg : Registry) (a : Attachments) (t : Ty) (c : String) : Bool :=
  (a.classes t).has c || reg.registers c t

/-- Whether a type is in a class or may come to be in it. -/
def admits (reg : Registry) (a : Attachments) (t : Ty) (c : String) : Bool :=
  t.isVar || reg.holds a t c

/-- Put a type that may be in a class into it. None if it cannot be. -/
def require? (reg : Registry) (a : Attachments) (t : Ty) (c : String) : Option Attachments :=
  if (a.classes t).has c then some a
  else if reg.admits a t c then some (a.attach t c)
  else none

/-- The class that addition needs of its operands. -/
inductive Addition where
  /-- Both operands are in the class or may be, and one of them is. -/
  | inClass (c : String)
  /-- Nothing is known of two variables. -/
  | undecided
  /-- The operands cannot be added. -/
  | impossible
deriving DecidableEq

/-- Whether a class is the one that addition needs: of texts and numbers, texts are tried first. -/
def addsIn (reg : Registry) (a : Attachments) (t u : Ty) (c : String) : Bool :=
  reg.admits a t c && reg.admits a u c && (reg.holds a t c || reg.holds a u c)

/-- What addition needs of its operands. -/
def addition (reg : Registry) (a : Attachments) (t u : Ty) : Addition :=
  if reg.addsIn a t u Class.stringable then .inClass Class.stringable
  else if reg.addsIn a t u Class.num then .inClass Class.num
  else if t.isVar && u.isVar then .undecided
  else .impossible

end Registry

end ScriptTyping
