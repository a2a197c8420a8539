import ScriptTyping.Ty.Basic

/-!
# Equality of types

Two types are equal when they have the same structure: variables by name, constructors and records
by name and parts. What classes are attached to them does not matter.
-/

namespace ScriptTyping

namespace Ty

mutual

/-- Whether two types have the same structure. -/
def equal : Ty → Ty → Bool
  | missing, missing => true
  | var v, var w => v.id == w.id
  | con name args _, con name' args' _ => name == name' && equalAll args args'
  | record name fields _, record name' fields' _ => name == name' && equalFields fields fields'
  | _, _ => false

/-- Whether two lists have equal types in the same order. -/
def equalAll : List Ty → List Ty → Bool
  | [], [] => true
  | t :: ts, u :: us => t.equal u && equalAll ts us
  | _, _ => false

/-- Whether two lists have the same names with equal types. -/
def equalFields : List (String × Ty) → List (String × Ty) → Bool
  | [], [] => true
  | (k, t) :: fs, (l, u) :: gs => k == l && t.equal u && equalFields fs gs
  | _, _ => false

end

end Ty

end ScriptTyping
