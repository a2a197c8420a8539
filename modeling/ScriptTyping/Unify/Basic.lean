import ScriptTyping.Ty.Order
import ScriptTyping.Ty.Printer
import ScriptTyping.Ty.Subst

/-!
# Unification: the steps

What unification does to two types before it goes into their parts. A variable is bound to the
other type if that has the variable's classes and the variable does not occur in it; two variables
share their classes and the later is bound to the earlier. Any other two types are taken apart
into pairs of parts, or they do not go together.

**Records.** Of two records of one name, the left one has every field of the right one. An
anonymous record goes together with a record of any name, and is then the right one. A map
constructor goes together with a record each of whose fields has the map's value type.
-/

namespace ScriptTyping

/-- Why two types cannot be made one. -/
inductive UnifyError where
  | occurs (id : String) (t : Ty)
  | mismatch (left right : Ty)
  | missingField (field record : String)
  | classes (t : Ty) (lacking : ClassSet)

/-- The words for a failed unification. -/
def UnifyError.message : UnifyError → String
  | occurs id t => "Occurs check fails: " ++ id ++ " in " ++ t.text
  | mismatch left right =>
    "Types mismatch: Can't unify '" ++ left.text ++ "' with '" ++ right.text ++ "'"
  | missingField field record => "Missing field '" ++ field ++ "' in type '" ++ record ++ "'"
  | classes t lacking =>
    "Type '" ++ t.text ++ "' does not satisfy constraint " ++ ClassSet.text lacking

/-- Change the types that a failure is about. -/
def UnifyError.mapTypes (f : Ty → Ty) : UnifyError → UnifyError
  | occurs id t => occurs id (f t)
  | mismatch left right => mismatch (f left) (f right)
  | missingField field record => missingField field record
  | classes t lacking => classes (f t) lacking

/-- The words for some failures together. -/
def UnifyError.report (errors : List UnifyError) : String :=
  "Types errors found:\n" ++ "\n".intercalate (errors.map message)

/-- The classes that are registered for the constructors of a name. -/
abbrev Registry := String → ClassSet

/-- The classes that a type has: those attached to it and those registered for it. -/
def Registry.classes (reg : Registry) (a : Attachments) : Ty → ClassSet
  | t@(.con name _ _) => ClassSet.union (a.classes t) (reg name)
  | t => a.classes t

namespace Unify

/-- The classes of `required` that a type lacks. -/
def lacking (reg : Registry) (a : Attachments) (required : ClassSet) (t : Ty) : ClassSet :=
  if required.isEmpty then [] else ClassSet.lacking (reg.classes a t) required

/-- Bind a variable to a type in which it does not occur. To bind it to itself binds nothing. -/
def bind (v : Var) (t : Ty) : Except UnifyError Subst :=
  match t with
  | .var w => if w.id = v.id then .ok [] else .ok [(v.id, t)]
  | t => if t.occurs v.id then .error (.occurs v.id t) else .ok [(v.id, t)]

/-- Let two variables share their classes. -/
def share (a : Attachments) (v w : Var) : Attachments :=
  let classes := ClassSet.union (a.get v.cell) (a.get w.cell)
  (a.set v.cell classes).set w.cell classes

/-- Bind the later of two variables to the earlier. -/
def bindVars (v w : Var) : Subst :=
  if Var.order v.id w.id ≠ .gt then [(w.id, .var v)] else [(v.id, .var w)]

/-- Bind a variable to a type that is no variable, if the type has its classes. -/
def bindChecked (reg : Registry) (a : Attachments) (v : Var) (t : Ty) : Except UnifyError Subst :=
  match lacking reg a (a.get v.cell) t with
  | [] => bind v t
  | cs => .error (.classes t cs)

/-! ## Parts -/

/-- Pairs of parts that must be unified in order, and what is wrong behind the last of them. -/
structure Parts where
  pairs : List (Ty × Ty)
  fault : Option UnifyError

/-- No parts, since two types do not go together. -/
def Parts.clash (left right : Ty) : Parts := ⟨[], some (.mismatch left right)⟩

/-- A map constructor over each field of a record. -/
def mapParts (name : String) (args : List Ty) (l : Label) (owner : String)
    (fields : List (String × Ty)) (m : Label) : Parts :=
  match Ty.isMapName name, args.getLast? with
  | true, some value => ⟨fields.map fun f => (value, f.2), none⟩
  | _, _ => .clash (.con name args l) (.record owner fields m)

/-- The fields of the right record with those of the left one, up to one that is missing there. -/
def fieldParts (left : String) (fields : List (String × Ty)) : List (String × Ty) → Parts
  | [] => ⟨[], none⟩
  | (k, t) :: rest =>
    match Dict.get? fields k with
    | none => ⟨[], some (.missingField k left)⟩
    | some u =>
      let p := fieldParts left fields rest
      ⟨(u, t) :: p.pairs, p.fault⟩

/-- The parts of two types that are no variables. -/
def parts : Ty → Ty → Parts
  | .con n xs l, .con m ys k =>
    if n = m ∧ xs.length = ys.length then ⟨xs.zip ys, none⟩ else .clash (.con n xs l) (.con m ys k)
  | .con n xs l, .record m gs k => mapParts n xs l m gs k
  | .record n fs l, .con m ys k => mapParts m ys k n fs l
  | .record n fs l, .record m gs k =>
    if n = m ∨ m = Ty.anonymous then fieldParts n fs gs
    else if n = Ty.anonymous then fieldParts m gs fs
    else .clash (.record n fs l) (.record m gs k)
  | t, u => .clash t u

end Unify

end ScriptTyping
