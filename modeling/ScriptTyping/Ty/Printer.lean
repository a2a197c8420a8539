import ScriptTyping.Ty.Attachments
import ScriptTyping.Ty.Vars

/-!
# The text of a type

    integer
    Array<T3>
    (integer, string) -> boolean
    Point { x: integer, y: integer }
    { a: string }

With classes, the predicates on the variables stand in front: `(Num T1, Ord T1) => (T1) -> T1`.
-/

namespace ScriptTyping

namespace Ty

/-- A constructor with the texts of its arguments. The last argument of an arrow is its result. -/
def renderCon (name : String) (args : List String) : String :=
  match args.getLast? with
  | none => name
  | some ret =>
    if name = arrowName then "(" ++ ", ".intercalate args.dropLast ++ ") -> " ++ ret
    else name ++ "<" ++ ", ".intercalate args ++ ">"

/-- A record with the texts of its fields. -/
def renderRecord (name : String) (fields : List String) : String :=
  (if name = anonymous then "" else name ++ " ") ++
    if fields.isEmpty then "\x7b\x7d" else "\x7b " ++ ", ".intercalate fields ++ " \x7d"

mutual

def text : Ty → String
  | missing => unknown
  | var v => v.id
  | con name args _ => renderCon name (textAll args)
  | record name fields _ => renderRecord name (textFields fields)

def textAll : List Ty → List String
  | [] => []
  | t :: ts => t.text :: textAll ts

def textFields : List (String × Ty) → List String
  | [] => []
  | (k, t) :: fs => (k ++ ": " ++ t.text) :: textFields fs

end

/-- The variables of a type that have classes, each once. -/
def constrained (a : Attachments) (t : Ty) : VarSet :=
  (t.vars.filter fun v => !(a.get v.cell).isEmpty).foldl VarSet.push []

/-- The predicates on the variables of a type. -/
def predicates (a : Attachments) (t : Ty) : List String :=
  (t.constrained a).flatMap fun v => (a.get v.cell).map fun c => c ++ " " ++ v.id

/-- The text of a type with the predicates on its variables. -/
def textWithClasses (a : Attachments) (t : Ty) : String :=
  match t.predicates a with
  | [] => t.text
  | [p] => p ++ " => " ++ t.text
  | ps => "(" ++ ", ".intercalate ps ++ ") => " ++ t.text

end Ty

end ScriptTyping
