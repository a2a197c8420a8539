import ScriptTyping.Ty.Order
import ScriptTyping.Ty.Printer
import ScriptTyping.Ty.Tail

/-!
# Type schemes

A scheme is a type in which some variables stand for any type: each use of it takes new variables
in their place. New variables come from a `Supply`, which numbers them and holds the classes that
are attached to them.
-/

namespace ScriptTyping

/-! ## New variables -/

/-- How many variables were generated, and the classes attached so far. -/
structure Supply where
  count : Nat
  attachments : Attachments
deriving Inhabited

namespace Supply

def empty : Supply := ⟨0, .empty⟩

def freshVar (s : Supply) : Var × Supply :=
  let (v, a) := s.attachments.newVar (Var.generatedId s.count) []
  (v, ⟨s.count + 1, a⟩)

def fresh (s : Supply) : Ty × Supply :=
  let (v, s) := s.freshVar
  (.var v, s)

def freshAll (s : Supply) : Nat → List Ty × Supply
  | 0 => ([], s)
  | n + 1 =>
    let (t, s) := s.fresh
    let (ts, s) := s.freshAll n
    (t :: ts, s)

/-- A new variable with the classes of another. -/
def freshLike (s : Supply) (v : Var) : Var × Supply :=
  let classes := s.attachments.get v.cell
  let (w, s) := s.freshVar
  (w, { s with attachments := s.attachments.set w.cell classes })

end Supply

/-! ## Schemes -/

/-- A type, and the variables in it that stand for any type. -/
structure Scheme where
  vars : List Var
  type : Ty
deriving Inhabited

namespace Scheme

/-- A type that is the same at each use. -/
def mono (t : Ty) : Scheme := ⟨[], t⟩

def text (s : Scheme) : String :=
  if s.vars.isEmpty then s.type.text
  else "forall " ++ " ".intercalate (s.vars.map Var.id) ++ ". " ++ s.type.text

/-- New variables for some others, each with the classes of the one that it replaces. -/
def renewal (s : Supply) : List Var → Subst → Subst × Supply
  | [], r => (r, s)
  | v :: vs, r =>
    let (w, s) := s.freshLike v
    renewal s vs (Dict.insert r v.id (.var w))

/-- The type of one use of a scheme. -/
def instantiate (s : Supply) (scheme : Scheme) : Ty × Supply :=
  let (r, s) := renewal s scheme.vars []
  let (t, attachments) := s.attachments.apply r scheme.type
  (t, { s with attachments })

end Scheme

end ScriptTyping
