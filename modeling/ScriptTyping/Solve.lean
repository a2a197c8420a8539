import ScriptTyping.Unify

/-!
# Constraints and their solution

A constraint asks something of types that is settled later. `Constraint.solve` goes through
constraints in order and unifies the two sides of each equation under the bindings found before.
An equation that fails is noted and does not stop the rest. Constraints of other kinds are left
alone.

**Cells.** As for unification, `keep` says whether what is bound gets cells.

**Tails.** Solving applies substitutions, and what they do to the tails of records stays, also when
the equation fails. So each step starts from the types as they are then.
-/

namespace ScriptTyping

/-- What a constraint asks: that two types are one, that one is an instance of another, or that one
is in a class. -/
inductive ConstraintKind where
  | equality
  | explicitInstance
  | implicitInstance
  | membership
  | other
deriving DecidableEq

def ConstraintKind.name : ConstraintKind → String
  | equality => "EQUALITY_CON"
  | explicitInstance => "EXPLICIT_CON"
  | implicitInstance => "IMPLICIT_CON"
  | membership => "TYPECLASS_CON"
  | other => "UNKNOWN_CON"

/-- A constraint on two types, or on one type and a class. -/
structure Constraint where
  kind : ConstraintKind
  left : Ty
  right : Ty
  cls : String

namespace Constraint

def equal (left right : Ty) : Constraint := ⟨.equality, left, right, ""⟩

def text (c : Constraint) : String :=
  match c.kind with
  | .membership => c.kind.name ++ " " ++ c.cls ++ " " ++ c.left.text
  | kind => kind.name ++ " " ++ c.left.text ++ " ~ " ++ c.right.text

def mapTypes (f : Ty → Ty) (c : Constraint) : Constraint :=
  { c with left := f c.left, right := f c.right }

end Constraint

/-! ## Solving -/

/-- An equation that failed, by its number, and why, with the types as they were then. -/
structure Failure where
  number : Nat
  error : UnifyError

/-- What was found so far. -/
structure Solution where
  attachments : Attachments
  subst : Subst
  failures : List Failure

namespace Solution

def start (a : Attachments) : Solution := ⟨a, [], []⟩

/-- Add what one constraint gives. -/
def step (reg : Registry) (keep : Bool) (r : Solution) (number : Nat) (c : Constraint) : Solution :=
  match c.kind with
  | .equality =>
    let a := r.attachments
    let s := a.currentAll r.subst
    let left := a.current c.left
    let right := a.current c.right
    let (found, done) := unifyListing reg keep a (Subst.apply a s left) (Subst.apply a s right)
    let done := a.applications s [left, right] ++ done
    match found with
    | (a', .error e) =>
      let a' := a'.replay done
      ⟨a', s, r.failures ++ [⟨number, e.mapTypes a'.current⟩]⟩
    | (a', .ok found) =>
      let new := (a'.adoptIf keep found).1
      let all := a'.extend keep found s
      ⟨all.2.replay (done ++ a'.applications new (s.map Prod.snd)), all.1, r.failures⟩
  | _ => r

/-- Add what constraints numbered from `number` give. -/
def steps (reg : Registry) (keep : Bool) (r : Solution) (number : Nat) : List Constraint → Solution
  | [] => r
  | c :: cs => steps reg keep (step reg keep r number c) (number + 1) cs

/-- To solve two lists is to solve the first and go on with the second. -/
theorem steps_append (reg : Registry) (keep : Bool) (r : Solution) (number : Nat) (cs ds : List Constraint) :
    steps reg keep r number (cs ++ ds) =
      steps reg keep (steps reg keep r number cs) (number + cs.length) ds := by
  induction cs generalizing r number with
  | nil => rfl
  | cons c cs ih =>
    simp only [List.cons_append, steps, ih, List.length_cons]
    congr 1
    omega

/-- A constraint that is no equation changes nothing. -/
theorem step_of_ne_equality (reg : Registry) (keep : Bool) (r : Solution) (number : Nat)
    {c : Constraint} (h : c.kind ≠ .equality) : step reg keep r number c = r := by
  unfold step
  split
  next heq => exact absurd heq h
  next => rfl

/-- A solution with its types as they are now. -/
def settled (r : Solution) : Solution := { r with subst := r.attachments.currentAll r.subst }

end Solution

namespace Constraint

/-- Solve constraints in order. If `keep` is set, what is bound has cells. -/
def solveWith (reg : Registry) (keep : Bool) (a : Attachments) (cs : List Constraint) : Solution :=
  (Solution.steps reg keep (.start a) 0 cs).settled

/-- Solve constraints in order. -/
def solve (reg : Registry) (a : Attachments) (cs : List Constraint) : Solution :=
  solveWith reg false a cs

/-- Solve constraints in order. What is bound has cells. -/
def solveIn (reg : Registry) (a : Attachments) (cs : List Constraint) : Solution :=
  solveWith reg true a cs

end Constraint

/-! ## What is logged -/

/-- The line of a log for an entry. It ends with a line break, which is added unless the entry has
one. -/
def logLine (entry : String) : String :=
  if entry.toList.getLast? = some '\n' then entry else entry ++ "\n"

/-- What is logged when a constraint is added as the one of some number. -/
def Constraint.logEntry (number : Nat) (c : Constraint) : String :=
  "constraint " ++ toString number ++ ": " ++ c.text

/-- What is logged when constraints are added, numbered from `number`. -/
def Constraint.logFrom (number : Nat) : List Constraint → List String
  | [] => []
  | c :: cs => c.logEntry number :: logFrom (number + 1) cs

/-- What is logged about a solution: the failures, then the bindings. -/
def Solution.log (r : Solution) : List String :=
  (r.failures.map fun f => "constraint " ++ toString f.number ++ " failed: " ++ f.error.message) ++
    r.subst.map fun e => "solved " ++ e.1 ++ " = " ++ e.2.text

end ScriptTyping
