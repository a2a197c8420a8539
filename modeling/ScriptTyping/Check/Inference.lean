import ScriptTyping.Check.Error
import ScriptTyping.Membership
import ScriptTyping.Scope
import ScriptTyping.Solve

/-!
# The state of inference

Inference goes through a program, draws new variables, declares names, and collects equations
between types. `Infer` is a computation that does so and may fail; what was done before a failure
stays.
-/

namespace ScriptTyping

/-- What inference has come to. -/
structure Inference where
  /-- The names that annotations may use without a declaration. -/
  primitives : List String
  supply : Supply
  scope : Scope
  constraints : List Constraint
  /-- The types of declared variables, by slot, the latest first. -/
  slots : List (Nat × Ty)

/-- A computation of inference. -/
abbrev Infer := ExceptT CheckError (StateM Inference)

namespace Infer

variable {α : Type}

/-! ## Types -/

def fresh : Infer Ty := do
  let s ← get
  let (t, supply) := s.supply.fresh
  set { s with supply }
  return t

/-- A constructor applied to types, whose classes can grow. -/
def growing (name : String) (args : List Ty) : Infer Ty := do
  let s ← get
  let (c, attachments) := s.supply.attachments.fresh
  set { s with supply := { s.supply with attachments } }
  return .con name args { Label.none with cell := some c }

/-- A record whose fields are given one after another. -/
def record (name : String) (entries : List (String × Ty)) (classes : ClassSet) : Infer Ty := do
  let s ← get
  let (t, attachments) := s.supply.attachments.newRecord name entries classes
  set { s with supply := { s.supply with attachments } }
  return t

/-- The type of one use of a scheme. -/
def instantiate (scheme : Scheme) : Infer Ty := do
  let s ← get
  let (t, supply) := scheme.instantiate s.supply
  set { s with supply }
  return t

/-- Ask that two types are one. -/
def equate (left right : Ty) : Infer Unit :=
  modify fun s => { s with constraints := s.constraints ++ [.equal left right] }

/-- Put a type into a class, and say whether it can be in it. -/
def require (t : Ty) (c : String) : Infer Bool := do
  let s ← get
  match s.scope.instances.require? s.supply.attachments t c with
  | none => return false
  | some attachments =>
    set { s with supply := { s.supply with attachments } }
    return true

/-! ## Scopes -/

def scope : Infer Scope := return (← get).scope

def modifyScope (change : Scope → Scope) : Infer Unit :=
  modify fun s => { s with scope := change s.scope }

/-- Work in a new innermost frame. -/
def within (f : Frame) (act : Infer α) : Infer α := do
  modifyScope (f :: ·)
  let x ← act
  modifyScope List.tail
  return x

/-- Give a name a type in the innermost frame. -/
def declare (name : String) (t : Ty) : Infer Unit :=
  modifyScope (·.modifyHead (·.declare name (.mono t)))

/-- Give a name a type in the frame around the innermost one. -/
def declareOutside (name : String) (t : Ty) : Infer Unit :=
  modifyScope fun sc => sc.take 1 ++ Scope.modifyHead (sc.drop 1) (·.declare name (.mono t))

/-- Declare a struct or an enum in the innermost frame. -/
def declareDecl (name : String) (decl : Node) : Infer Unit :=
  modifyScope (·.modifyHead (·.declareDecl name decl))

/-- Give a type parameter a type in the innermost frame. -/
def declareTypeParam (name : String) (t : Ty) : Infer Unit :=
  modifyScope (·.modifyHead (·.declareTypeParam name t))

/-- Note the type of a return statement. -/
def addReturn (t : Ty) : Infer Unit := modifyScope (·.addReturn t)

/-- Note the type of a declared variable. -/
def setSlot (slot : Nat) (t : Ty) : Infer Unit :=
  modify fun s => { s with slots := (slot, t) :: s.slots }

end Infer

end ScriptTyping
