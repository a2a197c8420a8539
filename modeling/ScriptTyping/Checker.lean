import ScriptTyping.Builtin
import ScriptTyping.Check.Infer

/-!
# Checking programs

A `Checker` checks one program after another. Each check starts in a new scope; only the numbers of
variables go on. It binds the builtins, goes through the program, and solves the equations that were
found. What the last check found stays with the checker.

To ask for the solved form of a type applies what was found, and that can change the tails of
records. So `Checker.settle` also gives the checker that one has afterwards.
-/

namespace ScriptTyping

/-! ## Builtins -/

/-- The scope of a program before its first line: one frame within the global one. -/
def Scope.start (global : Frame) : Scope := [.empty, global]

/-- The type of a signature. It is resolved where nothing is declared. -/
def signatureType (primitives : List String) (supply : Supply) (signature : String) :
    Except CheckError Ty × Supply :=
  match parseType signature with
  | .error e => (.error (.source e), supply)
  | .ok t =>
    let (r, s) := (Infer.resolve t).run.run ⟨primitives, supply, Scope.start .global, [], []⟩
    (r, s.supply)

/-- The type of a builtin. One that is neither function nor variable has none, and a variable without
signature is void. -/
def Builtin.type (primitives : List String) (supply : Supply) (b : Builtin) :
    Except CheckError (Option Ty) × Supply :=
  let signed :=
    let (r, supply) := signatureType primitives supply b.signature
    (r.map some, supply)
  match b.kind with
  | .function => signed
  | .value => if b.signature = "" then (.ok (some (.const Ty.void [])), supply) else signed
  | .other _ => (.ok none, supply)

/-- Builtins that were bound: the frame that they are declared in, and their schemes in order. -/
structure Bound where
  frame : Frame
  supply : Supply
  schemes : List (String × Scheme)

/-- Bind builtins in order, up to the first whose signature is wrong. -/
def Bound.bindAll (primitives : List String) (r : Bound) :
    List (String × Builtin) → Bound × Except CheckError Unit
  | [] => (r, .ok ())
  | (name, b) :: bs =>
    match b.type primitives r.supply with
    | (.error e, supply) => ({ r with supply }, .error (.builtin name e))
    | (.ok none, supply) => bindAll primitives { r with supply } bs
    | (.ok (some t), supply) =>
      let scheme := Scope.generalize [r.frame] t
      bindAll primitives ⟨r.frame.declare name scheme, supply, r.schemes ++ [(name, scheme)]⟩ bs

/-! ## Checkers -/

/-- The names that annotations may use without a declaration, unless others are given. -/
def defaultPrimitives : List String := [Ty.integer, Ty.float, Ty.boolean, Ty.string]

/-- A checker: what it goes on with, and what its last check found. -/
structure Checker where
  primitives : List String
  supply : Supply
  /-- The outer two frames of the last program. -/
  scope : Scope
  constraints : List Constraint
  subst : Subst
  error : Option CheckError

/-- The types of a program's variables. -/
structure Typing where
  /-- The program, with its variables numbered. -/
  program : Node
  slots : List (Nat × Ty)

/-- The type of a variable of the program. -/
def Typing.typeOf (r : Typing) (v : Variable) : Ty := (r.slots.lookup v.slot).getD .missing

/-- What a check comes to. -/
structure Outcome where
  checker : Checker
  /-- The program with its types. Of a text that cannot be read, the statements before the fault,
  without types. -/
  typing : Option Typing
  error : Option CheckError
  log : List String

namespace Checker

/-- A checker that has checked nothing. -/
def new (primitives : List String) : Checker :=
  ⟨primitives, .empty, Scope.start .global, [], [], none⟩

def withAttachments (c : Checker) (attachments : Attachments) : Checker :=
  { c with supply := { c.supply with attachments } }

/-- A checker that forgets its last check. -/
def reset (c : Checker) : Checker :=
  { c.withAttachments { c.supply.attachments with tails := [] } with
    scope := Scope.start .global
    constraints := []
    subst := []
    error := none }

/-- A type of the last program as it is now. -/
def current (c : Checker) (t : Ty) : Ty := c.supply.attachments.current t

/-- The type of a name of the last program, or of a builtin, as it was declared. -/
def declared (c : Checker) (name : String) : Ty := ((c.scope.lookup? name).map Scheme.type).getD .missing

/-- Ask for the solved form of a type of the last program. -/
def settle (c : Checker) (t : Ty) : Ty × Checker :=
  let (t, attachments) := c.supply.attachments.apply c.subst t
  (t, c.withAttachments attachments)

/-- Ask for the solved forms of the types of variables. -/
def settleSlots (c : Checker) : List (Nat × Ty) → List (Nat × Ty) × Checker
  | [] => ([], c)
  | (slot, t) :: rest =>
    let (t, c) := c.settle t
    let (rest, c) := c.settleSlots rest
    ((slot, t) :: rest, c)

/-- The solved form of a type of the last program. -/
def solved (c : Checker) (t : Ty) : Ty := (c.settle t).1

/-- The solved type of a name of the last program, or of a builtin. -/
def lookup (c : Checker) (name : String) : Ty := c.solved (c.declared name)

def fail (c : Checker) (e : CheckError) (log : List String) : Outcome :=
  ⟨{ c with error := some e }, none, some e, log⟩

/-- Solve the equations of a program. -/
def finish (c : Checker) (global : Frame) (program : Node) (slots : List (Nat × Ty))
    (log : List String) : Outcome :=
  let r := Constraint.solve (Scope.instances [global]) c.supply.attachments c.constraints
  let c := { c.withAttachments r.attachments with subst := r.subst }
  let log := log ++ r.log
  if r.failures.isEmpty then
    let (slots, c) := c.settleSlots slots
    ⟨c, some ⟨program, slots⟩, none, log⟩
  else c.fail (.mapTypes c.current (.unsolvable (r.failures.map Failure.error))) log

def run (c : Checker) (program : Node) (builtins : Builtins) : Outcome :=
  let c := c.reset
  if program.isMissing then c.fail .emptyProgram [] else
  let (b, r) := Bound.bindAll c.primitives ⟨.global, c.supply, []⟩ builtins
  let c := { c with supply := b.supply, scope := Scope.start b.frame }
  let log := b.schemes.map fun e => "builtin " ++ e.1 ++ ": " ++ e.2.text
  match r with
  | .error e => c.fail e log
  | .ok () =>
    let program := program.numbered
    let (r, s) := (Infer.infer program).run.run ⟨c.primitives, c.supply, c.scope, [], []⟩
    let c := { c with
      supply := s.supply
      scope := s.scope.drop (s.scope.length - 2)
      constraints := s.constraints }
    let log := log ++ Constraint.logFrom 0 s.constraints
    match r with
    | .error e => c.fail e log
    | .ok _ => c.finish b.frame program s.slots log

/-- An error in a file, if there is a name for it. -/
def inFile (name : String) (e : CheckError) : CheckError := if name = "" then e else .file name e

/-- Check the text of a program. A text that cannot be read leaves the last check as it is. -/
def check (c : Checker) (name source : String) (builtins : Builtins) : Outcome :=
  match tokenize source with
  | .error e => ⟨c, none, some (inFile name (.source (.lex e))), []⟩
  | .ok ts =>
    match readTokens ts with
    | (body, some e) => ⟨c, some ⟨.program body, []⟩, some (inFile name (.source (.parse e))), []⟩
    | (body, none) =>
      let r := c.run (.program body) builtins
      { r with error := r.error.map (inFile name) }

end Checker

end ScriptTyping
