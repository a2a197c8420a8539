import ScriptTyping.Scheme
import ScriptTyping.Syntax.Node
import ScriptTyping.Unify.Basic

/-!
# Scopes

A `Frame` holds what is declared in one place of a program: the types of names, structs and enums,
type parameters, classes, and the classes of constructors. A `Scope` lists frames from the
innermost outwards. What is looked up comes from the first frame that declares it.

A function has a frame that collects the types of its return statements.
-/

namespace ScriptTyping

/-- What is declared in one place. -/
structure Frame where
  types : Dict Scheme
  decls : Dict Node
  tparams : Dict Ty
  classes : ClassSet
  members : Dict ClassSet
  isFunction : Bool
  returns : List Ty
deriving Inhabited

namespace Frame

def empty : Frame := ⟨[], [], [], [], [], false, []⟩

/-- The frame of a function, where nothing is declared yet. -/
def function : Frame := { empty with isFunction := true }

def declare (f : Frame) (name : String) (s : Scheme) : Frame :=
  { f with types := Dict.insert f.types name s }

/-- Declare a struct or an enum. The first one of a name stays. -/
def declareDecl (f : Frame) (name : String) (decl : Node) : Frame :=
  match Dict.get? f.decls name with
  | some _ => f
  | none => { f with decls := Dict.insert f.decls name decl }

def declareTypeParam (f : Frame) (name : String) (t : Ty) : Frame :=
  { f with tparams := Dict.insert f.tparams name t }

def declareClass (f : Frame) (name : String) : Frame :=
  { f with classes := ClassSet.push f.classes name }

/-- Put the constructors of a name into classes. -/
def declareInstances (f : Frame) (name : String) (classes : ClassSet) : Frame :=
  let known := (Dict.get? f.members name).getD []
  { f with members := Dict.insert f.members name (ClassSet.union known classes) }

/-- The outermost frame of a program: the classes of the language and of its primitive types. -/
def global : Frame :=
  { empty with
    classes := Class.predefined
    members := Dict.ofList ([Ty.integer, Ty.float, Ty.string, Ty.boolean].map fun name =>
      (name, Class.ofPrimitive name)) }

end Frame

/-- Frames from the innermost outwards. -/
abbrev Scope := List Frame

namespace Scope

def lookup? (sc : Scope) (name : String) : Option Scheme :=
  sc.findSome? fun f => Dict.get? f.types name

/-- The scheme that the innermost frame has for a name. -/
def lookupLocal? (sc : Scope) (name : String) : Option Scheme :=
  sc.head?.bind fun f => Dict.get? f.types name

def decl? (sc : Scope) (name : String) : Option Node :=
  sc.findSome? fun f => Dict.get? f.decls name

/-- The struct of a name, if the name is declared as one. -/
def structDecl? (sc : Scope) (name : String) : Option StructDecl :=
  match sc.decl? name with
  | some (.structDecl d) => some d
  | _ => none

/-- The enum of a name, if the name is declared as one. -/
def enumDecl? (sc : Scope) (name : String) : Option EnumDecl :=
  match sc.decl? name with
  | some (.enumDecl d) => some d
  | _ => none

def tparam? (sc : Scope) (name : String) : Option Ty :=
  sc.findSome? fun f => Dict.get? f.tparams name

def declaresClass (sc : Scope) (name : String) : Bool := sc.any fun f => f.classes.has name

/-- The classes of the constructors of a name. -/
def instances (sc : Scope) : Registry := fun name =>
  (sc.findSome? fun f => Dict.get? f.members name).getD []

/-- The innermost frame of a function. -/
def function? (sc : Scope) : Option Frame := sc.find? Frame.isFunction

/-- Note the type of a return statement in the innermost function. Outside of a function it is
dropped. -/
def addReturn : Scope → Ty → Scope
  | [], _ => []
  | f :: sc, t =>
    if f.isFunction then { f with returns := f.returns ++ [t] } :: sc else f :: addReturn sc t

def modifyHead (sc : Scope) (change : Frame → Frame) : Scope :=
  match sc with
  | [] => []
  | f :: sc => change f :: sc

/-- Whether a variable occurs in the type of a name. -/
def mentions (sc : Scope) (id : String) : Bool :=
  sc.any fun f => f.types.any fun e => e.2.type.occurs id

/-- The scheme of a type over those of its variables that occur in no type of the scope. -/
def generalize (sc : Scope) (t : Ty) : Scheme :=
  ⟨t.freeVars.filter fun v => !sc.mentions v.id, t⟩

/-! ### Look-up -/

theorem lookup?_cons (f : Frame) (sc : Scope) (name : String) :
    lookup? (f :: sc) name = (Dict.get? f.types name).or (lookup? sc name) := by
  simp only [lookup?, List.findSome?_cons]
  cases Dict.get? f.types name <;> rfl

/-- What is declared in the innermost frame is found there. -/
theorem lookup?_declare (f : Frame) (sc : Scope) (name : String) (s : Scheme) (other : String) :
    lookup? (f.declare name s :: sc) other =
      if name = other then some s else lookup? (f :: sc) other := by
  simp only [lookup?_cons, Frame.declare, Dict.get?_insert]
  split <;> rfl

end Scope

end ScriptTyping
