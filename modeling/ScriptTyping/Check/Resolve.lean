import ScriptTyping.Check.Inference
import ScriptTyping.Syntax.Walk

/-!
# Types of annotations

What type an annotation stands for. A name is a primitive type, a type parameter, or a declared
struct or enum, in this order. A struct stands for a record of its fields, so its name is expanded
wherever it is used, and the names in its fields are resolved there.

**Termination.** The expansion of a struct can need the expansion of others. `resolveDepth` goes at
most a given number of structs deep, and `resolve` takes a number that is enough for any struct that
does not contain itself: between two places where a new type parameter comes into scope, no struct
is expanded inside itself.
-/

namespace ScriptTyping

namespace Infer

/-! ## Type parameters -/

/-- Put a type into the class that a type parameter asks for. -/
def requireBound (t : Ty) (c : String) : Infer Unit := do
  if !(← scope).declaresClass c then throw (.unknownType c)
  if !(← require t c) then throw (.bound t c)

/-- The first of some arguments, or something new if there is none. -/
def firstOrNew : List Ty → Infer Ty
  | [] => fresh
  | t :: _ => return t

/-- Declare type parameters in the innermost frame: as the arguments that are given for them, then
as new variables. -/
def declareTypeParams : List TypeParam → List Ty → Infer (List Ty)
  | [], _ => return []
  | p :: ps, args => do
    let t ← firstOrNew args
    p.bounds.forM (requireBound t)
    declareTypeParam p.name t
    return t :: (← declareTypeParams ps args.tail)

/-- The type of a parameter: as annotated, else new; one that is variadic is then an array. -/
def paramType (resolve : Infer Ty) (annotated variadic : Bool) : Infer Ty := do
  if annotated then resolve
  else if variadic then return .app Ty.arrayName [← fresh]
  else fresh

/-! ## Structs and enums -/

/-- The type of a field. Without annotation it is that of the only type parameter, or a new one if
there is not exactly one. -/
def fieldType (resolve : TypeExpr → Infer Ty) (params : List Ty) (ann : TypeExpr) : Infer Ty :=
  if ann.isMissing then
    match params with
    | [t] => return t
    | _ => fresh
  else resolve ann

/-- The record that a struct stands for. -/
def structType (resolve : TypeExpr → Infer Ty) (d : StructDecl) (args : List Ty) : Infer Ty :=
  within .empty do
    let params ← declareTypeParams d.tparams args
    let fields ← d.fields.mapM fun f => return (f.name, ← fieldType resolve params f.ann)
    record d.name fields [Class.struct]

/-- The constructor that an enum stands for. -/
def enumType (d : EnumDecl) (args : List Ty) : Infer Ty := do
  let params ← within .empty (declareTypeParams d.tparams args)
  growing d.name params

/-! ## Annotations -/

/-- The type that a name stands for in an annotation. -/
def resolveName (expand : StructDecl → List Ty → Infer Ty) (name : String) : Infer Ty := do
  let s ← get
  if name ∈ s.primitives ∨ name = Ty.void ∨ name = Ty.unknown then return .primitive name
  match s.scope.tparam? name with
  | some t => return t
  | none =>
    match s.scope.decl? name with
    | some (.structDecl d) => expand d []
    | some (.enumDecl d) => enumType d []
    | _ => throw (.unknownType name)

mutual

/-- The type of an annotation, given how structs are expanded. -/
def resolveWith (expand : StructDecl → List Ty → Infer Ty) : TypeExpr → Infer Ty
  | .missing => throw .untyped
  | .named name => resolveName expand name
  | .array elem => do return .app Ty.arrayName [← resolveWith expand elem]
  | .map key value => do
    discard <| resolveWith expand key
    return .app Ty.mapName [← resolveWith expand value]
  | .promise elem => do return .app Ty.promiseName [← resolveWith expand elem]
  | .func params ret => do
    let params ← resolveParams expand params
    if ret.isMissing then return .arrow params (.primitive Ty.void)
    else return .arrow params (← resolveWith expand ret)
  | .structRef name args => do
    match (← scope).structDecl? name with
    | none => throw (.undeclared .struct name)
    | some d => expand d (← resolveAll expand args)
  | .enumRef name args => do
    match (← scope).enumDecl? name with
    | none => throw (.undeclared .enum name)
    | some d => enumType d (← resolveAll expand args)
  | .generic tparams base =>
    within .empty do
      discard <| declareTypeParams tparams []
      resolveWith expand base

def resolveParams (expand : StructDecl → List Ty → Infer Ty) : List Param → Infer (List Ty)
  | [] => return []
  | ⟨_, ann, variadic⟩ :: ps => do
    let t ← paramType (resolveWith expand ann) (!ann.isMissing) variadic
    return t :: (← resolveParams expand ps)

def resolveAll (expand : StructDecl → List Ty → Infer Ty) : List TypeExpr → Infer (List Ty)
  | [] => return []
  | t :: ts => do return (← resolveWith expand t) :: (← resolveAll expand ts)

end

/-- The type of an annotation, with structs expanded up to some depth. -/
def resolveDepth : Nat → TypeExpr → Infer Ty
  | 0 => resolveWith fun d _ => throw (.recursiveStruct d.name)
  | n + 1 => resolveWith (structType (resolveDepth n))

end Infer

/-- How much a declaration writes: its names, type parameters and types. -/
def StructDecl.weight (d : StructDecl) : Nat :=
  d.tparams.length + ((Node.structDecl d).walk fun _ => true).length

/-- How much a declared struct writes. -/
def Node.structWeight : Node → Nat
  | structDecl d => d.weight
  | _ => 0

/-- How much the structs of a frame write. -/
def Frame.structWeight (f : Frame) : Nat :=
  f.decls.foldl (fun w e => w + e.2.structWeight) 0

/-- How much the structs of a scope write. -/
def Scope.structWeight (sc : Scope) : Nat := sc.foldl (fun w f => w + f.structWeight) 0

/-- How deep structs can be nested in a scope. -/
def Scope.structDepth (sc : Scope) : Nat := (sc.structWeight + 1) * (sc.structWeight + 1)

namespace Infer

def resolve (t : TypeExpr) : Infer Ty := do resolveDepth (← scope).structDepth t

/-- The record that a struct stands for. -/
def expandStruct (d : StructDecl) (args : List Ty) : Infer Ty := structType resolve d args

def resolveEach (ts : List TypeExpr) : Infer (List Ty) := ts.mapM resolve

/-- The type of an annotation, or nothing if none is written. -/
def resolveIfWritten (t : TypeExpr) : Infer Ty := if t.isMissing then return .missing else resolve t

/-- The type of an annotation, or the new one that is drawn before if none is written. -/
def resolveOrNew (t : TypeExpr) : Infer Ty := do
  let new ← fresh
  if t.isMissing then return new else resolve t

end Infer

end ScriptTyping
