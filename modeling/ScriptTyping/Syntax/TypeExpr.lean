/-!
# Type expressions

What a program writes where a type is expected. A tree may have gaps: `TypeExpr.missing` stands
for a type that was not written.
-/

namespace ScriptTyping

/-- A parameter of a function: a name, a type or both. A variadic one takes the arguments that
are left. -/
structure ParamOf (τ : Type) where
  name : String
  ann : τ
  variadic : Bool

/-- A type parameter, with the classes that it is bound to. -/
structure TypeParam where
  name : String
  bounds : List String

/-- A type as a program writes it. -/
inductive TypeExpr where
  | missing
  | named (name : String)
  | array (elem : TypeExpr)
  | map (key value : TypeExpr)
  | promise (elem : TypeExpr)
  | func (params : List (ParamOf TypeExpr)) (ret : TypeExpr)
  | structRef (name : String) (args : List TypeExpr)
  | enumRef (name : String) (args : List TypeExpr)
  | generic (tparams : List TypeParam) (base : TypeExpr)
deriving Inhabited

/-- A parameter with a type expression. -/
abbrev Param := ParamOf TypeExpr

namespace TypeExpr

def isMissing : TypeExpr → Bool
  | missing => true
  | _ => false

end TypeExpr

/-! ## Text -/

namespace TypeParam

def render (p : TypeParam) : String :=
  if p.bounds.isEmpty then p.name else p.name ++ ": " ++ " + ".intercalate p.bounds

/-- Type parameters between angle brackets, or nothing. -/
def renderAll (ps : List TypeParam) : String :=
  if ps.isEmpty then "" else "<" ++ ", ".intercalate (ps.map render) ++ ">"

end TypeParam

/-- A parameter, given the text of its annotation. -/
def ParamOf.render (p : ParamOf TypeExpr) (ann : String) : String :=
  (if p.variadic then "..." else "") ++
    if p.name = "" then ann
    else if p.ann.isMissing then p.name
    else p.name ++ ": " ++ ann

namespace TypeExpr

/-- Type arguments between angle brackets, or nothing. -/
def angled (args : List String) : String :=
  if args.isEmpty then "" else "<" ++ ", ".intercalate args ++ ">"

mutual

def render : TypeExpr → String
  | missing => ""
  | named name => name
  | array elem => "Array<" ++ elem.render ++ ">"
  | map key value => "Map<" ++ key.render ++ ", " ++ value.render ++ ">"
  | promise elem => "Promise<" ++ elem.render ++ ">"
  | func params ret => "(" ++ ", ".intercalate (renderParams params) ++ ") -> " ++ ret.render
  | structRef name args => "struct " ++ name ++ angled (renderAll args)
  | enumRef name args => "enum " ++ name ++ angled (renderAll args)
  | generic tparams base => TypeParam.renderAll tparams ++ base.render

/-- The texts of some type expressions. -/
def renderAll : List TypeExpr → List String
  | [] => []
  | t :: ts => t.render :: renderAll ts

def renderParams : List (ParamOf TypeExpr) → List String
  | [] => []
  | ⟨name, ann, variadic⟩ :: ps =>
    (ParamOf.mk name ann variadic).render ann.render :: renderParams ps

end

/-- An annotation after a colon, or nothing where the type is missing. -/
def annotation (t : TypeExpr) : String :=
  if t.isMissing then "" else ": " ++ t.render

/-! ## Nodes -/

/-- The name of the syntactic category of a type expression. -/
def nodeName : TypeExpr → String
  | generic .. => "GenericType"
  | _ => "Type"

mutual

/-- The type expressions in a tree, parents first. The children of a node that `enter` refuses
are left out. -/
def walk (enter : TypeExpr → Bool) : TypeExpr → List TypeExpr
  | missing => []
  | t@(named _) => [t]
  | t@(array elem) => t :: if enter t then elem.walk enter else []
  | t@(map key value) => t :: if enter t then key.walk enter ++ value.walk enter else []
  | t@(promise elem) => t :: if enter t then elem.walk enter else []
  | t@(func params ret) => t :: if enter t then walkParams enter params ++ ret.walk enter else []
  | t@(structRef _ args) => t :: if enter t then walkAll enter args else []
  | t@(enumRef _ args) => t :: if enter t then walkAll enter args else []
  | t@(generic _ base) => t :: if enter t then base.walk enter else []

/-- The type expressions in some trees. -/
def walkAll (enter : TypeExpr → Bool) : List TypeExpr → List TypeExpr
  | [] => []
  | t :: ts => t.walk enter ++ walkAll enter ts

/-- The type expressions in some parameters. -/
def walkParams (enter : TypeExpr → Bool) : List (ParamOf TypeExpr) → List TypeExpr
  | [] => []
  | ⟨_, ann, _⟩ :: ps => ann.walk enter ++ walkParams enter ps

end

end TypeExpr

end ScriptTyping
