import ScriptTyping.Syntax.Node

/-!
# Walking a syntax tree

The nodes of a tree in depth-first order, parents first, and the numbering of its variables.
-/

namespace ScriptTyping

namespace Node

/-- The type expressions in a type, as nodes. -/
def walkType (enter : Node → Bool) (t : TypeExpr) : List Node :=
  (t.walk fun t => enter (type t)).map type

/-- The type expressions in the annotations of some parameters. -/
def walkParams (enter : Node → Bool) (ps : List Param) : List Node :=
  ps.flatMap fun p => walkType enter p.ann

/-- The type expressions in the annotations of some fields. -/
def walkFields (enter : Node → Bool) (fs : List Field) : List Node :=
  fs.flatMap fun f => walkType enter f.ann

/-- A node and, if it is entered, what is below it. -/
def visit (enter : Node → Bool) (n : Node) (below : List Node) : List Node :=
  n :: if enter n then below else []

mutual

/-- The nodes of a tree. What is below a node that `enter` refuses is left out. -/
def walk (enter : Node → Bool) : Node → List Node
  | missing => []
  | n@(program body) | n@(block body) => visit enter n (walkAll enter body)
  | n@(exprStmt expr) => visit enter n (expr.walk enter)
  | n@(ifElse cond yes no) | n@(ternary cond yes no) =>
    visit enter n (cond.walk enter ++ yes.walk enter ++ no.walk enter)
  | n@(whileLoop cond body) => visit enter n (cond.walk enter ++ body.walk enter)
  | n@(forLoop init cond step body) =>
    visit enter n (init.walk enter ++ cond.walk enter ++ step.walk enter ++ body.walk enter)
  | n@(returns value) => visit enter n (value.walk enter)
  | n@(lets vars) => visit enter n (walkVars enter vars)
  | n@(var ⟨_, ann, value, _⟩) => visit enter n (walkType enter ann ++ value.walk enter)
  | n@(func _ sig body) | n@(lambda sig body) =>
    visit enter n (walkParams enter sig.params ++ walkType enter sig.ret ++ body.walk enter)
  | n@(structDecl d) => visit enter n (walkFields enter d.fields)
  | n@(enumDecl ⟨_, _, variants⟩) => visit enter n (walkVariants enter variants)
  | n@(binary _ left right) | n@(logical _ left right) | n@(assign _ left right) =>
    visit enter n (left.walk enter ++ right.walk enter)
  | n@(unary _ x) | n@(update _ x _) | n@(await x) | n@(member x _ _) | n@(structLit _ x) =>
    visit enter n (x.walk enter)
  | n@(sequence exprs) | n@(array exprs) => visit enter n (walkAll enter exprs)
  | n@(call callee args) => visit enter n (callee.walk enter ++ walkAll enter args)
  | n@(index obj position) => visit enter n (obj.walk enter ++ position.walk enter)
  | n@(object props) => visit enter n (walkProps enter props)
  | type t => walkType enter t
  | n@breaks | n@continues | n@(number ..) | n@(string _) | n@(bool _) | n@(ident _) => [n]

def walkAll (enter : Node → Bool) : List Node → List Node
  | [] => []
  | n :: ns => n.walk enter ++ walkAll enter ns

/-- The nodes of some declared variables, each of them a node itself. -/
def walkVars (enter : Node → Bool) : List (VariableOf Node) → List Node
  | [] => []
  | ⟨name, ann, value, slot⟩ :: vs =>
    visit enter (var ⟨name, ann, value, slot⟩) (walkType enter ann ++ value.walk enter) ++
      walkVars enter vs

def walkVariants (enter : Node → Bool) : List (VariantOf Node) → List Node
  | [] => []
  | ⟨_, _, tuple, fields, value⟩ :: vs =>
    tuple.flatMap (walkType enter) ++ walkFields enter fields ++ value.walk enter ++
      walkVariants enter vs

def walkProps (enter : Node → Bool) : List (String × Node) → List Node
  | [] => []
  | (_, value) :: ps => value.walk enter ++ walkProps enter ps

end

/-- The declared variables of a tree. -/
def declared (n : Node) : List Variable :=
  (n.walk fun _ => true).filterMap fun
    | var v => some v
    | _ => none

end Node

/-! ## Numbering -/

/-- A computation that hands out the numbers of variables. -/
abbrev Numbering := StateM Nat

namespace Node

mutual

/-- Give each variable of a tree a slot of its own. -/
def assignSlots : Node → Numbering Node
  | program body => program <$> assignSlotsAll body
  | block body => block <$> assignSlotsAll body
  | exprStmt expr => exprStmt <$> expr.assignSlots
  | ifElse cond yes no => ifElse <$> cond.assignSlots <*> yes.assignSlots <*> no.assignSlots
  | whileLoop cond body => whileLoop <$> cond.assignSlots <*> body.assignSlots
  | forLoop init cond step body =>
    forLoop <$> init.assignSlots <*> cond.assignSlots <*> step.assignSlots <*> body.assignSlots
  | returns value => returns <$> value.assignSlots
  | lets vars => lets <$> assignSlotsVars vars
  | var ⟨name, ann, value, _⟩ => do
    let slot ← getModify (· + 1)
    return var ⟨name, ann, ← value.assignSlots, slot⟩
  | func name sig body => func name sig <$> body.assignSlots
  | lambda sig body => lambda sig <$> body.assignSlots
  | enumDecl ⟨name, tparams, variants⟩ =>
    (fun vs => enumDecl ⟨name, tparams, vs⟩) <$> assignSlotsVariants variants
  | binary op left right => binary op <$> left.assignSlots <*> right.assignSlots
  | logical op left right => logical op <$> left.assignSlots <*> right.assignSlots
  | assign op left right => assign op <$> left.assignSlots <*> right.assignSlots
  | unary op x => unary op <$> x.assignSlots
  | update op x before => (update op · before) <$> x.assignSlots
  | ternary cond yes no => ternary <$> cond.assignSlots <*> yes.assignSlots <*> no.assignSlots
  | sequence exprs => sequence <$> assignSlotsAll exprs
  | call callee args => call <$> callee.assignSlots <*> assignSlotsAll args
  | await expr => await <$> expr.assignSlots
  | member obj property arrow => (member · property arrow) <$> obj.assignSlots
  | index obj position => index <$> obj.assignSlots <*> position.assignSlots
  | array elems => array <$> assignSlotsAll elems
  | object props => object <$> assignSlotsProps props
  | structLit name obj => structLit name <$> obj.assignSlots
  | n => pure n

/-- Number the variables of some trees. -/
def assignSlotsAll : List Node → Numbering (List Node)
  | [] => pure []
  | n :: ns => List.cons <$> n.assignSlots <*> assignSlotsAll ns

/-- Number some declared variables and those in their values. -/
def assignSlotsVars : List (VariableOf Node) → Numbering (List (VariableOf Node))
  | [] => pure []
  | ⟨name, ann, value, _⟩ :: vs => do
    let slot ← getModify (· + 1)
    return ⟨name, ann, ← value.assignSlots, slot⟩ :: (← assignSlotsVars vs)

/-- Number the variables in the constants of some variants. -/
def assignSlotsVariants : List (VariantOf Node) → Numbering (List (VariantOf Node))
  | [] => pure []
  | ⟨name, kind, tuple, fields, value⟩ :: vs => do
    return ⟨name, kind, tuple, fields, ← value.assignSlots⟩ :: (← assignSlotsVariants vs)

/-- Number the variables in the values of some properties. -/
def assignSlotsProps : List (String × Node) → Numbering (List (String × Node))
  | [] => pure []
  | (key, value) :: ps => do return (key, ← value.assignSlots) :: (← assignSlotsProps ps)

end

/-- A tree whose variables are numbered from 0. -/
def numbered (n : Node) : Node := (n.assignSlots.run 0).1

end Node

end ScriptTyping
