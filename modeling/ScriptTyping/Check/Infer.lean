import ScriptTyping.Check.Resolve

/-!
# Types of programs

Goes through a program from left to right and asks for equations between the types of its parts.
A part that has no value, such as a declaration or a loop, has no type: `Ty.missing`.

A name that is not declared has a new type at each use, until something is assigned to it.

**Termination.** A constant of an enum is visited where it is used, so a constant can lead to
another. `inferDepth` goes at most a given number of constants deep.
-/

namespace ScriptTyping

namespace Node

/-- The name that a node is, if it is one. -/
def ident? : Node → Option String
  | ident name => some name
  | _ => none

/-- The text that a node is, if it is one. -/
def string? : Node → Option String
  | string s => some s
  | _ => none

end Node

namespace Infer

/-! ## Operators -/

def boolean : Ty := .primitive Ty.boolean

/-- Ask that a condition, if it has a value, is a truth value. -/
def expectBoolean (t : Ty) : Infer Unit := do
  if !t.isMissing then equate t boolean

/-- Refuse an operand without value. -/
def expectValue (op : String) (t : Ty) : Infer Unit := do
  if t.isMissing then throw (.invalidOperands op)

/-- The class that an operator asks of its operands. -/
def operatorClass? (op : String) : Option String :=
  if op ∈ ["-", "*", "/", "%", "&", "|", "^", "<<", ">>"] then some Class.num
  else if op ∈ ["<", ">", "<=", ">="] then some Class.ord
  else if op ∈ ["==", "!="] then some Class.eq
  else none

def sumType (left right : Ty) : Infer Ty := do
  let s ← get
  match s.scope.instances.addition s.supply.attachments left right with
  | .impossible => throw (.operator "+" left right)
  | .inClass c =>
    discard <| require left c
    discard <| require right c
  | .undecided => pure ()
  equate left right
  return left

/-- The type of an operation on two values. -/
def binaryType (op : String) (left right : Ty) : Infer Ty := do
  if op = "+" then sumType left right else
  match operatorClass? op with
  | none => throw (.unsupportedOperator op)
  | some c =>
    if !(← require left c) then throw (.operator op left right)
    if !(← require right c) then throw (.operator op left right)
    equate left right
    return if c = Class.num then left else boolean

/-- The type of an operation on one number. -/
def numericType (op : String) (t : Ty) : Infer Ty := do
  expectValue op t
  if !(← require t Class.num) then throw (.operator op t t)
  return t

/-- The type of an operation on one value. -/
def unaryType (op : String) (t : Ty) : Infer Ty := do
  if op = "!" then
    expectValue op t
    equate t boolean
    return boolean
  else numericType op t

/-! ## Names and members -/

def nameType (name : String) : Infer Ty := do
  match (← scope).lookup? name with
  | some s => instantiate s
  | none => fresh

/-- Declare what is assigned to, if it is a name that is not declared. -/
def declareTarget (target : Node) (t : Ty) : Infer Unit := do
  match target.ident? with
  | some name => if ((← scope).lookup? name).isNone then declare name t
  | none => pure ()

/-- The type of a part of a value: an element of an array, a value of a map, or the field of a record
that is named. -/
def partType? : Ty → Option String → Option Ty
  | .con name args _, _ =>
    if name = Ty.arrayName ∧ args.length = 1 then args.head?
    else if Ty.isMapName name then args.getLast?
    else none
  | t@(.record ..), some key => t.field? key
  | _, _ => none

/-- The type of a part of a value. If nothing is known of it, it is new. -/
def partType (t : Ty) (key : Option String) : Infer Ty :=
  match partType? t key with
  | some u => pure u
  | none => fresh

/-- The type of a variant: that of its enum, or a function to it from what the variant is made
with. -/
def variantType (constant : Node → Infer Ty) (d : EnumDecl) (name : String) : Infer Ty :=
  match d.variants.find? fun v => v.name = name with
  | none => throw (.undeclared .variant (d.name ++ "." ++ name))
  | some v =>
    within .empty do
      let params ← declareTypeParams d.tparams []
      let enum ← growing d.name params
      match v.kind with
      | .unit => return enum
      | .tuple => return .arrow (← resolveEach v.tuple) enum
      | .fields =>
        let fields ← v.fields.mapM fun f => return (f.name, ← resolveOrNew f.ann)
        return .arrow [← record v.name fields [Class.struct]] enum
      | .constant =>
        discard <| constant v.value
        return enum

/-- The enum whose variant is meant by a member of a name: one that no value hides. -/
def enumOf? (sc : Scope) (object : Node) : Option EnumDecl :=
  match object.ident? with
  | some name => if (sc.lookup? name).isSome then none else sc.enumDecl? name
  | none => none

/-! ## Declarations -/

/-- The type of a variable: that of its value, which must be the declared one if there is one; without
value, the declared one or a new one. -/
def heldType (declared found : Ty) : Infer Ty := do
  if found.isMissing then
    if declared.isMissing then fresh else return declared
  else
    if !declared.isMissing then equate declared found
    return found

/-- The type of a declaration as an expression: a struct if it is declared as one, else the type of the
variable. -/
def shownType (declared t : Ty) : Ty :=
  match declared with
  | .record owner _ _ => if owner = Ty.mapName then t else declared
  | _ => t

/-- Declare a variable. One that the innermost frame has already keeps its type. -/
def variableType (name : String) (ann : TypeExpr) (slot : Nat) (value : Infer Ty) : Infer Ty := do
  match (← scope).lookupLocal? name with
  | some s =>
    setSlot slot s.type
    return s.type
  | none =>
    let declared ← resolveIfWritten ann
    let t ← heldType declared (← value)
    setSlot slot t
    declare name t
    return shownType declared t

/-- What a function returns: the values of its return statements; if there are none, the value of
its body; if there is none and no result is annotated, nothing. -/
def resultTypes (returned : List Ty) (value : Ty) (annotated : Bool) : List Ty :=
  if !returned.isEmpty then returned
  else if !value.isMissing then [value]
  else if annotated then [] else [.primitive Ty.void]

def declareParam (p : Param) : Infer Ty := do
  let t ← paramType (resolve p.ann) (!p.ann.isMissing) p.variadic
  declare p.name t
  return t

/-- Declare a function where it stands, if it has a name. -/
def declareFunction (name : String) (t : Ty) : Infer Unit :=
  if name = "" then return else declareOutside name t

/-- The type of a function. It is declared before the body is visited, so that the body can use
it. -/
def functionType (name : String) (sig : Signature) (body : Infer Ty) : Infer Ty :=
  within .function do
    discard <| declareTypeParams sig.tparams []
    let params ← sig.params.mapM declareParam
    let ret ← resolveOrNew sig.ret
    let t := Ty.arrow params (if sig.async then .app Ty.promiseName [ret] else ret)
    declareFunction name t
    let value ← body
    let returned := (((← scope).head?).map Frame.returns).getD []
    (resultTypes returned value (!sig.ret.isMissing)).forM (equate ret)
    return t

/-! ## Calls and literals -/

/-- The type of a call: what the callee returns for these arguments, or a promise of it if that is
awaited. -/
def callType (awaited : Bool) (callee : Ty) (args : List Ty) : Infer Ty := do
  let new ← fresh
  let ret := if awaited then Ty.app Ty.promiseName [new] else new
  if !callee.isMissing then equate callee (.arrow args ret)
  return ret

/-- The type of what was awaited. -/
def awaitedType : Ty → Infer Ty
  | t@(.con name args _) =>
    match args with
    | [elem] => return if name = Ty.promiseName then elem else t
    | _ => return t
  | .var v => do
    let elem ← fresh
    equate (.var v) (.app Ty.promiseName [elem])
    return elem
  | t => return t

/-- The type of a struct literal: its record under the name of the struct, which must fit the
declaration. -/
def structLitType (d : StructDecl) (name : String) (object : Ty) : Infer Ty := do
  match object with
  | .record owner fields l =>
    let classes := (← get).supply.attachments.ofLabel l
    let t := if owner = Ty.anonymous then
        Ty.record name fields ⟨ClassSet.adding classes [Class.struct], none, l.tail⟩ else object
    equate (← expandStruct d []) t
    return t
  | _ => return object

/-! ## Nodes -/

mutual

/-- The type of a node, given how the constants of enums are visited. -/
def inferWith (constant : Node → Infer Ty) : Node → Infer Ty
  | .missing => return .missing
  | .program body => do
    discard <| inferLast constant .missing body
    return .missing
  | .block body => within .empty (inferLast constant .missing body)
  | .exprStmt expr => do
    let t ← inferWith constant expr
    return if expr.isAssign then .missing else t
  | .ifElse cond yes no => do
    expectBoolean (← inferWith constant cond)
    let t ← inferWith constant yes
    discard <| inferWith constant no
    return t
  | .whileLoop cond body => do
    expectBoolean (← inferWith constant cond)
    discard <| within .empty (inferWith constant body)
    return .missing
  | .forLoop init cond step body =>
    within .empty do
      discard <| inferWith constant init
      expectBoolean (← inferWith constant cond)
      discard <| inferWith constant step
      discard <| within .empty (inferWith constant body)
      return .missing
  | .returns value => do
    let t ← inferWith constant value
    addReturn (if t.isMissing then .primitive Ty.void else t)
    return .missing
  | .breaks => return .missing
  | .continues => return .missing
  | .lets vars => do
    inferVars constant vars
    return .missing
  | .var ⟨name, ann, value, slot⟩ => variableType name ann slot (inferWith constant value)
  | .func name sig body => do
    discard <| functionType name sig (inferWith constant body)
    return .missing
  | .lambda sig body => functionType "" sig (inferWith constant body)
  | .structDecl d => do
    declareDecl d.name (.structDecl d)
    return .missing
  | .enumDecl d => do
    declareDecl d.name (.enumDecl d)
    return .missing
  | .number _ isFloat => return .primitive (if isFloat then Ty.float else Ty.integer)
  | .string _ => return .primitive Ty.string
  | .bool _ => return boolean
  | .ident name => nameType name
  | .binary op left right => do
    let l ← inferWith constant left
    let r ← inferWith constant right
    expectValue op l
    expectValue op r
    binaryType op l r
  | .logical op left right => do
    let l ← inferWith constant left
    let r ← inferWith constant right
    expectValue op l
    expectValue op r
    equate l boolean
    equate r boolean
    return boolean
  | .unary op x => do unaryType op (← inferWith constant x)
  | .update op x _ => do numericType op (← inferWith constant x)
  | .assign op target value => do
    let t ← inferWith constant target
    let u ← inferWith constant value
    expectValue op t
    expectValue op u
    equate t u
    declareTarget target t
    return t
  | .ternary cond yes no => do
    expectBoolean (← inferWith constant cond)
    let t ← inferWith constant yes
    let u ← inferWith constant no
    expectValue "?:" t
    expectValue "?:" u
    equate t u
    return t
  | .sequence exprs => inferLast constant .missing exprs
  | .call callee args => do
    let t ← inferWith constant callee
    callType false t (← inferArgs constant args)
  | .await (.call callee args) => do
    let t ← inferWith constant callee
    awaitedType (← callType true t (← inferArgs constant args))
  | .await expr => do awaitedType (← inferWith constant expr)
  | .member obj property _ => do
    match enumOf? (← scope) obj with
    | some d => variantType constant d property
    | none => partType (← inferWith constant obj) (some property)
  | .index obj position => do
    let t ← inferWith constant obj
    discard <| inferWith constant position
    partType t position.string?
  | .array elems => do
    let t ← inferElems constant .missing elems
    return .app Ty.arrayName [if t.isMissing then .primitive Ty.unknown else t]
  | .object props => do record Ty.anonymous (← inferProps constant props) []
  | .structLit name obj => do
    match (← scope).structDecl? name with
    | none => throw (.undeclared .struct name)
    | some d =>
      if obj.isMissing then structLitType d name (.mkRecord Ty.anonymous [] [])
      else structLitType d name (← inferWith constant obj)
  | .type t => resolve t

/-- The type of the last of some nodes, after `last`. -/
def inferLast (constant : Node → Infer Ty) (last : Ty) : List Node → Infer Ty
  | [] => return last
  | n :: ns => do inferLast constant (← inferWith constant n) ns

def inferVars (constant : Node → Infer Ty) : List (VariableOf Node) → Infer Unit
  | [] => return
  | ⟨name, ann, value, slot⟩ :: vs => do
    discard <| variableType name ann slot (inferWith constant value)
    inferVars constant vs

/-- The types of arguments. Each has a value. -/
def inferArgs (constant : Node → Infer Ty) : List Node → Infer (List Ty)
  | [] => return []
  | n :: ns => do
    let t ← inferWith constant n
    expectValue "()" t
    return t :: (← inferArgs constant ns)

/-- The type of the elements of an array, which is that of the first element. -/
def inferElems (constant : Node → Infer Ty) (first : Ty) : List Node → Infer Ty
  | [] => return first
  | n :: ns => do
    let t ← inferWith constant n
    if !first.isMissing && !t.isMissing then equate first t
    inferElems constant (if first.isMissing then t else first) ns

/-- The types of the properties that have a value. -/
def inferProps (constant : Node → Infer Ty) : List (String × Node) → Infer (List (String × Ty))
  | [] => return []
  | (key, n) :: ps => do
    let t ← inferWith constant n
    let ts ← inferProps constant ps
    return if t.isMissing then ts else (key, t) :: ts

end

/-- Only a call is awaited in another way than it is visited. -/
theorem inferWith_await (constant : Node → Infer Ty) {expr : Node}
    (h : ∀ callee args, expr ≠ .call callee args) :
    inferWith constant (.await expr) = inferWith constant expr >>= awaitedType := by
  rw [inferWith]
  exact h

/-- The type of a node, with constants visited up to some depth. -/
def inferDepth : Nat → Node → Infer Ty
  | 0 => inferWith fun _ => throw .recursiveConstant
  | n + 1 => inferWith (inferDepth n)

/-- How deep constants can be nested in a tree. -/
def constantDepth (n : Node) : Nat :=
  let size := (n.walk fun _ => true).length + 1
  size * size

def infer (n : Node) : Infer Ty := inferDepth (constantDepth n) n

end Infer

end ScriptTyping
