import ScriptTyping.Syntax.Node
import ScriptTyping.Text.Quoted

/-!
# The text of a syntax tree

One line that shows how an expression is grouped: a compound operand stands in parentheses. The
flag `operand` says that a node stands where only a simple expression may be read without them.
-/

namespace ScriptTyping

/-! ## Parts without nodes -/

def braced (parts : List String) : String :=
  if parts.isEmpty then "\x7b\x7d" else "\x7b " ++ ", ".intercalate parts ++ " \x7d"

/-- A text in parentheses, if it needs them. -/
def parens (needed : Bool) (s : String) : String := if needed then "(" ++ s ++ ")" else s

def Field.render (f : Field) : String := f.name ++ f.ann.annotation

/-- Type parameters, parameters and result of a function. -/
def Signature.render (s : Signature) : String :=
  TypeParam.renderAll s.tparams ++ "(" ++ ", ".intercalate (TypeExpr.renderParams s.params) ++ ")" ++
    s.ret.annotation

/-- The words before the name of a function. -/
def Signature.head (s : Signature) : String := if s.async then "async fun " else "fun "

def StructDecl.render (d : StructDecl) : String :=
  "struct " ++ d.name ++ TypeParam.renderAll d.tparams ++ " " ++ braced (d.fields.map Field.render)

/-- A variant, given the text of its constant. -/
def VariantOf.render (v : VariantOf ν) (value : String) : String :=
  v.name ++ match v.kind with
    | .unit => ""
    | .tuple => "(" ++ ", ".intercalate (TypeExpr.renderAll v.tuple) ++ ")"
    | .fields => " " ++ braced (v.fields.map Field.render)
    | .constant => " = " ++ value

/-- A declared variable, given the text of its value. -/
def VariableOf.render (v : VariableOf Node) (value : String) : String :=
  v.name ++ v.ann.annotation ++ if v.value.isMissing then "" else " = " ++ value

/-! ## Nodes -/

namespace Node

mutual

/-- The text of a node. -/
def render (operand : Bool) : Node → String
  | missing => ""
  | program body => " ".intercalate (renderAll body)
  | block body =>
    if body.isEmpty then "\x7b\x7d" else "\x7b " ++ " ".intercalate (renderAll body) ++ " \x7d"
  | exprStmt expr => expr.render false ++ ";"
  | ifElse cond yes no =>
    "if (" ++ cond.render false ++ ") " ++ yes.render false ++
      if no.isMissing then "" else " else " ++ no.render false
  | whileLoop cond body => "while (" ++ cond.render false ++ ") " ++ body.render false
  -- Declarations stand in the head of a loop without their semicolon.
  | forLoop (lets vars) cond step body =>
    "for (let " ++ ", ".intercalate (renderVars vars) ++ "; " ++
      cond.render false ++ "; " ++ step.render false ++ ") " ++ body.render false
  | forLoop init cond step body =>
    "for (" ++ init.render false ++ "; " ++
      cond.render false ++ "; " ++ step.render false ++ ") " ++ body.render false
  | returns value => if value.isMissing then "return;" else "return " ++ value.render false ++ ";"
  | breaks => "break;"
  | continues => "continue;"
  | lets vars => "let " ++ ", ".intercalate (renderVars vars) ++ ";"
  | var ⟨name, ann, value, slot⟩ => (VariableOf.mk name ann value slot).render (value.render false)
  | func name sig body => sig.head ++ name ++ sig.render ++ " " ++ body.render false
  | structDecl d => d.render
  | enumDecl ⟨name, tparams, variants⟩ =>
    "enum " ++ name ++ TypeParam.renderAll tparams ++ " \x7b " ++
      ", ".intercalate (renderVariants variants) ++ " \x7d"
  | number raw _ => raw
  | string value => Text.quote value
  | bool value => if value then "true" else "false"
  | ident name => name
  | binary op left right | logical op left right | assign op left right =>
    parens operand (left.render true ++ " " ++ op ++ " " ++ right.render true)
  | unary op x => op ++ x.render true
  | update op x before => if before then op ++ x.render true else x.render true ++ op
  | ternary cond yes no =>
    parens operand (cond.render true ++ " ? " ++ yes.render true ++ " : " ++ no.render true)
  | sequence exprs => "(" ++ ", ".intercalate (renderAll exprs) ++ ")"
  | call callee args => callee.render true ++ "(" ++ ", ".intercalate (renderAll args) ++ ")"
  | await expr => parens operand ("await " ++ expr.render true)
  | member obj property arrow =>
    obj.render true ++ (if arrow then "->" else ".") ++ property
  | index obj position => obj.render true ++ "[" ++ position.render false ++ "]"
  | array elems => "[" ++ ", ".intercalate (renderAll elems) ++ "]"
  | object props => braced (renderProps props)
  | structLit name obj => name ++ " " ++ obj.render false
  | lambda sig body => parens operand (sig.head ++ sig.render ++ " " ++ body.render false)
  | type t => t.render

def renderAll : List Node → List String
  | [] => []
  | n :: ns => n.render false :: renderAll ns

/-- The texts of some declared variables. -/
def renderVars : List (VariableOf Node) → List String
  | [] => []
  | ⟨name, ann, value, slot⟩ :: vs =>
    (VariableOf.mk name ann value slot).render (value.render false) :: renderVars vs

def renderVariants : List (VariantOf Node) → List String
  | [] => []
  | ⟨name, kind, tuple, fields, value⟩ :: vs =>
    (VariantOf.mk name kind tuple fields value).render (value.render false) :: renderVariants vs

def renderProps : List (String × Node) → List String
  | [] => []
  | (key, value) :: ps => (key ++ ": " ++ value.render false) :: renderProps ps

end

def text (n : Node) : String := n.render false

end Node

end ScriptTyping
