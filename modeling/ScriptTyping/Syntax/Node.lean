import ScriptTyping.Syntax.TypeExpr

/-!
# Syntax trees

Programs, statements, declarations and expressions are one type of nodes, since the language lets
most of them stand where another may. A tree may have gaps: `Node.missing` stands for a part that
was not written, such as the `else` of a condition. Operators are kept as they are spelled.
-/

namespace ScriptTyping

/-- Type parameters, parameters and result of a function. -/
structure Signature where
  tparams : List TypeParam
  params : List Param
  ret : TypeExpr
  async : Bool

/-- A field of a struct, with its annotation. -/
structure Field where
  name : String
  ann : TypeExpr

/-- A declared struct. -/
structure StructDecl where
  name : String
  tparams : List TypeParam
  fields : List Field

/-- What a variant of an enum is made with: nothing, values in order, named fields, or a constant. -/
inductive VariantKind where
  | unit
  | tuple
  | fields
  | constant
deriving DecidableEq

/-- A variant of an enum. Its kind says which of the parts counts. -/
structure VariantOf (ν : Type) where
  name : String
  kind : VariantKind
  tuple : List TypeExpr
  fields : List Field
  value : ν

/-- A declared enum. -/
structure EnumDeclOf (ν : Type) where
  name : String
  tparams : List TypeParam
  variants : List (VariantOf ν)

/-- A variable that is declared. Once a program is numbered, `slot` tells its variables apart. -/
structure VariableOf (ν : Type) where
  name : String
  ann : TypeExpr
  value : ν
  slot : Nat
deriving Inhabited

/-- A node of a syntax tree. -/
inductive Node where
  | missing
  -- Statements
  | program (body : List Node)
  | block (body : List Node)
  | exprStmt (expr : Node)
  | ifElse (cond yes no : Node)
  | whileLoop (cond body : Node)
  | forLoop (init cond update body : Node)
  | returns (value : Node)
  | breaks
  | continues
  -- Declarations
  | lets (vars : List (VariableOf Node))
  | var (v : VariableOf Node)
  | func (name : String) (sig : Signature) (body : Node)
  | structDecl (d : StructDecl)
  | enumDecl (d : EnumDeclOf Node)
  -- Expressions
  | number (raw : String) (isFloat : Bool)
  | string (value : String)
  | bool (value : Bool)
  | ident (name : String)
  | binary (op : String) (left right : Node)
  | logical (op : String) (left right : Node)
  | unary (op : String) (operand : Node)
  | update (op : String) (operand : Node) (before : Bool)
  | assign (op : String) (target value : Node)
  | ternary (cond yes no : Node)
  | sequence (exprs : List Node)
  | call (callee : Node) (args : List Node)
  | await (expr : Node)
  | member (object : Node) (property : String) (arrow : Bool)
  | index (object position : Node)
  | array (elems : List Node)
  | object (props : List (String × Node))
  | structLit (name : String) (object : Node)
  | lambda (sig : Signature) (body : Node)
  -- Types
  | type (t : TypeExpr)
deriving Inhabited

abbrev EnumDecl := EnumDeclOf Node

abbrev Variant := VariantOf Node

abbrev Variable := VariableOf Node

namespace Node

/-- Whether a part was not written. -/
def isMissing : Node → Bool
  | missing => true
  | _ => false

def isAssign : Node → Bool
  | assign .. => true
  | _ => false

/-- The name of the syntactic category of a node. -/
def nodeName : Node → String
  | missing => ""
  | program _ => "SourceElements"
  | block _ => "Block"
  | exprStmt _ => "ExpressionStatement"
  | ifElse .. => "IfElse"
  | whileLoop .. => "While"
  | forLoop .. => "For"
  | returns _ => "Return"
  | breaks => "Break"
  | continues => "Continue"
  | lets _ => "Let"
  | var _ => "Variable"
  | func .. => "FunctionDec"
  | structDecl _ => "Struct"
  | enumDecl _ => "Enum"
  | number .. => "Number"
  | string _ => "String"
  | bool _ => "Boolean"
  | ident _ => "Identifier"
  | binary .. => "BinaryExpression"
  | logical .. => "LogicalExpression"
  | unary .. => "UnaryExpression"
  | update .. => "UpdateExpression"
  | assign .. => "AssignmentExpression"
  | ternary .. => "TernaryExpression"
  | sequence _ => "Sequence"
  | call .. => "CallExpression"
  | await _ => "AwaitExpression"
  | member .. => "MemberExpression"
  | index .. => "IndexExpression"
  | array _ => "Array"
  | object _ => "Object"
  | structLit .. => "StructLiteral"
  | lambda .. => "Lambda"
  | type t => t.nodeName

end Node

end ScriptTyping
