import ScriptTyping.Syntax.Node
import ScriptTyping.Syntax.Stream
import ScriptTyping.Token.Lexer

/-!
# The grammar

Recursive descent with precedence climbing. Each production is a function of the productions one
level deeper, `Grammar`, and calls them only after it has taken a token. `Grammar.ofDepth` ties the
knot: a stream of weight `w` never nests deeper than `w`, so that depth is enough.

    Program  = { Stmt }
    Expr     = Assign { "," Assign }
    Assign   = Ternary [ assignment-operator Assign ]
    Ternary  = Binary [ "?" Assign ":" Ternary ]
    Binary   = Unary { binary-operator Binary }
    Unary    = ( "await" | prefix-operator ) Unary | Postfix [ "++" | "--" ]
    Postfix  = Primary { "[" Expr "]" | "(" [ Assign { "," Assign } ] ")" | ( "." | "->" ) ident }
    Type     = "<" TypeParams ">" Type | "Array" "<" Type ">" | "Map" "<" Type "," Type ">"
             | "Promise" "<" Type ">" | "(" [ Param { "," Param } ] ")" "->" Type
             | ( "struct" | "enum" ) ident [ "<" Type { "," Type } ">" ] | ident
-/

namespace ScriptTyping

/-- The productions that call each other. -/
structure Grammar where
  stmt : Parser Node
  expr : Parser Node
  assign : Parser Node
  ternary : Parser Node
  binary : Nat → Parser Node
  unary : Parser Node
  type : Parser TypeExpr

namespace Grammar

open ScriptTyping.Parser

/-! ## Types -/

/-- Type parameters with their bounds. -/
def typeParams : Parser (List TypeParam) :=
  sepBy .comma do
    let name ← expectIdent "for type parameter"
    let bounds ←
      if ← got Symbol.colon then sepBy .plus (expectIdent "for type-class constraint") else pure []
    return ⟨name, bounds⟩

/-- Type parameters between angle brackets, or none. -/
def optTypeParams : Parser (List TypeParam) := do
  if ← got Symbol.less then
    let ps ← typeParams
    expectCloseAngle
    return ps
  return []

/-- Type arguments between angle brackets, or none. -/
def typeArgs (g : Grammar) : Parser (List TypeExpr) := do
  if ← got Symbol.less then
    let ts ← sepBy .comma g.type
    expectCloseAngle
    return ts
  return []

/-- An annotation after a colon, or none. -/
def annotation (g : Grammar) : Parser TypeExpr := do
  if ← got Symbol.colon then g.type else return .missing

/-- A parameter. In a function type it may be a bare type. -/
def param (g : Grammar) (inType : Bool) : Parser Param := do
  let variadic ← got Symbol.ellipsis
  let named := (← kind) = .ident ∧ (← peekKind) = .symbol .colon
  if inType ∧ ¬named then return ⟨"", ← g.type, variadic⟩
  let name ← expectIdent "for parameter name"
  return ⟨name, ← g.annotation, variadic⟩

/-- Parameters up to a closing parenthesis. -/
def params (g : Grammar) (inType : Bool) : Parser (List Param) := do
  if (← kind) = .symbol .closeParen then return [] else sepBy .comma (g.param inType)

/-- A type argument of a constructor that is known by name, and its closing bracket. -/
def closedType (g : Grammar) : Parser TypeExpr := do
  let t ← g.type
  expectCloseAngle
  return t

/-- A name that may be followed by an opening angle bracket. -/
def namedType (g : Grammar) (name : String) : Parser TypeExpr := do
  let applied := (← peekKind) = .symbol .less
  advance
  if ¬applied then return .named name
  match name with
  | "Array" =>
    advance
    return .array (← g.closedType)
  | "Promise" =>
    advance
    return .promise (← g.closedType)
  | "Map" =>
    advance
    let key ← g.type
    let _ ← expect Symbol.comma "between map key and value types"
    return .map key (← g.closedType)
  | _ => return .named name

def typeExpr (g : Grammar) : Parser TypeExpr := do
  let t ← current
  match t.kind with
  | .symbol .less =>
    advance
    let ps ← typeParams
    expectCloseAngle
    return .generic ps (← g.type)
  | .symbol .openParen =>
    advance
    let ps ← g.params true
    let _ ← expect Symbol.closeParen "after parameter types"
    let _ ← expect Symbol.arrow "in function type"
    return .func ps (← g.type)
  | .keyword .kStruct =>
    advance
    let name ← expectIdent "for struct name"
    return .structRef name (← g.typeArgs)
  | .keyword .kEnum =>
    advance
    let name ← expectIdent "for enum name"
    return .enumRef name (← g.typeArgs)
  | .ident => g.namedType t.data
  | _ => fail .noType

/-! ## Functions and blocks -/

/-- Type parameters, parameters and result of a function. -/
def signature (g : Grammar) (async : Bool) : Parser Signature := do
  let tparams ← optTypeParams
  let _ ← expect Symbol.openParen "before parameters"
  let params ← g.params false
  let _ ← expect Symbol.closeParen "after parameters"
  return ⟨tparams, params, ← g.annotation, async⟩

def block (g : Grammar) : Parser Node := do
  let _ ← expect Symbol.openBrace "to open block"
  let body ← manyUntil (fun k => k = .symbol .closeBrace || k = .eof) g.stmt
  let _ ← expect Symbol.closeBrace "to close block"
  return .block body

def lambda (g : Grammar) (async : Bool) : Parser Node := do
  let _ ← expect Keyword.kFun ""
  let sig ← g.signature async
  return .lambda sig (← g.block)

/-! ## Expressions -/

/-- A number, a string or a truth value. -/
def literal : Parser Node := do
  let t ← current
  match t.kind with
  | .number =>
    advance
    return .number t.data (t.data.toList.contains '.')
  | .string =>
    advance
    return .string t.data
  | .keyword .kTrue =>
    advance
    return .bool true
  | .keyword .kFalse =>
    advance
    return .bool false
  | _ => fail .noLiteral

def arrayLit (g : Grammar) : Parser Node := do
  let _ ← expect Symbol.openBracket ""
  let elems ← commaUntil .closeBracket g.ternary
  let _ ← expect Symbol.closeBracket "to close array"
  return .array elems

/-- A key and a value of an object literal. -/
def property (g : Grammar) : Parser (String × Node) := do
  let key ← current
  match key.kind with
  | .ident | .string =>
    advance
    let _ ← expect Symbol.colon "after property name"
    return (key.data, ← g.assign)
  | _ => fail .noPropertyName

def objectLit (g : Grammar) : Parser Node := do
  let _ ← expect Symbol.openBrace ""
  let props ← commaUntil .closeBrace g.property
  let _ ← expect Symbol.closeBrace "to close object"
  return .object props

/-- A literal, a name, a function or an expression in parentheses. -/
def primary (g : Grammar) : Parser Node := do
  let t ← current
  match t.kind with
  | .number | .string | .keyword .kTrue | .keyword .kFalse => literal
  | .symbol .openBracket => g.arrayLit
  | .symbol .openBrace => g.objectLit
  | .keyword .kFun => g.lambda false
  | .keyword .kAsync =>
    advance
    g.lambda true
  | .ident =>
    advance
    if (← kind) = .symbol .openBrace then return .structLit t.data (← g.objectLit)
    return .ident t.data
  | .symbol .openParen =>
    advance
    let x ← g.expr
    let _ ← expect Symbol.closeParen "after expression"
    return x
  | _ => unexpected

/-- Arguments up to a closing parenthesis. -/
def arguments (g : Grammar) : Parser (List Node) := do
  if (← kind) = .symbol .closeParen then return [] else sepBy .comma g.assign

/-- What may follow a primary expression. -/
def postfixOps (g : Grammar) : Node → Parser Node :=
  iterate fun x => do
    match ← kind with
    | .symbol .openBracket =>
      advance
      let i ← g.expr
      let _ ← expect Symbol.closeBracket "after array index"
      return .inl (.index x i)
    | .symbol .openParen =>
      advance
      let args ← g.arguments
      let _ ← expect Symbol.closeParen "after function arguments"
      return .inl (.call x args)
    | .symbol .dot =>
      advance
      return .inl (.member x (← expectIdent "after '.'") false)
    | .symbol .arrow =>
      advance
      return .inl (.member x (← expectIdent "after '->'") true)
    | _ => return .inr x

/-- An operand with the operators before and behind it. -/
def unaryExpr (g : Grammar) : Parser Node := do
  let t ← current
  if t.kind = .keyword .kAwait then
    advance
    return .await (← g.unary)
  if t.kind = .symbol .increment ∨ t.kind = .symbol .decrement then
    advance
    return .update t.text (← g.unary) true
  if t.kind.isPrefixOp then
    advance
    return .unary t.text (← g.unary)
  let x ← g.postfixOps (← g.primary)
  let t ← current
  if t.kind = .symbol .increment ∨ t.kind = .symbol .decrement then
    advance
    return .update t.text x false
  return x

def binaryNode (op : Token) (left right : Node) : Node :=
  if op.kind = .symbol .ampAmp ∨ op.kind = .symbol .barBar then .logical op.text left right
  else .binary op.text left right

/-- Operands joined by operators that bind at least as tight as `least`. -/
def binaryExpr (g : Grammar) (least : Nat) : Parser Node := do
  let x ← g.unaryExpr
  iterate (fun x => do
    let op ← current
    if op.kind.isBinaryOp ∧ least ≤ op.kind.precedence then
      advance
      let y ← g.binary (op.kind.precedence + 1)
      return .inl (binaryNode op x y)
    return .inr x) x

def ternaryExpr (g : Grammar) : Parser Node := do
  let cond ← g.binaryExpr 1
  if ← got Symbol.question then
    let yes ← g.assign
    let _ ← expect Symbol.colon "in conditional expression"
    return .ternary cond yes (← g.ternary)
  return cond

/-- Whether a value can be assigned to an expression. -/
def isTarget : Node → Bool
  | .ident _ | .member .. | .index .. => true
  | _ => false

/-- An assignment. A target that takes no value is reported where it begins. -/
def assignExpr (g : Grammar) : Parser Node := do
  let first ← current
  let x ← g.ternaryExpr
  let op ← current
  if ¬op.kind.isAssignment then return x
  if ¬isTarget x then throw ⟨first.span.first, .invalidTarget⟩
  advance
  return .assign op.text x (← g.assign)

/-- Expressions with commas between them. -/
def sequenceExpr (g : Grammar) : Parser Node := do
  let x ← g.assignExpr
  if ← got Symbol.comma then
    return .sequence (x :: (← sepBy .comma g.assign))
  return x

/-! ## Statements -/

def exprStmt (x : Node) : Parser Node := do
  expectSemi "after expression"
  return .exprStmt x

def funcDecl (g : Grammar) (async : Bool) : Parser Node := do
  let _ ← expect Keyword.kFun ""
  let name ← expectIdent "for function name"
  let sig ← g.signature async
  return .func name sig (← g.block)

def letDecl (g : Grammar) : Parser Node := do
  let _ ← expect Keyword.kLet ""
  let vars ← sepBy .comma do
    let name ← expectIdent "for variable name"
    let ann ← g.annotation
    let value ← if ← got Symbol.assign then g.assign else pure .missing
    return VariableOf.mk name ann value 0
  return .lets vars

/-- A condition in parentheses. -/
def condition (g : Grammar) (word : String) : Parser Node := do
  let _ ← expect Symbol.openParen ("after '" ++ word ++ "'")
  let x ← g.expr
  let _ ← expect Symbol.closeParen ("after " ++ word ++ " condition")
  return x

def ifStmt (g : Grammar) : Parser Node := do
  let _ ← expect Keyword.kIf ""
  let cond ← g.condition "if"
  let yes ← g.stmt
  let no ← if ← got Keyword.kElse then g.stmt else pure .missing
  return .ifElse cond yes no

def whileStmt (g : Grammar) : Parser Node := do
  let _ ← expect Keyword.kWhile ""
  let cond ← g.condition "while"
  return .whileLoop cond (← g.stmt)

/-- A loop with three clauses, each of which may be left out. -/
def forStmt (g : Grammar) : Parser Node := do
  let _ ← expect Keyword.kFor ""
  let _ ← expect Symbol.openParen "after 'for'"
  let init ← match ← kind with
    | .symbol .semicolon => pure .missing
    | .keyword .kLet => g.letDecl
    | _ => g.expr
  let _ ← expect Symbol.semicolon "after loop initializer"
  let cond ← if (← kind) = .symbol .semicolon then pure .missing else g.expr
  let _ ← expect Symbol.semicolon "after loop condition"
  let step ← if (← kind) = .symbol .closeParen then pure .missing else g.expr
  let _ ← expect Symbol.closeParen "after loop clauses"
  return .forLoop init cond step (← g.stmt)

def returnStmt (g : Grammar) : Parser Node := do
  let _ ← expect Keyword.kReturn ""
  if ← got Symbol.semicolon then return .returns .missing
  let value ← if (← kind) = .symbol .closeBrace then pure .missing else g.expr
  expectSemi "after return statement"
  return .returns value

/-- Fields up to a closing brace. -/
def fields (g : Grammar) : Parser (List Field) :=
  commaUntilStrict .closeBrace "after field declaration" do
    let name ← expectIdent "for field name"
    return ⟨name, ← g.annotation⟩

def structStmt (g : Grammar) : Parser Node := do
  let _ ← expect Keyword.kStruct ""
  let name ← expectIdent "for struct name"
  let tparams ← optTypeParams
  let _ ← expect Symbol.openBrace "to open struct body"
  let fields ← g.fields
  let _ ← expect Symbol.closeBrace "to close struct body"
  let _ ← got Symbol.semicolon
  return .structDecl ⟨name, tparams, fields⟩

def variant (g : Grammar) : Parser Variant := do
  let name ← expectIdent "for enum variant"
  if ← got Symbol.openBrace then
    let fields ← g.fields
    let _ ← expect Symbol.closeBrace "to close struct variant"
    return ⟨name, .fields, [], fields, .missing⟩
  if ← got Symbol.openParen then
    let tuple ← sepBy .comma g.type
    let _ ← expect Symbol.closeParen "to close tuple variant"
    return ⟨name, .tuple, tuple, [], .missing⟩
  if ← got Symbol.assign then
    return ⟨name, .constant, [], [], ← literal⟩
  return ⟨name, .unit, [], [], .missing⟩

def enumStmt (g : Grammar) : Parser Node := do
  let _ ← expect Keyword.kEnum ""
  let name ← expectIdent "for enum name"
  let tparams ← optTypeParams
  let _ ← expect Symbol.openBrace "to open enum body"
  let variants ← commaUntilStrict .closeBrace "after enum variant" g.variant
  let _ ← expect Symbol.closeBrace "to close enum body"
  let _ ← got Symbol.semicolon
  return .enumDecl ⟨name, tparams, variants⟩

/-- A statement. Semicolons before it mean nothing. -/
def statement (g : Grammar) : Parser Node := do
  match ← kind with
  | .keyword .kFun =>
    if (← peekKind) = .ident then g.funcDecl false else exprStmt (← g.sequenceExpr)
  | .keyword .kAsync =>
    if (← peekKind) = .keyword .kFun then
      advance
      if (← peekKind) = .ident then g.funcDecl true
      else exprStmt (← g.postfixOps (← g.lambda true))
    else exprStmt (← g.sequenceExpr)
  | .keyword .kLet =>
    let vars ← g.letDecl
    expectSemi "after variable declaration"
    return vars
  | .keyword .kIf => g.ifStmt
  | .keyword .kWhile => g.whileStmt
  | .keyword .kFor => g.forStmt
  | .keyword .kReturn => g.returnStmt
  | .keyword .kBreak =>
    advance
    expectSemi "after break"
    return .breaks
  | .keyword .kContinue =>
    advance
    expectSemi "after continue"
    return .continues
  | .symbol .openBrace => g.block
  | .keyword .kStruct => g.structStmt
  | .keyword .kEnum => g.enumStmt
  | .symbol .semicolon =>
    advance
    g.stmt
  | _ => exprStmt (← g.sequenceExpr)

/-! ## The knot -/

/-- The productions, which nest at most `n` deep. -/
def ofDepth : Nat → Grammar
  | 0 => ⟨fail .exhausted, fail .exhausted, fail .exhausted, fail .exhausted,
      fun _ => fail .exhausted, fail .exhausted, fail .exhausted⟩
  | n + 1 =>
    { stmt := fun s => (ofDepth n).statement s
      expr := fun s => (ofDepth n).sequenceExpr s
      assign := fun s => (ofDepth n).assignExpr s
      ternary := fun s => (ofDepth n).ternaryExpr s
      binary := fun least s => (ofDepth n).binaryExpr least s
      unary := fun s => (ofDepth n).unaryExpr s
      type := fun s => (ofDepth n).typeExpr s }

/-- The productions that a stream can need. -/
def ofStream (s : Stream) : Grammar := ofDepth (s.weight + 1)

/-- At most `n` statements, up to the end or to a fault. What was read before the fault stays. -/
def statements (g : Grammar) : Nat → Stream → List Node × Option ParseError
  | 0, s => ([], some ⟨s.current.span.first, .exhausted⟩)
  | n + 1, s =>
    if s.current.kind = .eof then ([], none) else
      match g.stmt.run s with
      | .error e => ([], some e)
      | .ok (x, s) =>
        let (xs, e) := statements g n s
        (x :: xs, e)

/-- One type and nothing behind it. -/
def wholeType (g : Grammar) : Parser TypeExpr := do
  let t ← g.type
  if (← kind) ≠ .eof then fail (.unexpectedAfterType (← kind))
  return t

end Grammar

/-! ## Reading programs and types -/

/-- The statements that some tokens make, up to the first fault. Each statement takes a token. -/
def readTokens (ts : List Token) : List Node × Option ParseError :=
  let s := Stream.ofTokens ts
  (Grammar.ofStream s).statements (s.weight + 1) s

/-- The program that some tokens make. -/
def parseTokens (ts : List Token) : Except ParseError Node :=
  match readTokens ts with
  | (body, none) => .ok (.program body)
  | (_, some e) => .error e

/-- The type that some tokens make. -/
def parseTypeTokens (ts : List Token) : Except ParseError TypeExpr :=
  let s := Stream.ofTokens ts
  ((Grammar.ofStream s).wholeType.run s).map Prod.fst

/-- Why a text is no program. -/
inductive SourceError where
  | lex (e : LexError)
  | parse (e : ParseError)
deriving DecidableEq

/-- The words for what is wrong with a text. -/
def SourceError.message : SourceError → String
  | lex e => e.message
  | parse e => e.message

/-- The program that a text makes. -/
def parseProgram (source : String) : Except SourceError Node := do
  let ts ← (tokenize source).mapError .lex
  (parseTokens ts).mapError .parse

/-- The type that a text makes. -/
def parseType (source : String) : Except SourceError TypeExpr := do
  let ts ← (tokenize source).mapError .lex
  (parseTypeTokens ts).mapError .parse

end ScriptTyping
