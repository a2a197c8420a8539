import ScriptTyping.Proofs.Phrases
import ScriptTyping.Syntax.Printer

/-!
# Printed pieces

The text of a tree, cut into the pieces that a parser sees: `Node.pieces` follows `Node.render` case by
case. Main statement: `toList_render`. The characters of the pieces are those of the text.
-/

namespace ScriptTyping

open Piece

/-! ## Characters -/

/-- A terminal as it is written. -/
def Terminal.chars (t : Terminal) : List Char :=
  match t.kind with
  | .symbol s => s.spelling.toList
  | .keyword k => k.spelling.toList
  | .string => (Text.quote t.data).toList
  | _ => t.data.toList

def Piece.chars : Piece → List Char
  | .blank => [' ']
  | .mark t => t.chars
  | .closing => ['>']

@[simp] theorem Piece.chars_blank : blank.chars = [' '] := rfl

@[simp] theorem Piece.chars_mark (t : Terminal) : (mark t).chars = t.chars := rfl

@[simp] theorem Piece.chars_closing : closing.chars = ['>'] := rfl

def Piece.spell (ps : List Piece) : List Char := ps.flatMap chars

@[simp] theorem Piece.spell_nil : spell [] = [] := rfl

@[simp] theorem Piece.spell_cons (p : Piece) (ps : List Piece) : spell (p :: ps) = p.chars ++ spell ps := rfl

@[simp] theorem Piece.spell_append (ps qs : List Piece) : spell (ps ++ qs) = spell ps ++ spell qs :=
  List.flatMap_append

theorem Piece.spell_intercalate (sep : List Piece) (ls : List (List Piece)) :
    spell (sep.intercalate ls) = (spell sep).intercalate (ls.map spell) := by
  induction ls with
  | nil => rfl
  | cons k ls ih => cases ls <;> simp_all

def Piece.operator (spelling : String) : Piece :=
  match Symbol.ofChars? spelling.toList with
  | some s => symbol s
  | none => mark ⟨.illegal, spelling⟩

theorem Symbol.ofChars?_spelling (s : Symbol) : Symbol.ofChars? s.spelling.toList = some s := by
  cases s <;> decide

@[simp] theorem Piece.operator_spelling (s : Symbol) : operator s.spelling = symbol s := by
  simp [operator, Symbol.ofChars?_spelling]

/-! ## Types -/

/-- A list with commas between its items. -/
def commas (parts : List (List Piece)) : List Piece := [symbol .comma, blank].intercalate parts

def TypeParam.pieces (p : TypeParam) : List Piece :=
  ident p.name :: if p.bounds.isEmpty then [] else
    symbol .colon :: blank :: [blank, symbol .plus, blank].intercalate (p.bounds.map fun b => [ident b])

/-- Parts between angle brackets, or nothing. -/
def angledPieces (parts : List (List Piece)) : List Piece :=
  if parts.isEmpty then [] else opening :: commas parts ++ [closing]

def bracedPieces (parts : List (List Piece)) : List Piece :=
  if parts.isEmpty then [symbol .openBrace, symbol .closeBrace]
  else symbol .openBrace :: blank :: commas parts ++ [blank, symbol .closeBrace]

/-- A parameter, given the pieces of its annotation. -/
def ParamOf.pieces (p : Param) (ann : List Piece) : List Piece :=
  Grammar.dots p.variadic ++
    if p.name = "" then ann
    else if p.ann.isMissing then [ident p.name]
    else ident p.name :: symbol .colon :: blank :: ann

namespace TypeExpr

mutual

def pieces : TypeExpr → List Piece
  | missing => []
  | named name => [ident name]
  | array elem => ident "Array" :: opening :: (elem.pieces ++ [closing])
  | map key value =>
    ident "Map" :: opening ::
      (key.pieces ++ ([symbol .comma, blank] ++ (value.pieces ++ [closing])))
  | promise elem => ident "Promise" :: opening :: (elem.pieces ++ [closing])
  | func params ret =>
    symbol .openParen ::
      (commas (piecesParams params) ++ symbol .closeParen :: ([blank, symbol .arrow, blank] ++ ret.pieces))
  | structRef name args => keyword .kStruct :: ([blank] ++ ident name :: angledPieces (piecesAll args))
  | enumRef name args => keyword .kEnum :: ([blank] ++ ident name :: angledPieces (piecesAll args))
  | generic tparams base => angledPieces (tparams.map TypeParam.pieces) ++ base.pieces

def piecesAll : List TypeExpr → List (List Piece)
  | [] => []
  | t :: ts => t.pieces :: piecesAll ts

def piecesParams : List (ParamOf TypeExpr) → List (List Piece)
  | [] => []
  | ⟨name, ann, variadic⟩ :: ps =>
    (ParamOf.mk name ann variadic).pieces ann.pieces :: piecesParams ps

end

theorem piecesAll_eq (ts : List TypeExpr) : piecesAll ts = ts.map pieces := by
  induction ts with
  | nil => rfl
  | cons t ts ih => simp [piecesAll, ih]

theorem piecesParams_eq (ps : List Param) : piecesParams ps = ps.map fun p => p.pieces p.ann.pieces := by
  induction ps with
  | nil => rfl
  | cons p ps ih => simp [piecesParams, ih]

/-- An annotation after a colon, or nothing where the type is missing. -/
def annotationPieces (t : TypeExpr) : List Piece :=
  if t.isMissing then [] else symbol .colon :: ([blank] ++ t.pieces)

end TypeExpr

/-! ## Parts of declarations -/

def Field.pieces (f : Field) : List Piece := ident f.name :: f.ann.annotationPieces

/-- Type parameters, parameters and result of a function. -/
def Signature.pieces (sig : Signature) : List Piece :=
  angledPieces (sig.tparams.map TypeParam.pieces) ++ symbol .openParen ::
    (commas (TypeExpr.piecesParams sig.params) ++ symbol .closeParen :: sig.ret.annotationPieces)

/-- The words before the name of a function. -/
def Signature.headPieces (sig : Signature) : List Piece :=
  if sig.async then [keyword .kAsync, blank, keyword .kFun, blank] else [keyword .kFun, blank]

def StructDecl.pieces (d : StructDecl) : List Piece :=
  keyword .kStruct :: blank :: ident d.name ::
    (angledPieces (d.tparams.map TypeParam.pieces) ++ blank :: bracedPieces (d.fields.map Field.pieces))

/-- A variant, given the pieces of its constant. -/
def VariantOf.pieces (v : Variant) (value : List Piece) : List Piece :=
  ident v.name :: match v.kind with
    | .unit => []
    | .tuple => symbol .openParen :: (commas (TypeExpr.piecesAll v.tuple) ++ [symbol .closeParen])
    | .fields => blank :: bracedPieces (v.fields.map Field.pieces)
    | .constant => blank :: symbol .assign :: blank :: value

/-- A declared variable, given the pieces of its value. -/
def VariableOf.pieces (v : Variable) (value : List Piece) : List Piece :=
  ident v.name :: (v.ann.annotationPieces ++
    if v.value.isMissing then [] else blank :: symbol .assign :: blank :: value)

/-! ## Nodes -/

/-- Pieces in parentheses, if they need them. -/
def parensPieces (needed : Bool) (ps : List Piece) : List Piece :=
  if needed then symbol .openParen :: (ps ++ [symbol .closeParen]) else ps

namespace Node

mutual

def pieces (operand : Bool) : Node → List Piece
  | missing => []
  | program body => [blank].intercalate (piecesAll body)
  | block body =>
    if body.isEmpty then [symbol .openBrace, symbol .closeBrace]
    else symbol .openBrace :: blank :: ([blank].intercalate (piecesAll body) ++ [blank, symbol .closeBrace])
  | exprStmt expr => expr.pieces false ++ [symbol .semicolon]
  | ifElse cond yes no =>
    keyword .kIf :: blank :: symbol .openParen :: (cond.pieces false ++ symbol .closeParen :: blank ::
      (yes.pieces false ++ if no.isMissing then [] else blank :: keyword .kElse :: blank :: no.pieces false))
  | whileLoop cond body =>
    keyword .kWhile :: blank :: symbol .openParen ::
      (cond.pieces false ++ symbol .closeParen :: blank :: body.pieces false)
  | forLoop (lets vars) cond step body =>
    keyword .kFor :: blank :: symbol .openParen :: keyword .kLet :: blank ::
      (commas (piecesVars vars) ++ symbol .semicolon :: blank ::
        (cond.pieces false ++ symbol .semicolon :: blank ::
          (step.pieces false ++ symbol .closeParen :: blank :: body.pieces false)))
  | forLoop init cond step body =>
    keyword .kFor :: blank :: symbol .openParen ::
      (init.pieces false ++ symbol .semicolon :: blank ::
        (cond.pieces false ++ symbol .semicolon :: blank ::
          (step.pieces false ++ symbol .closeParen :: blank :: body.pieces false)))
  | returns value =>
    if value.isMissing then [keyword .kReturn, symbol .semicolon]
    else keyword .kReturn :: blank :: (value.pieces false ++ [symbol .semicolon])
  | breaks => [keyword .kBreak, symbol .semicolon]
  | continues => [keyword .kContinue, symbol .semicolon]
  | lets vars => keyword .kLet :: blank :: (commas (piecesVars vars) ++ [symbol .semicolon])
  | var ⟨name, ann, value, slot⟩ => (VariableOf.mk name ann value slot).pieces (value.pieces false)
  | func name sig body => sig.headPieces ++ Piece.ident name :: (sig.pieces ++ blank :: body.pieces false)
  | structDecl d => d.pieces
  | enumDecl ⟨name, tparams, variants⟩ =>
    keyword .kEnum :: blank :: Piece.ident name :: (angledPieces (tparams.map TypeParam.pieces) ++ blank ::
      symbol .openBrace :: blank :: (commas (piecesVariants variants) ++ [blank, symbol .closeBrace]))
  | number raw _ => [mark ⟨.number, raw⟩]
  | string value => [mark ⟨.string, value⟩]
  | bool value => [keyword (if value then .kTrue else .kFalse)]
  | ident name => [Piece.ident name]
  | binary op left right | logical op left right | assign op left right =>
    parensPieces operand (left.pieces true ++ blank :: operator op :: blank :: right.pieces true)
  | unary op x => operator op :: x.pieces true
  | update op x before => if before then operator op :: x.pieces true else x.pieces true ++ [operator op]
  | ternary cond yes no =>
    parensPieces operand (cond.pieces true ++ blank :: symbol .question :: blank ::
      (yes.pieces true ++ blank :: symbol .colon :: blank :: no.pieces true))
  | sequence exprs => symbol .openParen :: (commas (piecesAll exprs) ++ [symbol .closeParen])
  | call callee args =>
    callee.pieces true ++ symbol .openParen :: (commas (piecesAll args) ++ [symbol .closeParen])
  | await expr => parensPieces operand (keyword .kAwait :: blank :: expr.pieces true)
  | member obj property arrow =>
    obj.pieces true ++ [symbol (if arrow then .arrow else .dot), Piece.ident property]
  | index obj position =>
    obj.pieces true ++ symbol .openBracket :: (position.pieces false ++ [symbol .closeBracket])
  | array elems => symbol .openBracket :: (commas (piecesAll elems) ++ [symbol .closeBracket])
  | object props => bracedPieces (piecesProps props)
  | structLit name obj => Piece.ident name :: blank :: obj.pieces false
  | lambda sig body => parensPieces operand (sig.headPieces ++ (sig.pieces ++ blank :: body.pieces false))
  | type t => t.pieces

def piecesAll : List Node → List (List Piece)
  | [] => []
  | n :: ns => n.pieces false :: piecesAll ns

/-- The pieces of some declared variables. -/
def piecesVars : List (VariableOf Node) → List (List Piece)
  | [] => []
  | ⟨name, ann, value, slot⟩ :: vs =>
    (VariableOf.mk name ann value slot).pieces (value.pieces false) :: piecesVars vs

def piecesVariants : List (VariantOf Node) → List (List Piece)
  | [] => []
  | ⟨name, kind, tuple, fields, value⟩ :: vs =>
    (VariantOf.mk name kind tuple fields value).pieces (value.pieces false) :: piecesVariants vs

def piecesProps : List (String × Node) → List (List Piece)
  | [] => []
  | (key, value) :: ps => (Piece.ident key :: symbol .colon :: blank :: value.pieces false) :: piecesProps ps

end

theorem piecesAll_eq (xs : List Node) : piecesAll xs = xs.map (pieces false) := by
  induction xs with
  | nil => rfl
  | cons x xs ih => simp [piecesAll, ih]

theorem piecesVars_eq (vars : List Variable) :
    piecesVars vars = vars.map fun v => v.pieces (v.value.pieces false) := by
  induction vars with
  | nil => rfl
  | cons v vars ih => simp [piecesVars, ih]

theorem piecesVariants_eq (vs : List Variant) :
    piecesVariants vs = vs.map fun v => v.pieces (v.value.pieces false) := by
  induction vs with
  | nil => rfl
  | cons v vs ih => simp [piecesVariants, ih]

theorem piecesProps_eq (ps : List (String × Node)) : piecesProps ps =
    ps.map fun q => Piece.ident q.1 :: symbol .colon :: blank :: q.2.pieces false := by
  induction ps with
  | nil => rfl
  | cons q ps ih => simp [piecesProps, ih]

end Node

/-! ## Texts -/

theorem toList_commas (parts : List (List Piece)) (strings : List String)
    (h : strings.map String.toList = parts.map spell) :
    (", ".intercalate strings).toList = spell (commas parts) := by
  rw [String.toList_intercalate, h, commas, spell_intercalate]
  rfl

theorem TypeParam.toList_render (p : TypeParam) : p.render.toList = spell p.pieces := by
  unfold TypeParam.render TypeParam.pieces
  by_cases hb : p.bounds = []
  · simp [hb, Terminal.chars]
  · simp [hb, Terminal.chars, String.toList_intercalate, spell_intercalate, Symbol.spelling,
      Function.comp_def]

theorem TypeParam.toList_renderAll (ps : List TypeParam) :
    (TypeParam.renderAll ps).toList = spell (angledPieces (ps.map TypeParam.pieces)) := by
  have hps := toList_commas (ps.map TypeParam.pieces) (ps.map TypeParam.render)
    (by simp [Function.comp_def, TypeParam.toList_render])
  unfold TypeParam.renderAll angledPieces
  by_cases hne : ps = []
  · simp [hne]
  · simp [hne, hps, Terminal.chars, Symbol.spelling]

variable {parts : List (List Piece)} {strings : List String} {ks : List Piece} {value : String}

theorem toList_angled (h : strings.map String.toList = parts.map spell) :
    (TypeExpr.angled strings).toList = spell (angledPieces parts) := by
  have hparts := toList_commas parts strings h
  have hnil : strings.isEmpty = parts.isEmpty := by
    have hlen := congrArg List.length h
    cases strings <;> cases parts <;> simp_all
  unfold TypeExpr.angled angledPieces
  rw [hnil]
  split
  next => rfl
  next => simp [hparts, Terminal.chars, Symbol.spelling]

theorem toList_braced
    (h : strings.map String.toList = parts.map spell) : (braced strings).toList = spell (bracedPieces parts) := by
  have hparts := toList_commas parts strings h
  have hnil : strings.isEmpty = parts.isEmpty := by
    have hlen := congrArg List.length h
    cases strings <;> cases parts <;> simp_all
  unfold braced bracedPieces
  rw [hnil]
  split
  next => rfl
  next => simp [hparts, Terminal.chars, Symbol.spelling]

theorem ParamOf.toList_render (p : Param) {ann : String} (h : ann.toList = spell ks) :
    (p.render ann).toList = spell (p.pieces ks) := by
  unfold ParamOf.render ParamOf.pieces Grammar.dots
  cases p.variadic <;> by_cases hname : p.name = "" <;> cases p.ann.isMissing <;>
    simp [hname, h, Terminal.chars, Symbol.spelling]

namespace TypeExpr

mutual

theorem toList_render : (t : TypeExpr) → t.render.toList = spell t.pieces
  | .missing => rfl
  | .named name => by simp [render, pieces, Terminal.chars]
  | .array elem => by
    simp [render, pieces, toList_render elem, Terminal.chars, Symbol.spelling]
  | .map key value => by
    simp [render, pieces, toList_render key, toList_render value, Terminal.chars, Symbol.spelling]
  | .promise elem => by
    simp [render, pieces, toList_render elem, Terminal.chars, Symbol.spelling]
  | .func params ret => by
    simp [render, pieces, toList_commas _ _ (toList_renderParams params), toList_render ret, Terminal.chars, Symbol.spelling]
  | .structRef name args => by
    simp [render, pieces, toList_angled (toList_renderAll args), Terminal.chars, Keyword.spelling]
  | .enumRef name args => by
    simp [render, pieces, toList_angled (toList_renderAll args), Terminal.chars, Keyword.spelling]
  | .generic tparams base => by
    simp [render, pieces, TypeParam.toList_renderAll, toList_render base]

theorem toList_renderAll : (ts : List TypeExpr) → (renderAll ts).map String.toList = (piecesAll ts).map spell
  | [] => rfl
  | t :: ts => by simp [renderAll, piecesAll, toList_render t, toList_renderAll ts]

theorem toList_renderParams : (ps : List (ParamOf TypeExpr)) →
    (renderParams ps).map String.toList = (piecesParams ps).map spell
  | [] => rfl
  | ⟨name, ann, variadic⟩ :: ps => by
    simp [renderParams, piecesParams, ParamOf.toList_render _ (toList_render ann), toList_renderParams ps]

end

theorem toList_annotation (t : TypeExpr) : t.annotation.toList = spell t.annotationPieces := by
  unfold annotation annotationPieces
  cases t.isMissing <;> simp [toList_render, Terminal.chars, Symbol.spelling]

end TypeExpr

theorem Field.toList_render (f : Field) : f.render.toList = spell f.pieces := by
  simp [Field.render, Field.pieces, TypeExpr.toList_annotation, Terminal.chars]

theorem Signature.toList_render (sig : Signature) : sig.render.toList = spell sig.pieces := by
  simp [Signature.render, Signature.pieces, TypeParam.toList_renderAll, TypeExpr.toList_annotation,
    toList_commas _ _ (TypeExpr.toList_renderParams sig.params), Terminal.chars, Symbol.spelling]

theorem Signature.toList_head (sig : Signature) : sig.head.toList = spell sig.headPieces := by
  unfold Signature.head Signature.headPieces
  cases sig.async <;> rfl

theorem toList_renderFields (fs : List Field) :
    (braced (fs.map Field.render)).toList = spell (bracedPieces (fs.map Field.pieces)) :=
  toList_braced (by simp [Function.comp_def, Field.toList_render])

theorem StructDecl.toList_render (d : StructDecl) : d.render.toList = spell d.pieces := by
  simp [StructDecl.render, StructDecl.pieces, TypeParam.toList_renderAll, toList_renderFields, Terminal.chars, Keyword.spelling]

theorem VariantOf.toList_render (v : Variant)
    (h : value.toList = spell ks) : (v.render value).toList = spell (v.pieces ks) := by
  unfold VariantOf.render VariantOf.pieces
  cases v.kind <;> simp [h, toList_renderFields, toList_commas _ _ (TypeExpr.toList_renderAll v.tuple),
    Terminal.chars, Symbol.spelling]

theorem VariableOf.toList_render (v : Variable)
    (h : value.toList = spell ks) : (v.render value).toList = spell (v.pieces ks) := by
  unfold VariableOf.render VariableOf.pieces
  cases v.value.isMissing <;> simp [h, TypeExpr.toList_annotation, Terminal.chars, Symbol.spelling]

@[simp] theorem Piece.chars_operator (s : String) : (operator s).chars = s.toList := by
  unfold operator
  split
  next c h => simpa [Terminal.chars] using List.find?_some h
  next => rfl

theorem toList_parens (needed : Bool) {s : String} (h : s.toList = spell ks) :
    (parens needed s).toList = spell (parensPieces needed ks) := by
  unfold parens parensPieces
  cases needed <;> simp [h, Terminal.chars, Symbol.spelling]

namespace Node

/-- Declarations stand in the head of a loop without their semicolon. -/
def headText : Node → String
  | lets vars => "let " ++ ", ".intercalate (renderVars vars)
  | init => init.render false

/-- The pieces of the first clause of a loop. -/
def headPieces : Node → List Piece
  | lets vars => keyword .kLet :: blank :: commas (piecesVars vars)
  | init => init.pieces false

theorem render_forLoop (operand : Bool) (init cond step body : Node) :
    (forLoop init cond step body).render operand = "for (" ++ init.headText ++ "; " ++
      cond.render false ++ "; " ++ step.render false ++ ") " ++ body.render false := by
  apply String.toList_inj.1
  cases init <;> simp [render, headText]

theorem pieces_forLoop (operand : Bool) (init cond step body : Node) :
    (forLoop init cond step body).pieces operand = keyword .kFor :: blank :: symbol .openParen ::
      (init.headPieces ++ symbol .semicolon :: blank :: (cond.pieces false ++ symbol .semicolon :: blank ::
        (step.pieces false ++ symbol .closeParen :: blank :: body.pieces false))) := by
  cases init <;> simp [pieces, headPieces]

theorem toList_headText {init : Node} (h : (init.render false).toList = spell (init.pieces false)) :
    init.headText.toList = spell init.headPieces := by
  cases init with
  | lets vars =>
    simpa [headText, headPieces, render, pieces, Terminal.chars, Symbol.spelling, Keyword.spelling] using h
  | _ => exact h

mutual

/-- The characters of the pieces of a node are those of its text. -/
theorem toList_render (operand : Bool) : (n : Node) → (n.render operand).toList = spell (n.pieces operand)
  | missing => rfl
  | program body => by
    simp [render, pieces, String.toList_intercalate, toList_renderAll body, spell_intercalate]
  | block body => by
    have hbody := toList_renderAll body
    unfold render pieces
    split
    next => rfl
    next => simp [String.toList_intercalate, hbody, spell_intercalate, Terminal.chars, Symbol.spelling]
  | exprStmt expr => by
    simp [render, pieces, toList_render false expr, Terminal.chars, Symbol.spelling]
  | ifElse cond yes no => by
    have hno := toList_render false no
    unfold render pieces
    split <;> simp [toList_render false cond, toList_render false yes, hno, Terminal.chars,
      Symbol.spelling, Keyword.spelling]
  | whileLoop cond body => by
    simp [render, pieces, toList_render false cond, toList_render false body, Terminal.chars,
      Symbol.spelling, Keyword.spelling]
  | forLoop init cond step body => by
    simp [render_forLoop, pieces_forLoop, toList_headText (toList_render false init), toList_render false cond, toList_render false step,
      toList_render false body, Terminal.chars, Symbol.spelling, Keyword.spelling]
  | returns value => by
    have hvalue := toList_render false value
    unfold render pieces
    split <;> simp [hvalue, Terminal.chars, Symbol.spelling, Keyword.spelling]
  | breaks => by simp [render, pieces, Terminal.chars, Symbol.spelling, Keyword.spelling]
  | continues => by simp [render, pieces, Terminal.chars, Symbol.spelling, Keyword.spelling]
  | lets vars => by
    simp [render, pieces, toList_commas _ _ (toList_renderVars vars), Terminal.chars,
      Symbol.spelling, Keyword.spelling]
  | var ⟨name, ann, value, slot⟩ => by
    simp [render, pieces, VariableOf.toList_render _ (toList_render false value)]
  | func name sig body => by
    simp [render, pieces, Signature.toList_render, Signature.toList_head, toList_render false body, Terminal.chars]
  | structDecl d => by simp [render, pieces, StructDecl.toList_render]
  | enumDecl ⟨name, tparams, variants⟩ => by
    simp [render, pieces, TypeParam.toList_renderAll, toList_commas _ _ (toList_renderVariants variants),
      Terminal.chars, Symbol.spelling, Keyword.spelling]
  | number raw _ => by simp [render, pieces, Terminal.chars]
  | string value => by simp [render, pieces, Terminal.chars]
  | bool value => by cases value <;> simp [render, pieces, Terminal.chars, Keyword.spelling]
  | ident name => by simp [render, pieces, Terminal.chars]
  | binary op left right | logical op left right | assign op left right => by
    simp only [render, pieces]
    refine toList_parens operand ?_
    simp [toList_render true left, toList_render true right]
  | unary op x => by simp [render, pieces, toList_render true x]
  | update op x before => by cases before <;> simp [render, pieces, toList_render true x]
  | ternary cond yes no => by
    simp only [render, pieces]
    refine toList_parens operand ?_
    simp [toList_render true cond, toList_render true yes, toList_render true no, Terminal.chars,
      Symbol.spelling]
  | sequence exprs => by
    simp [render, pieces, toList_commas _ _ (toList_renderAll exprs), Terminal.chars,
      Symbol.spelling]
  | call callee args => by
    simp [render, pieces, toList_render true callee, toList_commas _ _ (toList_renderAll args), Terminal.chars, Symbol.spelling]
  | await expr => by
    simp only [render, pieces]
    refine toList_parens operand ?_
    simp [toList_render true expr, Terminal.chars, Keyword.spelling]
  | member obj property arrow => by
    cases arrow <;> simp [render, pieces, toList_render true obj, Terminal.chars, Symbol.spelling]
  | index obj position => by
    simp [render, pieces, toList_render true obj, toList_render false position, Terminal.chars,
      Symbol.spelling]
  | array elems => by
    simp [render, pieces, toList_commas _ _ (toList_renderAll elems), Terminal.chars, Symbol.spelling]
  | object props => by simp [render, pieces, toList_braced (toList_renderProps props)]
  | structLit name obj => by simp [render, pieces, toList_render false obj, Terminal.chars]
  | lambda sig body => by
    simp only [render, pieces]
    refine toList_parens operand ?_
    simp [Signature.toList_render, Signature.toList_head, toList_render false body]
  | type t => by simp [render, pieces, TypeExpr.toList_render]

theorem toList_renderAll : (ns : List Node) → (renderAll ns).map String.toList = (piecesAll ns).map spell
  | [] => rfl
  | n :: ns => by simp [renderAll, piecesAll, toList_render false n, toList_renderAll ns]

theorem toList_renderVars : (vs : List (VariableOf Node)) →
    (renderVars vs).map String.toList = (piecesVars vs).map spell
  | [] => rfl
  | ⟨name, ann, value, slot⟩ :: vs => by
    simp [renderVars, piecesVars, VariableOf.toList_render _ (toList_render false value), toList_renderVars vs]

theorem toList_renderVariants : (vs : List (VariantOf Node)) →
    (renderVariants vs).map String.toList = (piecesVariants vs).map spell
  | [] => rfl
  | ⟨name, kind, tuple, fields, value⟩ :: vs => by
    simp [renderVariants, piecesVariants, VariantOf.toList_render _ (toList_render false value),
      toList_renderVariants vs]

theorem toList_renderProps : (ps : List (String × Node)) →
    (renderProps ps).map String.toList = (piecesProps ps).map spell
  | [] => rfl
  | (key, value) :: ps => by
    simp [renderProps, piecesProps, toList_render false value, toList_renderProps ps, Terminal.chars,
      Symbol.spelling]

end

end Node

end ScriptTyping
