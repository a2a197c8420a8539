import ScriptTyping.Proofs.Annotations

/-!
# Typing rules

`Typed ok prims sc n t sc'` says that in the scope `sc` the node `n` has the type `t` and leaves the
scope `sc'`. The rules say what must hold of the types of a node and of its parts, and not how types
are found: where something new is drawn, any variable will do. What two types must be to go together
is left open: the rules only ask that they are `ok`. A part that has no value has no type, which is
`Ty.missing`.
-/

namespace ScriptTyping

open Ty Inference Infer

/-! ## Rules -/

/-- The type of an annotation, or of no annotation. -/
inductive Written (prims : List String) (sc : Scope) : TypeExpr → Ty → Prop
  | none : Written prims sc .missing .missing
  | some {e t} (h : Denotes prims sc e t) : Written prims sc e t

/-- The type of an annotation. Without annotation it is unknown. -/
inductive WrittenOrNew (prims : List String) (sc : Scope) : TypeExpr → Ty → Prop
  | new {v} : WrittenOrNew prims sc .missing (.var v)
  | written {e t} (h : Denotes prims sc e t) : WrittenOrNew prims sc e t

/-- Parameters are declared one after another in the innermost frame. -/
inductive DeclaresParams (prims : List String) : Scope → List Param → List Ty → Scope → Prop
  | nil {sc} : DeclaresParams prims sc [] [] sc
  | cons {sc sc' p ps t ts} (h : DenotesParams prims sc [p] [t])
    (hs : DeclaresParams prims (sc.modifyHead (·.declare p.name (.mono t))) ps ts sc') :
    DeclaresParams prims sc (p :: ps) (t :: ts) sc'

/-- The type of an operation on two values of the type. -/
def operationType? (op : String) (t : Ty) : Option Ty :=
  if op = "+" then some t
  else (operatorClass? op).map fun c => if c = Class.num then t else boolean

/-- The type of a part of a value. If nothing is known of it, any will do. -/
inductive PartOf (t : Ty) (key : Option String) : Ty → Prop
  | known {u} (h : partType? t key = some u) : PartOf t key u
  | new {v} (h : partType? t key = none) : PartOf t key (.var v)

/-- What is awaited is a promise, or is there already. -/
inductive Awaited (ok : Ty → Ty → Prop) : Ty → Ty → Prop
  | promise {t l} : Awaited ok (.con promiseName [t] l) t
  | new {v w} (h : ok (.var v) (.app promiseName [.var w])) : Awaited ok (.var v) (.var w)
  | other {t : Ty} (hv : t.isVar = false) (hp : ∀ u l, t ≠ .con promiseName [u] l) : Awaited ok t t

/-- A condition, if it has a value, is a truth value. -/
def Condition (ok : Ty → Ty → Prop) (t : Ty) : Prop := t.isMissing = false → ok t boolean

/-- A name that is assigned to and not declared is declared by that. -/
def Scope.assigned (sc : Scope) (target : Node) (t : Ty) : Scope :=
  match target.ident? with
  | some name => if (sc.lookup? name).isNone then sc.modifyHead (·.declare name (.mono t)) else sc
  | none => sc

/-- A function with a name is declared in the frame around its own. -/
def Scope.named (sc : Scope) (name : String) (t : Ty) : Scope :=
  if name = "" then sc
  else sc.take 1 ++ Scope.modifyHead (sc.drop 1) (·.declare name (.mono t))

/-- The types of the return statements of the innermost frame. -/
def Scope.returned (sc : Scope) : List Ty := (sc.head?.map Frame.returns).getD []

/-- A variable has the type of its value, which must be the declared one if there is one. Without value
it has the declared one, or any. -/
inductive VariableHolds (ok : Ty → Ty → Prop) : Ty → Ty → Ty → Prop
  | value {declared found : Ty} (hf : found.isMissing = false)
    (h : declared.isMissing = false → ok declared found) : VariableHolds ok declared found found
  | declared {declared : Ty} (hd : declared.isMissing = false) : VariableHolds ok declared .missing declared
  | new {v} : VariableHolds ok .missing .missing (.var v)

/-- A record is a struct under its name if it is what the struct stands for. -/
inductive FitsStruct (ok : Ty → Ty → Prop) (prims : List String) (sc : Scope) (d : StructDecl)
    (name : String) : Ty → Ty → Prop
  | anonymous {fields l l' t} (ht : Expands prims sc d [] t) (h : ok t (.record name fields l')) :
    FitsStruct ok prims sc d name (.record anonymous fields l) (.record name fields l')
  | named {owner fields l t} (ho : owner ≠ anonymous) (ht : Expands prims sc d [] t)
    (h : ok t (.record owner fields l)) :
    FitsStruct ok prims sc d name (.record owner fields l) (.record owner fields l)
  | other {t} (h : ∀ owner fields l, t ≠ .record owner fields l) : FitsStruct ok prims sc d name t t

/-- The type of a function with these parameters and this result. -/
def functionTy (sig : Signature) (params : List Ty) (ret : Ty) : Ty :=
  .arrow params (if sig.async then .app promiseName [ret] else ret)

mutual

/-- In the first scope the node has the type, and it leaves the second scope. -/
inductive Typed (ok : Ty → Ty → Prop) (prims : List String) : Scope → Node → Ty → Scope → Prop
  | missing {sc} : Typed ok prims sc .missing .missing sc
  -- Statements
  | program {sc sc' body t} (h : TypedLast ok prims sc .missing body t sc') :
    Typed ok prims sc (.program body) .missing sc'
  | block {sc sc' body t} (h : TypedLast ok prims (.empty :: sc) .missing body t sc') :
    Typed ok prims sc (.block body) t sc'.tail
  | exprStmt {sc sc' expr t} (h : Typed ok prims sc expr t sc') :
    Typed ok prims sc (.exprStmt expr) (if expr.isAssign then .missing else t) sc'
  | ifElse {sc sc₁ sc₂ sc₃ cond yes no c t u} (hc : Typed ok prims sc cond c sc₁) (hb : Condition ok c)
    (hy : Typed ok prims sc₁ yes t sc₂) (hn : Typed ok prims sc₂ no u sc₃) :
    Typed ok prims sc (.ifElse cond yes no) t sc₃
  | whileLoop {sc sc₁ sc₂ cond body c t} (hc : Typed ok prims sc cond c sc₁) (hb : Condition ok c)
    (h : Typed ok prims (.empty :: sc₁) body t sc₂) : Typed ok prims sc (.whileLoop cond body) .missing sc₂.tail
  | forLoop {sc sc₁ sc₂ sc₃ sc₄ init cond step body i c s t} (hi : Typed ok prims (.empty :: sc) init i sc₁)
    (hc : Typed ok prims sc₁ cond c sc₂) (hb : Condition ok c) (hs : Typed ok prims sc₂ step s sc₃)
    (h : Typed ok prims (.empty :: sc₃) body t sc₄) :
    Typed ok prims sc (.forLoop init cond step body) .missing sc₄.tail.tail
  | returns {sc sc' value t} (h : Typed ok prims sc value t sc') : Typed ok prims sc (.returns value) .missing
      (sc'.addReturn (if t.isMissing then .primitive void else t))
  | breaks {sc} : Typed ok prims sc .breaks .missing sc
  | continues {sc} : Typed ok prims sc .continues .missing sc
  -- Declarations
  | lets {sc sc' vars} (h : TypedVars ok prims sc vars sc') : Typed ok prims sc (.lets vars) .missing sc'
  | var {sc sc' v t} (h : TypedVar ok prims sc v t sc') : Typed ok prims sc (.var v) t sc'
  | func {sc sc' name sig body t} (h : TypedFunction ok prims sc name sig body t sc') :
    Typed ok prims sc (.func name sig body) .missing sc'
  | lambda {sc sc' sig body t} (h : TypedFunction ok prims sc "" sig body t sc') :
    Typed ok prims sc (.lambda sig body) t sc'
  | structDecl {sc d} : Typed ok prims sc (.structDecl d) .missing
      (sc.modifyHead (·.declareDecl d.name (.structDecl d)))
  | enumDecl {sc d} : Typed ok prims sc (.enumDecl d) .missing
      (sc.modifyHead (·.declareDecl d.name (.enumDecl d)))
  -- Expressions
  | number {sc raw isFloat} : Typed ok prims sc (.number raw isFloat)
      (.primitive (if isFloat then float else integer)) sc
  | string {sc text} : Typed ok prims sc (.string text) (.primitive string) sc
  | bool {sc b} : Typed ok prims sc (.bool b) boolean sc
  | ident {sc : Scope} {name s t} (hs : sc.lookup? name = some s) (h : s.Instance t) :
    Typed ok prims sc (.ident name) t sc
  | undeclared {sc : Scope} {name v} (hs : sc.lookup? name = none) : Typed ok prims sc (.ident name) (.var v) sc
  | binary {sc sc₁ sc₂ op left right t u r} (hl : Typed ok prims sc left t sc₁)
    (hr : Typed ok prims sc₁ right u sc₂) (ht : t.isMissing = false) (hu : u.isMissing = false)
    (hop : operationType? op t = some r) (h : ok t u) : Typed ok prims sc (.binary op left right) r sc₂
  | logical {sc sc₁ sc₂ op left right t u} (hl : Typed ok prims sc left t sc₁)
    (hr : Typed ok prims sc₁ right u sc₂) (ht : t.isMissing = false) (hu : u.isMissing = false)
    (htb : ok t boolean) (hub : ok u boolean) : Typed ok prims sc (.logical op left right) boolean sc₂
  | not {sc sc' x t} (hx : Typed ok prims sc x t sc') (ht : t.isMissing = false) (h : ok t boolean) :
    Typed ok prims sc (.unary "!" x) boolean sc'
  | unary {sc sc' op x t} (hx : Typed ok prims sc x t sc') (hop : op ≠ "!") (ht : t.isMissing = false) :
    Typed ok prims sc (.unary op x) t sc'
  | update {sc sc' op x before t} (hx : Typed ok prims sc x t sc') (ht : t.isMissing = false) :
    Typed ok prims sc (.update op x before) t sc'
  | assign {sc sc₁ sc₂ op target value t u} (hx : Typed ok prims sc target t sc₁)
    (hv : Typed ok prims sc₁ value u sc₂) (ht : t.isMissing = false) (hu : u.isMissing = false) (h : ok t u) :
    Typed ok prims sc (.assign op target value) t (sc₂.assigned target t)
  | ternary {sc sc₁ sc₂ sc₃ cond yes no c t u} (hc : Typed ok prims sc cond c sc₁) (hb : Condition ok c)
    (hy : Typed ok prims sc₁ yes t sc₂) (hn : Typed ok prims sc₂ no u sc₃) (ht : t.isMissing = false)
    (hu : u.isMissing = false) (h : ok t u) : Typed ok prims sc (.ternary cond yes no) t sc₃
  | sequence {sc sc' exprs t} (h : TypedLast ok prims sc .missing exprs t sc') :
    Typed ok prims sc (.sequence exprs) t sc'
  | call {sc sc₁ sc₂ callee args t ts v} (hf : Typed ok prims sc callee t sc₁)
    (ha : TypedArgs ok prims sc₁ args ts sc₂) (h : t.isMissing = false → ok t (.arrow ts (.var v))) :
    Typed ok prims sc (.call callee args) (.var v) sc₂
  | awaitCall {sc sc₁ sc₂ callee args t ts v} (hf : Typed ok prims sc callee t sc₁)
    (ha : TypedArgs ok prims sc₁ args ts sc₂)
    (h : t.isMissing = false → ok t (.arrow ts (.app promiseName [.var v]))) :
    Typed ok prims sc (.await (.call callee args)) (.var v) sc₂
  | await {sc sc' expr t u} (hc : ∀ callee args, expr ≠ .call callee args) (hx : Typed ok prims sc expr t sc')
    (h : Awaited ok t u) : Typed ok prims sc (.await expr) u sc'
  | variant {sc sc₁ sc₂ object property arrow d v params l t} (hd : enumOf? sc object = some d)
    (hv : d.variants.find? (fun v => v.name = property) = some v)
    (hp : TypeParams (.empty :: sc) d.tparams [] params sc₁)
    (h : TypedVariant ok prims sc₁ v (.con d.name params l) t sc₂) :
    Typed ok prims sc (.member object property arrow) t sc₂.tail
  | member {sc sc' object property arrow t u} (hd : enumOf? sc object = none)
    (ho : Typed ok prims sc object t sc') (h : PartOf t (some property) u) :
    Typed ok prims sc (.member object property arrow) u sc'
  | index {sc sc₁ sc₂ object position t p u} (ho : Typed ok prims sc object t sc₁)
    (hp : Typed ok prims sc₁ position p sc₂) (h : PartOf t position.string? u) :
    Typed ok prims sc (.index object position) u sc₂
  | array {sc sc' elems t} (h : TypedElems ok prims sc .missing elems t sc') : Typed ok prims sc (.array elems)
      (.app arrayName [if t.isMissing then .primitive unknown else t]) sc'
  | object {sc sc' props entries l} (h : TypedProps ok prims sc props entries sc') :
    Typed ok prims sc (.object props) (.record anonymous (Dict.ofList entries) l) sc'
  | structLit {sc : Scope} {sc' name} {object : Node} {d t u} (hd : sc.structDecl? name = some d)
    (hm : object.isMissing = false) (ho : Typed ok prims sc object t sc') (h : FitsStruct ok prims sc' d name t u) :
    Typed ok prims sc (.structLit name object) u sc'
  | emptyStructLit {sc : Scope} {name d u} (hd : sc.structDecl? name = some d)
    (h : FitsStruct ok prims sc d name (.mkRecord anonymous [] []) u) :
    Typed ok prims sc (.structLit name .missing) u sc
  | type {sc e t} (h : Denotes prims sc e t) : Typed ok prims sc (.type e) t sc

/-- After a last type, the last of the nodes has the type. -/
inductive TypedLast (ok : Ty → Ty → Prop) (prims : List String) :
    Scope → Ty → List Node → Ty → Scope → Prop
  | nil {sc t} : TypedLast ok prims sc t [] t sc
  | cons {sc sc₁ sc₂ n ns last t u} (h : Typed ok prims sc n t sc₁) (hs : TypedLast ok prims sc₁ t ns u sc₂) :
    TypedLast ok prims sc last (n :: ns) u sc₂

/-- The variable is declared, and has the type. One that the innermost frame has already keeps its
type. -/
inductive TypedVar (ok : Ty → Ty → Prop) (prims : List String) :
    Scope → Variable → Ty → Scope → Prop
  | again {sc : Scope} {v : Variable} {s} (h : sc.lookupLocal? v.name = some s) : TypedVar ok prims sc v s.type sc
  | new {sc : Scope} {sc'} {v : Variable} {declared found t} (hn : sc.lookupLocal? v.name = none)
    (hd : Written prims sc v.ann declared) (hv : Typed ok prims sc v.value found sc')
    (h : VariableHolds ok declared found t) : TypedVar ok prims sc v (shownType declared t)
      (sc'.modifyHead (·.declare v.name (.mono t)))

/-- The variables are declared one after another. -/
inductive TypedVars (ok : Ty → Ty → Prop) (prims : List String) :
    Scope → List Variable → Scope → Prop
  | nil {sc} : TypedVars ok prims sc [] sc
  | cons {sc sc₁ sc₂ v vs t} (h : TypedVar ok prims sc v t sc₁) (hs : TypedVars ok prims sc₁ vs sc₂) :
    TypedVars ok prims sc (v :: vs) sc₂

/-- The function has the type. Its body can use it by its name, and what it returns has the type of
its result. -/
inductive TypedFunction (ok : Ty → Ty → Prop) (prims : List String) :
    Scope → String → Signature → Node → Ty → Scope → Prop
  | mk {sc sc₁ sc₂ sc₃ name} {sig : Signature} {body tparams params ret value}
    (ht : TypeParams (.function :: sc) sig.tparams [] tparams sc₁)
    (hp : DeclaresParams prims sc₁ sig.params params sc₂) (hr : WrittenOrNew prims sc₂ sig.ret ret)
    (hb : Typed ok prims (sc₂.named name (functionTy sig params ret)) body value sc₃)
    (h : ∀ t ∈ resultTypes sc₃.returned value (!sig.ret.isMissing), ok ret t) :
    TypedFunction ok prims sc name sig body (functionTy sig params ret) sc₃.tail

/-- The variant of an enum has the type: that of the enum, or of a function to it. -/
inductive TypedVariant (ok : Ty → Ty → Prop) (prims : List String) :
    Scope → Variant → Ty → Ty → Scope → Prop
  | unit {sc} {v : Variant} {enum} (hk : v.kind = .unit) : TypedVariant ok prims sc v enum enum sc
  | tuple {sc} {v : Variant} {enum ts} (hk : v.kind = .tuple) (h : DenotesAll prims sc v.tuple ts) :
    TypedVariant ok prims sc v enum (.arrow ts enum) sc
  | fields {sc} {v : Variant} {enum entries l} (hk : v.kind = .fields)
    (h : DenotesFields prims sc [] v.fields entries) : TypedVariant ok prims sc v enum
      (.arrow [.record (if v.name = "" then anonymous else v.name) (Dict.ofList entries) l] enum) sc
  | constant {sc sc'} {v : Variant} {enum t} (hk : v.kind = .constant) (h : Typed ok prims sc v.value t sc') :
    TypedVariant ok prims sc v enum enum sc'

/-- The arguments have values of the types. -/
inductive TypedArgs (ok : Ty → Ty → Prop) (prims : List String) :
    Scope → List Node → List Ty → Scope → Prop
  | nil {sc} : TypedArgs ok prims sc [] [] sc
  | cons {sc sc₁ sc₂ n ns t ts} (h : Typed ok prims sc n t sc₁) (ht : t.isMissing = false)
    (hs : TypedArgs ok prims sc₁ ns ts sc₂) : TypedArgs ok prims sc (n :: ns) (t :: ts) sc₂

/-- After the first element, the elements have its type. -/
inductive TypedElems (ok : Ty → Ty → Prop) (prims : List String) :
    Scope → Ty → List Node → Ty → Scope → Prop
  | nil {sc first} : TypedElems ok prims sc first [] first sc
  | cons {sc sc₁ sc₂ n ns} {first : Ty} {t u} (hn : Typed ok prims sc n t sc₁)
    (h : first.isMissing = false → t.isMissing = false → ok first t)
    (hs : TypedElems ok prims sc₁ (if first.isMissing then t else first) ns u sc₂) :
    TypedElems ok prims sc first (n :: ns) u sc₂

/-- The properties that have a value have the types. -/
inductive TypedProps (ok : Ty → Ty → Prop) (prims : List String) :
    Scope → List (String × Node) → List (String × Ty) → Scope → Prop
  | nil {sc} : TypedProps ok prims sc [] [] sc
  | cons {sc sc₁ sc₂ key n ps t entries} (hn : Typed ok prims sc n t sc₁)
    (hs : TypedProps ok prims sc₁ ps entries sc₂) : TypedProps ok prims sc ((key, n) :: ps)
      (if t.isMissing then entries else (key, t) :: entries) sc₂

end

end ScriptTyping
