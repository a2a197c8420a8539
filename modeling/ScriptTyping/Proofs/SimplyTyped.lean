import ScriptTyping.Check.Infer
import ScriptTyping.Proofs.Instance

/-!
# The simply typed core

Programs of the core are lists of declarations `let x = e;` of different names, where `e` is built
from literals, names, functions `fun (y₁, …, yₖ) { e; }` without annotations, calls, choices and
arrays that have an element. `HasType` has the usual rules for such expressions: each has one type at
a time, also those that are declared. The rules do not say how a type is found. They tell types apart
by `Ty.equal` only.
-/

namespace ScriptTyping

open Ty Infer

/-! ## Expressions -/

/-- The function `fun (y₁, …, yₖ) { e; }`. -/
def Node.function (params : List String) (body : Node) : Node :=
  .lambda ⟨[], params.map fun name => ⟨name, .missing, false⟩, .missing, false⟩
    (.block [.exprStmt body])

/-- The expression is in the core, and only uses these names. -/
inductive Core : List String → Node → Prop
  | number {names raw isFloat} : Core names (.number raw isFloat)
  | string {names text} : Core names (.string text)
  | bool {names b} : Core names (.bool b)
  | ident {names name} (h : name ∈ names) : Core names (.ident name)
  | function {names params body} (h : Core (params ++ names) body) : Core names (.function params body)
  | call {names callee args} (hf : Core names callee) (ha : ∀ n ∈ args, Core names n) :
    Core names (.call callee args)
  | ternary {names cond yes no} (hc : Core names cond) (hy : Core names yes) (hn : Core names no) :
    Core names (.ternary cond yes no)
  | array {names first rest} (hf : Core names first) (hr : ∀ n ∈ rest, Core names n) :
    Core names (.array (first :: rest))

/-- The types of names. -/
abbrev Context := String → Option Ty

namespace Context

def empty : Context := fun _ => none

def declare (Γ : Context) (name : String) (t : Ty) : Context :=
  fun x => if name = x then some t else Γ x

/-- Give names types, one after another. -/
def declareAll (Γ : Context) : List (String × Ty) → Context
  | [] => Γ
  | (name, t) :: rest => (Γ.declare name t).declareAll rest

end Context

/-- The expression can have the type. -/
inductive HasType : Context → Node → Ty → Prop
  | number {Γ raw isFloat t} (h : (primitive (if isFloat then Ty.float else Ty.integer)).equal t = true) :
    HasType Γ (.number raw isFloat) t
  | string {Γ text t} (h : (primitive Ty.string).equal t = true) : HasType Γ (.string text) t
  | bool {Γ b t} (h : boolean.equal t = true) : HasType Γ (.bool b) t
  | ident {Γ name u t} (hx : Γ name = some u) (h : u.equal t = true) : HasType Γ (.ident name) t
  | function {Γ : Context} {params : List String} {body} {ts : List Ty} {r t} (hlen : params.length = ts.length)
    (hb : HasType (Γ.declareAll (params.zip ts)) body r) (h : (arrow ts r).equal t = true) :
    HasType Γ (.function params body) t
  | call {Γ callee} {args : List Node} {ts t} (hf : HasType Γ callee (.arrow ts t))
    (hlen : args.length = ts.length) (ha : ∀ p ∈ args.zip ts, HasType Γ p.1 p.2) : HasType Γ (.call callee args) t
  | ternary {Γ cond yes no t} (hc : HasType Γ cond boolean) (hy : HasType Γ yes t) (hn : HasType Γ no t) :
    HasType Γ (.ternary cond yes no) t
  | array {Γ elems u t} (he : ∀ n ∈ elems, HasType Γ n u) (h : (app arrayName [u]).equal t = true) :
    HasType Γ (.array elems) t

/-! ## Programs -/

/-- The program that declares these variables, each on its own. -/
def Node.ofLets (vs : List Variable) : Node := .program (vs.map fun v => .lets [v])

/-- After declarations of these names, the declarations are in the core. -/
inductive CoreLets : List String → List Variable → Prop
  | nil {names} : CoreLets names []
  | cons {names} {v : Variable} {vs} (hn : v.name ∉ names) (ha : v.ann = .missing) (hv : Core names v.value)
    (h : CoreLets (v.name :: names) vs) : CoreLets names (v :: vs)

/-- The types `D` are a typing of the declarations: each has a type that its value can have where the
ones before it have theirs. -/
inductive LetsTyped (D : String → Ty) : Context → List Variable → Prop
  | nil {Γ} : LetsTyped D Γ []
  | cons {Γ} {v : Variable} {vs} (hv : HasType Γ v.value (D v.name))
    (h : LetsTyped D (Γ.declare v.name (D v.name)) vs) : LetsTyped D Γ (v :: vs)

/-! ## Equal types -/

theorem Ty.equal_refl (t : Ty) : t.equal t = true := equal_iff.2 rfl

theorem Ty.equal_trans {t u w : Ty} (h : t.equal u = true) (h' : u.equal w = true) : t.equal w = true :=
  equal_iff.2 ((equal_iff.1 h).trans (equal_iff.1 h'))

theorem Ty.bare_arrow (ts : List Ty) (t : Ty) : (arrow ts t).bare = arrow (ts.map bare) t.bare := by
  rw [arrow, app, bare_con, List.map_append]
  rfl

theorem Ty.equal_arrow {ts : List Ty} {t u : Ty} (h : t.equal u = true) :
    (arrow ts t).equal (arrow ts u) = true := by
  rw [equal_iff, bare_arrow, bare_arrow, equal_iff.1 h]

/-- Equal types are types of the same expressions. -/
theorem HasType.of_equal {Γ : Context} {n : Node} {t u : Ty} (h : HasType Γ n t)
    (he : t.equal u = true) : HasType Γ n u := by
  induction h generalizing u with
  | number h => exact .number (equal_trans h he)
  | string h => exact .string (equal_trans h he)
  | bool h => exact .bool (equal_trans h he)
  | ident hx h => exact .ident hx (equal_trans h he)
  | function hlen hb h _ => exact .function hlen hb (equal_trans h he)
  | call _ hlen ha ihf _ => exact .call (ihf (equal_arrow he)) hlen ha
  | ternary hc _ _ _ ihy ihn => exact .ternary hc (ihy he) (ihn he)
  | array helems h _ => exact .array helems (equal_trans h he)

theorem Node.function_injective {params params' : List String} {body body' : Node}
    (h : Node.function params body = Node.function params' body') : params = params' ∧ body = body' := by
  simp only [Node.function, Node.lambda.injEq, Signature.mk.injEq, Node.block.injEq, List.cons.injEq,
    Node.exprStmt.injEq, and_true, true_and] at h
  exact ⟨(List.map_inj_right fun a b hab => (ParamOf.mk.inj hab).1).1 h.1, h.2⟩

/-- A type of a function is one from types of its parameters to a type of its body. -/
theorem HasType.of_function {Γ : Context} {params : List String} {body : Node} {t : Ty}
    (h : HasType Γ (.function params body) t) : ∃ ts r, params.length = ts.length ∧
      HasType (Γ.declareAll (params.zip ts)) body r ∧ (arrow ts r).equal t = true := by
  generalize hn : Node.function params body = n at h
  cases h with
  | function hlen hb he =>
    obtain ⟨rfl, rfl⟩ := Node.function_injective hn
    exact ⟨_, _, hlen, hb, he⟩
  | _ => cases hn

end ScriptTyping
