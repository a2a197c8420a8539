import ScriptTyping.Proofs.InferLogic

/-!
# Inference respects scopes

**Theorem (`inferDepth_lexical`).** A node is visited in a frame. Whether this fails or not, what the
frames around it declare stays as it is, and if the node has a frame of its own, so does what its
frame declares. Only the innermost function notes further return types.

A computation that fails leaves the frames that it had entered on the scope, so the frames from before are
found below them. `Changes R x` says that from before to after `x` these frames are related by `R`. Four
relations are needed:

* `Scope.Returned`, what a computation does that works in a frame of its own,
* `Scope.Declared`, what a computation does that declares things in the innermost frame,
* `Scope.Headed`, the change of no frame but the innermost one, and
* `Scope.Around`, the same for a function that is declared while its own frame is the innermost one.

To leave a frame turns `Declared` into `Returned` (`Changes.within`), and that of a function `Around`
into `Headed` (`Changes.function`). To be `Scoped` is a logic of inference (`scoping`), so each node is.
-/

namespace ScriptTyping

open Infer

/-! ## Changes of scopes -/

namespace Scope

/-- The innermost function has noted further return types. -/
inductive Returned : Scope → Scope → Prop
  | nil : Returned [] []
  | here {f : Frame} {sc} (hf : f.isFunction = true) (ts : List Ty) :
    Returned (f :: sc) ({ f with returns := f.returns ++ ts } :: sc)
  | outside {f : Frame} {sc sc'} (hf : f.isFunction = false) (h : Returned sc sc') : Returned (f :: sc) (f :: sc')

/-- The innermost frame has changed, and no other one. -/
inductive Headed : Scope → Scope → Prop
  | nil : Headed [] []
  | cons {f f' : Frame} {sc : Scope} (h : f'.isFunction = f.isFunction) : Headed (f :: sc) (f' :: sc)

/-- The innermost frame has changed. Unless it is that of a function, the function around it has noted
further return types. -/
inductive Declared : Scope → Scope → Prop
  | nil : Declared [] []
  | function {f f' : Frame} {sc : Scope} (hf : f.isFunction = true) (hf' : f'.isFunction = true) :
    Declared (f :: sc) (f' :: sc)
  | block {f f' : Frame} {sc sc' : Scope} (hf : f.isFunction = false) (hf' : f'.isFunction = false)
    (h : Returned sc sc') : Declared (f :: sc) (f' :: sc')

/-- If the innermost frame is that of a function, then it and the one around it have changed, and no
other one. -/
def Around (sc sc' : Scope) : Prop :=
  ∀ g outer, sc = g :: outer → g.isFunction = true →
    ∃ g' outer', sc' = g' :: outer' ∧ g'.isFunction = true ∧ Headed outer outer'

variable {sc sc' sc'' : Scope}

namespace Returned

protected theorem refl (sc : Scope) : Returned sc sc := by
  induction sc with
  | nil => exact .nil
  | cons f sc ih =>
    cases hf : f.isFunction with
    | false => exact .outside hf ih
    | true =>
      have h : Returned (f :: sc) ({ f with returns := f.returns ++ [] } :: sc) := .here hf []
      simpa using h

protected theorem trans (h : Returned sc sc') (h' : Returned sc' sc'') : Returned sc sc'' := by
  induction h generalizing sc'' with
  | nil => exact h'
  | @here f sc hf ts =>
    cases h' with
    | here _ us =>
      have h : Returned (f :: sc) ({ f with returns := f.returns ++ (ts ++ us) } :: sc) := .here hf (ts ++ us)
      simpa using h
    | outside hf' _ => simp [hf] at hf'
  | outside hf _ ih =>
    cases h' with
    | here hf' _ => simp [hf] at hf'
    | outside _ h' => exact .outside hf (ih h')

theorem addReturn (sc : Scope) (t : Ty) : Returned sc (sc.addReturn t) := by
  induction sc with
  | nil => exact .nil
  | cons f sc ih =>
    unfold Scope.addReturn
    split
    next hf => exact .here hf [t]
    next hf => exact .outside (by simpa using hf) ih

end Returned

namespace Headed

protected theorem refl (sc : Scope) : Headed sc sc := by
  cases sc with
  | nil => exact .nil
  | cons f sc => exact .cons rfl

protected theorem trans (h : Headed sc sc') (h' : Headed sc' sc'') : Headed sc sc'' := by
  cases h with
  | nil => exact h'
  | cons hf =>
    cases h' with
    | cons hf' => exact .cons (hf'.trans hf)

theorem declared (h : Headed sc sc') : Declared sc sc' := by
  cases h with
  | nil => exact .nil
  | @cons f f' sc hf =>
    cases hkind : f.isFunction with
    | false => exact .block hkind (hf.trans hkind) (.refl sc)
    | true => exact .function hkind (hf.trans hkind)

theorem modifyHead (sc : Scope) (change : Frame → Frame) (h : ∀ f, (change f).isFunction = f.isFunction) :
    Headed sc (sc.modifyHead change) := by
  cases sc with
  | nil => exact .nil
  | cons f sc => exact .cons (h f)

end Headed

namespace Declared

protected theorem refl (sc : Scope) : Declared sc sc := (Headed.refl sc).declared

protected theorem trans (h : Declared sc sc') (h' : Declared sc' sc'') : Declared sc sc'' := by
  cases h with
  | nil => exact h'
  | function hf hg =>
    cases h' with
    | function _ hg' => exact .function hf hg'
    | block hg' _ _ => simp [hg] at hg'
  | block hf hg h =>
    cases h' with
    | function hg' _ => simp [hg] at hg'
    | block _ hg' h' => exact .block hf hg' (h.trans h')

end Declared

theorem Returned.declared (h : Returned sc sc') : Declared sc sc' := by
  cases h with
  | nil => exact .nil
  | here hf ts => exact .function hf hf
  | outside hf h => exact .block hf hf h

namespace Around

protected theorem refl (sc : Scope) : Around sc sc := fun g outer hsc hg => ⟨g, outer, hsc, hg, .refl outer⟩

protected theorem trans (h : Around sc sc') (h' : Around sc' sc'') : Around sc sc'' := by
  intro g outer hsc hg
  obtain ⟨g', outer', hsc', hg', hhead⟩ := h g outer hsc hg
  obtain ⟨g'', outer'', hsc'', hg'', hhead'⟩ := h' g' outer' hsc' hg'
  exact ⟨g'', outer'', hsc'', hg'', hhead.trans hhead'⟩

end Around

theorem Declared.around (h : Declared sc sc') : Around sc sc' := by
  rintro g outer rfl hg
  cases h with
  | function _ hg' => exact ⟨_, _, rfl, hg', .refl _⟩
  | block hg' _ _ => simp [hg] at hg'

end Scope

/-- A relation between a scope before and after something, which can be done again and again. -/
structure ScopeChange where
  holds : Scope → Scope → Prop
  refl : ∀ sc, holds sc sc
  trans : ∀ {sc sc' sc''}, holds sc sc' → holds sc' sc'' → holds sc sc''

namespace ScopeChange

def returned : ScopeChange := ⟨Scope.Returned, .refl, .trans⟩

def headed : ScopeChange := ⟨Scope.Headed, .refl, .trans⟩

def declared : ScopeChange := ⟨Scope.Declared, .refl, .trans⟩

def around : ScopeChange := ⟨Scope.Around, .refl, .trans⟩

end ScopeChange

/-! ## What computations change -/

namespace Infer

variable {α β : Type} {R S : ScopeChange}

/-- How a computation changes the frames from before. If it does not fail, there are no others. -/
def Changes (R : ScopeChange) (x : Infer α) : Prop :=
  ∀ σ, ∃ inner sc, (x.run.run σ).2.scope = inner ++ sc ∧ R.holds σ.scope sc ∧
    ∀ r, (x.run.run σ).1 = .ok r → inner = []

/-- The computation declares things in the innermost frame only. -/
abbrev Scoped (x : Infer α) : Prop := Changes .declared x

namespace Changes

theorem imp {x : Infer α} (h : Changes R x) (himp : ∀ sc sc', R.holds sc sc' → S.holds sc sc') :
    Changes S x := by
  intro σ
  obtain ⟨inner, sc, hscope, hsc, hok⟩ := h σ
  exact ⟨inner, sc, hscope, himp _ _ hsc, hok⟩

/-- The computation leaves the scope as it is. -/
theorem of_scope {x : Infer α} (h : ∀ σ, (x.run.run σ).2.scope = σ.scope) : Changes R x :=
  fun σ => ⟨[], σ.scope, h σ, R.refl _, fun _ _ => rfl⟩

theorem pure {r : α} : Changes R (pure r) := of_scope fun _ => rfl

theorem throw {e : CheckError} : Changes R (throw e : Infer α) := of_scope fun _ => rfl

/-- What comes after a computation has to be scoped only for what it gives. -/
theorem bind_of {x : Infer α} {f : α → Infer β} (hx : Changes R x)
    (hf : ∀ σ r, (x.run.run σ).1 = .ok r → Changes R (f r)) : Changes R (x >>= f) := by
  intro σ
  obtain ⟨inner, sc, hscope, hsc, hok⟩ := hx σ
  have hnext := hf σ
  rw [ExceptT.run_bind, StateT.run_bind]
  generalize x.run.run σ = found at hscope hok hnext
  obtain ⟨r | r, σ₁⟩ := found
  · exact ⟨inner, sc, hscope, hsc, fun _ hr => by cases hr⟩
  · obtain ⟨inner', sc', hscope', hsc', hok'⟩ := hnext r rfl σ₁
    obtain rfl := hok r rfl
    rw [hscope] at hsc'
    exact ⟨inner', sc', hscope', R.trans hsc hsc', hok'⟩

theorem bind {x : Infer α} {f : α → Infer β} (hx : Changes R x) (hf : ∀ r, Changes R (f r)) :
    Changes R (x >>= f) :=
  hx.bind_of fun _ r _ => hf r

theorem discard {x : Infer α} (hx : Changes R x) : Changes R (discard x) := by
  show Changes R ((fun _ => ()) <$> x)
  rw [map_eq_pure_bind]
  exact hx.bind fun _ => .pure

theorem modifyScope {change : Scope → Scope} (h : ∀ sc, R.holds sc (change sc)) :
    Changes R (modifyScope change) :=
  fun σ => ⟨[], change σ.scope, rfl, h _, fun _ _ => rfl⟩

/-- A frame that is entered and left. What is said of the frames from before and this one together must
say something of those from before. -/
theorem entering {x : Infer α} {f : Frame} (hx : Changes R x)
    (h : ∀ sc sc', R.holds (f :: sc) sc' → ∃ f' outer, sc' = f' :: outer ∧ S.holds sc outer) :
    Changes S (Infer.within f x) := by
  intro σ
  obtain ⟨inner, sc, hscope, hsc, hok⟩ := hx { σ with scope := f :: σ.scope }
  obtain ⟨f', outer, rfl, houter⟩ := h _ _ hsc
  cases hfound : x.run.run { σ with scope := f :: σ.scope } with
  | mk result τ =>
    rw [hfound] at hscope hok
    cases result with
    | error e =>
      rw [run_within_error hfound]
      exact ⟨inner ++ [f'], outer, by simpa using hscope, houter, fun _ hr => by cases hr⟩
    | ok r =>
      rw [ran_within.2 ⟨τ, hfound, rfl⟩]
      obtain rfl := hok r rfl
      exact ⟨[], outer, congrArg List.tail hscope, houter, fun _ _ => rfl⟩

/-- What is declared in a frame is gone when it is left. -/
theorem within {x : Infer α} {f : Frame} (hx : Scoped x) : Changes .returned (within f x) := by
  refine hx.entering fun sc sc' h => ?_
  cases h with
  | function _ _ => exact ⟨_, _, rfl, .refl _⟩
  | block _ _ h => exact ⟨_, _, rfl, h⟩

theorem function {x : Infer α} (hx : Changes .around x) : Changes .headed (Infer.within .function x) := by
  refine hx.entering fun sc sc' h => ?_
  obtain ⟨g, outer, rfl, -, houter⟩ := h _ _ rfl rfl
  exact ⟨g, outer, rfl, houter⟩

theorem declared {x : Infer α} (h : Changes .returned x) : Scoped x := h.imp fun _ _ => Scope.Returned.declared

end Changes

/-! ### Steps -/

variable {t u : Ty} {name : String}

theorem changes_fresh : Changes R fresh := .of_scope fun _ => rfl

theorem changes_growing {args : List Ty} : Changes R (growing name args) := .of_scope fun _ => rfl

theorem changes_record {entries : List (String × Ty)} {classes : ClassSet} :
    Changes R (record name entries classes) := .of_scope fun _ => rfl

theorem changes_instantiate {s : Scheme} : Changes R (instantiate s) := .of_scope fun _ => rfl

theorem changes_equate : Changes R (equate t u) := .of_scope fun _ => rfl

theorem changes_setSlot {slot : Nat} : Changes R (setSlot slot t) := .of_scope fun _ => rfl

theorem changes_scope : Changes R scope := .of_scope fun _ => rfl

theorem changes_require {c : String} : Changes R (require t c) := by
  refine .of_scope fun σ => ?_
  cases h : σ.scope.instances.require? σ.supply.attachments t c with
  | none => rw [ran_require.2 (.inl ⟨h, rfl, rfl⟩)]
  | some a => rw [ran_require.2 (.inr ⟨a, h, rfl, rfl⟩)]

theorem scoped_modifyHead {change : Frame → Frame} (h : ∀ f, (change f).isFunction = f.isFunction) :
    Scoped (modifyScope (·.modifyHead change)) :=
  .modifyScope fun sc => (Scope.Headed.modifyHead sc change h).declared

theorem scoped_declare : Scoped (declare name t) := scoped_modifyHead fun _ => rfl

theorem scoped_declareTypeParam : Scoped (declareTypeParam name t) := scoped_modifyHead fun _ => rfl

theorem scoped_declareDecl {decl : Node} : Scoped (declareDecl name decl) := by
  refine scoped_modifyHead fun f => ?_
  unfold Frame.declareDecl
  split <;> rfl

theorem scoped_addReturn : Scoped (addReturn t) := .modifyScope fun sc => (Scope.Returned.addReturn sc t).declared

theorem changes_declareOutside : Changes .around (declareOutside name t) := by
  refine .modifyScope fun sc => ?_
  rintro g outer rfl hg
  exact ⟨g, _, rfl, hg, .modifyHead outer (·.declare name (.mono t)) fun _ => rfl⟩

/-! ### The logic -/

/-- To declare things in the innermost frame only. -/
def scoping : Logic where
  World := Unit
  type _ t t' := t = t'
  state _ σ σ' := σ = σ'
  rel _ R x _ := Scoped x ∧ ∀ σ r, (x.run.run σ).1 = .ok r → ∃ r', R () r r'
  mono _ h := h
  parallel := by
    rintro _ t _ rfl
    cases t with
    | missing => exact .missing
    | var v => exact .var v v
    | con => exact .con _ _ (List.forall₂_refl _)
    | record => exact .record _ _ (List.forall₂_same.2 fun _ _ => ⟨rfl, rfl⟩)
  missing := rfl
  const := rfl
  app h := by rw [eq_of_forall₂ h]
  empty := rfl
  primitives h := h ▸ rfl
  scope h := h ▸ .rfl
  tparam? name h := by
    subst h
    cases Scope.tparam? _ name with
    | none => exact .none
    | some t => exact .some rfl
  lookupLocal? name h := by
    subst h
    cases Scope.lookupLocal? _ name with
    | none => exact .none
    | some s => exact .some rfl
  returned h := h ▸ List.forall₂_refl _
  addition := by rintro _ _ _ _ _ _ _ rfl rfl rfl; rfl
  struct name h ht := by
    subst h
    cases ht
    rfl
  pure h := ⟨.pure, fun _ _ hr => by cases hr; exact ⟨_, h⟩⟩
  throw _ := ⟨.throw, fun _ _ hr => by cases hr⟩
  recursive _ := ⟨.throw, fun _ _ hr => by cases hr⟩
  bind hx hk := by
    refine ⟨hx.1.bind_of fun σ r hr => ?_, fun σ r hr => ?_⟩
    · obtain ⟨r', h⟩ := hx.2 σ r hr
      exact (hk le_rfl h).1
    · obtain ⟨s, τ, hs, hr⟩ := ran_bind.1 (Prod.ext hr rfl : Ran _ σ r _)
      obtain ⟨s', h⟩ := hx.2 σ s (congrArg Prod.fst hs)
      exact (hk le_rfl h).2 τ r (congrArg Prod.fst hr)
  get h := ⟨fun σ => (h rfl).1 σ, fun σ => (h rfl).2 σ⟩
  within hx := by
    refine ⟨(Changes.within hx.1).declared, fun σ r hr => ?_⟩
    obtain ⟨τ, hr, -⟩ := ran_within.1 (Prod.ext hr rfl : Ran _ σ r _)
    exact hx.2 _ r (congrArg Prod.fst hr)
  fresh := ⟨changes_fresh, fun _ _ _ => ⟨_, rfl⟩⟩
  growing name _ := ⟨changes_growing, fun _ _ _ => ⟨_, rfl⟩⟩
  record name _ _ := ⟨changes_record, fun _ _ _ => ⟨_, rfl⟩⟩
  equate _ _ := ⟨changes_equate, fun _ _ _ => ⟨_, rfl, rfl⟩⟩
  require c _ := ⟨changes_require, fun _ _ _ => ⟨_, rfl, rfl⟩⟩
  declare name _ := ⟨scoped_declare, fun _ _ _ => ⟨_, rfl, rfl⟩⟩
  declareTypeParam name _ := ⟨scoped_declareTypeParam, fun _ _ _ => ⟨_, rfl, rfl⟩⟩
  declareDecl name decl := ⟨scoped_declareDecl, fun _ _ _ => ⟨_, rfl, rfl⟩⟩
  addReturn _ := ⟨scoped_addReturn, fun _ _ _ => ⟨_, rfl, rfl⟩⟩
  setSlot slot _ := ⟨changes_setSlot, fun _ _ _ => ⟨_, rfl, rfl⟩⟩

theorem uses_scoping : scoping.Uses := by
  refine fun name _ => ⟨?_, fun _ _ _ => ⟨_, rfl⟩⟩
  refine changes_scope.bind fun sc => ?_
  split
  · exact changes_instantiate
  · exact changes_fresh

/-! ### Functions -/

section

variable {sig : Signature} {body : Infer Ty}

/-- What is done in the frame of a function. All of it is scoped but the declaration of the function. -/
theorem changes_functionBody (hR : ∀ sc sc', Scope.Declared sc sc' → R.holds sc sc')
    (hname : ∀ t, Changes R (declareFunction name t)) (hb : Scoped body) : Changes R (do
      let head ← functionHead name sig
      functionEnd sig head.2 (← body)
      return head.1) := by
  have hparams : Scoped (sig.params.mapM declareParam) :=
    (scoping.mapM (w := ()) sig.params related_declareParam).1
  have hhead : Changes R (functionHead name sig) := by
    refine ((related_declareTypeParams (L := scoping.toResolution) (w := ()) _ .nil).1.discard.imp hR).bind fun _ => ?_
    refine (hparams.imp hR).bind fun _ => ?_
    refine ((related_resolveOrNew (L := scoping) sig.ret (w := ())).1.imp hR).bind fun _ => ?_
    exact (hname _).bind fun _ => .pure
  refine hhead.bind fun _ => (hb.imp hR).bind fun _ => Changes.bind ?_ fun _ => .pure
  exact (related_functionEnd (L := scoping) (w := ()) sig rfl rfl).1.imp hR

/-- A function without a name declares nothing. -/
theorem changes_functionType_nameless (hb : Scoped body) : Changes .returned (functionType "" sig body) := by
  rw [functionType_eq]
  exact .within (changes_functionBody (fun _ _ h => h) (fun _ => .pure) hb)

theorem functional_scoping : scoping.Functional := by
  refine fun name sig body _ hb _ => ⟨?_, fun _ _ _ => ⟨_, rfl⟩⟩
  rw [functionType_eq]
  refine (Changes.function (changes_functionBody (fun _ _ h => h.around) (fun t => ?_) (hb (w := ())).1)).imp
    fun _ _ h => h.declared
  unfold declareFunction
  split
  · exact .pure
  · exact changes_declareOutside

end

theorem scoped_inferDepth (depth : Nat) (n : Node) : Scoped (inferDepth depth n) :=
  (related_inferDepth uses_scoping functional_scoping depth n (w := ())).1

end Infer

/-! ## Frames of their own -/

/-- A block, a loop with a variable of its own, or a function without name. -/
def Node.isClosed : Node → Bool
  | block _ => true
  | forLoop _ _ _ _ => true
  | lambda _ _ => true
  | _ => false

namespace Infer

theorem changes_inferWith_closed {constant : Node → Infer Ty}
    (hconst : ∀ n {w}, scoping.Types w (constant n) (constant n)) {n : Node} (h : n.isClosed = true) :
    Changes .returned (inferWith constant n) := by
  have hnode (n : Node) : Scoped (inferWith constant n) :=
    (related_inferWith uses_scoping functional_scoping hconst n (w := ())).1
  cases n with
  | block body =>
    rw [inferWith]
    exact .within (related_inferLast uses_scoping functional_scoping hconst body (w := ()) rfl).1
  | forLoop init cond step body =>
    rw [inferWith]
    refine .within ((hnode init).discard.bind fun _ => (hnode cond).bind fun _ => ?_)
    refine (related_expectBoolean (L := scoping) (w := ()) rfl).1.bind fun _ => ?_
    refine (hnode step).discard.bind fun _ => ?_
    exact (Changes.within (hnode body)).declared.discard.bind fun _ => .pure
  | lambda sig body =>
    rw [inferWith]
    exact changes_functionType_nameless (hnode body)
  | _ => simp [Node.isClosed] at h

theorem changes_inferDepth_closed (depth : Nat) {n : Node} (h : n.isClosed = true) :
    Changes .returned (inferDepth depth n) := by
  cases depth with
  | zero => exact changes_inferWith_closed (fun _ _ => scoping.throw .recursiveConstant) h
  | succ depth => exact changes_inferWith_closed (related_inferDepth uses_scoping functional_scoping depth) h

end Infer

/-- All of a frame but the return types. -/
def Frame.declarations (f : Frame) : Frame := { f with returns := [] }

theorem Scope.Returned.declarations {sc sc' : Scope} (h : Returned sc sc') :
    sc'.map Frame.declarations = sc.map Frame.declarations := by
  induction h with
  | nil => rfl
  | here => rfl
  | @outside f _ _ _ _ ih => exact congrArg (f.declarations :: ·) ih

theorem Scope.Declared.outer {f : Frame} {sc sc' : Scope} (h : Declared (f :: sc) sc') :
    ∃ f' outer, sc' = f' :: outer ∧ Returned sc outer ∧ (f.isFunction = true → outer = sc) := by
  cases h with
  | function _ _ => exact ⟨_, _, rfl, .refl _, fun _ => rfl⟩
  | block hf _ h => exact ⟨_, _, rfl, h, fun hf' => by simp [hf] at hf'⟩

/-- A node is visited in the frame `f`. After that, the frames from before lie below those that were
entered and not left, which are there only if the visit fails. Around `f` nothing is declared. For a node
with a frame of its own, neither is in `f`. Only the innermost function notes return types. -/
theorem inferDepth_lexical (depth : Nat) (n : Node) (σ : Inference) (f : Frame) (outer : Scope) :
    ∃ (inner : Scope) (f' : Frame) (outer' : Scope),
      ((inferDepth depth n).run.run { σ with scope := f :: outer }).2.scope = inner ++ f' :: outer' ∧
      (∀ t, ((inferDepth depth n).run.run { σ with scope := f :: outer }).1 = .ok t → inner = []) ∧
      outer'.map Frame.declarations = outer.map Frame.declarations ∧
      Scope.Returned outer outer' ∧ (f.isFunction = true → outer' = outer) ∧
      (n.isClosed = true → f'.declarations = f.declarations ∧ Scope.Returned (f :: outer) (f' :: outer')) := by
  by_cases hn : n.isClosed = true
  · obtain ⟨inner, sc, hscope, hsc, hok⟩ := changes_inferDepth_closed depth hn { σ with scope := f :: outer }
    change Scope.Returned (f :: outer) sc at hsc
    obtain ⟨f', outer', rfl, houter, hfunction⟩ := hsc.declared.outer
    have hhead := (List.cons.inj hsc.declarations).1
    exact ⟨inner, f', outer', hscope, hok, houter.declarations, houter, hfunction, fun _ => ⟨hhead, hsc⟩⟩
  · obtain ⟨inner, sc, hscope, hsc, hok⟩ := scoped_inferDepth depth n { σ with scope := f :: outer }
    obtain ⟨f', outer', rfl, houter, hfunction⟩ := Scope.Declared.outer hsc
    exact ⟨inner, f', outer', hscope, hok, houter.declarations, houter, hfunction, fun h => (hn h).elim⟩

end ScriptTyping
