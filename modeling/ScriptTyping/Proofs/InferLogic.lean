import ScriptTyping.Proofs.Everywhere
import ScriptTyping.Proofs.Typing

/-!
# Logics of inference

Several things hold of every computation of inference because they hold of its steps and pass through the way
in which computations are put together. A `Logic` is such a thing. It relates two computations, so that it
can say that inference comes to the same from two states; a logic that speaks of one computation leaves out
the other. What it says of types may depend on what was made so far, so there are worlds, which only grow.

`Logic.Types` says that two computations give types that are related. It is shown for every piece of
inference, in the order of the definitions, and so for every node: `related_inferDepth`. The frame of a
function is the only one in which something is declared outside of it, so what a logic has to say about
functions is left open (`Logic.Functional`), as is what it has to say about uses of names (`Logic.Uses`).
For a logic that allows this declaration the former is `functional_of_outside`.
-/

namespace ScriptTyping

open Ty List Scope

/-- The name of a struct, if the expression can be one. -/
def TypeExpr.structName? : TypeExpr → Option String
  | named name | structRef name _ => some name
  | _ => none

/-! ## Types side by side -/

/-- The types are built alike, and their parts are related. -/
inductive Ty.Parallel (T : Ty → Ty → Prop) : Ty → Ty → Prop
  | missing : Parallel T missing missing
  | var (v v' : Var) : Parallel T (var v) (var v')
  | con {name args args'} (l l' : Label) (h : List.Forall₂ T args args') :
    Parallel T (con name args l) (con name args' l')
  | record {name fields fields'} (l l' : Label)
    (h : List.Forall₂ (fun f f' => f.1 = f'.1 ∧ T f.2 f'.2) fields fields') :
    Parallel T (record name fields l) (record name fields' l')

/-- The errors say the same of types that are related. A recursive struct is not among them, since it only is
found if structs are not expanded deep enough. -/
inductive CheckError.Parallel (T : Ty → Ty → Prop) : CheckError → CheckError → Prop
  | bound {t t' c} (h : T t t') : Parallel T (.bound t c) (.bound t' c)
  | operator {op t t' u u'} (ht : T t t') (hu : T u u') : Parallel T (.operator op t u) (.operator op t' u')
  | unknownType {name} : Parallel T (.unknownType name) (.unknownType name)
  | undeclared {kind name} : Parallel T (.undeclared kind name) (.undeclared kind name)
  | invalidOperands {op} : Parallel T (.invalidOperands op) (.invalidOperands op)
  | untyped : Parallel T .untyped .untyped
  | unsupportedOperator {op} : Parallel T (.unsupportedOperator op) (.unsupportedOperator op)
  | recursiveConstant : Parallel T .recursiveConstant .recursiveConstant

theorem eq_of_forall₂ {α : Type} {xs ys : List α} (h : List.Forall₂ Eq xs ys) : xs = ys := by
  rwa [List.forall₂_eq_eq_eq] at h

/-- The scopes declare the same, but for types. -/
structure Scope.Parallel (sc sc' : Scope) : Prop where
  declaresClass : ∀ c, sc'.declaresClass c = sc.declaresClass c
  decl? : ∀ name, sc'.decl? name = sc.decl? name
  structDepth : sc'.structDepth = sc.structDepth
  known : ∀ name, (sc'.lookup? name).isSome = (sc.lookup? name).isSome

theorem Scope.Parallel.rfl {sc : Scope} : sc.Parallel sc :=
  ⟨fun _ => Eq.refl _, fun _ => Eq.refl _, Eq.refl _, fun _ => Eq.refl _⟩

section

variable {T : Ty → Ty → Prop} {t t' : Ty}

theorem Ty.Parallel.isMissing (h : t.Parallel T t') : t'.isMissing = t.isMissing := by cases h <;> rfl

theorem Ty.rel_getLast? {ts ts' : List Ty} (h : List.Forall₂ T ts ts') :
    Option.Rel T ts.getLast? ts'.getLast? := by
  induction h with
  | nil => exact .none
  | cons h hs ih =>
    cases hs with
    | nil => exact .some h
    | cons => exact ih

theorem Dict.rel_get? {d d' : Dict Ty} (h : List.Forall₂ (fun f f' => f.1 = f'.1 ∧ T f.2 f'.2) d d')
    (key : String) : Option.Rel T (Dict.get? d key) (Dict.get? d' key) := by
  induction h with
  | nil => exact .none
  | @cons f f' d d' h _ ih =>
    obtain ⟨k, u⟩ := f
    obtain ⟨k', u'⟩ := f'
    obtain ⟨rfl, h⟩ := h
    rw [Dict.get?_cons, Dict.get?_cons]
    split
    · exact .some h
    · exact ih

theorem Ty.Parallel.partType? (h : t.Parallel T t') (key : Option String) :
    Option.Rel T (Infer.partType? t key) (Infer.partType? t' key) := by
  cases h with
  | missing => exact .none
  | var => exact .none
  | con _ _ h =>
    rw [Infer.partType?, Infer.partType?, h.length_eq]
    split
    · cases h with
      | nil => exact .none
      | cons h _ => exact .some h
    · split
      · exact Ty.rel_getLast? h
      · exact .none
  | record _ _ h =>
    cases key with
    | none => exact .none
    | some key => exact Dict.rel_get? h key

end

namespace Infer

/-! ## Logics -/

/-- What can be said of two computations of inference, in worlds that grow. -/
structure Relation where
  World : Type
  [order : Preorder World]
  type : World → Ty → Ty → Prop
  state : World → Inference → Inference → Prop
  /-- What the computations give is related as said, in the world to which they come. -/
  rel {α : Type} : World → (World → α → α → Prop) → Infer α → Infer α → Prop

attribute [instance] Relation.order

namespace Relation

/-- The computations give related types. -/
abbrev Types (L : Relation) (w : L.World) : Infer Ty → Infer Ty → Prop := L.rel w L.type

abbrev all (L : Relation) (w : L.World) : List Ty → List Ty → Prop := List.Forall₂ (L.type w)

/-- Lists of related types under the same names. -/
abbrev named (L : Relation) (w : L.World) : List (String × Ty) → List (String × Ty) → Prop :=
  List.Forall₂ fun e e' => e.1 = e'.1 ∧ L.type w e.2 e'.2

/-- The computations give the same, and make nothing. -/
abbrev Still {α : Type} (L : Relation) (w : L.World) : Infer α → Infer α → Prop :=
  L.rel w fun w' r r' => w' = w ∧ r = r'

end Relation

/-- Something that holds of the steps in which annotations are resolved, and passes through the way in which
computations are built of them. -/
structure Resolution extends Relation where
  mono {w w' t t'} : w ≤ w' → type w t t' → type w' t t'
  const {w name classes} : type w (.const name classes) (.const name classes)
  app {w name ts ts'} : toRelation.all w ts ts' → type w (.app name ts) (.app name ts')
  primitives {w σ σ'} : state w σ σ' → σ'.primitives = σ.primitives
  scope {w σ σ'} : state w σ σ' → σ.scope.Parallel σ'.scope
  tparam? {w σ σ'} (name : String) : state w σ σ' →
    Option.Rel (type w) (σ.scope.tparam? name) (σ'.scope.tparam? name)
  pure {α : Type} {w : World} {R : World → α → α → Prop} {r r' : α} : R w r r' → rel w R (pure r) (pure r')
  throw {α : Type} {w : World} {R : World → α → α → Prop} {e e' : CheckError} :
    e.Parallel (type w) e' → rel w R (throw e) (throw e')
  bind {α β : Type} {w : World} {R : World → α → α → Prop} {S : World → β → β → Prop} {x x' : Infer α}
    {k k' : α → Infer β} : rel w R x x' → (∀ {w' r r'}, w ≤ w' → R w' r r' → rel w' S (k r) (k' r')) →
    rel w S (x >>= k) (x' >>= k')
  get {α : Type} {w : World} {R : World → α → α → Prop} {k k' : Inference → Infer α} :
    (∀ {σ σ'}, state w σ σ' → rel w R (k σ) (k' σ')) → rel w R (get >>= k) (get >>= k')
  within {α : Type} {w : World} {R : World → α → α → Prop} {x x' : Infer α} : rel w R x x' →
    rel w R (within .empty x) (within .empty x')
  fresh {w} : toRelation.Types w fresh fresh
  growing {w ts ts'} (name : String) : toRelation.all w ts ts' →
    toRelation.Types w (growing name ts) (growing name ts')
  require {w t t'} (c : String) : type w t t' → toRelation.Still w (require t c) (require t' c)
  declareTypeParam {w t t'} (name : String) : type w t t' →
    toRelation.Still w (declareTypeParam name t) (declareTypeParam name t')

/-- Something that holds of all steps of inference. -/
structure Logic extends Resolution where
  parallel {w t t'} : type w t t' → t.Parallel (type w) t'
  missing {w} : type w .missing .missing
  empty {w} : type w (.mkRecord Ty.anonymous [] []) (.mkRecord Ty.anonymous [] [])
  lookupLocal? {w σ σ'} (name : String) : state w σ σ' →
    Option.Rel (fun s s' => type w s.type s'.type) (σ.scope.lookupLocal? name) (σ'.scope.lookupLocal? name)
  returned {w σ σ'} : state w σ σ' → toRelation.all w σ.scope.returned σ'.scope.returned
  addition {w σ σ' t t' u u'} : state w σ σ' → type w t t' → type w u u' →
    σ'.scope.instances.addition σ'.supply.attachments t' u' = σ.scope.instances.addition σ.supply.attachments t u
  struct {w σ σ' owner fields fields' l l'} (name : String) : state w σ σ' →
    type w (.record owner fields l) (.record owner fields' l') →
    type w (.record name fields ⟨ClassSet.adding (σ.supply.attachments.ofLabel l) [Class.struct], none, l.tail⟩)
      (.record name fields' ⟨ClassSet.adding (σ'.supply.attachments.ofLabel l') [Class.struct], none, l'.tail⟩)
  recursive {w} (name : String) : toRelation.Types w
    (MonadExcept.throw (.recursiveStruct name)) (MonadExcept.throw (.recursiveStruct name))
  record {w es es' classes} (name : String) :
    toRelation.named w es es' → (∀ k ∈ classes, k = Class.struct) →
    toRelation.Types w (record name es classes) (record name es' classes)
  equate {w t t' u u'} : type w t t' → type w u u' → toRelation.Still w (equate t u) (equate t' u')
  declare {w t t'} (name : String) : type w t t' → toRelation.Still w (declare name t) (declare name t')
  declareDecl {w} (name : String) (decl : Node) : toRelation.Still w (declareDecl name decl) (declareDecl name decl)
  addReturn {w t t'} : type w t t' → toRelation.Still w (addReturn t) (addReturn t')
  setSlot {w t t'} (slot : Nat) : type w t t' → toRelation.Still w (setSlot slot t) (setSlot slot t')

namespace Resolution

variable {α β ι : Type} {L : Resolution} {w w' : L.World} {R : L.World → α → α → Prop} {S : L.World → β → β → Prop}
  {ts ts' : List Ty}

theorem bind_still {x x' : Infer β} {k k' : β → Infer α} (hx : L.Still w x x')
    (hk : ∀ r, L.rel w R (k r) (k' r)) : L.rel w R (x >>= k) (x' >>= k') := by
  refine L.bind hx ?_
  rintro _ r _ - ⟨rfl, rfl⟩
  exact hk r

theorem bind_discard {x x' : Infer α} {k k' : Unit → Infer β} (hx : L.rel w R x x')
    (hk : ∀ {w'}, w ≤ w' → L.rel w' S (k ()) (k' ())) : L.rel w S (discard x >>= k) (discard x' >>= k') := by
  have hstart {α β : Type} (x : Infer α) (k : Unit → Infer β) : discard x >>= k = x >>= fun _ => k () := by
    show ((fun _ => ()) <$> x) >>= k = _
    rw [map_eq_pure_bind, bind_assoc]
    rfl
  rw [hstart, hstart]
  exact L.bind hx fun hw _ => hk hw

theorem bind_scope {k k' : Scope → Infer α} (h : ∀ {σ σ'}, L.state w σ σ' → L.rel w R (k σ.scope) (k' σ'.scope)) :
    L.rel w R (Infer.scope >>= k) (Infer.scope >>= k') := by
  have hscope {α : Type} (k : Scope → Infer α) : Infer.scope >>= k = MonadState.get >>= fun σ => k σ.scope := rfl
  rw [hscope, hscope]
  exact L.get h

theorem arrow {t t' : Ty} (hs : L.all w ts ts') (h : L.type w t t') : L.type w (.arrow ts t) (.arrow ts' t') :=
  L.app (rel_append hs (.cons h .nil))

theorem mono_all (hw : w ≤ w') (h : L.all w ts ts') : L.all w' ts ts' := h.imp fun _ _ => L.mono hw

theorem mapM {f f' : ι → Infer Ty} (is : List ι) (h : ∀ i {w}, L.Types w (f i) (f' i)) :
    L.rel w L.all (is.mapM f) (is.mapM f') := by
  induction is generalizing w with
  | nil => exact L.pure .nil
  | cons i is ih =>
    rw [mapM_cons, mapM_cons]
    exact L.bind (h i) fun _ hr => L.bind ih fun hw hrs => L.pure (.cons (L.mono hw hr) hrs)

/-- Named types, which are found one after another. -/
theorem mapM_named {f f' : ι → Infer Ty} (name : ι → String) (is : List ι)
    (h : ∀ i ∈ is, ∀ {w'}, w ≤ w' → L.Types w' (f i) (f' i)) :
    L.rel w L.named (is.mapM fun i => return (name i, ← f i)) (is.mapM fun i => return (name i, ← f' i)) := by
  induction is generalizing w with
  | nil => exact L.pure .nil
  | cons i is ih =>
    rw [mapM_cons, mapM_cons, bind_assoc, bind_assoc]
    refine L.bind (h i mem_cons_self le_rfl) fun hw₁ ht => ?_
    rw [pure_bind, pure_bind]
    exact L.bind (ih fun j hj _ hw => h j (mem_cons_of_mem _ hj) (hw₁.trans hw)) fun hw hes =>
      L.pure (.cons ⟨rfl, L.mono hw ht⟩ hes)

theorem forM {κ : Type} {I : ι → κ → Prop} {f : ι → Infer PUnit} {f' : κ → Infer PUnit} {is : List ι}
    {is' : List κ} (his : List.Forall₂ I is is') (h : ∀ i i', I i i' → L.Still w (f i) (f' i')) :
    L.Still w (is.forM f) (is'.forM f') := by
  induction his with
  | nil => exact L.pure ⟨rfl, rfl⟩
  | cons hi _ ih => exact L.bind_still (h _ _ hi) fun _ => ih

end Resolution

section

variable {L : Resolution} {w : L.World} {t t' u u' : Ty} {ts ts' : List Ty}

/-! ## Annotations -/

theorem related_requireBound (ht : L.type w t t') (c : String) :
    L.Still w (requireBound t c) (requireBound t' c) := by
  refine L.bind_scope fun hσ => ?_
  rw [(L.scope hσ).declaresClass]
  split
  · exact L.throw .unknownType
  · refine L.bind_still (L.require c ht) fun b => ?_
    split
    · exact L.throw (.bound ht)
    · exact L.pure ⟨rfl, rfl⟩

theorem related_firstOrNew (h : L.all w ts ts') : L.Types w (firstOrNew ts) (firstOrNew ts') := by
  cases h with
  | nil => exact L.fresh
  | cons h _ => exact L.pure h

theorem related_declareTypeParams (ps : List TypeParam) (h : L.all w ts ts') :
    L.rel w L.all (declareTypeParams ps ts) (declareTypeParams ps ts') := by
  induction ps generalizing w ts ts' with
  | nil => exact L.pure .nil
  | cons p ps ih =>
    refine L.bind (related_firstOrNew h) fun hw₁ ht => ?_
    refine L.bind_still (L.forM (I := Eq) (forall₂_refl p.bounds) ?_) fun _ => ?_
    · rintro c _ rfl
      exact related_requireBound ht c
    · refine L.bind_still (L.declareTypeParam p.name ht) fun _ => ?_
      have htail : L.all w ts.tail ts'.tail := by
        cases h with
        | nil => exact .nil
        | cons _ h => exact h
      exact L.bind (ih (L.mono_all hw₁ htail)) fun hw₂ hts => L.pure (.cons (L.mono hw₂ ht) hts)

theorem related_paramType {x x' : Infer Ty} (hx : L.Types w x x') (annotated variadic : Bool) :
    L.Types w (paramType x annotated variadic) (paramType x' annotated variadic) := by
  unfold paramType
  split
  · exact hx
  · split
    · exact L.bind L.fresh fun _ ht => L.pure (L.app (.cons ht .nil))
    · exact L.fresh

theorem related_fieldType {resolve resolve' : TypeExpr → Infer Ty} {ann : TypeExpr}
    (hx : L.Types w (resolve ann) (resolve' ann)) (h : L.all w ts ts') :
    L.Types w (fieldType resolve ts ann) (fieldType resolve' ts' ann) := by
  unfold fieldType
  split
  · rcases h with _ | ⟨h, _ | ⟨_, _⟩⟩
    · exact L.fresh
    · exact L.pure h
    · exact L.fresh
  · exact hx

/-- Structs of some kind are expanded to related types. -/
def Resolution.Expands (L : Resolution) (kind : StructDecl → Prop) (expand expand' : StructDecl → List Ty → Infer Ty) :
    Prop := ∀ d, kind d → ∀ {w ts ts'}, L.all w ts ts' → L.Types w (expand d ts) (expand' d ts')

/-- All structs that an annotation mentions are of some kind. -/
def Resolution.Mentions (L : Resolution) (kind : StructDecl → Prop) (e : TypeExpr) : Prop :=
  e.All fun u => ∀ name ∈ u.structName?, ∀ {w σ σ'}, L.state w σ σ' → ∀ d ∈ σ.scope.structDecl? name, kind d

theorem related_structType {resolve resolve' : TypeExpr → Infer Ty} {d : StructDecl}
    (hrecord : ∀ {w es es'}, L.named w es es' → L.Types w (record d.name es [Class.struct])
      (record d.name es' [Class.struct]))
    (h : ∀ f ∈ d.fields, ∀ {w}, L.Types w (resolve f.ann) (resolve' f.ann)) (hts : L.all w ts ts') :
    L.Types w (structType resolve d ts) (structType resolve' d ts') := by
  refine L.within (L.bind (related_declareTypeParams d.tparams hts) fun _ hps => ?_)
  refine L.bind (L.mapM_named Field.name d.fields fun f hf _ hw => ?_) fun _ hes => hrecord hes
  exact related_fieldType (h f hf) (L.mono_all hw hps)

theorem related_enumType (d : EnumDecl) (h : L.all w ts ts') : L.Types w (enumType d ts) (enumType d ts') :=
  L.bind (L.within (related_declareTypeParams d.tparams h)) fun _ hps => L.growing d.name hps

section

set_option linter.unusedSectionVars false

variable {kind : StructDecl → Prop} {expand expand' : StructDecl → List Ty → Infer Ty}
  (hexp : L.Expands kind expand expand')
include hexp

theorem related_resolveName {name : String} (h : L.Mentions kind (.named name)) :
    L.Types w (resolveName expand name) (resolveName expand' name) := by
  refine L.get fun {σ σ'} hσ => ?_
  have htparam := L.tparam? name hσ
  rw [L.primitives hσ, (L.scope hσ).decl?]
  split
  · exact L.pure L.const
  · revert htparam
    generalize σ.scope.tparam? name = found
    generalize σ'.scope.tparam? name = found'
    intro htparam
    cases htparam with
    | some h => exact L.pure h
    | none =>
      dsimp only
      split
      next d hd => exact hexp d (h.parts name rfl hσ d (by rw [structDecl?, hd]; rfl)) .nil
      next d _ => exact related_enumType d .nil
      next => exact L.throw .unknownType

mutual

theorem related_resolveWith : ∀ (e : TypeExpr), L.Mentions kind e → ∀ {w : L.World},
    L.Types w (resolveWith expand e) (resolveWith expand' e)
  | .missing, _, _ => by
    rw [resolveWith, resolveWith]
    exact L.throw .untyped
  | .named name, h, _ => by
    rw [resolveWith, resolveWith]
    exact related_resolveName hexp h
  | .array elem, h, _ | .promise elem, h, _ => by
    rw [resolveWith, resolveWith]
    exact L.bind (related_resolveWith elem h.parts.2) fun _ ht => L.pure (L.app (.cons ht .nil))
  | .map key value, h, _ => by
    rw [resolveWith, resolveWith]
    refine L.bind_discard (related_resolveWith key h.parts.2.1) fun _ => ?_
    exact L.bind (related_resolveWith value h.parts.2.2) fun _ ht => L.pure (L.app (.cons ht .nil))
  | .func params ret, h, _ => by
    rw [resolveWith, resolveWith]
    refine L.bind (related_resolveParams params h.parts.2.1) fun _ hts => ?_
    split
    · exact L.pure (L.arrow hts L.const)
    · exact L.bind (related_resolveWith ret h.parts.2.2) fun hw ht => L.pure (L.arrow (L.mono_all hw hts) ht)
  | .structRef name args, h, _ => by
    rw [resolveWith, resolveWith]
    refine L.bind_scope fun hσ => ?_
    have hkind := h.parts.1 name rfl hσ
    rw [structDecl?] at hkind ⊢
    rw [structDecl?, (L.scope hσ).decl?]
    split
    · exact L.throw .undeclared
    next d hd => exact L.bind (related_resolveAll args h.parts.2) fun _ hts => hexp d (hkind d hd) hts
  | .enumRef name args, h, _ => by
    rw [resolveWith, resolveWith]
    refine L.bind_scope fun hσ => ?_
    rw [enumDecl?, enumDecl?, (L.scope hσ).decl?]
    split
    · exact L.throw .undeclared
    next d _ => exact L.bind (related_resolveAll args h.parts.2) fun _ hts => related_enumType d hts
  | .generic tparams base, h, _ => by
    rw [resolveWith, resolveWith]
    exact L.within (L.bind_discard (related_declareTypeParams tparams .nil) fun _ =>
      related_resolveWith base h.parts.2)

theorem related_resolveParams : ∀ (ps : List Param), (∀ p ∈ ps, L.Mentions kind p.ann) → ∀ {w : L.World},
    L.rel w L.all (resolveParams expand ps) (resolveParams expand' ps)
  | [], _, _ => by
    rw [resolveParams, resolveParams]
    exact L.pure .nil
  | ⟨_, ann, variadic⟩ :: ps, h, _ => by
    rw [resolveParams, resolveParams]
    obtain ⟨hann, hps⟩ := forall_mem_cons.1 h
    refine L.bind (related_paramType (related_resolveWith ann hann) _ variadic) fun _ ht => ?_
    exact L.bind (related_resolveParams ps hps) fun hw hts => L.pure (.cons (L.mono hw ht) hts)

theorem related_resolveAll : ∀ (es : List TypeExpr), (∀ e ∈ es, L.Mentions kind e) → ∀ {w : L.World},
    L.rel w L.all (resolveAll expand es) (resolveAll expand' es)
  | [], _, _ => by
    rw [resolveAll, resolveAll]
    exact L.pure .nil
  | e :: es, h, _ => by
    rw [resolveAll, resolveAll]
    obtain ⟨he, hes⟩ := forall_mem_cons.1 h
    refine L.bind (related_resolveWith e he) fun _ ht => ?_
    exact L.bind (related_resolveAll es hes) fun hw hts => L.pure (.cons (L.mono hw ht) hts)

end

end

end

variable {L : Logic} {w : L.World} {t t' u u' : Ty} {ts ts' : List Ty}

theorem related_resolveDepth (depth : Nat) (e : TypeExpr) {w : L.World} :
    L.Types w (resolveDepth depth e) (resolveDepth depth e) := by
  have hkind {e : TypeExpr} : L.Mentions (fun _ => True) e := fun _ _ _ _ _ _ _ _ _ _ => trivial
  induction depth generalizing e w with
  | zero =>
    have hnone : L.Expands (fun _ => True) (fun d _ => throw (.recursiveStruct d.name))
        fun d _ => throw (.recursiveStruct d.name) := fun d _ _ _ _ _ => L.recursive d.name
    exact related_resolveWith hnone e hkind
  | succ depth ih =>
    have hexp : L.Expands (fun _ => True) (structType (resolveDepth depth)) (structType (resolveDepth depth)) :=
      fun d _ _ _ _ => related_structType (L.record d.name · (by simp)) fun f _ => ih f.ann
    exact related_resolveWith hexp e hkind

theorem related_resolve (e : TypeExpr) {w : L.World} : L.Types w (resolve e) (resolve e) := by
  refine L.bind_scope fun hσ => ?_
  rw [(L.scope hσ).structDepth]
  exact related_resolveDepth _ e

theorem related_expandStruct (d : StructDecl) (h : L.all w ts ts') : L.Types w (expandStruct d ts) (expandStruct d ts') :=
  related_structType (L.record d.name · (by simp)) (fun f _ => related_resolve f.ann) h

theorem related_resolveIfWritten (e : TypeExpr) : L.Types w (resolveIfWritten e) (resolveIfWritten e) := by
  unfold resolveIfWritten
  split
  · exact L.pure L.missing
  · exact related_resolve e

theorem related_resolveOrNew (e : TypeExpr) {w : L.World} : L.Types w (resolveOrNew e) (resolveOrNew e) := by
  refine L.bind L.fresh fun _ ht => ?_
  split
  · exact L.pure ht
  · exact related_resolve e

/-! ## Operators -/

theorem related_expectBoolean (ht : L.type w t t') : L.Still w (expectBoolean t) (expectBoolean t') := by
  unfold expectBoolean
  rw [(L.parallel ht).isMissing]
  split
  · exact L.equate ht L.const
  · exact L.pure ⟨rfl, rfl⟩

theorem related_expectValue (op : String) (ht : L.type w t t') :
    L.Still w (expectValue op t) (expectValue op t') := by
  unfold expectValue
  rw [(L.parallel ht).isMissing]
  split
  · exact L.throw .invalidOperands
  · exact L.pure ⟨rfl, rfl⟩

/-- Types that are made one, and what comes of it. -/
theorem related_equated (ht : L.type w t t') (hu : L.type w u u') {r r' : Ty} (hr : L.type w r r') :
    L.Types w (equate t u >>= fun _ => pure r) (equate t' u' >>= fun _ => pure r') :=
  L.bind_still (L.equate ht hu) fun _ => L.pure hr

theorem related_sumType (ht : L.type w t t') (hu : L.type w u u') : L.Types w (sumType t u) (sumType t' u') := by
  refine L.get fun hσ => ?_
  rw [L.addition hσ ht hu]
  split
  · exact L.throw (.operator ht hu)
  · refine L.bind_discard (L.require _ ht) fun hw₁ => L.bind_discard (L.require _ (L.mono hw₁ hu)) fun hw₂ => ?_
    have hw := hw₁.trans hw₂
    exact related_equated (L.mono hw ht) (L.mono hw hu) (L.mono hw ht)
  · exact related_equated ht hu ht

theorem related_binaryType (op : String) (ht : L.type w t t') (hu : L.type w u u') :
    L.Types w (binaryType op t u) (binaryType op t' u') := by
  unfold binaryType
  split
  · exact related_sumType ht hu
  · split
    · exact L.throw .unsupportedOperator
    · refine L.bind_still (L.require _ ht) fun b => ?_
      dsimp only
      split
      · exact L.throw (.operator ht hu)
      · refine L.bind_still (L.require _ hu) fun b => ?_
        split
        · exact L.throw (.operator ht hu)
        · refine related_equated ht hu ?_
          split
          · exact ht
          · exact L.const

theorem related_numericType (op : String) (ht : L.type w t t') :
    L.Types w (numericType op t) (numericType op t') := by
  refine L.bind_still (related_expectValue op ht) fun _ => L.bind_still (L.require _ ht) fun b => ?_
  split
  · exact L.throw (.operator ht ht)
  · exact L.pure ht

theorem related_unaryType (op : String) (ht : L.type w t t') : L.Types w (unaryType op t) (unaryType op t') := by
  unfold unaryType
  split
  · exact L.bind_still (related_expectValue op ht) fun _ => related_equated ht L.const L.const
  · exact related_numericType op ht

/-! ## Names and parts -/

/-- Each use of a name has related types. -/
def Logic.Uses (L : Logic) : Prop := ∀ name {w}, L.Types w (nameType name) (nameType name)

theorem related_declareTarget (target : Node) (ht : L.type w t t') :
    L.Still w (declareTarget target t) (declareTarget target t') := by
  unfold declareTarget
  split
  · refine L.bind_scope fun hσ => ?_
    rw [← Option.not_isSome, ← Option.not_isSome, (L.scope hσ).known]
    split
    · exact L.declare _ ht
    · exact L.pure ⟨rfl, rfl⟩
  · exact L.pure ⟨rfl, rfl⟩

theorem related_partType (key : Option String) (ht : L.type w t t') :
    L.Types w (partType t key) (partType t' key) := by
  unfold partType
  have hpart := (L.parallel ht).partType? key
  revert hpart
  generalize partType? t key = found
  generalize partType? t' key = found'
  intro h
  cases h with
  | some h => exact L.pure h
  | none => exact L.fresh

theorem related_variantType {constant : Node → Infer Ty} (hconst : ∀ n {w}, L.Types w (constant n) (constant n))
    (d : EnumDecl) (name : String) : L.Types w (variantType constant d name) (variantType constant d name) := by
  unfold variantType
  split
  · exact L.throw .undeclared
  next v _ =>
    refine L.within (L.bind (related_declareTypeParams d.tparams .nil) fun _ hps => ?_)
    refine L.bind (L.growing d.name hps) fun _ henum => ?_
    split
    · exact L.pure henum
    · exact L.bind (L.mapM v.tuple related_resolve) fun hw hts => L.pure (L.arrow hts (L.mono hw henum))
    · refine L.bind (L.mapM_named Field.name v.fields fun f _ _ _ => related_resolveOrNew f.ann) fun hw₁ hes => ?_
      refine L.bind (L.record v.name hes (by simp)) fun hw₂ ht => ?_
      exact L.pure (L.arrow (.cons ht .nil) (L.mono (hw₁.trans hw₂) henum))
    · exact L.bind_discard (hconst v.value) fun hw => L.pure (L.mono hw henum)

/-! ## Declarations -/

theorem related_heldType (ht : L.type w t t') (hu : L.type w u u') : L.Types w (heldType t u) (heldType t' u') := by
  unfold heldType
  rw [(L.parallel ht).isMissing, (L.parallel hu).isMissing]
  split
  · split
    · exact L.fresh
    · exact L.pure ht
  · split
    · exact related_equated ht hu hu
    · exact L.pure hu

theorem related_shownType (ht : L.type w t t') (hu : L.type w u u') :
    L.type w (shownType t u) (shownType t' u') := by
  cases L.parallel ht with
  | missing => exact hu
  | var => exact hu
  | con => exact hu
  | record =>
    unfold shownType
    dsimp only
    split
    · exact hu
    · exact ht

/-- What comes after the value of a variable that is new: it is declared. -/
def variableEnd (name : String) (slot : Nat) (declared found : Ty) : Infer Ty := do
  let t ← heldType declared found
  setSlot slot t
  declare name t
  return shownType declared t

theorem related_variableEnd (name : String) (slot : Nat) (ht : L.type w t t') (hu : L.type w u u') :
    L.Types w (variableEnd name slot t u) (variableEnd name slot t' u') := by
  refine L.bind (related_heldType ht hu) fun hw hheld => ?_
  refine L.bind_still (L.setSlot slot hheld) fun _ => L.bind_still (L.declare name hheld) fun _ => ?_
  exact L.pure (related_shownType (L.mono hw ht) hheld)

theorem related_variableType (name : String) (ann : TypeExpr) (slot : Nat) {value value' : Infer Ty}
    (hv : ∀ {w}, L.Types w value value') :
    L.Types w (variableType name ann slot value) (variableType name ann slot value') := by
  refine L.bind_scope fun {σ σ'} hσ => ?_
  have hlocal := L.lookupLocal? name hσ
  revert hlocal
  generalize σ.scope.lookupLocal? name = found
  generalize σ'.scope.lookupLocal? name = found'
  intro h
  cases h with
  | some h => exact L.bind_still (L.setSlot slot h) fun _ => L.pure h
  | none =>
    refine L.bind (related_resolveIfWritten ann) fun _ hd => L.bind hv fun hw hf => ?_
    exact related_variableEnd name slot (L.mono hw hd) hf

theorem related_resultTypes (hts : L.all w ts ts') (ht : L.type w t t') (annotated : Bool) :
    L.all w (resultTypes ts t annotated) (resultTypes ts' t' annotated) := by
  have hempty : ts'.isEmpty = ts.isEmpty := by cases hts <;> rfl
  unfold resultTypes
  rw [hempty, (L.parallel ht).isMissing]
  split
  · exact hts
  · split
    · exact .cons ht .nil
    · split
      · exact .nil
      · exact .cons L.const .nil

theorem related_declareParam (p : Param) {w : L.World} : L.Types w (declareParam p) (declareParam p) :=
  L.bind (related_paramType (related_resolve p.ann) _ p.variadic) fun _ ht =>
    L.bind_still (L.declare p.name ht) fun _ => L.pure ht

/-- What comes before the body of a function: its type, which is declared, and that of its result. -/
def functionHead (name : String) (sig : Signature) : Infer (Ty × Ty) := do
  discard <| declareTypeParams sig.tparams []
  let params ← sig.params.mapM declareParam
  let ret ← resolveOrNew sig.ret
  let t := functionTy sig params ret
  declareFunction name t
  return (t, ret)

/-- What comes after the body of a function: the types that it returns are asked to be that of its
result. -/
def functionEnd (sig : Signature) (ret value : Ty) : Infer Unit := do
  (resultTypes (← scope).returned value (!sig.ret.isMissing)).forM (equate ret)

theorem functionType_eq (name : String) (sig : Signature) (body : Infer Ty) :
    functionType name sig body = within .function (do
      let head ← functionHead name sig
      functionEnd sig head.2 (← body)
      return head.1) := by
  simp only [functionType, functionHead, functionEnd, functionTy, returned, bind_assoc, pure_bind]

/-- The types of a function and of its result, given what is said of the declaration of the function. -/
theorem related_functionHead {name : String} (sig : Signature)
    (hname : ∀ {w t t'}, L.type w t t' → L.Still w (declareFunction name t) (declareFunction name t')) :
    L.rel w (fun w' r r' => L.type w' r.1 r'.1 ∧ L.type w' r.2 r'.2) (functionHead name sig)
      (functionHead name sig) := by
  refine L.bind_discard (related_declareTypeParams sig.tparams .nil) fun _ => ?_
  refine L.bind (L.mapM sig.params related_declareParam) fun _ hps => ?_
  refine L.bind (related_resolveOrNew sig.ret) fun hw hret => ?_
  refine (fun ht => L.bind_still (hname ht) fun _ => L.pure ⟨ht, hret⟩) (L.arrow (L.mono_all hw hps) ?_)
  split
  · exact L.app (.cons hret .nil)
  · exact hret

theorem related_functionEnd (sig : Signature) (ht : L.type w t t') (hu : L.type w u u') :
    L.Still w (functionEnd sig t u) (functionEnd sig t' u') :=
  L.bind_scope fun hσ => L.forM (related_resultTypes (L.returned hσ) hu _) fun _ _ h => L.equate ht h

/-- What is done in the frame of a function. -/
theorem related_functionBody {name : String} {sig : Signature} {body body' : Infer Ty}
    (hname : ∀ {w t t'}, L.type w t t' → L.Still w (declareFunction name t) (declareFunction name t'))
    (hb : ∀ {w}, L.Types w body body') : L.Types w (do
      let head ← functionHead name sig
      functionEnd sig head.2 (← body)
      return head.1) (do
      let head ← functionHead name sig
      functionEnd sig head.2 (← body')
      return head.1) := by
  refine L.bind (related_functionHead sig hname) fun _ hhead => L.bind hb fun hw hv => ?_
  exact L.bind_still (related_functionEnd sig (L.mono hw hhead.2) hv) fun _ => L.pure (L.mono hw hhead.1)

/-- Functions have related types if their bodies have. -/
def Logic.Functional (L : Logic) : Prop := ∀ name sig {body body'}, (∀ {w}, L.Types w body body') → ∀ {w},
  L.Types w (functionType name sig body) (functionType name sig body')

/-- A declaration outside of the innermost frame is allowed. -/
def Logic.Outside (L : Logic) : Prop :=
  ∀ name {w t t'}, L.type w t t' → L.Still w (declareOutside name t) (declareOutside name t')

theorem related_declareFunction (h : L.Outside) (name : String) (ht : L.type w t t') :
    L.Still w (declareFunction name t) (declareFunction name t') := by
  unfold declareFunction
  split
  · exact L.pure ⟨rfl, rfl⟩
  · exact h name ht

theorem functional_of_outside (h : L.Outside)
    (hwithin : ∀ {w x x'}, L.Types w x x' → L.Types w (within .function x) (within .function x')) :
    L.Functional := by
  intro name sig body body' hb w
  rw [functionType_eq, functionType_eq]
  exact hwithin (related_functionBody (related_declareFunction h name) hb)

/-! ## Calls and literals -/

theorem related_callType (awaited : Bool) (ht : L.type w t t') (hts : L.all w ts ts') :
    L.Types w (callType awaited t ts) (callType awaited t' ts') := by
  refine L.bind L.fresh fun {w' new new'} hw hnew => ?_
  have hret : L.type w' (if awaited then .app promiseName [new] else new)
      (if awaited then .app promiseName [new'] else new') := by
    split
    · exact L.app (.cons hnew .nil)
    · exact hnew
  dsimp only
  rw [(L.parallel ht).isMissing]
  split
  · exact related_equated (L.mono hw ht) (L.arrow (L.mono_all hw hts) hret) hret
  · exact L.pure hret

theorem related_awaitedType (ht : L.type w t t') : L.Types w (awaitedType t) (awaitedType t') := by
  cases L.parallel ht with
  | missing => exact L.pure ht
  | record => exact L.pure ht
  | con _ _ h =>
    rcases h with _ | ⟨h, _ | ⟨_, _⟩⟩
    · exact L.pure ht
    · refine L.pure ?_
      split
      · exact h
      · exact ht
    · exact L.pure ht
  | var =>
    refine L.bind L.fresh fun hw helem => ?_
    exact related_equated (L.mono hw ht) (L.app (.cons helem .nil)) helem

theorem related_structLitType (d : StructDecl) (name : String) (ht : L.type w t t') :
    L.Types w (structLitType d name t) (structLitType d name t') := by
  cases L.parallel ht with
  | missing => exact L.pure ht
  | var => exact L.pure ht
  | con => exact L.pure ht
  | record =>
    refine L.get fun hσ => L.bind (related_expandStruct d .nil) fun hw hexp => ?_
    refine (fun hshown => related_equated hexp hshown hshown) (L.mono hw ?_)
    split
    · exact L.struct name hσ ht
    · exact ht

/-! ## Nodes -/

section

set_option linter.unusedSectionVars false

variable {constant : Node → Infer Ty}

/-- The types of two operands, which have values. -/
theorem related_values {op : String} {x x' : Infer Ty} (ht : L.type w t t') (hu : L.type w u u')
    (hx : L.Types w x x') : L.Types w (do
      expectValue op t
      expectValue op u
      x) (do
      expectValue op t'
      expectValue op u'
      x') :=
  L.bind_still (related_expectValue op ht) fun _ => L.bind_still (related_expectValue op hu) fun _ => hx

/-- Two operands, which have values. -/
theorem related_operands {op : String} {x x' y y' : Infer Ty} {f f' : Ty → Ty → Infer Ty}
    (hx : L.Types w x x') (hy : ∀ {w}, L.Types w y y')
    (hf : ∀ {w t t' u u'}, L.type w t t' → L.type w u u' → L.Types w (f t u) (f' t' u')) : L.Types w (do
      let t ← x
      let u ← y
      expectValue op t
      expectValue op u
      f t u) (do
      let t ← x'
      let u ← y'
      expectValue op t
      expectValue op u
      f' t u) :=
  L.bind hx fun _ ht => L.bind hy fun hw hu =>
    have ht := L.mono hw ht
    related_values ht hu (hf ht hu)

variable (huse : L.Uses) (hfun : L.Functional) (hconst : ∀ n {w}, L.Types w (constant n) (constant n))
include huse hfun hconst

mutual

theorem related_inferWith : ∀ (n : Node) {w : L.World}, L.Types w (inferWith constant n) (inferWith constant n)
  | .missing, _ | .breaks, _ | .continues, _ => by
    simp only [inferWith]
    exact L.pure L.missing
  | .program body, _ => by
    simp only [inferWith]
    exact L.bind_discard (related_inferLast body L.missing) fun _ => L.pure L.missing
  | .block body, _ => by
    simp only [inferWith]
    exact L.within (related_inferLast body L.missing)
  | .exprStmt expr, _ => by
    simp only [inferWith]
    refine L.bind (related_inferWith expr) fun _ ht => L.pure ?_
    split
    · exact L.missing
    · exact ht
  | .ifElse cond yes no, _ => by
    simp only [inferWith]
    refine L.bind (related_inferWith cond) fun _ hc => L.bind_still (related_expectBoolean hc) fun _ => ?_
    refine L.bind (related_inferWith yes) fun _ ht => ?_
    exact L.bind_discard (related_inferWith no) fun hw => L.pure (L.mono hw ht)
  | .whileLoop cond body, _ => by
    simp only [inferWith]
    refine L.bind (related_inferWith cond) fun _ hc => L.bind_still (related_expectBoolean hc) fun _ => ?_
    exact L.bind_discard (L.within (related_inferWith body)) fun _ => L.pure L.missing
  | .forLoop init cond step body, _ => by
    simp only [inferWith]
    refine L.within (L.bind_discard (related_inferWith init) fun _ => ?_)
    refine L.bind (related_inferWith cond) fun _ hc => L.bind_still (related_expectBoolean hc) fun _ => ?_
    refine L.bind_discard (related_inferWith step) fun _ => ?_
    exact L.bind_discard (L.within (related_inferWith body)) fun _ => L.pure L.missing
  | .returns value, _ => by
    simp only [inferWith]
    refine L.bind (related_inferWith value) fun _ ht => ?_
    rw [(L.parallel ht).isMissing]
    refine L.bind_still (L.addReturn ?_) fun _ => L.pure L.missing
    split
    · exact L.const
    · exact ht
  | .lets vars, _ => by
    simp only [inferWith]
    exact L.bind (related_inferVars vars) fun _ _ => L.pure L.missing
  | .var ⟨name, ann, value, slot⟩, _ => by
    simp only [inferWith]
    exact related_variableType name ann slot (related_inferWith value)
  | .func name sig body, _ => by
    simp only [inferWith]
    exact L.bind_discard (hfun name sig (related_inferWith body)) fun _ => L.pure L.missing
  | .lambda sig body, _ => by
    simp only [inferWith]
    exact hfun "" sig (related_inferWith body)
  | .structDecl d, _ | .enumDecl d, _ => by
    simp only [inferWith]
    exact L.bind_still (L.declareDecl d.name _) fun _ => L.pure L.missing
  | .number _ _, _ | .string _, _ | .bool _, _ => by
    simp only [inferWith]
    exact L.pure L.const
  | .ident name, _ => by
    simp only [inferWith]
    exact huse name
  | .binary op left right, _ => by
    simp only [inferWith]
    exact related_operands (related_inferWith left) (related_inferWith right) (related_binaryType op)
  | .logical op left right, _ => by
    simp only [inferWith]
    refine related_operands (related_inferWith left) (related_inferWith right) fun ht hu => ?_
    exact L.bind_still (L.equate ht L.const) fun _ => related_equated hu L.const L.const
  | .unary op x, _ => by
    simp only [inferWith]
    exact L.bind (related_inferWith x) fun _ => related_unaryType op
  | .update op x _, _ => by
    simp only [inferWith]
    exact L.bind (related_inferWith x) fun _ => related_numericType op
  | .assign op target value, _ => by
    simp only [inferWith]
    refine related_operands (related_inferWith target) (related_inferWith value) fun ht hu => ?_
    exact L.bind_still (L.equate ht hu) fun _ => L.bind_still (related_declareTarget target ht) fun _ => L.pure ht
  | .ternary cond yes no, _ => by
    simp only [inferWith]
    refine L.bind (related_inferWith cond) fun _ hc => L.bind_still (related_expectBoolean hc) fun _ => ?_
    exact related_operands (related_inferWith yes) (related_inferWith no) fun ht hu => related_equated ht hu ht
  | .sequence exprs, _ => by
    simp only [inferWith]
    exact related_inferLast exprs L.missing
  | .call callee args, _ => by
    simp only [inferWith]
    refine L.bind (related_inferWith callee) fun _ ht => ?_
    exact L.bind (related_inferArgs args) fun hw hts => related_callType false (L.mono hw ht) hts
  | .await expr, _ => by
    cases expr with
    | call callee args =>
      simp only [inferWith]
      refine L.bind (related_inferWith callee) fun _ ht => L.bind (related_inferArgs args) fun hw hts => ?_
      exact L.bind (related_callType true (L.mono hw ht) hts) fun _ => related_awaitedType
    | _ =>
      rw [inferWith_await constant (by simp)]
      exact L.bind (related_inferWith _) fun _ => related_awaitedType
  | .member obj property _, _ => by
    simp only [inferWith]
    refine L.bind_scope fun {σ σ'} hσ => ?_
    have henum : enumOf? σ'.scope obj = enumOf? σ.scope obj := by
      unfold enumOf? enumDecl?
      simp only [(L.scope hσ).known, (L.scope hσ).decl?]
    rw [henum]
    split
    next d _ => exact related_variantType hconst d property
    next => exact L.bind (related_inferWith obj) fun _ => related_partType (some property)
  | .index obj position, _ => by
    simp only [inferWith]
    refine L.bind (related_inferWith obj) fun _ ht => ?_
    exact L.bind_discard (related_inferWith position) fun hw => related_partType position.string? (L.mono hw ht)
  | .array elems, _ => by
    simp only [inferWith]
    refine L.bind (related_inferElems elems L.missing) fun _ ht => ?_
    rw [(L.parallel ht).isMissing]
    refine L.pure (L.app (.cons ?_ .nil))
    split
    · exact L.const
    · exact ht
  | .object props, _ => by
    simp only [inferWith]
    exact L.bind (related_inferProps props) fun _ h => L.record Ty.anonymous h (by simp)
  | .structLit name obj, _ => by
    simp only [inferWith]
    refine L.bind_scope fun hσ => ?_
    rw [structDecl?, structDecl?, (L.scope hσ).decl?]
    split
    · exact L.throw .undeclared
    next d _ =>
      split
      · exact related_structLitType d name L.empty
      · exact L.bind (related_inferWith obj) fun _ => related_structLitType d name
  | .type e, _ => by
    simp only [inferWith]
    exact related_resolve e

theorem related_inferLast : ∀ (ns : List Node) {w : L.World} {t t' : Ty}, L.type w t t' →
    L.Types w (inferLast constant t ns) (inferLast constant t' ns)
  | [], _, _, _, h => by
    simp only [inferLast]
    exact L.pure h
  | n :: ns, _, _, _, _ => by
    simp only [inferLast]
    exact L.bind (related_inferWith n) fun _ => related_inferLast ns

theorem related_inferVars : ∀ (vs : List (VariableOf Node)) {w : L.World},
    L.rel w (fun _ _ _ => True) (inferVars constant vs) (inferVars constant vs)
  | [], _ => by
    simp only [inferVars]
    exact L.pure trivial
  | ⟨name, ann, value, slot⟩ :: vs, _ => by
    simp only [inferVars]
    refine L.bind_discard (related_variableType name ann slot (related_inferWith value)) fun _ => ?_
    exact related_inferVars vs

theorem related_inferArgs : ∀ (ns : List Node) {w : L.World},
    L.rel w L.all (inferArgs constant ns) (inferArgs constant ns)
  | [], _ => by
    simp only [inferArgs]
    exact L.pure .nil
  | n :: ns, _ => by
    simp only [inferArgs]
    refine L.bind (related_inferWith n) fun _ ht => L.bind_still (related_expectValue "()" ht) fun _ => ?_
    exact L.bind (related_inferArgs ns) fun hw hts => L.pure (.cons (L.mono hw ht) hts)

theorem related_inferElems : ∀ (ns : List Node) {w : L.World} {t t' : Ty}, L.type w t t' →
    L.Types w (inferElems constant t ns) (inferElems constant t' ns)
  | [], _, _, _, h => by
    simp only [inferElems]
    exact L.pure h
  | n :: ns, _, t, t', h => by
    simp only [inferElems]
    refine L.bind (related_inferWith n) fun {w' u u'} hw hu => ?_
    have h := L.mono hw h
    have hnext : L.type w' (if t.isMissing then u else t) (if t.isMissing then u' else t') := by
      split
      · exact hu
      · exact h
    rw [(L.parallel h).isMissing, (L.parallel hu).isMissing]
    split
    · exact L.bind_still (L.equate h hu) fun _ => related_inferElems ns hnext
    · exact related_inferElems ns hnext

theorem related_inferProps : ∀ (ps : List (String × Node)) {w : L.World},
    L.rel w L.named (inferProps constant ps) (inferProps constant ps)
  | [], _ => by
    simp only [inferProps]
    exact L.pure .nil
  | (key, n) :: ps, _ => by
    simp only [inferProps]
    refine L.bind (related_inferWith n) fun _ ht => L.bind (related_inferProps ps) fun hw hes => L.pure ?_
    rw [(L.parallel ht).isMissing]
    split
    · exact hes
    · exact .cons ⟨rfl, L.mono hw ht⟩ hes

end

end

/-- The types of a node are related. -/
theorem related_inferDepth (huse : L.Uses) (hfun : L.Functional) (depth : Nat) (n : Node) {w : L.World} :
    L.Types w (inferDepth depth n) (inferDepth depth n) := by
  induction depth generalizing n w with
  | zero => exact related_inferWith huse hfun (fun _ _ => L.throw .recursiveConstant) n
  | succ depth ih => exact related_inferWith huse hfun ih n

end Infer

end ScriptTyping
