import ScriptTyping.Proofs.RenumberedInference
import ScriptTyping.Proofs.Visits

/-!
# What the fields of a struct mean in inner scopes

A struct is expanded where it is used, and the annotations of its fields are resolved there. So a type
parameter or a declaration that comes between the struct and its use can change what they mean. It does
so only by a name that is looked up outside of the struct: `Seeks` says which names these are. The names
of the type parameters of the struct itself, of structs around it and of generic annotations are not
among them.

If an inner scope agrees with an outer one on what is sought, then a struct that has a type in the outer
scope has the same type in the inner one, up to the numbers of what is drawn on the way.

The argument has two halves. Here, one supply is taken and the scope is changed, and nothing but the
scope differs (`Infer.Carries`). With the scope left as it is, another supply gives other numbers
(`RenumberedInference`).

Main statements: `expandStruct_inner`, and `expandStruct_captured` for a name that is taken.
-/

namespace ScriptTyping

open Ty List Dict Scope TypeParam

/-! ## Names that are looked up -/

/-- A name that is looked up as a type or as a struct or enum. -/
inductive Sought where
  | type (name : String)
  | decl (name : String)

/-- A name that stands for itself. -/
def Primitive (prims : List String) (name : String) : Prop :=
  name ∈ prims ∨ name = Ty.void ∨ name = Ty.unknown

/-- What an annotation looks up in a scope, where some names are type parameters that were bound on the
way. Structs are followed into their fields. -/
inductive Seeks (prims : List String) (sc : Scope) : (String → Prop) → TypeExpr → Sought → Prop
  | type {bound name} (hp : ¬ Primitive prims name) (hb : ¬ bound name) :
    Seeks prims sc bound (.named name) (.type name)
  | expansion {bound name d f q} (hp : ¬ Primitive prims name) (hb : ¬ bound name) (ht : sc.tparam? name = none)
    (hd : sc.decl? name = some (.structDecl d)) (hf : f ∈ d.fields)
    (h : Seeks prims sc (fun n => n ∈ d.tparams.map TypeParam.name ∨ bound n) f.ann q) :
    Seeks prims sc bound (.named name) q
  | array {bound elem q} (h : Seeks prims sc bound elem q) : Seeks prims sc bound (.array elem) q
  | mapKey {bound key value q} (h : Seeks prims sc bound key q) : Seeks prims sc bound (.map key value) q
  | mapValue {bound key value q} (h : Seeks prims sc bound value q) : Seeks prims sc bound (.map key value) q
  | promise {bound elem q} (h : Seeks prims sc bound elem q) : Seeks prims sc bound (.promise elem) q
  | param {bound params ret p q} (hp : p ∈ params) (h : Seeks prims sc bound p.ann q) :
    Seeks prims sc bound (.func params ret) q
  | result {bound params ret q} (h : Seeks prims sc bound ret q) : Seeks prims sc bound (.func params ret) q
  | struct {bound name args} : Seeks prims sc bound (.structRef name args) (.decl name)
  | structArg {bound name args e q} (he : e ∈ args) (h : Seeks prims sc bound e q) :
    Seeks prims sc bound (.structRef name args) q
  | structField {bound name args d f q} (hd : sc.decl? name = some (.structDecl d)) (hf : f ∈ d.fields)
    (h : Seeks prims sc (fun n => n ∈ d.tparams.map TypeParam.name ∨ bound n) f.ann q) :
    Seeks prims sc bound (.structRef name args) q
  | enum {bound name args} : Seeks prims sc bound (.enumRef name args) (.decl name)
  | enumArg {bound name args e q} (he : e ∈ args) (h : Seeks prims sc bound e q) :
    Seeks prims sc bound (.enumRef name args) q
  | generic {bound} {tparams : List TypeParam} {base q}
    (h : Seeks prims sc (fun n => n ∈ tparams.map name ∨ bound n) base q) :
    Seeks prims sc bound (.generic tparams base) q

/-- What the fields of a struct look up. -/
def StructDecl.Seeks (prims : List String) (sc : Scope) (bound : String → Prop) (d : StructDecl)
    (q : Sought) : Prop :=
  ∃ f ∈ d.fields, ScriptTyping.Seeks prims sc (fun n => n ∈ d.tparams.map TypeParam.name ∨ bound n) f.ann q

/-- The two scopes give the same for what is sought. A name that is a type parameter is not looked up
as anything else. -/
def Scope.AgreeOn (outer inner : Scope) : Sought → Prop
  | .type name => inner.tparam? name = outer.tparam? name ∧
    (outer.tparam? name = none → inner.decl? name = outer.decl? name)
  | .decl name => inner.decl? name = outer.decl? name

/-! ## Local frames -/

/-- A frame in which only type parameters are declared. -/
structure Frame.Local (f : Frame) : Prop where
  decls : f.decls = []
  classes : f.classes = []
  members : f.members = []

def Scope.Binds (sc : Scope) (name : String) : Prop := (sc.tparam? name).isSome = true

namespace Scope

variable {locals outer inner : Scope} {name : String}

theorem tparam?_append : tparam? (locals ++ outer) name = (locals.tparam? name).or (outer.tparam? name) :=
  findSome?_append

theorem decl?_locals (h : ∀ f ∈ locals, f.Local) : decl? (locals ++ outer) name = outer.decl? name := by
  have hnone : locals.findSome? (fun f => Dict.get? f.decls name) = none := by
    rw [findSome?_eq_none_iff]
    intro f hf
    rw [(h f hf).decls, get?_nil]
  unfold decl?
  rw [findSome?_append, hnone, Option.none_or]

theorem structDecl?_locals (h : ∀ f ∈ locals, f.Local) :
    structDecl? (locals ++ outer) name = outer.structDecl? name := by
  rw [structDecl?, decl?_locals h, structDecl?]

theorem enumDecl?_locals (h : ∀ f ∈ locals, f.Local) :
    enumDecl? (locals ++ outer) name = outer.enumDecl? name := by
  rw [enumDecl?, decl?_locals h, enumDecl?]

theorem structWeight_append (sc : Scope) :
    structWeight (sc ++ outer) = sc.structWeight + outer.structWeight := by
  have hfold (l : Scope) (n : Nat) : l.foldl (fun w f => w + f.structWeight) n =
      n + l.foldl (fun w f => w + f.structWeight) 0 := by
    induction l generalizing n with
    | nil => rfl
    | cons f l ih =>
      simp only [foldl_cons]
      rw [ih (n + f.structWeight), ih (0 + f.structWeight)]
      omega
  unfold structWeight
  rw [foldl_append, hfold]

end Scope

/-- The inner scope has the classes of the outer one and as many structs, and the same is registered. -/
structure Scope.Within (outer inner : Scope) : Prop where
  classes : ∀ c, outer.declaresClass c = true → inner.declaresClass c = true
  instances : inner.instances = outer.instances
  weight : outer.structWeight ≤ inner.structWeight

namespace Scope.Within

variable {outer inner : Scope}

theorem cons (h : outer.Within inner) {f : Frame} (hf : f.Local) : Within (f :: outer) (f :: inner) := by
  have hdeclares (sc : Scope) (c : String) : declaresClass (f :: sc) c = sc.declaresClass c := by
    simp [declaresClass, hf.classes, ClassSet.has]
  refine ⟨fun c hc => ?_, ?_, ?_⟩
  · rw [hdeclares] at hc ⊢
    exact h.classes c hc
  · rw [instances_cons hf.members, instances_cons hf.members, h.instances]
  · have hweight := h.weight
    show structWeight ([f] ++ outer) ≤ structWeight ([f] ++ inner)
    rw [structWeight_append, structWeight_append]
    omega

theorem locals (h : outer.Within inner) {locals : Scope} (hl : ∀ f ∈ locals, f.Local) :
    Within (locals ++ outer) (locals ++ inner) := by
  induction locals with
  | nil => exact h
  | cons f locals ih =>
    exact (ih fun g hg => hl g (mem_cons_of_mem _ hg)).cons (hl f mem_cons_self)

theorem structDepth (h : outer.Within inner) : outer.structDepth ≤ inner.structDepth :=
  Nat.mul_le_mul (Nat.succ_le_succ h.weight) (Nat.succ_le_succ h.weight)

end Scope.Within

/-- A scope is within another if it has more frames, and they do not change what is registered. -/
theorem Scope.within_append {between sc : Scope} (h : instances (between ++ sc) = sc.instances) :
    sc.Within (between ++ sc) := by
  refine ⟨fun c hc => ?_, h, ?_⟩
  · rw [declaresClass, any_append, Bool.or_eq_true]
    exact .inr hc
  · rw [structWeight_append]
    exact Nat.le_add_left ..

/-! ## Computations in two scopes -/

/-- Two states that differ in their scopes and in what does not count for types. -/
structure Inference.Beside (prims : List String) (sc sc' : Scope) (σ σ' : Inference) : Prop where
  primitives : σ.primitives = prims ∧ σ'.primitives = prims
  scope : σ.scope = sc
  scope' : σ'.scope = sc'
  supply : σ'.supply = σ.supply

namespace Infer

variable {α β : Type} {prims : List String} {sc sc' : Scope} {A C : Inference → Inference → Prop}

/-- If the first computation comes to a result, then so does the second one, and to the same. -/
def Carries (A : Inference → Inference → Prop) (x x' : Infer α) (B : α → Inference → Inference → Prop) :
    Prop :=
  ∀ σ σ' r τ, A σ σ' → Ran x σ r τ → ∃ τ', Ran x' σ' r τ' ∧ B r τ τ'

/-- The computation comes to the same in two scopes, and leaves them as they are. -/
abbrev CarriesIn (prims : List String) (sc sc' : Scope) (x x' : Infer α) : Prop :=
  Carries (Inference.Beside prims sc sc') x x' fun _ => Inference.Beside prims sc sc'

namespace Carries

variable {B : α → Inference → Inference → Prop} {D : β → Inference → Inference → Prop} {x x' : Infer α}

theorem pure {r : α} (h : ∀ σ σ', A σ σ' → B r σ σ') : Carries A (pure r) (pure r) B := by
  intro σ σ' r' τ hσ hx
  obtain ⟨rfl, rfl⟩ := ran_pure.1 hx
  exact ⟨σ', ran_pure.2 ⟨rfl, rfl⟩, h _ σ' hσ⟩

theorem throw {e : CheckError} : Carries A (throw e) x' B := fun _ _ _ _ _ hx => absurd hx ran_throw

theorem bind {k k' : α → Infer β} (hx : Carries A x x' B) (hk : ∀ r, Carries (B r) (k r) (k' r) D) :
    Carries A (x >>= k) (x' >>= k') D := by
  intro σ σ' r τ hσ hr
  obtain ⟨a, σ₁, ha, hr⟩ := ran_bind.1 hr
  obtain ⟨σ₁', ha', hσ₁⟩ := hx σ σ' a σ₁ hσ ha
  obtain ⟨τ', hr', hτ⟩ := hk a σ₁ σ₁' r τ hσ₁ hr
  exact ⟨τ', ran_bind.2 ⟨a, σ₁', ha', hr'⟩, hτ⟩

theorem discard {B : Inference → Inference → Prop} (hx : Carries A x x' fun _ => B) :
    Carries A (discard x) (discard x') fun _ => B := by
  intro σ σ' r τ hσ hr
  obtain ⟨a, ha⟩ := ran_discard.1 hr
  obtain ⟨τ', ha', hτ⟩ := hx σ σ' a τ hσ ha
  exact ⟨τ', ran_discard.2 ⟨a, ha'⟩, hτ⟩

theorem mapM {k k' : α → Infer β} {xs : List α} (h : ∀ x ∈ xs, Carries A (k x) (k' x) fun _ => A) :
    Carries A (xs.mapM k) (xs.mapM k') fun _ => A := by
  induction xs with
  | nil => exact .pure fun _ _ hσ => hσ
  | cons x xs ih =>
    rw [mapM_cons, mapM_cons]
    refine (h x mem_cons_self).bind fun y => ?_
    refine (ih fun z hz => h z (mem_cons_of_mem _ hz)).bind fun ys => ?_
    exact .pure fun _ _ hσ => hσ

theorem forM {k : α → Infer PUnit} {xs : List α} (h : ∀ x ∈ xs, Carries A (k x) (k x) fun _ => A) :
    Carries A (xs.forM k) (xs.forM k) fun _ => A := by
  induction xs with
  | nil => exact .pure fun _ _ hσ => hσ
  | cons x xs ih =>
    show Carries A (k x >>= fun _ => xs.forM k) (k x >>= fun _ => xs.forM k) _
    refine (h x mem_cons_self).bind fun _ => ?_
    exact ih fun z hz => h z (mem_cons_of_mem _ hz)

/-- A frame that is entered, changed on the way, and left. -/
theorem within {frame : Frame} (h : Carries (Inference.Beside prims (frame :: sc) (frame :: sc')) x x'
      fun _ σ σ' => ∃ f, Inference.Beside prims (f :: sc) (f :: sc') σ σ') :
    CarriesIn prims sc sc' (within frame x) (within frame x') := by
  intro σ σ' r τ hσ hr
  obtain ⟨σ₁, hx, rfl⟩ := ran_within.1 hr
  have hentered : Inference.Beside prims (frame :: sc) (frame :: sc')
      { σ with scope := frame :: σ.scope } { σ' with scope := frame :: σ'.scope } :=
    ⟨hσ.primitives, congrArg (frame :: ·) hσ.scope, congrArg (frame :: ·) hσ.scope', hσ.supply⟩
  obtain ⟨τ', hx', f, hτ⟩ := h _ _ r σ₁ hentered hx
  refine ⟨_, ran_within.2 ⟨τ', hx', rfl⟩, hτ.primitives, ?_, ?_, hτ.supply⟩
  · rw [hτ.scope]
    rfl
  · rw [hτ.scope']
    rfl

end Carries

/-- What comes after a look at the state. -/
theorem carriesIn_get {k k' : Inference → Infer α}
    (h : ∀ σ σ', Inference.Beside prims sc sc' σ σ' → CarriesIn prims sc sc' (k σ) (k' σ')) :
    CarriesIn prims sc sc' (get >>= k) (get >>= k') := by
  intro σ σ' r τ hσ hr
  obtain ⟨_, _, hget, hr⟩ := ran_bind.1 hr
  obtain ⟨hs, ht⟩ := ran_get.1 hget
  rw [hs, ht] at hr
  obtain ⟨τ', hr', hτ⟩ := h σ σ' hσ σ σ' r τ hσ hr
  exact ⟨τ', ran_bind.2 ⟨σ', σ', ran_get.2 ⟨rfl, rfl⟩, hr'⟩, hτ⟩

/-- What comes after a look at the scope. -/
theorem carriesIn_scope {k k' : Scope → Infer α} (h : CarriesIn prims sc sc' (k sc) (k' sc')) :
    CarriesIn prims sc sc' (scope >>= k) (scope >>= k') := by
  rw [Infer.scope, bind_assoc, bind_assoc]
  refine carriesIn_get fun σ σ' hσ => ?_
  rw [pure_bind, pure_bind, hσ.scope, hσ.scope']
  exact h

/-- The innermost frame is changed on both sides. -/
theorem carries_modifyHead {f : Frame} (change : Frame → Frame) :
    Carries (Inference.Beside prims (f :: sc) (f :: sc')) (modifyScope (·.modifyHead change))
      (modifyScope (·.modifyHead change))
      fun _ => Inference.Beside prims (change f :: sc) (change f :: sc') := by
  intro σ σ' r τ hσ hr
  obtain rfl := ran_modifyScope.1 hr
  refine ⟨_, ran_modifyScope.2 rfl, hσ.primitives, ?_, ?_, hσ.supply⟩
  · rw [hσ.scope]
    rfl
  · rw [hσ.scope']
    rfl

/-- What changes only the supply comes to the same in both scopes. -/
theorem carriesIn_of_supply {x : Infer α} {g : Supply → α} {u : Supply → Supply}
    (h : ∀ {σ τ : Inference} {r : α}, Ran x σ r τ ↔ r = g σ.supply ∧ τ = { σ with supply := u σ.supply }) :
    CarriesIn prims sc sc' x x := by
  intro σ σ' r τ hσ hr
  obtain ⟨rfl, rfl⟩ := h.1 hr
  refine ⟨{ σ' with supply := u σ'.supply }, h.2 ⟨by rw [hσ.supply], rfl⟩, hσ.primitives, hσ.scope,
    hσ.scope', ?_⟩
  rw [hσ.supply]

theorem carriesIn_fresh : CarriesIn prims sc sc' fresh fresh :=
  carriesIn_of_supply (g := fun s => s.fresh.1) (u := fun s => s.fresh.2) ran_fresh

theorem carriesIn_growing {name : String} {args : List Ty} :
    CarriesIn prims sc sc' (growing name args) (growing name args) :=
  carriesIn_of_supply
    (g := fun s => .con name args { Label.none with cell := some s.attachments.fresh.1 })
    (u := fun s => { s with attachments := s.attachments.fresh.2 }) ran_growing

theorem carriesIn_record {name : String} {entries : List (String × Ty)} {classes : ClassSet} :
    CarriesIn prims sc sc' (record name entries classes) (record name entries classes) :=
  carriesIn_of_supply (g := fun s => (s.attachments.newRecord name entries classes).1)
    (u := fun s => { s with attachments := (s.attachments.newRecord name entries classes).2 }) ran_record

theorem carriesIn_require (h : sc'.instances = sc.instances) {t : Ty} {c : String} :
    CarriesIn prims sc sc' (require t c) (require t c) := by
  intro σ σ' r τ hσ hr
  have hsame : σ'.scope.instances.require? σ'.supply.attachments t c =
      σ.scope.instances.require? σ.supply.attachments t c := by
    rw [hσ.scope, hσ.scope', h, hσ.supply]
  rcases ran_require.1 hr with ⟨hnone, rfl, rfl⟩ | ⟨a, hsome, rfl, rfl⟩
  · exact ⟨σ', ran_require.2 (.inl ⟨hsame.trans hnone, rfl, rfl⟩), hσ⟩
  · refine ⟨_, ran_require.2 (.inr ⟨a, hsame.trans hsome, rfl, rfl⟩), hσ.primitives, hσ.scope, hσ.scope', ?_⟩
    rw [hσ.supply]

/-! ## Type parameters -/

theorem carriesIn_requireBound (hsc : sc.Within sc') {t : Ty} {c : String} :
    CarriesIn prims sc sc' (requireBound t c) (requireBound t c) := by
  refine carriesIn_scope ?_
  cases hdeclares : sc.declaresClass c with
  | false => exact .throw
  | true =>
    rw [hsc.classes c hdeclares]
    refine (carriesIn_require hsc.instances).bind fun b => ?_
    cases b with
    | false => exact .throw
    | true => exact .pure fun _ _ h => h

theorem carriesIn_firstOrNew {args : List Ty} :
    CarriesIn prims sc sc' (firstOrNew args) (firstOrNew args) := by
  cases args with
  | nil => exact carriesIn_fresh
  | cons t args => exact .pure fun _ _ h => h

/-- Type parameters go into the innermost frame, and nothing else does. -/
theorem carries_declareTypeParams (hsc : sc.Within sc') (ps : List TypeParam) (args : List Ty) {f : Frame}
    (hf : f.Local) : Carries (Inference.Beside prims (f :: sc) (f :: sc')) (declareTypeParams ps args)
      (declareTypeParams ps args) fun _ σ σ' => ∃ g, (g.Local ∧ ∀ name,
        (Dict.get? g.tparams name).isSome = true ↔
          name ∈ ps.map TypeParam.name ∨ (Dict.get? f.tparams name).isSome = true) ∧
        Inference.Beside prims (g :: sc) (g :: sc') σ σ' := by
  induction ps generalizing args f with
  | nil => exact .pure fun _ _ h => ⟨f, ⟨hf, by simp⟩, h⟩
  | cons p ps ih =>
    refine carriesIn_firstOrNew.bind fun t => ?_
    refine (Carries.forM fun c _ => carriesIn_requireBound (hsc.cons hf)).bind fun _ => ?_
    refine (carries_modifyHead (·.declareTypeParam p.name t)).bind fun _ => ?_
    refine (ih args.tail (f := f.declareTypeParam p.name t) ⟨hf.decls, hf.classes, hf.members⟩).bind fun ts => ?_
    refine .pure fun σ σ' ⟨g, ⟨hg, hnames⟩, hσ⟩ => ⟨g, ⟨hg, fun name => ?_⟩, hσ⟩
    rw [hnames, Frame.declareTypeParam, get?_insert, map_cons, mem_cons]
    by_cases hname : p.name = name
    · simp [hname]
    · simp [hname, Ne.symm hname]

/-- A frame of type parameters that is entered and left. -/
theorem carriesIn_withTypeParams (hsc : sc.Within sc') (ps : List TypeParam) (args : List Ty)
    {k k' : List Ty → Infer α} (hk : ∀ (g : Frame) (ts : List Ty), g.Local →
      (∀ name, (Dict.get? g.tparams name).isSome = true ↔ name ∈ ps.map TypeParam.name) →
      CarriesIn prims (g :: sc) (g :: sc') (k ts) (k' ts)) :
    CarriesIn prims sc sc' (within .empty (declareTypeParams ps args >>= k))
      (within .empty (declareTypeParams ps args >>= k')) := by
  refine .within ?_
  refine (carries_declareTypeParams hsc ps args ⟨rfl, rfl, rfl⟩).bind fun ts => ?_
  rintro σ σ' r τ ⟨g, ⟨hg, hnames⟩, hσ⟩ hr
  have hnames (name : String) : (Dict.get? g.tparams name).isSome = true ↔ name ∈ ps.map TypeParam.name := by
    rw [hnames]
    simp [Frame.empty]
  obtain ⟨τ', hr', hτ⟩ := hk g ts hg hnames σ σ' r τ hσ hr
  exact ⟨τ', hr', g, hτ⟩

theorem carriesIn_enumType (hsc : sc.Within sc') {d : EnumDecl} {args : List Ty} :
    CarriesIn prims sc sc' (enumType d args) (enumType d args) := by
  have hparams : CarriesIn prims sc sc' (within .empty (declareTypeParams d.tparams args >>= pure))
      (within .empty (declareTypeParams d.tparams args >>= pure)) :=
    carriesIn_withTypeParams hsc d.tparams args fun g ts _ _ => .pure fun _ _ h => h
  rw [bind_pure] at hparams
  exact hparams.bind fun params => carriesIn_growing

/-! ## Annotations -/

section

variable {outer inner locals : Scope}

/-- Where some frames of type parameters were entered, the scopes agree on what an annotation looks up
outside of them. -/
def Agreeing (prims : List String) (outer inner locals : Scope) (e : TypeExpr) : Prop :=
  ∀ q, Seeks prims outer locals.Binds e q → outer.AgreeOn inner q

/-- The same for the fields of a struct. -/
def AgreeingStruct (prims : List String) (outer inner locals : Scope) (d : StructDecl) : Prop :=
  ∀ q, d.Seeks prims outer locals.Binds q → outer.AgreeOn inner q

theorem Scope.binds_cons {g : Frame} {names : List String}
    (h : ∀ name, (Dict.get? g.tparams name).isSome = true ↔ name ∈ names) :
    Scope.Binds (g :: locals) = fun n => n ∈ names ∨ locals.Binds n := by
  funext n
  rw [Scope.Binds, tparam?, findSome?_cons, ← h, Scope.Binds, tparam?]
  cases Dict.get? g.tparams n <;> simp

/-- An annotation that agrees is resolved to the same. -/
def ResolvesAlike (prims : List String) (outer inner : Scope) (resolve resolve' : TypeExpr → Infer Ty) : Prop :=
  ∀ locals e, (∀ f ∈ locals, f.Local) → Agreeing prims outer inner locals e →
    CarriesIn prims (locals ++ outer) (locals ++ inner) (resolve e) (resolve' e)

/-- A struct that agrees is expanded to the same. -/
def ExpandsAlike (prims : List String) (outer inner : Scope)
    (expand expand' : StructDecl → List Ty → Infer Ty) : Prop :=
  ∀ locals d args, (∀ f ∈ locals, f.Local) → AgreeingStruct prims outer inner locals d →
    CarriesIn prims (locals ++ outer) (locals ++ inner) (expand d args) (expand' d args)

theorem expandsAlike_structType (hsc : outer.Within inner) {resolve resolve' : TypeExpr → Infer Ty}
    (hres : ResolvesAlike prims outer inner resolve resolve') :
    ExpandsAlike prims outer inner (structType resolve) (structType resolve') := by
  intro locals d args hl hd
  refine carriesIn_withTypeParams (hsc.locals hl) d.tparams args fun g params hg hnames => ?_
  have hl' : ∀ f ∈ g :: locals, f.Local := forall_mem_cons.2 ⟨hg, hl⟩
  refine Carries.bind (Carries.mapM fun f hf => ?_) fun entries => carriesIn_record
  have hfield : CarriesIn prims (g :: (locals ++ outer)) (g :: (locals ++ inner))
      (fieldType resolve params f.ann) (fieldType resolve' params f.ann) := by
    unfold fieldType
    split
    · split
      · exact .pure fun _ _ h => h
      · exact carriesIn_fresh
    · refine hres (g :: locals) f.ann hl' fun q hq => hd q ⟨f, hf, ?_⟩
      rwa [Scope.binds_cons hnames] at hq
  exact hfield.bind fun t => .pure fun _ _ h => h

theorem carriesIn_resolveName (hsc : outer.Within inner) {expand expand' : StructDecl → List Ty → Infer Ty}
    (hexp : ExpandsAlike prims outer inner expand expand') (hl : ∀ f ∈ locals, f.Local) {name : String}
    (h : Agreeing prims outer inner locals (.named name)) :
    CarriesIn prims (locals ++ outer) (locals ++ inner) (resolveName expand name)
      (resolveName expand' name) := by
  refine carriesIn_get fun σ σ' hσ => ?_
  rw [hσ.primitives.1, hσ.primitives.2, hσ.scope, hσ.scope', decl?_locals hl, decl?_locals hl,
    tparam?_append, tparam?_append]
  by_cases hprim : name ∈ prims ∨ name = Ty.void ∨ name = Ty.unknown
  · rw [if_pos hprim, if_pos hprim]
    exact .pure fun _ _ h => h
  rw [if_neg hprim, if_neg hprim]
  cases hlocal : locals.tparam? name with
  | some t => exact .pure fun _ _ h => h
  | none =>
    have hfree : ¬ locals.Binds name := by simp [Scope.Binds, hlocal]
    obtain ⟨htparam, hdecl⟩ := h (.type name) (.type hprim hfree)
    rw [Option.none_or, Option.none_or, htparam]
    cases houter : outer.tparam? name with
    | some t => exact .pure fun _ _ h => h
    | none =>
      rw [hdecl houter]
      dsimp only
      split
      next d hd =>
        refine hexp locals d [] hl fun q hq => ?_
        obtain ⟨f, hf, hq⟩ := hq
        exact h q (.expansion hprim hfree houter hd hf hq)
      next => exact carriesIn_enumType (hsc.locals hl)
      next => exact .throw

variable {expand expand' : StructDecl → List Ty → Infer Ty}

theorem carriesIn_paramType {resolve resolve' : Infer Ty} (h : CarriesIn prims sc sc' resolve resolve')
    {annotated variadic : Bool} :
    CarriesIn prims sc sc' (paramType resolve annotated variadic) (paramType resolve' annotated variadic) := by
  unfold paramType
  split
  · exact h
  · split
    · exact carriesIn_fresh.bind fun t => .pure fun _ _ h => h
    · exact carriesIn_fresh

mutual

theorem carriesIn_resolveWith (hsc : outer.Within inner) (hexp : ExpandsAlike prims outer inner expand expand') :
    ∀ (e : TypeExpr) (locals : Scope), (∀ f ∈ locals, f.Local) → Agreeing prims outer inner locals e →
      CarriesIn prims (locals ++ outer) (locals ++ inner) (resolveWith expand e) (resolveWith expand' e)
  | .missing, locals, hl, h => by
    simp only [resolveWith]
    exact .throw
  | .named name, locals, hl, h => by
    simp only [resolveWith]
    exact carriesIn_resolveName hsc hexp hl h
  | .array elem, locals, hl, h => by
    simp only [resolveWith]
    exact (carriesIn_resolveWith hsc hexp elem locals hl fun q hq => h q (.array hq)).bind
      fun t => .pure fun _ _ h => h
  | .map key value, locals, hl, h => by
    simp only [resolveWith]
    refine (carriesIn_resolveWith hsc hexp key locals hl fun q hq => h q (.mapKey hq)).discard.bind fun _ => ?_
    exact (carriesIn_resolveWith hsc hexp value locals hl fun q hq => h q (.mapValue hq)).bind
      fun t => .pure fun _ _ h => h
  | .promise elem, locals, hl, h => by
    simp only [resolveWith]
    exact (carriesIn_resolveWith hsc hexp elem locals hl fun q hq => h q (.promise hq)).bind
      fun t => .pure fun _ _ h => h
  | .func params ret, locals, hl, h => by
    simp only [resolveWith]
    refine (carriesIn_resolveParams hsc hexp params locals hl
      fun p hp q hq => h q (.param hp hq)).bind fun ts => ?_
    split
    · exact .pure fun _ _ h => h
    · exact (carriesIn_resolveWith hsc hexp ret locals hl fun q hq => h q (.result hq)).bind
        fun t => .pure fun _ _ h => h
  | .structRef name args, locals, hl, h => by
    simp only [resolveWith]
    refine carriesIn_scope ?_
    have hdecl : inner.decl? name = outer.decl? name := h (.decl name) .struct
    rw [structDecl?_locals hl, structDecl?_locals hl, structDecl?, structDecl?, hdecl]
    cases hd : outer.decl? name with
    | none => exact .throw
    | some n =>
      cases n with
      | structDecl d =>
        refine (carriesIn_resolveAll hsc hexp args locals hl
          fun e he q hq => h q (.structArg he hq)).bind fun ts => ?_
        exact hexp locals d ts hl fun q ⟨f, hf, hq⟩ => h q (.structField hd hf hq)
      | _ => exact .throw
  | .enumRef name args, locals, hl, h => by
    simp only [resolveWith]
    refine carriesIn_scope ?_
    have hdecl : inner.decl? name = outer.decl? name := h (.decl name) .enum
    rw [enumDecl?_locals hl, enumDecl?_locals hl, enumDecl?, enumDecl?, hdecl]
    cases hd : outer.decl? name with
    | none => exact .throw
    | some n =>
      cases n with
      | enumDecl d =>
        exact (carriesIn_resolveAll hsc hexp args locals hl
          fun e he q hq => h q (.enumArg he hq)).bind fun ts => carriesIn_enumType (hsc.locals hl)
      | _ => exact .throw
  | .generic tparams base, locals, hl, h => by
    simp only [resolveWith, discard_bind]
    refine carriesIn_withTypeParams (hsc.locals hl) tparams [] fun g ts hg hnames => ?_
    refine carriesIn_resolveWith hsc hexp base (g :: locals) (forall_mem_cons.2 ⟨hg, hl⟩) fun q hq => ?_
    rw [Scope.binds_cons hnames] at hq
    exact h q (.generic hq)

theorem carriesIn_resolveParams (hsc : outer.Within inner)
    (hexp : ExpandsAlike prims outer inner expand expand') : ∀ (ps : List Param) (locals : Scope),
    (∀ f ∈ locals, f.Local) → (∀ p ∈ ps, Agreeing prims outer inner locals p.ann) →
      CarriesIn prims (locals ++ outer) (locals ++ inner) (resolveParams expand ps) (resolveParams expand' ps)
  | [], locals, hl, h => by
    simp only [resolveParams]
    exact .pure fun _ _ h => h
  | ⟨_, ann, variadic⟩ :: ps, locals, hl, h => by
    simp only [resolveParams]
    refine (carriesIn_paramType (carriesIn_resolveWith hsc hexp ann locals hl
      (h _ mem_cons_self))).bind fun t => ?_
    exact (carriesIn_resolveParams hsc hexp ps locals hl
      fun p hp => h p (mem_cons_of_mem _ hp)).bind fun ts => .pure fun _ _ h => h

theorem carriesIn_resolveAll (hsc : outer.Within inner)
    (hexp : ExpandsAlike prims outer inner expand expand') : ∀ (es : List TypeExpr) (locals : Scope),
    (∀ f ∈ locals, f.Local) → (∀ e ∈ es, Agreeing prims outer inner locals e) →
      CarriesIn prims (locals ++ outer) (locals ++ inner) (resolveAll expand es) (resolveAll expand' es)
  | [], locals, hl, h => by
    simp only [resolveAll]
    exact .pure fun _ _ h => h
  | e :: es, locals, hl, h => by
    simp only [resolveAll]
    refine (carriesIn_resolveWith hsc hexp e locals hl (h e mem_cons_self)).bind fun t => ?_
    exact (carriesIn_resolveAll hsc hexp es locals hl
      fun e he => h e (mem_cons_of_mem _ he)).bind fun ts => .pure fun _ _ h => h

end

/-- Structs that are expanded deep enough on one side are so where there are more of them. -/
theorem resolvesAlike_resolveDepth (hsc : outer.Within inner) {depth depth' : Nat} (h : depth ≤ depth') :
    ResolvesAlike prims outer inner (resolveDepth depth) (resolveDepth depth') := by
  induction depth generalizing depth' with
  | zero =>
    intro locals e hl he
    cases depth' with
    | zero => exact carriesIn_resolveWith hsc (fun _ _ _ _ _ => .throw) e locals hl he
    | succ depth' => exact carriesIn_resolveWith hsc (fun _ _ _ _ _ => .throw) e locals hl he
  | succ depth ih =>
    obtain ⟨depth', rfl⟩ : ∃ k, depth' = k + 1 := ⟨depth' - 1, by omega⟩
    intro locals e hl he
    exact carriesIn_resolveWith hsc (expandsAlike_structType hsc (ih (Nat.le_of_succ_le_succ h))) e locals hl he

theorem resolvesAlike_resolve (hsc : outer.Within inner) : ResolvesAlike prims outer inner resolve resolve := by
  intro locals e hl he
  refine carriesIn_scope ?_
  exact resolvesAlike_resolveDepth hsc (hsc.locals hl).structDepth locals e hl he

/-- A struct is expanded to the same in an inner scope that agrees on what its fields look up. -/
theorem carriesIn_expandStruct (hsc : outer.Within inner) {d : StructDecl} {args : List Ty}
    (hd : AgreeingStruct prims outer inner [] d) :
    CarriesIn prims outer inner (expandStruct d args) (expandStruct d args) :=
  expandsAlike_structType hsc (resolvesAlike_resolve hsc) [] d args (by simp) hd

end

end Infer

/-! ## Later supplies -/

/-- The numbers from `m` on become those from `n` on. -/
def skip (m n k : Nat) : Nat := if k < m then k else n + (k - m)

theorem skip_of_lt {m n k : Nat} (h : k < m) : skip m n k = k := if_pos h

theorem skip_add (m n i : Nat) : skip m n (m + i) = n + i := by
  unfold skip
  rw [if_neg (by omega)]
  omega

theorem skip_injective {m n : Nat} (h : m ≤ n) (j k : Nat) (hjk : skip m n j = skip m n k) : j = k := by
  unfold skip at hjk
  split at hjk <;> split at hjk <;> omega

namespace Supply

/-- The variable was made before. -/
def MadeVar (s : Supply) (v : Var) : Prop :=
  (∀ n, v.id = Var.generatedId n → n < s.count) ∧ v.cell < s.attachments.next

/-- The cell and the tail of a label were made before. -/
def MadeLabel (s : Supply) (l : Label) : Prop :=
  (∀ c, l.cell = some c → c < s.attachments.next) ∧
    ∀ u, l.tail = some u → u.number < s.attachments.tails.length

/-- All that a type is made of was made before. -/
abbrev Made (s : Supply) : Ty → Prop := Ty.All s.MadeVar s.MadeLabel s.MadeLabel

/-- The variables and the type of a scheme were made before. -/
def MadeScheme (s : Supply) (p : Scheme) : Prop := (∀ v ∈ p.vars, s.MadeVar v) ∧ s.Made p.type

/-- The second supply goes on from the first: what the first one has made is there as it was. -/
structure Before (s s' : Supply) : Prop where
  count : s.count ≤ s'.count
  next : s.attachments.next ≤ s'.attachments.next
  classes : ∀ c, c < s.attachments.next → s'.attachments.get? c = s.attachments.get? c
  tails : s.attachments.tails <+: s'.attachments.tails
  made : ∀ d ∈ s.attachments.tails, ∀ f ∈ d, s.Made f.2
  unfilled : ∀ c, s.attachments.next ≤ c → s.attachments.get? c = none
  unfilled' : ∀ c, s'.attachments.next ≤ c → s'.attachments.get? c = none

namespace Before

variable {s s' : Supply}

/-- What the first supply makes next gets the numbers that the second one gives. -/
def renumbering (h : s.Before s') : Renumbering where
  ids := skip s.count s'.count
  cells := skip s.attachments.next s'.attachments.next
  tails := skip s.attachments.tails.length s'.attachments.tails.length
  ids_injective := skip_injective h.count
  cells_injective := skip_injective h.next
  tails_injective := skip_injective h.tails.length_le

theorem renumber_var (h : s.Before s') {v : Var} (hv : s.MadeVar v) : v.renumber h.renumbering = v := by
  refine congrArg₂ Var.mk ?_ (skip_of_lt hv.2)
  rcases h.renumbering.id_cases v.id with ⟨n, hn⟩ | ⟨-, hid⟩
  · rw [hn, Renumbering.id_generatedId]
    exact congrArg Var.generatedId (skip_of_lt (hv.1 n hn))
  · exact hid

theorem renumber_label (h : s.Before s') {l : Label} (hl : s.MadeLabel l) : l.renumber h.renumbering = l := by
  obtain ⟨classes, cell, tail⟩ := l
  obtain ⟨hcell, htail⟩ := hl
  refine congrArg₂ (Label.mk classes) ?_ ?_
  · cases cell with
    | none => rfl
    | some c => exact congrArg some (skip_of_lt (hcell c rfl))
  · cases tail with
    | none => rfl
    | some u => exact congrArg (fun n => some (Tail.mk n u.own)) (skip_of_lt (htail u rfl))

/-- What was made before keeps its numbers. -/
theorem renumber_made (h : s.Before s') {t : Ty} (ht : s.Made t) : t.renumber h.renumbering = t := by
  induction ht with
  | missing => rfl
  | var hv => exact congrArg Ty.var (h.renumber_var hv)
  | con hl _ ih =>
    rw [renumber_con, h.renumber_label hl, map_congr_left ih, map_id']
  | record hl _ ih =>
    rw [renumber_record, h.renumber_label hl, mapValues,
      map_congr_left fun f hf => congrArg (Prod.mk f.1) (ih f hf), map_id']

theorem renumber_made_all (h : s.Before s') {ts : List Ty} (hts : ∀ t ∈ ts, s.Made t) :
    ts.map (Ty.renumber h.renumbering) = ts := by
  rw [map_congr_left fun t ht => h.renumber_made (hts t ht), map_id']

theorem renumber_made_values (h : s.Before s') {d : Dict Ty} (hd : ∀ e ∈ d, s.Made e.2) :
    mapValues (Ty.renumber h.renumbering) d = d := by
  rw [mapValues, map_congr_left fun e he => congrArg (Prod.mk e.1) (h.renumber_made (hd e he)),
    map_id']

theorem renumber_made_scheme (h : s.Before s') {p : Scheme} (hp : s.MadeScheme p) :
    p.renumber h.renumbering = p := by
  obtain ⟨vars, type⟩ := p
  refine congrArg₂ Scheme.mk ?_ (h.renumber_made hp.2)
  rw [map_congr_left fun v hv => h.renumber_var (hp.1 v hv), map_id']

theorem renumber_made_scope (h : s.Before s') {sc : Scope} (hsc : sc.All s.MadeScheme s.Made) :
    sc.renumber h.renumbering = sc := by
  have hframe (f : Frame) (hf : f.All s.MadeScheme s.Made) : f.renumber h.renumbering = f := by
    have htypes : mapValues (Scheme.renumber h.renumbering) f.types = f.types := by
      rw [mapValues,
        map_congr_left fun e he => congrArg (Prod.mk e.1) (h.renumber_made_scheme (hf.types e he)),
        map_id']
    rw [Frame.renumber, htypes, h.renumber_made_values hf.tparams, h.renumber_made_all hf.returns]
  rw [Scope.renumber, map_congr_left fun f hf => hframe f (hsc f hf), map_id']

theorem mirrors (h : s.Before s') : s.Mirrors h.renumbering s' := by
  refine ⟨skip_add s.count s'.count, skip_add s.attachments.next s'.attachments.next, fun c => ?_,
    skip_add _ _, fun n => ?_⟩
  · show s'.attachments.get? (skip _ _ c) = _
    rcases Nat.lt_or_ge c s.attachments.next with hc | hc
    · rw [skip_of_lt hc, h.classes c hc]
    · obtain ⟨i, rfl⟩ := Nat.exists_eq_add_of_le hc
      rw [skip_add, h.unfilled _ hc, h.unfilled' _ (Nat.le_add_right ..)]
  · show s'.attachments.tails[skip _ _ n]? = _
    rcases Nat.lt_or_ge n s.attachments.tails.length with hn | hn
    · obtain ⟨d, hd⟩ : ∃ d, s.attachments.tails[n]? = some d := ⟨_, getElem?_eq_getElem hn⟩
      rw [skip_of_lt hn, getElem?_of_append h.tails hd, hd, Option.map_some,
        h.renumber_made_values (h.made d (mem_of_getElem? hd))]
    · obtain ⟨i, rfl⟩ := Nat.exists_eq_add_of_le hn
      rw [skip_add, getElem?_eq_none hn, getElem?_eq_none (Nat.le_add_right ..)]
      rfl

end Before

end Supply

/-! ## Structs in inner scopes -/

namespace Infer

/-- A struct that has a type in some scope has the same type in every scope within it that agrees on what
its fields look up, also later. Only what is drawn on the way has other numbers, and it has the same
classes. -/
theorem expandStruct_inner (d : StructDecl) (args : List Ty) (between : Scope) (σ σ' τ : Inference) (t : Ty)
    (hprims : σ'.primitives = σ.primitives) (hscope : σ'.scope = between ++ σ.scope)
    (hbefore : σ.supply.Before σ'.supply) (hargs : ∀ u ∈ args, σ.supply.Made u)
    (hmade : σ.scope.All σ.supply.MadeScheme σ.supply.Made)
    (hinstances : (between ++ σ.scope).instances = σ.scope.instances)
    (hagree : ∀ q, d.Seeks σ.primitives σ.scope (fun _ => False) q →
      σ.scope.AgreeOn (between ++ σ.scope) q)
    (h : Ran (expandStruct d args) σ t τ) :
    ∃ τ', Ran (expandStruct d args) σ' (t.renumber hbefore.renumbering) τ' ∧
      ∀ c, τ'.supply.attachments.get? (hbefore.renumbering.cells c) = τ.supply.attachments.get? c := by
  -- The later supply in the outer scope: there the result has other numbers.
  let σ₁ : Inference :=
    ⟨σ.primitives, σ'.supply, σ.scope, σ.constraints.map (Constraint.mapTypes (Ty.renumber hbefore.renumbering)),
      σ.slots.map fun e => (e.1, e.2.renumber hbefore.renumbering)⟩
  have hmirror : σ.Mirrors hbefore.renumbering σ₁ :=
    ⟨rfl, hbefore.mirrors, (hbefore.renumber_made_scope hmade).symm, rfl, rfl⟩
  obtain ⟨τ₁, hτ₁, hran⟩ := (mirrors_expandStruct d args).ran hmirror h
  rw [hbefore.renumber_made_all hargs] at hran
  -- The inner scope: there the result is the same.
  have hbeside : Inference.Beside σ.primitives σ.scope (between ++ σ.scope) σ₁ σ' :=
    ⟨⟨rfl, hprims⟩, rfl, hscope, rfl⟩
  have hfree : Scope.Binds [] = fun _ => False := by
    funext n
    simp [Scope.Binds, Scope.tparam?]
  have hstruct : AgreeingStruct σ.primitives σ.scope (between ++ σ.scope) [] d := by
    intro q hq
    rw [hfree] at hq
    exact hagree q hq
  obtain ⟨τ', hran', hτ'⟩ :=
    carriesIn_expandStruct (Scope.within_append hinstances) hstruct σ₁ σ' _ τ₁ hbeside hran
  refine ⟨τ', hran', fun c => ?_⟩
  rw [hτ'.supply]
  exact hτ₁.supply.attachments.get? c

/-! ### An example -/

def innerStruct : StructDecl := ⟨"U", [], [⟨"a", .named Ty.integer⟩]⟩

/-- A struct with a field of another struct. -/
def outerStruct : StructDecl := ⟨"D", [], [⟨"x", .named "U"⟩]⟩

/-- A struct with a field of a struct that has one of another, and a field of the type that it is given. -/
def pairStruct : StructDecl := ⟨"P", [⟨"T", []⟩], [⟨"x", .named "D"⟩, ⟨"y", .named "T"⟩]⟩

/-- The scope in which the three are declared. -/
def structScope : Scope :=
  [((Frame.empty.declareDecl "U" (.structDecl innerStruct)).declareDecl "D" (.structDecl outerStruct)).declareDecl
    "P" (.structDecl pairStruct), .global]

/-- A supply that has made the first variables. -/
def supplyAfter (n : Nat) : Supply := ⟨n, ⟨[], n, []⟩⟩

/-- A state in which the first variables were drawn. -/
def stateAfter (n : Nat) (sc : Scope) : Inference := ⟨[Ty.integer], supplyAfter n, sc, [], []⟩

/-- The frame of a function over one type parameter, which is the first variable. -/
def functionOver (name : String) : Frame :=
  Frame.function.declareTypeParam name (.var ⟨Var.generatedId 0, 0⟩)

/-- The record of the struct with an integer. -/
def innerRecord : Ty := .record "U" [("a", .primitive Ty.integer)] (.fixed [Class.struct])

/-- The record of the struct around it, with some type for its field. -/
def outerRecord (t : Ty) : Ty := .record "D" [("x", t)] (.fixed [Class.struct])

/-- The record of the pair, if the type that it is given is the variable of some number. -/
def pairRecord (n : Nat) : Ty :=
  .record "P" [("x", outerRecord innerRecord), ("y", .var ⟨Var.generatedId n, n⟩)] (.fixed [Class.struct])

/-- Within a function over a type parameter of the name of a struct, a field that is annotated with this
name has the type of the parameter. So the struct around it has another type there. -/
theorem expandStruct_captured :
    Ran (expandStruct outerStruct []) (stateAfter 1 structScope) (outerRecord innerRecord)
        (stateAfter 1 structScope) ∧
      Ran (expandStruct outerStruct []) (stateAfter 1 (functionOver "U" :: structScope))
        (outerRecord (.var ⟨Var.generatedId 0, 0⟩)) (stateAfter 1 (functionOver "U" :: structScope)) ∧
      ∀ ρ : Renumbering, (outerRecord innerRecord).renumber ρ ≠ outerRecord (.var ⟨Var.generatedId 0, 0⟩) := by
  refine ⟨rfl, rfl, fun ρ h => ?_⟩
  simp [outerRecord, innerRecord, mapValues] at h

theorem before_supplyAfter {m n : Nat} (h : m ≤ n) : (supplyAfter m).Before (supplyAfter n) :=
  ⟨h, h, fun _ _ => rfl, prefix_rfl, fun _ hd => absurd hd not_mem_nil, fun _ _ => rfl,
    fun _ _ => rfl⟩

theorem made_structScope (s : Supply) : structScope.All s.MadeScheme s.Made := by
  intro f hf
  rcases mem_cons.1 hf with rfl | hf
  · exact ((Frame.all_empty.declareDecl ..).declareDecl ..).declareDecl ..
  · rw [mem_singleton.1 hf]
    exact Frame.all_global

/-- The pair looks up the struct that it has a field of, and the one that this has a field of. -/
theorem seeks_pairStruct {q : Sought}
    (h : pairStruct.Seeks [Ty.integer] structScope (fun _ => False) q) : q = .type "D" ∨ q = .type "U" := by
  have hprimitive : Primitive [Ty.integer] Ty.integer := .inl mem_cons_self
  have hD : structScope.decl? "D" = some (.structDecl outerStruct) := rfl
  have hU : structScope.decl? "U" = some (.structDecl innerStruct) := rfl
  obtain ⟨f, hf, h⟩ := h
  rcases mem_cons.1 hf with rfl | hf
  · cases h with
    | type => exact .inl rfl
    | expansion _ _ _ hd hf h =>
      cases hD.symm.trans hd
      rw [mem_singleton.1 hf] at h
      cases h with
      | type => exact .inr rfl
      | expansion _ _ _ hd hf h =>
        cases hU.symm.trans hd
        rw [mem_singleton.1 hf] at h
        cases h with
        | type hp _ => exact absurd hprimitive hp
        | expansion hp _ _ _ _ _ => exact absurd hprimitive hp
  · rw [mem_singleton.1 hf] at h
    cases h with
    | type _ hb => exact absurd (.inl mem_cons_self) hb
    | expansion _ hb _ _ _ _ => exact absurd (.inl mem_cons_self) hb

/-- The type parameter of a function may have the name of that of the struct. -/
theorem expandStruct_inner_pair : ∃ τ', Ran (expandStruct pairStruct [])
    (stateAfter 5 (functionOver "T" :: structScope)) (pairRecord 5) τ' := by
  have hbefore := before_supplyAfter (m := 1) (n := 5) (by decide)
  obtain ⟨τ', hran, -⟩ := expandStruct_inner pairStruct [] [functionOver "T"] (stateAfter 1 structScope)
    (stateAfter 5 (functionOver "T" :: structScope)) (stateAfter 2 structScope) (pairRecord 1) rfl rfl
    hbefore (fun _ hu => nomatch hu) (made_structScope _) rfl
    (fun q hq => by rcases seeks_pairStruct hq with rfl | rfl <;> exact ⟨rfl, fun _ => rfl⟩) rfl
  exact ⟨τ', hran⟩

end Infer

end ScriptTyping
