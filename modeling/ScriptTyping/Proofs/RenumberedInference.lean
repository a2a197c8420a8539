import ScriptTyping.Proofs.LexicalScopes
import ScriptTyping.Proofs.Renumbering

/-!
# Inference under other numbers

Two states mirror each other if one is the other under other numbers. From such states a computation
of inference comes to results that are the same under other numbers, an error included, and to states
that again mirror each other: `Infer.Mirrors ρ f x x'`, where `f` renumbers what is given. It is enough to
look at the steps of inference, because this is a logic (`mirroring`). Where a use of a scheme can change
tails, both sides must have the same tails, so there the numbers of tails are kept.

Main statements: `Infer.mirrors_resolve` and `Infer.mirrors_infer`.
-/

namespace ScriptTyping

open Ty List Scope

variable {ρ : Renumbering}

/-! ## Errors -/

def UnifyError.renumber (ρ : Renumbering) : UnifyError → UnifyError
  | occurs id t => occurs (ρ.id id) (t.renumber ρ)
  | mismatch left right => mismatch (left.renumber ρ) (right.renumber ρ)
  | missingField field owner => missingField field owner
  | classes t lacking => classes (t.renumber ρ) lacking

def CheckError.renumber (ρ : Renumbering) : CheckError → CheckError
  | unsolvable errors => unsolvable (errors.map (UnifyError.renumber ρ))
  | bound t cls => bound (t.renumber ρ) cls
  | operator op left right => operator op (left.renumber ρ) (right.renumber ρ)
  | builtin name cause => builtin name (cause.renumber ρ)
  | file name cause => file name (cause.renumber ρ)
  | e => e

/-- A result under other numbers, given how what is found is renumbered. -/
def Except.renumber {α β : Type} (ρ : Renumbering) (f : α → β) : Except CheckError α → Except CheckError β
  | .ok r => .ok (f r)
  | .error e => .error (e.renumber ρ)

/-! ## States -/

/-- The second state is the first under other numbers. -/
structure Inference.Mirrors (ρ : Renumbering) (σ σ' : Inference) : Prop where
  primitives : σ'.primitives = σ.primitives
  supply : σ.supply.Mirrors ρ σ'.supply
  scope : σ'.scope = σ.scope.renumber ρ
  constraints : σ'.constraints = σ.constraints.map (Constraint.mapTypes (renumber ρ))
  slots : σ'.slots = σ.slots.map fun e => (e.1, e.2.renumber ρ)

namespace Inference.Mirrors

variable {σ σ' : Inference}

theorem withSupply (h : σ.Mirrors ρ σ') {u u' : Supply} (hu : u.Mirrors ρ u') :
    Inference.Mirrors ρ { σ with supply := u } { σ' with supply := u' } :=
  ⟨h.primitives, hu, h.scope, h.constraints, h.slots⟩

theorem withAttachments (h : σ.Mirrors ρ σ') {a a' : Attachments} (ha : a.Mirrors ρ a') :
    Inference.Mirrors ρ { σ with supply := { σ.supply with attachments := a } }
      { σ' with supply := { σ'.supply with attachments := a' } } :=
  h.withSupply ⟨h.supply.count, ha⟩

theorem withScope (h : σ.Mirrors ρ σ') {sc sc' : Scope} (hsc : sc' = sc.renumber ρ) :
    Inference.Mirrors ρ { σ with scope := sc } { σ' with scope := sc' } :=
  ⟨h.primitives, h.supply, hsc, h.constraints, h.slots⟩

end Inference.Mirrors

/-- What is found is related, or it is the same error under other numbers. -/
inductive Except.Mirrored {α β : Type} (ρ : Renumbering) (R : α → β → Prop) :
    Except CheckError α → Except CheckError β → Prop
  | ok {r r'} (h : R r r') : Mirrored ρ R (.ok r) (.ok r')
  | error (e : CheckError) : Mirrored ρ R (.error e) (.error (e.renumber ρ))

/-! ## Computations -/

namespace Infer

variable {α β γ δ : Type}

/-- From states that mirror each other the computations come to what is related, and to states that
mirror each other, whether they fail or not. -/
def Mirror (ρ : Renumbering) (R : α → β → Prop) (x : Infer α) (x' : Infer β) : Prop :=
  ∀ σ σ', σ.Mirrors ρ σ' → Except.Mirrored ρ R (x.run.run σ).1 (x'.run.run σ').1 ∧
    (x.run.run σ).2.Mirrors ρ (x'.run.run σ').2

/-- What the computations give is the same under other numbers, where `f` renumbers it. -/
abbrev Mirrors (ρ : Renumbering) (f : α → β) : Infer α → Infer β → Prop := Mirror ρ fun r r' => r' = f r

namespace Mirror

variable {R : α → β → Prop} {S : γ → δ → Prop} {x : Infer α} {x' : Infer β}

theorem pure {r : α} {r' : β} (h : R r r') : Mirror ρ R (pure r) (pure r') := fun _ _ hσ => ⟨.ok h, hσ⟩

theorem bind {k : α → Infer γ} {k' : β → Infer δ} (hx : Mirror ρ R x x')
    (hk : ∀ r r', R r r' → Mirror ρ S (k r) (k' r')) : Mirror ρ S (x >>= k) (x' >>= k') := by
  intro σ σ' hσ
  obtain ⟨hresult, hstate⟩ := hx σ σ' hσ
  rw [ExceptT.run_bind, StateT.run_bind, ExceptT.run_bind, StateT.run_bind]
  generalize x.run.run σ = found at hresult hstate ⊢
  generalize x'.run.run σ' = found' at hresult hstate ⊢
  obtain ⟨r, τ⟩ := found
  obtain ⟨r', τ'⟩ := found'
  cases hresult with
  | error e => exact ⟨.error e, hstate⟩
  | ok h => exact hk _ _ h τ τ' hstate

/-- A run that does not fail is one under other numbers. -/
theorem ran {f : α → β} (hx : Mirrors ρ f x x') {σ σ' τ : Inference} (hσ : σ.Mirrors ρ σ') {r : α}
    (h : Ran x σ r τ) : ∃ τ', τ.Mirrors ρ τ' ∧ Ran x' σ' (f r) τ' := by
  obtain ⟨hresult, hstate⟩ := hx σ σ' hσ
  rw [h] at hresult hstate
  generalize hfound : (x'.run.run σ').1 = found at hresult
  cases hresult with
  | ok h => exact ⟨_, hstate, Prod.ext (hfound.trans (congrArg Except.ok h)) rfl⟩

theorem result {f : α → β} (hx : Mirrors ρ f x x') {σ σ' : Inference} (hσ : σ.Mirrors ρ σ') :
    (x'.run.run σ').1 = Except.renumber ρ f (x.run.run σ).1 ∧ (x.run.run σ).2.Mirrors ρ (x'.run.run σ').2 := by
  obtain ⟨hresult, hstate⟩ := hx σ σ' hσ
  refine ⟨?_, hstate⟩
  generalize (x.run.run σ).1 = found at hresult ⊢
  generalize (x'.run.run σ').1 = found' at hresult ⊢
  cases hresult with
  | ok h => exact congrArg Except.ok h
  | error e => rfl

/-- What comes after a look at the state. -/
theorem get {k : Inference → Infer α} {k' : Inference → Infer β}
    (h : ∀ σ σ', σ.Mirrors ρ σ' → Mirror ρ R (k σ) (k' σ')) : Mirror ρ R (get >>= k) (get >>= k') :=
  fun σ σ' hσ => h σ σ' hσ σ σ' hσ

theorem modify {change change' : Inference → Inference}
    (h : ∀ σ σ', σ.Mirrors ρ σ' → (change σ).Mirrors ρ (change' σ')) :
    Mirror ρ Eq (modify change : Infer PUnit) (modify change') :=
  fun σ σ' hσ => ⟨.ok rfl, h σ σ' hσ⟩

theorem set {τ τ' : Inference} (h : τ.Mirrors ρ τ') : Mirror ρ Eq (set τ : Infer PUnit) (set τ') :=
  fun _ _ _ => ⟨.ok rfl, h⟩

theorem modifyScope {change change' : Scope → Scope}
    (h : ∀ sc, renumber ρ (change sc) = change' (sc.renumber ρ)) :
    Mirror ρ Eq (modifyScope change) (modifyScope change') := by
  refine .modify fun σ σ' hσ => hσ.withScope ?_
  rw [hσ.scope, h]

theorem modifyHead {change change' : Frame → Frame} (h : ∀ f, (change f).renumber ρ = change' (f.renumber ρ)) :
    Mirror ρ Eq (Infer.modifyScope (·.modifyHead change)) (Infer.modifyScope (·.modifyHead change')) :=
  .modifyScope fun sc => sc.renumber_modifyHead h

/-- A frame that is entered and left. -/
theorem within (frame : Frame) (hx : Mirror ρ R x x') :
    Mirror ρ R (within frame x) (within (frame.renumber ρ) x') := by
  refine Mirror.bind (Mirror.modifyScope fun sc => rfl) fun _ _ _ => hx.bind fun r r' h => ?_
  refine Mirror.bind (Mirror.modifyScope fun sc => ?_) fun _ _ _ => .pure h
  cases sc <;> rfl

end Mirror

/-! ### Types -/

theorem mirrors_fresh : Mirrors ρ (Ty.renumber ρ) fresh fresh := by
  refine .get fun σ σ' hσ => ?_
  obtain ⟨ht, hsupply⟩ := hσ.supply.fresh
  exact Mirror.bind (.set (hσ.withSupply hsupply)) fun _ _ _ => .pure ht

theorem mirrors_growing (name : String) (args : List Ty) :
    Mirrors ρ (Ty.renumber ρ) (growing name args) (growing name (args.map (Ty.renumber ρ))) := by
  refine .get fun σ σ' hσ => ?_
  obtain ⟨hcell, hattachments⟩ := hσ.supply.attachments.fresh
  refine Mirror.bind (.set (hσ.withAttachments hattachments)) fun _ _ _ => .pure ?_
  rw [renumber_con]
  exact congrArg (fun c => con name (args.map (renumber ρ)) { Label.none with cell := some c }) hcell

theorem mirrors_record (name : String) (entries : List (String × Ty)) (classes : ClassSet) :
    Mirrors ρ (Ty.renumber ρ) (record name entries classes)
      (record name (Dict.mapValues (renumber ρ) entries) classes) := by
  refine .get fun σ σ' hσ => ?_
  obtain ⟨ht, hattachments⟩ := hσ.supply.attachments.newRecord name entries classes
  exact Mirror.bind (.set (hσ.withAttachments hattachments)) fun _ _ _ => .pure ht

theorem mirrors_nameType (hρ : ρ.KeepsTails) (name : String) :
    Mirrors ρ (Ty.renumber ρ) (nameType name) (nameType name) := by
  refine .get fun σ σ' hσ => ?_
  rw [hσ.scope, lookup?_renumber]
  cases σ.scope.lookup? name with
  | none => exact mirrors_fresh
  | some s =>
    refine .get fun σ σ' hσ => ?_
    obtain ⟨ht, hsupply⟩ := hσ.supply.instantiate hρ s
    exact Mirror.bind (.set (hσ.withSupply hsupply)) fun _ _ _ => .pure ht

theorem mirrors_equate (t u : Ty) : Mirror ρ Eq (equate t u) (equate (t.renumber ρ) (u.renumber ρ)) := by
  refine .modify fun σ σ' hσ => ⟨hσ.primitives, hσ.supply, hσ.scope, ?_, hσ.slots⟩
  rw [hσ.constraints, map_append]
  rfl

theorem mirrors_require (t : Ty) (c : String) : Mirror ρ Eq (require t c) (require (t.renumber ρ) c) := by
  refine .get fun σ σ' hσ => ?_
  have hinstances : σ'.scope.instances = σ.scope.instances := by
    rw [hσ.scope, instances_renumber]
  have hrequired := hσ.supply.attachments.require? σ.scope.instances t c
  rw [hinstances]
  revert hrequired
  cases σ.scope.instances.require? σ.supply.attachments t c <;>
    cases σ.scope.instances.require? σ'.supply.attachments (t.renumber ρ) c
  all_goals intro hrequired; cases hrequired
  · exact .pure rfl
  next h => exact Mirror.bind (.set (hσ.withAttachments h)) fun _ _ _ => .pure rfl

theorem mirrors_declareOutside (name : String) (t : Ty) :
    Mirror ρ Eq (declareOutside name t) (declareOutside name (t.renumber ρ)) := by
  refine .modifyScope fun sc => ?_
  rw [Scope.renumber, map_append, map_take]
  have hrest : (Scope.modifyHead (sc.drop 1) (·.declare name (.mono t))).map (Frame.renumber ρ) =
      Scope.modifyHead ((sc.drop 1).map (Frame.renumber ρ)) (·.declare name (.mono (t.renumber ρ))) :=
    renumber_modifyHead (sc.drop 1) fun f => f.renumber_declare name (.mono t)
  rw [hrest, map_drop]
  rfl

theorem mirrors_setSlot (slot : Nat) (t : Ty) : Mirror ρ Eq (setSlot slot t) (setSlot slot (t.renumber ρ)) := by
  refine .modify fun σ σ' hσ => ⟨hσ.primitives, hσ.supply, hσ.scope, hσ.constraints, ?_⟩
  rw [hσ.slots]
  rfl

/-! ## The logic -/

theorem forall₂_map_renumber (ts : List Ty) :
    List.Forall₂ (fun t t' => t' = t.renumber ρ) ts (ts.map (Ty.renumber ρ)) :=
  forall₂_map_right_iff.2 (forall₂_same.2 fun _ _ => rfl)

theorem forall₂_renumber {ts ts' : List Ty} (h : List.Forall₂ (fun t t' => t' = t.renumber ρ) ts ts') :
    ts' = ts.map (Ty.renumber ρ) := by
  induction h with
  | nil => rfl
  | cons h _ ih => rw [h, ih, map_cons]

theorem forall₂_mapValues {es es' : List (String × Ty)}
    (h : List.Forall₂ (fun e e' => e.1 = e'.1 ∧ e'.2 = e.2.renumber ρ) es es') :
    es' = Dict.mapValues (Ty.renumber ρ) es := by
  induction h with
  | nil => rfl
  | cons h _ ih =>
    rw [ih]
    exact congrArg (· :: _) (Prod.ext h.1.symm h.2)

theorem rel_map {f : α → β} (o : Option α) : Option.Rel (fun r r' => r' = f r) o (o.map f) := by
  cases o with
  | none => exact .none
  | some r => exact .some rfl

theorem still_of_mirror {x x' : Infer α} (h : Mirror ρ Eq x x') :
    Mirror ρ (fun r r' => () = () ∧ r = r') x x' := fun σ σ' hσ => by simpa using h σ σ' hσ

/-- To come to the same under other numbers. -/
def mirroring (ρ : Renumbering) : Logic where
  World := Unit
  type _ t t' := t' = t.renumber ρ
  state _ σ σ' := σ.Mirrors ρ σ'
  rel _ R := Mirror ρ (R ())
  mono _ h := h
  parallel := by
    rintro _ t _ rfl
    cases t with
    | missing => exact .missing
    | var v => exact .var v _
    | con name args l =>
      rw [renumber_con]
      exact .con _ _ (forall₂_map_renumber args)
    | record name fields l =>
      rw [renumber_record]
      exact .record _ _ (forall₂_map_right_iff.2 (forall₂_same.2 fun _ _ => ⟨rfl, rfl⟩))
  missing := rfl
  const := (renumber_const ..).symm
  app h := by rw [forall₂_renumber h, renumber_app]
  empty := (renumber_mkRecord _ [] _).symm
  primitives h := h.primitives
  scope h := by
    rw [h.scope]
    exact ⟨by simp, by simp, by simp, fun name => by rw [lookup?_renumber, Option.isSome_map]⟩
  tparam? name h := by
    rw [h.scope, tparam?_renumber]
    exact rel_map _
  lookupLocal? name h := by
    rw [h.scope, lookupLocal?_renumber]
    cases lookupLocal? _ name with
    | none => exact .none
    | some s => exact .some rfl
  returned {_ σ _} h := by
    rw [h.scope]
    have hreturned (sc : Scope) : (sc.renumber ρ).returned = sc.returned.map (Ty.renumber ρ) := by cases sc <;> rfl
    rw [hreturned]
    exact forall₂_map_renumber _
  addition := by
    rintro _ σ σ' t _ u _ h rfl rfl
    rw [h.scope, instances_renumber, h.supply.attachments.addition]
  struct name h ht := by
    rw [renumber_record, record.injEq] at ht
    obtain ⟨-, rfl, rfl⟩ := ht
    rw [h.supply.attachments.ofLabel, renumber_record]
    rfl
  pure := Mirror.pure
  throw h _ _ hσ := by
    refine ⟨?_, hσ⟩
    cases h with
    | bound h => exact h ▸ .error _
    | operator ht hu => exact ht ▸ hu ▸ .error _
    | _ => exact .error _
  recursive _ _ _ hσ := ⟨.error _, hσ⟩
  bind hx hk := hx.bind fun _ _ h => hk trivial h
  get h := .get fun _ _ hσ => h hσ
  within hx := .within .empty hx
  fresh := mirrors_fresh
  growing name h := by rw [forall₂_renumber h]; exact mirrors_growing name _
  record name h _ := by rw [forall₂_mapValues h]; exact mirrors_record name _ _
  equate := by rintro _ t _ u _ rfl rfl; exact still_of_mirror (mirrors_equate t u)
  require c := by rintro rfl; exact still_of_mirror (mirrors_require _ c)
  declare name := by rintro rfl; exact still_of_mirror (.modifyHead fun f => f.renumber_declare name _)
  declareTypeParam name := by
    rintro rfl
    exact still_of_mirror (.modifyHead fun f => f.renumber_declareTypeParam name _)
  declareDecl name decl := still_of_mirror (.modifyHead fun f => f.renumber_declareDecl name decl)
  addReturn := by rintro _ t _ rfl; exact still_of_mirror (.modifyScope fun sc => sc.renumber_addReturn t)
  setSlot slot := by rintro rfl; exact still_of_mirror (mirrors_setSlot slot _)

/-- An annotation stands for the same type, under other numbers. -/
theorem mirrors_resolve (e : TypeExpr) : Mirrors ρ (Ty.renumber ρ) (resolve e) (resolve e) :=
  related_resolve (L := mirroring ρ) (w := ()) e

theorem mirrors_expandStruct (d : StructDecl) (args : List Ty) :
    Mirrors ρ (Ty.renumber ρ) (expandStruct d args) (expandStruct d (args.map (Ty.renumber ρ))) :=
  related_expandStruct (L := mirroring ρ) (w := ()) d (forall₂_map_renumber args)

/-- Inference comes to the same under other numbers, whether it fails or not. -/
theorem mirrors_infer (hρ : ρ.KeepsTails) (n : Node) : Mirrors ρ (Ty.renumber ρ) (infer n) (infer n) := by
  refine related_inferDepth (L := mirroring ρ) (w := ()) (fun name _ => mirrors_nameType hρ name) ?_ _ n
  refine functional_of_outside (fun name _ t _ h => ?_) fun hx => .within .function hx
  obtain rfl := h
  exact still_of_mirror (mirrors_declareOutside name t)

end Infer

end ScriptTyping
