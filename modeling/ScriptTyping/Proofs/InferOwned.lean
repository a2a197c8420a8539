import ScriptTyping.Proofs.InferLogic
import ScriptTyping.Proofs.InferSound
import ScriptTyping.Proofs.Owners

/-!
# Inference keeps owners

Every piece of inference keeps owners and classes, whether it fails or not: what it finds is owned, and
no class is taken from a cell. This is the logic `owning`, which speaks of one computation. Its worlds are
the owners, to which others are added. What it says of the pieces that other modules take apart is restated
for `Keeps`; for all nodes it is `keeps_infer`.
-/

namespace ScriptTyping

open Ty Infer

namespace Infer

variable {w : Owners} {t u : Ty} {ts : List Ty}

/-! ## The logic -/

theorem forall₂_owned {ts' : List Ty} :
    List.Forall₂ (fun t t' => Ty.Owned w t ∧ t = t') ts ts' ↔ (∀ t ∈ ts, t.Owned w) ∧ ts = ts' := by
  rw [List.forall₂_and_left, List.forall₂_eq_eq_eq]

/-- To add owners and classes, and to take none away. -/
def owning : Logic where
  World := Owners
  order := { le := (· <+: ·), le_refl := fun _ => List.prefix_rfl, le_trans := fun _ _ _ => List.IsPrefix.trans }
  type w t t' := t.Owned w ∧ t = t'
  state w σ σ' := σ.Owned w ∧ σ = σ'
  rel w R x _ := Keeps w x fun w r => ∃ r', R w r r'
  mono hw h := ⟨h.1.mono hw, h.2⟩
  parallel := by
    rintro w t _ ⟨h, rfl⟩
    cases h with
    | missing => exact .missing
    | var => exact .var _ _
    | con _ hargs => exact .con _ _ (forall₂_owned.2 ⟨hargs, rfl⟩)
    | record _ hfields => exact .record _ _ (List.forall₂_same.2 fun f hf => ⟨rfl, hfields f hf, rfl⟩)
  missing := ⟨.missing, rfl⟩
  const := ⟨owned_const _ _, rfl⟩
  app hts := by
    obtain ⟨howned, rfl⟩ := forall₂_owned.1 hts
    exact ⟨owned_app howned, rfl⟩
  empty := ⟨.record ⟨rfl, by simp [Label.fixed, ClassSet.adding]⟩ (by simp), rfl⟩
  primitives h := h.2 ▸ rfl
  scope h := h.2 ▸ .rfl
  tparam? name h := by
    obtain ⟨hσ, rfl⟩ := h
    cases ht : Scope.tparam? _ name with
    | none => exact .none
    | some t => exact .some ⟨hσ.scope.all.tparam? ht, rfl⟩
  lookupLocal? name h := by
    obtain ⟨hσ, rfl⟩ := h
    cases hs : Scope.lookupLocal? _ name with
    | none => exact .none
    | some s => exact .some ⟨hσ.scope.lookupLocal? hs, rfl⟩
  returned := by
    rintro w σ _ ⟨hσ, rfl⟩
    refine forall₂_owned.2 ⟨?_, rfl⟩
    have hall := hσ.scope.all
    cases hsc : σ.scope with
    | nil => simp [Scope.returned]
    | cons f sc =>
      rw [hsc] at hall
      exact (Scope.all_cons.1 hall).1.returns
  addition := by
    rintro _ _ _ _ _ _ _ ⟨-, rfl⟩ ⟨-, rfl⟩ ⟨-, rfl⟩
    rfl
  struct := by
    rintro w σ _ owner fields _ l _ name ⟨-, rfl⟩ ⟨ht, heq⟩
    cases heq
    refine ⟨?_, rfl⟩
    cases ht with
    | record hl hfields =>
      refine .record ⟨rfl, fun k hk => ?_⟩ hfields
      have hk : k ∈ ClassSet.adding (σ.supply.attachments.ofLabel l) [Class.struct] := hk
      rcases ClassSet.mem_adding.1 hk with hk | hk
      · exact (Label.copied_structural σ.supply.attachments l hl).2 k hk
      · simpa using hk
  pure h := .pure ⟨_, h⟩
  throw _ := .throw
  recursive _ := .throw
  bind hx hk := hx.bind fun w' r hw hr => by
    obtain ⟨r', hr⟩ := hr
    exact hk hw hr
  get h := fun σ hσ => h ⟨hσ, rfl⟩ σ hσ
  within hx := hx.within Frame.all_empty
  fresh := keeps_fresh.imp fun _ t h => ⟨t, h, rfl⟩
  growing name h := (keeps_growing (forall₂_owned.1 h).1).imp fun _ t h => ⟨t, h, rfl⟩
  record := by
    intro w es es' _ name hes hc
    have hes : List.Forall₂ (fun e e' => Ty.Owned w e.2 ∧ e.1 = e'.1) es es' := hes.imp fun _ _ h => ⟨h.2.1, h.1⟩
    exact (keeps_record ((List.forall₂_and_left _ _).1 hes).1 hc).imp fun _ t h => ⟨t, h, rfl⟩
  equate ht hu := (keeps_equate ht.1 hu.1).imp fun _ r h => ⟨r, h, rfl⟩
  require c ht := (keeps_require ht.1).imp fun _ r h => ⟨r, h, rfl⟩
  declare name ht := (keeps_declare ht.1).imp fun _ r h => ⟨r, h, rfl⟩
  declareTypeParam name ht := (keeps_declareTypeParam ht.1).imp fun _ r h => ⟨r, h, rfl⟩
  declareDecl name decl := keeps_declareDecl.imp fun _ r h => ⟨r, h, rfl⟩
  addReturn ht := (keeps_addReturn ht.1).imp fun _ r h => ⟨r, h, rfl⟩
  setSlot slot ht := keeps_setSlot.imp fun _ r h => ⟨r, h, rfl⟩

theorem uses_owning : owning.Uses := by
  intro name w
  refine owning.bind_scope fun {σ _} hσ => ?_
  obtain ⟨hσ, rfl⟩ := hσ
  split
  next s hs => exact (keeps_instantiate (hσ.scope.all.lookup? hs)).imp fun _ t h => ⟨t, h, rfl⟩
  next => exact owning.fresh

theorem outside_owning : owning.Outside :=
  fun _ _ _ _ ht => (keeps_declareOutside ht.1).imp fun _ r h => ⟨r, h, rfl⟩

theorem functional_owning : owning.Functional :=
  functional_of_outside outside_owning fun hx => hx.within Frame.all_function

/-! ## Pieces -/

theorem types_owning {x : Infer Ty} : owning.Types w x x ↔ Keeps w x Ty.Owned := by
  refine ⟨fun h => h.imp fun _ t ht => ?_, fun h => h.imp fun _ t ht => ⟨t, ht, rfl⟩⟩
  obtain ⟨_, ht, -⟩ := ht
  exact ht

theorem keeps_of_all {x x' : Infer (List Ty)} (h : owning.rel w owning.all x x') :
    Keeps w x fun w ts => ∀ t ∈ ts, t.Owned w := by
  refine h.imp fun _ ts hts => ?_
  obtain ⟨_, hts⟩ := hts
  exact (forall₂_owned.1 hts).1

theorem keeps_declareTypeParams {ps : List TypeParam} (h : ∀ t ∈ ts, t.Owned w) :
    Keeps w (declareTypeParams ps ts) fun w ts => ∀ t ∈ ts, t.Owned w :=
  keeps_of_all (related_declareTypeParams ps (forall₂_owned.2 ⟨h, rfl⟩))

theorem keeps_resolve (e : TypeExpr) : Keeps w (resolve e) Ty.Owned := types_owning.1 (related_resolve e)

theorem keeps_resolveIfWritten (e : TypeExpr) : Keeps w (resolveIfWritten e) Ty.Owned :=
  types_owning.1 (related_resolveIfWritten e)

theorem keeps_expectBoolean (ht : t.Owned w) : Keeps w (expectBoolean t) fun _ _ => True :=
  (related_expectBoolean (L := owning) ⟨ht, rfl⟩).imp fun _ _ _ => trivial

theorem keeps_sumType (ht : t.Owned w) (hu : u.Owned w) : Keeps w (sumType t u) Ty.Owned :=
  types_owning.1 (related_sumType ⟨ht, rfl⟩ ⟨hu, rfl⟩)

theorem keeps_binaryType {op : String} (ht : t.Owned w) (hu : u.Owned w) :
    Keeps w (binaryType op t u) Ty.Owned :=
  types_owning.1 (related_binaryType op ⟨ht, rfl⟩ ⟨hu, rfl⟩)

theorem keeps_numericType {op : String} (ht : t.Owned w) : Keeps w (numericType op t) Ty.Owned :=
  types_owning.1 (related_numericType op ⟨ht, rfl⟩)

theorem keeps_partType {key : Option String} (ht : t.Owned w) : Keeps w (partType t key) Ty.Owned :=
  types_owning.1 (related_partType key ⟨ht, rfl⟩)

variable {name : String} {sig : Signature}

theorem keeps_variableEnd {slot : Nat} (ht : t.Owned w) (hu : u.Owned w) :
    Keeps w (variableEnd name slot t u) Ty.Owned :=
  types_owning.1 (related_variableEnd name slot ⟨ht, rfl⟩ ⟨hu, rfl⟩)

theorem keeps_variableType {ann : TypeExpr} {slot : Nat} {value : Infer Ty}
    (hv : ∀ w, Keeps w value Ty.Owned) : Keeps w (variableType name ann slot value) Ty.Owned :=
  types_owning.1 (related_variableType name ann slot (types_owning.2 (hv _)))

theorem keeps_functionHead :
    Keeps w (functionHead name sig) fun w head => head.1.Owned w ∧ head.2.Owned w := by
  refine (related_functionHead sig (related_declareFunction outside_owning name)).imp fun _ head hhead => ?_
  obtain ⟨_, ⟨ht, -⟩, hret, -⟩ := hhead
  exact ⟨ht, hret⟩

theorem keeps_functionEnd (ht : t.Owned w) (hu : u.Owned w) : Keeps w (functionEnd sig t u) fun _ _ => True :=
  (related_functionEnd (L := owning) sig ⟨ht, rfl⟩ ⟨hu, rfl⟩).imp fun _ _ _ => trivial

theorem keeps_functionBody {body : Infer Ty} (hb : ∀ w, Keeps w body Ty.Owned) : Keeps w (do
      let head ← functionHead name sig
      functionEnd sig head.2 (← body)
      return head.1) Ty.Owned :=
  types_owning.1 (related_functionBody (related_declareFunction outside_owning name) (types_owning.2 (hb _)))

theorem keeps_structLitType {d : StructDecl} (ht : t.Owned w) : Keeps w (structLitType d name t) Ty.Owned :=
  types_owning.1 (related_structLitType d name ⟨ht, rfl⟩)

/-! ## Nodes -/

section

variable {constant : Node → Infer Ty}

theorem keeps_inferLast (hconst : ∀ n w, Keeps w (constant n) Ty.Owned) (ns : List Node) (w : Owners)
    (ht : t.Owned w) : Keeps w (inferLast constant t ns) Ty.Owned :=
  have hconst n w := types_owning.2 (hconst n w)
  types_owning.1 (related_inferLast uses_owning functional_owning hconst ns ⟨ht, rfl⟩)

theorem keeps_inferVars (hconst : ∀ n w, Keeps w (constant n) Ty.Owned) (vs : List Variable) (w : Owners) :
    Keeps w (inferVars constant vs) fun _ _ => True :=
  have hconst n w := types_owning.2 (hconst n w)
  (related_inferVars uses_owning functional_owning hconst vs).imp fun _ _ _ => trivial

theorem keeps_inferElems (hconst : ∀ n w, Keeps w (constant n) Ty.Owned) (ns : List Node) (w : Owners)
    (ht : t.Owned w) : Keeps w (inferElems constant t ns) Ty.Owned :=
  have hconst n w := types_owning.2 (hconst n w)
  types_owning.1 (related_inferElems uses_owning functional_owning hconst ns ⟨ht, rfl⟩)

end

theorem keeps_inferDepth (depth : Nat) (n : Node) (w : Owners) : Keeps w (inferDepth depth n) Ty.Owned :=
  types_owning.1 (related_inferDepth uses_owning functional_owning depth n)

theorem keeps_nodes (depth : Nat) (ns : List Node) :
    Keeps w (ns.mapM (inferDepth depth)) fun w ts => ∀ t ∈ ts, t.Owned w :=
  keeps_of_all (owning.mapM ns (related_inferDepth uses_owning functional_owning depth))

/-- Inference takes no owner and no class away, and the type of a node is owned. -/
theorem keeps_infer (n : Node) (w : Owners) : Keeps w (infer n) Ty.Owned := keeps_inferDepth _ n w

end Infer

end ScriptTyping
