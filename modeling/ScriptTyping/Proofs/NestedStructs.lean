import ScriptTyping.Proofs.InferLogic

/-!
# Structs that do not contain themselves

A struct is expanded wherever its name is used, and a struct that contains itself has no end of
expansions. Expansions go to a certain depth, and beyond it an annotation has no type. If structs can be
ranked so that each has only fields of lower ones, then this depth is never reached: an annotation has
the type, or fails for the reason, that it would have without any bound.

`Infer.settling` compares two computations that differ in how they expand structs. It goes through
annotations as they are resolved, where the structs that are mentioned are of lower and lower rank.

Main statement: `resolve_ranked`.
-/

namespace ScriptTyping

open List

/-! ## Ranks -/

/-- All structs of a scope that an annotation mentions are of lower rank. -/
def Scope.Below (sc : Scope) (rank : String → Nat) (bound : Nat) (e : TypeExpr) : Prop :=
  e.All fun u => ∀ name ∈ u.structName?, (sc.structDecl? name).isSome = true → rank name < bound

/-- The fields of a struct mention structs of lower rank. Enums may mention anything. -/
def Scope.Ranked (sc : Scope) (rank : String → Nat) : Prop :=
  ∀ name, ∀ d ∈ sc.structDecl? name, ∀ f ∈ d.fields, sc.Below rank (rank name) f.ann

theorem length_filter_le_foldl {α : Type} (weight : α → Nat) (xs : List α) (n : Nat) :
    n + (xs.filter fun x => 0 < weight x).length ≤ xs.foldl (fun w x => w + weight x) n := by
  induction xs generalizing n with
  | nil => exact le_rfl
  | cons x xs ih =>
    have hrest := ih (n + weight x)
    rw [filter_cons, foldl_cons]
    split
    next h =>
      have hx := of_decide_eq_true h
      rw [length_cons]
      omega
    next => omega

namespace Scope

variable {sc s : Scope} {rank : String → Nat} {name : String} {bound : Nat}

/-- The names of entries that write a struct. -/
def structEntries (sc : Scope) : List String :=
  sc.flatMap fun f => (f.decls.filter fun e => 0 < e.2.structWeight).map Prod.fst

/-- The names that are those of structs. -/
def structNames (sc : Scope) : Finset String :=
  sc.structEntries.toFinset.filter fun name => (sc.structDecl? name).isSome = true

theorem mem_structNames : name ∈ sc.structNames ↔ (sc.structDecl? name).isSome = true := by
  refine Finset.mem_filter.trans (and_iff_right_of_imp fun h => mem_toFinset.2 ?_)
  unfold structDecl? at h
  split at h
  next d hd =>
    obtain ⟨f, hf, hget⟩ := exists_of_findSome?_eq_some hd
    refine mem_flatMap.2 ⟨f, hf, mem_map.2 ⟨_, mem_filter.2 ⟨Dict.mem_of_get?_eq_some hget, ?_⟩, rfl⟩⟩
    simp [Node.structWeight, StructDecl.weight, Node.walk, Node.visit]
  next => cases h

theorem length_structEntries (sc : Scope) (n : Nat) :
    n + sc.structEntries.length ≤ sc.foldl (fun w f => w + f.structWeight) n := by
  induction sc generalizing n with
  | nil => exact le_rfl
  | cons f sc ih =>
    have hframe := length_filter_le_foldl (fun e : String × Node => e.2.structWeight) f.decls 0
    have hrest := ih (n + f.structWeight)
    rw [foldl_cons]
    simp only [structEntries, flatMap_cons, length_append, length_map, Frame.structWeight] at hframe hrest ⊢
    omega

/-- How many structs are of lower rank. -/
def level (sc : Scope) (rank : String → Nat) (bound : Nat) : Nat := (sc.structNames.filter (rank · < bound)).card

theorem level_lt (h : (sc.structDecl? name).isSome = true) (hb : rank name < bound) :
    sc.level rank (rank name) < sc.level rank bound := by
  refine Finset.card_lt_card ((Finset.ssubset_iff_of_subset fun m hm => ?_).2 ⟨name, ?_, by simp⟩)
  · rw [Finset.mem_filter] at hm ⊢
    exact ⟨hm.1, hm.2.trans hb⟩
  · exact Finset.mem_filter.2 ⟨mem_structNames.2 h, hb⟩

/-- The same structs and enums are seen from two scopes. -/
def Sees (sc s : Scope) : Prop := ∀ name, s.decl? name = sc.decl? name

theorem Sees.structDecl? (h : sc.Sees s) (name : String) : s.structDecl? name = sc.structDecl? name := by
  rw [Scope.structDecl?, Scope.structDecl?, h]

/-- Structs are expanded deep enough for all of them, also where other frames were entered. -/
theorem Sees.level_le (h : sc.Sees s) : sc.level rank bound ≤ s.structDepth := by
  have hnames : sc.structNames = s.structNames := by
    ext name
    rw [mem_structNames, mem_structNames, h.structDecl?]
  have hcard : s.structNames.card ≤ s.structWeight := by
    have hlength := length_structEntries s 0
    exact (Finset.card_filter_le ..).trans ((toFinset_card_le _).trans (by simpa [structWeight] using hlength))
  rw [level, hnames]
  refine (Finset.card_filter_le ..).trans (hcard.trans ?_)
  unfold structDepth
  nlinarith

end Scope

namespace Infer

/-! ## Two ways to expand structs -/

variable {α β : Type} {sc : Scope} {rank : String → Nat} {bound : Nat} {σ : Inference}

/-- What two computations come to is the same, but for results that are related, and it is not that a struct is
recursive. At most the innermost frame of `σ` was changed, and it does not declare structs or enums. -/
inductive Settled (sc : Scope) (σ : Inference) (R : α → α → Prop) :
    Except CheckError α × Inference → Except CheckError α × Inference → Prop
  | ok {r r' τ} (h : R r r') (htail : τ.scope.tail = σ.scope.tail) (hτ : sc.Sees τ.scope) :
    Settled sc σ R (.ok r, τ) (.ok r', τ)
  | error {e τ} (h : ∀ name, e ≠ .recursiveStruct name) : Settled sc σ R (.error e, τ) (.error e, τ)

theorem Settled.of_tail {τ : Inference} {R : α → α → Prop} {p q : Except CheckError α × Inference}
    (h : Settled sc τ R p q) (htail : τ.scope.tail = σ.scope.tail) : Settled sc σ R p q := by
  cases h with
  | ok h hlast hτ => exact .ok h (hlast.trans htail) hτ
  | error h => exact .error h

theorem Settled.eq {p q : Except CheckError α × Inference} (h : Settled sc σ Eq p q) : p = q := by
  cases h with
  | ok h => rw [h]
  | error => rfl

theorem Settled.of_ran {τ : Inference} {R : α → α → Prop} {x : Infer α} {r : α} (hx : Ran x σ r τ) (h : R r r)
    (hσ : sc.Sees σ.scope) (hscope : τ.scope = σ.scope) : Settled sc σ R (x.run.run σ) (x.run.run σ) := by
  rw [show x.run.run σ = _ from hx]
  exact .ok h (congrArg List.tail hscope) (hscope ▸ hσ)

/-- To come to the same, whichever way structs are expanded. -/
def settling (sc : Scope) : Resolution where
  World := Unit
  type _ := Eq
  state _ σ σ' := σ = σ' ∧ sc.Sees σ.scope
  rel _ R x y := ∀ σ, sc.Sees σ.scope → Settled sc σ (R ()) (x.run.run σ) (y.run.run σ)
  mono _ h := h
  const {_ name _} := Eq.refl (Ty.con name [] _)
  app h := by rw [eq_of_forall₂ h]
  primitives h := h.1 ▸ rfl
  scope h := h.1 ▸ .rfl
  tparam? name h := by
    obtain ⟨rfl, -⟩ := h
    cases Scope.tparam? _ name with
    | none => exact .none
    | some t => exact .some rfl
  pure h _ hσ := .ok h rfl hσ
  throw h σ _ := by cases h <;> subst_vars <;> exact .error (by simp)
  bind {_ _ _ _ _ x y _ _} hx hk σ hσ := by
    have hfirst := hx σ hσ
    rw [ExceptT.run_bind, ExceptT.run_bind, StateT.run_bind, StateT.run_bind]
    generalize x.run.run σ = p at hfirst ⊢
    generalize y.run.run σ = q at hfirst ⊢
    cases hfirst with
    | error h => exact .error h
    | ok h htail hτ => exact (@hk () _ _ trivial h _ hτ).of_tail htail
  get h σ hσ := h ⟨rfl, hσ⟩ σ hσ
  within {_ _ _ x y} hx σ hσ := by
    have hinner := hx { σ with scope := .empty :: σ.scope } hσ
    show Settled sc σ _ ((x >>= fun r => modifyScope List.tail >>= fun _ => pure r).run.run _)
      ((y >>= fun r => modifyScope List.tail >>= fun _ => pure r).run.run _)
    rw [ExceptT.run_bind, ExceptT.run_bind, StateT.run_bind, StateT.run_bind]
    generalize x.run.run _ = p at hinner ⊢
    generalize y.run.run _ = q at hinner ⊢
    cases hinner with
    | error h => exact .error h
    | @ok _ _ τ h htail _ =>
      have hscope : τ.scope.tail = σ.scope := htail
      exact .ok h (congrArg List.tail hscope) (show sc.Sees τ.scope.tail from hscope ▸ hσ)
  fresh _ hσ := .ok rfl rfl hσ
  growing name h _ hσ := eq_of_forall₂ h ▸ .ok rfl rfl hσ
  require {_ t _} c h σ hσ := by
    subst h
    cases hreq : σ.scope.instances.require? σ.supply.attachments t c with
    | none => exact .of_ran (ran_require.2 (.inl ⟨hreq, rfl, rfl⟩)) ⟨rfl, rfl⟩ hσ rfl
    | some a => exact .of_ran (ran_require.2 (.inr ⟨a, hreq, rfl, rfl⟩)) ⟨rfl, rfl⟩ hσ rfl
  declareTypeParam name h := by
    rintro ⟨prims, supply, scope, constraints, slots⟩ hσ
    cases h
    cases scope <;> exact .ok ⟨rfl, rfl⟩ rfl hσ

/-- A struct is expanded alike if its fields are. -/
theorem settled_structType {expand expand' : TypeExpr → Infer Ty} {d : StructDecl} {ts ts' : List Ty}
    (h : ∀ f ∈ d.fields, (settling sc).Types () (expand f.ann) (expand' f.ann)) (hts : (settling sc).all () ts ts') :
    (settling sc).Types () (structType expand d ts) (structType expand' d ts') :=
  related_structType (fun h _ hσ => eq_of_forall₂ (h.imp fun _ _ h => Prod.ext h.1 h.2) ▸ .ok rfl rfl hσ)
    (fun f hf _ => h f hf) hts

/-! ## Depths -/

/-- A struct of lower rank. -/
def Lower (sc : Scope) (rank : String → Nat) (bound : Nat) (d : StructDecl) : Prop :=
  ∃ name, d ∈ sc.structDecl? name ∧ sc.level rank (rank name) < sc.level rank bound

theorem mentions_lower {e : TypeExpr} (he : sc.Below rank bound e) :
    (settling sc).Mentions (Lower sc rank bound) e := by
  intro u hu name hname _ σ _ hσ d hd
  rw [hσ.2.structDecl?] at hd
  exact ⟨name, hd, Scope.level_lt (Option.isSome_of_mem hd) (he u hu name hname (Option.isSome_of_mem hd))⟩

/-- Without a struct of lower rank, none is expanded. -/
theorem settled_of_level {e : TypeExpr} (h : sc.level rank bound = 0) (he : sc.Below rank bound e)
    (expand expand' : StructDecl → List Ty → Infer Ty) :
    (settling sc).Types () (resolveWith expand e) (resolveWith expand' e) := by
  have hexp : (settling sc).Expands (Lower sc rank bound) expand expand' := by
    rintro d ⟨_, _, hlevel⟩
    omega
  exact related_resolveWith hexp e (mentions_lower he)

/-- Two depths are as good as each other if both have a place for each struct of lower rank. -/
theorem settled_resolveDepth (hsc : sc.Ranked rank) {depth depth' : Nat} (hd : sc.level rank bound ≤ depth)
    (hd' : sc.level rank bound ≤ depth') {e : TypeExpr} (he : sc.Below rank bound e) :
    (settling sc).Types () (resolveDepth depth e) (resolveDepth depth' e) := by
  induction depth generalizing depth' bound e with
  | zero => cases depth' <;> exact settled_of_level (Nat.le_zero.1 hd) he _ _
  | succ depth ih =>
    cases depth' with
    | zero => exact settled_of_level (Nat.le_zero.1 hd') he _ _
    | succ depth' =>
      have hexp : (settling sc).Expands (Lower sc rank bound) (structType (resolveDepth depth))
          (structType (resolveDepth depth')) := by
        rintro d ⟨name, hname, hlevel⟩ _ _ _ hts
        exact settled_structType (fun f hf => ih (by omega) (by omega) (hsc name d hname f hf)) hts
      exact related_resolveWith hexp e (mentions_lower he)

theorem settled_resolve (hsc : sc.Ranked rank) {depth : Nat} (hd : sc.level rank bound ≤ depth) {e : TypeExpr}
    (he : sc.Below rank bound e) : (settling sc).Types () (resolve e) (resolveDepth depth e) :=
by
  intro σ hσ
  have hget (f : Scope → Infer Ty) : (scope >>= f).run.run σ = (f σ.scope).run.run σ := rfl
  rw [resolve, hget]
  exact settled_resolveDepth hsc hσ.level_le hd he σ hσ

/-- If structs can be ranked so that each has only fields of lower ones, then an annotation is resolved to a
type or fails, and never because a struct would contain itself. It comes to what it would come to if
structs were expanded without a bound, so no greater depth makes a difference. -/
theorem resolve_ranked (e : TypeExpr) (σ : Inference) (rank : String → Nat) (h : σ.scope.Ranked rank) :
    ((∃ t τ, Ran (resolve e) σ t τ) ∨
      ∃ err τ, (resolve e).run.run σ = (.error err, τ) ∧ ∀ name, err ≠ .recursiveStruct name) ∧
    (resolve e).run.run σ = (resolveWith expandStruct e).run.run σ ∧
    ∀ depth, σ.scope.structDepth ≤ depth → (resolve e).run.run σ = (resolveDepth depth e).run.run σ := by
  have hself : σ.scope.Sees σ.scope := fun _ => rfl
  have he (u : TypeExpr) : σ.scope.Below rank (σ.scope.structNames.sup rank + 1) u := fun _ _ name _ hname =>
    Nat.lt_succ_of_le (Finset.le_sup (Scope.mem_structNames.2 hname))
  have hdepth {depth : Nat} (hd : σ.scope.structDepth ≤ depth) (u : TypeExpr) :
      (settling σ.scope).Types () (resolve u) (resolveDepth depth u) :=
    settled_resolve h (hself.level_le.trans hd) (he u)
  have hexp : (settling σ.scope).Expands (Lower σ.scope rank (σ.scope.structNames.sup rank + 1)) expandStruct
      (structType (resolveDepth σ.scope.structDepth)) :=
    fun _ _ _ _ _ => settled_structType fun f _ => hdepth le_rfl f.ann
  have hexpand := related_resolveWith hexp e (mentions_lower (he e)) (w := ()) σ hself
  refine ⟨?_, ?_, fun depth hd => (hdepth hd e σ hself).eq⟩
  · have hsettled := hdepth le_rfl e σ hself
    generalize hx : (resolve e).run.run σ = p at hsettled
    generalize (resolveDepth _ e).run.run σ = q at hsettled
    cases hsettled with
    | ok => exact .inl ⟨_, _, hx⟩
    | error herr => exact .inr ⟨_, _, rfl, herr⟩
  · exact (hdepth (Nat.le_succ _) e σ hself).eq.trans hexpand.eq.symm

/-- A struct over a type, with tags that are an enum. -/
def boxStruct : StructDecl := ⟨"Box", [⟨"T", []⟩], [⟨"item", .named "T"⟩, ⟨"tags", .array (.named "Tag")⟩]⟩

/-- A struct with a field of the other one. -/
def crateStruct : StructDecl := ⟨"Crate", [], [⟨"box", .structRef "Box" [.named "Tag"]⟩]⟩

/-- The state in which they are declared. The enum mentions itself. -/
def crateState : Inference :=
  ⟨[], ⟨0, ⟨[], 0, []⟩⟩, [{ Frame.empty with decls := [("Box", .structDecl boxStruct), ("Crate", .structDecl crateStruct),
    ("Tag", .enumDecl ⟨"Tag", [], [⟨"Of", .tuple, [.named "Tag"], [], .missing⟩]⟩)] }], [], []⟩

/-- A struct with a field of another one is expanded. -/
theorem resolve_ranked_crate : ∃ rank, crateState.scope.Ranked rank ∧
    (resolve (.named "Crate")).run.run crateState = (resolveWith expandStruct (.named "Crate")).run.run crateState := by
  have h : crateState.scope.Ranked fun name => if name = "Crate" then 1 else 0 := by
    intro name d hd f hf u hu n hn hsome
    have hcases : name = "Box" ∧ d = boxStruct ∨ name = "Crate" ∧ d = crateStruct := by
      simp only [crateState, Scope.structDecl?, Scope.decl?, findSome?_cons, findSome?_nil, Dict.get?_cons,
        Dict.get?_nil] at hd
      by_cases hbox : "Box" = name
      · simp_all
      · by_cases hcrate : "Crate" = name
        · simp_all
        · by_cases htag : "Tag" = name <;> simp_all
    rcases hcases with ⟨rfl, rfl⟩ | ⟨rfl, rfl⟩
    · have hn : n = "T" ∨ n = "Tag" := by
        simp only [boxStruct, mem_cons, not_mem_nil, or_false] at hf
        rcases hf with rfl | rfl <;> simp [TypeExpr.walk] at hu <;> grind [TypeExpr.structName?]
      rcases hn with rfl | rfl <;> exact absurd hsome (by decide)
    · have hn : n = "Box" ∨ n = "Tag" := by
        simp only [crateStruct, mem_singleton] at hf
        subst hf
        simp [TypeExpr.walk, TypeExpr.walkAll] at hu
        grind [TypeExpr.structName?]
      rcases hn with rfl | rfl <;> decide
  exact ⟨_, h, (resolve_ranked _ _ _ h).2.1⟩

end Infer

end ScriptTyping
