import ScriptTyping.Proofs.GeneralSolutions
import ScriptTyping.Proofs.Running
import ScriptTyping.Proofs.SimplyTyped

/-!
# Inference on the core

On an expression of the core inference does not fail, and what it asks for says exactly that the
expression has a type.

* Soundness: a valuation that makes the sides of all equations one makes the found type a type of the
  expression.
* Completeness: for each type that the expression can have, a valuation can be extended to what was
  drawn, so that the equations hold and the found type becomes that type.

A valuation `Models` a context and a state if it gives the names the types of the context and makes
the sides of the equations one. Variables are drawn in order, so a valuation is extended without
touching what was drawn before (`Extends`).

Main statements: `inferred_of_core` for expressions, `inferredLets_of_core` for programs.
-/

namespace ScriptTyping

open Ty Infer List ScriptTyping.Valuation Scope

variable {σ : Inference} {ts : List Ty} {sc : Scope} {name : String}

/-! ## What is drawn -/

/-- Cells that are not made yet have no classes. -/
def Attachments.Unfilled (a : Attachments) : Prop := ∀ c, a.next ≤ c → a.get c = []

/-- A type over variables that were drawn, of which none has classes. -/
structure Ty.Drawn (s : Supply) (t : Ty) : Prop where
  simple : t.Simple s.attachments
  ids : ∀ id ∈ t.ids, ∃ k < s.count, id = Var.generatedId k

/-- More variables were drawn, and those from before have no classes if they had none. -/
structure Supply.Grows (s s' : Supply) : Prop where
  count : s.count ≤ s'.count
  spares : s.attachments.Spares s'.attachments

namespace Supply

variable {s s' s'' : Supply}

theorem Grows.rfl : s.Grows s := ⟨Nat.le_refl _, .rfl⟩

theorem Grows.trans (h : s.Grows s') (h' : s'.Grows s'') : s.Grows s'' :=
  ⟨Nat.le_trans h.count h'.count, h.spares.trans h'.spares⟩

theorem grows_fresh (s : Supply) : s.Grows s.fresh.2 := ⟨Nat.le_succ _, fun _ h => h⟩

theorem unfilled_fresh (h : s.attachments.Unfilled) : s.fresh.2.attachments.Unfilled :=
  fun c hc => h c (Nat.le_of_succ_le hc)

end Supply

namespace Ty

variable {s s' : Supply} {t : Ty}

theorem Drawn.mono (h : t.Drawn s) (hs : s.Grows s') : t.Drawn s' := by
  refine ⟨h.simple.mono hs.spares, fun id hid => ?_⟩
  obtain ⟨k, hk, heq⟩ := h.ids id hid
  exact ⟨k, Nat.lt_of_lt_of_le hk hs.count, heq⟩

theorem Drawn.isMissing (h : t.Drawn s) : t.isMissing = false := by
  cases h.simple.1 <;> rfl

theorem fresh_fst (s : Supply) : s.fresh.1 = .var ⟨Var.generatedId s.count, s.attachments.next⟩ := rfl

theorem drawn_fresh (h : s.attachments.Unfilled) : s.fresh.1.Drawn s.fresh.2 := by
  refine ⟨simple_var.2 (h _ (Nat.le_refl _)), fun id hid => ?_⟩
  rw [fresh_fst] at hid
  exact ⟨s.count, Nat.lt_succ_self _, by simpa using hid⟩

theorem drawn_con {args : List Ty} {l : Label} (h : ∀ t ∈ args, t.Drawn s) : (con name args l).Drawn s := by
  refine ⟨simple_con.2 fun t ht => (h t ht).simple, fun id hid => ?_⟩
  obtain ⟨t, ht, hid⟩ := mem_ids_con.1 hid
  exact (h t ht).ids id hid

theorem drawn_arrow (hs : ∀ t ∈ ts, t.Drawn s) (h : t.Drawn s) : (arrow ts t).Drawn s :=
  drawn_con fun u hu => (mem_append.1 hu).elim (hs u) fun hu => mem_singleton.1 hu ▸ h

end Ty

/-- All types of the state are drawn, and names have one type each. -/
structure Inference.Drawn (σ : Inference) : Prop where
  unfilled : σ.supply.attachments.Unfilled
  scope : ∀ x s, σ.scope.lookup? x = some s → s.vars = [] ∧ s.type.Drawn σ.supply
  constraints : ∀ c ∈ σ.constraints,
    c.kind = .equality ∧ c.left.Drawn σ.supply ∧ c.right.Drawn σ.supply

/-- Something was drawn, and equations between drawn types were asked for. -/
structure Inference.Draws (σ σ' : Inference) : Prop where
  drawn : σ'.Drawn
  grows : σ.supply.Grows σ'.supply
  constraints : σ.constraints <+: σ'.constraints

/-! ## Valuations -/

namespace Valuation

/-- The second valuation gives the same to what was drawn first. -/
def Extends (count : Nat) (θ θ' : Valuation) : Prop :=
  ∀ k < count, θ (Var.generatedId k) = θ' (Var.generatedId k)

/-- The valuation gives the names of the scope the types of the context. -/
def Reads (θ : Valuation) (Γ : Context) (sc : Scope) : Prop :=
  ∀ x, (Γ x).map Ty.bare = (sc.lookup? x).map fun s => s.type.inst θ

/-- The valuation gives the names of the state the types of the context, and the equations of the
state hold under it. It shows structure only. -/
structure Models (θ : Valuation) (Γ : Context) (σ : Inference) : Prop where
  bare : ∀ id, (θ id).bare = θ id
  reads : θ.Reads Γ σ.scope
  solves : ∀ c ∈ σ.constraints, c.left.inst θ = c.right.inst θ

variable {θ θ' θ'' : Valuation} {Γ : Context} {σ σ' : Inference} {t : Ty} {s : Supply}

theorem Extends.rfl {count : Nat} : Extends count θ θ := fun _ _ => Eq.refl _

theorem Extends.trans {m n : Nat} (h : Extends m θ θ') (h' : Extends n θ' θ'')
    (hmn : m ≤ n) : Extends m θ θ'' :=
  fun k hk => (h k hk).trans (h' k (Nat.lt_of_lt_of_le hk hmn))

theorem Extends.inst_eq (h : Extends s.count θ θ') (ht : t.Drawn s) : t.inst θ = t.inst θ' := by
  refine inst_congr fun id hid => ?_
  obtain ⟨k, hk, rfl⟩ := ht.ids id hid
  exact h k hk

theorem Models.bare_inst (h : θ.Models Γ σ) (t : Ty) : (t.inst θ).bare = t.inst θ := by
  rw [Ty.bare, inst_inst]
  exact inst_congr fun id _ => h.bare id

/-- Fewer equations hold all the more. -/
theorem Models.earlier (h : θ.Models Γ σ') (hd : σ.constraints <+: σ'.constraints)
    (hscope : σ'.scope = σ.scope) : θ.Models Γ σ :=
  ⟨h.bare, hscope ▸ h.reads, fun c hc => h.solves c (hd.subset hc)⟩

/-- What was drawn before does not notice. -/
theorem Models.extend (h : θ.Models Γ σ) (hσ : σ.Drawn) (hθ : Extends σ.supply.count θ θ')
    (hbare : ∀ id, (θ' id).bare = θ' id) : θ'.Models Γ σ := by
  refine ⟨hbare, fun x => (h.reads x).trans (Option.map_congr fun s hs => ?_), fun c hc => ?_⟩
  · exact hθ.inst_eq (hσ.scope x s hs).2
  · obtain ⟨-, hl, hr⟩ := hσ.constraints c hc
    rw [← hθ.inst_eq hl, ← hθ.inst_eq hr, h.solves c hc]

theorem Reads.declare {f : Frame} {u : Ty} (h : θ.Reads Γ (f :: sc)) (ht : t.inst θ = u.bare) :
    θ.Reads (Γ.declare name u) (f.declare name (.mono t) :: sc) := by
  intro x
  rw [lookup?_declare, Context.declare]
  split
  · exact congrArg some ht.symm
  · exact h x

/-- The valuation with another type for a variable. -/
def set (θ : Valuation) (id : String) (t : Ty) : Valuation := fun x => if x = id then t else θ x

theorem extends_set (θ : Valuation) (count : Nat) (t : Ty) :
    Extends count θ (θ.set (Var.generatedId count) t) := by
  intro k hk
  rw [set, if_neg fun h => Nat.ne_of_lt hk (Var.generatedId_injective h)]

end Valuation

/-! ## Steps -/

section

variable {θ : Valuation} {Γ : Context} {σ σ' σ'' : Inference} {l r t : Ty}

namespace Inference

/-- One more variable was drawn. -/
def draw (σ : Inference) : Inference := { σ with supply := σ.supply.fresh.2 }

/-- One more equation was asked for. -/
def ask (σ : Inference) (l r : Ty) : Inference :=
  { σ with constraints := σ.constraints ++ [.equal l r] }

theorem Drawn.rfl (h : σ.Drawn) : σ.Draws σ := ⟨h, .rfl, prefix_rfl⟩

theorem Draws.trans (h : σ.Draws σ') (h' : σ'.Draws σ'') : σ.Draws σ'' :=
  ⟨h'.drawn, h.grows.trans h'.grows, h.constraints.trans h'.constraints⟩

theorem Drawn.withScope (h : σ.Drawn) (hsc : ∀ x s, sc.lookup? x = some s → s.vars = [] ∧ s.type.Drawn σ.supply) :
    σ.Draws { σ with scope := sc } :=
  ⟨⟨h.unfilled, hsc, h.constraints⟩, .rfl, prefix_rfl⟩

theorem Drawn.draw (h : σ.Drawn) : σ.Draws σ.draw := by
  have hgrows := σ.supply.grows_fresh
  refine ⟨⟨Supply.unfilled_fresh h.unfilled, fun x s hs => ?_, fun c hc => ?_⟩, hgrows,
    prefix_rfl⟩
  · obtain ⟨hvars, htype⟩ := h.scope x s hs
    exact ⟨hvars, htype.mono hgrows⟩
  · obtain ⟨hk, hl, hr⟩ := h.constraints c hc
    exact ⟨hk, hl.mono hgrows, hr.mono hgrows⟩

theorem Drawn.ask (h : σ.Drawn) (hl : l.Drawn σ.supply) (hr : r.Drawn σ.supply) : σ.Draws (σ.ask l r) := by
  refine ⟨⟨h.unfilled, h.scope, fun c hc => ?_⟩, .rfl, ⟨_, Eq.refl _⟩⟩
  rcases mem_append.1 hc with hc | hc
  · exact h.constraints c hc
  · rw [mem_singleton.1 hc]
    exact ⟨Eq.refl _, hl, hr⟩

end Inference

namespace Valuation

/-- A new variable can stand for any type. -/
theorem Models.draw (h : θ.Models Γ σ) (hσ : σ.Drawn) (t : Ty) :
    ∃ θ', Extends σ.supply.count θ θ' ∧ θ'.Models Γ σ.draw ∧
      σ.supply.fresh.1.inst θ' = t.bare := by
  have hext := extends_set θ σ.supply.count t.bare
  have hbare : ∀ id, (θ.set (Var.generatedId σ.supply.count) t.bare id).bare =
      θ.set (Var.generatedId σ.supply.count) t.bare id := by
    intro id
    unfold set
    split
    · exact bare_bare t
    · exact h.bare id
  have hmodels := h.extend hσ hext hbare
  refine ⟨_, hext, ⟨hmodels.bare, hmodels.reads, hmodels.solves⟩, ?_⟩
  show θ.set (Var.generatedId σ.supply.count) t.bare (Var.generatedId σ.supply.count) = t.bare
  rw [set, if_pos rfl]

theorem models_ask : θ.Models Γ (σ.ask l r) ↔ θ.Models Γ σ ∧ l.inst θ = r.inst θ := by
  constructor
  · intro h
    exact ⟨⟨h.bare, h.reads, fun c hc => h.solves c (mem_append_left _ hc)⟩,
      h.solves _ (mem_append_right _ mem_cons_self)⟩
  · rintro ⟨h, heq⟩
    refine ⟨h.bare, h.reads, fun c hc => ?_⟩
    rcases mem_append.1 hc with hc | hc
    · exact h.solves c hc
    · rw [mem_singleton.1 hc]
      exact heq

end Valuation

theorem Infer.ran_draw : Ran fresh σ σ.supply.fresh.1 σ.draw := ran_fresh.2 ⟨rfl, rfl⟩

theorem Infer.ran_ask : Ran (equate l r) σ () (σ.ask l r) := ran_equate.2 rfl

/-- A use of a name that has one type has that type. -/
theorem Infer.ran_instantiate_mono {s : Scheme} (hs : s.vars = []) (ht : s.type.Plain) :
    Ran (instantiate s) σ s.type σ := by
  have hnone : Scheme.renewal σ.supply s.vars [] = ([], σ.supply) := by rw [hs]; rfl
  refine ran_instantiate.2 ?_
  simp only [Scheme.instantiate, hnone]
  rw [Attachments.apply_of_tailless _ (by simp) ht.tailless]
  exact ⟨rfl, rfl⟩

end

/-! ## Expressions -/

/-- From the first state, the type was found for the expression: the equations that were asked for say
that the expression has it. -/
structure Inferred (n : Node) (σ : Inference) (t : Ty) (σ' : Inference) : Prop where
  draws : σ.Draws σ'
  scope : σ'.scope = σ.scope
  type : t.Drawn σ'.supply
  sound : ∀ {Γ : Context} {θ : Valuation}, θ.Models Γ σ' → HasType Γ n (t.inst θ)
  complete : ∀ {Γ : Context} {θ : Valuation} {u : Ty}, θ.Models Γ σ → HasType Γ n u →
    ∃ θ', Valuation.Extends σ.supply.count θ θ' ∧ θ'.Models Γ σ' ∧ t.inst θ' = u.bare

/-- The names are declared. -/
def Inference.Knows (σ : Inference) (names : List String) : Prop :=
  ∀ x ∈ names, (σ.scope.lookup? x).isSome = true

theorem Inference.Knows.of_scope {σ' : Inference} {names : List String} (h : σ.Knows names)
    (hscope : σ'.scope = σ.scope) : σ'.Knows names := by
  unfold Inference.Knows
  rwa [hscope]

/-- Where the names are declared, inference finds a type for the expression. -/
def Infers (constant : Node → Infer Ty) (names : List String) (n : Node) : Prop :=
  ∀ ⦃σ : Inference⦄, σ.Drawn → σ.Knows names →
    ∃ t σ', Ran (inferWith constant n) σ t σ' ∧ Inferred n σ t σ'

section

variable {constant : Node → Infer Ty} {names : List String} {σ₁ : Inference} {body n : Node} {t : Ty}

/-- The type of a literal is known. -/
theorem infers_literal (hrun : inferWith constant n = pure (primitive name))
    (hrule : ∀ Γ u, HasType Γ n u ↔ (primitive name).equal u = true) : Infers constant names n := by
  intro σ hσ _
  have hinst (θ : Valuation) : (primitive name).inst θ = (primitive name).bare := rfl
  refine ⟨primitive name, σ, hrun ▸ ran_pure.2 ⟨rfl, rfl⟩, hσ.rfl, rfl, drawn_con (by simp), ?_, ?_⟩
  · intro Γ θ _
    rw [hrule, hinst, equal_iff, bare_bare]
  · intro Γ θ u hθ hu
    refine ⟨θ, .rfl, hθ, ?_⟩
    rw [hinst, equal_iff.1 ((hrule Γ u).1 hu)]

theorem infers_ident (h : name ∈ names) : Infers constant names (.ident name) := by
  intro σ hσ hnames
  obtain ⟨s, hs⟩ := Option.isSome_iff_exists.1 (hnames name h)
  obtain ⟨hvars, htype⟩ := hσ.scope name s hs
  have hread {Γ : Context} {θ : Valuation} (hθ : θ.Models Γ σ) :
      ∃ u, Γ name = some u ∧ u.bare = s.type.inst θ := by
    have hx := hθ.reads name
    rw [hs] at hx
    exact Option.map_eq_some_iff.1 hx
  refine ⟨s.type, σ, ?_, hσ.rfl, rfl, htype, ?_, ?_⟩
  · simp only [inferWith, nameType, ran_bind, ran_scope]
    refine ⟨_, _, ⟨rfl, rfl⟩, ?_⟩
    rw [hs]
    exact ran_instantiate_mono hvars htype.simple.1
  · intro Γ θ hθ
    obtain ⟨u, hu, heq⟩ := hread hθ
    exact .ident hu (equal_iff.2 (by rw [hθ.bare_inst, heq]))
  · intro Γ θ u hθ hu
    cases hu with
    | ident hx he =>
      obtain ⟨w, hw, heq⟩ := hread hθ
      obtain rfl := Option.some.inj (hx.symm.trans hw)
      exact ⟨θ, .rfl, hθ, by rw [← heq, equal_iff.1 he]⟩

theorem drawn_boolean {s : Supply} : boolean.Drawn s := drawn_con (by simp)

theorem Infer.ran_expectBoolean_of (h : t.isMissing = false) : Ran (expectBoolean t) σ () (σ.ask t boolean) := by
  unfold expectBoolean
  rw [h]
  exact ran_ask

theorem Infer.ran_expectValue_of (h : t.isMissing = false) (op : String) (σ : Inference) :
    Ran (expectValue op t) σ () σ := by
  unfold expectValue
  rw [h]
  exact ran_pure.2 ⟨rfl, rfl⟩

theorem infers_ternary {cond yes no : Node} (hc : Infers constant names cond)
    (hy : Infers constant names yes) (hn : Infers constant names no) :
    Infers constant names (.ternary cond yes no) := by
  intro σ hσ hnames
  obtain ⟨c, σ₁, hrun₁, h₁⟩ := hc hσ hnames
  have hdraws₂ := h₁.draws.drawn.ask h₁.type drawn_boolean
  obtain ⟨t, σ₃, hrun₃, h₃⟩ := hy hdraws₂.drawn (hnames.of_scope h₁.scope)
  obtain ⟨u, σ₄, hrun₄, h₄⟩ := hn h₃.draws.drawn (hnames.of_scope (h₃.scope.trans h₁.scope))
  have ht := h₃.type.mono h₄.draws.grows
  have hdraws₅ := h₄.draws.drawn.ask ht h₄.type
  refine ⟨t, σ₄.ask t u, ?_,
    h₁.draws.trans (hdraws₂.trans (h₃.draws.trans (h₄.draws.trans hdraws₅))),
    h₄.scope.trans (h₃.scope.trans h₁.scope), ht, ?_, ?_⟩
  · simp only [inferWith, ran_bind, ran_pure]
    exact ⟨c, σ₁, hrun₁, _, _, ran_expectBoolean_of h₁.type.isMissing, t, σ₃, hrun₃, u, σ₄, hrun₄,
      _, _, ran_expectValue_of ht.isMissing _ _, _, _, ran_expectValue_of h₄.type.isMissing _ _,
      _, _, ran_ask, rfl, rfl⟩
  · intro Γ θ hθ
    obtain ⟨hθ₄, htu⟩ := models_ask.1 hθ
    have hθ₃ := hθ₄.earlier h₄.draws.constraints h₄.scope
    obtain ⟨hθ₁, hbool⟩ :=
      models_ask.1 (hθ₃.earlier h₃.draws.constraints h₃.scope)
    have hcond : (c.inst θ).equal boolean = true := by
      rw [hbool]
      exact equal_iff.2 (bare_bare boolean)
    exact .ternary ((h₁.sound hθ₁).of_equal hcond) (h₃.sound hθ₃) (htu ▸ h₄.sound hθ₄)
  · intro Γ θ w hθ hw
    cases hw with
    | ternary hcond hyes hno =>
      obtain ⟨θ₁, hext₁, hθ₁, hc⟩ := h₁.complete hθ hcond
      obtain ⟨θ₃, hext₃, hθ₃, ht'⟩ := h₃.complete (models_ask.2 ⟨hθ₁, hc⟩) hyes
      obtain ⟨θ₄, hext₄, hθ₄, hu'⟩ := h₄.complete hθ₃ hno
      have htw : t.inst θ₄ = w.bare := (hext₄.inst_eq h₃.type).symm.trans ht'
      have hext := hext₃.trans hext₄ h₃.draws.grows.count
      exact ⟨θ₄, hext₁.trans hext h₁.draws.grows.count,
        models_ask.2 ⟨hθ₄, htw.trans hu'.symm⟩, htw⟩

/-- From the first state, the types were found for the expressions. -/
structure InferredAll (ns : List Node) (σ : Inference) (ts : List Ty) (σ' : Inference) : Prop where
  draws : σ.Draws σ'
  scope : σ'.scope = σ.scope
  types : ∀ t ∈ ts, t.Drawn σ'.supply
  length : ns.length = ts.length
  sound : ∀ {Γ : Context} {θ : Valuation}, θ.Models Γ σ' →
    ∀ p ∈ ns.zip (ts.map (inst θ)), HasType Γ p.1 p.2
  complete : ∀ {Γ : Context} {θ : Valuation} {us : List Ty}, θ.Models Γ σ →
    ns.length = us.length → (∀ p ∈ ns.zip us, HasType Γ p.1 p.2) →
    ∃ θ', Valuation.Extends σ.supply.count θ θ' ∧ θ'.Models Γ σ' ∧
      ts.map (inst θ') = us.map bare

variable {ns : List Node} {f : Frame} {sc : Scope} {params : List String} {vs : List Variable}

theorem infersAll (h : ∀ n ∈ ns, Infers constant names n) (hσ : σ.Drawn) (hnames : σ.Knows names) :
    ∃ ts σ', Ran (inferArgs constant ns) σ ts σ' ∧ InferredAll ns σ ts σ' := by
  induction ns generalizing σ with
  | nil =>
    refine ⟨[], σ, ran_pure.2 ⟨rfl, rfl⟩, hσ.rfl, rfl, by simp, rfl, by simp, ?_⟩
    intro Γ θ us hθ hlen _
    obtain rfl := length_eq_zero_iff.1 hlen.symm
    exact ⟨θ, .rfl, hθ, rfl⟩
  | cons n ns ih =>
    obtain ⟨hn, hns⟩ := forall_mem_cons.1 h
    obtain ⟨t, σ₁, hrun₁, h₁⟩ := hn hσ hnames
    obtain ⟨ts, σ₂, hrun₂, h₂⟩ := ih hns h₁.draws.drawn (hnames.of_scope h₁.scope)
    refine ⟨t :: ts, σ₂, ?_, h₁.draws.trans h₂.draws, h₂.scope.trans h₁.scope,
      forall_mem_cons.2 ⟨h₁.type.mono h₂.draws.grows, h₂.types⟩, by simp [h₂.length], ?_, ?_⟩
    · simp only [inferArgs, ran_bind, ran_pure]
      exact ⟨t, σ₁, hrun₁, _, _, ran_expectValue_of h₁.type.isMissing _ _, ts, σ₂, hrun₂, rfl, rfl⟩
    · intro Γ θ hθ
      have hθ₁ := hθ.earlier h₂.draws.constraints h₂.scope
      exact forall_mem_cons.2 ⟨h₁.sound hθ₁, h₂.sound hθ⟩
    · intro Γ θ us hθ hlen hus
      cases us with
      | nil => cases hlen
      | cons u us =>
        obtain ⟨hu, hus⟩ := forall_mem_cons.1 hus
        obtain ⟨θ₁, hext₁, hθ₁, ht⟩ := h₁.complete hθ hu
        obtain ⟨θ₂, hext₂, hθ₂, hts⟩ := h₂.complete hθ₁ (Nat.succ.inj hlen) hus
        refine ⟨θ₂, hext₁.trans hext₂ h₁.draws.grows.count, hθ₂, ?_⟩
        rw [map_cons, map_cons, hts, ← ht, hext₂.inst_eq h₁.type]

theorem Ty.inst_arrow (θ : Valuation) (ts : List Ty) (t : Ty) :
    (arrow ts t).inst θ = arrow (ts.map (inst θ)) (t.inst θ) := by
  rw [arrow, app, inst_con, map_append]
  rfl

theorem infers_call {callee : Node} {args : List Node} (hf : Infers constant names callee)
    (ha : ∀ n ∈ args, Infers constant names n) : Infers constant names (.call callee args) := by
  intro σ hσ hnames
  obtain ⟨c, σ₁, hrun₁, h₁⟩ := hf hσ hnames
  obtain ⟨ts, σ₂, hrun₂, h₂⟩ := infersAll ha h₁.draws.drawn (hnames.of_scope h₁.scope)
  have hdraws₃ := h₂.draws.drawn.draw
  have hdraws₂₃ := h₂.draws.trans hdraws₃
  have hr := drawn_fresh h₂.draws.drawn.unfilled
  generalize hfresh : σ₂.supply.fresh.1 = r at hr
  have hdraws₄ := hdraws₃.drawn.ask (h₁.type.mono hdraws₂₃.grows)
    (drawn_arrow (fun t ht => (h₂.types t ht).mono hdraws₃.grows) hr)
  refine ⟨r, σ₂.draw.ask c (.arrow ts r), ?_, h₁.draws.trans (hdraws₂₃.trans hdraws₄),
    h₂.scope.trans h₁.scope, hr, ?_, ?_⟩
  · simp only [inferWith, callType, ran_bind]
    refine ⟨c, σ₁, hrun₁, ts, σ₂, hrun₂, r, σ₂.draw, hfresh ▸ ran_draw, ?_⟩
    rw [h₁.type.isMissing]
    exact ran_bind.2 ⟨_, _, ran_ask, ran_pure.2 ⟨rfl, rfl⟩⟩
  · intro Γ θ hθ
    obtain ⟨hθ₃, hc⟩ := models_ask.1 hθ
    have hθ₂ := hθ₃.earlier hdraws₃.constraints rfl
    have hcallee := h₁.sound (hθ₂.earlier h₂.draws.constraints h₂.scope)
    rw [hc, inst_arrow] at hcallee
    exact .call hcallee (by rw [length_map, h₂.length]) (h₂.sound hθ₂)
  · intro Γ θ w hθ hw
    cases hw with
    | @call _ _ _ us _ hcallee hlen hargs =>
      obtain ⟨θ₁, hext₁, hθ₁, hc⟩ := h₁.complete hθ hcallee
      obtain ⟨θ₂, hext₂, hθ₂, hts⟩ := h₂.complete hθ₁ hlen hargs
      obtain ⟨θ₃, hext₃, hθ₃, hrw⟩ := hθ₂.draw h₂.draws.drawn w
      rw [hfresh] at hrw
      have hext₂₃ := hext₂.trans hext₃ h₂.draws.grows.count
      have hts' : ts.map (inst θ₃) = us.map bare := by
        rw [← hts]
        exact map_congr_left fun t ht => (hext₃.inst_eq (h₂.types t ht)).symm
      refine ⟨θ₃, hext₁.trans hext₂₃ h₁.draws.grows.count, models_ask.2 ⟨hθ₃, ?_⟩, hrw⟩
      rw [← hext₂₃.inst_eq h₁.type, hc, bare_arrow, inst_arrow, hts', hrw]

/-- Elements after the first one are asked to have its type. -/
theorem infers_elements (h : ∀ n ∈ ns, Infers constant names n) {first : Ty} (hσ : σ.Drawn)
    (hnames : σ.Knows names) (hfirst : first.Drawn σ.supply) :
    ∃ σ', Ran (inferElems constant first ns) σ first σ' ∧ σ.Draws σ' ∧ σ'.scope = σ.scope ∧
      (∀ {Γ : Context} {θ : Valuation}, θ.Models Γ σ' → ∀ n ∈ ns, HasType Γ n (first.inst θ)) ∧
      ∀ {Γ : Context} {θ : Valuation} {u : Ty}, θ.Models Γ σ → first.inst θ = u.bare → (∀ n ∈ ns, HasType Γ n u) →
        ∃ θ', Valuation.Extends σ.supply.count θ θ' ∧ θ'.Models Γ σ' := by
  induction ns generalizing σ with
  | nil =>
    exact ⟨σ, ran_pure.2 ⟨rfl, rfl⟩, hσ.rfl, rfl, by simp, fun hθ _ _ => ⟨_, .rfl, hθ⟩⟩
  | cons n ns ih =>
    obtain ⟨hn, hns⟩ := forall_mem_cons.1 h
    obtain ⟨t, σ₁, hrun₁, h₁⟩ := hn hσ hnames
    have hfirst₁ := hfirst.mono h₁.draws.grows
    have hdraws₂ := h₁.draws.drawn.ask hfirst₁ h₁.type
    obtain ⟨σ₃, hrun₃, hdraws₃, hscope₃, hsound₃, hcomplete₃⟩ :=
      ih hns hdraws₂.drawn (hnames.of_scope h₁.scope) (hfirst₁.mono hdraws₂.grows)
    refine ⟨σ₃, ?_, h₁.draws.trans (hdraws₂.trans hdraws₃), hscope₃.trans h₁.scope, ?_, ?_⟩
    · simp only [inferElems, ran_bind]
      refine ⟨t, σ₁, hrun₁, ?_⟩
      rw [hfirst.isMissing, h₁.type.isMissing]
      exact ran_bind.2 ⟨_, _, ran_ask, hrun₃⟩
    · intro Γ θ hθ
      obtain ⟨hθ₁, heq⟩ := models_ask.1 (hθ.earlier hdraws₃.constraints hscope₃)
      exact forall_mem_cons.2 ⟨heq ▸ h₁.sound hθ₁, hsound₃ hθ⟩
    · intro Γ θ u hθ hu hall
      obtain ⟨hnode, hrest⟩ := forall_mem_cons.1 hall
      obtain ⟨θ₁, hext₁, hθ₁, ht⟩ := h₁.complete hθ hnode
      have hu₁ : first.inst θ₁ = u.bare := (hext₁.inst_eq hfirst).symm.trans hu
      obtain ⟨θ₃, hext₃, hθ₃⟩ :=
        hcomplete₃ (models_ask.2 ⟨hθ₁, hu₁.trans ht.symm⟩) hu₁ hrest
      exact ⟨θ₃, hext₁.trans hext₃ h₁.draws.grows.count, hθ₃⟩

theorem infers_array {first : Node} {rest : List Node} (hf : Infers constant names first)
    (hr : ∀ n ∈ rest, Infers constant names n) : Infers constant names (.array (first :: rest)) := by
  intro σ hσ hnames
  obtain ⟨t, σ₁, hrun₁, h₁⟩ := hf hσ hnames
  obtain ⟨σ₂, hrun₂, hdraws₂, hscope₂, hsound₂, hcomplete₂⟩ :=
    infers_elements hr h₁.draws.drawn (hnames.of_scope h₁.scope) h₁.type
  have hinst (θ : Valuation) : (app arrayName [t]).inst θ = app arrayName [t.inst θ] := rfl
  refine ⟨app arrayName [t], σ₂, ?_, h₁.draws.trans hdraws₂, hscope₂.trans h₁.scope,
    drawn_con (by simpa using h₁.type.mono hdraws₂.grows), ?_, ?_⟩
  · simp only [inferWith, inferElems, ran_bind, ran_pure]
    refine ⟨t, σ₂, ⟨t, σ₁, hrun₁, hrun₂⟩, ?_⟩
    rw [h₁.type.isMissing]
    exact ⟨rfl, rfl⟩
  · intro Γ θ hθ
    have hfirst := h₁.sound (hθ.earlier hdraws₂.constraints hscope₂)
    exact .array (forall_mem_cons.2 ⟨hfirst, hsound₂ hθ⟩) (equal_refl _)
  · intro Γ θ w hθ hw
    cases hw with
    | @array _ _ u _ hall he =>
      obtain ⟨hnode, hrest⟩ := forall_mem_cons.1 hall
      obtain ⟨θ₁, hext₁, hθ₁, ht⟩ := h₁.complete hθ hnode
      obtain ⟨θ₂, hext₂, hθ₂⟩ := hcomplete₂ hθ₁ ht hrest
      refine ⟨θ₂, hext₁.trans hext₂ h₁.draws.grows.count, hθ₂, ?_⟩
      rw [hinst, ← hext₂.inst_eq h₁.type, ht, ← equal_iff.1 he]
      rfl

/-! ## Functions -/

/-- From the first state, parameters were declared in the innermost frame, each with a new variable. -/
structure DeclaredParams (params : List String) (σ : Inference) (ts : List Ty) (σ' : Inference) :
    Prop where
  draws : σ.Draws σ'
  constraints : σ'.constraints = σ.constraints
  types : ∀ t ∈ ts, t.Drawn σ'.supply
  length : params.length = ts.length
  knows : ∀ {names : List String}, σ.Knows names → σ'.Knows (params ++ names)
  reads : ∀ {Γ : Context} {θ : Valuation} {us : List Ty}, θ.Reads Γ σ.scope →
    ts.map (inst θ) = us.map bare → θ.Reads (Γ.declareAll (params.zip us)) σ'.scope
  choose : ∀ {Γ : Context} {θ : Valuation} {us : List Ty}, θ.Models Γ σ →
    params.length = us.length → ∃ θ', Valuation.Extends σ.supply.count θ θ' ∧
      (∀ id, (θ' id).bare = θ' id) ∧ ts.map (inst θ') = us.map bare

theorem Scope.lookup?_empty (sc : Scope) (x : String) : lookup? (.empty :: sc) x = sc.lookup? x := by
  rw [lookup?_cons]
  rfl

theorem Scope.lookup?_function (sc : Scope) (x : String) : lookup? (.function :: sc) x = sc.lookup? x := by
  rw [lookup?_cons]
  rfl

theorem Inference.Drawn.declare (name : String) (h : σ.Drawn) (hsc : σ.scope = f :: sc) (ht : t.Drawn σ.supply) :
    σ.Draws { σ with scope := f.declare name (.mono t) :: sc } := by
  refine h.withScope fun x s hs => ?_
  rw [lookup?_declare] at hs
  split at hs
  · cases hs
    exact ⟨Eq.refl _, ht⟩
  · exact h.scope x s (hsc ▸ hs)

theorem Inference.Knows.declare (h : σ.Knows names) (hsc : σ.scope = f :: sc) (name : String) (s : Scheme) :
    ∀ x ∈ name :: names, (lookup? (f.declare name s :: sc) x).isSome = true := by
  intro x hx
  rw [lookup?_declare]
  split
  next => rfl
  next hne =>
    rw [← hsc]
    exact h x ((mem_cons.1 hx).resolve_left (Ne.symm hne))

theorem Infer.ran_declareParam (name : String) (hsc : σ.scope = f :: sc) :
    Ran (declareParam ⟨name, .missing, false⟩) σ σ.supply.fresh.1 { σ.draw with scope := f.declare name (.mono σ.supply.fresh.1) :: sc } := by
  simp only [declareParam, declare, ran_bind, ran_modifyScope, ran_pure]
  refine ⟨_, σ.draw, ran_draw, (), _, rfl, rfl, ?_⟩
  rw [show σ.draw.scope = f :: sc from hsc]
  rfl

theorem declares_params (params : List String) (hσ : σ.Drawn) (hsc : σ.scope = f :: sc) :
    ∃ ts σ' f', Ran ((params.map fun name => (⟨name, .missing, false⟩ : Param)).mapM declareParam)
        σ ts σ' ∧ σ'.scope = f' :: sc ∧ f'.returns = f.returns ∧ DeclaredParams params σ ts σ' := by
  induction params generalizing σ f with
  | nil =>
    refine ⟨[], σ, f, ran_mapM_nil.2 ⟨rfl, rfl⟩, hsc, rfl, hσ.rfl, rfl, by simp, rfl, id, ?_, ?_⟩
    · intro Γ θ us hθ _
      exact hθ
    · intro Γ θ us hθ hlen
      obtain rfl := length_eq_zero_iff.1 hlen.symm
      exact ⟨θ, .rfl, hθ.bare, rfl⟩
  | cons name params ih =>
    generalize hv : σ.supply.fresh.1 = v
    have hvar : v.Drawn σ.draw.supply := hv ▸ drawn_fresh hσ.unfilled
    have hdraws₁ := hσ.draw.drawn.declare name hsc hvar
    have hdraws := hσ.draw.trans hdraws₁
    obtain ⟨ts, σ', f', hrun, hscope, hreturns, h⟩ := ih hdraws.drawn rfl
    refine ⟨v :: ts, σ', f', ?_, hscope, hreturns, hdraws.trans h.draws, h.constraints,
      forall_mem_cons.2 ⟨hvar.mono (hdraws₁.trans h.draws).grows, h.types⟩, by simp [h.length],
      ?_, ?_, ?_⟩
    · exact ran_mapM_cons.2 ⟨_, _, _, hv ▸ ran_declareParam name hsc, hrun, rfl⟩
    · intro names hnames x hx
      refine h.knows (hnames.declare hsc name (.mono v)) x ?_
      simp only [cons_append, mem_cons, mem_append] at hx ⊢
      exact hx.elim (fun h => .inr (.inl h)) (Or.imp_right .inr)
    · intro Γ θ us hθ heq
      cases us with
      | nil => cases heq
      | cons u us =>
        obtain ⟨hu, hus⟩ := List.cons.inj heq
        exact h.reads ((hsc ▸ hθ).declare hu) hus
    · intro Γ θ us hθ hlen
      cases us with
      | nil => cases hlen
      | cons u us =>
        obtain ⟨θ₁, hext₁, hθ₁, hu⟩ := hθ.draw hσ u
        rw [hv] at hu
        have hreads : θ₁.Reads (Γ.declare name u) (f.declare name (.mono v) :: sc) :=
          Valuation.Reads.declare (hsc ▸ hθ₁.reads) hu
        obtain ⟨θ₂, hext₂, hbare, hus⟩ :=
          h.choose ⟨hθ₁.bare, hreads, hθ₁.solves⟩ (Nat.succ.inj hlen)
        refine ⟨θ₂, hext₁.trans hext₂ hσ.draw.grows.count, hbare, ?_⟩
        rw [map_cons, map_cons, hus, ← hu, hext₂.inst_eq hvar]

theorem Infer.ran_function (hassign : body.isAssign = false) {σ₄ : Inference}
    (hparams : Ran ((params.map fun name => (⟨name, .missing, false⟩ : Param)).mapM declareParam)
      { σ with scope := .function :: σ.scope } ts σ₁) (hscope₁ : σ₁.scope = f :: σ.scope)
    (hreturns : f.returns = [])
    (hbody : Ran (inferWith constant body) { σ₁.draw with scope := .empty :: σ₁.scope } t σ₄)
    (hscope₄ : σ₄.scope = .empty :: σ₁.scope) (ht : t.isMissing = false) :
    Ran (inferWith constant (.function params body)) σ (.arrow ts σ₁.supply.fresh.1)
      { σ₄.ask σ₁.supply.fresh.1 t with scope := σ.scope } := by
  have hblock : Ran (inferWith constant (.block [.exprStmt body])) σ₁.draw t
      { σ₄ with scope := σ₁.scope } := by
    simp only [inferWith, inferLast, ran_within, ran_bind, ran_pure]
    refine ⟨σ₄, ⟨t, σ₄, ⟨t, σ₄, hbody, ?_, rfl⟩, rfl, rfl⟩, by rw [hscope₄]; rfl⟩
    rw [hassign]
    rfl
  have hresult : resultTypes ((σ₁.scope.head?.map Frame.returns).getD []) t
      (!TypeExpr.missing.isMissing) = [t] := by
    simp [hscope₁, resultTypes, hreturns, ht]
  rw [Node.function, inferWith]
  simp only [functionType, ran_within, ran_bind, ran_discard, ran_scope, ran_pure]
  refine ⟨{ σ₄.ask σ₁.supply.fresh.1 t with scope := σ₁.scope }, ⟨(), _, ⟨[], ran_pure.2 ⟨rfl, rfl⟩⟩,
    ts, σ₁, hparams, _, σ₁.draw, ?_, (), σ₁.draw, ran_pure.2 ⟨rfl, rfl⟩, t, _, hblock, _, _,
    ⟨rfl, rfl⟩, (), _, ?_, rfl, rfl⟩, by rw [hscope₁]; rfl⟩
  · exact ran_bind.2 ⟨_, _, ran_draw, ran_pure.2 ⟨rfl, rfl⟩⟩
  · rw [hresult]
    exact ran_forM_cons.2 ⟨(), _, ran_equate.2 rfl, ran_pure.2 ⟨rfl, rfl⟩⟩

theorem infers_function (hassign : body.isAssign = false) (hb : Infers constant (params ++ names) body) :
    Infers constant names (.function params body) := by
  intro σ hσ hnames
  have hlookup := lookup?_function σ.scope
  have hdraws₀ : σ.Draws { σ with scope := .function :: σ.scope } :=
    hσ.withScope fun x s hs => hσ.scope x s (hlookup x ▸ hs)
  have hnames₀ : Inference.Knows { σ with scope := .function :: σ.scope } names :=
    fun x hx => hlookup x ▸ hnames x hx
  obtain ⟨ts, σ₁, f, hrun₁, hscope₁, hreturns, h₁⟩ := declares_params params hdraws₀.drawn rfl
  have hdraws₂ := h₁.draws.drawn.draw
  generalize hfresh : σ₁.supply.fresh.1 = r
  have hr : r.Drawn σ₁.draw.supply := hfresh ▸ drawn_fresh h₁.draws.drawn.unfilled
  have hempty := lookup?_empty σ₁.scope
  have hdraws₃ : σ₁.draw.Draws { σ₁.draw with scope := .empty :: σ₁.scope } :=
    hdraws₂.drawn.withScope fun x s hs => hdraws₂.drawn.scope x s (hempty x ▸ hs)
  obtain ⟨t, σ₄, hrun₄, h₄⟩ := hb hdraws₃.drawn fun x hx => hempty x ▸ h₁.knows hnames₀ x hx
  have hdraws₅ := h₄.draws.drawn.ask (hr.mono h₄.draws.grows) h₄.type
  have hinside := hdraws₂.trans (hdraws₃.trans (h₄.draws.trans hdraws₅))
  have hall := hdraws₀.trans (h₁.draws.trans hinside)
  have hlast : (σ₄.ask r t).Draws { σ₄.ask r t with scope := σ.scope } :=
    hall.drawn.withScope fun x s hs => ⟨(hσ.scope x s hs).1, (hσ.scope x s hs).2.mono hall.grows⟩
  refine ⟨.arrow ts r, { σ₄.ask r t with scope := σ.scope }, ?_, hall.trans hlast, rfl, ?_, ?_, ?_⟩
  · rw [← hfresh]
    exact ran_function hassign hrun₁ hscope₁ hreturns hrun₄ h₄.scope h₄.type.isMissing
  · exact drawn_arrow (fun t ht => (h₁.types t ht).mono hinside.grows) (hr.mono h₄.draws.grows)
  · intro Γ θ hθ
    have hreads₀ : θ.Reads Γ (.function :: σ.scope) := fun x => by rw [hlookup]; exact hθ.reads x
    have hts : ts.map (inst θ) = (ts.map (inst θ)).map bare := by
      rw [map_map]
      exact map_congr_left fun t _ => (hθ.bare_inst t).symm
    have hreads₁ := h₁.reads hreads₀ hts
    have hreads₄ : θ.Reads (Γ.declareAll (params.zip (ts.map (inst θ)))) σ₄.scope := by
      intro x
      rw [h₄.scope, hempty]
      exact hreads₁ x
    have hθ₄ : θ.Models (Γ.declareAll (params.zip (ts.map (inst θ)))) σ₄ :=
      ⟨hθ.bare, hreads₄, fun c hc => hθ.solves c (mem_append_left _ hc)⟩
    have hrt : r.inst θ = t.inst θ :=
      hθ.solves (.equal r t) (mem_append_right _ mem_cons_self)
    refine .function (by rw [length_map, h₁.length]) (h₄.sound hθ₄) ?_
    rw [inst_arrow, hrt]
    exact equal_refl _
  · intro Γ θ w hθ hw
    obtain ⟨us, q, hlen, hbody, he⟩ := hw.of_function
    have hθ₀ : θ.Models Γ { σ with scope := .function :: σ.scope } :=
      ⟨hθ.bare, fun x => by rw [hlookup]; exact hθ.reads x, hθ.solves⟩
    obtain ⟨θ₁, hext₁, hbare₁, hus⟩ := h₁.choose hθ₀ hlen
    have hθ₀₁ := hθ₀.extend hdraws₀.drawn hext₁ hbare₁
    have hθ₁ : θ₁.Models (Γ.declareAll (params.zip us)) σ₁ :=
      ⟨hbare₁, h₁.reads hθ₀₁.reads hus, by rw [h₁.constraints]; exact hθ₀₁.solves⟩
    obtain ⟨θ₂, hext₂, hθ₂, hrq⟩ := hθ₁.draw h₁.draws.drawn q
    rw [hfresh] at hrq
    have hθ₃ : θ₂.Models (Γ.declareAll (params.zip us))
        { σ₁.draw with scope := .empty :: σ₁.scope } :=
      ⟨hθ₂.bare, fun x => by rw [hempty]; exact hθ₂.reads x, hθ₂.solves⟩
    obtain ⟨θ₄, hext₄, hθ₄, htq⟩ := h₄.complete hθ₃ hbody
    have hext₂₄ := hext₂.trans hext₄ hdraws₂.grows.count
    have hext := hext₁.trans hext₂₄ h₁.draws.grows.count
    have hrq₄ : r.inst θ₄ = q.bare := (hext₄.inst_eq hr).symm.trans hrq
    have hts₄ : ts.map (inst θ₄) = us.map bare := by
      rw [← hus]
      exact map_congr_left fun t ht => (hext₂₄.inst_eq (h₁.types t ht)).symm
    refine ⟨θ₄, hext, ⟨hθ₄.bare, (hθ.extend hσ hext hθ₄.bare).reads, ?_⟩, ?_⟩
    · have hask : θ₄.Models _ (σ₄.ask r t) :=
        models_ask.2 ⟨hθ₄, hrq₄.trans htq.symm⟩
      exact hask.solves
    · rw [inst_arrow, hts₄, hrq₄, ← bare_arrow, equal_iff.1 he]

theorem Core.isAssign (h : Core names n) : n.isAssign = false := by
  cases h <;> rfl

/-- On an expression of the core, inference does not fail, and finds what the rules say. -/
theorem infers_of_core (h : Core names n) : Infers constant names n := by
  induction h with
  | number =>
    exact infers_literal (by rw [inferWith]) fun Γ u => ⟨fun h => by cases h; assumption, .number⟩
  | string =>
    exact infers_literal (by rw [inferWith]) fun Γ u => ⟨fun h => by cases h; assumption, .string⟩
  | @bool names b =>
    have hrun : inferWith constant (.bool b) = pure (primitive Ty.boolean) := by
      rw [inferWith]
      rfl
    exact infers_literal hrun fun Γ u => ⟨fun h => by cases h; assumption, .bool⟩
  | ident h => exact infers_ident h
  | function h ih => exact infers_function h.isAssign ih
  | call _ _ ihf iha => exact infers_call ihf iha
  | ternary _ _ _ ihc ihy ihn => exact infers_ternary ihc ihy ihn
  | array _ _ ihf ihr => exact infers_array ihf ihr

/-! ## Programs -/

/-- From the first state, declarations were made with the types. -/
structure InferredLets (vs : List Variable) (σ : Inference) (ts : List Ty) (σ' : Inference) :
    Prop where
  draws : σ.Draws σ'
  frames : σ'.scope.length = σ.scope.length
  types : ∀ t ∈ ts, t.Drawn σ'.supply
  length : vs.length = ts.length
  others : ∀ {x : String}, (∀ v ∈ vs, v.name ≠ x) → σ'.scope.lookup? x = σ.scope.lookup? x
  lookup : ∀ p ∈ vs.zip ts, σ'.scope.lookup? p.1.name = some (.mono p.2)
  sound : ∀ {D : String → Ty} {Γ : Context} {θ : Valuation}, θ.Models Γ σ →
    (∀ c ∈ σ'.constraints, c.left.inst θ = c.right.inst θ) →
    (∀ p ∈ vs.zip ts, p.2.inst θ = (D p.1.name).bare) → LetsTyped D Γ vs
  complete : ∀ {D : String → Ty} {Γ : Context} {θ : Valuation}, θ.Models Γ σ → LetsTyped D Γ vs →
    ∃ θ', Valuation.Extends σ.supply.count θ θ' ∧
      (∀ c ∈ σ'.constraints, c.left.inst θ' = c.right.inst θ') ∧
      ∀ p ∈ vs.zip ts, p.2.inst θ' = (D p.1.name).bare

theorem Infer.ran_let {v : Variable} (hnew : σ.scope.lookupLocal? v.name = none) (ha : v.ann = .missing)
    (hvalue : Ran (inferWith constant v.value) σ t σ₁) (hscope : σ₁.scope = f :: sc) (ht : t.isMissing = false) :
    Ran (inferWith constant (.lets [v])) σ .missing { σ₁ with slots := (v.slot, t) :: σ₁.slots, scope := f.declare v.name (.mono t) :: sc } := by
  have hheld : Ran (heldType .missing t) σ₁ t σ₁ := by
    unfold heldType
    rw [ht]
    exact ran_pure.2 ⟨rfl, rfl⟩
  simp only [inferWith, inferVars, variableType, ran_bind, ran_discard, ran_scope, ran_pure]
  refine ⟨(), _, ⟨(), _, ⟨t, _, _, ⟨rfl, rfl⟩, ?_⟩, trivial, rfl⟩, trivial, rfl⟩
  rw [hnew, ha]
  simp only [declare, ran_bind, ran_modifyScope, ran_setSlot, ran_pure]
  refine ⟨.missing, σ, ran_pure.2 ⟨rfl, rfl⟩, t, σ₁, hvalue, t, σ₁, hheld, (), _, rfl, (), _, rfl,
    rfl, ?_⟩
  simp only [hscope]
  rfl

theorem Scope.lookupLocal?_eq_none {x : String} (h : sc.lookup? x = none) : sc.lookupLocal? x = none := by
  cases sc with
  | nil => rfl
  | cons f sc =>
    rw [lookup?_cons] at h
    exact (Option.or_eq_none_iff.1 h).1

theorem CoreLets.not_mem (h : CoreLets names vs) : ∀ v ∈ vs, v.name ∉ names := by
  induction h with
  | nil => simp
  | cons hn _ _ _ ih =>
    exact forall_mem_cons.2 ⟨hn, fun v hv hmem => ih v hv (mem_cons_of_mem _ hmem)⟩

/-- On a program of the core, inference does not fail, and finds what the rules say. -/
theorem inferredLets_of_core (h : CoreLets names vs) (hσ : σ.Drawn)
    (hnames : ∀ x, (σ.scope.lookup? x).isSome = true ↔ x ∈ names) (hne : σ.scope ≠ []) {last : Ty} :
    ∃ t ts σ', Ran (inferLast constant last (vs.map fun v => .lets [v])) σ t σ' ∧ InferredLets vs σ ts σ' := by
  induction h generalizing σ last with
  | nil =>
    refine ⟨last, [], σ, ran_pure.2 ⟨rfl, rfl⟩, hσ.rfl, rfl, by simp, rfl, fun _ => rfl, by simp,
      ?_, ?_⟩
    · intro D Γ θ _ _ _
      exact .nil
    · intro D Γ θ hθ _
      exact ⟨θ, .rfl, hθ.solves, by simp⟩
  | @cons names v vs hn ha hv hrest ih =>
    obtain ⟨t, σ₁, hrun₁, h₁⟩ :=
      show ∃ t σ', Ran (inferWith constant v.value) σ t σ' ∧ Inferred v.value σ t σ' from
        infers_of_core hv hσ fun x hx => (hnames x).2 hx
    obtain ⟨f, sc, hsc⟩ := exists_cons_of_ne_nil hne
    have hscope₁ : σ₁.scope = f :: sc := h₁.scope.trans hsc
    have hnew : σ.scope.lookup? v.name = none := by
      rw [← Option.not_isSome_iff_eq_none, hnames]
      exact hn
    have hdeclared := h₁.draws.drawn.declare v.name hscope₁ h₁.type
    have hdraws₂ : σ₁.Draws { σ₁ with
        slots := (v.slot, t) :: σ₁.slots, scope := f.declare v.name (.mono t) :: sc } :=
      ⟨⟨hdeclared.drawn.unfilled, hdeclared.drawn.scope, hdeclared.drawn.constraints⟩,
        hdeclared.grows, hdeclared.constraints⟩
    have hlookup (x : String) : lookup? (f.declare v.name (.mono t) :: sc) x =
        if v.name = x then some (.mono t) else σ.scope.lookup? x := by
      rw [lookup?_declare, hsc]
    have hnames₂ (x : String) :
        (lookup? (f.declare v.name (.mono t) :: sc) x).isSome = true ↔ x ∈ v.name :: names := by
      rw [hlookup, mem_cons]
      split
      next heq => simp [heq]
      next hne => simp [hnames, Ne.symm hne]
    obtain ⟨last', ts, σ', hrun', h'⟩ := ih hdraws₂.drawn hnames₂ (by simp)
    have hdraws := hdraws₂.trans h'.draws
    have hothers : ∀ w ∈ vs, w.name ≠ v.name :=
      fun w hw heq => hrest.not_mem w hw (heq ▸ mem_cons_self)
    refine ⟨last', t :: ts, σ', ?_, h₁.draws.trans hdraws, ?_,
      forall_mem_cons.2 ⟨h₁.type.mono hdraws.grows, h'.types⟩, by simp [h'.length], ?_, ?_, ?_,
      ?_⟩
    · have hlet := ran_let (lookupLocal?_eq_none hnew) ha hrun₁ hscope₁ h₁.type.isMissing
      exact ran_bind.2 ⟨_, _, hlet, hrun'⟩
    · rw [h'.frames, hsc]
      rfl
    · intro x hx
      obtain ⟨hne, hxs⟩ := forall_mem_cons.1 hx
      rw [h'.others hxs, hlookup, if_neg hne]
    · refine forall_mem_cons.2 ⟨?_, h'.lookup⟩
      rw [h'.others hothers, hlookup, if_pos rfl]
    · intro D Γ θ hθ hsolves hall
      obtain ⟨ht, hts⟩ := forall_mem_cons.1 hall
      have hθ₁ : θ.Models Γ σ₁ :=
        ⟨hθ.bare, h₁.scope ▸ hθ.reads, fun c hc => hsolves c (hdraws.constraints.subset hc)⟩
      have hvalue : (t.inst θ).equal (D v.name) = true := by
        rw [equal_iff, hθ.bare_inst, ht]
      have hreads : θ.Reads (Γ.declare v.name (D v.name)) (f.declare v.name (.mono t) :: sc) :=
        Valuation.Reads.declare (hscope₁ ▸ hθ₁.reads) ht
      exact .cons ((h₁.sound hθ₁).of_equal hvalue)
        (h'.sound ⟨hθ.bare, hreads, hθ₁.solves⟩ hsolves hts)
    · intro D Γ θ hθ hD
      cases hD with
      | cons hvalue hvs =>
        obtain ⟨θ₁, hext₁, hθ₁, ht⟩ := h₁.complete hθ hvalue
        have hreads : θ₁.Reads (Γ.declare v.name (D v.name)) (f.declare v.name (.mono t) :: sc) :=
          Valuation.Reads.declare (hscope₁ ▸ hθ₁.reads) ht
        obtain ⟨θ₂, hext₂, hsolves, hts⟩ := h'.complete ⟨hθ₁.bare, hreads, hθ₁.solves⟩ hvs
        exact ⟨θ₂, hext₁.trans hext₂ h₁.draws.grows.count, hsolves,
          forall_mem_cons.2 ⟨(hext₂.inst_eq h₁.type).symm.trans ht, hts⟩⟩

end

end ScriptTyping
