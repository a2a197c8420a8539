import ScriptTyping.Proofs.CoreInference
import ScriptTyping.Proofs.Reachable

/-!
# Principal typings of the core

A check of a program of the core goes through exactly if the program has a typing, and then it finds one
of which all others are instances.

What inference asks for on the core says exactly that the program has a typing (`InferredLets`), and
solving finds the most general way to meet it. A typing gives a valuation of the variables that were drawn.
There are finitely many, so the valuation is a substitution (`Valuation.bindings`). It solves the equations,
hence it absorbs the solution.

Before a program is checked its variables are numbered. On the core that only changes the slots of what is
declared (`numberFrom`), which the rules do not look at.

Main statement: `Checker.run_principal`.
-/

namespace ScriptTyping

open Ty Infer List Constraint Node Subst Dict

/-! ## Numbering -/

/-- The declarations with slots from `k` on. -/
def numberFrom (k : Nat) : List Variable → List Variable
  | [] => []
  | v :: vs => { v with slot := k } :: numberFrom (k + 1) vs

section

variable {names : List String} {vs : List Variable}

theorem exists_mem_numberFrom {v : Variable} (h : v ∈ vs) (k : Nat) :
    ∃ u ∈ numberFrom k vs, u.name = v.name := by
  induction vs generalizing k with
  | nil => cases h
  | cons w vs ih =>
    rcases mem_cons.1 h with rfl | h
    · exact ⟨_, mem_cons_self, rfl⟩
    · obtain ⟨u, hu, hname⟩ := ih h (k + 1)
      exact ⟨u, mem_cons_of_mem _ hu, hname⟩

theorem CoreLets.numberFrom (h : CoreLets names vs) (k : Nat) : CoreLets names (numberFrom k vs) := by
  induction h generalizing k with
  | nil => exact .nil
  | cons hn ha hv _ ih => exact .cons hn ha hv (ih (k + 1))

theorem letsTyped_numberFrom {D : String → Ty} {Γ : Context} {k : Nat} :
    LetsTyped D Γ (numberFrom k vs) ↔ LetsTyped D Γ vs := by
  induction vs generalizing Γ k with
  | nil => exact ⟨fun _ => .nil, fun _ => .nil⟩
  | cons v vs ih =>
    constructor
    · intro h
      cases h with
      | cons hv hvs => exact .cons hv (ih.1 hvs)
    · intro h
      cases h with
      | cons hv hvs => exact .cons hv (ih.2 hvs)

theorem Node.assignSlotsAll_of {ns : List Node} (h : ∀ n ∈ ns, n.assignSlots = pure n) :
    assignSlotsAll ns = pure ns := by
  induction ns with
  | nil => rw [assignSlotsAll]
  | cons n ns ih =>
    obtain ⟨hn, hns⟩ := forall_mem_cons.1 h
    rw [assignSlotsAll, hn, ih hns]
    simp

/-- Expressions of the core declare no variables. -/
theorem Core.assignSlots {n : Node} (h : Core names n) : n.assignSlots = pure n := by
  induction h with
  | number | string | bool | ident => rw [Node.assignSlots] <;> simp
  | function _ ih => simp [Node.function, Node.assignSlots, Node.assignSlotsAll, ih]
  | call _ _ ihf iha => simp [Node.assignSlots, ihf, Node.assignSlotsAll_of iha]
  | ternary _ _ _ ihc ihy ihn => simp [Node.assignSlots, ihc, ihy, ihn]
  | array _ _ ihf ihr => simp [Node.assignSlots, Node.assignSlotsAll, ihf, Node.assignSlotsAll_of ihr]

theorem Node.run_assignSlots_lets {v : Variable} (h : v.value.assignSlots = pure v.value) (k : Nat) :
    (lets [v]).assignSlots.run k = (lets [{ v with slot := k }], k + 1) := by
  rw [assignSlots, assignSlotsVars, h, assignSlotsVars]
  rfl

theorem CoreLets.run_assignSlots (h : CoreLets names vs) (k : Nat) :
    (assignSlotsAll (vs.map fun v => .lets [v])).run k =
      ((ScriptTyping.numberFrom k vs).map fun v => .lets [v], k + vs.length) := by
  induction h generalizing k with
  | nil => rfl
  | @cons names v vs _ _ hv _ ih =>
    rw [map_cons, assignSlotsAll, StateT.run_seq, StateT.run_map,
      run_assignSlots_lets hv.assignSlots, length_cons, Nat.add_comm vs.length, ← Nat.add_assoc]
    show ((fun p => (_ :: p.1, p.2)) <$> (assignSlotsAll (vs.map fun v => .lets [v])).run (k + 1) : Id _) = _
    rw [ih]
    rfl

theorem CoreLets.numbered_ofLets (h : CoreLets names vs) :
    (ofLets vs).numbered = .ofLets (ScriptTyping.numberFrom 0 vs) := by
  show ((program <$> assignSlotsAll (vs.map fun v => .lets [v])).run 0).1 = _
  rw [StateT.run_map, h.run_assignSlots]
  rfl

end

/-! ## Inference -/

/-- What a check starts with if there are no builtins. -/
def Checker.unbound (c : Checker) : Bound := ⟨.global, c.reset.supply, []⟩

section

variable {c : Checker} {vs : List Variable}

theorem Checker.Unfilled.drawn (h : c.Unfilled) : (c.initial c.unbound).Drawn := by
  refine ⟨fun cell hcell => ?_, fun x s hs => ?_, by simp [Checker.initial]⟩
  · show (c.supply.attachments.get? cell).getD [] = []
    rw [h cell hcell]
    rfl
  · cases hs

/-- On a program of the core, inference does not fail. -/
theorem ran_ofLets (hc : c.Unfilled) (h : CoreLets [] vs) :
    ∃ t ts σ, Ran (infer (ofLets vs).numbered) (c.initial c.unbound) t σ ∧
      InferredLets (numberFrom 0 vs) (c.initial c.unbound) ts σ := by
  have hnames (x : String) : ((c.initial c.unbound).scope.lookup? x).isSome = true ↔ x ∈ [] :=
    ⟨fun hx => (nomatch hx), fun hx => (nomatch hx)⟩
  obtain ⟨t, ts, σ, hrun, hinferred⟩ :=
    show ∃ t ts σ, Ran (inferLast (constants (constantDepth (.ofLets (numberFrom 0 vs)))) .missing
        ((numberFrom 0 vs).map fun v => .lets [v])) (c.initial c.unbound) t σ ∧ InferredLets _ _ ts σ from
      inferredLets_of_core (h.numberFrom 0) hc.drawn hnames (cons_ne_nil _ _)
  refine ⟨.missing, ts, σ, ?_, hinferred⟩
  rw [h.numbered_ofLets, infer, inferDepth_eq]
  exact ran_bind.2 ⟨(), σ, ran_discard.2 ⟨t, hrun⟩, ran_pure.2 ⟨rfl, rfl⟩⟩

end

/-! ## Valuations as substitutions -/

namespace Valuation

/-- What the valuation gives to the variables that were drawn. -/
def bindings (θ : Valuation) (count : Nat) : Subst :=
  ofList ((List.range count).map fun k => (Var.generatedId k, θ (Var.generatedId k)))

theorem get?_bindings (θ : Valuation) {count k : Nat} (hk : k < count) :
    get? (θ.bindings count) (Var.generatedId k) = some (θ (Var.generatedId k)) := by
  have hkey : Var.generatedId k ∈ Dict.keys (θ.bindings count) :=
    mem_keys_insertAll.2 (.inl (mem_map.2
      ⟨_, mem_map_of_mem (mem_range.2 hk), rfl⟩))
  cases hget : get? (θ.bindings count) (Var.generatedId k) with
  | none => exact absurd hkey (get?_eq_none_iff.1 hget)
  | some u =>
    rcases mem_insertAll (mem_of_get?_eq_some hget) with hmem | hmem
    · obtain ⟨j, -, heq⟩ := mem_map.1 hmem
      obtain ⟨hid, rfl⟩ := Prod.mk.inj heq
      rw [hid]
    · cases hmem

theorem inst_bindings (θ : Valuation) {s : Supply} {t : Ty} (ht : t.Drawn s) :
    t.inst (θ.bindings s.count).val = (t.inst θ).bare := by
  rw [Ty.bare, inst_inst]
  refine inst_congr fun id hid => ?_
  obtain ⟨k, hk, rfl⟩ := ht.ids id hid
  simp only [val, fills, θ.get?_bindings hk]
  rfl

end Valuation

/-! ## Solutions -/

namespace InferredLets

variable {vs : List Variable} {ts : List Ty} {σ₀ σ : Inference} {reg : Registry}

theorem simple (h : InferredLets vs σ₀ ts σ) : ∀ c ∈ σ.constraints, c.kind = .equality →
    c.left.Simple σ.supply.attachments ∧ c.right.Simple σ.supply.attachments := by
  intro c hc _
  obtain ⟨-, hl, hr⟩ := h.draws.drawn.constraints c hc
  exact ⟨hl.simple, hr.simple⟩

/-- What is bound has no records. -/
theorem plain_solve (h : InferredLets vs σ₀ ts σ) (reg : Registry) :
    ∀ e ∈ (solve reg σ.supply.attachments σ.constraints).subst, e.2.Plain := by
  have hplain := Solution.plain_upTo reg false σ.supply.attachments
    (fun c hc hk => ⟨(h.simple c hc hk).1.1, (h.simple c hc hk).2.1⟩) (Nat.le_refl _)
  rwa [solve, solveWith_eq_upTo, hplain.settled]

/-- If no equation fails, all of them hold under the solution. -/
theorem solves (h : InferredLets vs σ₀ ts σ) (hs : σ.Sound)
    (hnone : (solve reg σ.supply.attachments σ.constraints).failures = []) : ∀ c ∈ σ.constraints,
      c.left.inst (solve reg σ.supply.attachments σ.constraints).subst.val =
        c.right.inst (solve reg σ.supply.attachments σ.constraints).subst.val := by
  intro c hc
  have hplain := h.plain_solve reg
  obtain ⟨hk, hl, hr⟩ := h.draws.drawn.constraints c hc
  obtain ⟨-, hall⟩ := solveWith_solves hs.coherent hs.constraints hnone
  refine (unifies_iff (b := σ.supply.attachments)).1 ?_
  rw [Constraint.Unifies, ← Matches.iff_equal (plain_apply hplain hl.simple.1)
    (plain_apply hplain hr.simple.1)]
  exact (hall c hc hk).of_bare (bare_apply _ _ _) (bare_apply _ _ _)

/-- A typing gives bindings that solve the equations, and make the types that were found those of the
typing. -/
theorem bindings_of_typed (h : InferredLets vs σ₀ ts σ) {D : String → Ty} {θ : Valuation}
    (hθ : θ.Models .empty σ₀) (hD : LetsTyped D .empty vs) : ∃ th : Subst, Dict.Sorted th ∧
      (∀ c ∈ σ.constraints, c.left.inst th.val = c.right.inst th.val) ∧
      ∀ p ∈ vs.zip ts, p.2.inst th.val = (D p.1.name).bare := by
  obtain ⟨θ', -, hsolves, htypes⟩ := h.complete hθ hD
  refine ⟨θ'.bindings σ.supply.count, sorted_ofList _, fun c hc => ?_, fun p hp => ?_⟩
  · obtain ⟨-, hl, hr⟩ := h.draws.drawn.constraints c hc
    rw [θ'.inst_bindings hl, θ'.inst_bindings hr, hsolves c hc]
  · rw [θ'.inst_bindings (h.types p.2 (of_mem_zip hp).2), htypes p hp, bare_bare]

end InferredLets

/-! ## Checks -/

namespace Checker

variable {c : Checker} {vs : List Variable} {ts : List Ty} {σ : Inference} {D : String → Ty}

theorem finish_error_iff {c : Checker} {global : Frame} {program : Node} {slots : List (Nat × Ty)}
    {log : List String} : (c.finish global program slots log).error = none ↔
      (solve (Scope.instances [global]) c.supply.attachments c.constraints).failures = [] := by
  constructor
  · intro h
    exact (finish_ok h).1
  · intro h
    unfold finish
    dsimp only
    rw [h]
    rfl

/-- A valuation that shows structure only can be taken to the start of a check. -/
theorem models_initial {θ : Valuation} (h : ∀ id, (θ id).bare = θ id) (c : Checker) :
    θ.Models .empty (c.initial c.unbound) :=
  ⟨h, fun _ => rfl, by simp [initial]⟩

section

variable (program : Node) (slots : List (Nat × Ty)) (log : List String)

/-- The solved type of a name is what was found for it with the solution put in. -/
theorem lookup_finish (h : InferredLets vs (c.initial c.unbound) ts σ)
    (hok : ((c.inferred σ).finish .global program slots log).error = none) {p : Variable × Ty}
    (hp : p ∈ vs.zip ts) : ∃ a,
      ((c.inferred σ).finish .global program slots log).checker.lookup p.1.name = apply a
        (solve (Scope.instances [.global]) σ.supply.attachments σ.constraints).subst p.2 := by
  obtain ⟨-, a, -, heq⟩ := finish_ok hok
  have hframes : σ.scope.length = 2 := h.frames
  have hplain : p.2.Plain := (h.types p.2 (of_mem_zip hp).2).simple.1
  refine ⟨a, ?_⟩
  rw [heq]
  show (a.apply _ (((Scope.lookup? (σ.scope.drop (σ.scope.length - 2)) p.1.name).map Scheme.type).getD
    .missing)).1 = _
  rw [hframes, Nat.sub_self, drop_zero, h.lookup p hp]
  exact congrArg Prod.fst (a.apply_of_tailless (fun e he => (h.plain_solve _ e he).tailless) hplain.tailless)

/-- The solved types are a typing. -/
theorem letsTyped_finish (h : InferredLets vs (c.initial c.unbound) ts σ) (hs : σ.Sound)
    (hok : ((c.inferred σ).finish .global program slots log).error = none) :
    LetsTyped ((c.inferred σ).finish .global program slots log).checker.lookup .empty vs := by
  refine h.sound (models_initial (bare_val _) c) (h.solves hs (finish_error_iff.1 hok)) ?_
  intro p hp
  obtain ⟨a, heq⟩ := lookup_finish program slots log h hok hp
  rw [heq, bare_apply]

/-- If there is a typing, no equation fails, and a substitution takes the solution to it. -/
theorem instance_finish (h : InferredLets vs (c.initial c.unbound) ts σ) (hD : LetsTyped D .empty vs)
    (b : Attachments) : ((c.inferred σ).finish .global program slots log).error = none ∧
      ∃ th : Subst, Dict.Sorted th ∧ ∀ v ∈ vs, (D v.name).equal (apply b th
        (((c.inferred σ).finish .global program slots log).checker.lookup v.name)) = true := by
  obtain ⟨th, hsorted, hsolves, htypes⟩ := h.bindings_of_typed (models_initial (bare_val []) c) hD
  obtain ⟨hnone, habs⟩ := solveWith_complete (Scope.instances [.global]) false
    fun c hc hk => ⟨h.simple c hc hk, hsolves c hc⟩
  have hok : ((c.inferred σ).finish .global program slots log).error = none := finish_error_iff.2 hnone
  refine ⟨hok, th, hsorted, fun v hv => ?_⟩
  obtain ⟨p, hp, rfl⟩ : ∃ p ∈ vs.zip ts, p.1 = v := by
    rw [← mem_map, map_fst_zip (Nat.le_of_eq h.length)]
    exact hv
  obtain ⟨a, heq⟩ := lookup_finish program slots log h hok hp
  have hinst := habs.inst_apply a p.2
  rw [heq, equal_iff, bare_apply, ← htypes p hp]
  exact hinst.symm

end

/-- A check of a program of the core goes through exactly if the program has a typing. Then the types that
are found are a typing, and one substitution takes them to any other. -/
theorem run_principal (c : Checker) (hc : c.Reachable) (vs : List Variable) (h : CoreLets [] vs) :
    ((c.run (.ofLets vs) []).error = none ↔ ∃ D, LetsTyped D .empty vs) ∧
      ((c.run (.ofLets vs) []).error = none →
        LetsTyped (c.run (.ofLets vs) []).checker.lookup .empty vs ∧
        ∀ D, LetsTyped D .empty vs → ∃ th : Subst, Dict.Sorted th ∧ ∀ v ∈ vs,
          (D v.name).equal (Subst.apply (c.run (.ofLets vs) []).checker.supply.attachments th
            ((c.run (.ofLets vs) []).checker.lookup v.name)) = true) := by
  obtain ⟨t, ts, σ, hx, hinferred⟩ := ran_ofLets hc.unfilled h
  have hb : Bound.bindAll c.primitives ⟨.global, c.reset.supply, []⟩ [] = (c.unbound, .ok ()) := rfl
  obtain ⟨hlater, -⟩ := infer_typed _ (c.sound_initial (fits_bound hb)) hx
  rw [run_inferred rfl hb hx]
  have hsound (hok : ((c.inferred σ).finish .global (Node.ofLets vs).numbered σ.slots
      (inferredLog c.unbound σ)).error = none) :=
    letsTyped_numberFrom.1 (letsTyped_finish _ _ _ hinferred hlater.sound hok)
  have hinstance (D : String → Ty) (hD : LetsTyped D .empty vs) (b : Attachments) :=
    instance_finish (Node.ofLets vs).numbered σ.slots (inferredLog c.unbound σ) hinferred
      (letsTyped_numberFrom.2 hD) b
  refine ⟨⟨fun hok => ⟨_, hsound hok⟩, fun ⟨D, hD⟩ => (hinstance D hD .empty).1⟩, fun hok =>
    ⟨hsound hok, fun D hD => ?_⟩⟩
  obtain ⟨-, th, hsorted, hall⟩ := hinstance D hD _
  refine ⟨th, hsorted, fun v hv => ?_⟩
  obtain ⟨u, hu, hname⟩ := exists_mem_numberFrom hv 0
  rw [← hname]
  exact hall u hu

/-- A function that applies another, and a choice between two numbers. -/
def applying : List Variable :=
  [⟨"apply", .missing, .function ["f", "x"] (.call (.ident "f") [.ident "x"]), 0⟩,
    ⟨"one", .missing, .ternary (.bool true) (.number "1" false) (.number "2" false), 0⟩]

set_option maxRecDepth 2000 in
theorem run_principal_applying :
    CoreLets [] applying ∧ ((new defaultPrimitives).run (.ofLets applying) []).error = none ∧
      LetsTyped ((new defaultPrimitives).run (.ofLets applying) []).checker.lookup .empty applying ∧
      ∀ D, LetsTyped D .empty applying → ∃ th : Subst, Dict.Sorted th ∧ ∀ v ∈ applying,
        (D v.name).equal (Subst.apply
          ((new defaultPrimitives).run (.ofLets applying) []).checker.supply.attachments th
          (((new defaultPrimitives).run (.ofLets applying) []).checker.lookup v.name)) = true := by
  have hcore : CoreLets [] applying := by
    refine .cons (by simp) rfl (.function (.call (.ident (by simp)) fun n hn => ?_))
      (.cons (by simp) rfl (.ternary .bool .number .number) .nil)
    rw [mem_singleton.1 hn]
    exact .ident (by simp)
  have hrun : ((new defaultPrimitives).run (.ofLets applying) []).error = none := by cbv
  exact ⟨hcore, hrun, (run_principal (new defaultPrimitives) (.new _) applying hcore).2 hrun⟩

end Checker

end ScriptTyping
