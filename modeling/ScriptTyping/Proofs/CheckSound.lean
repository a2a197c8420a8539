import Mathlib
import ScriptTyping.Checker
import ScriptTyping.Proofs.InferLogic
import ScriptTyping.Proofs.InferSound

/-!
# Soundness of checking

A check binds the builtins, goes through the program, and solves what inference asked for. The types
of builtins have no records, so that they can be used in many ways. What inference asked for matches
under the solution, and it still does after the types of the variables were settled.

Main statement: `Checker.run_typed`, that after a check without error every part of the program is as
the rules say, where two types go together if their solved forms match.
-/

namespace ScriptTyping

open Ty Inference Infer List Scope ScriptTyping.Bound Constraint ScriptTyping.Frame

/-! ## Builtins -/

/-- No struct or enum is declared, and no type parameter is a record. -/
structure Frame.Undeclared (f : Frame) : Prop where
  decls : f.decls = []
  tparams : ∀ e ∈ f.tparams, e.2.Plain

namespace Scope

/-- No struct or enum is declared, and no type parameter is a record. -/
def Undeclared (sc : Scope) : Prop := ∀ f ∈ sc, f.Undeclared

variable {sc sc' : Scope} {name : String} {t : Ty}

theorem undeclared_global : (start .global).Undeclared := by
  intro f hf
  rcases mem_cons.1 hf with rfl | hf
  · exact ⟨rfl, by simp [empty]⟩
  · obtain rfl := mem_singleton.1 hf
    exact ⟨rfl, by simp [global, empty]⟩

namespace Undeclared

theorem enter (h : sc.Undeclared) : Undeclared (.empty :: sc) :=
  forall_mem_cons.2 ⟨⟨rfl, by simp [empty]⟩, h⟩

theorem decl? (h : sc.Undeclared) (name : String) : sc.decl? name = none :=
  findSome?_eq_none_iff.2 fun f hf => by rw [(h f hf).decls]; rfl

theorem structDecl? (h : sc.Undeclared) (name : String) : sc.structDecl? name = none := by
  rw [Scope.structDecl?, h.decl?]

theorem enumDecl? (h : sc.Undeclared) (name : String) : sc.enumDecl? name = none := by
  rw [Scope.enumDecl?, h.decl?]

theorem tparam? (h : sc.Undeclared) (ht : sc.tparam? name = some t) : t.Plain := by
  obtain ⟨f, hf, hget⟩ := exists_of_findSome?_eq_some ht
  exact (h f hf).tparams _ (Dict.mem_of_get?_eq_some hget)

theorem declareTypeParam (h : sc.Undeclared) (ht : t.Plain) :
    Undeclared (sc.modifyHead (·.declareTypeParam name t)) := by
  cases sc with
  | nil => exact h
  | cons f sc =>
    obtain ⟨hf, hsc⟩ := forall_mem_cons.1 h
    refine forall_mem_cons.2 ⟨⟨hf.decls, fun e he => ?_⟩, hsc⟩
    rcases Dict.mem_insert he with rfl | he
    · exact ht
    · exact hf.tparams e he

end Undeclared

end Scope

/-- Where nothing was declared, only type parameters were, in the innermost frame, and no tails were made. -/
structure Inference.Quiet (σ σ' : Inference) : Prop where
  undeclared : σ'.scope.Undeclared
  outer : σ'.scope.tail = σ.scope.tail
  tails : σ'.supply.attachments.tails = σ.supply.attachments.tails

theorem Infer.Still.quiet {α : Type} {x : Infer α} {P : α → Prop} (h : Still x P) {σ σ' : Inference} {r : α}
    (hσ : σ.scope.Undeclared) (hx : Ran x σ r σ') : σ.Quiet σ' ∧ P r := by
  obtain ⟨hr, u, rfl, hu⟩ := h σ r σ' hx
  exact ⟨⟨hσ, rfl, hu⟩, hr⟩

theorem Ty.forall₂_plain {ts ts' : List Ty} :
    List.Forall₂ (fun t t' => t.Plain ∧ t = t') ts ts' ↔ (∀ t ∈ ts, t.Plain) ∧ ts = ts' := by
  rw [forall₂_and_left, forall₂_eq_eq_eq]

/-- Where nothing is declared, to find types without records. -/
def Infer.plainly : Resolution where
  World := Unit
  type _ t t' := t.Plain ∧ t = t'
  state _ σ σ' := σ.scope.Undeclared ∧ σ = σ'
  rel _ R x _ := ∀ σ r σ', σ.scope.Undeclared → Ran x σ r σ' → σ.Quiet σ' ∧ ∃ r', R () r r'
  mono _ h := h
  const := ⟨.con (by simp), rfl⟩
  app h := by
    obtain ⟨hplain, rfl⟩ := forall₂_plain.1 h
    exact ⟨.con hplain, rfl⟩
  primitives h := h.2 ▸ rfl
  scope h := h.2 ▸ .rfl
  tparam? name h := by
    obtain ⟨hσ, rfl⟩ := h
    cases ht : Scope.tparam? _ name with
    | none => exact .none
    | some t => exact .some ⟨hσ.tparam? ht, rfl⟩
  pure h σ _ _ hσ hx := by
    obtain ⟨rfl, rfl⟩ := ran_pure.1 hx
    exact ⟨⟨hσ, rfl, rfl⟩, _, h⟩
  throw _ _ _ _ _ hx := absurd hx ran_throw
  bind hx hk σ _ _ hσ h := by
    obtain ⟨a, τ, hfirst, hrest⟩ := ran_bind.1 h
    obtain ⟨hτ, a', ha⟩ := hx σ a τ hσ hfirst
    obtain ⟨hlast, hr⟩ := @hk () _ _ trivial ha τ _ _ hτ.undeclared hrest
    exact ⟨⟨hlast.undeclared, hlast.outer.trans hτ.outer, hlast.tails.trans hτ.tails⟩, hr⟩
  get h σ _ _ hσ hx := by
    obtain ⟨_, _, hget, hx⟩ := ran_bind.1 hx
    obtain ⟨rfl, rfl⟩ := ran_get.1 hget
    exact h ⟨hσ, rfl⟩ _ _ _ hσ hx
  within hx σ _ _ hσ h := by
    obtain ⟨τ, hinner, rfl⟩ := ran_within.1 h
    obtain ⟨hτ, hr⟩ := hx { σ with scope := .empty :: σ.scope } _ τ hσ.enter hinner
    have hscope : τ.scope.tail = σ.scope := hτ.outer
    exact ⟨⟨hscope ▸ hσ, congrArg List.tail hscope, hτ.tails⟩, hr⟩
  fresh σ t _ hσ hx := (still_fresh.quiet hσ hx).imp_right fun ht => ⟨t, by
    obtain ⟨v, rfl⟩ := ht
    exact .var v, rfl⟩
  growing name hts σ t _ hσ hx := (still_growing.quiet hσ hx).imp_right fun ht => ⟨t, by
    obtain ⟨l, rfl⟩ := ht
    exact .con (forall₂_plain.1 hts).1, rfl⟩
  require c _ σ b _ hσ hx := (still_require.quiet hσ hx).imp_right fun _ => ⟨b, rfl, rfl⟩
  declareTypeParam name ht σ r _ hσ hx := by
    obtain rfl := ran_modifyScope.1 hx
    refine ⟨⟨hσ.declareTypeParam ht.1, ?_, rfl⟩, r, rfl, rfl⟩
    show List.tail (Scope.modifyHead σ.scope _) = _
    cases σ.scope <;> rfl

/-- Where nothing is declared, the type of an annotation has no records, and no tails are made for it. -/
theorem Infer.plain_resolve (e : TypeExpr) {σ σ' : Inference} {t : Ty} (h : σ.scope.Undeclared)
    (hx : Ran (resolve e) σ t σ') : σ.Quiet σ' ∧ t.Plain := by
  have hwith (expand : StructDecl → List Ty → Infer Ty) :
      plainly.Types () (resolveWith expand e) (resolveWith expand e) := by
    refine related_resolveWith (fun _ (hd : False) => hd.elim) e fun u _ name _ _ _ _ hσ d hd => ?_
    rw [hσ.1.structDecl?] at hd
    cases hd
  simp only [resolve, ran_bind, ran_scope] at hx
  obtain ⟨_, τ, ⟨rfl, rfl⟩, hx⟩ := hx
  have hfound : τ.Quiet σ' ∧ ∃ t', t.Plain ∧ t = t' := by
    cases hdepth : τ.scope.structDepth with
    | zero | succ => exact hwith _ τ t σ' h (hdepth ▸ hx)
  obtain ⟨hquiet, _, hplain, -⟩ := hfound
  exact ⟨hquiet, hplain⟩

variable {prims : List String} {supply supply' : Supply} {reg : Registry} {a : Attachments}
  {cs : List Constraint}

theorem signatureType_plain {signature : String} {t : Ty}
    (h : signatureType prims supply signature = (.ok t, supply')) :
    t.Plain ∧ supply'.attachments.tails = supply.attachments.tails := by
  unfold signatureType at h
  split at h
  next => cases (Prod.mk.inj h).1
  next e _ =>
    generalize hx : (resolve e).run.run ⟨prims, supply, start .global, [], []⟩ = r at h
    obtain ⟨found, σ'⟩ := r
    obtain ⟨rfl, rfl⟩ := Prod.mk.inj h
    obtain ⟨hquiet, hplain⟩ := plain_resolve e undeclared_global hx
    exact ⟨hplain, hquiet.tails⟩

/-- The type of a builtin is void or that of its signature, if it has one. -/
theorem Builtin.type_ok {b : Builtin} {found : Option Ty} (h : b.type prims supply = (.ok found, supply')) :
    ((found = none ∨ found = some (.const Ty.void [])) ∧ supply' = supply) ∨
      ∃ t, found = some t ∧ signatureType prims supply b.signature = (.ok t, supply') := by
  have hsigned (h : ((signatureType prims supply b.signature).1.map some,
      (signatureType prims supply b.signature).2) = (.ok found, supply')) :
      ∃ t, found = some t ∧ signatureType prims supply b.signature = (.ok t, supply') := by
    cases hs : signatureType prims supply b.signature with
    | mk result after =>
      rw [hs] at h
      cases result with
      | error e => cases (Prod.mk.inj h).1
      | ok t =>
        obtain ⟨hfound, rfl⟩ := Prod.mk.inj h
        cases hfound
        exact ⟨t, rfl, rfl⟩
  unfold Builtin.type at h
  cases hk : b.kind with
  | function =>
    rw [hk] at h
    exact .inr (hsigned h)
  | value =>
    simp only [hk] at h
    split at h
    next =>
      cases h
      exact .inl ⟨.inr rfl, rfl⟩
    next => exact .inr (hsigned h)
  | other name =>
    simp only [hk] at h
    cases h
    exact .inl ⟨.inl rfl, rfl⟩

theorem Builtin.type_plain {b : Builtin} {found : Option Ty} (h : b.type prims supply = (.ok found, supply')) :
    (∀ t, found = some t → t.Plain) ∧ supply'.attachments.tails = supply.attachments.tails := by
  rcases Builtin.type_ok h with ⟨rfl | rfl, rfl⟩ | ⟨t, rfl, hs⟩
  · exact ⟨by simp, rfl⟩
  · exact ⟨fun u hu => Option.some.inj hu ▸ .con (by simp), rfl⟩
  · obtain ⟨ht, htails⟩ := signatureType_plain hs
    exact ⟨fun u hu => Option.some.inj hu ▸ ht, htails⟩

/-- What is bound can be used with any tails. -/
structure Bound.Fits (r : Bound) : Prop where
  coherent : r.supply.attachments.Coherent
  frame : ∀ B, r.frame.Fits B

theorem Bound.bindAll_fits {r r' : Bound} {bs : List (String × Builtin)}
    (h : r.Fits) (hx : bindAll prims r bs = (r', .ok ())) : r'.Fits := by
  have hcoherent {r : Bound} (h : r.Fits) {b : Builtin} {found : Option Ty} {supply : Supply}
      (hb : b.type prims r.supply = (.ok found, supply)) : supply.attachments.Coherent := by
    unfold Attachments.Coherent Attachments.tailShapes
    rw [(Builtin.type_plain hb).2]
    exact h.coherent
  induction bs generalizing r with
  | nil =>
    cases hx
    exact h
  | cons b bs ih =>
    rw [bindAll] at hx
    split at hx
    next => cases (Prod.mk.inj hx).2
    next supply htype =>
      have hnext : Bound.Fits { r with supply } := ⟨hcoherent h htype, h.frame⟩
      exact ih hnext hx
    next t supply htype =>
      have ht := (Builtin.type_plain htype).1 t rfl
      exact ih ⟨hcoherent h htype, fun B => (h.frame B).declare b.1 ⟨.of_plain ht, .inr ht⟩⟩ hx

/-! ## Solutions without failures -/

/-- If no equation fails, the bindings were found as they should. -/
theorem Constraint.sound_solveWith {keep : Bool}
     (ha : a.Coherent) (hcs : ∀ c ∈ cs, c.left.Fits a.tailShapes ∧ c.right.Fits a.tailShapes)
    (hf : (solveWith reg keep a cs).failures = []) :
    Solution.Sound a.tailShapes (solveWith reg keep a cs) := by
  rw [solveWith_eq_upTo] at hf ⊢
  have hu := Solution.undisturbed_of_failures hf
  obtain ⟨hsound, -⟩ := Solution.sound_upTo ha.fit (fun c hc _ => hcs c hc) hu (Nat.le_refl _)
  obtain ⟨hstart, hproper, -⟩ := hsound.bindings
  exact ⟨hstart, hproper⟩

/-- If no equation fails, the instances of the sides of each match. -/
theorem Constraint.solveWith_solves {keep : Bool}
     (ha : a.Coherent) (hcs : ∀ c ∈ cs, c.left.Fits a.tailShapes ∧ c.right.Fits a.tailShapes)
    (hf : (solveWith reg keep a cs).failures = []) :
    Started a.tailShapes (solveWith reg keep a cs).attachments (solveWith reg keep a cs).subst ∧
      ∀ c ∈ cs, c.kind = .equality → Matches (c.left.inst (solveWith reg keep a cs).subst.val)
        (c.right.inst (solveWith reg keep a cs).subst.val) := by
  refine ⟨(sound_solveWith ha hcs hf).started, fun c hc hk => ?_⟩
  rw [solveWith_eq_upTo] at hf ⊢
  have hu := Solution.undisturbed_of_failures hf
  obtain ⟨hsound, haccounted⟩ :=
    Solution.sound_upTo ha.fit (fun c hc _ => hcs c hc) hu (Nat.le_refl _)
  obtain ⟨-, -, himages⟩ := hsound.bindings
  obtain ⟨i, hi⟩ := mem_iff_getElem?.1 hc
  have hlt : i < cs.length := (List.getElem?_eq_some_iff.1 hi).1
  rcases haccounted i c hlt hi hk with ⟨f, hmem, -⟩ | hmatch
  · change (Solution.upTo reg keep a cs cs.length).failures = [] at hf
    rw [hf] at hmem
    cases hmem
  · rwa [← Subst.val_of_images himages] at hmatch

/-! ## Checks without error -/

namespace Checker

/-- To settle types only rewrites tails. -/
theorem settleSlots_eq (c : Checker) (slots : List (Nat × Ty)) :
    ∃ a, c.supply.attachments.Rewrites c.subst a ∧
      (c.settleSlots slots).2 = c.withAttachments a := by
  induction slots generalizing c with
  | nil => exact ⟨_, .refl, rfl⟩
  | cons e slots ih =>
    obtain ⟨a, hrewrites, heq⟩ := ih (c.settle e.2).2
    exact ⟨a, (c.supply.attachments.rewrites_revise e.2).trans hrewrites, heq⟩

/-- If no equation of a program fails, the checker has the solution, with some tails rewritten. -/
theorem finish_ok {c : Checker} {global : Frame} {program : Node} {slots : List (Nat × Ty)}
    {log : List String} (h : (c.finish global program slots log).error = none) :
    let r := solve (instances [global]) c.supply.attachments c.constraints
    r.failures = [] ∧ ∃ a, r.attachments.Rewrites r.subst a ∧
      (c.finish global program slots log).checker =
        { c.withAttachments a with subst := r.subst } := by
  intro r
  generalize hr : r = r' at *
  unfold finish at h ⊢
  simp only [show solve (instances [global]) c.supply.attachments c.constraints =
    r' from hr] at h ⊢
  split at h
  next hempty =>
    rw [if_pos hempty]
    obtain ⟨a, hrewrites, heq⟩ := settleSlots_eq { c.withAttachments r'.attachments with
      subst := r'.subst } slots
    exact ⟨List.isEmpty_iff.1 hempty, a, hrewrites, heq⟩
  next => cases h

/-- The checker before the equations of a program are solved. -/
def inferred (c : Checker) (σ : Inference) : Checker :=
  { c.reset with
    supply := σ.supply
    scope := σ.scope.drop (σ.scope.length - 2)
    constraints := σ.constraints }

/-- The state in which inference goes through a program. -/
def initial (c : Checker) (b : Bound) : Inference :=
  ⟨c.primitives, b.supply, start b.frame, [], []⟩

/-- What is logged before the equations of a program are solved. -/
def inferredLog (b : Bound) (σ : Inference) : List String :=
  b.schemes.map (fun e => "builtin " ++ e.1 ++ ": " ++ e.2.text) ++ logFrom 0 σ.constraints

section

variable {c : Checker} {program : Node} {builtins : Builtins} {b : Bound} {σ : Inference}

/-- A builtin that cannot be bound ends the check. -/
theorem run_unbound (hm : program.isMissing = false) {e : CheckError}
    (hb : bindAll c.primitives ⟨.global, c.reset.supply, []⟩ builtins = (b, .error e)) :
    ∃ log, c.run program builtins =
      fail { c.reset with supply := b.supply, scope := start b.frame } e log := by
  have hb' : bindAll c.reset.primitives ⟨.global, c.reset.supply, []⟩ builtins =
    (b, .error e) := hb
  unfold run
  rw [hm]
  simp only [hb', Bool.false_eq_true, if_false]
  exact ⟨_, rfl⟩

/-- A part of the program that cannot be typed ends the check. -/
theorem run_untyped (hm : program.isMissing = false)
    (hb : bindAll c.primitives ⟨.global, c.reset.supply, []⟩ builtins = (b, .ok ()))
    {e : CheckError} (hx : (infer program.numbered).run.run (c.initial b) = (.error e, σ)) :
    c.run program builtins = (c.inferred σ).fail e (inferredLog b σ) := by
  have hb' : bindAll c.reset.primitives ⟨.global, c.reset.supply, []⟩ builtins =
    (b, .ok ()) := hb
  have hx' : (infer program.numbered).run.run
      ⟨c.reset.primitives, b.supply, start b.frame, [], []⟩ = (.error e, σ) := hx
  unfold run
  rw [hm]
  simp only [hb', hx', Bool.false_eq_true, if_false]
  rfl

/-- If the builtins can be bound and inference finds no error, it is left to solve the equations. -/
theorem run_inferred (hm : program.isMissing = false)
    (hb : bindAll c.primitives ⟨.global, c.reset.supply, []⟩ builtins = (b, .ok ())) {t : Ty}
    (hx : Ran (infer program.numbered) (c.initial b) t σ) : c.run program builtins =
      (c.inferred σ).finish b.frame program.numbered σ.slots (inferredLog b σ) := by
  have hb' : bindAll c.reset.primitives ⟨.global, c.reset.supply, []⟩ builtins =
    (b, .ok ()) := hb
  have hx' : (infer program.numbered).run.run
      ⟨c.reset.primitives, b.supply, start b.frame, [], []⟩ = (.ok t, σ) := hx
  unfold run
  rw [hm]
  simp only [hb', hx', Bool.false_eq_true, if_false]
  rfl

/-- A check without error binds the builtins, goes through the program, and solves. -/
theorem run_ok (h : (c.run program builtins).error = none) : ∃ b t σ,
    bindAll c.primitives ⟨.global, c.reset.supply, []⟩ builtins = (b, .ok ()) ∧
      Ran (infer program.numbered) (c.initial b) t σ ∧ c.run program builtins =
        (c.inferred σ).finish b.frame program.numbered σ.slots (inferredLog b σ) := by
  have hm : program.isMissing = false := by
    cases hm : program.isMissing with
    | false => rfl
    | true =>
      rw [run, hm] at h
      cases h
  cases hb : bindAll c.primitives ⟨.global, c.reset.supply, []⟩ builtins with
  | mk b r =>
    cases hx : (infer program.numbered).run.run (c.initial b) with
    | mk found σ =>
      cases r with
      | error e =>
        obtain ⟨log, hrun⟩ := run_unbound hm hb
        rw [hrun] at h
        cases h
      | ok =>
        cases found with
        | error e =>
          rw [run_untyped hm hb hx] at h
          cases h
        | ok t => exact ⟨b, t, σ, rfl, hx, run_inferred hm hb hx⟩

/-- Inference starts from a sound state. -/
theorem sound_initial (c : Checker) (h : b.Fits) : (c.initial b).Sound := by
  refine ⟨h.coherent, Scope.all_cons.2 ⟨all_empty, Scope.all_cons.2 ⟨h.frame _, ?_⟩⟩, ?_, ?_⟩
  · simp [Scope.All]
  · simp [initial]
  · simp [initial]

theorem fits_bound (hb : bindAll c.primitives ⟨.global, c.reset.supply, []⟩ builtins = (b, .ok ())) :
    b.Fits := by
  refine bindAll_fits ⟨?_, fun B => ?_⟩ hb
  · simp [reset, withAttachments, Attachments.Coherent, Attachments.tailShapes]
  · exact all_global

/-- What a program asks for matches when it is solved. -/
theorem matches_solved (hσ : σ.Sound) {program : Node} {log : List String}
    (h : ((c.inferred σ).finish b.frame program σ.slots log).error = none) {l r : Ty}
    (hmem : Constraint.equal l r ∈ σ.constraints) :
    Matches (((c.inferred σ).finish b.frame program σ.slots log).checker.solved l)
      (((c.inferred σ).finish b.frame program σ.slots log).checker.solved r) := by
  obtain ⟨hnone, a, hrewrites, heq⟩ := finish_ok h
  obtain ⟨hstarted, hall⟩ := solveWith_solves hσ.coherent hσ.constraints hnone
  have hlast := hstarted.of_rewrites hrewrites
  obtain ⟨hl, hr⟩ := hσ.constraints _ hmem
  rw [heq]
  exact (hall _ hmem rfl).of_bare (hlast.bare_apply hl.coherent) (hlast.bare_apply hr.coherent)

/-- After a check without error, every part of the program is as the rules say, where two types go
together if their solved forms match. The names that the rules leave declared are those that the
checker knows. -/
theorem run_typed (c : Checker) (program : Node) (builtins : Builtins)
    (h : (c.run program builtins).error = none) :
    ∃ b t sc, Bound.bindAll c.primitives ⟨.global, c.reset.supply, []⟩ builtins = (b, .ok ()) ∧
      Typed (fun l r => Matches ((c.run program builtins).checker.solved l)
          ((c.run program builtins).checker.solved r))
        c.primitives (Scope.start b.frame) program.numbered t sc ∧
      (c.run program builtins).checker.scope = sc.drop (sc.length - 2) := by
  obtain ⟨b, t, σ, hb, hx, hrun⟩ := run_ok h
  rw [hrun] at h ⊢
  obtain ⟨hlater, -, htyped⟩ := infer_typed _ (c.sound_initial (fits_bound hb)) hx
  refine ⟨b, t, σ.scope, hb, htyped _ _ ⟨hlater.primitives, fun l r hmem => ?_⟩, ?_⟩
  · exact matches_solved hlater.sound h hmem
  · obtain ⟨-, a, -, heq⟩ := finish_ok h
    rw [heq]
    rfl

end

/-- A function that chooses between two numbers, and a call of it. -/
def choosing : Node :=
  .program [
    .lets [⟨"choose", .missing, .lambda ⟨[], [⟨"left", .missing, false⟩], .missing, false⟩
      (.block [.exprStmt (.ternary (.ident "left") (.number "1" false) (.number "2" false))]), 0⟩],
    .exprStmt (.call (.ident "choose") [.bool true])]

set_option maxRecDepth 2000 in
theorem run_typed_choosing : ((new defaultPrimitives).run choosing []).error = none ∧
      ∃ b t sc, Bound.bindAll defaultPrimitives ⟨.global, (new defaultPrimitives).reset.supply, []⟩ [] =
          (b, .ok ()) ∧
        Typed (fun l r => Matches (((new defaultPrimitives).run choosing []).checker.solved l)
            (((new defaultPrimitives).run choosing []).checker.solved r))
          defaultPrimitives (Scope.start b.frame) choosing.numbered t sc ∧
        ((new defaultPrimitives).run choosing []).checker.scope = sc.drop (sc.length - 2) := by
  have hrun : ((new defaultPrimitives).run choosing []).error = none := by cbv
  exact ⟨hrun, run_typed (new defaultPrimitives) choosing [] hrun⟩

end Checker

end ScriptTyping
