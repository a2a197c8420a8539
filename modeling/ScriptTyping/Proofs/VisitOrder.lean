import ScriptTyping.Proofs.Visits

/-!
# The order of visits

Inference does one thing after another. So of two visits one leads to the other, or one is over before
inference comes to the other. `Visit.Passed reg e v` says that the visit `v` is over in the state `e` and
that no owner and no class got lost since; it is used here with the state of another visit as `e`.

The argument goes down from the node that both visits come from. Where they part, they are below two
visits to which the same one leads (`Visit.Step.compare`). These are in order, and what is visited below
the first is over when the first is.

Main statement: `Visit.compare`.
-/

namespace ScriptTyping

open Ty Infer Node

/-! ## Later states -/

namespace Inference

variable {σ τ υ : Inference}

/-- From any owners of the first state there are owners of the second, and the same is registered. -/
def Reaches (σ τ : Inference) : Prop :=
  ∀ w, σ.Owned w → ∃ w', σ.Kept w w' τ ∧ τ.scope.instances = σ.scope.instances

namespace Reaches

theorem rfl : σ.Reaches σ := fun w h => ⟨w, h.rfl, Eq.refl _⟩

theorem trans (h : σ.Reaches τ) (h' : τ.Reaches υ) : σ.Reaches υ := by
  intro w hσ
  obtain ⟨w₁, hkept, hreg⟩ := h w hσ
  obtain ⟨w₂, hkept', hreg'⟩ := h' w₁ hkept.owned
  exact ⟨w₂, hkept.trans hkept', hreg'.trans hreg⟩

theorem of_ran {α : Type} {x : Infer α} {P : Owners → α → Prop} {r : α} (hx : ∀ w, Keeps w x P)
    (hr : Ran x σ r τ) : σ.Reaches τ := by
  intro w hσ
  obtain ⟨w', hkept, -, hmembers⟩ := (hx w).ran hσ hr
  exact ⟨w', hkept, Scope.instances_of_members hmembers⟩

theorem enter {f : Frame} (hf : ∀ w, f.Owned w) (hm : f.members = []) : σ.Reaches (σ.enter f) := by
  intro w hσ
  refine ⟨w, ⟨List.prefix_rfl, ⟨hσ.supply, .inner (hf w) hσ.scope, hσ.constraints⟩, .rfl, .rfl,
    List.suffix_rfl⟩, ?_⟩
  exact Scope.instances_cons hm σ.scope

theorem empty : σ.Reaches (σ.enter .empty) := enter (fun _ => Frame.all_empty) (by rfl)

theorem ready (h : σ.Reaches τ) {reg : Registry} {w : Owners} (hσ : σ.Ready reg w) :
    ∃ w', τ.Ready reg w' := by
  obtain ⟨w', hkept, hreg⟩ := h w hσ.toOwned
  exact ⟨w', hkept.owned, hreg.trans hσ.registered⟩

end Reaches

end Inference

namespace Visit

variable {reg : Registry} {e e' σ τ : Inference} {w : Owners} {d : Nat} {n m : Node} {u v v' a b : Visit}

/-- The state of a visit comes after the state of the one that leads to it. -/
theorem Step.reaches (hs : v.Step v') : v.state.Reaches v'.state := by
  cases hs with
  | condition | whileCondition | object | literal => exact .rfl
  | @part d n m before after ts σ σ₁ τ hc hn h =>
    exact (Inference.Reaches.of_ran (keeps_conditioned d n) hc).trans (.of_ran (fun _ => keeps_nodes d before) h)
  | @block d m before after ts σ τ h => exact .trans .empty (.of_ran (fun _ => keeps_nodes d before) h)
  | @whileBody d cond body σ τ hc => exact (Inference.Reaches.of_ran (keeps_condition d cond) hc).trans .empty
  | forInit => exact .empty
  | @forCondition d init cond step body i σ τ hi => exact .trans .empty (.of_ran (keeps_inferDepth d init) hi)
  | @forStep d init cond step body i σ σ₁ τ hi hc =>
    exact .trans .empty (.trans (.of_ran (keeps_inferDepth d init) hi) (.of_ran (keeps_condition d cond) hc))
  | @forBody d init cond step body i s σ σ₁ σ₂ τ hi hc hs =>
    exact .trans .empty (.trans (.of_ran (keeps_inferDepth d init) hi)
      (.trans (.of_ran (keeps_condition d cond) hc) (.trans (.of_ran (keeps_inferDepth d step) hs) .empty)))
  | @value d n v before after declared σ σ₁ τ hn h hv hd =>
    exact (Inference.Reaches.of_ran (keeps_inferVars (keeps_constants d) before) h).trans
      (.of_ran (fun _ => keeps_resolveIfWritten v.ann) hd)
  | body hn h =>
    exact .trans (.enter (fun _ => Frame.all_function) (by rfl)) (.of_ran (fun _ => keeps_functionHead) h)
  | constant he hv hk h =>
    exact .trans .empty (.of_ran (fun _ => (keeps_declareTypeParams (by simp)).bind fun _ _ _ => keeps_growing) h)
  | @element d m before after first σ τ h =>
    exact .of_ran (fun w => keeps_inferElems (keeps_constants d) before w .missing) h

theorem reaches_of_steps (hv : Relation.ReflTransGen Step v v') : v.state.Reaches v'.state := by
  induction hv with
  | refl => exact .rfl
  | tail _ hs ih => exact ih.trans hs.reaches

variable {α : Type} {x : Infer α} {ns : List Node} {cond body object : Node} {name : String}

/-- A computation that is run leads to its end. -/
theorem leadsTo_of_ran {P : Owners → α → Prop} {r : α} (h : σ.Ready reg w)
    (hr : Ran x σ r τ) : LeadsTo reg τ w P x σ :=
  ⟨h, r, τ, hr, fun w' _ hτ _ => ⟨w', hτ.rfl⟩⟩

theorem passed_of_ran {t : Ty} (h : σ.Ready reg w) (hr : Ran (inferDepth d n) σ t τ) : Passed reg τ ⟨d, n, σ⟩ :=
  ⟨w, leadsTo_of_ran h hr⟩

theorem passed_of_condition (h : σ.Ready reg w) (hc : Ran (Infer.condition d n) σ () τ) :
    Passed reg τ ⟨d, n, σ⟩ := by
  have hcond : LeadsTo reg τ w (fun _ _ => True) (Infer.condition d n) σ := leadsTo_of_ran h hc
  exact ⟨w, hcond.first fun _ _ _ ht => keeps_expectBoolean ht⟩

/-- What is over stays over. -/
theorem Passed.later (h : Passed reg e v) (he : e.Reaches e') : Passed reg e' v := by
  obtain ⟨w, hready, r, σ', hr, hends⟩ := h
  refine ⟨w, hready, r, σ', hr, fun w' hw hσ' hp => ?_⟩
  obtain ⟨w₁, hkept⟩ := hends w' hw hσ' hp
  obtain ⟨w₂, hkept', -⟩ := he w₁ hkept.owned
  exact ⟨w₂, hkept.trans hkept'⟩

/-! ## Visits to which the same one leads -/

/-- The visits are the same, or one is over before the other. -/
def Ordered (reg : Registry) (a b : Visit) : Prop := a = b ∨ Passed reg b.state a ∨ Passed reg a.state b

/-- Two places in a list are the same, or one is before the other. -/
theorem places {xs ys : List α} {x y : α} {xs' ys' : List α} (h : xs ++ x :: xs' = ys ++ y :: ys') :
    (xs = ys ∧ x = y) ∨ (∃ mid, ys = xs ++ x :: mid) ∨ ∃ mid, xs = ys ++ y :: mid := by
  rcases List.append_eq_append_iff.1 h with ⟨mid, rfl, hmid⟩ | ⟨mid, rfl, hmid⟩ <;> cases mid with
  | nil => simp_all
  | cons z mid => simp_all

/-- The visit is that of one of some nodes that are visited in order. -/
def InOrder (d : Nat) (ns : List Node) (σ : Inference) (a : Visit) : Prop :=
  ∃ before m after ts τ, ns = before ++ m :: after ∧ Ran (before.mapM (inferDepth d)) σ ts τ ∧ a = ⟨d, m, τ⟩

theorem InOrder.compare (h : σ.Ready reg w) (ha : InOrder d ns σ a) (hb : InOrder d ns σ b) :
    Ordered reg a b := by
  -- A node before another is over when the nodes before the other are.
  have hbefore {before mid : List Node} {m : Node} {ts us : List Ty} {τ υ : Inference}
      (hτ : Ran (before.mapM (inferDepth d)) σ ts τ)
      (hυ : Ran ((before ++ m :: mid).mapM (inferDepth d)) σ us υ) : Passed reg υ ⟨d, m, τ⟩ :=
    passed_of_nodes (leadsTo_of_ran h hυ) hτ
  obtain ⟨before, m, after, ts, τ, hn, hτ, rfl⟩ := ha
  obtain ⟨before', m', after', us, υ, hn', hυ, rfl⟩ := hb
  rcases places (hn.symm.trans hn') with ⟨rfl, rfl⟩ | ⟨mid, rfl⟩ | ⟨mid, rfl⟩
  · obtain ⟨-, rfl⟩ := hτ.unique hυ
    exact .inl rfl
  · exact .inr (.inl (hbefore hτ hυ))
  · exact .inr (.inr (hbefore hυ hτ))

theorem compare_block (h : σ.Ready reg w) (ha : Step ⟨d, .block ns, σ⟩ a)
    (hb : Step ⟨d, .block ns, σ⟩ b) : Ordered reg a b := by
  have hstep {a : Visit} (ha : Step ⟨d, .block ns, σ⟩ a) : InOrder d ns (σ.enter .empty) a := by
    cases ha with
    | block h => exact ⟨_, _, _, _, _, rfl, h, rfl⟩
    | condition hn | body hn => cases hn
    | part _ hn | value hn => simp [Node.parts, Node.variables] at hn
  obtain ⟨w', hready⟩ := Inference.Reaches.empty.ready h
  exact InOrder.compare hready (hstep ha) (hstep hb)

/-- A visit comes first, and all others after a computation in which it is over. -/
theorem compare_first {first : Visit} {Rest : Inference → Visit → Prop}
    (hfirst : ∀ r τ, Ran x σ r τ → Passed reg τ first) (hlater : ∀ τ a, Rest τ a → τ.Reaches a.state)
    (hrest : ∀ r τ, Ran x σ r τ → ∀ a b, Rest τ a → Rest τ b → Ordered reg a b)
    (ha : a = first ∨ ∃ r τ, Ran x σ r τ ∧ Rest τ a) (hb : b = first ∨ ∃ r τ, Ran x σ r τ ∧ Rest τ b) :
    Ordered reg a b := by
  rcases ha with rfl | ⟨r, τ, hr, ha⟩ <;> rcases hb with rfl | ⟨r', τ', hr', hb⟩
  · exact .inl rfl
  · exact .inr (.inl ((hfirst r' τ' hr').later (hlater τ' b hb)))
  · exact .inr (.inr ((hfirst r τ hr).later (hlater τ a ha)))
  · obtain ⟨-, rfl⟩ := hr.unique hr'
    exact hrest r' τ' hr' a b ha hb

theorem compare_parts (hn : n.parts ≠ []) (h : σ.Ready reg w) (ha : Step ⟨d, n, σ⟩ a)
    (hb : Step ⟨d, n, σ⟩ b) : Ordered reg a b := by
  have hstep {a : Visit} (ha : Step ⟨d, n, σ⟩ a) : (∃ cond, n.condition? = some cond ∧ a = ⟨d, cond, σ⟩) ∨
      ∃ r σ₁, Ran (conditioned (constants d) n) σ r σ₁ ∧ InOrder d n.parts σ₁ a := by
    cases ha with
    | condition hc => exact .inl ⟨_, hc, rfl⟩
    | part hc hparts h => exact .inr ⟨_, _, hc, _, _, _, _, _, hparts, h, rfl⟩
    | value hv => cases n <;> simp_all [Node.variables, Node.parts]
    | body hf => cases n <;> simp_all [function?, parts]
    | _ => exact absurd rfl hn
  have hrest (r : Unit) (σ₁ : Inference) (hc : Ran (conditioned (constants d) n) σ r σ₁) (a b : Visit)
      (ha : InOrder d n.parts σ₁ a) (hb : InOrder d n.parts σ₁ b) : Ordered reg a b := by
    obtain ⟨w', hready⟩ := (Inference.Reaches.of_ran (keeps_conditioned d n) hc).ready h
    exact ha.compare hready hb
  cases hcond : n.condition? with
  | none =>
    simp only [hcond, reduceCtorEq, false_and, exists_false, false_or] at hstep
    obtain ⟨r, σ₁, hc, ha⟩ := hstep ha
    obtain ⟨r', σ₂, hc', hb⟩ := hstep hb
    obtain ⟨-, rfl⟩ := hc.unique hc'
    exact hrest r' _ hc' a b ha hb
  | some cond =>
    simp only [hcond, Option.some.injEq, exists_eq_left'] at hstep
    refine compare_first (fun r σ₁ hc => ?_) (fun σ₁ a ha => ?_) hrest (hstep ha) (hstep hb)
    · rw [conditioned_eq, hcond] at hc
      exact passed_of_condition h hc
    · obtain ⟨before, m, after, ts, τ, -, hτ, rfl⟩ := ha
      exact .of_ran (fun _ => keeps_nodes d before) hτ

/-- The body of a loop. -/
def InLoop (d : Nat) (body : Node) (σ : Inference) (a : Visit) : Prop := a = ⟨d, body, σ.enter .empty⟩

theorem InLoop.reaches {body : Node} (h : InLoop d body σ a) : σ.Reaches a.state := by
  rw [h]
  exact .empty

theorem compare_while (h : σ.Ready reg w) (ha : Step ⟨d, .whileLoop cond body, σ⟩ a)
    (hb : Step ⟨d, .whileLoop cond body, σ⟩ b) : Ordered reg a b := by
  have hstep {a : Visit} (ha : Step ⟨d, .whileLoop cond body, σ⟩ a) : a = ⟨d, cond, σ⟩ ∨
      ∃ r τ, Ran (Infer.condition d cond) σ r τ ∧ InLoop d body τ a := by
    cases ha with
    | whileCondition => exact .inl rfl
    | whileBody hc => exact .inr ⟨_, _, hc, rfl⟩
    | condition hn | body hn => cases hn
    | part _ hn | value hn => simp [Node.parts, Node.variables] at hn
  exact compare_first (fun _ _ hc => passed_of_condition h hc) (fun _ _ h => h.reaches)
    (fun _ _ _ _ _ ha hb => .inl (ha.trans hb.symm)) (hstep ha) (hstep hb)

/-- What comes after the condition of a loop with a step. -/
def AfterCondition (d : Nat) (step body : Node) (σ : Inference) (a : Visit) : Prop :=
  a = ⟨d, step, σ⟩ ∨ ∃ s τ, Ran (inferDepth d step) σ s τ ∧ InLoop d body τ a

/-- What comes after the start of a loop with a step. -/
def AfterInit (d : Nat) (cond step body : Node) (σ : Inference) (a : Visit) : Prop :=
  a = ⟨d, cond, σ⟩ ∨ ∃ r τ, Ran (Infer.condition d cond) σ r τ ∧ AfterCondition d step body τ a

theorem AfterCondition.reaches {step body : Node} (h : AfterCondition d step body σ a) : σ.Reaches a.state := by
  rcases h with rfl | ⟨s, τ, hs, h⟩
  · exact .rfl
  · exact .trans (.of_ran (keeps_inferDepth d step) hs) h.reaches

theorem AfterInit.reaches {cond step body : Node} (h : AfterInit d cond step body σ a) : σ.Reaches a.state := by
  rcases h with rfl | ⟨r, τ, hc, h⟩
  · exact .rfl
  · exact .trans (.of_ran (keeps_condition d cond) hc) h.reaches

theorem compare_for {init step : Node} (h : σ.Ready reg w)
    (ha : Step ⟨d, .forLoop init cond step body, σ⟩ a) (hb : Step ⟨d, .forLoop init cond step body, σ⟩ b) :
    Ordered reg a b := by
  have hstep {a : Visit} (ha : Step ⟨d, .forLoop init cond step body, σ⟩ a) : a = ⟨d, init, σ.enter .empty⟩ ∨
      ∃ i τ, Ran (inferDepth d init) (σ.enter .empty) i τ ∧ AfterInit d cond step body τ a := by
    cases ha with
    | forInit => exact .inl rfl
    | forCondition hi => exact .inr ⟨_, _, hi, .inl rfl⟩
    | forStep hi hc => exact .inr ⟨_, _, hi, .inr ⟨_, _, hc, .inl rfl⟩⟩
    | forBody hi hc hs => exact .inr ⟨_, _, hi, .inr ⟨_, _, hc, .inr ⟨_, _, hs, rfl⟩⟩⟩
    | condition hn | body hn => cases hn
    | part _ hn | value hn => simp [Node.parts, Node.variables] at hn
  obtain ⟨w₀, hentered⟩ := Inference.Reaches.empty.ready h
  refine compare_first (fun _ _ hi => passed_of_ran hentered hi) (fun _ _ h => h.reaches)
    (fun i σ₁ hi a b ha hb => ?_) (hstep ha) (hstep hb)
  obtain ⟨w₁, hready₁⟩ := (Inference.Reaches.of_ran (keeps_inferDepth d init) hi).ready hentered
  refine compare_first (fun _ _ hc => passed_of_condition hready₁ hc) (fun _ _ h => h.reaches)
    (fun r σ₂ hc a b ha hb => ?_) ha hb
  obtain ⟨w₂, hready₂⟩ := (Inference.Reaches.of_ran (keeps_condition d cond) hc).ready hready₁
  exact compare_first (fun _ _ hs => passed_of_ran hready₂ hs) (fun _ _ h => h.reaches)
    (fun _ _ _ _ _ ha hb => .inl (ha.trans hb.symm)) ha hb

theorem compare_values (hn : (∃ vs, n = .lets vs) ∨ ∃ v, n = .var v) (h : σ.Ready reg w)
    (ha : Step ⟨d, n, σ⟩ a) (hb : Step ⟨d, n, σ⟩ b) : Ordered reg a b := by
  have hstep {a : Visit} (ha : Step ⟨d, n, σ⟩ a) : ∃ before v after declared σ₁ τ,
      n.variables = before ++ v :: after ∧ Ran (inferVars (constants d) before) σ () σ₁ ∧
      σ₁.scope.lookupLocal? v.name = none ∧ Ran (resolveIfWritten v.ann) σ₁ declared τ ∧
      a = ⟨d, v.value, τ⟩ := by
    rcases hn with ⟨vs, rfl⟩ | ⟨v, rfl⟩ <;> cases ha with
    | value hv h hl hd => exact ⟨_, _, _, _, _, _, hv, h, hl, hd, rfl⟩
    | condition hn | body hn => cases hn
    | part _ hn => simp [parts] at hn
  -- A value is over when the variables before another are declared.
  have hbefore {before mid : List Variable} {v : Variable} {declared : Ty} {σ₁ τ υ : Inference}
      (hσ₁ : Ran (inferVars (constants d) before) σ () σ₁) (hl : σ₁.scope.lookupLocal? v.name = none)
      (hd : Ran (resolveIfWritten v.ann) σ₁ declared τ)
      (hυ : Ran (inferVars (constants d) (before ++ v :: mid)) σ () υ) : Passed reg υ ⟨d, v.value, τ⟩ := by
    have hlets : Ran (inferDepth d (.lets (before ++ v :: mid))) σ .missing υ := by
      rw [inferDepth_eq, inferWith]
      exact ran_bind.2 ⟨(), υ, hυ, ran_pure.2 ⟨rfl, rfl⟩⟩
    exact (passed_of_ran h hlets).value (Eq.refl (before ++ v :: mid)) hσ₁ hl hd
  obtain ⟨before, v, after, declared, σ₁, τ, hvs₁, hσ₁, hl, hd, rfl⟩ := hstep ha
  obtain ⟨before', v', after', declared', σ₂, υ, hvs₂, hσ₂, hl', hd', rfl⟩ := hstep hb
  rcases places (hvs₁.symm.trans hvs₂) with ⟨rfl, rfl⟩ | ⟨mid, rfl⟩ | ⟨mid, rfl⟩
  · obtain ⟨-, rfl⟩ := hσ₁.unique hσ₂
    obtain ⟨-, rfl⟩ := hd.unique hd'
    exact .inl rfl
  · exact .inr (.inl ((hbefore hσ₁ hl hd hσ₂).later (.of_ran (fun _ => keeps_resolveIfWritten v'.ann) hd')))
  · exact .inr (.inr ((hbefore hσ₂ hl' hd' hσ₁).later (.of_ran (fun _ => keeps_resolveIfWritten v.ann) hd)))

theorem compare_array (h : σ.Ready reg w) (ha : Step ⟨d, .array ns, σ⟩ a)
    (hb : Step ⟨d, .array ns, σ⟩ b) : Ordered reg a b := by
  have hstep {a : Visit} (ha : Step ⟨d, .array ns, σ⟩ a) : ∃ before m after first τ, ns = before ++ m :: after ∧
      Ran (inferElems (constants d) .missing before) σ first τ ∧ a = ⟨d, m, τ⟩ := by
    cases ha with
    | element h => exact ⟨_, _, _, _, _, rfl, h, rfl⟩
    | condition hn | body hn => cases hn
    | part _ hn | value hn => simp [Node.parts, Node.variables] at hn
  have hbefore {before mid : List Node} {m : Node} {first last : Ty} {τ υ : Inference}
      (hτ : Ran (inferElems (constants d) .missing before) σ first τ)
      (hυ : Ran (inferElems (constants d) .missing (before ++ m :: mid)) σ last υ) :
      Passed reg υ ⟨d, m, τ⟩ := by
    have harray : ∃ t, Ran (inferDepth d (.array (before ++ m :: mid))) σ t υ := by
      rw [inferDepth_eq, inferWith]
      exact ⟨_, ran_bind.2 ⟨last, υ, hυ, ran_pure.2 ⟨rfl, rfl⟩⟩⟩
    obtain ⟨t, ht⟩ := harray
    exact (passed_of_ran h ht).element hτ
  obtain ⟨before, m, after, first, τ, hn, hτ, rfl⟩ := hstep ha
  obtain ⟨before', m', after', first', υ, hn', hυ, rfl⟩ := hstep hb
  rcases places (hn.symm.trans hn') with ⟨rfl, rfl⟩ | ⟨mid, rfl⟩ | ⟨mid, rfl⟩
  · obtain ⟨-, rfl⟩ := hτ.unique hυ
    exact .inl rfl
  · exact .inr (.inl (hbefore hτ hυ))
  · exact .inr (.inr (hbefore hυ hτ))

theorem compare_function {sig : Signature}
    (hn : n.function? = some (name, sig, body)) (ha : Step ⟨d, n, σ⟩ a) (hb : Step ⟨d, n, σ⟩ b) :
    Ordered reg a b := by
  have hstep {a : Visit} (ha : Step ⟨d, n, σ⟩ a) : ∃ head τ,
      Ran (functionHead name sig) (σ.enter .function) head τ ∧ a = ⟨d, body, τ⟩ := by
    cases ha with
    | body hf h =>
      obtain ⟨rfl, rfl, rfl⟩ : name = _ ∧ sig = _ ∧ body = _ := by simpa using hn.symm.trans hf
      exact ⟨_, _, h, rfl⟩
    | condition hc => cases n <;> simp_all [function?, condition?]
    | part _ hp => cases n <;> simp_all [function?, parts]
    | value hv => cases n <;> simp_all [Node.function?, Node.variables]
    | _ => cases hn
  obtain ⟨head, τ, hτ, rfl⟩ := hstep ha
  obtain ⟨head', υ, hυ, rfl⟩ := hstep hb
  obtain ⟨-, rfl⟩ := hτ.unique hυ
  exact .inl rfl

/-- A member of a name is a variant of an enum, or a part of a value. -/
theorem compare_member {property : String} {arrow : Bool}
    (ha : Step ⟨d, .member object property arrow, σ⟩ a) (hb : Step ⟨d, .member object property arrow, σ⟩ b) :
    Ordered reg a b := by
  cases ha with
  | condition hn | body hn => cases hn
  | part _ hn | value hn => simp [Node.parts, Node.variables] at hn
  | object he => cases hb with
    | condition hn | body hn => cases hn
    | part _ hn | value hn => simp [Node.parts, Node.variables] at hn
    | object => exact .inl rfl
    | constant he' => cases he.symm.trans he'
  | constant he hv _ h => cases hb with
    | condition hn | body hn => cases hn
    | part _ hn | value hn => simp [Node.parts, Node.variables] at hn
    | object he' => cases he.symm.trans he'
    | constant he' hv' _ h' =>
      obtain rfl := Option.some.inj (he.symm.trans he')
      obtain rfl := Option.some.inj (hv.symm.trans hv')
      obtain ⟨-, rfl⟩ := h.unique h'
      exact .inl rfl

theorem compare_literal (ha : Step ⟨d, .structLit name object, σ⟩ a)
    (hb : Step ⟨d, .structLit name object, σ⟩ b) : Ordered reg a b := by
  have hstep {a : Visit} (ha : Step ⟨d, .structLit name object, σ⟩ a) : a = ⟨d, object, σ⟩ := by
    cases ha with
    | literal => rfl
    | condition hn | body hn => cases hn
    | part _ hn | value hn => simp [Node.parts, Node.variables] at hn
  exact .inl ((hstep ha).trans (hstep hb).symm)

/-- Two visits to which the same one leads are in order. -/
theorem Step.compare (h : u.state.Ready reg w) (ha : u.Step a) (hb : u.Step b) : Ordered reg a b := by
  obtain ⟨d, n, σ⟩ := u
  by_cases hparts : n.parts = []
  · cases n with
    | block ns => exact compare_block h ha hb
    | whileLoop cond body => exact compare_while h ha hb
    | forLoop init cond step body => exact compare_for h ha hb
    | lets vs => exact compare_values (.inl ⟨vs, rfl⟩) h ha hb
    | var v => exact compare_values (.inr ⟨v, rfl⟩) h ha hb
    | func name sig body => exact compare_function rfl ha hb
    | lambda sig body => exact compare_function rfl ha hb
    | member object property arrow => exact compare_member ha hb
    | array ns => exact compare_array h ha hb
    | structLit name object => exact compare_literal ha hb
    | ifElse cond yes no => simp [parts] at hparts
    | ternary cond yes no => simp [parts] at hparts
    | _ =>
      cases ha with
      | condition hn | body hn => cases hn
      | part _ hn | value hn => simp_all [Node.variables]
  · exact compare_parts hparts h ha hb

/-! ## All visits -/

/-- Of two visits to which one leads, one leads to the other, or they are in order. -/
theorem compare (h : u.state.Ready reg w) (ha : Relation.ReflTransGen Step u a)
    (hb : Relation.ReflTransGen Step u b) : Relation.ReflTransGen Step a b ∨
      Relation.ReflTransGen Step b a ∨ Passed reg b.state a ∨ Passed reg a.state b := by
  induction ha using Relation.ReflTransGen.head_induction_on generalizing w with
  | refl => exact .inl hb
  | @head u x hux hxa ih =>
    rcases Relation.ReflTransGen.cases_head hb with rfl | ⟨y, huy, hyb⟩
    · exact .inr (.inl (.head hux hxa))
    · rcases hux.compare h huy with rfl | hpassed | hpassed
      · obtain ⟨w', hready⟩ := hux.reaches.ready h
        exact ih hready hyb
      · exact .inr (.inr (.inl ((hpassed.visited hxa).later (reaches_of_steps hyb))))
      · exact .inr (.inr (.inr ((hpassed.visited hyb).later (reaches_of_steps hxa))))

end Visit

end ScriptTyping
