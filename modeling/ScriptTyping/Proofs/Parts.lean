import ScriptTyping.Proofs.InferOwned

/-!
# Parts of a node

Most nodes visit their parts in order (`Node.parts`), after a condition if there is one, and then do
something with the types of the parts (`finish`). This module takes a run over a node apart into runs over
its parts: `ran_parts`.
-/

namespace ScriptTyping

open Ty Infer List

/-! ## Parts -/

namespace Node

/-- The condition that is visited first. -/
def condition? : Node → Option Node
  | ifElse cond _ _ => some cond
  | ternary cond _ _ => some cond
  | _ => none

/-- The parts that are visited one after another, with nothing between them. -/
def parts : Node → List Node
  | program body => body
  | exprStmt expr => [expr]
  | ifElse _ yes no => [yes, no]
  | returns value => [value]
  | binary _ left right => [left, right]
  | logical _ left right => [left, right]
  | unary _ x => [x]
  | update _ x _ => [x]
  | assign _ target value => [target, value]
  | ternary _ yes no => [yes, no]
  | sequence exprs => exprs
  | call callee args => callee :: args
  | await (call callee args) => callee :: args
  | await expr => [expr]
  | index obj position => [obj, position]
  | object props => props.map Prod.snd
  | _ => []

end Node

namespace Infer

/-- The properties that have a value, with their types. -/
def valued (props : List (String × Node)) (ts : List Ty) : List (String × Ty) :=
  ((props.map Prod.fst).zip ts).filter fun e => !e.2.isMissing

/-- What is done with the types of the parts of a node. -/
def finish : Node → List Ty → Infer Ty
  | .exprStmt expr, [t] => return if expr.isAssign then .missing else t
  | .ifElse _ _ _, t :: _ => return t
  | .returns _, [t] => do
    addReturn (if t.isMissing then .primitive Ty.void else t)
    return .missing
  | .binary op _ _, [t, u] => do
    expectValue op t
    expectValue op u
    binaryType op t u
  | .logical op _ _, [t, u] => do
    expectValue op t
    expectValue op u
    equate t boolean
    equate u boolean
    return boolean
  | .unary op _, [t] => unaryType op t
  | .update op _ _, [t] => numericType op t
  | .assign op target _, [t, u] => do
    expectValue op t
    expectValue op u
    equate t u
    declareTarget target t
    return t
  | .ternary _ _ _, [t, u] => do
    expectValue "?:" t
    expectValue "?:" u
    equate t u
    return t
  | .sequence _, ts => return ts.getLastD .missing
  | .call _ _, t :: ts => callType false t ts
  | .await (.call _ _), t :: ts => do awaitedType (← callType true t ts)
  | .await _, [t] => awaitedType t
  | .index _ position, t :: _ => partType t position.string?
  | .object props, ts => record Ty.anonymous (valued props ts) []
  | _, _ => return .missing

variable {w : Owners}

theorem owned_getLastD {ts : List Ty} (h : ∀ t ∈ ts, t.Owned w) : (ts.getLastD .missing).Owned w := by
  rw [getLastD_eq_getLast?]
  cases hlast : ts.getLast? with
  | none => exact .missing
  | some t => exact h t (mem_of_getLast? hlast)

theorem keeps_finish (n : Node) (ts : List Ty) (hts : ∀ t ∈ ts, t.Owned w) :
    Keeps w (finish n ts) Ty.Owned := by
  have h (t : Ty) (ht : t ∈ ts) : owning.type w t t := ⟨hts t ht, rfl⟩
  refine types_owning.1 ?_
  unfold finish
  split
  next expr t =>
    refine owning.pure ?_
    split
    · exact owning.missing
    · exact h t mem_cons_self
  next => exact owning.pure (h _ mem_cons_self)
  next t =>
    refine owning.bind_still (owning.addReturn ?_) fun _ => owning.pure owning.missing
    split
    · exact owning.const
    · exact h t mem_cons_self
  next op _ _ t u =>
    obtain ⟨ht, hu⟩ : owning.type w t t ∧ owning.type w u u := ⟨h t (by simp), h u (by simp)⟩
    exact related_values ht hu (related_binaryType op ht hu)
  next op _ _ t u =>
    obtain ⟨ht, hu⟩ : owning.type w t t ∧ owning.type w u u := ⟨h t (by simp), h u (by simp)⟩
    refine related_values ht hu (owning.bind_still (owning.equate ht owning.const) fun _ => ?_)
    exact related_equated hu owning.const owning.const
  next => exact related_unaryType _ (h _ mem_cons_self)
  next => exact related_numericType _ (h _ mem_cons_self)
  next op target _ t u =>
    obtain ⟨ht, hu⟩ : owning.type w t t ∧ owning.type w u u := ⟨h t (by simp), h u (by simp)⟩
    refine related_values ht hu (owning.bind_still (owning.equate ht hu) fun _ => ?_)
    exact owning.bind_still (related_declareTarget target ht) fun _ => owning.pure ht
  next t u =>
    obtain ⟨ht, hu⟩ : owning.type w t t ∧ owning.type w u u := ⟨h t (by simp), h u (by simp)⟩
    exact related_values ht hu (related_equated ht hu ht)
  next => exact types_owning.2 (.pure (owned_getLastD hts))
  next t ts =>
    exact related_callType false (h t (by simp)) (forall₂_owned.2 ⟨fun u hu => hts u (by simp [hu]), rfl⟩)
  next t ts =>
    have hts : owning.all w ts ts := forall₂_owned.2 ⟨fun u hu => hts u (by simp [hu]), rfl⟩
    exact owning.bind (related_callType true (h t (by simp)) hts) fun _ => related_awaitedType
  next => exact related_awaitedType (h _ mem_cons_self)
  next => exact related_partType _ (h _ mem_cons_self)
  next props ts =>
    refine types_owning.2 (keeps_record (fun e he => ?_) (by simp))
    have hzip := (mem_filter.1 he).1
    exact hts e.2 (of_mem_zip hzip).2
  next => exact owning.pure owning.missing

/-! ## Constants -/

/-- How constants are visited below a given depth. -/
def constants : Nat → Node → Infer Ty
  | 0, _ => throw .recursiveConstant
  | depth + 1, n => inferDepth depth n

theorem inferDepth_eq (depth : Nat) : inferDepth depth = inferWith (constants depth) := by
  cases depth <;> rfl

theorem keeps_constants (depth : Nat) (n : Node) (w : Owners) : Keeps w (constants depth n) Ty.Owned := by
  cases depth with
  | zero => exact .throw
  | succ depth => exact keeps_inferDepth depth n w

/-! ## Runs over lists -/

variable {α β : Type} {σ σ' σ'' : Inference} {constant : Node → Infer Ty} {t : Ty}

/-- A computation comes to one end only. -/
theorem Ran.unique {x : Infer α} {r r' : α} (h : Ran x σ r σ') (h' : Ran x σ r' σ'') : r' = r ∧ σ'' = σ' := by
  obtain ⟨hr, hσ⟩ := Prod.mk.inj (h'.symm.trans h)
  exact ⟨Except.ok.inj hr, hσ⟩

theorem Ran.after {x : Infer α} {f : α → Infer β} {r : α} {r' : β} (h : Ran x σ r σ')
    (hx : Ran (x >>= f) σ r' σ'') : Ran (f r) σ' r' σ'' := by
  obtain ⟨_, _, hr, hf⟩ := ran_bind.1 hx
  obtain ⟨rfl, rfl⟩ := h.unique hr
  exact hf

theorem ran_inferLast {last : Ty} {ns : List Node} (h : Ran (inferLast constant last ns) σ t σ') :
    ∃ ts, Ran (ns.mapM (inferWith constant)) σ ts σ' ∧ t = ts.getLastD last := by
  induction ns generalizing σ last with
  | nil =>
    rw [inferLast] at h
    obtain ⟨rfl, rfl⟩ := ran_pure.1 h
    exact ⟨[], ran_mapM_nil.2 ⟨rfl, rfl⟩, rfl⟩
  | cons n ns ih =>
    rw [inferLast] at h
    obtain ⟨u, τ, hu, h⟩ := ran_bind.1 h
    obtain ⟨ts, hts, rfl⟩ := ih h
    exact ⟨u :: ts, ran_mapM_cons.2 ⟨u, τ, ts, hu, hts, rfl⟩, getLastD_cons.symm⟩

theorem ran_inferArgs {ns : List Node} {ts : List Ty} (h : Ran (inferArgs constant ns) σ ts σ') :
    Ran (ns.mapM (inferWith constant)) σ ts σ' := by
  induction ns generalizing σ ts with
  | nil =>
    rw [inferArgs] at h
    exact ran_mapM_nil.2 (ran_pure.1 h)
  | cons n ns ih =>
    rw [inferArgs] at h
    simp only [ran_bind, ran_pure] at h
    obtain ⟨u, τ, hu, _, _, hvalue, ts, _, hts, rfl, rfl⟩ := h
    obtain ⟨-, rfl⟩ := ran_expectValue hvalue
    exact ran_mapM_cons.2 ⟨u, _, ts, hu, ih hts, rfl⟩

theorem ran_inferProps {ps : List (String × Node)} {entries : List (String × Ty)}
    (h : Ran (inferProps constant ps) σ entries σ') :
    ∃ ts, Ran ((ps.map Prod.snd).mapM (inferWith constant)) σ ts σ' ∧ entries = valued ps ts := by
  induction ps generalizing σ entries with
  | nil =>
    rw [inferProps] at h
    obtain ⟨rfl, rfl⟩ := ran_pure.1 h
    exact ⟨[], ran_mapM_nil.2 ⟨rfl, rfl⟩, rfl⟩
  | cons p ps ih =>
    obtain ⟨key, n⟩ := p
    rw [inferProps] at h
    simp only [ran_bind, ran_pure] at h
    obtain ⟨u, τ, hu, rest, _, hrest, rfl, rfl⟩ := h
    obtain ⟨ts, hts, rfl⟩ := ih hrest
    refine ⟨u :: ts, ran_mapM_cons.2 ⟨u, τ, ts, hu, hts, rfl⟩, ?_⟩
    cases hm : u.isMissing <;> simp [valued, hm]

theorem ran_inferVars_append {vs us : List Variable} {r : Unit}
    (h : Ran (inferVars constant (vs ++ us)) σ r σ') :
    ∃ τ, Ran (inferVars constant vs) σ () τ ∧ Ran (inferVars constant us) τ () σ' := by
  induction vs generalizing σ with
  | nil =>
    rw [inferVars]
    exact ⟨σ, ran_pure.2 ⟨rfl, rfl⟩, h⟩
  | cons v vs ih =>
    obtain ⟨name, ann, value, slot⟩ := v
    rw [cons_append, inferVars] at h
    obtain ⟨_, τ, hv, h⟩ := ran_bind.1 h
    obtain ⟨τ', hvs, hus⟩ := ih h
    refine ⟨τ', ?_, hus⟩
    rw [inferVars]
    exact ran_bind.2 ⟨_, τ, hv, hvs⟩

theorem ran_inferElems_append {ns ms : List Node} {first : Ty}
    (h : Ran (inferElems constant first (ns ++ ms)) σ t σ') :
    ∃ u τ, Ran (inferElems constant first ns) σ u τ ∧ Ran (inferElems constant u ms) τ t σ' := by
  induction ns generalizing σ first with
  | nil =>
    rw [inferElems]
    exact ⟨first, σ, ran_pure.2 ⟨rfl, rfl⟩, h⟩
  | cons n ns ih =>
    rw [cons_append, inferElems] at h
    rw [inferElems]
    simp only [ran_bind] at h ⊢
    obtain ⟨u, τ, hu, h⟩ := h
    split at h
    next hboth =>
      obtain ⟨r, τ₁, hequate, h⟩ := ran_bind.1 h
      obtain ⟨v, τ₂, hns, hms⟩ := ih h
      refine ⟨v, τ₂, ⟨u, τ, hu, ?_⟩, hms⟩
      rw [if_pos hboth]
      exact ran_bind.2 ⟨r, τ₁, hequate, hns⟩
    next hnot =>
      obtain ⟨v, τ₂, hns, hms⟩ := ih h
      refine ⟨v, τ₂, ⟨u, τ, hu, ?_⟩, hms⟩
      rw [if_neg hnot]
      exact hns

/-- The condition of a node, if it has one, and what it is asked to be. -/
def conditioned (constant : Node → Infer Ty) (n : Node) : Infer Unit :=
  match n.condition? with
  | none => return
  | some cond => do expectBoolean (← inferWith constant cond)

/-- A node that has parts visits its condition and its parts, and finishes with their types. -/
theorem ran_parts {n : Node} (hn : n.parts ≠ []) (h : Ran (inferWith constant n) σ t σ') :
    ∃ σ₁ ts τ, Ran (conditioned constant n) σ () σ₁ ∧ Ran (n.parts.mapM (inferWith constant)) σ₁ ts τ ∧
      Ran (finish n ts) τ t σ' := by
  have hnone : Ran (pure () : Infer Unit) σ () σ := ran_pure.2 ⟨rfl, rfl⟩
  have hone {x : Node} {u : Ty} {σ₁ τ : Inference} (hx : Ran (inferWith constant x) σ₁ u τ) :
      Ran ([x].mapM (inferWith constant)) σ₁ [u] τ :=
    ran_mapM_cons.2 ⟨u, τ, [], hx, ran_mapM_nil.2 ⟨rfl, rfl⟩, rfl⟩
  have htwo {x y : Node} {u v : Ty} {σ₁ τ τ' : Inference} (hx : Ran (inferWith constant x) σ₁ u τ)
      (hy : Ran (inferWith constant y) τ v τ') : Ran ([x, y].mapM (inferWith constant)) σ₁ [u, v] τ' :=
    ran_mapM_cons.2 ⟨u, τ, [v], hx, hone hy, rfl⟩
  cases n with
  | program body =>
    rw [inferWith] at h
    obtain ⟨_, τ, hbody, h⟩ := ran_bind.1 h
    obtain ⟨u, hbody⟩ := ran_discard.1 hbody
    obtain ⟨ts, hts, -⟩ := ran_inferLast hbody
    exact ⟨σ, ts, τ, hnone, hts, h⟩
  | exprStmt _ | returns _ | unary _ _ | update _ _ _ =>
    rw [inferWith] at h
    obtain ⟨u, τ, hu, h⟩ := ran_bind.1 h
    exact ⟨σ, [u], τ, hnone, hone hu, h⟩
  | ifElse cond yes no =>
    rw [inferWith] at h
    obtain ⟨c, τ, hc, h⟩ := ran_bind.1 h
    obtain ⟨_, σ₁, hask, h⟩ := ran_bind.1 h
    obtain ⟨u, τ₁, hu, h⟩ := ran_bind.1 h
    obtain ⟨_, τ₂, hno, h⟩ := ran_bind.1 h
    obtain ⟨v, hv⟩ := ran_discard.1 hno
    exact ⟨σ₁, [u, v], τ₂, ran_bind.2 ⟨c, τ, hc, hask⟩, htwo hu hv, h⟩
  | binary _ _ _ | logical _ _ _ | assign _ _ _ =>
    rw [inferWith] at h
    obtain ⟨u, τ, hu, h⟩ := ran_bind.1 h
    obtain ⟨v, τ', hv, h⟩ := ran_bind.1 h
    exact ⟨σ, [u, v], τ', hnone, htwo hu hv, h⟩
  | ternary cond yes no =>
    rw [inferWith] at h
    obtain ⟨c, τ, hc, h⟩ := ran_bind.1 h
    obtain ⟨_, σ₁, hask, h⟩ := ran_bind.1 h
    obtain ⟨u, τ₁, hu, h⟩ := ran_bind.1 h
    obtain ⟨v, τ₂, hv, h⟩ := ran_bind.1 h
    exact ⟨σ₁, [u, v], τ₂, ran_bind.2 ⟨c, τ, hc, hask⟩, htwo hu hv, h⟩
  | sequence exprs =>
    rw [inferWith] at h
    obtain ⟨ts, hts, rfl⟩ := ran_inferLast h
    exact ⟨σ, ts, σ', hnone, hts, ran_pure.2 ⟨rfl, rfl⟩⟩
  | call callee args =>
    rw [inferWith] at h
    obtain ⟨u, τ, hu, h⟩ := ran_bind.1 h
    obtain ⟨ts, τ', hts, h⟩ := ran_bind.1 h
    exact ⟨σ, u :: ts, τ', hnone, ran_mapM_cons.2 ⟨u, τ, ts, hu, ran_inferArgs hts, rfl⟩, h⟩
  | await expr =>
    cases expr with
    | call callee args =>
      rw [inferWith] at h
      obtain ⟨u, τ, hu, h⟩ := ran_bind.1 h
      obtain ⟨ts, τ', hts, h⟩ := ran_bind.1 h
      exact ⟨σ, u :: ts, τ', hnone, ran_mapM_cons.2 ⟨u, τ, ts, hu, ran_inferArgs hts, rfl⟩, h⟩
    | _ =>
      rw [inferWith_await constant (by simp)] at h
      obtain ⟨u, τ, hu, h⟩ := ran_bind.1 h
      exact ⟨σ, [u], τ, hnone, hone hu, h⟩
  | index obj position =>
    rw [inferWith] at h
    obtain ⟨u, τ, hu, h⟩ := ran_bind.1 h
    obtain ⟨_, τ', hp, h⟩ := ran_bind.1 h
    obtain ⟨v, hv⟩ := ran_discard.1 hp
    exact ⟨σ, [u, v], τ', hnone, htwo hu hv, h⟩
  | object props =>
    rw [inferWith] at h
    obtain ⟨entries, τ, hprops, h⟩ := ran_bind.1 h
    obtain ⟨ts, hts, rfl⟩ := ran_inferProps hprops
    exact ⟨σ, ts, τ, hnone, hts, h⟩
  | _ => exact absurd rfl hn

end Infer

end ScriptTyping
