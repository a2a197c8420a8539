import ScriptTyping.Proofs.Parts

/-!
# Visits

Inference comes to the nodes of a program one after another, and to some constants of enums more than
once. `Visit.Step` says how the visit of one node leads to that of another: which node that is, and in
which state inference comes to it.

`LeadsTo reg e w P x σ` says that the computation `x` is run without error on the way to the state `e`:
from any owners that there are after it, if `P` holds of what it gives, there is a way to owners in `e`, and
no class is lost. Where computations are put together, this goes from the whole to the parts, while `Keeps`
goes from the parts to the whole. So whatever is visited on the way to `e` leads there too.

Main statements: `Visit.Passed.step` and `Visit.Passed.visited`.
-/

namespace ScriptTyping

open Ty Infer List

/-! ## Visits -/

/-- A state in a new innermost frame. -/
def Inference.enter (σ : Inference) (f : Frame) : Inference := { σ with scope := f :: σ.scope }

/-- The variables that a node declares. -/
def Node.variables : Node → List Variable
  | lets vars => vars
  | var v => [v]
  | _ => []

/-- The name, the signature and the body of a node that is a function. -/
def Node.function? : Node → Option (String × Signature × Node)
  | func name sig body => some (name, sig, body)
  | lambda sig body => some ("", sig, body)
  | _ => none

/-- A condition, which has to be a truth value. -/
def Infer.condition (d : Nat) (cond : Node) : Infer Unit := inferDepth d cond >>= expectBoolean

/-- A node, the state in which inference comes to it, and how deep constants can be nested there. -/
structure Visit where
  depth : Nat
  node : Node
  state : Inference

namespace Visit

/-- The visit of one node leads to that of another. -/
inductive Step : Visit → Visit → Prop
  | condition {d} {n : Node} {cond σ} (hn : n.condition? = some cond) : Step ⟨d, n, σ⟩ ⟨d, cond, σ⟩
  /-- A part is visited after the condition and the parts before it. -/
  | part {d n m before after ts σ σ₁ τ} (hc : Ran (conditioned (constants d) n) σ () σ₁)
    (hn : n.parts = before ++ m :: after) (h : Ran (before.mapM (inferDepth d)) σ₁ ts τ) :
    Step ⟨d, n, σ⟩ ⟨d, m, τ⟩
  | block {d m} {before : List Node} {after ts} {σ : Inference} {τ}
    (h : Ran (before.mapM (inferDepth d)) (σ.enter .empty) ts τ) :
    Step ⟨d, .block (before ++ m :: after), σ⟩ ⟨d, m, τ⟩
  | whileCondition {d cond body σ} : Step ⟨d, .whileLoop cond body, σ⟩ ⟨d, cond, σ⟩
  | whileBody {d cond body σ τ} (hc : Ran (condition d cond) σ () τ) :
    Step ⟨d, .whileLoop cond body, σ⟩ ⟨d, body, τ.enter .empty⟩
  | forInit {d init cond step body σ} : Step ⟨d, .forLoop init cond step body, σ⟩ ⟨d, init, σ.enter .empty⟩
  | forCondition {d init cond step body i} {σ : Inference} {τ} (hi : Ran (inferDepth d init) (σ.enter .empty) i τ) :
    Step ⟨d, .forLoop init cond step body, σ⟩ ⟨d, cond, τ⟩
  | forStep {d init cond step body i} {σ : Inference} {σ₁ τ} (hi : Ran (inferDepth d init) (σ.enter .empty) i σ₁)
    (hc : Ran (condition d cond) σ₁ () τ) : Step ⟨d, .forLoop init cond step body, σ⟩ ⟨d, step, τ⟩
  | forBody {d init cond step body i s} {σ : Inference} {σ₁ σ₂ τ}
    (hi : Ran (inferDepth d init) (σ.enter .empty) i σ₁) (hc : Ran (condition d cond) σ₁ () σ₂)
    (hs : Ran (inferDepth d step) σ₂ s τ) : Step ⟨d, .forLoop init cond step body, σ⟩ ⟨d, body, τ.enter .empty⟩
  /-- The value of a variable that the innermost frame does not have yet is visited after its
  annotation. -/
  | value {d} {n : Node} {v before after declared σ σ₁ τ} (hn : n.variables = before ++ v :: after)
    (h : Ran (inferVars (constants d) before) σ () σ₁) (hv : σ₁.scope.lookupLocal? v.name = none)
    (hd : Ran (resolveIfWritten v.ann) σ₁ declared τ) : Step ⟨d, n, σ⟩ ⟨d, v.value, τ⟩
  | body {d} {n : Node} {body name sig head} {σ : Inference} {τ} (hn : n.function? = some (name, sig, body))
    (h : Ran (functionHead name sig) (σ.enter .function) head τ) : Step ⟨d, n, σ⟩ ⟨d, body, τ⟩
  /-- The value of a constant is visited where the constant is used. -/
  | constant {d object property arrow e v enum} {σ : Inference} {τ} (he : enumOf? σ.scope object = some e)
    (hv : e.variants.find? (fun v => v.name = property) = some v) (hk : v.kind = .constant)
    (h : Ran (declareTypeParams e.tparams [] >>= growing e.name) (σ.enter .empty) enum τ) :
    Step ⟨d + 1, .member object property arrow, σ⟩ ⟨d, v.value, τ⟩
  | object {d object property arrow} {σ : Inference} (he : enumOf? σ.scope object = none) :
    Step ⟨d, .member object property arrow, σ⟩ ⟨d, object, σ⟩
  | element {d m before after first σ τ} (h : Ran (inferElems (constants d) .missing before) σ first τ) :
    Step ⟨d, .array (before ++ m :: after), σ⟩ ⟨d, m, τ⟩
  | literal {d name} {object : Node} {s} {σ : Inference} (hs : σ.scope.structDecl? name = some s)
    (hm : object.isMissing = false) : Step ⟨d, .structLit name object, σ⟩ ⟨d, object, σ⟩

end Visit

/-! ## What is so of a visit -/

theorem Scope.instances_of_members {sc sc' : Scope} (h : sc'.members = sc.members) :
    sc'.instances = sc.instances := by
  have hmap (sc : Scope) (name : String) : sc.findSome? (fun f => Dict.get? f.members name) =
      sc.members.findSome? fun m => Dict.get? m name := by
    rw [Scope.members, findSome?_map]
    rfl
  funext name
  simp only [Scope.instances, hmap, h]

/-- A frame that registers nothing makes no difference. -/
theorem Scope.instances_cons {f : Frame} (h : f.members = []) (sc : Scope) :
    Scope.instances (f :: sc) = sc.instances := by
  funext name
  simp [Scope.instances, h, Dict.get?_nil]

namespace Inference

/-- The types of the state are owned, and `reg` is registered. -/
structure Ready (reg : Registry) (w : Owners) (σ : Inference) : Prop extends Owned w σ where
  registered : σ.scope.instances = reg

theorem Ready.enter {reg : Registry} {w : Owners} {σ : Inference} (h : σ.Ready reg w) {f : Frame}
    (hf : f.Owned w) (hm : f.members = []) : (σ.enter f).Ready reg w := by
  refine ⟨⟨h.supply, .inner hf h.scope, h.constraints⟩, ?_⟩
  rw [← h.registered]
  exact Scope.instances_cons hm σ.scope

end Inference

namespace Infer

variable {α β : Type} {reg : Registry} {e σ τ : Inference} {w : Owners} {P : Owners → α → Prop}
  {Q : Owners → β → Prop}

/-- The computation is run without error on the way to `e`, from owners `w` and where `reg` is registered.
Where owners are found for what it gives, there are owners in `e`, and no class is lost. -/
structure LeadsTo (reg : Registry) (e : Inference) (w : Owners) (P : Owners → α → Prop) (x : Infer α)
    (σ : Inference) : Prop where
  ready : σ.Ready reg w
  ends : ∃ r σ', Ran x σ r σ' ∧
    ∀ w', w <+: w' → σ'.Owned w' → P w' r → ∃ w'', σ'.Kept w' w'' e

theorem discard_bind (x : Infer α) (f : PUnit → Infer β) : discard x >>= f = x >>= fun _ => f () := by
  show (Function.const α PUnit.unit <$> x) >>= f = _
  rw [bind_map_left]

namespace LeadsTo

variable {x : Infer α} {f : α → Infer β}

/-- A computation that others follow. -/
theorem first (h : LeadsTo reg e w Q (x >>= f) σ)
    (hf : ∀ w' r, w <+: w' → P w' r → Keeps w' (f r) Q) : LeadsTo reg e w P x σ := by
  obtain ⟨r, σ', hr, hends⟩ := h.ends
  obtain ⟨a, τ, ha, hr⟩ := ran_bind.1 hr
  refine ⟨h.ready, a, τ, ha, fun w' hw hτ hp => ?_⟩
  obtain ⟨w₁, hkept, hq, -⟩ := (hf w' a hw hp).ran hτ hr
  obtain ⟨w₂, hlast⟩ := hends w₁ (hw.trans hkept.owners) hkept.owned hq
  exact ⟨w₂, hkept.trans hlast⟩

/-- A computation that follows another. -/
theorem next (h : LeadsTo reg e w Q (x >>= f) σ) (hx : Keeps w x P)
    {r : α} (hr : Ran x σ r τ) : ∃ w', w <+: w' ∧ P w' r ∧ LeadsTo reg e w' Q (f r) τ := by
  obtain ⟨r', σ', hr', hends⟩ := h.ends
  obtain ⟨w₁, hkept, hp, hmembers⟩ := hx.ran h.ready.toOwned hr
  refine ⟨w₁, hkept.owners, hp, ⟨hkept.owned, ?_⟩, r', σ', hr.after hr', fun w' hw => ?_⟩
  · rw [Scope.instances_of_members hmembers, h.ready.registered]
  · exact hends w' (hkept.owners.trans hw)

theorem nextDiscard {f : PUnit → Infer β} (h : LeadsTo reg e w Q (discard x >>= f) σ)
    (hx : Keeps w x P) {r : α} (hr : Ran x σ r τ) : ∃ w', LeadsTo reg e w' Q (f ()) τ := by
  rw [discard_bind] at h
  obtain ⟨w', -, -, h⟩ := h.next hx hr
  exact ⟨w', h⟩

/-- It is enough that another computation is run in the same way. -/
theorem of_ran {y : Infer α} (h : LeadsTo reg e w P x σ)
    (hxy : ∀ r σ', Ran x σ r σ' → Ran y σ r σ') : LeadsTo reg e w P y σ := by
  obtain ⟨r, σ', hr, hends⟩ := h.ends
  exact ⟨h.ready, r, σ', hxy r σ' hr, hends⟩

theorem enter {x : Infer α} {f : Frame} (h : LeadsTo reg e w P (within f x) σ) (hf : f.Owned w)
    (hm : f.members = []) (hx : Keeps w x P) : LeadsTo reg e w P x (σ.enter f) := by
  obtain ⟨r, σ', hr, hends⟩ := h.ends
  obtain ⟨τ, hran, rfl⟩ := ran_within.1 hr
  have hentered := h.ready.enter hf hm
  obtain ⟨-, -, -, hmembers⟩ := hx.ran hentered.toOwned hran
  refine ⟨hentered, r, τ, hran, fun w' hw hτ hp => ?_⟩
  obtain ⟨w'', hlast⟩ := hends w' hw
    ⟨hτ.supply, hτ.scope.leave h.ready.scope hmembers, hτ.constraints⟩ hp
  exact ⟨w'', hlast.owners, hlast.owned, hlast.classes, hlast.spared, hlast.slots⟩

end LeadsTo

theorem keeps_condition (d : Nat) (cond : Node) (w : Owners) : Keeps w (condition d cond) fun _ _ => True :=
  (keeps_inferDepth d cond w).bind fun _ _ _ ht => keeps_expectBoolean ht

end Infer

namespace Visit

variable {reg : Registry} {e σ τ : Inference} {w : Owners} {d : Nat} {n m : Node} {v v' : Visit}

/-- Inference goes through the node on the way to `e`. -/
def Passed (reg : Registry) (e : Inference) (v : Visit) : Prop :=
  ∃ w, LeadsTo reg e w Ty.Owned (inferDepth v.depth v.node) v.state

variable {before after : List Node} {var : Variable} {name property : String} {sig : Signature} {arrow : Bool}

/-- One of some nodes that are visited in order. -/
theorem passed_of_nodes {ts : List Ty} (h : LeadsTo reg e w (fun w ts => ∀ t ∈ ts, t.Owned w)
      ((before ++ m :: after).mapM (inferDepth d)) σ)
    (hb : Ran (before.mapM (inferDepth d)) σ ts τ) : Passed reg e ⟨d, m, τ⟩ := by
  rw [mapM_append, mapM_cons] at h
  obtain ⟨w₁, hw₁, hts, h⟩ := h.next (keeps_nodes d before) hb
  rw [bind_assoc] at h
  refine ⟨w₁, h.first fun w₂ t hw₂ ht => ?_⟩
  rw [bind_assoc]
  refine (keeps_nodes d after).bind fun w₃ us hw₃ hus => .pure fun u hu => ?_
  rcases mem_append.1 hu with hu | hu
  · exact (hts u hu).mono (hw₂.trans hw₃)
  · rcases mem_cons.1 hu with rfl | hu
    · exact ht.mono hw₃
    · exact hus u hu

/-! ### Nodes with parts -/

theorem conditioned_eq (d : Nat) (n : Node) : conditioned (constants d) n = match n.condition? with
    | none => pure ()
    | some cond => condition d cond := by
  unfold conditioned
  cases n.condition? with
  | none => rfl
  | some cond =>
    show inferWith (constants d) cond >>= expectBoolean = inferDepth d cond >>= expectBoolean
    rw [inferDepth_eq]

theorem keeps_conditioned (d : Nat) (n : Node) (w : Owners) :
    Keeps w (conditioned (constants d) n) fun _ _ => True := by
  rw [conditioned_eq]
  split
  · exact .pure trivial
  · exact keeps_condition d _ w

/-- Without a condition, parts are visited in order. -/
theorem Step.inOrder {ts : List Ty} {τ : Inference} (hc : n.condition? = none)
    (hn : n.parts = before ++ m :: after) (h : Ran (before.mapM (inferDepth d)) σ ts τ) :
    Step ⟨d, n, σ⟩ ⟨d, m, τ⟩ := by
  refine .part ?_ hn h
  rw [conditioned_eq, hc]
  exact ran_pure.2 ⟨rfl, rfl⟩

theorem leadsTo_parts (h : LeadsTo reg e w Ty.Owned (inferDepth d n) σ) (hn : n.parts ≠ []) :
    LeadsTo reg e w Ty.Owned
      (do conditioned (constants d) n; finish n (← n.parts.mapM (inferDepth d))) σ := by
  refine h.of_ran fun t σ' hx => ?_
  rw [inferDepth_eq] at hx ⊢
  obtain ⟨σ₁, ts, τ, hcond, hparts, hfinish⟩ := ran_parts hn hx
  exact ran_bind.2 ⟨(), σ₁, hcond, ran_bind.2 ⟨ts, τ, hparts, hfinish⟩⟩

theorem Passed.condition {cond : Node} (h : Passed reg e ⟨d, n, σ⟩) (hn : n.condition? = some cond) :
    Passed reg e ⟨d, cond, σ⟩ := by
  obtain ⟨w, h⟩ := h
  have hparts : n.parts ≠ [] := by
    cases n with
    | ifElse _ _ _ | ternary _ _ _ => simp [Node.parts]
    | _ => cases hn
  have hcond : LeadsTo reg e w (fun _ _ => True) (conditioned (constants d) n) σ :=
    (leadsTo_parts h hparts).first fun w₁ _ _ _ =>
      (keeps_nodes d n.parts).bind fun w₂ ts _ hts => keeps_finish n ts hts
  rw [conditioned_eq, hn] at hcond
  exact ⟨w, hcond.first fun _ _ _ ht => keeps_expectBoolean ht⟩

theorem Passed.part {ts : List Ty} {σ₁ : Inference}
    (h : Passed reg e ⟨d, n, σ⟩) (hc : Ran (conditioned (constants d) n) σ () σ₁)
    (hn : n.parts = before ++ m :: after) (hb : Ran (before.mapM (inferDepth d)) σ₁ ts τ) :
    Passed reg e ⟨d, m, τ⟩ := by
  obtain ⟨w, h⟩ := h
  obtain ⟨w₁, -, -, hrest⟩ := (leadsTo_parts h (by simp [hn])).next (keeps_conditioned d n w) hc
  have hparts := hrest.first fun w₂ ts _ hts => keeps_finish n ts hts
  rw [hn] at hparts
  exact passed_of_nodes hparts hb

/-! ### Blocks and loops -/

theorem Passed.block {ts : List Ty} (h : Passed reg e ⟨d, .block (before ++ m :: after), σ⟩)
    (hb : Ran (before.mapM (inferDepth d)) (σ.enter .empty) ts τ) : Passed reg e ⟨d, m, τ⟩ := by
  obtain ⟨w, h⟩ := h
  simp only [inferDepth_eq, inferWith] at h
  have hlast := (h.enter Frame.all_empty rfl (keeps_inferLast (keeps_constants d) _ w .missing)).of_ran
    (y := do return ((← (before ++ m :: after).mapM (inferDepth d)).getLastD .missing))
    fun t σ' hx => by
      obtain ⟨ts, hts, ht⟩ := ran_inferLast hx
      rw [← inferDepth_eq] at hts
      exact ran_bind.2 ⟨ts, σ', hts, ran_pure.2 ⟨ht, rfl⟩⟩
  exact passed_of_nodes (hlast.first fun w' ts _ hts => .pure (owned_getLastD hts)) hb

/-- The body of a loop, which is the last that it visits. -/
def loopBody (d : Nat) (body : Node) : Infer Ty := do
  discard <| within .empty (inferDepth d body)
  return .missing

theorem keeps_loopBody (d : Nat) (body : Node) (w : Owners) : Keeps w (loopBody d body) Ty.Owned :=
  (Keeps.within Frame.all_empty (keeps_inferDepth d body w)).discard.bind fun _ _ _ _ => .pure .missing

theorem passed_of_loopBody (h : LeadsTo reg e w Ty.Owned (loopBody d m) σ) :
    Passed reg e ⟨d, m, σ.enter .empty⟩ := by
  rw [loopBody, discard_bind] at h
  exact ⟨w, (h.first fun _ _ _ _ => .pure .missing).enter Frame.all_empty rfl (keeps_inferDepth d m w)⟩

theorem inferDepth_whileLoop (d : Nat) (cond body : Node) : inferDepth d (.whileLoop cond body) =
    condition d cond >>= fun _ => loopBody d body := by
  simp only [condition, inferDepth_eq, inferWith, loopBody, bind_assoc]

theorem Passed.whileCondition {cond body : Node} (h : Passed reg e ⟨d, .whileLoop cond body, σ⟩) :
    Passed reg e ⟨d, cond, σ⟩ := by
  obtain ⟨w, h⟩ := h
  rw [inferDepth_whileLoop] at h
  have hcond : LeadsTo reg e w (fun _ _ => True) (Infer.condition d cond) σ :=
    h.first fun w₁ _ _ _ => keeps_loopBody d body w₁
  exact ⟨w, hcond.first fun _ _ _ ht => keeps_expectBoolean ht⟩

theorem Passed.whileBody {cond body : Node} (h : Passed reg e ⟨d, .whileLoop cond body, σ⟩)
    (hc : Ran (Infer.condition d cond) σ () τ) : Passed reg e ⟨d, body, τ.enter .empty⟩ := by
  obtain ⟨w, h⟩ := h
  rw [inferDepth_whileLoop] at h
  obtain ⟨w₁, -, -, hbody⟩ := h.next (keeps_condition d cond w) hc
  exact passed_of_loopBody hbody

/-- What a loop does after its condition. -/
def loopRest (d : Nat) (step body : Node) : Infer Ty := do
  discard <| inferDepth d step
  loopBody d body

theorem keeps_loopRest (d : Nat) (step body : Node) (w : Owners) : Keeps w (loopRest d step body) Ty.Owned :=
  (keeps_inferDepth d step w).discard.bind fun w' _ _ _ => keeps_loopBody d body w'

/-- What a loop does from its start. -/
def loopAll (d : Nat) (init cond step body : Node) : Infer Ty := do
  discard <| inferDepth d init
  condition d cond
  loopRest d step body

theorem keeps_loopAll (d : Nat) (init cond step body : Node) (w : Owners) :
    Keeps w (loopAll d init cond step body) Ty.Owned :=
  (keeps_inferDepth d init w).discard.bind fun w₁ _ _ _ =>
    (keeps_condition d cond w₁).bind fun w₂ _ _ _ => keeps_loopRest d step body w₂

theorem inferDepth_forLoop (d : Nat) (init cond step body : Node) :
    inferDepth d (.forLoop init cond step body) = within .empty (loopAll d init cond step body) := by
  simp only [condition, inferDepth_eq, inferWith, loopAll, loopRest, loopBody, bind_assoc]

section

variable {init cond step body : Node} {i s : Ty} {σ₁ σ₂ : Inference}

theorem Passed.forInit (h : Passed reg e ⟨d, .forLoop init cond step body, σ⟩) :
    Passed reg e ⟨d, init, σ.enter .empty⟩ := by
  obtain ⟨w, h⟩ := h
  rw [inferDepth_forLoop] at h
  have hall := h.enter Frame.all_empty rfl (keeps_loopAll d init cond step body w)
  rw [loopAll, discard_bind] at hall
  refine ⟨w, hall.first fun w₁ _ _ _ => ?_⟩
  exact (keeps_condition d cond w₁).bind fun w₂ _ _ _ => keeps_loopRest d step body w₂

/-- What a loop does after its start. -/
theorem Passed.afterInit (h : Passed reg e ⟨d, .forLoop init cond step body, σ⟩)
    (hi : Ran (inferDepth d init) (σ.enter .empty) i σ₁) : ∃ w, LeadsTo reg e w Ty.Owned
      (do Infer.condition d cond; loopRest d step body) σ₁ := by
  obtain ⟨w, h⟩ := h
  rw [inferDepth_forLoop] at h
  exact (h.enter Frame.all_empty rfl (keeps_loopAll d init cond step body w)).nextDiscard
    (keeps_inferDepth d init w) hi

theorem Passed.afterCondition (h : Passed reg e ⟨d, .forLoop init cond step body, σ⟩)
    (hi : Ran (inferDepth d init) (σ.enter .empty) i σ₁) (hc : Ran (Infer.condition d cond) σ₁ () σ₂) :
    ∃ w, LeadsTo reg e w Ty.Owned (loopRest d step body) σ₂ := by
  obtain ⟨w, h⟩ := h.afterInit hi
  obtain ⟨w₁, -, -, hrest⟩ := h.next (keeps_condition d cond w) hc
  exact ⟨w₁, hrest⟩

theorem Passed.forCondition (h : Passed reg e ⟨d, .forLoop init cond step body, σ⟩)
    (hi : Ran (inferDepth d init) (σ.enter .empty) i τ) : Passed reg e ⟨d, cond, τ⟩ := by
  obtain ⟨w, h⟩ := h.afterInit hi
  have hcond : LeadsTo reg e w (fun _ _ => True) (Infer.condition d cond) τ :=
    h.first fun w₁ _ _ _ => keeps_loopRest d step body w₁
  exact ⟨w, hcond.first fun _ _ _ ht => keeps_expectBoolean ht⟩

theorem Passed.forStep (h : Passed reg e ⟨d, .forLoop init cond step body, σ⟩)
    (hi : Ran (inferDepth d init) (σ.enter .empty) i σ₁) (hc : Ran (Infer.condition d cond) σ₁ () τ) :
    Passed reg e ⟨d, step, τ⟩ := by
  obtain ⟨w, h⟩ := h.afterCondition hi hc
  rw [loopRest, discard_bind] at h
  exact ⟨w, h.first fun w₁ _ _ _ => keeps_loopBody d body w₁⟩

theorem Passed.forBody (h : Passed reg e ⟨d, .forLoop init cond step body, σ⟩)
    (hi : Ran (inferDepth d init) (σ.enter .empty) i σ₁) (hc : Ran (Infer.condition d cond) σ₁ () σ₂)
    (hs : Ran (inferDepth d step) σ₂ s τ) : Passed reg e ⟨d, body, τ.enter .empty⟩ := by
  obtain ⟨w, h⟩ := h.afterCondition hi hc
  obtain ⟨w₁, hbody⟩ := h.nextDiscard (keeps_inferDepth d step w) hs
  exact passed_of_loopBody hbody

end

/-! ### Variables and functions -/

/-- The value of a variable, and what comes after it. -/
theorem passed_of_variable {declared : Ty}
    (h : LeadsTo reg e w Ty.Owned (variableType var.name var.ann var.slot (inferDepth d var.value)) σ)
    (hv : σ.scope.lookupLocal? var.name = none) (hd : Ran (resolveIfWritten var.ann) σ declared τ) :
    Passed reg e ⟨d, var.value, τ⟩ := by
  have hnew := h.of_ran (y := do
      let declared ← resolveIfWritten var.ann
      variableEnd var.name var.slot declared (← inferDepth d var.value)) fun t σ' hx => by
    rw [variableType] at hx
    obtain ⟨_, _, hscope, hx⟩ := ran_bind.1 hx
    obtain ⟨rfl, rfl⟩ := ran_scope.1 hscope
    simp only [hv] at hx
    exact hx
  obtain ⟨w₁, -, hdeclared, hvalue⟩ := hnew.next (keeps_resolveIfWritten var.ann) hd
  exact ⟨w₁, hvalue.first fun w' found hw hfound => keeps_variableEnd (hdeclared.mono hw) hfound⟩

/-- A variable is declared after those before it. -/
theorem Passed.variable {before after : List Variable} (h : Passed reg e ⟨d, n, σ⟩)
    (hn : n.variables = before ++ var :: after) : ∃ σ₁ w, Ran (inferVars (constants d) before) σ () σ₁ ∧
      LeadsTo reg e w Ty.Owned (variableType var.name var.ann var.slot (inferDepth d var.value)) σ₁ := by
  obtain ⟨w, h⟩ := h
  cases n with
  | lets vars =>
    have hvars : vars = before ++ var :: after := hn
    simp only [inferDepth_eq, inferWith, hvars] at h
    have hsplit := h.of_ran (y := do
        inferVars (constants d) before
        discard <| variableType var.name var.ann var.slot (inferDepth d var.value)
        inferVars (constants d) after
        return .missing) fun t σ' hx => by
      obtain ⟨_, τ₁, hall, hx⟩ := ran_bind.1 hx
      obtain ⟨τ₂, hbefore, hrest⟩ := ran_inferVars_append hall
      rw [inferVars, ← inferDepth_eq] at hrest
      obtain ⟨_, τ₃, hvar, hafter⟩ := ran_bind.1 hrest
      exact ran_bind.2 ⟨(), τ₂, hbefore, ran_bind.2 ⟨_, τ₃, hvar, ran_bind.2 ⟨_, τ₁, hafter, hx⟩⟩⟩
    obtain ⟨_, _, hall, -⟩ := hsplit.ends
    obtain ⟨_, σ₁, hb, -⟩ := ran_bind.1 hall
    obtain ⟨w₁, -, -, hvar⟩ := hsplit.next (keeps_inferVars (keeps_constants d) before w) hb
    rw [discard_bind] at hvar
    refine ⟨σ₁, w₁, hb, hvar.first fun w₂ _ _ _ => ?_⟩
    exact (keeps_inferVars (keeps_constants d) after w₂).bind fun _ _ _ _ => .pure .missing
  | var v =>
    obtain ⟨rfl, rfl, rfl⟩ : before = [] ∧ v = var ∧ after = [] := by
      cases before <;> simp_all [Node.variables]
    simp only [inferDepth_eq, inferWith] at h
    rw [← inferDepth_eq] at h
    rw [inferVars]
    exact ⟨σ, w, ran_pure.2 ⟨rfl, rfl⟩, h⟩
  | _ => simp [Node.variables] at hn

theorem Passed.value {before after : List Variable} {declared : Ty} {σ₁ : Inference}
    (h : Passed reg e ⟨d, n, σ⟩) (hn : n.variables = before ++ var :: after)
    (hb : Ran (inferVars (constants d) before) σ () σ₁) (hv : σ₁.scope.lookupLocal? var.name = none)
    (hd : Ran (resolveIfWritten var.ann) σ₁ declared τ) : Passed reg e ⟨d, var.value, τ⟩ := by
  obtain ⟨σ₂, w, hbefore, hvar⟩ := h.variable hn
  obtain ⟨-, rfl⟩ := hb.unique hbefore
  exact passed_of_variable hvar hv hd

theorem leadsTo_function {body : Node}
    (h : LeadsTo reg e w Ty.Owned (inferDepth d n) σ) (hn : n.function? = some (name, sig, body)) :
    LeadsTo reg e w Ty.Owned (functionType name sig (inferDepth d body)) σ := by
  cases n with
  | func name' sig' body' =>
    obtain ⟨⟩ := hn
    simp only [inferDepth_eq, inferWith, discard_bind] at h
    rw [inferDepth_eq]
    exact h.first fun _ _ _ _ => .pure .missing
  | lambda sig' body' =>
    obtain ⟨⟩ := hn
    simp only [inferDepth_eq, inferWith] at h
    rw [inferDepth_eq]
    exact h
  | _ => cases hn

theorem Passed.body {body : Node} {head : Ty × Ty}
    (h : Passed reg e ⟨d, n, σ⟩) (hn : n.function? = some (name, sig, body))
    (hh : Ran (functionHead name sig) (σ.enter .function) head τ) : Passed reg e ⟨d, body, τ⟩ := by
  obtain ⟨w, h⟩ := h
  have hfunc := leadsTo_function h hn
  rw [functionType_eq] at hfunc
  obtain ⟨w₁, -, hhead, hbody⟩ := (hfunc.enter Frame.all_function rfl
    (keeps_functionBody (keeps_inferDepth d body))).next keeps_functionHead hh
  refine ⟨w₁, hbody.first fun w₂ value hw₂ hvalue => ?_⟩
  exact (keeps_functionEnd (hhead.2.mono hw₂) hvalue).bind fun w₃ _ hw₃ _ =>
    .pure (hhead.1.mono (hw₂.trans hw₃))

/-! ### Members, elements and literals -/

/-- What a computation does after it looked at the scope. -/
theorem leadsTo_scope {α : Type} {P : Owners → α → Prop} {f : Scope → Infer α}
    (h : LeadsTo reg e w P (scope >>= f) σ) : LeadsTo reg e w P (f σ.scope) σ :=
  h.of_ran fun _ _ hx => (ran_scope.2 ⟨rfl, rfl⟩ : Ran scope σ σ.scope σ).after hx

theorem Passed.constant {object : Node} {decl : EnumDecl}
    {variant : Variant} {enum : Ty} (h : Passed reg e ⟨d + 1, .member object property arrow, σ⟩)
    (he : enumOf? σ.scope object = some decl)
    (hv : decl.variants.find? (fun v => v.name = property) = some variant) (hk : variant.kind = .constant)
    (hd : Ran (declareTypeParams decl.tparams [] >>= growing decl.name) (σ.enter .empty) enum τ) :
    Passed reg e ⟨d, variant.value, τ⟩ := by
  obtain ⟨w, h⟩ := h
  simp only [inferDepth_eq, inferWith] at h
  have hvariant := leadsTo_scope h
  simp only [he, variantType, hv, hk] at hvariant
  have hkeeps : Keeps w (declareTypeParams decl.tparams [] >>= growing decl.name) Ty.Owned :=
    (keeps_declareTypeParams (by simp)).bind fun _ _ _ => keeps_growing
  rw [← bind_assoc] at hvariant
  have hinner := hvariant.enter Frame.all_empty rfl (hkeeps.bind fun w₁ _ _ henum =>
    (keeps_constants (d + 1) variant.value w₁).discard.bind fun _ _ hw₂ _ => .pure (henum.mono hw₂))
  obtain ⟨w₁, -, henum, hvalue⟩ := hinner.next hkeeps hd
  rw [discard_bind] at hvalue
  exact ⟨w₁, hvalue.first fun _ _ hw _ => .pure (henum.mono hw)⟩

theorem Passed.object {object : Node}
    (h : Passed reg e ⟨d, .member object property arrow, σ⟩) (he : enumOf? σ.scope object = none) :
    Passed reg e ⟨d, object, σ⟩ := by
  obtain ⟨w, h⟩ := h
  simp only [inferDepth_eq, inferWith] at h
  have hpart := leadsTo_scope h
  simp only [he, ← inferDepth_eq] at hpart
  exact ⟨w, hpart.first fun _ _ _ ht => keeps_partType ht⟩

theorem Passed.element {first : Ty} (h : Passed reg e ⟨d, .array (before ++ m :: after), σ⟩)
    (hb : Ran (inferElems (constants d) .missing before) σ first τ) : Passed reg e ⟨d, m, τ⟩ := by
  obtain ⟨w, h⟩ := h
  simp only [inferDepth_eq, inferWith] at h
  have hall : LeadsTo reg e w Ty.Owned (inferElems (constants d) .missing (before ++ m :: after)) σ :=
    h.first fun w₁ t _ ht => .pure (owned_app fun u hu => by
      rw [mem_singleton.1 hu]
      split
      · exact owned_const _ _
      · exact ht)
  have hsplit := hall.of_ran (y := do
      inferElems (constants d) (← inferElems (constants d) .missing before) (m :: after))
    fun t σ' hx => by
      obtain ⟨u, τ', hbefore, hrest⟩ := ran_inferElems_append hx
      exact ran_bind.2 ⟨u, τ', hbefore, hrest⟩
  obtain ⟨w₁, -, hfirst, hrest⟩ := hsplit.next (keeps_inferElems (keeps_constants d) before w .missing) hb
  rw [inferElems, ← inferDepth_eq] at hrest
  refine ⟨w₁, hrest.first fun w₂ u hw₂ hu => ?_⟩
  have hnext {w'} (hw : w₂ <+: w') : Ty.Owned w' (if first.isMissing then u else first) := by
    split
    · exact hu.mono hw
    · exact hfirst.mono (hw₂.trans hw)
  dsimp only
  split
  · exact (keeps_equate (hfirst.mono hw₂) hu).bind fun w₃ _ hw₃ _ =>
      keeps_inferElems (keeps_constants d) after w₃ (hnext hw₃)
  · exact keeps_inferElems (keeps_constants d) after w₂ (hnext prefix_rfl)

theorem Passed.literal {object : Node} {decl : StructDecl}
    (h : Passed reg e ⟨d, .structLit name object, σ⟩) (hs : σ.scope.structDecl? name = some decl)
    (hm : object.isMissing = false) : Passed reg e ⟨d, object, σ⟩ := by
  obtain ⟨w, h⟩ := h
  simp only [inferDepth_eq, inferWith] at h
  have hliteral := leadsTo_scope h
  simp only [hs, hm, Bool.false_eq_true, if_false, ← inferDepth_eq] at hliteral
  exact ⟨w, hliteral.first fun _ _ _ ht => keeps_structLitType ht⟩

/-! ### All visits -/

theorem Passed.step (h : v.Passed reg e) (hs : v.Step v') : v'.Passed reg e := by
  cases hs with
  | condition hn => exact h.condition hn
  | part hc hn hb => exact h.part hc hn hb
  | block hb => exact h.block hb
  | whileCondition => exact h.whileCondition
  | whileBody hc => exact h.whileBody hc
  | forInit => exact h.forInit
  | forCondition hi => exact h.forCondition hi
  | forStep hi hc => exact h.forStep hi hc
  | forBody hi hc hs => exact h.forBody hi hc hs
  | value hn hb hv hd => exact h.value hn hb hv hd
  | body hn hh => exact h.body hn hh
  | constant he hv hk hd => exact h.constant he hv hk hd
  | object he => exact h.object he
  | element hb => exact h.element hb
  | literal hs hm => exact h.literal hs hm

/-- What is visited on the way to a state leads there. -/
theorem Passed.visited (h : v.Passed reg e) (hv : Relation.ReflTransGen Step v v') : v'.Passed reg e := by
  induction hv with
  | refl => exact h
  | tail _ hs ih => exact ih.step hs

end Visit

end ScriptTyping
