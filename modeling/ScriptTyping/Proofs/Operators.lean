import ScriptTyping.Proofs.Reachable
import ScriptTyping.Proofs.Visits

/-!
# Operands are instances

An operator asks its operands to be in a class. That can be an assumption about a variable, made long
before it is known what the variable stands for: the class is put into the variable's cell, and whatever
the variable is bound to later must hold it (`Subst.Enforced`).

`Visit.Asks` says which types must be in which class where a node is visited. What was asked for on the
way to a state holds there (`Visit.Passed.asked`), and goes on to hold when the equations are solved.

Main statement: `Checker.run_operands`.
-/

namespace ScriptTyping

open Ty Attachments Infer ScriptTyping.Class Registry Scope Constraint

/-! ## Types that have a class -/

/-- A variable that the class is attached to, or a constructor that it is attached to or that it is
registered for. -/
def Registry.Has (reg : Registry) (a : Attachments) (k : String) : Ty → Prop
  | .var v => k ∈ a.get v.cell
  | .con name _ l => k ∈ a.ofLabel l ∨ k ∈ reg name
  | _ => False

section

variable {reg : Registry} {a b : Attachments} {k : String} {t : Ty} {w : Owners} {s : Subst}

namespace Registry

/-- Records hold no class but that of structs. -/
theorem has_of_mem_classes {Q : Var → Prop} {L : Label → Prop} (ht : t.All Q L Label.Structural)
    (hk : k ≠ struct) (h : k ∈ reg.classes a t) : reg.Has a k t := by
  cases ht with
  | missing => cases h
  | var => exact h
  | con => exact ClassSet.mem_union.1 h
  | @record name fields l hl _ =>
    have hmem : k ∈ l.classes := by
      simpa only [classes, Attachments.classes, ofLabel, hl.1] using h
    exact absurd (hl.2 k hmem) hk

theorem Has.of_sets (h : reg.Has a k t) (hsets : b.sets = a.sets) : reg.Has b k t := by
  cases t with
  | var v => simpa only [Has, get_of_sets hsets] using h
  | con name args l => simpa only [Has, ofLabel_of_sets hsets] using h
  | _ => exact h

theorem Has.current (h : reg.Has a k t) (b : Attachments) : reg.Has a k (b.current t) := by
  rw [current_eq_renewWith]
  cases t with
  | var v => exact h
  | con name args l =>
    rw [renewWith_con]
    exact h
  | _ => exact h.elim

/-- What looks like a variable now is one. -/
theorem current_eq_var {v : Var} (h : a.current t = .var v) : t = .var v := by
  rw [current_eq_renewWith] at h
  cases t with
  | missing => cases h
  | var => exact h
  | con name args l =>
    rw [renewWith_con] at h
    cases h
  | record name fields l =>
    rw [renewWith] at h
    split at h <;> cases h

/-- A type has a class when bindings are put in, if what a variable is bound to has it. -/
theorem Has.apply (h : reg.Has a k t) (hs : ∀ v u, t = .var v → (v.id, u) ∈ s → reg.Has a k u)
    (hsets : b.sets = a.sets) : reg.Has a k (Subst.apply b s t) := by
  cases s with
  | nil => exact h
  | cons e s =>
    show reg.Has a k (t.substitute b (e :: s))
    cases t with
    | var v =>
      rw [substitute]
      cases hget : Dict.get? (e :: s) v.id with
      | none => exact h
      | some u => exact hs v u rfl (Dict.mem_of_get?_eq_some hget)
    | con name args l => simpa only [substitute, Has, ofLabel_without, ofLabel_of_sets hsets] using h
    | _ => exact h.elim

/-- A type loses no class where no cell does. -/
theorem mem_classes_retains (ht : t.Owned w) (h : a.Retains b) (hk : k ∈ reg.classes a t) :
    k ∈ reg.classes b t := by
  cases ht with
  | missing => exact hk
  | var => exact h _ k hk
  | @con name args l hl _ =>
    refine ClassSet.mem_union.2 ((ClassSet.mem_union.1 hk).imp_left fun hmem => ?_)
    simp only [Attachments.classes, ofLabel] at hmem ⊢
    cases hc : l.cell with
    | none => simpa only [hc] using hmem
    | some c =>
      simp only [hc, (hl c hc).2] at hmem ⊢
      exact h c k hmem
  | record hl => simpa only [classes, Attachments.classes, ofLabel, hl.1] using hk

/-- What was put into a class holds it. -/
theorem mem_classes_require (hret : a.Retains b) (ht : t.Owned w) (h : reg.require? a t k = some b) :
    k ∈ reg.classes b t := by
  by_cases hk : k ∈ reg.classes a t
  · exact mem_classes_retains ht hret hk
  · unfold require? at h
    split at h
    next hhas =>
      refine absurd (holds_iff.1 ?_) hk
      rw [holds, hhas, Bool.true_or]
    next =>
      split at h
      next hadmits =>
        cases h
        rw [admits, Bool.or_eq_true, holds_iff, or_iff_left hk] at hadmits
        cases t with
        | var v =>
          show k ∈ (a.set v.cell (ClassSet.adding (a.get v.cell) [k])).get v.cell
          simp [get_set, ClassSet.mem_adding]
        | _ => cases hadmits
      next => cases h

end Registry

end

/-! ## Putting types into classes -/

namespace Infer

variable {σ σ' τ : Inference} {w : Owners} {t u : Ty} {k : String} {b : Bool}

/-- A type that was put into a class holds it then. -/
theorem ran_required (hσ : σ.Owned w) (ht : t.Owned w) (hx : Ran (require t k) σ true σ') :
    σ.Kept w w σ' ∧ σ'.scope = σ.scope ∧
      k ∈ σ.scope.instances.classes σ'.supply.attachments t := by
  rcases ran_require.1 hx with ⟨-, hb, -⟩ | ⟨a, ha, -, rfl⟩
  · cases hb
  · have hkept : σ.Kept w w { σ with supply := { σ.supply with attachments := a } } := by
      rcases require?_eq_some ha with rfl | rfl
      · exact hσ.rfl
      · exact kept_attach hσ ht k
    exact ⟨hkept, rfl, mem_classes_require hkept.classes ht ha⟩

/-- What may be in a class can be put into it. -/
theorem ran_require_admits (h : σ.scope.instances.admits σ.supply.attachments t k = true)
    (hx : Ran (require t k) σ b σ') : b = true := by
  rcases ran_require.1 hx with ⟨hnone, -, -⟩ | ⟨a, -, hb, -⟩
  · rw [require?, if_pos h] at hnone
    split at hnone <;> cases hnone
  · exact hb

/-- Two types that were put into a class one after the other both hold it. -/
theorem ran_requiredBoth (hσ : σ.Owned w) (ht : t.Owned w) (hu : u.Owned w)
    (hx : Ran (require t k) σ true τ) (hy : Ran (require u k) τ true σ') :
    ∀ x, x = t ∨ x = u → k ∈ σ.scope.instances.classes σ'.supply.attachments x := by
  obtain ⟨hkept, hscope, hfirst⟩ := ran_required hσ ht hx
  obtain ⟨hkept', -, hsecond⟩ := ran_required hkept.owned hu hy
  rintro x (rfl | rfl)
  · exact mem_classes_retains ht hkept'.classes hfirst
  · rwa [hscope] at hsecond

theorem ran_binaryType {op : String} {r : Ty} (hσ : σ.Owned w) (ht : t.Owned w) (hu : u.Owned w)
    (hop : op ≠ "+") (hk : operatorClass? op = some k) (hx : Ran (binaryType op t u) σ r σ') :
    ∀ x, x = t ∨ x = u → k ∈ σ.scope.instances.classes σ'.supply.attachments x := by
  rw [binaryType, if_neg hop] at hx
  simp only [hk, ran_bind] at hx
  obtain ⟨b, τ, hleft, hx⟩ := hx
  cases b with
  | false => exact absurd hx ran_throw
  | true =>
    obtain ⟨b, τ', hright, hx⟩ := ran_bind.1 hx
    cases b with
    | false => exact absurd hx ran_throw
    | true =>
      obtain ⟨_, _, hequate, hx⟩ := ran_bind.1 hx
      obtain ⟨-, rfl⟩ := ran_pure.1 hx
      obtain rfl := ran_equate.1 hequate
      have hboth := ran_requiredBoth hσ ht hu hleft hright
      exact hboth

theorem ran_sumType {r : Ty} (hσ : σ.Owned w) (ht : t.Owned w) (hu : u.Owned w)
    (hk : σ.scope.instances.addition σ.supply.attachments t u = .inClass k) (hx : Ran (sumType t u) σ r σ') :
    ∀ x, x = t ∨ x = u → k ∈ σ.scope.instances.classes σ'.supply.attachments x := by
  have hadds : σ.scope.instances.addsIn σ.supply.attachments t u k = true := by
    unfold addition at hk
    grind
  simp only [addsIn, Bool.and_eq_true] at hadds
  obtain ⟨⟨hleft, hright⟩, -⟩ := hadds
  simp only [sumType, ran_bind, ran_get] at hx
  obtain ⟨_, _, ⟨rfl, rfl⟩, hx⟩ := hx
  simp only [hk, ran_bind, ran_discard, ran_pure] at hx
  obtain ⟨_, τ, ⟨b, hx⟩, _, τ', ⟨b', hy⟩, _, _, hequate, -, rfl⟩ := hx
  obtain rfl := ran_equate.1 hequate
  obtain rfl := ran_require_admits hleft hx
  obtain ⟨hkept, hscope, -⟩ := ran_required hσ ht hx
  -- The class of the first operand takes nothing from the second.
  have hright' : τ.scope.instances.admits τ.supply.attachments u k = true := by
    rw [hscope]
    simp only [admits, Bool.or_eq_true, holds_iff] at hright ⊢
    exact hright.imp_right (mem_classes_retains hu hkept.classes)
  obtain rfl := ran_require_admits hright' hy
  have hboth := ran_requiredBoth hσ ht hu hx hy
  exact hboth

theorem ran_numericType {op : String} {r : Ty} (hσ : σ.Owned w) (ht : t.Owned w)
    (hx : Ran (numericType op t) σ r σ') : num ∈ σ.scope.instances.classes σ'.supply.attachments t := by
  simp only [numericType, ran_bind] at hx
  obtain ⟨_, _, hvalue, b, τ, hrequire, hx⟩ := hx
  obtain ⟨-, rfl⟩ := ran_expectValue hvalue
  cases b with
  | false => exact absurd hx ran_throw
  | true =>
    obtain ⟨-, rfl⟩ := ran_pure.1 hx
    exact (ran_required hσ ht hrequire).2.2

end Infer

/-! ## What operators ask for -/

namespace Visit

/-- The class that each operator with two operands is for. Addition is not among them. -/
def operators : List (String × String) :=
  [("-", num), ("*", num), ("/", num), ("%", num), ("&", num),
    ("|", num), ("^", num), ("<<", num), (">>", num), ("<", ord),
    (">", ord), ("<=", ord), (">=", ord), ("==", eq), ("!=", eq)]

/-- Where the node is visited, the type of an operand must be in the class. -/
inductive Asks : Visit → String → Ty → Prop
  | binary {d op k left right t u x σ τ τ'} (hop : (op, k) ∈ operators) (ht : Ran (inferDepth d left) σ t τ)
    (hu : Ran (inferDepth d right) τ u τ') (hx : x = t ∨ x = u) : Asks ⟨d, .binary op left right, σ⟩ k x
  /-- What addition asks for depends on what is known of its operands. -/
  | sum {d k left right t u x σ τ τ'} (ht : Ran (inferDepth d left) σ t τ) (hu : Ran (inferDepth d right) τ u τ')
    (hk : τ'.scope.instances.addition τ'.supply.attachments t u = .inClass k) (hx : x = t ∨ x = u) :
    Asks ⟨d, .binary "+" left right, σ⟩ k x
  | unary {d op operand t σ τ} (hop : op ≠ "!") (ht : Ran (inferDepth d operand) σ t τ) :
    Asks ⟨d, .unary op operand, σ⟩ num t
  | update {d op operand leading t σ τ} (ht : Ran (inferDepth d operand) σ t τ) :
    Asks ⟨d, .update op operand leading, σ⟩ num t

variable {reg : Registry} {e σ τ τ' : Inference} {w : Owners} {d : Nat} {v : Visit} {t u : Ty}
  {k op : String}

/-- The class is among those that the type holds at the end of a way. -/
def Holds (reg : Registry) (e : Inference) (k : String) (t : Ty) : Prop :=
  ∃ w, e.Owned w ∧ t.Owned w ∧ k ∈ reg.classes e.supply.attachments t

/-- What holds after a computation holds at the end of the way. -/
theorem holds_of_leadsTo {x : Infer Ty} (h : LeadsTo reg e w Ty.Owned x σ) (hx : Keeps w x Ty.Owned)
    (ht : t.Owned w) (hk : ∀ r σ', Ran x σ r σ' → k ∈ σ.scope.instances.classes σ'.supply.attachments t) :
    Holds reg e k t := by
  obtain ⟨r, σ', hr, hends⟩ := h.ends
  obtain ⟨w₁, hkept, hp, -⟩ := hx.ran h.ready.toOwned hr
  obtain ⟨w₂, hlast⟩ := hends w₁ hkept.owners hkept.owned hp
  have hmem := hk r σ' hr
  rw [h.ready.registered] at hmem
  exact ⟨w₂, hlast.owned, ht.mono (hkept.owners.trans hlast.owners),
    mem_classes_retains ht hlast.classes hmem⟩

/-- An operator is looked at after its two operands. -/
theorem Passed.operands {left right : Node} (h : Passed reg e ⟨d, .binary op left right, σ⟩)
    (ht : Ran (inferDepth d left) σ t τ) (hu : Ran (inferDepth d right) τ u τ') :
    ∃ w, t.Owned w ∧ u.Owned w ∧ LeadsTo reg e w Ty.Owned (binaryType op t u) τ' := by
  obtain ⟨w, h⟩ := h
  simp only [inferDepth_eq, inferWith] at h
  rw [← inferDepth_eq] at h
  obtain ⟨w₁, -, ht', h⟩ := h.next (keeps_inferDepth d left w) ht
  obtain ⟨w₂, hw₂, hu', h⟩ := h.next (keeps_inferDepth d right w₁) hu
  refine ⟨w₂, ht'.mono hw₂, hu', h.of_ran fun r σ' hx => ?_⟩
  simp only [ran_bind] at hx
  obtain ⟨_, _, hleft, _, _, hright, hx⟩ := hx
  obtain ⟨-, rfl⟩ := ran_expectValue hleft
  obtain ⟨-, rfl⟩ := ran_expectValue hright
  exact hx

theorem operatorClass?_operators :
    ∀ e ∈ operators, e.1 ≠ "+" ∧ operatorClass? e.1 = some e.2 ∧ e.2 ≠ struct := by decide

/-- What is asked for on the way to a state holds there. -/
theorem Passed.asked (h : v.Passed reg e) (ha : v.Asks k t) : Holds reg e k t := by
  cases ha with
  | binary hop ht hu hx =>
    obtain ⟨w, ht', hu', hbinary⟩ := h.operands ht hu
    obtain ⟨hsum, hclass, -⟩ := operatorClass?_operators _ hop
    refine holds_of_leadsTo hbinary (keeps_binaryType ht' hu') ?_ fun r σ' hr => ?_
    · rcases hx with rfl | rfl <;> assumption
    · exact ran_binaryType hbinary.ready.toOwned ht' hu' hsum hclass hr _ hx
  | sum ht hu hk hx =>
    obtain ⟨w, ht', hu', hbinary⟩ := h.operands ht hu
    rw [binaryType, if_pos rfl] at hbinary
    refine holds_of_leadsTo hbinary (keeps_sumType ht' hu') ?_ fun r σ' hr => ?_
    · rcases hx with rfl | rfl <;> assumption
    · exact ran_sumType hbinary.ready.toOwned ht' hu' hk hr _ hx
  | @unary d op operand _ σ τ hop ht =>
    obtain ⟨w, h⟩ := h
    simp only [inferDepth_eq, inferWith] at h
    rw [← inferDepth_eq] at h
    obtain ⟨w₁, -, ht', h⟩ := h.next (keeps_inferDepth d operand w) ht
    rw [unaryType, if_neg hop] at h
    exact holds_of_leadsTo h (keeps_numericType ht') ht' fun r σ' =>
      ran_numericType h.ready.toOwned ht'
  | @update d op operand leading _ σ τ ht =>
    obtain ⟨w, h⟩ := h
    simp only [inferDepth_eq, inferWith] at h
    rw [← inferDepth_eq] at h
    obtain ⟨w₁, -, ht', h⟩ := h.next (keeps_inferDepth d operand w) ht
    exact holds_of_leadsTo h (keeps_numericType ht') ht' fun r σ' =>
      ran_numericType h.ready.toOwned ht'

/-- No operator asks for structs. -/
theorem Asks.ne_struct (h : v.Asks k t) : k ≠ struct := by
  cases h with
  | binary hop => exact (operatorClass?_operators _ hop).2.2
  | sum ht hu hk =>
    unfold addition at hk
    grind [struct, stringable, num]
  | unary | update => decide

end Visit

/-! ## Solved types -/

section

variable {σ : Inference} {w : Owners} {reg : Registry} {k : String} {t : Ty}

theorem Supply.Owned.oneEach {s : Supply} (h : s.Owned w) : OneEach w.Owns := by
  rintro v v' ⟨i, hi, hv⟩ ⟨j, hj, hv'⟩
  constructor
  · intro hid
    obtain rfl : i = j := Var.generatedId_injective (by rw [← hv, ← hv', hid])
    exact h.one v.cell v'.cell _ _ i hi hj (by rfl) (by rfl)
  · intro hcell
    rw [hcell, hj] at hi
    obtain rfl : j = i := by simpa using hi
    rw [hv, hv']

theorem Inference.Owned.distinct (h : σ.Owned w) (hs : σ.Sound) :
    Constraint.Distinct w.Owns σ.supply.attachments σ.constraints where
  serves := h.supply.serves
  coherent := hs.coherent
  fit c hc _ := ⟨(hs.constraints c hc).1.coherent, (hs.constraints c hc).2.coherent⟩
  tails := h.supply.knownTails
  known c hc _ := ⟨(h.constraints c hc).1.known, (h.constraints c hc).2.known⟩
  one := h.supply.oneEach

/-- Records stay in no class but that of structs where equations are solved. -/
theorem passing_structural :
    Passing false (fun _ => True) (fun _ => True) (fun _ => True) Label.Structural where
  labels _ _ _ := trivial
  records := Label.copied_structural
  adopt h := nomatch h
  share _ _ _ _ _ _ := trivial
  of_sets _ _ _ _ _ := trivial

theorem Inference.Owned.structural_solve (h : σ.Owned w) (reg : Registry) :
    ∀ e ∈ (solve reg σ.supply.attachments σ.constraints).subst,
      e.2.All (fun _ => True) (fun _ => True) Label.Structural := by
  have hall {t : Ty} (ht : t.Owned w) : t.All (fun _ => True) (fun _ => True) Label.Structural :=
    ht.imp (fun _ _ _ => trivial) (fun _ _ => trivial) fun _ hl => hl
  unfold solve
  rw [solveWith_eq_upTo]
  have hover := Solution.over_upTo reg false passing_structural trivial
    (fun d hd f hf => hall (h.supply.tails d hd f hf))
    (fun c hc _ => ⟨hall (h.constraints c hc).1, hall (h.constraints c hc).2⟩) (Nat.le_refl _)
  exact hover.bindings

/-- What a type holds before equations are solved it has then, and so does what it is bound to. -/
theorem Inference.Owned.has_solve (h : σ.Owned w) (hs : σ.Sound) (ht : t.Owned w) (hk : k ≠ struct)
    (hmem : k ∈ reg.classes σ.supply.attachments t) :
    let r := solve reg σ.supply.attachments σ.constraints
    reg.Has r.attachments k t ∧ ∀ v u, t = .var v → (v.id, u) ∈ r.subst → reg.Has r.attachments k u := by
  intro r
  have hdistinct := h.distinct hs
  have henf := (Solution.enforcing_upTo reg false hdistinct (Nat.le_refl _)).bindings
  have heq : r = (Solution.upTo reg false σ.supply.attachments σ.constraints
      σ.constraints.length).settled := solveWith_eq_upTo
  have hhas : reg.Has r.attachments k t := by
    refine has_of_mem_classes ht hk ?_
    exact mem_classes_grow (h.over_solve reg).attachments.2 (fun _ hv => hv) ht.known hmem
  refine ⟨hhas, ?_⟩
  rintro v u rfl hu
  refine has_of_mem_classes (h.structural_solve reg _ hu) hk ?_
  cases ht with
  | var hv =>
    rw [heq] at hu hhas ⊢
    exact henf v hv u hu k hhas

end

namespace Checker

variable {c : Checker} {σ : Inference} {w : Owners} {k : String} {t : Ty} {program : Node}
  {builtins : Builtins}

/-- What a type holds when the equations of a program were found, its solved form has. -/
theorem has_solved (hσ : σ.Owned w) (hs : σ.Sound) (ht : t.Owned w) (hk : k ≠ struct)
    {global : Frame} (hmem : k ∈ (instances [global]).classes σ.supply.attachments t)
    {slots : List (Nat × Ty)} {log : List String}
    (h : ((c.inferred σ).finish global program slots log).error = none) : (instances [global]).Has
      ((c.inferred σ).finish global program slots log).checker.supply.attachments k
      (((c.inferred σ).finish global program slots log).checker.solved t) := by
  obtain ⟨-, a, hrewrites, heq⟩ := finish_ok h
  obtain ⟨hhas, hbound⟩ := hσ.has_solve hs ht hk hmem
  obtain ⟨hsets, -⟩ := hrewrites.sets
  rw [heq]
  refine Registry.Has.of_sets (Registry.Has.current ((hhas.current a).apply ?_ hsets) _) hsets
  intro v u hv hu
  obtain ⟨x, hx, hxu⟩ := mem_currentAll hu
  obtain ⟨hid, rfl⟩ := Prod.mk.inj hxu
  exact (hbound v x.2 (current_eq_var hv) (hid ▸ hx)).current a

theorem instances_start (f : Frame) : (start f).instances = instances [f] :=
  instances_cons rfl [f]

/-- After a check without error, what is registered is what the global frame registers. -/
theorem instances_run {b : Bound} {r : Ty} (hb : b.Owned w)
    (hx : Ran (infer program.numbered) (c.initial b) r σ) {slots : List (Nat × Ty)} {log : List String}
    (h : ((c.inferred σ).finish b.frame program.numbered slots log).error = none) :
    ((c.inferred σ).finish b.frame program.numbered slots log).checker.scope.instances =
      instances [b.frame] := by
  obtain ⟨-, a, -, heq⟩ := finish_ok h
  obtain ⟨w', -, -, hmembers⟩ := (keeps_infer program.numbered w).ran (hb.initial c) hx
  have hlength : σ.scope.length = 2 := by
    have hcount := congrArg List.length hmembers
    simpa [members, initial, start] using hcount
  rw [heq, ← instances_start]
  refine instances_of_members ?_
  show members (σ.scope.drop (σ.scope.length - 2)) = _
  rw [hlength]
  exact hmembers

/-- The visits of a check. -/
def Visits (c : Checker) (program : Node) (builtins : Builtins) (v : Visit) : Prop :=
  ∃ b, Bound.bindAll c.primitives ⟨.global, c.reset.supply, []⟩ builtins = (b, .ok ()) ∧
    Relation.ReflTransGen Visit.Step
      ⟨constantDepth program.numbered, program.numbered, c.initial b⟩ v

/-- After a check without error, the solved type of each operand has the class that the operator is for:
it is a variable that the class is attached to, or a constructor that the class is attached to or registered
for, and never a record. -/
theorem run_operands (c : Checker) (hc : c.Reachable) (program : Node) (builtins : Builtins)
    (h : (c.run program builtins).error = none) (v : Visit) (hv : c.Visits program builtins v)
    (k : String) (t : Ty) (ha : v.Asks k t) : let after := (c.run program builtins).checker
    after.scope.instances.Has after.supply.attachments k (after.solved t) := by
  intro after
  obtain ⟨b, r, σ, hb, hx, hrun⟩ := run_ok h
  obtain ⟨b', hb', hvisits⟩ := hv
  obtain ⟨rfl, -⟩ := Prod.mk.inj (hb.symm.trans hb')
  obtain ⟨w, hbound⟩ := hc.unfilled.bound builtins
  rw [hb] at hbound
  rw [hrun] at h
  have hready : (c.initial b).Ready (Scope.instances [b.frame]) w :=
    ⟨hbound.initial c, instances_start b.frame⟩
  have hpassed : Visit.Passed (Scope.instances [b.frame]) σ
      ⟨constantDepth program.numbered, program.numbered, c.initial b⟩ :=
    ⟨w, hready, r, σ, hx, fun w' _ hσ _ => ⟨w', hσ.rfl⟩⟩
  obtain ⟨w', hσ, ht, hmem⟩ := (hpassed.visited hvisits).asked ha
  obtain ⟨hlater, -⟩ := infer_typed _ (c.sound_initial (fits_bound hb)) hx
  unfold after
  rw [hrun, instances_run hbound hx h]
  exact has_solved hσ hlater.sound ht ha.ne_struct hmem h

/-- A number is taken from a name that is declared nowhere. -/
def difference : Node := .program [.exprStmt (.binary "-" (.ident "x") (.number "1" false))]

/-- The state in which its check starts. -/
def differenceState : Inference :=
  (new defaultPrimitives).initial ⟨.global, (new defaultPrimitives).reset.supply, []⟩

theorem visits_difference : (new defaultPrimitives).Visits difference []
    ⟨constantDepth difference, .binary "-" (.ident "x") (.number "1" false), differenceState⟩ := by
  have hnumbered : difference.numbered = difference := by cbv
  have hstart : Ran (([] : List Node).mapM (inferDepth (constantDepth difference))) differenceState []
      differenceState := ran_mapM_nil.2 ⟨rfl, rfl⟩
  refine ⟨⟨.global, (new defaultPrimitives).reset.supply, []⟩, rfl, ?_⟩
  rw [hnumbered]
  have hbody : Visit.Step ⟨constantDepth difference, difference, differenceState⟩
      ⟨constantDepth difference, .exprStmt (.binary "-" (.ident "x") (.number "1" false)), differenceState⟩ :=
    .inOrder rfl (List.nil_append [_]).symm hstart
  exact .tail (.single hbody) (.inOrder rfl (List.nil_append [_]).symm hstart)

theorem asks_difference : Visit.Asks ⟨constantDepth difference, .binary "-" (.ident "x") (.number "1" false),
    differenceState⟩ num (.var ⟨"T0", 0⟩) := by
  have hleft : Ran (inferDepth (constantDepth difference) (.ident "x")) differenceState (.var ⟨"T0", 0⟩)
      { differenceState with supply := ⟨1, ⟨[], 1, []⟩⟩ } := by cbv
  have hright (σ : Inference) : Ran (inferDepth (constantDepth difference) (.number "1" false)) σ
      (.primitive Ty.integer) σ := by
    rw [inferDepth_eq]
    exact ran_pure.2 ⟨rfl, rfl⟩
  exact .binary (by decide) hleft (hright _) (.inl rfl)

theorem run_operands_difference :
    (new defaultPrimitives).Reachable ∧ ((new defaultPrimitives).run difference []).error = none ∧
      ∃ v t, (new defaultPrimitives).Visits difference [] v ∧ v.Asks Class.num t ∧
        ((new defaultPrimitives).run difference []).checker.solved t = .primitive Ty.integer ∧
        ((new defaultPrimitives).run difference []).checker.scope.instances.Has
          ((new defaultPrimitives).run difference []).checker.supply.attachments Class.num
          (((new defaultPrimitives).run difference []).checker.solved t) := by
  have hrun : ((new defaultPrimitives).run difference []).error = none := by cbv
  have hsolved : ((new defaultPrimitives).run difference []).checker.solved (.var ⟨"T0", 0⟩) =
      .primitive Ty.integer := by cbv
  exact ⟨.new _, hrun, _, _, visits_difference, asks_difference, hsolved,
    run_operands (new defaultPrimitives) (.new _) difference [] hrun _ visits_difference _ _
      asks_difference⟩

end Checker

end ScriptTyping
