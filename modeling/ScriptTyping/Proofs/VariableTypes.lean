import ScriptTyping.Proofs.Declared
import ScriptTyping.Proofs.History
import ScriptTyping.Proofs.Operators
import ScriptTyping.Proofs.Phrases
import ScriptTyping.Proofs.SettledTypes

/-!
# Types of variables

After a check without error the variables of the program have types, but for those that inference does not
come to. It passes over one kind of node only: the value of a variable that the innermost frame has already
(`Visit.Redeclares`). Constants of enums are not visited where they are declared, but in a text these are
literals (`Phrase.literals`).

The induction is over the tree. A visit handles each node right below its own: it visits the node, or skips
it, or there is no variable in it (`Visit.Handles`). When inference comes to a variable it notes a type for
its slot, and what is noted is kept (`Visit.Passed.slot`). A type that is settled is there (`run_noted`).

Main statement: `Checker.check_annotates`.
-/

namespace ScriptTyping

open Ty Infer List

/-! ## Constants in texts -/

namespace Node

theorem declared_of_isLiteral {n : Node} (h : n.isLiteral = true) : n.declared = [] := by
  cases n with
  | missing | number _ _ | string _ | bool _ => rfl
  | _ => cases h

theorem hasLiterals_of_all {n : Node} (h : n.All fun m => m.hasLiterals = true) : n.hasLiterals = true := by
  cases n with
  | enumDecl d => exact (all_iff_parts.1 h).1
  | _ => rfl

theorem all_of_optional {P : Node → Prop} {n : Node} (h : n ≠ .missing → n.All P) : n.All P := by
  by_cases hn : n = .missing
  · subst hn
    exact all_iff_parts.2 trivial
  · exact h hn

end Node

theorem VariantOf.Written.isLiteral {v : Variant} (h : v.Written) : v.value.isLiteral = true := by
  cases h with
  | constant _ hvalue => cases hvalue <;> rfl
  | _ => rfl

open Node in
/-- In what is read from a text, the constants of enums are literals. -/
theorem Phrase.literals {c : Category} {x : Node} (h : Phrase c x) : x.All fun m => m.hasLiterals = true := by
  have htype {t : TypeExpr} : AllTypes (fun m => m.hasLiterals = true) t := fun _ _ => rfl
  induction h with
  | literal h => cases h <;> exact all_iff_parts.2 rfl
  | ident _ | breaks | continues => exact all_iff_parts.2 rfl
  | binary _ _ _ _ _ hx hy | logical _ _ _ hx hy | assign _ _ _ _ hx hy | index _ _ hx hy
  | whileLoop _ _ hx hy => exact all_iff_parts.2 ⟨rfl, hx, hy⟩
  | unary _ _ hx | update _ _ hx | await _ hx | member _ _ hx | exprStmt _ hx => exact all_iff_parts.2 ⟨rfl, hx⟩
  | ternary _ _ _ hx hy hz => exact all_iff_parts.2 ⟨rfl, hx, hy, hz⟩
  | sequence _ _ _ hx hxs => exact all_iff_parts.2 ⟨rfl, forall_mem_cons.2 ⟨hx, hxs⟩⟩
  | call _ _ hx hxs => exact all_iff_parts.2 ⟨rfl, hx, hxs⟩
  | array _ hxs | block _ hxs | object _ hxs => exact all_iff_parts.2 ⟨rfl, hxs⟩
  | structLit _ _ hps => exact all_iff_parts.2 ⟨rfl, all_iff_parts.2 ⟨rfl, hps⟩⟩
  | lambda _ _ hbody | func _ _ _ hbody =>
    exact all_iff_parts.2 ⟨rfl, fun _ _ => htype, htype, all_iff_parts.2 ⟨rfl, hbody⟩⟩
  | ifElse _ _ _ _ hx hy hz => exact all_iff_parts.2 ⟨rfl, hx, hy, all_of_optional hz⟩
  | forLoop _ _ _ _ hinit hx hy hbody =>
    exact all_iff_parts.2 ⟨rfl, all_of_optional hinit, all_of_optional hx, all_of_optional hy, hbody⟩
  | forLet _ _ _ _ _ _ hvalues hx hy hbody =>
    refine all_iff_parts.2 ⟨rfl, all_iff_parts.2 ⟨rfl, fun v hv => ⟨rfl, htype, ?_⟩⟩, all_of_optional hx,
      all_of_optional hy, hbody⟩
    exact all_of_optional (hvalues v hv)
  | returns _ hx => exact all_iff_parts.2 ⟨rfl, all_of_optional hx⟩
  | lets _ _ _ hvalues =>
    exact all_iff_parts.2 ⟨rfl, fun v hv => ⟨rfl, htype, all_of_optional (hvalues v hv)⟩⟩
  | structDecl _ _ _ => exact all_iff_parts.2 ⟨rfl, fun _ _ => htype⟩
  | enumDecl _ _ hvs =>
    refine all_iff_parts.2 ⟨all_eq_true.2 fun v hv => (hvs v hv).isLiteral, fun v hv => ?_⟩
    refine ⟨fun _ _ => htype, fun _ _ => htype, ?_⟩
    cases hvs v hv with
    | constant _ hvalue => cases hvalue <;> exact all_iff_parts.2 rfl
    | _ => exact all_iff_parts.2 trivial

/-! ## Nodes right below a visit -/

namespace Visit

variable {reg : Registry} {e σ τ : Inference} {d : Nat} {n m : Node} {v : Visit}

/-- A variable of the node that the innermost frame has already when inference comes to it. -/
def Redeclares (v : Visit) (u : Variable) : Prop :=
  ∃ before after τ, v.node.variables = before ++ u :: after ∧
    Ran (inferVars (constants v.depth) before) v.state () τ ∧ (τ.scope.lookupLocal? u.name).isSome = true

/-- What a visit does with a node right below its own. -/
inductive Handles (v : Visit) : Node → Prop
  | visited {m : Node} {τ : Inference} (h : v.Step ⟨v.depth, m, τ⟩) : Handles v m
  | skipped {u} (h : v.Redeclares u) : Handles v u.value
  | bare {m : Node} (h : m.declared = []) : Handles v m

theorem Passed.ran (h : v.Passed reg e) : ∃ t σ', Ran (inferDepth v.depth v.node) v.state t σ' := by
  obtain ⟨w, h⟩ := h
  obtain ⟨t, σ', hx, -⟩ := h.ends
  exact ⟨t, σ', hx⟩

theorem ran_before {before after : List Node} {ts : List Ty}
    (h : Ran ((before ++ m :: after).mapM (inferDepth d)) σ ts τ) :
    ∃ us τ', Ran (before.mapM (inferDepth d)) σ us τ' := by
  rw [mapM_append] at h
  obtain ⟨us, τ', hbefore, -⟩ := ran_bind.1 h
  exact ⟨us, τ', hbefore⟩

theorem handles_part (h : Passed reg e ⟨d, n, σ⟩) (hm : m ∈ n.condition?.toList ++ n.parts) :
    Handles ⟨d, n, σ⟩ m := by
  rcases mem_append.1 hm with hcond | hpart
  · exact .visited (.condition (Option.mem_toList.1 hcond))
  · obtain ⟨t, σ', hx⟩ := h.ran
    rw [inferDepth_eq] at hx
    obtain ⟨σ₁, ts, τ, hc, hparts, -⟩ := ran_parts (ne_nil_of_mem hpart) hx
    obtain ⟨before, after, hn⟩ := append_of_mem hpart
    rw [hn, ← inferDepth_eq] at hparts
    obtain ⟨us, τ', hbefore⟩ := ran_before hparts
    exact .visited (.part hc hn hbefore)

theorem handles_block {body : List Node} (h : Passed reg e ⟨d, .block body, σ⟩) (hm : m ∈ body) :
    Handles ⟨d, .block body, σ⟩ m := by
  obtain ⟨t, σ', hx⟩ := h.ran
  obtain ⟨before, after, rfl⟩ := append_of_mem hm
  simp only [inferDepth_eq, inferWith] at hx
  obtain ⟨τ, hbody, -⟩ := ran_within.1 hx
  obtain ⟨ts, hts, -⟩ := ran_inferLast hbody
  rw [← inferDepth_eq] at hts
  obtain ⟨us, τ', hbefore⟩ := ran_before hts
  exact .visited (.block hbefore)

theorem handles_whileLoop {cond body : Node} (h : Passed reg e ⟨d, .whileLoop cond body, σ⟩)
    (hm : m ∈ [cond, body]) : Handles ⟨d, .whileLoop cond body, σ⟩ m := by
  obtain ⟨t, σ', hx⟩ := h.ran
  rw [inferDepth_whileLoop] at hx
  obtain ⟨_, τ, hc, -⟩ := ran_bind.1 hx
  simp only [mem_cons, not_mem_nil, or_false] at hm
  rcases hm with rfl | rfl
  · exact .visited .whileCondition
  · exact .visited (.whileBody hc)

theorem handles_forLoop {init cond step body : Node} (h : Passed reg e ⟨d, .forLoop init cond step body, σ⟩)
    (hm : m ∈ [init, cond, step, body]) : Handles ⟨d, .forLoop init cond step body, σ⟩ m := by
  obtain ⟨t, σ', hx⟩ := h.ran
  rw [inferDepth_forLoop] at hx
  obtain ⟨τ, hall, -⟩ := ran_within.1 hx
  simp only [loopAll, loopRest, ran_bind, ran_discard] at hall
  obtain ⟨_, σ₁, ⟨i, hi⟩, _, σ₂, hc, _, σ₃, ⟨s, hs⟩, -⟩ := hall
  simp only [mem_cons, not_mem_nil, or_false] at hm
  rcases hm with rfl | rfl | rfl | rfl
  · exact .visited .forInit
  · exact .visited (.forCondition hi)
  · exact .visited (.forStep hi hc)
  · exact .visited (.forBody hi hc hs)

/-- The value of a variable is visited, unless the innermost frame has the variable. -/
theorem handles_value {u : Variable} (h : Passed reg e ⟨d, n, σ⟩) (hu : u ∈ n.variables) :
    Handles ⟨d, n, σ⟩ u.value := by
  obtain ⟨before, after, hn⟩ := append_of_mem hu
  obtain ⟨σ₁, w, hb, hvar⟩ := h.variable hn
  cases hlocal : σ₁.scope.lookupLocal? u.name with
  | some s => exact .skipped ⟨before, after, σ₁, hn, hb, Option.isSome_iff_exists.2 ⟨s, hlocal⟩⟩
  | none =>
    obtain ⟨t, σ', hx, -⟩ := hvar.ends
    simp only [variableType, ran_bind, ran_scope] at hx
    obtain ⟨_, _, ⟨rfl, rfl⟩, hx⟩ := hx
    rw [hlocal] at hx
    obtain ⟨declared, τ, hd, -⟩ := ran_bind.1 hx
    exact .visited (.value hn hb hlocal hd)

theorem handles_body {name : String} {sig : Signature} (h : Passed reg e ⟨d, n, σ⟩)
    (hn : n.function? = some (name, sig, m)) : Handles ⟨d, n, σ⟩ m := by
  obtain ⟨w, h⟩ := h
  obtain ⟨t, σ', hx, -⟩ := (leadsTo_function h hn).ends
  rw [functionType_eq] at hx
  obtain ⟨τ, hbody, -⟩ := ran_within.1 hx
  obtain ⟨head, τ', hhead, -⟩ := ran_bind.1 hbody
  exact .visited (.body hn hhead)

/-- If the object of a member is not visited, it is the name of an enum. -/
theorem handles_object {property : String} {arrow : Bool} : Handles ⟨d, .member m property arrow, σ⟩ m := by
  cases he : enumOf? σ.scope m with
  | none => exact .visited (.object he)
  | some decl =>
    refine .bare ?_
    cases m with
    | ident name => rfl
    | _ => cases he

theorem handles_element {elems : List Node} (h : Passed reg e ⟨d, .array elems, σ⟩) (hm : m ∈ elems) :
    Handles ⟨d, .array elems, σ⟩ m := by
  obtain ⟨t, σ', hx⟩ := h.ran
  obtain ⟨before, after, rfl⟩ := append_of_mem hm
  simp only [inferDepth_eq, inferWith] at hx
  obtain ⟨u, τ, hall, -⟩ := ran_bind.1 hx
  obtain ⟨first, τ', hbefore, -⟩ := ran_inferElems_append hall
  exact .visited (.element hbefore)

theorem handles_literal {name : String} (h : Passed reg e ⟨d, .structLit name m, σ⟩) :
    Handles ⟨d, .structLit name m, σ⟩ m := by
  obtain ⟨t, σ', hx⟩ := h.ran
  simp only [inferDepth_eq, inferWith, ran_bind, ran_scope] at hx
  obtain ⟨_, _, ⟨rfl, rfl⟩, hx⟩ := hx
  split at hx
  next => exact absurd hx ran_throw
  next s hs =>
    cases hm : m.isMissing with
    | true =>
      refine .bare ?_
      rw [Node.eq_missing hm]
      rfl
    | false => exact .visited (.literal hs hm)

/-- A visit handles every node right below its own. -/
theorem Passed.handles (h : Passed reg e ⟨d, n, σ⟩) (hl : n.hasLiterals = true) (hm : m ∈ n.inside) :
    Handles ⟨d, n, σ⟩ m := by
  cases n with
  | block body => exact handles_block h hm
  | whileLoop cond body => exact handles_whileLoop h hm
  | forLoop init cond step body => exact handles_forLoop h hm
  | lets vars =>
    obtain ⟨u, hu, rfl⟩ := mem_map.1 hm
    exact handles_value h hu
  | var u =>
    obtain rfl := mem_singleton.1 hm
    exact handles_value h (mem_singleton.2 rfl)
  | func _ _ _ | lambda _ _ =>
    obtain rfl := mem_singleton.1 hm
    exact handles_body h rfl
  | enumDecl decl =>
    obtain ⟨u, hu, rfl⟩ := mem_map.1 hm
    exact .bare (Node.declared_of_isLiteral (all_eq_true.1 hl u hu))
  | member _ _ _ =>
    obtain rfl := mem_singleton.1 hm
    exact handles_object
  | structLit _ _ =>
    obtain rfl := mem_singleton.1 hm
    exact handles_literal h
  | array elems => exact handles_element h hm
  | _ => exact handles_part h hm

/-! ## Variables that inference comes to -/

/-- Inference comes to every variable of a tree, unless it skips the value that the variable is in. -/
theorem Passed.exists_visit (h : v.Passed reg e) (hl : v.node.All fun m => m.hasLiterals = true)
    {x : Variable} (hx : x ∈ v.node.declared) : ∃ v', Relation.ReflTransGen Step v v' ∧
      (x ∈ v'.node.variables ∨ ∃ u, v'.Redeclares u ∧ x ∈ u.value.declared) := by
  -- By size, since the nodes below a call that is awaited are two levels down.
  induction hsize : sizeOf v.node using Nat.strong_induction_on generalizing v with
  | _ size ih =>
    subst hsize
    rcases Node.mem_declared_iff.1 hx with hown | ⟨m, hm, hxm⟩
    · exact ⟨v, .refl, .inl hown⟩
    · cases h.handles (Node.hasLiterals_of_all hl) hm with
      | visited hs =>
        obtain ⟨v', hv', hfound⟩ := ih _ (Node.sizeOf_inside hm) (h.step hs) (hl.inside m hm) hxm rfl
        exact ⟨v', .head hs hv', hfound⟩
      | skipped hu => exact ⟨v, .refl, .inr ⟨_, hu, hxm⟩⟩
      | bare hnone =>
        rw [hnone] at hxm
        cases hxm

theorem slot_of_variableType {name : String} {ann : TypeExpr} {slot : Nat} {value : Infer Ty} {t : Ty}
    (h : Ran (variableType name ann slot value) σ t τ) : slot ∈ τ.slots.map Prod.fst := by
  simp only [variableType, ran_bind, ran_scope] at h
  obtain ⟨_, _, ⟨rfl, rfl⟩, h⟩ := h
  split at h
  next =>
    obtain ⟨_, _, hslot, h⟩ := ran_bind.1 h
    obtain rfl := ran_setSlot.1 hslot
    obtain ⟨-, rfl⟩ := ran_pure.1 h
    exact mem_cons_self
  next =>
    simp only [ran_bind, ran_pure, declare, ran_modifyScope] at h
    obtain ⟨_, _, _, _, _, _, _, σ₃, _, _, σ₄, hslot, _, _, rfl, -, rfl⟩ := h
    obtain rfl := ran_setSlot.1 hslot
    exact mem_cons_self

/-- A type is noted for each variable that inference comes to. -/
theorem Passed.slot (h : v.Passed reg e) {x : Variable} (hx : x ∈ v.node.variables) :
    x.slot ∈ e.slots.map Prod.fst := by
  obtain ⟨before, after, hn⟩ := append_of_mem hx
  obtain ⟨σ₁, w, -, hvar⟩ := Passed.variable h hn
  obtain ⟨t, σ', hran, hends⟩ := hvar.ends
  have hvalue := keeps_inferDepth v.depth x.value
  obtain ⟨w₁, hkept, ht, -⟩ := (keeps_variableType hvalue).ran hvar.ready.toOwned hran
  obtain ⟨w₂, hlast⟩ := hends w₁ hkept.owners hkept.owned ht
  exact (hlast.slots.map Prod.fst).subset (slot_of_variableType hran)

end Visit

/-! ## Settled types are there -/

theorem Reached.proper_apply {B : List (Dict Ty)} {a : Attachments} {s : Subst} {t : Ty} (h : Started B a s)
    (hs : ∀ b ∈ s, b.2.Proper) (ht : t.Fits B) : (a.apply s t).1.Proper := by
  have hshape : (a.apply s t).1.shape.Proper := by
    rw [(h.apply (h.waits_start ht.coherent)).1]
    exact ht.proper.fill fun id _ => Reached.proper_images hs id
  exact proper_of_fill hshape

namespace Checker

variable {c : Checker} {program : Node} {builtins : Builtins}

theorem keys_settleSlots (c : Checker) (slots : List (Nat × Ty)) :
    (c.settleSlots slots).1.map Prod.fst = slots.map Prod.fst := by
  induction slots generalizing c with
  | nil => rfl
  | cons x slots ih => exact congrArg (x.1 :: ·) (ih _)

theorem proper_settleSlots {B : List (Dict Ty)} (h : Started B c.supply.attachments c.subst)
    (hs : ∀ b ∈ c.subst, b.2.Proper) {slots : List (Nat × Ty)} (hslots : ∀ x ∈ slots, x.2.Fits B) :
    ∀ x ∈ (c.settleSlots slots).1, x.2.Proper := by
  induction slots generalizing c with
  | nil =>
    intro x hx
    cases hx
  | cons y slots ih =>
    obtain ⟨hy, hrest⟩ := forall_mem_cons.1 hslots
    have hnext : Started B (c.settle y.2).2.supply.attachments (c.settle y.2).2.subst :=
      h.of_rewrites (c.supply.attachments.rewrites_revise y.2)
    intro x hx
    rcases mem_cons.1 hx with rfl | hx
    · exact h.proper_apply hs hy
    · exact ih hnext hs hrest x hx

theorem typeOf_ne_missing {typing : Typing} (h : ∀ x ∈ typing.slots, x.2.Proper) {v : Variable}
    (hv : v.slot ∈ typing.slots.map Prod.fst) : typing.typeOf v ≠ .missing := by
  intro hm
  unfold Typing.typeOf at hm
  cases hlookup : typing.slots.lookup v.slot with
  | none =>
    obtain ⟨x, hx, hslot⟩ := mem_map.1 hv
    have hne := lookup_eq_none_iff.1 hlookup x hx
    simp [hslot] at hne
  | some t =>
    obtain ⟨before, after, hslots, -⟩ := lookup_eq_some_iff.1 hlookup
    have ht : t.Proper := h (v.slot, t) (by simp [hslots])
    rw [hlookup] at hm
    obtain rfl : t = .missing := hm
    cases ht

/-- After a check without error, each variable that a type was noted for has one. -/
theorem run_noted (h : (c.run program builtins).error = none) :
    ∃ b t σ typing, Bound.bindAll c.primitives ⟨.global, c.reset.supply, []⟩ builtins = (b, .ok ()) ∧
      Ran (infer program.numbered) (c.initial b) t σ ∧ (c.run program builtins).typing = some typing ∧
      typing.program = program.numbered ∧
      ∀ v : Variable, v.slot ∈ σ.slots.map Prod.fst → typing.typeOf v ≠ .missing := by
  obtain ⟨b, t, σ, hb, hx, hrun⟩ := run_ok h
  rw [hrun] at h ⊢
  have hσ := (infer_typed _ (c.sound_initial (fits_bound hb)) hx).1.sound
  have hsound := Constraint.sound_solveWith hσ.coherent hσ.constraints (finish_ok h).1
  obtain ⟨htyping, -⟩ := finish_settled h
  refine ⟨b, t, σ, _, hb, hx, htyping, rfl, fun v hv => typeOf_ne_missing ?_ ?_⟩
  · exact proper_settleSlots hsound.started hsound.proper hσ.slots
  · rw [keys_settleSlots]
    exact hv

/-- A text that is checked without error is read as a program, and that is checked without error. -/
theorem check_ok {name source : String} (h : (c.check name source builtins).error = none) :
    ∃ program, parseProgram source = .ok program ∧ (c.run program builtins).error = none ∧
      (c.check name source builtins).typing = (c.run program builtins).typing := by
  cases hparse : parseProgram source with
  | ok program =>
    rw [check_of_parseProgram hparse] at h ⊢
    exact ⟨program, rfl, Option.map_eq_none_iff.1 h, rfl⟩
  | error e =>
    unfold check at h
    split at h
    next => cases h
    next ts hts =>
      split at h
      next => cases h
      next body hread =>
        rw [parseProgram_eq_ok.2 ⟨ts, body, hts, hread, rfl⟩] at hparse
        cases hparse

theorem literals_of_parseProgram {source : String} (h : parseProgram source = .ok program) :
    program.numbered.All fun m => m.hasLiterals = true := by
  obtain ⟨body, rfl, hbody⟩ := phrases_of_parseProgram h
  have hall : (Node.program body).All fun m => m.hasLiterals = true :=
    Node.all_iff_parts.2 ⟨rfl, fun x hx => (hbody x hx).literals⟩
  refine all_eq_true.1 ?_
  rw [Node.literals_numbered]
  exact all_eq_true.2 hall

theorem passed_program (hc : c.Reachable) {b : Bound}
    (hb : Bound.bindAll c.primitives ⟨.global, c.reset.supply, []⟩ builtins = (b, .ok ())) {t : Ty}
    {σ : Inference} (hx : Ran (infer program.numbered) (c.initial b) t σ) :
    Visit.Passed (Scope.instances [b.frame]) σ
      ⟨constantDepth program.numbered, program.numbered, c.initial b⟩ := by
  obtain ⟨w, hbound⟩ := hc.unfilled.bound builtins
  rw [hb] at hbound
  exact ⟨w, ⟨hbound.initial c, instances_start b.frame⟩, t, σ, hx, fun w' _ hσ _ => ⟨w', hσ.rfl⟩⟩

/-- After a check without error, every variable of the program has a type, or is in the value of a variable
that the innermost frame had already when inference came to it. Each variable has a slot for its type to
itself. What inference comes to has a type in any case, so also a variable whose value is skipped. -/
theorem check_annotates (c : Checker) (hc : c.Reachable) (name source : String) (builtins : Builtins)
    (h : (c.check name source builtins).error = none) : ∃ program typing, parseProgram source = .ok program ∧
      (c.check name source builtins).typing = some typing ∧ typing.program = program.numbered ∧
      (typing.program.declared.map VariableOf.slot).Nodup ∧
      (∀ v ∈ typing.program.declared, typing.typeOf v ≠ .missing ∨
        ∃ visit u, c.Visits program builtins visit ∧ visit.Redeclares u ∧ v ∈ u.value.declared) ∧
      ∀ visit, c.Visits program builtins visit → ∀ v ∈ visit.node.variables, typing.typeOf v ≠ .missing := by
  obtain ⟨program, hparse, hrun, heq⟩ := check_ok h
  obtain ⟨b, t, σ, typing, hb, hx, htyping, hprogram, hnoted⟩ := run_noted hrun
  have hpassed := passed_program hc hb hx
  refine ⟨program, typing, hparse, heq.trans htyping, hprogram, ?_, fun v hv => ?_, ?_⟩
  · rw [hprogram]
    exact Node.nodup_slots_numbered program
  · rw [hprogram] at hv
    obtain ⟨visit, hvisit, hfound⟩ := hpassed.exists_visit (literals_of_parseProgram hparse) hv
    rcases hfound with hown | ⟨u, hu, hvu⟩
    · exact .inl (hnoted v ((hpassed.visited hvisit).slot hown))
    · exact .inr ⟨visit, u, ⟨b, hb, hvisit⟩, hu, hvu⟩
  · intro visit hvisit v hv
    obtain ⟨b', hb', hsteps⟩ := hvisit
    obtain ⟨rfl, -⟩ := Prod.mk.inj (hb.symm.trans hb')
    exact hnoted v ((hpassed.visited hsteps).slot hv)

/-- A function with a variable in the body of a loop, as the value of a variable that is declared again. -/
def nestedText : String :=
  "let f = fun (n): integer \x7b for (let i = n; ; ) \x7b let h = [i]; \x7d \x7d; let f = 1;"

theorem check_annotates_nested : (new defaultPrimitives).Reachable ∧
    ((new defaultPrimitives).check "" nestedText []).error = none ∧
    ∃ program typing, parseProgram nestedText = .ok program ∧
      ((new defaultPrimitives).check "" nestedText []).typing = some typing ∧
      typing.program = program.numbered ∧ (typing.program.declared.map VariableOf.slot).Nodup ∧
      (∀ v ∈ typing.program.declared, typing.typeOf v ≠ .missing ∨ ∃ visit u,
        (new defaultPrimitives).Visits program [] visit ∧ visit.Redeclares u ∧ v ∈ u.value.declared) ∧
      ∀ visit, (new defaultPrimitives).Visits program [] visit →
        ∀ v ∈ visit.node.variables, typing.typeOf v ≠ .missing := by
  have herror : ((new defaultPrimitives).check "" nestedText []).error = none :=
    Option.isNone_iff_eq_none.1 (by decide +kernel)
  exact ⟨.new _, herror, check_annotates (new defaultPrimitives) (.new _) "" nestedText [] herror⟩

/-- The value of a variable that is declared twice is not visited, so what it declares has no type. -/
theorem check_unannotated :
    let r := (new defaultPrimitives).check "" "let x = 1; let x = fun () \x7b let y = 2; \x7d;" []
    r.error = none ∧
      ∃ typing, r.typing = some typing ∧ ∃ v ∈ typing.program.declared, typing.typeOf v = .missing := by
  intro r
  have herror : r.error.isNone = true := by decide +kernel
  have hmissing : r.typing.any (fun typing =>
      typing.program.declared.any fun v => (typing.typeOf v).isMissing) = true := by decide +kernel
  refine ⟨Option.isNone_iff_eq_none.1 herror, ?_⟩
  cases htyping : r.typing with
  | none =>
    rw [htyping] at hmissing
    cases hmissing
  | some typing =>
    rw [htyping] at hmissing
    obtain ⟨v, hv, hm⟩ := any_eq_true.1 hmissing
    exact ⟨typing, rfl, v, hv, Ty.eq_missing hm⟩

end Checker

end ScriptTyping
