import ScriptTyping.Proofs.Operators
import ScriptTyping.Proofs.VisitOrder

/-!
# Signatures are shared and stay apart

All uses of a builtin share the type of its signature. A use takes a copy of it with new variables, so
what is found out about one use says nothing about another. Three facts make this so:

* *binding*: the scheme of a signature stands for all variables of its type, and these are its own,
* *frame*: no type of the program is made with such a variable, and nothing is attached to its cell, while
  inference goes through the program and while equations are solved, and
* *freshness*: the variables of a use were not generated before it. Of two uses one is over when the other
  starts (`Visit.compare`), so the variables of the first were.

None of this depends on whether the check succeeds.

Main statement: `Checker.run_signatures`.
-/

namespace ScriptTyping

open Ty Attachments Infer List Scope

variable {w w' : Owners} {σ : Inference} {q : Var} {a : Attachments}

/-! ## Types without a variable -/

/-- The variable is not in the type, neither as it was made nor as it is now. -/
def Attachments.Lacks (a : Attachments) (id : String) (t : Ty) : Prop :=
  id ∉ t.ids ∧ id ∉ (a.current t).ids

/-- The variable is in no type that is declared in a frame below the outermost, and in no constraint. -/
structure Var.Absent (q : Var) (a : Attachments) (sc : Scope) (cs : List Constraint) : Prop where
  scope : ∀ f ∈ List.dropLast sc, f.All (fun s => a.Lacks q.id s.type) (a.Lacks q.id)
  constraints : ∀ k ∈ cs, a.Lacks q.id k.left ∧ a.Lacks q.id k.right

theorem Supply.Owned.lacks {s : Supply} (hs : s.Owned w) (hq : w.Binds q)
    (ha : a.AllTails w.Owns (Label.Apart w.Owns) (Label.Apart w.Owns)) {t : Ty} (ht : t.Known w.Owns) :
    a.Lacks q.id t := by
  have hnot {u : Ty} (hu : u.Known w.Owns) : q.id ∉ u.ids := by
    intro hmem
    obtain ⟨v, hv, hid⟩ := Ty.mem_ids.1 hmem
    exact hs.id_ne hq (hu.of_mem_vars hv) hid.symm
  exact ⟨hnot ht, hnot (ha.current ht)⟩

/-- A variable that stands for any type is absent where types are owned. -/
theorem Inference.Owned.absent (h : σ.Owned w) (hq : w.Binds q)
    (ha : a.AllTails w.Owns (Label.Apart w.Owns) (Label.Apart w.Owns)) :
    q.Absent a σ.scope σ.constraints := by
  have hlacks {t : Ty} (ht : t.Owned w) : a.Lacks q.id t := h.supply.lacks hq ha ht.known
  refine ⟨fun f hf => ?_, fun k hk => ⟨hlacks (h.constraints k hk).1, hlacks (h.constraints k hk).2⟩⟩
  exact (h.scope.dropLast f hf).imp (fun _ hs => hlacks hs) fun _ ht => hlacks ht

theorem Var.Absent.drop {sc : Scope} {cs : List Constraint} (h : q.Absent a sc cs) (n : Nat) :
    q.Absent a (sc.drop n) cs := by
  refine ⟨fun f hf => h.scope f ?_, h.constraints⟩
  rw [dropLast_drop_eq_drop_dropLast] at hf
  exact mem_of_mem_drop hf

/-! ## Uses -/

/-- The variables of a use of a signature have numbers that were not in use. -/
theorem Scheme.Signed.number_ge {s : Scheme} (hs : s.Signed w) {supply : Supply} {id : String}
    (hid : id ∈ (s.instantiate supply).1.ids) : ∃ n, id = Var.generatedId n ∧ supply.count ≤ n := by
  have hnew : ∀ e ∈ (Scheme.renewal supply s.vars []).1, e.2.All
      (fun v => ∃ n, v.id = Var.generatedId n ∧ supply.count ≤ n) w.Leaves Label.Structural := by
    intro e he
    rcases (Scheme.renewal_spec supply s.vars []).2 e he with ⟨-, n, c, hn, hvar⟩ | he
    · rw [hvar]
      exact .var ⟨n, rfl, hn⟩
    · cases he
  obtain ⟨v, hv, rfl⟩ := Ty.mem_ids.1 hid
  exact (all_instantiate hs supply hnew).1.of_mem_vars hv

/-- A name that is declared gives a use of its scheme. -/
theorem Infer.ran_ident {d : Nat} {name : String} {s : Scheme} {t : Ty} {τ : Inference}
    (hs : σ.scope.lookup? name = some s) : Ran (inferDepth d (.ident name)) σ t τ ↔
      t = (s.instantiate σ.supply).1 ∧ τ = { σ with supply := (s.instantiate σ.supply).2 } := by
  rw [inferDepth_eq, inferWith, nameType, ran_bind, ← ran_instantiate]
  constructor
  · rintro ⟨sc, σ₁, hsc, hx⟩
    obtain ⟨rfl, rfl⟩ := ran_scope.1 hsc
    simpa only [hs] using hx
  · intro hx
    refine ⟨σ.scope, σ, ran_scope.2 ⟨rfl, rfl⟩, ?_⟩
    simpa only [hs] using hx

namespace Visit

variable {reg : Registry} {schemes : List (String × Scheme)} {u v v' : Visit} {t : Ty}

/-- The state that a visit leaves, also if it fails. -/
def after (v : Visit) : Inference := ((inferDepth v.depth v.node).run.run v.state).2

/-- The visit does not fail, and gives the type. -/
def Gives (v : Visit) (t : Ty) : Prop := Ran (inferDepth v.depth v.node) v.state t v.after

/-- The visit is that of a name which is declared with one of the schemes there. A name that is used twice in
one state makes one visit, but then nothing was generated by the first use, and its type has no variables. -/
def Uses (schemes : List (String × Scheme)) (v : Visit) : Prop :=
  ∃ name s, v.node = .ident name ∧ v.state.scope.lookup? name = some s ∧ (name, s) ∈ schemes

/-- The variables of a visit that is over were generated, and those of a use are new. -/
theorem disjoint_of_passed {s : Scheme} (ht : v.Gives t) (hs : s.Signed w) (hpassed : v.Passed reg v'.state) :
    t.ids.Disjoint (s.instantiate v'.state.supply).1.ids := by
  obtain ⟨w₀, hready, r, τ, hr, hends⟩ := hpassed
  obtain ⟨rfl, rfl⟩ := ht.unique hr
  obtain ⟨w₁, hkept, ht', -⟩ := (keeps_inferDepth v.depth v.node w₀).ran hready.toOwned hr
  obtain ⟨w₂, hkept'⟩ := hends w₁ hkept.owners hkept.owned ht'
  intro id hid hid'
  obtain ⟨n, rfl, hlt⟩ := hkept'.owned.supply.number_lt (ht'.mono hkept'.owners) hid
  obtain ⟨m, hm, hge⟩ := hs.number_ge hid'
  obtain rfl := Var.generatedId_injective hm
  omega

namespace Uses

theorem gives (h : v.Uses schemes) : ∃ e ∈ schemes, v.Gives (e.2.instantiate v.state.supply).1 := by
  obtain ⟨name, s, hn, hs, hmem⟩ := h
  refine ⟨(name, s), hmem, ?_⟩
  have hx := (ran_ident (d := v.depth) hs).2 ⟨rfl, rfl⟩
  rw [← hn] at hx
  unfold Gives after
  rw [hx]
  exact hx

/-- A name has no parts. -/
theorem not_step (h : v.Uses schemes) : ¬ v.Step v' := by
  obtain ⟨name, s, hn, -⟩ := h
  obtain ⟨d, n, σ⟩ := v
  obtain rfl : n = .ident name := hn
  intro hstep
  cases hstep with
  | condition hn | body hn => cases hn
  | part _ hn | value hn => simp [Node.parts, Node.variables] at hn

theorem eq_of_steps (h : v.Uses schemes) (hv : Relation.ReflTransGen Step v v') : v = v' := by
  rcases Relation.ReflTransGen.cases_head hv with heq | ⟨x, hx, -⟩
  · exact heq
  · exact absurd hx h.not_step

/-- Two uses share no variable. -/
theorem disjoint (h : v.Uses schemes) (h' : v'.Uses schemes) (hs : ∀ e ∈ schemes, e.2.Signed w')
    (hne : v ≠ v') (hu : u.state.Ready reg w) (hv : Relation.ReflTransGen Step u v)
    (hv' : Relation.ReflTransGen Step u v') : ∃ t t', v.Gives t ∧ v'.Gives t' ∧ t.ids.Disjoint t'.ids := by
  obtain ⟨e, he, ht⟩ := h.gives
  obtain ⟨e', he', ht'⟩ := h'.gives
  refine ⟨_, _, ht, ht', ?_⟩
  rcases compare hu hv hv' with hsteps | hsteps | hpassed | hpassed
  · exact absurd (h.eq_of_steps hsteps) hne
  · exact absurd (h'.eq_of_steps hsteps).symm hne
  · exact disjoint_of_passed ht (hs e' he') hpassed
  · exact (disjoint_of_passed ht' (hs e he) hpassed).symm

end Uses

end Visit

/-! ## Checks -/

namespace Checker

variable {c : Checker} {program : Node} {builtins : Builtins} {b : Bound}

/-- What a check leaves after inference came to a state: the frames and constraints from there, and
bindings and classes that have to do with variables of the program only. -/
structure Concludes (w : Owners) (σ : Inference) (c : Checker) : Prop where
  scope : ∃ n, c.scope = σ.scope.drop n
  constraints : c.constraints = σ.constraints
  grows : Grows w.Owns σ.supply.attachments c.supply.attachments
  tails : c.supply.attachments.AllTails w.Owns (Label.Apart w.Owns) (Label.Apart w.Owns)
  subst : ∀ e ∈ c.subst, Constraint.Mentions σ.constraints e.1 ∧ e.2.Known w.Owns

theorem concludes_finish (hσ : σ.Owned w) (hs : σ.Sound) (global : Frame) (slots : List (Nat × Ty))
    (log : List String) : Concludes w σ ((c.inferred σ).finish global program slots log).checker := by
  obtain ⟨a, error, hrewrites, heq⟩ := (c.inferred σ).finish_checker global program slots log
  have hover := hσ.over_solve (instances [global])
  have hcanonical := Constraint.canonical_solveWith (instances [global]) false hs.coherent
    fun k hk _ => ⟨(hs.constraints k hk).1.coherent, (hs.constraints k hk).2.coherent⟩
  have hapart : Copied (Label.Apart w.Owns) := copied_apart
  rw [heq]
  refine ⟨⟨_, rfl⟩, rfl, hover.attachments.2.trans (.of_sets hrewrites.sets.1),
    hover.tails.of_rewrites hapart hapart hrewrites hover.subst, fun e he => ⟨?_, hover.subst e he⟩⟩
  exact hcanonical.keys e.1 (mem_map_of_mem he)

/-- A check comes to its end from a state that inference left, whether that was with an error or not. -/
theorem run_concludes (hm : program.isMissing = false) (hbound : b.Owned w)
    (hb : Bound.bindAll c.primitives ⟨.global, c.reset.supply, []⟩ builtins = (b, .ok ())) :
    ∃ w' σ, (c.initial b).Kept w w' σ ∧ Concludes w' σ (c.run program builtins).checker := by
  obtain ⟨w', hkept, -⟩ := keeps_infer program.numbered w _ (hbound.initial c)
  cases hx : (infer program.numbered).run.run (c.initial b) with
  | mk found σ =>
    rw [hx] at hkept
    refine ⟨w', σ, hkept, ?_⟩
    cases found with
    | error e =>
      rw [run_untyped hm hb hx]
      exact ⟨⟨_, rfl⟩, rfl, .of_sets rfl, hkept.owned.supply.knownTails, fun e he => nomatch he⟩
    | ok t =>
      obtain ⟨hlater, -⟩ := infer_typed _ (c.sound_initial (fits_bound hb)) hx
      rw [run_inferred hm hb hx]
      exact concludes_finish hkept.owned hlater.sound _ _ _

/-- The variable has no part in a check: it is absent from the states that visits start with and end with,
and from what the check leaves, and it is neither bound nor in what is bound. -/
structure Isolates (c : Checker) (program : Node) (builtins : Builtins) (q : Var) : Prop where
  visits : ∀ v, c.Visits program builtins v →
    q.Absent v.state.supply.attachments v.state.scope v.state.constraints ∧
      q.Absent v.after.supply.attachments v.after.scope v.after.constraints
  checker : let after := (c.run program builtins).checker
    q.Absent after.supply.attachments after.scope after.constraints
  subst : let after := (c.run program builtins).checker
    ∀ e ∈ after.subst, e.1 ≠ q.id ∧ after.supply.attachments.Lacks q.id e.2

theorem Concludes.absent (h : Concludes w σ c) (hσ : σ.Owned w) (hq : w.Binds q) :
    q.Absent c.supply.attachments c.scope c.constraints ∧
      ∀ e ∈ c.subst, e.1 ≠ q.id ∧ c.supply.attachments.Lacks q.id e.2 := by
  have habsent := hσ.absent hq h.tails
  obtain ⟨n, hscope⟩ := h.scope
  rw [hscope, h.constraints]
  refine ⟨habsent.drop n, fun e he => ⟨?_, hσ.supply.lacks hq h.tails (h.subst e he).2⟩⟩
  intro heq
  obtain ⟨k, hk, -, hid | hid⟩ := heq ▸ (h.subst e he).1
  · exact (habsent.constraints k hk).1.1 hid
  · exact (habsent.constraints k hk).2.1 hid

/-- Nothing happens to a variable that stands for any type when the program is visited. -/
theorem isolates_of_binds (hbound : b.Owned w) (hq : w.Binds q)
    (hb : Bound.bindAll c.primitives ⟨.global, c.reset.supply, []⟩ builtins = (b, .ok ())) :
    c.Isolates program builtins q := by
  have hvisits : ∀ v, c.Visits program builtins v →
      q.Absent v.state.supply.attachments v.state.scope v.state.constraints ∧
        q.Absent v.after.supply.attachments v.after.scope v.after.constraints := by
    rintro v ⟨b', hb', hsteps⟩
    obtain ⟨rfl, -⟩ := Prod.mk.inj (hb.symm.trans hb')
    obtain ⟨w₁, hkept, -⟩ := Visit.reaches_of_steps hsteps w (hbound.initial c)
    obtain ⟨w₂, hkept', -⟩ := keeps_inferDepth v.depth v.node w₁ v.state hkept.owned
    have hq₁ := hq.mono hkept.owners
    exact ⟨hkept.owned.absent hq₁ hkept.owned.supply.knownTails,
      hkept'.owned.absent (hq₁.mono hkept'.owners) hkept'.owned.supply.knownTails⟩
  cases hm : program.isMissing with
  | true =>
    -- Nothing is bound, and there is only an empty frame below the outermost.
    have hrun : (c.run program builtins).checker = { c.reset with error := some .emptyProgram } := by
      rw [run, hm]
      rfl
    refine ⟨hvisits, ?_, ?_⟩
    · rw [hrun]
      exact ⟨fun f hf => mem_singleton.1 hf ▸ Frame.all_empty, fun k hk => by cases hk⟩
    · rw [hrun]
      exact fun e he => by cases he
  | false =>
    obtain ⟨w', σ, hkept, hends⟩ := run_concludes hm hbound hb
    obtain ⟨habsent, hsubst⟩ := hends.absent hkept.owned (hq.mono hkept.owners)
    exact ⟨hvisits, habsent, hsubst⟩

/-- Nothing is attached to a variable that stands for any type after it was bound. -/
theorem classes_run (hm : program.isMissing = false) (hbound : b.Owned w) (hq : w.Binds q)
    (hb : Bound.bindAll c.primitives ⟨.global, c.reset.supply, []⟩ builtins = (b, .ok ())) :
    (c.run program builtins).checker.supply.attachments.get q.cell = b.supply.attachments.get q.cell := by
  obtain ⟨w', σ, hkept, hends⟩ := run_concludes hm hbound hb
  obtain ⟨i, hi, -⟩ := hq
  have hcell : ∀ v, w'.Owns v → v.cell ≠ q.cell := by
    rintro v ⟨j, hj, -⟩ heq
    rw [heq, getElem?_of_append hkept.owners hi] at hj
    cases hj
  exact (hends.grows.get hcell).trans (hkept.spared q.cell i hi)

/-- For all builtins that can be bound and any program, whether the check succeeds or not: the scheme of a
signature stands for all variables of its type, and no two schemes share one. Such a variable has no part in
the check, and its classes stay as they were when the signature was bound. Two uses of builtins give types
that share no variable. -/
theorem run_signatures (c : Checker) (hc : c.Reachable) (program : Node) (builtins : Builtins)
    (hb : (Bound.bindAll c.primitives ⟨.global, c.reset.supply, []⟩ builtins).2 = .ok ()) :
    let bound := (Bound.bindAll c.primitives ⟨.global, c.reset.supply, []⟩ builtins).1
    let signatures := Bound.signatures c.primitives ⟨.global, c.reset.supply, []⟩ builtins
    bound.schemes.map Prod.snd = signatures.map Prod.fst ∧
    (∀ x ∈ signatures, ∀ v ∈ x.1.type.vars, v ∈ x.1.vars) ∧
    signatures.Pairwise Bound.Disjoint ∧
    (∀ x ∈ signatures, ∀ q ∈ x.1.vars, c.Isolates program builtins q ∧ (program.isMissing = false →
      (c.run program builtins).checker.supply.attachments.get q.cell = x.2.get q.cell)) ∧
    ∀ v v', c.Visits program builtins v → c.Visits program builtins v' → v ≠ v' →
      v.Uses bound.schemes → v'.Uses bound.schemes →
        ∃ t t', v.Gives t ∧ v'.Gives t' ∧ t.ids.Disjoint t'.ids := by
  intro bound signatures
  have hbinds : Bound.bindAll c.primitives ⟨.global, c.reset.supply, []⟩ builtins = (bound, .ok ()) :=
    Prod.ext rfl hb
  have hschemes : bound.schemes.map Prod.snd = signatures.map Prod.fst :=
    Bound.schemes_bindAll c.primitives ⟨.global, c.reset.supply, []⟩ builtins
  obtain ⟨w, hsealed, -, hlasts, hpairwise⟩ := hc.unfilled.sealed.signatures hbinds
  have hbound := hsealed.owned
  have hsigned : ∀ e ∈ bound.schemes, e.2.Signed w := by
    intro e he
    have hmem : e.2 ∈ signatures.map Prod.fst := hschemes ▸ mem_map_of_mem he
    obtain ⟨x, hx, heq⟩ := mem_map.1 hmem
    exact heq ▸ (hlasts x hx).signed
  refine ⟨hschemes, fun x hx v hv => ?_, hpairwise, fun x hx q hq => ?_, ?_⟩
  · exact ((hlasts x hx).signed.type.of_mem_vars hv).2
  · have hq' := (hlasts x hx).binds hq
    refine ⟨isolates_of_binds hbound hq' hbinds, fun hm => ?_⟩
    exact (classes_run hm hbound hq' hbinds).trans ((hlasts x hx).classes q hq)
  · rintro v v' ⟨b, hb₁, hv⟩ ⟨b', hb₂, hv'⟩ hne hu hu'
    obtain ⟨rfl, -⟩ := Prod.mk.inj (hbinds.symm.trans hb₁)
    obtain ⟨rfl, -⟩ := Prod.mk.inj (hbinds.symm.trans hb₂)
    exact hu.disjoint hu' hsigned hne ⟨hbound.initial c, instances_start bound.frame⟩ hv hv'

def measures : Builtins :=
  [("first", ⟨.function, "<T>(xs: Array<T>) -> T"⟩), ("sum", ⟨.function, "<T: Num>(xs: Array<T>) -> T"⟩)]

/-- One of them is taken from the other, as if they were numbers. -/
def mixed : Node := .program [.exprStmt (.binary "-" (.ident "first") (.ident "sum"))]

/-- What a check binds them to. -/
def measured : Bound × Except CheckError Unit :=
  Bound.bindAll defaultPrimitives ⟨.global, (new defaultPrimitives).reset.supply, []⟩ measures

theorem measured_binds : measured.2.isOk = true ∧
    ((start measured.1.frame).lookup? "first").isSome = true ∧
    ((start measured.1.frame).lookup? "sum").isSome = true := by decide +kernel

theorem measured_ok : measured.2 = .ok () := by
  have hok := measured_binds.1
  cases h : measured.2 with
  | ok => rfl
  | error e =>
    rw [h] at hok
    cases hok

theorem lookup_measured {name : String} {s : Scheme}
    (hs : (start measured.1.frame).lookup? name = some s) : (name, s) ∈ measured.1.schemes := by
  have hget : Dict.get? measured.1.frame.types name = some s := by
    rw [start, lookup?_cons, lookup?_cons] at hs
    simpa [Frame.empty, Dict.get?, lookup?] using hs
  exact Bound.mem_schemes_bindAll defaultPrimitives (by simp [Frame.global, Frame.empty]) measures _
    (Dict.mem_of_get?_eq_some hget)

/-- Both names are used, one after the other. -/
theorem uses_mixed : ∃ v v', (new defaultPrimitives).Visits mixed measures v ∧
    (new defaultPrimitives).Visits mixed measures v' ∧ v ≠ v' ∧ v.Uses measured.1.schemes ∧
    v'.Uses measured.1.schemes := by
  let d := constantDepth mixed
  let σ := (new defaultPrimitives).initial measured.1
  obtain ⟨s, hs⟩ := Option.isSome_iff_exists.1 measured_binds.2.1
  obtain ⟨s', hs'⟩ := Option.isSome_iff_exists.1 measured_binds.2.2
  let τ : Inference := { σ with supply := (s.instantiate σ.supply).2 }
  have hx : Ran ([Node.ident "first"].mapM (inferDepth d)) σ [(s.instantiate σ.supply).1] τ :=
    ran_mapM_cons.2 ⟨_, τ, [], (ran_ident hs).2 ⟨rfl, rfl⟩, ran_mapM_nil.2 ⟨rfl, rfl⟩, rfl⟩
  have hnone : Ran (([] : List Node).mapM (inferDepth d)) σ [] σ := ran_mapM_nil.2 ⟨rfl, rfl⟩
  have hvisits {v : Visit} (hv : Visit.Step ⟨d, .binary "-" (.ident "first") (.ident "sum"), σ⟩ v) :
      (new defaultPrimitives).Visits mixed measures v := by
    have hnumbered : mixed.numbered = mixed := by cbv
    refine ⟨measured.1, Prod.ext rfl measured_ok, ?_⟩
    rw [hnumbered]
    have hbody : Visit.Step ⟨d, mixed, σ⟩ ⟨d, .exprStmt (.binary "-" (.ident "first") (.ident "sum")), σ⟩ :=
      .inOrder rfl (nil_append [_]).symm hnone
    exact .tail (.tail (.single hbody) (.inOrder rfl (nil_append [_]).symm hnone)) hv
  refine ⟨⟨d, .ident "first", σ⟩, ⟨d, .ident "sum", τ⟩, hvisits (.inOrder rfl (nil_append [_, _]).symm hnone),
    hvisits (.inOrder rfl (singleton_append ..).symm hx), fun heq => ?_, ?_, ?_⟩
  · simpa using congrArg Visit.node heq
  · exact ⟨"first", s, rfl, hs, lookup_measured hs⟩
  · exact ⟨"sum", s', rfl, hs', lookup_measured hs'⟩

theorem run_signatures_mixed : (new defaultPrimitives).Reachable ∧ measured.2 = .ok () ∧
    ((new defaultPrimitives).run mixed measures).error.isSome = true ∧
    ((Bound.signatures defaultPrimitives ⟨.global, (new defaultPrimitives).reset.supply, []⟩ measures).map
      fun x => x.1.vars.map fun q => (q.id, x.2.get q.cell)) = [[("T0", [])], [("T1", [Class.num])]] ∧
    (∀ x ∈ Bound.signatures defaultPrimitives ⟨.global, (new defaultPrimitives).reset.supply, []⟩ measures,
      ∀ q ∈ x.1.vars, (new defaultPrimitives).Isolates mixed measures q ∧
        ((new defaultPrimitives).run mixed measures).checker.supply.attachments.get q.cell = x.2.get q.cell) ∧
    ∃ v v' : Visit, v.Uses measured.1.schemes ∧ v'.Uses measured.1.schemes ∧
      ∃ t t', v.Gives t ∧ v'.Gives t' ∧ t.ids.Disjoint t'.ids := by
  obtain ⟨-, -, -, hisolated, hdisjoint⟩ :=
    run_signatures (new defaultPrimitives) (.new _) mixed measures measured_ok
  obtain ⟨v, v', hv, hv', hne, hu, hu'⟩ := uses_mixed
  refine ⟨.new _, measured_ok, by decide +kernel, by decide +kernel, fun x hx q hq => ?_,
    v, v', hu, hu', hdisjoint v v' hv hv' hne hu hu'⟩
  exact ⟨(hisolated x hx q hq).1, (hisolated x hx q hq).2 rfl⟩

end Checker

end ScriptTyping
