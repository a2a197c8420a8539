import ScriptTyping.Proofs.Reachable
import ScriptTyping.Proofs.RenumberedSolving

/-!
# Checks do not depend on history

A checker goes on with the numbers of variables and cells from one check to the next, and with what is
attached to cells. Nothing else is left of the checks before. Cells that are made later hold nothing yet
(`Checker.Reachable.unfilled`). So a check starts as it does in a new checker, where all numbers are
smaller by a constant, and each phase keeps it that way: the builtins (`Bound.Mirrors.bindAll`),
inference (`Infer.mirrors_infer`), and solution (`Constraint.mirrors_solve`).

Generated variables are in the order of their numbers, as long as these are small enough to be read back.
So the larger numbers are in the order of the smaller ones, and of two variables the same is bound.

Main statement: `Checker.check_shifted`.
-/

namespace ScriptTyping

open Ty Attachments Infer List Scope Checker Constraint

/-! ## Larger numbers -/

namespace Renumbering

/-- Numbers of variables and of cells that are larger by a constant each. -/
def shift (ids cells : Nat) : Renumbering where
  ids n := n + ids
  cells c := c + cells
  tails n := n
  ids_injective _ _ h := Nat.add_right_cancel h
  cells_injective _ _ h := Nat.add_right_cancel h
  tails_injective _ _ h := h

theorem keepsTails_shift (k j : Nat) : (shift k j).KeepsTails := fun _ => rfl

/-- Larger numbers are in the same order, as long as all are small enough. -/
theorem keepsOrder_shift {k : Nat} (j : Nat) {Q : String → Prop}
    (hQ : ∀ id, Q id → ∃ n, id = Var.generatedId n ∧ n + k < Var.numberBound) : (shift k j).KeepsOrder Q := by
  intro x y hx hy
  obtain ⟨m, rfl, hm⟩ := hQ x hx
  obtain ⟨n, rfl, hn⟩ := hQ y hy
  rw [id_generatedId, id_generatedId]
  show Var.order (Var.generatedId (m + k)) (Var.generatedId (n + k)) = _
  rw [Var.order_generatedId hm hn, Var.order_generatedId (by omega) (by omega), Nat.compare_eq_ite_lt,
    Nat.compare_eq_ite_lt]
  simp

end Renumbering

variable {ρ : Renumbering}

/-! ## Builtins -/

/-- The second builtins are bound to the types of the first, under other numbers. -/
structure Bound.Mirrors (ρ : Renumbering) (b b' : Bound) : Prop where
  frame : b'.frame = b.frame.renumber ρ
  supply : b.supply.Mirrors ρ b'.supply

theorem Scope.renumber_start (f : Frame) : (start f).renumber ρ = start (f.renumber ρ) := rfl

theorem mirrors_signatureType {s s' : Supply} (h : s.Mirrors ρ s') (prims : List String)
    (signature : String) : (signatureType prims s' signature).1 =
        Except.renumber ρ (Ty.renumber ρ) (signatureType prims s signature).1 ∧
      (signatureType prims s signature).2.Mirrors ρ (signatureType prims s' signature).2 := by
  unfold signatureType
  cases parseType signature with
  | error e => exact ⟨rfl, h⟩
  | ok t =>
    have hstart : Inference.Mirrors ρ ⟨prims, s, start .global, [], []⟩
        ⟨prims, s', start .global, [], []⟩ := ⟨rfl, h, rfl, rfl, rfl⟩
    obtain ⟨hresult, hnext⟩ := (mirrors_resolve t).result hstart
    exact ⟨hresult, hnext.supply⟩

theorem Builtin.mirrors_type {s s' : Supply} (h : s.Mirrors ρ s') (prims : List String) (b : Builtin) :
    (b.type prims s').1 = Except.renumber ρ (Option.map (Ty.renumber ρ)) (b.type prims s).1 ∧
      (b.type prims s).2.Mirrors ρ (b.type prims s').2 := by
  have hsigned : (signatureType prims s' b.signature).1.map some =
        Except.renumber ρ (Option.map (Ty.renumber ρ)) ((signatureType prims s b.signature).1.map some) ∧
      (signatureType prims s b.signature).2.Mirrors ρ (signatureType prims s' b.signature).2 := by
    obtain ⟨hresult, hnext⟩ := mirrors_signatureType h prims b.signature
    refine ⟨?_, hnext⟩
    rw [hresult]
    cases (signatureType prims s b.signature).1 <;> rfl
  unfold Builtin.type
  cases b.kind with
  | function => exact hsigned
  | value =>
    dsimp only
    split
    · exact ⟨by simp [Except.renumber], h⟩
    · exact hsigned
  | other name => exact ⟨rfl, h⟩

/-- Builtins are bound on both sides in the same way, up to the same one that is wrong. -/
theorem Bound.Mirrors.bindAll {b b' : Bound} (h : b.Mirrors ρ b') (prims : List String)
    (bs : List (String × Builtin)) :
    (Bound.bindAll prims b' bs).2 = Except.renumber ρ id (Bound.bindAll prims b bs).2 ∧
      (Bound.bindAll prims b bs).1.Mirrors ρ (Bound.bindAll prims b' bs).1 := by
  induction bs generalizing b b' with
  | nil => exact ⟨rfl, h⟩
  | cons e bs ih =>
    obtain ⟨name, builtin⟩ := e
    obtain ⟨htype, hsupply⟩ := builtin.mirrors_type h.supply prims
    rw [Bound.bindAll, Bound.bindAll]
    cases hb : builtin.type prims b.supply with
    | mk found supply =>
      cases hb' : builtin.type prims b'.supply with
      | mk found' supply' =>
        rw [hb, hb'] at htype hsupply
        simp only at htype hsupply
        subst htype
        cases found with
        | error e => exact ⟨rfl, h.frame, hsupply⟩
        | ok t =>
          cases t with
          | none => exact ih ⟨h.frame, hsupply⟩
          | some t =>
            refine ih ⟨?_, hsupply⟩
            show b'.frame.declare name (generalize [b'.frame] (t.renumber ρ)) = _
            rw [h.frame, Frame.renumber_declare, ← generalize_renumber]
            rfl

/-! ## Checkers -/

theorem CheckError.mapTypes_renumber {f f' : Ty → Ty}
    (hf : ∀ t, f' (t.renumber ρ) = (f t).renumber ρ) (errors : List UnifyError) :
    mapTypes f' (unsolvable (errors.map (UnifyError.renumber ρ))) =
      (mapTypes f (unsolvable errors)).renumber ρ := by
  simp only [mapTypes, CheckError.renumber, map_map]
  refine congrArg unsolvable (map_congr_left fun e _ => ?_)
  exact UnifyError.mapTypes_renumber hf e

/-- The types of a program's variables under other numbers. -/
def Typing.renumber (ρ : Renumbering) (r : Typing) : Typing :=
  ⟨r.program, r.slots.map fun e => (e.1, e.2.renumber ρ)⟩

namespace Checker

/-- The second checker is the first under other numbers. -/
structure Mirrors (ρ : Renumbering) (c c' : Checker) : Prop where
  primitives : c'.primitives = c.primitives
  supply : c.supply.Mirrors ρ c'.supply
  scope : c'.scope = c.scope.renumber ρ
  constraints : c'.constraints = c.constraints.map (Constraint.renumber ρ)
  subst : c.subst.Renamed ρ c'.subst
  error : c'.error = c.error.map (CheckError.renumber ρ)

/-- The checker after some names were looked up, one after another. -/
def asking (c : Checker) (names : List String) : Checker :=
  names.foldl (fun c name => (c.settle (c.declared name)).2) c

namespace Mirrors

variable {c c' : Checker}

theorem level (h : c.Mirrors ρ c') (hρ : ρ.KeepsTails) :
    Attachments.Mirrors.Level ρ c.supply.attachments c'.supply.attachments :=
  h.supply.attachments.toLevel hρ

theorem withAttachments (h : c.Mirrors ρ c') {a a' : Attachments} (ha : a.Mirrors ρ a') :
    (c.withAttachments a).Mirrors ρ (c'.withAttachments a') :=
  ⟨h.primitives, ⟨h.supply.count, ha⟩, h.scope, h.constraints, h.subst, h.error⟩

theorem declared (h : c.Mirrors ρ c') (name : String) : c'.declared name = (c.declared name).renumber ρ := by
  unfold Checker.declared
  rw [h.scope, lookup?_renumber]
  cases c.scope.lookup? name <;> rfl

theorem settle (h : c.Mirrors ρ c') (hρ : ρ.KeepsTails) (t : Ty) :
    (c'.settle (t.renumber ρ)).1 = (c.settle t).1.renumber ρ ∧
      (c.settle t).2.Mirrors ρ (c'.settle (t.renumber ρ)).2 := by
  obtain ⟨htype, hnext⟩ := (h.level hρ).apply h.subst.toMirrors t
  exact ⟨htype, h.withAttachments hnext.toMirrors⟩

theorem asking (h : c.Mirrors ρ c') (hρ : ρ.KeepsTails) (names : List String) :
    (c.asking names).Mirrors ρ (c'.asking names) := by
  induction names generalizing c c' with
  | nil => exact h
  | cons name names ih =>
    have hnext := (h.settle hρ (c.declared name)).2
    rw [← h.declared name] at hnext
    exact ih hnext

theorem lookup (h : c.Mirrors ρ c') (hρ : ρ.KeepsTails) (name : String) :
    c'.lookup name = (c.lookup name).renumber ρ := by
  unfold Checker.lookup Checker.solved
  rw [h.declared name]
  exact (h.settle hρ _).1

theorem settleSlots (h : c.Mirrors ρ c') (hρ : ρ.KeepsTails) (slots : List (Nat × Ty)) :
    (c'.settleSlots (slots.map fun e => (e.1, e.2.renumber ρ))).1 =
        ((c.settleSlots slots).1.map fun e => (e.1, e.2.renumber ρ)) ∧
      (c.settleSlots slots).2.Mirrors ρ
        (c'.settleSlots (slots.map fun e => (e.1, e.2.renumber ρ))).2 := by
  induction slots generalizing c c' with
  | nil => exact ⟨rfl, h⟩
  | cons e slots ih =>
    obtain ⟨htype, hnext⟩ := h.settle hρ e.2
    obtain ⟨hrest, hlast⟩ := ih hnext
    refine ⟨?_, hlast⟩
    show (e.1, (c'.settle (e.2.renumber ρ)).1) ::
        ((c'.settle (e.2.renumber ρ)).2.settleSlots (slots.map fun e => (e.1, e.2.renumber ρ))).1 =
      (e.1, (c.settle e.2).1.renumber ρ) ::
        (((c.settle e.2).2.settleSlots slots).1.map fun e => (e.1, e.2.renumber ρ))
    rw [htype, hrest]

end Mirrors

end Checker

/-- The second outcome is the first under other numbers. What is logged is left out. -/
structure Outcome.Mirrors (ρ : Renumbering) (o o' : Outcome) : Prop where
  checker : o.checker.Mirrors ρ o'.checker
  typing : o'.typing = o.typing.map (Typing.renumber ρ)
  error : o'.error = o.error.map (CheckError.renumber ρ)

/-- The variables of equations were generated. -/
theorem Inference.Owned.mentions {w : Owners} {σ : Inference} (h : σ.Owned w) {id : String}
    (hid : Constraint.Mentions σ.constraints id) : ∃ n, id = Var.generatedId n ∧ n < σ.supply.count := by
  obtain ⟨c, hc, -, hid | hid⟩ := hid
  · exact h.supply.number_lt (h.constraints c hc).1 hid
  · exact h.supply.number_lt (h.constraints c hc).2 hid

namespace Checker

variable {c c' : Checker}

theorem Mirrors.fail (h : c.Mirrors ρ c') (e : CheckError) (log log' : List String) :
    (c.fail e log).Mirrors ρ (c'.fail (e.renumber ρ) log') :=
  ⟨⟨h.primitives, h.supply, h.scope, h.constraints, h.subst, rfl⟩, rfl, rfl⟩

/-- The equations of a program are solved on both sides in the same way. -/
theorem Mirrors.finish (h : c.Mirrors ρ c') (hρ : ρ.KeepsTails)
    (ha : c.supply.attachments.Coherent) (hcs : Constraint.Fit c.supply.attachments c.constraints)
    (horder : ρ.KeepsOrder (Constraint.Mentions c.constraints)) (global : Frame) (program : Node)
    (slots : List (Nat × Ty)) (log log' : List String) : (c.finish global program slots log).Mirrors ρ
      (c'.finish (global.renumber ρ) program (slots.map fun e => (e.1, e.2.renumber ρ)) log') := by
  have hinstances : Scope.instances [global.renumber ρ] = Scope.instances [global] :=
    instances_renumber [global]
  have hsolved := mirrors_solve (instances [global]) (h.level hρ) ha hcs horder
  unfold Checker.finish
  dsimp only
  rw [hinstances, h.constraints]
  generalize solve (instances [global]) c.supply.attachments c.constraints = x at hsolved ⊢
  generalize solve (instances [global]) c'.supply.attachments
    (c.constraints.map (renumber ρ)) = x' at hsolved ⊢
  have hnext : Checker.Mirrors ρ { c.withAttachments x.attachments with subst := x.subst }
      { c'.withAttachments x'.attachments with subst := x'.subst } :=
    ⟨h.primitives, ⟨h.supply.count, hsolved.attachments.toMirrors⟩, h.scope, h.constraints,
      hsolved.subst, h.error⟩
  have hempty : x'.failures.isEmpty = x.failures.isEmpty := by
    rw [hsolved.failures]
    simp
  rw [hempty]
  split
  · obtain ⟨hslots, hlast⟩ := hnext.settleSlots hρ slots
    refine ⟨hlast, ?_, rfl⟩
    show some (Typing.mk program _) = some (Typing.mk program _)
    rw [hslots]
  · have herrors : x'.failures.map Failure.error =
        (x.failures.map Failure.error).map (UnifyError.renumber ρ) := by
      rw [hsolved.failures, map_map, map_map]
      rfl
    have hfail := CheckError.mapTypes_renumber hsolved.attachments.current (x.failures.map Failure.error)
    rw [← herrors] at hfail
    show Outcome.Mirrors ρ (Checker.fail _ (CheckError.mapTypes x.attachments.current _) _)
      (Checker.fail _ (CheckError.mapTypes x'.attachments.current _) _)
    rw [hfail]
    exact hnext.fail _ _ _

/-- To solve equations makes no variables. -/
theorem count_finish (c : Checker) (global : Frame) (program : Node) (slots : List (Nat × Ty))
    (log : List String) : (c.finish global program slots log).checker.supply.count = c.supply.count := by
  unfold finish
  dsimp only
  split
  · obtain ⟨a, -, heq⟩ := settleSlots_eq _ slots
    rw [heq]
    rfl
  · rfl

theorem Mirrors.inferred (h : c.reset.Mirrors ρ c'.reset) {σ σ' : Inference} (hσ : σ.Mirrors ρ σ') :
    (c.inferred σ).Mirrors ρ (c'.inferred σ') := by
  refine ⟨h.primitives, hσ.supply, ?_, hσ.constraints, h.subst, h.error⟩
  show σ'.scope.drop (σ'.scope.length - 2) = Scope.renumber ρ (σ.scope.drop (σ.scope.length - 2))
  rw [hσ.scope]
  simp only [Scope.renumber, length_map, map_drop]

/-- From checkers that mirror each other when they forget their last check, a check comes to the same
under other numbers, if these are in the same order as far as variables are made. -/
theorem run_mirrors (h : c.reset.Mirrors ρ c'.reset) (hρ : ρ.KeepsTails) (hunfilled : c.Unfilled)
    (program : Node) (builtins : Builtins) (horder : ρ.KeepsOrder fun id =>
      ∃ n, id = Var.generatedId n ∧ n < (c.run program builtins).checker.supply.count) :
    (c.run program builtins).Mirrors ρ (c'.run program builtins) := by
  cases hm : program.isMissing with
  | true =>
    rw [run, run, hm]
    exact h.fail .emptyProgram [] []
  | false =>
    have hprims : c'.primitives = c.primitives := h.primitives
    have hstart : Bound.Mirrors ρ ⟨.global, c.reset.supply, []⟩ ⟨.global, c'.reset.supply, []⟩ :=
      ⟨rfl, h.supply⟩
    obtain ⟨hresult, hbound⟩ := hstart.bindAll c.primitives builtins
    obtain ⟨w, howned⟩ := hunfilled.bound builtins
    rw [← hprims] at hresult hbound
    cases hb' : Bound.bindAll c'.primitives ⟨.global, c'.reset.supply, []⟩ builtins with
    | mk b' r' =>
      rw [hb', hprims] at hresult hbound
      cases hb : Bound.bindAll c.primitives ⟨.global, c.reset.supply, []⟩ builtins with
      | mk b r =>
        rw [hb] at hresult hbound howned
        simp only at hresult hbound howned
        subst hresult
        cases r with
        | error e =>
          obtain ⟨log, hrun⟩ := run_unbound hm hb
          obtain ⟨log', hrun'⟩ := run_unbound hm hb'
          rw [hrun, hrun']
          have hnext : Mirrors ρ { c.reset with supply := b.supply, scope := start b.frame }
              { c'.reset with supply := b'.supply, scope := start b'.frame } := by
            refine ⟨h.primitives, hbound.supply, ?_, h.constraints, h.subst, h.error⟩
            rw [renumber_start, ← hbound.frame]
          exact hnext.fail e log log'
        | ok =>
          have hinitial : (c.initial b).Mirrors ρ (c'.initial b') := by
            refine ⟨hprims, hbound.supply, ?_, rfl, rfl⟩
            show start b'.frame = (start b.frame).renumber ρ
            rw [renumber_start, ← hbound.frame]
          obtain ⟨hfound, hσ⟩ := (mirrors_infer hρ program.numbered).result hinitial
          obtain ⟨w', hkept, -⟩ := keeps_infer program.numbered w _ (howned.initial c)
          cases hx : (infer program.numbered).run.run (c.initial b) with
          | mk found σ =>
            cases hx' : (infer program.numbered).run.run (c'.initial b') with
            | mk found' σ' =>
              rw [hx, hx'] at hfound hσ
              rw [hx] at hkept
              simp only at hfound hσ hkept
              subst hfound
              cases found with
              | error e =>
                rw [run_untyped hm hb hx, run_untyped hm hb' hx']
                exact (Mirrors.inferred h hσ).fail e _ _
              | ok t =>
                rw [run_inferred hm hb hx, count_finish] at horder
                rw [run_inferred hm hb hx, run_inferred hm hb' hx', hbound.frame, hσ.slots]
                obtain ⟨hlater, -⟩ := infer_typed _ (c.sound_initial (fits_bound hb)) hx
                refine (Mirrors.inferred h hσ).finish hρ hlater.sound.coherent (fun d hd _ => ?_)
                  (fun y z hy hz => ?_) b.frame program.numbered σ.slots _ _
                · exact ⟨(hlater.sound.constraints d hd).1.coherent,
                    (hlater.sound.constraints d hd).2.coherent⟩
                · exact horder y z (hkept.owned.mentions hy) (hkept.owned.mentions hz)

/-- A check starts as in a new checker, with numbers that are larger. -/
theorem Unfilled.mirrors_reset (h : c.Unfilled) :
    (new c.primitives).reset.Mirrors (.shift c.supply.count c.supply.attachments.next) c.reset where
  primitives := rfl
  supply := by
    refine ⟨fun i => ?_, fun i => ?_, fun cell => ?_, fun i => rfl, fun n => rfl⟩
    · show 0 + i + c.supply.count = c.supply.count + i
      omega
    · show 0 + i + c.supply.attachments.next = c.supply.attachments.next + i
      rw [Nat.zero_add, Nat.add_comm]
    · show c.supply.attachments.get? (cell + c.supply.attachments.next) = none
      exact h _ (Nat.le_add_left ..)
  scope := rfl
  constraints := rfl
  subst := Subst.renamed_nil
  error := rfl

/-- A text that can be read is checked as a program. -/
theorem check_of_parseProgram {source : String} {program : Node} (h : parseProgram source = .ok program)
    (c : Checker) (name : String) (builtins : Builtins) : c.check name source builtins =
      { c.run program builtins with error := (c.run program builtins).error.map (inFile name) } := by
  unfold parseProgram at h
  unfold check
  cases hts : tokenize source with
  | error e =>
    rw [hts] at h
    cases h
  | ok ts =>
    rw [hts] at h
    change (parseTokens ts).mapError SourceError.parse = .ok program at h
    unfold parseTokens at h
    dsimp only
    split
    next body e hread =>
      rw [hread] at h
      cases h
    next body hread =>
      rw [hread] at h
      cases h
      rfl

theorem Reachable.check (h : c.Reachable) (name source : String) (builtins : Builtins) :
    (c.check name source builtins).checker.Reachable := by
  unfold Checker.check
  split
  · exact h
  · split
    · exact h
    · exact h.run _ builtins

end Checker

namespace Outcome

/-- All that a check can be asked for is the same on the second side, under other numbers: the error, the
types of variables, the equations, the bindings, whatever is looked up after other names, and the
classes that are attached to a type. -/
structure SameUnder (ρ : Renumbering) (o o' : Outcome) : Prop where
  error : o'.error = o.error.map (CheckError.renumber ρ)
  lastError : o'.checker.error = o.checker.error.map (CheckError.renumber ρ)
  typing : o'.typing = o.typing.map (Typing.renumber ρ)
  constraints : o'.checker.constraints = o.checker.constraints.map (Constraint.renumber ρ)
  subst : o'.checker.subst.Perm (o.checker.subst.map fun e => (ρ.id e.1, e.2.renumber ρ))
  lookup : ∀ asked name, (o'.checker.asking asked).lookup name =
    ((o.checker.asking asked).lookup name).renumber ρ
  classes : ∀ t, o'.checker.supply.attachments.classes (t.renumber ρ) =
    o.checker.supply.attachments.classes t

theorem Mirrors.sameUnder {o o' : Outcome} (h : o.Mirrors ρ o') (hρ : ρ.KeepsTails) : o.SameUnder ρ o' where
  error := h.error
  lastError := h.checker.error
  typing := h.typing
  constraints := h.checker.constraints
  subst := h.checker.subst.perm
  lookup asked name := (h.checker.asking hρ asked).lookup hρ name
  classes t := h.checker.supply.attachments.classes t

end Outcome

namespace Checker

/-- A check does not depend on the checks before, but for the numbers of variables and cells: it comes to
what it comes to in a new checker, with all numbers larger by the number of variables, and of cells, that
were made before. -/
theorem check_shifted {c : Checker} (h : c.Reachable) (name source : String)
    (builtins : Builtins) (hparse : (parseProgram source).isOk = true)
    (hbound : ((new c.primitives).check name source builtins).checker.supply.count + c.supply.count ≤
      Var.numberBound) :
    ((new c.primitives).check name source builtins).SameUnder
        (.shift c.supply.count c.supply.attachments.next) (c.check name source builtins) ∧
      (c.check name source builtins).checker.supply.count =
        ((new c.primitives).check name source builtins).checker.supply.count + c.supply.count := by
  obtain ⟨program, hprogram⟩ : ∃ program, parseProgram source = .ok program := by
    cases hp : parseProgram source with
    | error e =>
      rw [hp] at hparse
      cases hparse
    | ok program => exact ⟨program, rfl⟩
  have hρ := Renumbering.keepsTails_shift c.supply.count c.supply.attachments.next
  rw [check_of_parseProgram hprogram] at hbound
  change ((new c.primitives).run program builtins).checker.supply.count + c.supply.count ≤ _ at hbound
  have hrun := run_mirrors h.unfilled.mirrors_reset hρ (Reachable.new c.primitives).unfilled program builtins
    (Renumbering.keepsOrder_shift _ fun id hid => by
      obtain ⟨n, hn, hlt⟩ := hid
      exact ⟨n, hn, by omega⟩)
  have hfile (e : CheckError) : (inFile name e).renumber (.shift c.supply.count c.supply.attachments.next) =
      inFile name (e.renumber (.shift c.supply.count c.supply.attachments.next)) := by
    unfold inFile
    split <;> rfl
  rw [check_of_parseProgram hprogram, check_of_parseProgram hprogram]
  refine ⟨Outcome.Mirrors.sameUnder ⟨hrun.checker, hrun.typing, ?_⟩ hρ, ?_⟩
  · show ((c.run program builtins).error).map (inFile name) = _
    rw [hrun.error]
    cases ((new c.primitives).run program builtins).error with
    | none => rfl
    | some e => exact congrArg some (hfile e).symm
  · exact (hrun.checker.supply.count 0).symm

/-- A text that makes two variables, checked after one that made a variable and failed. -/
theorem check_shifted_after_failure :
    let failed := (new defaultPrimitives).check "first" "let xs = [zs]; let y = xs + 1;" []
    let c := failed.checker
    (failed.error.isSome = true ∧ c.supply.count = 1) ∧
      ((new c.primitives).check "second" "let xs = zs; xs.width;" []).SameUnder
        (.shift c.supply.count c.supply.attachments.next) (c.check "second" "let xs = zs; xs.width;" []) ∧
      (c.check "second" "let xs = zs; xs.width;" []).checker.supply.count =
        ((new c.primitives).check "second" "let xs = zs; xs.width;" []).checker.supply.count +
          c.supply.count := by
  refine ⟨by decide +kernel, check_shifted ((Reachable.new _).check _ _ _) _ _ _ ?_ ?_⟩
  · decide +kernel
  · decide +kernel

end Checker

end ScriptTyping
