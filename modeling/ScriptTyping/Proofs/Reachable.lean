import ScriptTyping.Proofs.Signatures
import ScriptTyping.Proofs.Visits

/-!
# Checkers that can be reached

A checker is new, or comes from another by a check or by a question for the solved form of a type. The
supply goes on from one check to the next, also after one that failed. What is attached to a cell is
attached after the cell was made: so each check starts with cells that hold nothing, however the ones
before it ended.

Main statement: `Checker.Reachable.unfilled`.
-/

namespace ScriptTyping

open Ty Attachments Infer List

variable {w : Owners}

/-! ## Solutions -/

section

variable {a : Attachments} {t : Ty}

theorem Ty.Owned.known (h : t.Owned w) : t.Known w.Owns := by
  refine h.imp (fun _ _ hv => hv) (fun l hl c hc v hv => ?_) fun l hl c hc => ?_
  · rintro rfl
    obtain ⟨i, hi, -⟩ := hv
    rw [(hl _ hc).1] at hi
    cases hi
  · rw [hl.1] at hc
    cases hc

theorem Supply.Owned.serves {s : Supply} (h : s.Owned w) : s.attachments.Serves w.Owns :=
  ⟨fun _ ⟨_, hi, _⟩ => h.cell_lt hi, h.unfilled⟩

theorem Supply.Owned.knownTails {s : Supply} (h : s.Owned w) :
    s.attachments.AllTails w.Owns (Label.Apart w.Owns) (Label.Apart w.Owns) :=
  fun d hd f hf => Ty.Owned.known (h.tails d hd f hf)

/-- Equations are solved with the variables that they have. -/
theorem Inference.Owned.over_solve {σ : Inference} (h : σ.Owned w) (reg : Registry) :
    (Constraint.solve reg σ.supply.attachments σ.constraints).Over (Since w.Owns σ.supply.attachments)
      w.Owns (Label.Apart w.Owns) (Label.Apart w.Owns) := by
  unfold Constraint.solve
  rw [Constraint.solveWith_eq_upTo]
  have hover := Solution.over_upTo reg false (passing_known false w.Owns σ.supply.attachments)
    ⟨h.supply.serves, .of_sets (Eq.refl _)⟩ h.supply.knownTails
    (fun c hc _ => ⟨(h.constraints c hc).1.known, (h.constraints c hc).2.known⟩) (Nat.le_refl _)
  exact ⟨hover.attachments, hover.tails, hover.bindings⟩

end

/-! ## Checkers -/

namespace Checker

/-- A checker that is new, or that a check or a question leaves. -/
inductive Reachable : Checker → Prop
  | new (primitives : List String) : Reachable (new primitives)
  | run {c} (h : Reachable c) (program : Node) (builtins : Builtins) : Reachable (c.run program builtins).checker
  | settle {c} (h : Reachable c) (t : Ty) : Reachable (c.settle t).2

/-- Cells that were not made hold nothing. -/
def Unfilled (c : Checker) : Prop :=
  ∀ cell, c.supply.attachments.next ≤ cell → c.supply.attachments.get? cell = none

variable {c : Checker}

/-- A check starts with cells that are all made for no variable that it can use. -/
theorem Unfilled.owned (h : c.Unfilled) :
    c.reset.supply.Owned (List.replicate c.supply.attachments.next .other) where
  length := length_replicate
  unfilled := h
  numbers cell o i hc ho := by
    obtain rfl := eq_of_mem_replicate (mem_of_getElem? hc)
    cases ho
  one cell _ o _ i hc _ ho := by
    obtain rfl := eq_of_mem_replicate (mem_of_getElem? hc)
    cases ho
  tails := by simp [AllTails, reset, withAttachments]

/-- No builtin is bound yet. -/
theorem Unfilled.sealed (h : c.Unfilled) :
    Bound.Sealed (List.replicate c.supply.attachments.next .other) ⟨.global, c.reset.supply, []⟩ := by
  refine ⟨h.owned, fun cell i hc => ?_, rfl, Frame.all_global⟩
  cases eq_of_mem_replicate (mem_of_getElem? hc)

theorem Unfilled.bound (h : c.Unfilled) (builtins : Builtins) :
    ∃ w, (Bound.bindAll c.primitives ⟨.global, c.reset.supply, []⟩ builtins).1.Owned w :=
  h.sealed.bindAll c.primitives builtins

theorem Unfilled.settle (h : c.Unfilled) (t : Ty) : (c.settle t).2.Unfilled := by
  obtain ⟨hsets, hnext⟩ := (c.supply.attachments.rewrites_revise (s := c.subst) t).sets
  intro cell hcell
  show (c.supply.attachments.revise c.subst t).get? cell = none
  rw [get?_of_sets hsets]
  refine h cell ?_
  rw [← hnext]
  exact hcell

/-- Whatever comes of the equations of a program, the checker has the bindings that were found, and what is
attached to cells after that. -/
theorem finish_checker (c : Checker) (global : Frame) (program : Node) (slots : List (Nat × Ty))
    (log : List String) :
    let r := Constraint.solve (Scope.instances [global]) c.supply.attachments c.constraints
    ∃ a error, r.attachments.Rewrites r.subst a ∧ (c.finish global program slots log).checker =
      { c.withAttachments a with subst := r.subst, error := error } := by
  intro r
  unfold finish
  dsimp only
  split
  · obtain ⟨a, hrewrites, heq⟩ := settleSlots_eq { c.withAttachments r.attachments with subst := r.subst } slots
    exact ⟨a, c.error, hrewrites, heq⟩
  · exact ⟨r.attachments, _, .refl, rfl⟩

theorem unfilled_finish {σ : Inference} (h : σ.Owned w) (c : Checker) (global : Frame) (program : Node)
    (slots : List (Nat × Ty)) (log : List String) :
    ((c.inferred σ).finish global program slots log).checker.Unfilled := by
  obtain ⟨a, error, hrewrites, heq⟩ := (c.inferred σ).finish_checker global program slots log
  obtain ⟨hsets, hnext⟩ := hrewrites.sets
  intro cell hcell
  rw [heq] at hcell ⊢
  show a.get? cell = none
  rw [get?_of_sets hsets]
  exact (h.over_solve _).attachments.1.unfilled cell (hnext ▸ hcell)

theorem Unfilled.run (h : c.Unfilled) (program : Node) (builtins : Builtins) :
    (c.run program builtins).checker.Unfilled := by
  cases hm : program.isMissing with
  | true =>
    rw [Checker.run, hm]
    exact h
  | false =>
    obtain ⟨w, hbound⟩ := h.bound builtins
    cases hb : Bound.bindAll c.primitives ⟨.global, c.reset.supply, []⟩ builtins with
    | mk b r =>
      rw [hb] at hbound
      cases r with
      | error e =>
        obtain ⟨log, hrun⟩ := run_unbound hm hb
        rw [hrun]
        exact hbound.supply.unfilled
      | ok =>
        obtain ⟨w', hkept, -⟩ := keeps_infer program.numbered w _ (hbound.initial c)
        cases hx : (infer program.numbered).run.run (c.initial b) with
        | mk found σ =>
          rw [hx] at hkept
          cases found with
          | error e =>
            rw [run_untyped hm hb hx]
            exact hkept.owned.supply.unfilled
          | ok t =>
            rw [run_inferred hm hb hx]
            exact unfilled_finish hkept.owned c _ _ _ _

/-- Cells that were not made hold nothing in any checker that can be reached. -/
theorem Reachable.unfilled (h : c.Reachable) : c.Unfilled := by
  induction h with
  | new primitives =>
    intro cell _
    rfl
  | run _ program builtins ih => exact ih.run program builtins
  | settle _ t ih => exact ih.settle t

end Checker

end ScriptTyping
