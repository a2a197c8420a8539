import ScriptTyping.Proofs.Course

/-!
# Unification ends

Unification calls itself on the parts of two types, after it has applied to them what was found for the
parts before. These pairs can be far larger than the two types. **Theorem (`calls_end`).** Still each of
them has fewer different variables than the two types, or no more of them and fewer nodes. So no calls
nest forever, and the rules of unification give each two types exactly one course, the one that the
recursion follows.

`Call.Makes` says which calls a call makes, by the rules alone (`Run`, `RunEach`), without the facts that
the recursion carries along. What was found for the parts before is confined to the variables of the two
types (`RunEach.within`): if it binds one, this one is gone from the next pair, and no other comes in.
-/

namespace ScriptTyping

namespace Unify

variable {reg : Registry} {keep : Bool}

/-! ## One course -/

mutual

/-- Two types have one course only, since no two rules apply to them. -/
theorem Run.unique : ∀ {a : Attachments} {t u : Ty} {c d : Course Subst}, Run reg keep a t u c →
    Run reg keep a t u d → c = d
  | _, _, _, _, _, .missingLeft _ _, h => h.of_missing_left.symm
  | _, _, _, _, _, .missingRight _ _, h => h.of_missing_right.symm
  | _, _, _, _, _, .same _ heq, h => by rw [h.of_vars, if_pos heq]
  | _, _, _, _, _, .vars _ hne, h => by rw [h.of_vars, if_neg hne]
  | _, _, _, _, _, .left _ _ hu, h => (h.of_left hu).symm
  | _, _, _, _, _, .right _ _ ht, h => (h.of_right ht).symm
  | _, _, _, _, _, .parts ht hu heach, h => by
    obtain ⟨e, heach', rfl⟩ := h.of_parts ht hu
    rw [RunEach.unique heach heach']

/-- So have some pairs, since each starts from what the one before it left. -/
theorem RunEach.unique : ∀ {a : Attachments} {s : Subst} {ps : List (Ty × Ty)} {c d : Course Subst},
    RunEach reg keep a s ps c → RunEach reg keep a s ps d → c = d
  | _, _, _, _, _, .nil _ _, h => h.of_nil.symm
  | _, _, _, _, _, .fail hp, h => by
    obtain ⟨e, hp', ⟨_, hr, rfl⟩ | ⟨_, _, hr, -⟩⟩ := h.of_cons
    · obtain rfl := Run.unique hp hp'
      cases hr
      rfl
    · rw [← Run.unique hp hp'] at hr
      cases hr
  | _, _, _, _, _, .next hp hrest, h => by
    obtain ⟨e, hp', ⟨_, hr, -⟩ | ⟨_, _, hr, hrest', rfl⟩⟩ := h.of_cons
    · rw [← Run.unique hp hp'] at hr
      cases hr
    · obtain rfl := Run.unique hp hp'
      cases hr
      rw [RunEach.unique hrest hrest']

end

/-- The course of two types is the one that the recursion follows. -/
theorem run_iff {a : Attachments} {t u : Ty} {c : Course Subst} :
    Run reg keep a t u c ↔ unifyListing reg keep a t u = ((c.attachments, c.result), c.done) := by
  have hrun := run_unifyWithin reg keep a t u
  constructor
  · intro h
    rw [h.unique hrun]
    rfl
  · intro h
    simp only [unifyListing, Prod.mk.injEq] at h
    obtain ⟨⟨hattachments, hresult⟩, hdone⟩ := h
    rwa [Course.forget, hattachments, hresult, hdone] at hrun

/-! ## Calls -/

/-- Two types that are to be unified, and the attachments at that time. -/
structure Call where
  attachments : Attachments
  left : Ty
  right : Ty

namespace Call

/-- How many different variables the two types have. -/
def varCount (c : Call) : Nat := distinct (c.left.ids ++ c.right.ids)

def size (c : Call) : Nat := c.left.size + c.right.size

/-- Constructors and records are unified part by part. For each part there is a call, if all parts
before it could be unified, and it is made with what was found for them. -/
inductive Makes (reg : Registry) (keep : Bool) : Call → Call → Prop
  | part {a b} {t : Ty} {u : Ty} {s p before behind done} (ht : t.Compound) (hu : u.Compound)
    (hparts : (parts t u).pairs = before ++ p :: behind) (hbefore : RunEach reg keep a [] before ⟨b, .ok s, done⟩) :
    Makes reg keep ⟨a, t, u⟩ ⟨b, Subst.apply b s p.1, Subst.apply b s p.2⟩

theorem Makes.smaller {c d : Call} (h : c.Makes reg keep d) : Smaller d.left d.right c.left c.right := by
  obtain @⟨a, b, t, u, s, p, before, behind, _, -, -, hparts, hbefore⟩ := h
  have hmem {q : Ty × Ty} (hq : q ∈ before ++ p :: behind) : Below q t u :=
    below_parts (hparts ▸ hq)
  have hs : s.Within (t.ids ++ u.ids) := by
    refine hbefore.within (Subst.within_nil _) (fun q hq => ?_) rfl
    have hq := hmem (List.mem_append_left _ hq)
    exact ⟨hq.left, hq.right⟩
  exact (hmem (by simp)).smaller hs b

/-- No calls nest forever. -/
theorem wellFounded_makes (reg : Registry) (keep : Bool) : WellFounded fun d c : Call => c.Makes reg keep d :=
  Subrelation.wf (fun h => h.smaller.lex)
    (InvImage.wf (fun c : Call => (c.varCount, c.size)) (Prod.lex Nat.lt_wfRel Nat.lt_wfRel).wf)

end Call

/-- Each call is on a pair with fewer different variables, or with no more of them and fewer nodes; no
calls nest forever; and each two types have exactly the course that the recursion gives. -/
theorem calls_end (reg : Registry) (keep : Bool) : (∀ c d : Call, c.Makes reg keep d →
        d.varCount < c.varCount ∨ d.varCount ≤ c.varCount ∧ d.size < c.size) ∧
      (WellFounded fun d c : Call => c.Makes reg keep d) ∧
      ∀ (c : Call) (r : Course Subst), Run reg keep c.attachments c.left c.right r ↔
        unifyListing reg keep c.attachments c.left c.right =
          ((r.attachments, r.result), r.done) :=
  ⟨fun _ _ h => h.smaller, Call.wellFounded_makes reg keep, fun _ _ => run_iff⟩

end Unify

end ScriptTyping
