import ScriptTyping.Proofs.Solving

/-!
# Solutions are most general

On equations between types without records, gaps and classes, solving is complete: a valuation that
makes the sides of all equations one makes none of them fail, and absorbs all that is bound. So the
solution is at least as general as the valuation.

On such types nothing ever happens to tails, and a step only unifies: `Solution.step_plain_ok`,
`Solution.step_plain_error`.
-/

namespace ScriptTyping

open Ty Unify List Solution Subst

variable {reg : Registry} {keep : Bool} {a : Attachments} {r : Solution} {c : Constraint}
  {cs : List Constraint} {number : Nat} {t : Ty} {e : UnifyError}

theorem UnifyError.Structural.mapTypes (h : e.Structural) (f : Ty → Ty) : (e.mapTypes f).Structural := by
  cases e with
  | mismatch => trivial
  | occurs => trivial
  | _ => exact h

namespace Solution

variable {d : Attachments}

/-! ## Steps on types without records -/

/-- All that is applied on the way has no records. -/
theorem Plain.done (h : r.Plain) (hl : c.left.Plain) (hr : c.right.Plain) {result : Except UnifyError Subst}
    {done : List Attachments.Application} (hat : r.attempt reg keep c = ⟨d, result, done⟩) :
    ∀ x ∈ r.prepared c ++ done, x.2.Plain := by
  have hrun := run_attempt reg keep r c
  rw [hat] at hrun
  intro x hx
  rcases mem_append.1 hx with hx | hx
  · have hmem := (Attachments.mem_applications hx).2
    rw [r.attachments.current_of_tailless hl.tailless, r.attachments.current_of_tailless hr.tailless] at hmem
    rcases mem_cons.1 hmem with heq | hmem
    · exact heq ▸ hl
    · exact mem_singleton.1 hmem ▸ hr
  · exact ((Run.over stable_plain hrun trivial (h.plain_applied hl) (h.plain_applied hr)).done x hx).1

theorem step_plain_error (h : r.Plain) (hl : c.left.Plain) (hr : c.right.Plain)
    {done : List Attachments.Application} (hk : c.kind = .equality)
    (hat : r.attempt reg keep c = ⟨d, .error e, done⟩) :
    step reg keep r number c = ⟨d, r.subst, r.failures ++ [⟨number, e.mapTypes d.current⟩]⟩ := by
  rw [step_error hk hat, h.bindings, d.replay_of_tailless fun x hx => (h.done hl hr hat x hx).tailless]

theorem step_plain_ok (h : r.Plain) (hl : c.left.Plain) (hr : c.right.Plain) {q : Subst}
    {done : List Attachments.Application} (hk : c.kind = .equality)
    (hat : r.attempt reg keep c = ⟨d, .ok q, done⟩) :
    step reg keep r number c = ⟨(d.extend keep q r.subst).2, (d.extend keep q r.subst).1, r.failures⟩ := by
  rw [step_ok hk hat, h.bindings, Attachments.replay_of_tailless]
  intro x hx
  rcases mem_append.1 hx with hx | hx
  · exact (h.done hl hr hat x hx).tailless
  · obtain ⟨e, he, heq⟩ := mem_map.1 (Attachments.mem_applications hx).2
    exact heq ▸ (h e he).tailless

/-! ## Completeness -/

section Complete

variable {A M : Attachments → Prop} {P : Ty → Prop} {θ : Valuation} {i : Nat}

/-- What is bound is such that `P`, and the attachments such that `A`. -/
structure Kept (A : Attachments → Prop) (P : Ty → Prop) (r : Solution) : Prop where
  attachments : A r.attachments
  subst : ∀ e ∈ r.subst, P e.2
  sorted : Dict.Sorted r.subst

namespace Kept

theorem plain (h : r.Kept A P) (hplain : ∀ t, P t → t.Plain) : r.Plain := fun e he => hplain _ (h.subst e he)

theorem applied (h : r.Kept A P) (hP : Stable keep A P) (hplain : ∀ t, P t → t.Plain) (ht : P t) :
    P (r.applied t) := by
  rw [(h.plain hplain).applied (hplain t ht)]
  exact hP.apply _ _ _ h.attachments ht h.subst

theorem course (h : r.Kept A P) (hP : Stable keep A P) (hplain : ∀ t, P t → t.Plain) (hl : P c.left)
    (hr : P c.right) {x : Course Subst} (hat : r.attempt reg keep c = x) : x.Over A P :=
  Run.over hP (run_of_attempt hat) h.attachments (h.applied hP hplain hl) (h.applied hP hplain hr)

theorem step (reg : Registry) (number : Nat) (h : r.Kept A P) (hP : Stable keep A P) (hplain : ∀ t, P t → t.Plain)
    (hc : c.kind = .equality → P c.left ∧ P c.right) : (step reg keep r number c).Kept A P := by
  have hr := h.plain hplain
  rcases r.attempt_cases reg keep c with hk | ⟨hk, d, e, done, hat⟩ | ⟨hk, d, q, done, hat⟩
  · rwa [step_of_ne_equality reg keep r number hk]
  · obtain ⟨hl, hr'⟩ := hc hk
    rw [step_plain_error hr (hplain _ hl) (hplain _ hr') hk hat]
    exact ⟨(h.course hP hplain hl hr' hat).attachments, h.subst, h.sorted⟩
  · obtain ⟨hl, hr'⟩ := hc hk
    have hgood := ((run_of_attempt hat).sound (hplain _ (h.applied hP hplain hl)).proper
      (hplain _ (h.applied hP hplain hr')).proper rfl).1
    have hover := h.course hP hplain hl hr' hat
    obtain ⟨-, hall, hlast⟩ := hP.next hover.attachments h.subst (hover.found q rfl)
    rw [step_plain_ok hr (hplain _ hl) (hplain _ hr') hk hat]
    exact ⟨hlast, hall, sorted_extend keep d hgood.sorted h.sorted⟩

end Kept

theorem kept_start (ha : A a) : (start a).Kept A P := ⟨ha, by simp [start], Dict.sorted_nil⟩

theorem kept_upTo (reg : Registry) (hP : Stable keep A P) (hplain : ∀ t, P t → t.Plain) (ha : A a)
    (hcs : ∀ c ∈ cs, c.kind = .equality → P c.left ∧ P c.right) (hi : i ≤ cs.length) :
    (upTo reg keep a cs i).Kept A P :=
  upTo_induction (P := fun _ r => r.Kept A P) (kept_start ha)
    (fun i c hc h => h.step reg i hP hplain (hcs c (mem_of_getElem? hc))) hi

/-- No equation failed, the valuation absorbs what is bound, and no class stands against it. -/
structure Follows (A M : Attachments → Prop) (P : Ty → Prop) (θ : Valuation) (r : Solution) : Prop
    extends Kept A P r where
  met : M r.attachments
  absorbs : θ.Absorbs r.subst
  failures : r.failures = []

/-- If a valuation makes the sides of an equation one and absorbs what was bound, the equation does not
fail and the valuation absorbs what it binds. -/
theorem Follows.step (h : r.Follows A M P θ) (hG : Guides reg keep A M P θ) (number : Nat)
    (hc : c.kind = .equality → (P c.left ∧ P c.right) ∧ c.left.inst θ = c.right.inst θ) :
    (step reg keep r number c).Follows A M P θ := by
  have hkept := h.toKept.step reg number hG.toStable hG.plain fun hk => (hc hk).1
  have hr := h.plain hG.plain
  by_cases hk : c.kind = .equality
  · obtain ⟨⟨hl, hr'⟩, heq⟩ := hc hk
    have hx := hG.plain _ hl
    have hy := hG.plain _ hr'
    have hinst : (r.applied c.left).inst θ = (r.applied c.right).inst θ := by
      rw [hr.applied hx, hr.applied hy, h.absorbs.inst_apply, h.absorbs.inst_apply, heq]
    obtain ⟨q, hq, habs, hM⟩ := (run_attempt reg keep r c).complete hG h.attachments h.met
      (h.applied hG.toStable hG.plain hl) (h.applied hG.toStable hG.plain hr') hinst
    cases hat : r.attempt reg keep c with
    | mk d result done =>
      rw [hat] at hq hM
      obtain rfl : result = .ok q := hq
      rw [step_plain_ok hr hx hy hk hat] at hkept ⊢
      exact ⟨hkept, hG.of_sets _ _ (Attachments.sets_extend ..) hM, h.absorbs.next habs h.sorted, h.failures⟩
  · rwa [step_of_ne_equality reg keep r number hk]

/-- A valuation that makes the sides of all equations one absorbs all that is bound. -/
theorem follows_upTo (hG : Guides reg keep A M P θ) (ha : A a) (hM : M a) (hcs : ∀ c ∈ cs, c.kind = .equality →
      (P c.left ∧ P c.right) ∧ c.left.inst θ = c.right.inst θ) (hi : i ≤ cs.length) :
    (upTo reg keep a cs i).Follows A M P θ :=
  upTo_induction (P := fun _ r => r.Follows A M P θ) ⟨kept_start ha, hM, θ.absorbs_nil, rfl⟩
    (fun i c hc h => h.step hG i (hcs c (mem_of_getElem? hc))) hi

end Complete

/-- Equations without classes only fail by the structure of their sides. -/
theorem structural_upTo (reg : Registry) (keep : Bool)
    (hcs : ∀ c ∈ cs, c.kind = .equality → c.left.Simple a ∧ c.right.Simple a) {i : Nat} (hi : i ≤ cs.length) :
    ∀ f ∈ (upTo reg keep a cs i).failures, f.error.Structural := by
  intro f hf
  obtain ⟨hlt, c, hc, hfault⟩ := (mem_failures_upTo hi f).1 hf
  have hP := stable_simple keep a
  have hkept := kept_upTo reg hP (fun _ ht => ht.1) .rfl hcs (Nat.le_trans hlt.le hi)
  unfold fault? at hfault
  split at hfault
  next d e done hk hat =>
    obtain ⟨hl, hr⟩ := hcs c (mem_of_getElem? hc) hk
    rw [← Option.some.inj hfault]
    refine ((run_of_attempt hat).structural hkept.attachments ?_ ?_ e rfl).mapTypes _
    · exact hkept.applied hP (fun _ ht => ht.1) hl
    · exact hkept.applied hP (fun _ ht => ht.1) hr
  next => cases hfault

end Solution

namespace Constraint

variable {u : Ty}

/-- A valuation that makes the sides of all equations one absorbs the solution. -/
theorem solveWith_complete (reg : Registry) (keep : Bool) {θ : Valuation} (hcs : ∀ c ∈ cs, c.kind = .equality →
      (c.left.Simple a ∧ c.right.Simple a) ∧ c.left.inst θ = c.right.inst θ) :
    (solveWith reg keep a cs).failures = [] ∧ θ.Absorbs (solveWith reg keep a cs).subst := by
  have hall := follows_upTo (guides_simple reg keep a θ) .rfl trivial hcs (Nat.le_refl _)
  rw [solveWith_eq_upTo, (hall.plain fun _ ht => ht.1).settled]
  exact ⟨hall.failures, hall.absorbs⟩

/-- The bindings make two types equal. -/
def Unifies (b : Attachments) (th : Subst) (t u : Ty) : Prop :=
  (apply b th t).equal (apply b th u) = true

theorem unifies_iff {b : Attachments} {th : Subst} : Unifies b th t u ↔ t.inst th.val = u.inst th.val := by
  rw [Unifies, equal_iff, bare_apply, bare_apply]

/-- Unification of simple types fails if nothing makes them equal, and then by their structure. -/
theorem unifyListing_error_iff (ht : t.Simple a) (hu : u.Simple a) (b : Attachments) :
    ((∃ e, (unifyListing reg keep a t u).1.2 = .error e) ↔ ¬ ∃ th, Unifies b th t u) ∧
      ∀ e, (unifyListing reg keep a t u).1.2 = .error e → e.Structural := by
  have hrun := run_unifyWithin reg keep a t u
  have hresult : (unifyListing reg keep a t u).1.2 = (unifyWithin reg keep a t u).forget.result := rfl
  rw [hresult]
  refine ⟨⟨?_, fun hnone => ?_⟩, hrun.structural .rfl ht hu⟩
  · rintro ⟨e, he⟩ ⟨th, hth⟩
    obtain ⟨s, hs, -⟩ := hrun.complete (guides_simple reg keep a _) .rfl trivial ht hu (unifies_iff.1 hth)
    rw [he] at hs
    cases hs
  · cases hfound : (unifyWithin reg keep a t u).forget.result with
    | error e => exact ⟨e, rfl⟩
    | ok s =>
      have hplain := (Run.over stable_plain hrun trivial ht.1 hu.1).found s hfound
      have hmatch := (hrun.sound ht.1.proper hu.1.proper hfound).2
      refine absurd ⟨s, ?_⟩ hnone
      rw [Unifies, ← Matches.iff_equal (plain_apply hplain ht.1) (plain_apply hplain hu.1)]
      exact hmatch.of_bare (bare_apply b s t) (bare_apply b s u)

/-- Solving one equation is unification. -/
theorem solveWith_single (reg : Registry) (keep : Bool) (a : Attachments) (ht : t.Plain) (hu : u.Plain) :
    ((solveWith reg keep a [.equal t u]).failures = [] ↔ ∃ s, (unifyListing reg keep a t u).1.2 = .ok s) ∧
      ∀ s, (unifyListing reg keep a t u).1.2 = .ok s → (solveWith reg keep a [.equal t u]).subst.val = s.val := by
  have hstart : (start a).Plain := by simp [Solution.Plain, start]
  have hattempt : (start a).attempt reg keep (.equal t u) =
      (unifyWithin reg keep a t u).forget := by
    have hleft : (start a).applied t = t := hstart.applied ht
    have hright : (start a).applied u = u := hstart.applied hu
    show (unifyWithin reg keep a ((start a).applied t)
      ((start a).applied u)).forget = _
    rw [hleft, hright]
  have hone : upTo reg keep a [.equal t u] 1 =
      step reg keep (.start a) 0 (.equal t u) := rfl
  have hplain : (upTo reg keep a [.equal t u] 1).Plain := by
    rw [hone]
    exact hstart.step fun _ => ⟨ht, hu⟩
  rw [solveWith_eq_upTo, length_singleton, hplain.settled, hone]
  show (_ ↔ ∃ s, (unifyWithin reg keep a t u).forget.result = .ok s) ∧
    ∀ s, (unifyWithin reg keep a t u).forget.result = .ok s → _
  cases hat : (unifyWithin reg keep a t u).forget with
  | mk d result done =>
    cases result with
    | error e =>
      rw [step_plain_error hstart ht hu rfl (hattempt.trans hat)]
      simp
    | ok q =>
      rw [step_plain_ok hstart ht hu rfl (hattempt.trans hat)]
      refine ⟨⟨fun _ => ⟨q, rfl⟩, fun _ => rfl⟩, ?_⟩
      rintro _ ⟨⟩
      funext id
      exact val_extend Dict.sorted_nil id

/-- If something makes the sides of all equations equal, none fails, and it makes all types equal to
what they are under the solution. Equations only fail by their structure, and a single one exactly if
nothing makes its sides equal. -/
theorem solveWith_general (reg : Registry) (keep : Bool) (a : Attachments) (cs : List Constraint)
    (hcs : ∀ c ∈ cs, c.kind = .equality → c.left.Simple a ∧ c.right.Simple a) :
    (∀ b th, (∀ c ∈ cs, c.kind = .equality → Unifies b th c.left c.right) →
      (solveWith reg keep a cs).failures = [] ∧
        ∀ t, (Subst.apply b th (Subst.apply b (solveWith reg keep a cs).subst t)).equal
          (Subst.apply b th t) = true) ∧
    (∀ f ∈ (solveWith reg keep a cs).failures, f.error.Structural) ∧ ∀ t u, cs = [.equal t u] →
      ((solveWith reg keep a cs).failures = [] ↔
        ∃ s, (unifyListing reg keep a t u).1.2 = .ok s) ∧
      (∀ s, (unifyListing reg keep a t u).1.2 = .ok s →
        (solveWith reg keep a cs).subst.val = s.val) ∧
      (∀ e, (unifyListing reg keep a t u).1.2 = .error e → e.Structural) ∧
      ∀ b, (∃ e, (unifyListing reg keep a t u).1.2 = .error e) ↔ ¬ ∃ th, Unifies b th t u := by
  refine ⟨fun b th hth => ?_, ?_, ?_⟩
  · have hall : ∀ c ∈ cs, c.kind = .equality → (c.left.Simple a ∧ c.right.Simple a) ∧
        c.left.inst th.val = c.right.inst th.val :=
      fun c hc hk => ⟨hcs c hc hk, unifies_iff.1 (hth c hc hk)⟩
    obtain ⟨hfail, habs⟩ := solveWith_complete reg keep hall
    refine ⟨hfail, fun t => ?_⟩
    rw [equal_iff, Subst.bare_apply, Subst.bare_apply, habs.inst_apply]
  · rw [solveWith_eq_upTo]
    exact Solution.structural_upTo reg keep hcs (Nat.le_refl _)
  · rintro t u rfl
    obtain ⟨ht, hu⟩ := hcs _ mem_cons_self rfl
    obtain ⟨hnone, hsame⟩ := solveWith_single reg keep a ht.1 hu.1
    exact ⟨hnone, hsame, (unifyListing_error_iff ht hu a).2, fun b => (unifyListing_error_iff ht hu b).1⟩

def listEquations : List Constraint :=
  [.equal (.var ⟨"a", 0⟩) (.app "List" [.var ⟨"b", 1⟩]), .equal (.var ⟨"b", 1⟩) (.app "B" [])]

theorem solveWith_general_list : (solveWith (fun _ => []) true .empty listEquations).failures = [] ∧
      ∀ t, (Subst.apply .empty [("a", .app "List" [.app "B" []]), ("b", .app "B" [])]
          (Subst.apply .empty (solveWith (fun _ => []) true .empty listEquations).subst t)).equal
        (Subst.apply .empty [("a", .app "List" [.app "B" []]), ("b", .app "B" [])] t) = true := by
  have hvar (v : Var) : (Ty.var v).Simple .empty := simple_var.2 rfl
  have hb : (Ty.app "B" []).Simple .empty := simple_con.2 (by simp)
  have hcs : ∀ c ∈ listEquations, c.kind = .equality → c.left.Simple .empty ∧ c.right.Simple .empty := by
    intro c hc _
    rcases mem_cons.1 hc with rfl | hc
    · exact ⟨hvar _, simple_con.2 (by simpa using hvar _)⟩
    · obtain rfl := mem_singleton.1 hc
      exact ⟨hvar _, hb⟩
  refine (solveWith_general _ _ _ _ hcs).1 .empty _ fun c hc _ => ?_
  rcases mem_cons.1 hc with rfl | hc
  · rfl
  · obtain rfl := mem_singleton.1 hc
    rfl

end Constraint

end ScriptTyping
