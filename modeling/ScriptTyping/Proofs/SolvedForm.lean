import ScriptTyping.Proofs.RevisionOrder
import ScriptTyping.Proofs.Solving
import ScriptTyping.Proofs.VariableOrder

/-!
# Solutions are in solved form

Whatever equations are solved, and whether they fail or not, no bound variable is left in a type that
is bound, and all variables come from the equations. An equation that fails may change tails, and then
types look different from what the bindings say. So the invariant of a run, `Solution.Tidy`, only
speaks about types as they are now: refreshed tails fit with no variable bound, and neither the types
of the equations nor those that are bound show what they should not. `Tidy.step` starts anew from there.

Of two variables the later is bound to the earlier, and this stays so when what is bound is replaced
by what is found next: the order of variables is transitive (`Var.order_trans`).
-/

namespace ScriptTyping

open Ty Unify Attachments Subst Solution Dict

variable {a : Attachments} {cs : List Constraint} {i : Nat} {e : String × Ty} {t : Ty} {v : Var}

namespace Subst

/-- A variable that is bound to a variable does not come before it. -/
def Ordered (s : Subst) : Prop := ∀ id v, (id, Ty.var v) ∈ s → Var.order v.id id ≠ .gt

variable {keep : Bool} {a : Attachments} {r s : Subst}

theorem ordered_nil : Ordered [] := by
  intro id v h
  cases h

/-- What looks like a variable after bindings were put in was a variable. -/
theorem apply_eq_var (h : apply a r t = .var v) : ∃ w, t = .var w ∧ (v = w ∨ (w.id, .var v) ∈ r) := by
  cases r with
  | nil => exact ⟨v, h, .inl rfl⟩
  | cons e r =>
    cases t with
    | var w =>
      refine ⟨w, rfl, ?_⟩
      change (get? (e :: r) w.id).getD (.var w) = .var v at h
      cases hget : get? (e :: r) w.id with
      | none =>
        rw [hget] at h
        exact .inl (Ty.var.inj h).symm
      | some u =>
        rw [hget] at h
        obtain rfl : u = .var v := h
        exact .inr (mem_of_get?_eq_some hget)
    | _ => cases h

theorem Ordered.adoptIf (h : Ordered s) (keep : Bool) (a : Attachments) : Ordered (a.adoptIf keep s).1 := by
  cases keep with
  | false => exact h
  | true =>
    intro id v hmem
    obtain ⟨b, t, ht, heq⟩ := of_mem_adoptFields hmem
    cases t with
    | var w =>
      cases heq
      exact h id v ht
    | _ => cases heq

theorem Ordered.extend (hs : Ordered s) (hr : Ordered r) (keep : Bool) (a : Attachments) :
    Ordered (a.extend keep r s).1 := by
  refine Ordered.adoptIf ?_ keep _
  have hnew := hr.adoptIf keep a
  intro id v hmem
  rcases mem_compose hmem with ⟨x, hx, heq⟩ | hmem
  · obtain ⟨hid, hv⟩ := Prod.mk.inj heq
    obtain ⟨w, hw, hvw⟩ := apply_eq_var hv.symm
    have hold : Var.order w.id id ≠ .gt := by
      refine hs id w ?_
      rw [hid, ← hw]
      exact hx
    rcases hvw with rfl | hvw
    · exact hold
    · exact Var.order_trans (hnew w.id v hvw) hold
  · exact hnew id v hmem

end Subst

namespace Unify

variable {reg : Registry} {keep : Bool}

theorem ordered_bindVars (v w : Var) : (bindVars v w).Ordered := by
  unfold bindVars
  intro id x hmem
  split at hmem
  next h =>
    obtain ⟨rfl, hx⟩ := Prod.mk.inj (List.mem_singleton.1 hmem)
    cases hx
    exact h
  next h =>
    obtain ⟨rfl, hx⟩ := Prod.mk.inj (List.mem_singleton.1 hmem)
    cases hx
    rw [Var.order_swap, not_not.1 h]
    decide

theorem ordered_bindChecked {s : Subst} (ht : t.Compound) (h : bindChecked reg a v t = .ok s) : s.Ordered := by
  obtain ⟨rfl, -⟩ := bindChecked_eq_ok ht h
  intro id x hmem
  obtain ⟨-, hx⟩ := Prod.mk.inj (List.mem_singleton.1 hmem)
  exact absurd hx.symm (ht.2 x)

mutual

/-- Unification binds the later of two variables to the earlier. -/
theorem Run.ordered : ∀ {a : Attachments} {t u : Ty} {c : Course Subst}, Run reg keep a t u c →
    ∀ {s : Subst}, c.result = .ok s → s.Ordered
  | _, _, _, _, .missingLeft _ _, _, hs => by cases hs; exact ordered_nil
  | _, _, _, _, .missingRight _ _, _, hs => by cases hs; exact ordered_nil
  | _, _, _, _, .same _ _, _, hs => by cases hs; exact ordered_nil
  | _, _, _, _, .vars (v := v) (w := w) _ _, _, hs => by cases hs; exact ordered_bindVars v w
  | _, _, _, _, .left _ _ hc, _, hs => ordered_bindChecked hc hs
  | _, _, _, _, .right _ _ hc, _, hs => ordered_bindChecked hc hs
  | _, _, _, _, .parts _ _ h, _, hs => RunEach.ordered h ordered_nil (Course.guard_eq_ok hs).1

theorem RunEach.ordered : ∀ {a : Attachments} {s : Subst} {ps : List (Ty × Ty)} {c : Course Subst},
    RunEach reg keep a s ps c → s.Ordered → ∀ {r : Subst}, c.result = .ok r → r.Ordered
  | _, _, _, _, .nil _ _, hs, _, hr => by cases hr; exact hs
  | _, _, _, _, .fail _, _, _, hr => by cases hr
  | _, _, _, _, .next (b := b) h hrest, hs, _, hr =>
    RunEach.ordered hrest (hs.extend (Run.ordered h rfl) keep b) hr

end

end Unify

/-! ## Applications -/

section

variable {B : List (Dict Ty)} {a b : Attachments} {s : Subst} {t u : Ty}

theorem image_of_shape {θ : Valuation} (h : t.shape = u.shape) : t.image θ = u.image θ := by
  have himage (x : Ty) : x.shape.image θ = x.image θ := image_image θ free x
  rw [← himage, h, himage]

theorem Subst.shape_apply (a : Attachments) (s : Subst) (t : Ty) :
    (apply a s t).shape = t.image s.images := by
  cases s with
  | nil => rfl
  | cons e s => exact fill_substitute a (e :: s) t

theorem Attachments.mem_currentAll (h : e ∈ a.currentAll s) : ∃ x ∈ s, e = (x.1, a.current x.2) := by
  unfold currentAll at h
  split at h
  next hempty => exact ⟨e, h, by rw [current_of_tails (List.isEmpty_iff.1 hempty)]⟩
  next =>
    obtain ⟨x, hx, rfl⟩ := List.mem_map.1 h
    exact ⟨x, hx, rfl⟩

/-- Bindings do the same to types that are alike, where tails are alike. -/
theorem Attachments.Alike.apply (hab : Alike a b) (h : Started B b s) (hcore : t.core = u.core)
    (hu : Clear (Valuation.after free s) (tailsAfter B s) (fun _ => False) b u) :
    (a.apply s t).1.shape = (b.apply s u).1.shape ∧ Alike (a.revise s t) (b.revise s u) := by
  have hsame : b.revise s t = b.revise s u := by
    unfold Attachments.revise
    rw [← reviseDepth_core, hcore, reviseDepth_core]
  have hrevise : Alike (a.revise s t) (b.revise s u) := hsame ▸ hab.revise s t
  have himages : images (a.currentAll s) = images (b.currentAll s) := by
    rw [h.currentAll.2]
    unfold Attachments.currentAll
    split
    · rfl
    · refine images_mapValues fun e he => ?_
      rw [hab.shape_current h.fit rfl (h.clear e he).coherent]
      exact h.shape_current he
  have hshape : (Subst.apply a (a.currentAll s) (a.current t)).shape =
      (Subst.apply b (b.currentAll s) (b.current u)).shape := by
    rw [shape_apply, shape_apply, himages]
    exact image_of_shape (hab.shape_current h.fit hcore hu.coherent)
  have hfit := (h.of_rewrites (b.rewrites_revise u)).fit
  refine ⟨hrevise.shape_current hfit (core_of_shape hshape) ?_, hrevise⟩
  rw [h.image_apply hu]
  exact hu.coherent

end

/-! ## The invariant -/

namespace Solution

variable {reg : Registry} {keep : Bool} {K : String → Prop} {T : Ty → Prop} {r : Solution}
  {c : Constraint} {number : Nat}

/-- Seen as they are now, the types `T` and what is bound show tails as they are when refreshed, and
variables that are not such that `K`; what is bound shows no bound variable either. -/
structure Tidy (K : String → Prop) (T : Ty → Prop) (r : Solution) : Prop where
  alike : Alike r.attachments r.attachments.refresh
  coherent : r.attachments.refresh.Coherent
  sorted : Dict.Sorted r.subst
  keys : ∀ k ∈ keys r.subst, ¬ K k
  ordered : r.subst.Ordered
  cores : ∀ t, T t → (r.attachments.current t).core = t.core
  types : ∀ t, T t → Clear free r.attachments.refresh.tailShapes K r.attachments.refresh
    (r.attachments.current t)
  bound : ∀ e ∈ r.subst, Clear free r.attachments.refresh.tailShapes (andKeys K r.subst)
    r.attachments.refresh (r.attachments.current e.2)

/-- It is enough that tails that are alike fit at some stage, and that types are clear there. -/
theorem tidy_of_fit {θ : Valuation} {B : List (Dict Ty)} {b : Attachments}
    (halike : Alike r.attachments b) (hfit : b.Fit θ B) (hsorted : Dict.Sorted r.subst)
    (hkeys : ∀ k ∈ keys r.subst, ¬ K k) (hordered : r.subst.Ordered)
    (hT : ∀ t, T t → ∃ u, t.core = u.core ∧ Clear θ B K b u)
    (hs : ∀ e ∈ r.subst, Clear θ B (andKeys K r.subst) b e.2) : r.Tidy K T where
  alike := halike.alike_refresh hfit
  coherent := halike.coherent_refresh hfit
  sorted := hsorted
  keys := hkeys
  ordered := hordered
  cores t ht := by
    obtain ⟨u, hcore, hu⟩ := hT t ht
    rw [core_of_shape (halike.shape_current hfit hcore hu.coherent), hfit.core_current hu.coherent,
      hcore]
  types t ht := by
    obtain ⟨u, hcore, hu⟩ := hT t ht
    exact halike.clear_current hfit hcore hu
  bound e he := halike.clear_current hfit rfl (hs e he)

theorem mem_bindings (h : e ∈ r.bindings) : ∃ x ∈ r.subst, e = (x.1, r.attachments.current x.2) := mem_currentAll h

theorem ordered_bindings (h : r.subst.Ordered) : r.bindings.Ordered := by
  intro id v hmem
  obtain ⟨x, hx, heq⟩ := mem_bindings hmem
  obtain ⟨rfl, hv⟩ := Prod.mk.inj heq
  refine h x.1 v ?_
  rw [current_eq_renewWith] at hv
  cases hx2 : x.2 with
  | var w =>
    rw [hx2] at hv
    cases hv
    exact hx2 ▸ hx
  | missing =>
    rw [hx2] at hv
    cases hv
  | con name args l =>
    rw [hx2, renewWith_con] at hv
    cases hv
  | record name fields l =>
    rw [hx2, renewWith] at hv
    split at hv <;> cases hv

namespace Tidy

variable {d : Attachments} {done : List Application}

/-- The bindings as they are now are found and applied as they should. -/
theorem reached (h : r.Tidy K T) :
    Reached free r.attachments.refresh.tailShapes K r.attachments.refresh r.bindings := by
  have hkeys : Dict.keys r.bindings = Dict.keys r.subst := Reached.keys_currentAll _ _
  have hand : andKeys K r.bindings = andKeys K r.subst := by
    funext k
    rw [andKeys, hkeys, andKeys]
  refine reached_free h.coherent (h.sorted.of_keys hkeys) (hkeys ▸ h.keys) fun e he => ?_
  obtain ⟨x, hx, rfl⟩ := mem_bindings he
  rw [hand]
  exact h.bound x hx

/-- After an equation that is solved. -/
theorem step_ok (h : r.Tidy K T) (hl : T c.left) (hr : T c.right) (number : Nat) {q : Subst}
    (hk : c.kind = .equality) (hat : r.attempt reg keep c = ⟨d, .ok q, done⟩) :
    (step reg keep r number c).Tidy K T := by
  have hrun := run_attempt reg keep r c
  rw [hat] at hrun
  have hstart := h.reached
  have hempty := h.alike.isEmpty
  obtain ⟨hboth, hcx, hcy, hempty'⟩ := reached_first hstart (h.types _ hl) (h.types _ hr) hempty
  have hfound := hrun.reached hboth.fit (hstart.binds.after _) hcx hcy hempty' rfl
  obtain ⟨hnew, hstays, -⟩ := reached_rest hstart (h.types _ hl) (h.types _ hr) hempty hrun hfound rfl
  have htails : (d.extend keep q r.bindings).2.tails = r.attachments.tails :=
    (tails_extend ..).trans (Run.tails hrun)
  rw [Solution.step_ok hk hat]
  refine tidy_of_fit (((alike_of_tails htails).trans h.alike).replay _) hnew.fit hnew.sorted hnew.keys
    ((ordered_bindings h.ordered).extend (Run.ordered hrun rfl) keep d) (fun t ht => ?_) hnew.clear
  refine ⟨_, (h.cores t ht).symm, hnew.waits (hstays _ (h.types t ht))⟩

/-- After an equation that fails. -/
theorem step_error (h : r.Tidy K T) (hl : T c.left) (hr : T c.right) (number : Nat) {e : UnifyError}
    (hk : c.kind = .equality) (hat : r.attempt reg keep c = ⟨d, .error e, done⟩) :
    (step reg keep r number c).Tidy K T := by
  have hrun := run_attempt reg keep r c
  rw [hat] at hrun
  have hstart := h.reached
  have hempty := h.alike.isEmpty
  obtain ⟨hboth, hcx, hcy, hempty'⟩ := reached_first hstart (h.types _ hl) (h.types _ hr) hempty
  obtain ⟨θ, B, hlater, -⟩ := hrun.absorbed hboth.fit (hstart.binds.after _) hcx hcy hempty'
  have hfit := (fit_replay hlater.done).2 hlater.fit
  have hclear := hlater.clear
  rw [← replay_append] at hfit hclear
  rw [Solution.step_error hk hat]
  refine tidy_of_fit (((alike_of_tails (Run.tails hrun)).trans h.alike).replay _) hfit hstart.sorted
    hstart.keys (ordered_bindings h.ordered) (fun t ht => ?_) fun x hx => ?_
  · -- What is bound at first has no variable that is such that `K`.
    have hprepared : ∀ x ∈ r.prepared c, ∀ e ∈ x.1, ∀ id ∈ e.2.ids, ¬ K id := by
      intro x hx e he id hid hK
      rw [(mem_applications hx).1] at he
      exact (hstart.clear e he).ids id hid (.inl hK)
    have hwait := (hstart.waits (h.types t ht)).replay hprepared
    exact ⟨_, (h.cores t ht).symm, hclear K _ (fun id hid => .inl hid) hwait⟩
  · exact hclear _ _ (fun _ hid => hid) (hboth.clear x hx)

theorem step (h : r.Tidy K T) (number : Nat) (hc : c.kind = .equality → T c.left ∧ T c.right) :
    (step reg keep r number c).Tidy K T := by
  rcases r.attempt_cases reg keep c with hk | ⟨hk, d, e, done, hat⟩ | ⟨hk, d, q, done, hat⟩
  · rwa [step_of_ne_equality reg keep r number hk]
  · exact h.step_error (hc hk).1 (hc hk).2 number hk hat
  · exact h.step_ok (hc hk).1 (hc hk).2 number hk hat

end Tidy

/-- The invariant holds along a run. -/
theorem tidy_upTo (reg : Registry) (keep : Bool) (ha : a.Coherent)
    (hT : ∀ t, T t → t.shape.Coherent a.tailShapes ∧ ∀ id ∈ t.ids, ¬ K id)
    (hcs : ∀ c ∈ cs, c.kind = .equality → T c.left ∧ T c.right) (hi : i ≤ cs.length) :
    (upTo reg keep a cs i).Tidy K T := by
  refine upTo_induction (P := fun _ r => r.Tidy K T) ?_
    (fun i c hc h => h.step i (hcs c (List.mem_of_getElem? hc))) hi
  refine tidy_of_fit (r := start a) (b := a) rfl ha.fit sorted_nil (by simp [start, keys])
    ordered_nil (fun t ht => ⟨t, rfl, clear_free (hT t ht).2 (hT t ht).1⟩) ?_
  intro e he
  cases he

end Solution

/-! ## Solutions -/

/-- All variables that are bound, or are in what is bound, are such that `P`. None that is bound is in
what is bound, and none comes before a variable that it is bound to. -/
structure Subst.Canonical (P : String → Prop) (s : Subst) : Prop where
  keys : ∀ id ∈ keys s, P id
  ids : ∀ e ∈ s, ∀ id ∈ e.2.ids, P id ∧ id ∉ Dict.keys s
  ordered : s.Ordered

namespace Constraint

/-- The variable occurs in one of the equations. -/
def Mentions (cs : List Constraint) (id : String) : Prop :=
  ∃ c ∈ cs, c.kind = .equality ∧ (id ∈ c.left.ids ∨ id ∈ c.right.ids)

/-- Both sides of each equation show tails as they are at the start. -/
def Fit (a : Attachments) (cs : List Constraint) : Prop :=
  ∀ c ∈ cs, c.kind = .equality →
    c.left.shape.Coherent a.tailShapes ∧ c.right.shape.Coherent a.tailShapes

/-- Only variables of the equations are bound, and what is bound consists of their sides. -/
theorem tidy_sides (reg : Registry) (keep : Bool) (ha : a.Coherent) (hcs : Fit a cs) (hi : i ≤ cs.length) :
    (upTo reg keep a cs i).Tidy (¬ Mentions cs ·)
      fun t => ∃ c ∈ cs, c.kind = .equality ∧ (t = c.left ∨ t = c.right) := by
  refine tidy_upTo reg keep ha ?_ (fun c hc hk => ⟨⟨c, hc, hk, .inl rfl⟩, ⟨c, hc, hk, .inr rfl⟩⟩) hi
  rintro t ⟨c, hc, hk, rfl | rfl⟩
  · exact ⟨(hcs c hc hk).1, fun id hid hno => hno ⟨c, hc, hk, .inl hid⟩⟩
  · exact ⟨(hcs c hc hk).2, fun id hid hno => hno ⟨c, hc, hk, .inr hid⟩⟩

/-- Solutions are in solved form, over the variables of the equations. -/
theorem canonical_solveWith (reg : Registry) (keep : Bool) (ha : a.Coherent) (hcs : Fit a cs) :
    (solveWith reg keep a cs).subst.Canonical (Mentions cs) := by
  have htidy := tidy_sides reg keep ha hcs (Nat.le_refl _)
  have hreached := htidy.reached
  rw [solveWith_eq_upTo]
  refine ⟨fun id hid => not_not.1 (hreached.keys id hid), fun e he id hid => ?_,
    ordered_bindings htidy.ordered⟩
  have hclear := (hreached.clear e he).ids id hid
  exact ⟨not_not.1 fun hno => hclear (.inl hno), fun hkey => hclear (.inr hkey)⟩

end Constraint

end ScriptTyping
