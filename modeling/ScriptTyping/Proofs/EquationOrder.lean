import ScriptTyping.Proofs.Classes
import ScriptTyping.Proofs.GeneralSolutions

/-!
# The order of equations does not matter

Equations between types without records and gaps have the same solution in any order, if each name is
one variable and constructors have only classes that are registered for them (`Ty.Regular`).

A valuation solves such equations if it makes the sides of each one, and gives to no variable a
constructor that lacks a class of the variable (`Valuation.Meets`). Such a valuation makes no equation
fail, and absorbs all that is bound (`guides_regular`). In turn, a solution without failures is such a
valuation. So two solutions, of the same equations in two orders, absorb each other, and then they bind
the same: of two variables that become one, the later is bound in both (`Subst.rel_of_absorbs`).
-/

namespace ScriptTyping

open Ty Attachments List Dict Solution Subst

section

variable {reg : Registry} {keep : Bool} {Q : Var → Prop} {a b : Attachments} {s : Subst} {t : Ty}

/-! ## Registered classes -/

/-- A type without records and gaps, over variables such that `Q`. Its constructors have no classes but
those that are registered for them. -/
inductive Ty.Regular (reg : Registry) (Q : Var → Prop) (a : Attachments) : Ty → Prop
  | var {v} (h : Q v) : Regular reg Q a (var v)
  | con {name args} {l : Label} (hl : l.Apart Q) (hreg : ∀ k ∈ a.ofLabel l, k ∈ reg name)
    (h : ∀ t ∈ args, Regular reg Q a t) : Regular reg Q a (con name args l)

namespace Attachments.Since

/-- Cells that were not made yet held nothing at the start. -/
theorem unfilled (h : Since Q a b) (c : Cell) (hc : b.next ≤ c) : a.get? c = none := by
  rw [← h.2.frame c fun v hv => Nat.ne_of_lt (Nat.lt_of_lt_of_le (h.1.taken v hv) hc)]
  exact h.1.unfilled c hc

/-- The classes of constructors stay as they were. -/
theorem ofLabel (h : Since Q a b) {l : Label} (hl : l.Apart Q) : b.ofLabel l = a.ofLabel l := by
  cases hc : l.cell with
  | none => simp only [Attachments.ofLabel, hc]
  | some c => simp only [Attachments.ofLabel, hc, h.2.frame c (hl c hc)]

end Attachments.Since

namespace Ty.Regular

theorem plain (h : t.Regular reg Q a) : t.Plain := by
  induction h with
  | var => exact .var _
  | con _ _ _ ih => exact .con ih

theorem known (h : t.Regular reg Q a) : t.Known Q := by
  induction h with
  | var hv => exact .var hv
  | con hl _ _ ih => exact .con hl ih

theorem child {x : Ty} (h : t.Regular reg Q a) (hx : x.Child t) : x.Regular reg Q a := by
  cases h with
  | var => cases hx
  | con _ _ h => exact h x hx

theorem substitute (h : t.Regular reg Q a) (hb : Since Q a b) (hs : ∀ e ∈ s, e.2.Regular reg Q a) :
    (t.substitute b s).Regular reg Q a := by
  induction h with
  | @var v hv =>
    rw [Ty.substitute]
    cases hget : get? s v.id with
    | none => exact .var hv
    | some u => exact hs _ (mem_of_get?_eq_some hget)
  | @con name args l hl hreg _ ih =>
    rw [Ty.substitute, substituteAll_eq_map]
    refine .con (copied_apart b l hl) ?_ fun u hu => ?_
    · rw [ofLabel_without, hb.ofLabel hl]
      exact hreg
    · obtain ⟨x, hx, rfl⟩ := mem_map.1 hu
      exact ih x hx

theorem apply (h : t.Regular reg Q a) (hb : Since Q a b) (hs : ∀ e ∈ s, e.2.Regular reg Q a) :
    (Subst.apply b s t).Regular reg Q a := by
  cases s with
  | nil => exact h
  | cons e s => exact h.substitute hb hs

mutual

theorem adopt : ∀ (b : Attachments) (t : Ty), Since Q a b → t.Regular reg Q a →
    (b.adopt t).1.Regular reg Q a ∧ Since Q a (b.adopt t).2
  | _, .var _, hb, h => ⟨h, hb⟩
  | b, .con name args l, hb, .con hl hreg h => by
    obtain ⟨hargs, hmid⟩ := adoptAll b args hb h
    obtain ⟨hlabel, hlast⟩ := adopted_apart _ l hmid hl
    have hclasses : a.ofLabel ((b.adoptAll args).2.adoptLabel l).1 = a.ofLabel l :=
      ofLabel_adoptLabel hmid.unfilled
    exact ⟨.con hlabel (hclasses ▸ hreg) hargs, hlast⟩

theorem adoptAll : ∀ (b : Attachments) (ts : List Ty), Since Q a b → (∀ t ∈ ts, t.Regular reg Q a) →
    (∀ t ∈ (b.adoptAll ts).1, t.Regular reg Q a) ∧ Since Q a (b.adoptAll ts).2
  | _, [], hb, h => ⟨h, hb⟩
  | b, t :: ts, hb, h => by
    obtain ⟨ht, hts⟩ := forall_mem_cons.1 h
    obtain ⟨hfirst, hmid⟩ := adopt b t hb ht
    obtain ⟨hrest, hlast⟩ := adoptAll _ ts hmid hts
    exact ⟨forall_mem_cons.2 ⟨hfirst, hrest⟩, hlast⟩

end

end Ty.Regular

theorem stable_regular (reg : Registry) (keep : Bool) (Q : Var → Prop) (a : Attachments) :
    Unify.Stable keep (Since Q a) (Ty.Regular reg Q a) where
  child _ _ := Regular.child
  apply _ _ _ hb ht hs := ht.apply hb hs
  adopt _ := Regular.adopt
  share b v w hb hv hw := by
    cases hv with
    | var hv =>
      cases hw with
      | var hw => exact (passing_known keep Q a).share b v w hb hv hw

/-! ## Valuations that meet classes -/

/-- No variable becomes a constructor for which one of its classes is not registered. -/
def Valuation.Meets (θ : Valuation) (reg : Registry) (Q : Var → Prop) (a : Attachments) : Prop :=
  ∀ v, Q v → ∀ k ∈ a.get v.cell, ∀ name args l, θ v.id = con name args l → k ∈ reg name

theorem Valuation.Meets.of_sets {θ : Valuation} (h : θ.Meets reg Q a) (hsets : b.sets = a.sets) :
    θ.Meets reg Q b := by
  intro v hv k hk
  rw [get_of_sets hsets] at hk
  exact h v hv k hk

namespace Unify

variable {θ : Valuation} {v w : Var}

/-- Two variables to which the same is given may share their classes. -/
theorem meets_share (h : θ.Meets reg Q a) (hone : OneEach Q) (hv : Q v) (hw : Q w)
    (heq : θ v.id = θ w.id) : θ.Meets reg Q (share a v w) := by
  intro x hx k hk name args l hcon
  have hsame (y : Var) (hy : Q y) (hcell : y.cell = x.cell) : θ y.id = θ x.id := by
    rw [(hone y x hy hx).2 hcell]
  rcases mem_get_share.1 hk with hk | ⟨hcell, hk⟩
  · exact h x hx k hk name args l hcon
  · have hboth : θ v.id = θ x.id ∧ θ w.id = θ x.id := by
      rcases hcell with hcell | hcell
      · exact ⟨heq.trans (hsame w hw hcell), hsame w hw hcell⟩
      · exact ⟨hsame v hv hcell, heq.symm.trans (hsame v hv hcell)⟩
    rcases hk with hk | hk
    · exact h v hv k hk name args l (hboth.1.trans hcon)
    · exact h w hw k hk name args l (hboth.2.trans hcon)

/-- A variable is bound to a constructor if some valuation makes them one and meets its classes. -/
theorem bindChecked_of_meets (h : θ.Meets reg Q a) (hv : Q v) (ht : t.Plain) (hc : t.Compound)
    (heq : θ v.id = t.inst θ) : bindChecked reg a v t = .ok [(v.id, t)] := by
  have hlacking : lacking reg a (a.get v.cell) t = [] := by
    obtain ⟨name, args, l, rfl⟩ := exists_con ht hc
    unfold lacking
    split
    · rfl
    · rw [ClassSet.lacking_eq_nil_iff]
      intro k hk
      rw [inst_con] at heq
      rw [Registry.classes, ClassSet.mem_union]
      exact .inr (h v hv k hk _ _ _ heq)
  have hocc : t.occurs v.id = false := by
    rw [← Bool.not_eq_true]
    exact fun hocc => ne_inst_of_mem_ids (occurs_iff_mem_ids.1 hocc) hc.2 heq
  unfold bindChecked bind
  rw [hlacking]
  dsimp only
  split
  next w => exact absurd rfl (hc.2 w)
  next => rw [hocc, if_neg Bool.false_ne_true]

/-- A valuation that meets all classes guides unification, and meets all classes then. -/
theorem guides_regular (keep : Bool) (hone : OneEach Q) (a : Attachments) (θ : Valuation) :
    Guides reg keep (Since Q a) (θ.Meets reg Q) (Ty.Regular reg Q a) θ where
  toStable := stable_regular reg keep Q a
  plain _ ht := ht.plain
  of_sets _ _ hsets hm := hm.of_sets hsets
  meet _ _ _ _ hm hv hw heq := by
    cases hv with
    | var hv =>
      cases hw with
      | var hw => exact meets_share hm hone hv hw heq
  bind _ _ _ _ hm hv ht hc heq := by
    cases hv with
    | var hv => exact bindChecked_of_meets hm hv ht.plain hc heq

end Unify

end

/-! ## Solving -/

/-- The constraint is no equation, or its sides are regular, over the variables `vs`. -/
def Constraint.Regular (reg : Registry) (Q : Var → Prop) (a : Attachments) (vs : List String)
    (c : Constraint) : Prop :=
  c.kind = .equality → (c.left.Regular reg Q a ∧ c.right.Regular reg Q a) ∧
    (∀ id ∈ c.left.ids, id ∈ vs) ∧ ∀ id ∈ c.right.ids, id ∈ vs

/-- The constraint is no equation, or the valuation makes its sides one. -/
def Valuation.Solves (θ : Valuation) (c : Constraint) : Prop :=
  c.kind = .equality → c.left.inst θ = c.right.inst θ

namespace Solution

variable {reg : Registry} {keep : Bool} {Q : Var → Prop} {a : Attachments} {vs : List String}
  {r : Solution} {c : Constraint} {cs : List Constraint} {i : Nat}

/-- What is bound is regular and in solved form, over the variables `vs`, and holds classes as it
should. -/
structure Regular (reg : Registry) (Q : Var → Prop) (a : Attachments) (vs : List String)
    (r : Solution) : Prop where
  since : Since Q a r.attachments
  subst : ∀ e ∈ r.subst, e.2.Regular reg Q a
  sorted : Dict.Sorted r.subst
  within : r.subst.Within vs
  ordered : r.subst.Ordered
  enforced : r.subst.Enforced reg Q r.attachments

namespace Regular

theorem plain (h : r.Regular reg Q a vs) : r.Plain := fun e he => (h.subst e he).plain

theorem start (vs : List String) (ha : a.Serves Q) : (start a).Regular reg Q a vs where
  since := ⟨ha, .of_sets rfl⟩
  subst := by simp [Solution.start]
  sorted := sorted_nil
  within := within_nil vs
  ordered := ordered_nil
  enforced := by simp [Solution.start, Subst.Enforced]

theorem run_attempt (h : r.Regular reg Q a vs) (keep : Bool) (hl : c.left.Regular reg Q a)
    (hr : c.right.Regular reg Q a) :
    Unify.Run reg keep r.attachments (Subst.apply r.attachments r.subst c.left)
      (apply r.attachments r.subst c.right) (r.attempt reg keep c) := by
  have hrun := Solution.run_attempt reg keep r c
  rwa [h.plain.applied hl.plain, h.plain.applied hr.plain] at hrun

/-- After an equation that is solved. What was bound is replaced by its instances, and under these the
sides are one. -/
theorem step_ok (h : r.Regular reg Q a vs) (hone : OneEach Q) (number : Nat) (hc : c.Regular reg Q a vs)
    {d : Attachments} {q : Subst} {done : List Application} (hk : c.kind = .equality)
    (hat : r.attempt reg keep c = ⟨d, .ok q, done⟩) : (step reg keep r number c).Regular reg Q a vs ∧
      (∀ id, (step reg keep r number c).subst.val id = (r.subst.val id).inst q.val) ∧
      (step reg keep r number c).subst.val.Solves c := by
  obtain ⟨⟨hl, hr⟩, hidl, hidr⟩ := hc hk
  have hrun := h.run_attempt keep hl hr
  rw [hat] at hrun
  have hal := hl.apply h.since h.subst
  have har := hr.apply h.since h.subst
  obtain ⟨hgood, hmatch⟩ := hrun.sound hal.plain.proper har.plain.proper rfl
  have hover := Unify.Run.over (stable_regular reg keep Q a) hrun h.since hal har
  have hq := hover.found q rfl
  have hknown : ∀ e ∈ r.subst, e.2.Known Q := fun e he => (h.subst e he).known
  have hval (id : String) : (d.extend keep q r.subst).1.val id = (r.subst.val id).inst q.val :=
    val_extend h.sorted id
  rw [step_plain_ok h.plain hl.plain hr.plain hk hat]
  refine ⟨?_, hval, fun _ => ?_⟩
  · obtain ⟨-, hall, hlast⟩ := (stable_regular reg keep Q a).next hover.attachments h.subst hq
    have hold := hrun.enforced hone h.since.1 hl.known hr.known hknown
      (fun e he id hid => (h.within.types e he id hid).2) h.enforced
    have hnew := hrun.enforces hone h.since.1 hal.known har.known rfl
    exact ⟨hlast, hall, sorted_extend keep d hgood.sorted h.sorted,
      Unify.within_next keep d h.within hidl hidr (hrun.within rfl),
      h.ordered.extend (hrun.ordered rfl) keep d,
      hold.extend hnew hover.attachments.1 hknown keep⟩
  · -- Without records, sides that match are one.
    have hplain : ∀ e ∈ q, e.2.Plain := fun e he => (hq e he).plain
    rw [← bare_apply d, ← bare_apply d, Matches.bare_iff] at hmatch
    have heq := hmatch.bare_eq (plain_apply hplain hal.plain) (plain_apply hplain har.plain)
    rw [bare_apply, bare_apply, inst_apply, inst_apply] at heq
    rwa [inst_congr fun id _ => hval id, inst_congr fun id _ => hval id]

/-- After an equation that fails. -/
theorem step_error (h : r.Regular reg Q a vs) (hone : OneEach Q) (number : Nat)
    (hc : c.Regular reg Q a vs) {d : Attachments} {e : UnifyError} {done : List Application}
    (hk : c.kind = .equality) (hat : r.attempt reg keep c = ⟨d, .error e, done⟩) :
    (step reg keep r number c).Regular reg Q a vs := by
  obtain ⟨⟨hl, hr⟩, -⟩ := hc hk
  have hrun := h.run_attempt keep hl hr
  rw [hat] at hrun
  have hover := Unify.Run.over (stable_regular reg keep Q a) hrun h.since (hl.apply h.since h.subst)
    (hr.apply h.since h.subst)
  rw [step_plain_error h.plain hl.plain hr.plain hk hat]
  exact ⟨hover.attachments, h.subst, h.sorted, h.within, h.ordered,
    hrun.enforced hone h.since.1 hl.known hr.known (fun e he => (h.subst e he).known)
      (fun e he id hid => (h.within.types e he id hid).2) h.enforced⟩

theorem step (h : r.Regular reg Q a vs) (hone : OneEach Q) (number : Nat) (hc : c.Regular reg Q a vs) :
    (step reg keep r number c).Regular reg Q a vs := by
  rcases r.attempt_cases reg keep c with hk | ⟨hk, d, e, done, hat⟩ | ⟨hk, d, q, done, hat⟩
  · rwa [step_of_ne_equality reg keep r number hk]
  · exact h.step_error hone number hc hk hat
  · exact (h.step_ok hone number hc hk hat).1

/-- A step that adds no failure solves its equation, and what was solved before stays so. -/
theorem step_solves (h : r.Regular reg Q a vs) (hone : OneEach Q) (number : Nat)
    (hc : c.Regular reg Q a vs) (hfail : (Solution.step reg keep r number c).failures = []) :
    r.failures = [] ∧ (Solution.step reg keep r number c).subst.val.Solves c ∧
      ∀ d : Constraint, r.subst.val.Solves d →
        (Solution.step reg keep r number c).subst.val.Solves d := by
  rcases r.attempt_cases reg keep c with hk | ⟨hk, d, e, done, hat⟩ | ⟨hk, d, q, done, hat⟩
  · rw [step_of_ne_equality reg keep r number hk] at hfail ⊢
    exact ⟨hfail, fun h => absurd h hk, fun d hd => hd⟩
  · rw [Solution.step_error hk hat] at hfail
    simp at hfail
  · obtain ⟨-, hval, hsolves⟩ := h.step_ok hone number hc hk hat
    rw [Solution.step_ok hk hat] at hfail
    refine ⟨hfail, hsolves, fun d hd hkind => ?_⟩
    rw [inst_congr fun id _ => hval id, inst_congr fun id _ => hval id, ← inst_inst, ← inst_inst,
      hd hkind]

end Regular

/-! ## Runs -/

theorem regular_upTo (reg : Registry) (keep : Bool) (hone : OneEach Q) (ha : a.Serves Q)
    (hcs : ∀ c ∈ cs, c.Regular reg Q a vs) (hi : i ≤ cs.length) : (upTo reg keep a cs i).Regular reg Q a vs :=
  upTo_induction (P := fun _ r => r.Regular reg Q a vs) (.start vs ha)
    (fun i c hc h => h.step hone i (hcs c (mem_of_getElem? hc))) hi

/-- Where nothing failed, what is bound solves all equations so far. -/
theorem upTo_solves (hone : OneEach Q) (ha : a.Serves Q) (hcs : ∀ c ∈ cs, c.Regular reg Q a vs)
    (hi : i ≤ cs.length) (hfail : (upTo reg keep a cs i).failures = []) :
    ∀ c ∈ cs.take i, (upTo reg keep a cs i).subst.val.Solves c := by
  refine upTo_induction (P := fun i r => r.failures = [] → ∀ c ∈ cs.take i, r.subst.val.Solves c) (by simp)
    (fun i c hc ih hfail => ?_) hi hfail
  have hregular := regular_upTo reg keep hone ha hcs (List.getElem?_eq_some_iff.1 hc).1.le
  obtain ⟨hbefore, hlast, hkept⟩ := hregular.step_solves hone i (hcs c (mem_of_getElem? hc)) hfail
  rw [take_add_one, hc]
  intro d hd
  rcases mem_append.1 hd with hd | hd
  · exact hkept d (ih hbefore d hd)
  · rw [Option.toList_some, mem_singleton] at hd
    rwa [hd]

/-- What is bound meets the classes that variables had at the start. -/
theorem Regular.meets (h : r.Regular reg Q a vs) : r.subst.val.Meets reg Q a := by
  intro v hv k hk name args l hcon
  have hnow : k ∈ r.attachments.get v.cell := h.since.2.kept _ k hk
  cases hget : get? r.subst v.id with
  | none =>
    rw [val_of_not_mem (get?_eq_none_iff.1 hget)] at hcon
    cases hcon
  | some t =>
    have hmem := mem_of_get?_eq_some hget
    have hholds := h.enforced v hv t hmem k hnow
    rw [val_of_get? hget] at hcon
    obtain ⟨args', l', rfl, -⟩ := bare_eq_con hcon
    rw [Registry.classes, ClassSet.mem_union] at hholds
    rcases hholds with hlabel | hreg
    · have hregular := h.subst _ hmem
      cases hregular with
      | con hl hreg _ =>
        refine hreg k ?_
        rwa [← h.since.ofLabel hl]
    · exact hreg

end Solution

/-! ## Bindings that absorb each other -/

namespace Subst

variable {r s : Subst} {vs : List String} {x : String}

/-- If one of two solved forms absorbs the other, it binds all variables that the other binds. A variable
that only the other bound would stand for a variable that is bound to it in turn, and then each of the
two would not come before the other. -/
theorem mem_keys_of_absorbs (hr : r.Within vs) (hs : s.Within vs) (hro : r.Ordered) (hso : s.Ordered)
    (horder : ∀ y ∈ vs, ∀ z ∈ vs, Var.order y z = .eq → y = z) (habs : s.val.Absorbs r)
    (hx : x ∈ Dict.keys r) : x ∈ Dict.keys s := by
  by_contra hno
  obtain ⟨t, ht⟩ := Option.ne_none_iff_exists'.1 (mt get?_eq_none_iff.1 (not_not_intro hx))
  have hmem := mem_of_get?_eq_some ht
  have hfree : t.inst s.val = free x := by
    rw [← inst_bare, ← val_of_get? ht, habs x, val_of_not_mem hno]
  cases t with
  | var w =>
    have hne : w.id ≠ x := by
      rintro rfl
      exact (hr.types _ hmem w.id (by simp)).2 hx
    have hw : w.id ∈ Dict.keys s := by
      by_contra hw
      rw [inst_var, val_of_not_mem hw] at hfree
      exact hne (free_injective hfree)
    obtain ⟨u, hu⟩ := Option.ne_none_iff_exists'.1 (mt get?_eq_none_iff.1 (not_not_intro hw))
    rw [inst_var, val_of_get? hu] at hfree
    obtain ⟨z, rfl, rfl⟩ := bare_eq_var hfree
    have hzw := hso w.id z (mem_of_get?_eq_some hu)
    have hwz := hro z.id w hmem
    refine hne (horder w.id (hs.keys _ hw) z.id (hr.keys _ hx) ?_)
    rw [Var.order_swap] at hzw
    cases h : Var.order w.id z.id with
    | eq => rfl
    | lt => simp [h] at hzw
    | gt => exact absurd h hwz
  | missing => cases hfree
  | con name args l =>
    rw [inst_con] at hfree
    cases hfree
  | record name fields l =>
    rw [inst_record] at hfree
    cases hfree

/-- Two solved forms that absorb each other bind the same variables to equal types. -/
theorem rel_of_absorbs (hr : r.Within vs) (hs : s.Within vs) (hro : r.Ordered) (hso : s.Ordered)
    (horder : ∀ y ∈ vs, ∀ z ∈ vs, Var.order y z = .eq → y = z) (hrs : s.val.Absorbs r)
    (hsr : r.val.Absorbs s) (x : String) :
    Option.Rel (fun t u => t.equal u = true) (get? r x) (get? s x) := by
  have hkeys (y : String) : y ∈ Dict.keys r ↔ y ∈ Dict.keys s :=
    ⟨mem_keys_of_absorbs hr hs hro hso horder hrs, mem_keys_of_absorbs hs hr hso hro horder hsr⟩
  cases ht : get? r x with
  | none =>
    have hno : get? s x = none := by
      rw [get?_eq_none_iff, ← hkeys, ← get?_eq_none_iff, ht]
    rw [hno]
    exact .none
  | some t =>
    have hmem := mem_of_get?_eq_some ht
    obtain ⟨u, hu⟩ := Option.ne_none_iff_exists'.1
      (mt get?_eq_none_iff.1 (not_not_intro ((hkeys x).1 (Dict.mem_keys_of_mem hmem))))
    rw [hu]
    refine .some (equal_iff.2 ?_)
    have hthis := hrs x
    rw [val_of_get? ht, val_of_get? hu, inst_bare] at hthis
    -- No variable of the type is bound.
    rw [← hthis]
    refine (inst_congr fun id hid => val_of_not_mem fun hkey => ?_).symm
    exact (hr.types _ hmem id hid).2 ((hkeys id).2 hkey)

end Subst

/-! ## Equations in any order -/

namespace Constraint

variable {reg : Registry} {keep : Bool} {Q : Var → Prop} {a : Attachments} {cs ds : List Constraint}

/-- The equations are between types without records and gaps, over variables such that `Q`. Each name is
one of these variables, no two names come at the same place, and classes of constructors are registered
for them. -/
structure Unambiguous (reg : Registry) (Q : Var → Prop) (a : Attachments) (cs : List Constraint) :
    Prop where
  serves : a.Serves Q
  one : OneEach Q
  order : ∀ v w, Q v → Q w → Var.order v.id w.id = .eq → v.id = w.id
  regular : ∀ c ∈ cs, c.kind = .equality → c.left.Regular reg Q a ∧ c.right.Regular reg Q a

/-- The variables of all equations. -/
def equationIds (cs : List Constraint) : List String :=
  (cs.filter (·.kind = .equality)).flatMap fun c => c.left.ids ++ c.right.ids

theorem mem_equationIds {id : String} :
    id ∈ equationIds cs ↔ ∃ c ∈ cs, c.kind = .equality ∧ (id ∈ c.left.ids ∨ id ∈ c.right.ids) := by
  simp [equationIds, and_assoc]

theorem Unambiguous.perm (h : Unambiguous reg Q a cs) (hperm : cs.Perm ds) : Unambiguous reg Q a ds :=
  ⟨h.serves, h.one, h.order, fun c hc => h.regular c (hperm.mem_iff.2 hc)⟩

theorem Unambiguous.regular_of_ids (h : Unambiguous reg Q a cs) {vs : List String}
    (hvs : ∀ id ∈ equationIds cs, id ∈ vs) : ∀ c ∈ cs, c.Regular reg Q a vs :=
  fun c hc hk => ⟨h.regular c hc hk,
    fun id hid => hvs id (mem_equationIds.2 ⟨c, hc, hk, .inl hid⟩),
    fun id hid => hvs id (mem_equationIds.2 ⟨c, hc, hk, .inr hid⟩)⟩

theorem Unambiguous.order_ids (h : Unambiguous reg Q a cs) :
    ∀ x ∈ equationIds cs, ∀ y ∈ equationIds cs, Var.order x y = .eq → x = y := by
  have hvar (x) (hx : x ∈ equationIds cs) : ∃ v, Q v ∧ v.id = x := by
    obtain ⟨c, hc, hk, hid⟩ := mem_equationIds.1 hx
    obtain ⟨hl, hr⟩ := h.regular c hc hk
    rcases hid with hid | hid <;> obtain ⟨v, hv, hid⟩ := mem_map.1 hid
    · exact ⟨v, hl.known.of_mem_vars hv, hid⟩
    · exact ⟨v, hr.known.of_mem_vars hv, hid⟩
  intro x hx y hy
  obtain ⟨v, hv, rfl⟩ := hvar x hx
  obtain ⟨w, hw, rfl⟩ := hvar y hy
  exact h.order v w hv hw

theorem Unambiguous.solveWith_eq (h : Unambiguous reg Q a cs) :
    solveWith reg keep a cs = upTo reg keep a cs cs.length := by
  have hregular := regular_upTo reg keep h.one h.serves (h.regular_of_ids fun _ hid => hid)
    (Nat.le_refl _)
  rw [solveWith_eq_upTo, hregular.plain.settled]

theorem Unambiguous.regular_solveWith (h : Unambiguous reg Q a cs) (keep : Bool) {vs : List String}
    (hvs : ∀ id ∈ equationIds cs, id ∈ vs) : (solveWith reg keep a cs).Regular reg Q a vs := by
  rw [h.solveWith_eq]
  exact regular_upTo reg keep h.one h.serves (h.regular_of_ids hvs) (Nat.le_refl _)

/-- If nothing fails in one order, then nothing fails in another, and the other solution is absorbed. -/
theorem Unambiguous.absorbs (h : Unambiguous reg Q a cs) (hperm : cs.Perm ds)
    (hfail : (solveWith reg keep a cs).failures = []) : (solveWith reg keep a ds).failures = [] ∧
      (solveWith reg keep a cs).subst.val.Absorbs (solveWith reg keep a ds).subst := by
  have hmeets := (h.regular_solveWith keep fun _ hid => hid).meets
  rw [h.solveWith_eq] at hfail hmeets ⊢
  rw [(h.perm hperm).solveWith_eq]
  have hsolves := upTo_solves h.one h.serves (h.regular_of_ids fun _ hid => hid)
    (Nat.le_refl _) hfail
  rw [take_length] at hsolves
  have hall := follows_upTo (Unify.guides_regular keep h.one a _) ⟨h.serves, .of_sets rfl⟩ hmeets
    (fun c hc hk => ⟨(h.perm hperm).regular c hc hk, hsolves c (hperm.mem_iff.2 hc) hk⟩) (Nat.le_refl _)
  exact ⟨hall.failures, hall.absorbs⟩

/-- Whether an equation fails does not depend on the order of the equations. If none fails, neither does
what is bound. -/
theorem solveWith_perm (reg : Registry) (keep : Bool) (Q : Var → Prop) (a : Attachments)
    (cs ds : List Constraint) (h : Unambiguous reg Q a cs) (hperm : cs.Perm ds) :
    ((solveWith reg keep a ds).failures = [] ↔ (solveWith reg keep a cs).failures = []) ∧
      ((solveWith reg keep a cs).failures = [] → ∀ id, Option.Rel (fun t u => t.equal u = true)
        (Dict.get? (solveWith reg keep a cs).subst id)
        (Dict.get? (solveWith reg keep a ds).subst id)) := by
  have hback := h.perm hperm
  refine ⟨⟨fun hfail => (hback.absorbs hperm.symm hfail).1, fun hfail => (h.absorbs hperm hfail).1⟩, ?_⟩
  intro hfail id
  obtain ⟨hnone, hsr⟩ := h.absorbs hperm hfail
  obtain ⟨-, hrs⟩ := hback.absorbs hperm.symm hnone
  have hids (id : String) : id ∈ equationIds ds → id ∈ equationIds cs := by
    rw [mem_equationIds, mem_equationIds]
    rintro ⟨c, hc, hid⟩
    exact ⟨c, hperm.mem_iff.2 hc, hid⟩
  have hleft := h.regular_solveWith keep fun _ hid => hid
  have hright := hback.regular_solveWith keep hids
  exact Subst.rel_of_absorbs hleft.within hright.within hleft.ordered hright.ordered h.order_ids hrs hsr id

/-- Of the two variables of `numbered`, the first is the second, and a list of it is a list of integers. -/
def listedEquations : List Constraint :=
  [.equal (.var ⟨"a", 0⟩) (.var ⟨"b", 1⟩),
    .equal (.app "List" [.var ⟨"a", 0⟩]) (.app "List" [.const Ty.integer [Class.num]])]

theorem unambiguous_listed :
    Unambiguous Class.ofPrimitive (fun v => v = ⟨"a", 0⟩ ∨ v = ⟨"b", 1⟩) numbered listedEquations where
  serves := distinct_numbered.serves
  one := distinct_numbered.one
  order := by
    rintro v w (rfl | rfl) (rfl | rfl) <;> decide
  regular := by
    -- No label has a cell.
    have hcon (name : String) (args : List Ty) (classes : ClassSet)
        (hreg : ∀ k ∈ classes, k ∈ Class.ofPrimitive name)
        (hargs : ∀ t ∈ args, t.Regular Class.ofPrimitive (fun v => v = ⟨"a", 0⟩ ∨ v = ⟨"b", 1⟩)
          numbered) :
        (Ty.con name args ⟨classes, none, none⟩).Regular Class.ofPrimitive
          (fun v => v = ⟨"a", 0⟩ ∨ v = ⟨"b", 1⟩) numbered :=
      .con (fun c hc => nomatch hc) hreg hargs
    intro c hc _
    rcases mem_cons.1 hc with rfl | hc
    · exact ⟨.var (.inl rfl), .var (.inr rfl)⟩
    · obtain rfl := mem_singleton.1 hc
      refine ⟨hcon "List" _ [] (by simp) fun t ht => ?_, hcon "List" _ [] (by simp) fun t ht => ?_⟩
      · rw [mem_singleton.1 ht]
        exact .var (.inl rfl)
      · rw [mem_singleton.1 ht]
        exact hcon Ty.integer [] [Class.num] (by decide) (by simp)

theorem solveWith_perm_listed : (solveWith Class.ofPrimitive true numbered listedEquations).failures = [] ∧
      (solveWith Class.ofPrimitive true numbered listedEquations.reverse).failures = [] ∧
      ∀ id, Option.Rel (fun t u => t.equal u = true)
        (Dict.get? (solveWith Class.ofPrimitive true numbered listedEquations).subst id)
        (Dict.get? (solveWith Class.ofPrimitive true numbered listedEquations.reverse).subst id) := by
  have hnone : (solveWith Class.ofPrimitive true numbered listedEquations).failures = [] := by cbv
  obtain ⟨hiff, hrel⟩ := solveWith_perm Class.ofPrimitive true _ numbered listedEquations
    listedEquations.reverse unambiguous_listed (reverse_perm _).symm
  exact ⟨hnone, hiff.2 hnone, hrel hnone⟩

end Constraint

end ScriptTyping
