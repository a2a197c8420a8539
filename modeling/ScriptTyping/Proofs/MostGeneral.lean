import ScriptTyping.Proofs.Replay

/-!
# Unification is most general

On types without records and gaps, unification is complete. If some valuation makes two types one, and
no class stands against it (`Guides`), then bindings are found, and the valuation absorbs them: it gives
the same to what a variable is bound to as to the variable (`Valuation.Absorbs`). So every way to make
the two types one is an instance of the one that was found. Where there are no classes, every valuation
is such (`guides_simple`).

Absorption is what carries the argument from one pair of parts to the next: a valuation that absorbs
the bindings found so far makes the next pair one before they are applied exactly if it does so
after.
-/

namespace ScriptTyping

open Ty List

variable {a b : Attachments} {s : Subst} {t : Ty} {v : Var}

/-- The valuation gives the same to what a variable is bound to as to the variable. -/
def Valuation.Absorbs (θ : Valuation) (s : Subst) : Prop := ∀ id, (s.val id).inst θ = θ id

namespace Valuation

variable {θ : Valuation}

theorem absorbs_nil (θ : Valuation) : θ.Absorbs [] := fun _ => rfl

theorem absorbs_single {id : String} (h : θ id = t.inst θ) : θ.Absorbs [(id, t)] := by
  intro id'
  rw [Subst.val_single]
  split
  next heq => rw [inst_bare, ← h, heq]
  next => rfl

/-- Bindings that are absorbed change nothing under the valuation. -/
theorem Absorbs.inst_apply (h : θ.Absorbs s) (a : Attachments) (t : Ty) :
    (Subst.apply a s t).inst θ = t.inst θ := by
  rw [Subst.inst_apply]
  exact inst_congr fun id _ => h id

/-- A valuation that absorbs what was found before and what was found next absorbs both together. -/
theorem Absorbs.next {r : Subst} {keep : Bool} (hs : θ.Absorbs s) (hr : θ.Absorbs r) (hsorted : Dict.Sorted s) :
    θ.Absorbs (a.extend keep r s).1 := by
  intro id
  rw [Subst.val_extend hsorted, inst_inst]
  calc ((s.val id).inst fun id => (r.val id).inst θ) = (s.val id).inst θ :=
        inst_congr fun id _ => hr id
    _ = θ id := hs id

end Valuation

/-! ## Types without classes -/

/-- No class is attached to a variable of the type, and it has no gaps and no records. -/
def Ty.Simple (a : Attachments) (t : Ty) : Prop := t.Plain ∧ ∀ v ∈ t.vars, a.get v.cell = []

/-- Cells without classes stay so. -/
def Attachments.Spares (a b : Attachments) : Prop := ∀ c, a.get c = [] → b.get c = []

namespace Ty

variable {a b : Attachments} {t u : Ty}

theorem simple_var : (var v).Simple a ↔ a.get v.cell = [] := by
  refine ⟨fun h => h.2 v (by simp [vars]), fun h => ⟨.var v, ?_⟩⟩
  simpa [vars] using h

theorem simple_con {name : String} {args : List Ty} {l : Label} :
    (con name args l).Simple a ↔ ∀ t ∈ args, t.Simple a := by
  constructor
  · rintro ⟨hplain, hvars⟩ t ht
    refine ⟨hplain.child ht, fun v hv => hvars v ?_⟩
    rw [vars, varsAll_eq_flatMap]
    exact mem_flatMap.2 ⟨t, ht, hv⟩
  · intro h
    refine ⟨.con fun t ht => (h t ht).1, fun v hv => ?_⟩
    rw [vars, varsAll_eq_flatMap] at hv
    obtain ⟨t, ht, hv⟩ := mem_flatMap.1 hv
    exact (h t ht).2 v hv

theorem Simple.child {x : Ty} (h : t.Simple a) (hx : x.Child t) : x.Simple a := by
  cases h.1 with
  | var => cases hx
  | con => exact simple_con.1 h x hx

theorem Simple.mono (h : t.Simple a) (hab : a.Spares b) : t.Simple b :=
  ⟨h.1, fun v hv => hab _ (h.2 v hv)⟩

theorem Simple.substitute (h : t.Simple a) (hs : ∀ e ∈ s, e.2.Simple a) : (t.substitute b s).Simple a := by
  induction t with
  | missing => cases h.1
  | var v =>
    rw [Ty.substitute]
    cases hget : Dict.get? s v.id with
    | none => exact h
    | some u => exact hs _ (Dict.mem_of_get?_eq_some hget)
  | con name args l ih =>
    rw [Ty.substitute, substituteAll_eq_map]
    exact simple_con.2 (forall_mem_map.2 fun t ht => ih t ht (simple_con.1 h t ht))
  | record => cases h.1

theorem Simple.apply (h : t.Simple a) (hs : ∀ e ∈ s, e.2.Simple a) : (Subst.apply b s t).Simple a := by
  cases s with
  | nil => exact h
  | cons e s => exact h.substitute hs

end Ty

namespace Attachments

theorem Spares.rfl : a.Spares a := fun _ h => h

theorem Spares.trans {c : Attachments} (h : a.Spares b) (h' : b.Spares c) : a.Spares c :=
  fun x hx => h' x (h x hx)

theorem spares_share {w : Var} (hv : a.get v.cell = []) (hw : a.get w.cell = []) :
    a.Spares (Unify.share a v w) := by
  intro c hc
  have hunion : ClassSet.union (a.get v.cell) (a.get w.cell) = [] := by rw [hv, hw]; rfl
  simp only [Unify.share, hunion, get_set]
  split
  · rfl
  · split
    · rfl
    · exact hc

theorem sets_adoptLabel (a : Attachments) (l : Label) : (a.adoptLabel l).2.sets = a.sets := by
  unfold adoptLabel
  split <;> rfl

mutual

theorem sets_adopt (a : Attachments) : ∀ t : Ty, (a.adopt t).2.sets = a.sets
  | .missing => rfl
  | .var _ => rfl
  | .con _ args l => (sets_adoptLabel _ l).trans (sets_adoptAll a args)
  | .record _ fields l => (sets_adoptLabel _ l).trans (sets_adoptFields a fields)

theorem sets_adoptAll (a : Attachments) : ∀ ts : List Ty, (a.adoptAll ts).2.sets = a.sets
  | [] => rfl
  | t :: ts => (sets_adoptAll _ ts).trans (sets_adopt a t)

theorem sets_adoptFields (a : Attachments) : ∀ fs : List (String × Ty), (a.adoptFields fs).2.sets = a.sets
  | [] => rfl
  | (_, t) :: fs => (sets_adoptFields _ fs).trans (sets_adopt a t)

end

theorem sets_adoptIf (keep : Bool) (a : Attachments) (fs : List (String × Ty)) :
    (a.adoptIf keep fs).2.sets = a.sets := by
  cases keep
  · rfl
  · exact sets_adoptFields a fs

theorem sets_extend (keep : Bool) (a : Attachments) (r s : Subst) : (a.extend keep r s).2.sets = a.sets :=
  (sets_adoptIf ..).trans (sets_adoptIf ..)

end Attachments

theorem Ty.Simple.adopt (h : t.Simple a) : (b.adopt t).1.Simple a :=
  ⟨plain_of_bare (by rw [b.bare_adopt]; exact plain_bare.2 h.1), by rw [b.vars_adopt]; exact h.2⟩

/-! ## The steps -/

/-- The two types have no common instance, or one would have to contain itself. -/
def UnifyError.Structural : UnifyError → Prop
  | .mismatch _ _ => True
  | .occurs _ _ => True
  | _ => False

namespace Unify

variable {reg : Registry} {keep : Bool} {a : Attachments} {t u : Ty} {θ : Valuation} {v w : Var} {e : UnifyError}

/-- A variable without classes is bound to a type unless it occurs there. -/
theorem bindChecked_of_simple (hv : (Ty.var v).Simple a) (ht : t.Compound) :
    bindChecked reg a v t = if t.occurs v.id then .error (.occurs v.id t) else .ok [(v.id, t)] := by
  have hlack : lacking reg a (a.get v.cell) t = [] := by
    rw [simple_var.1 hv]
    rfl
  unfold bindChecked bind
  rw [hlack]
  dsimp only
  split
  next w => exact absurd rfl (ht.2 w)
  next => rfl

/-- A variable without classes is bound to a type if some valuation makes them one. -/
theorem bindChecked_complete (hv : (Ty.var v).Simple a) (ht : t.Compound)
    (h : θ v.id = t.inst θ) : bindChecked reg a v t = .ok [(v.id, t)] := by
  rw [bindChecked_of_simple hv ht, if_neg]
  exact fun hocc => ne_inst_of_mem_ids (occurs_iff_mem_ids.1 hocc) ht.2 h

theorem structural_bindChecked (hv : (Ty.var v).Simple a) (ht : t.Compound) (h : bindChecked reg a v t = .error e) :
    e.Structural := by
  rw [bindChecked_of_simple hv ht] at h
  split at h <;> cases h
  exact trivial

theorem absorbs_bindVars (h : θ v.id = θ w.id) : θ.Absorbs (bindVars v w) := by
  rcases bindVars_cases v w with heq | heq <;> rw [heq]
  · exact Valuation.absorbs_single h.symm
  · exact Valuation.absorbs_single h

theorem eq_of_mem_zip {α β : Type} {f : α → β} {xs ys : List α} (h : xs.map f = ys.map f)
    {p : α × α} (hp : p ∈ xs.zip ys) : f p.1 = f p.2 := by
  induction xs generalizing ys with
  | nil => simp at hp
  | cons x xs ih =>
    cases ys with
    | nil => simp at hp
    | cons y ys =>
      obtain ⟨hx, hxs⟩ := List.cons.inj h
      rcases mem_cons.1 hp with rfl | hp
      · exact hx
      · exact ih hxs hp

/-- A type without records that can be taken apart is a constructor. -/
theorem exists_con (ht : t.Plain) (hc : t.Compound) : ∃ name args l, t = .con name args l := by
  cases ht with
  | var v => exact absurd rfl (hc.2 v)
  | con => exact ⟨_, _, _, rfl⟩

/-- Types without records that have a common instance have parts that do. -/
theorem parts_of_inst_eq (ht : t.Plain) (hu : u.Plain) (htc : t.Compound)
    (huc : u.Compound) (h : t.inst θ = u.inst θ) :
    (parts t u).fault = none ∧ ∀ p ∈ (parts t u).pairs, p.1.inst θ = p.2.inst θ := by
  obtain ⟨n, xs, l, rfl⟩ := exists_con ht htc
  obtain ⟨m, ys, k, rfl⟩ := exists_con hu huc
  rw [inst_con, inst_con] at h
  obtain ⟨hname, hargs, -⟩ := Ty.con.inj h
  have hlen : xs.length = ys.length := by simpa using congrArg List.length hargs
  have hparts : parts (.con n xs l) (.con m ys k) = ⟨xs.zip ys, none⟩ := if_pos ⟨hname, hlen⟩
  rw [hparts]
  exact ⟨rfl, fun p hp => eq_of_mem_zip hargs hp⟩

theorem structural_parts (ht : t.Plain) (hu : u.Plain) (htc : t.Compound) (huc : u.Compound)
    (h : (parts t u).fault = some e) : e.Structural := by
  obtain ⟨n, xs, l, rfl⟩ := exists_con ht htc
  obtain ⟨m, ys, k, rfl⟩ := exists_con hu huc
  rw [parts] at h
  split at h
  · cases h
  · cases h
    exact trivial

theorem Course.guard_none (c : Course Subst) : c.guard none = c := by
  unfold guard
  split
  · contradiction
  · rfl

theorem Course.guard_eq_error {c : Course Subst} {fault : Option UnifyError}
    (h : (c.guard fault).result = .error e) : c.result = .error e ∨ fault = some e := by
  unfold guard at h
  split at h
  · cases h
    exact .inr rfl
  · exact .inl h

/-! ## Completeness -/

section Complete

variable {A M : Attachments → Prop} {P : Ty → Prop}

/-- No class stands against a valuation: while attachments are such that `A` and `M`, two variables that it
makes one may share their classes, and a variable is bound to a type that it makes one with it. -/
structure Guides (reg : Registry) (keep : Bool) (A M : Attachments → Prop) (P : Ty → Prop) (θ : Valuation) :
    Prop extends Stable keep A P where
  plain : ∀ t, P t → t.Plain
  of_sets : ∀ a b, b.sets = a.sets → M a → M b
  meet : ∀ a v w, A a → M a → P (.var v) → P (.var w) → θ v.id = θ w.id → M (Unify.share a v w)
  bind : ∀ a v t, A a → M a → P (.var v) → P t → t.Compound → θ v.id = t.inst θ →
    bindChecked reg a v t = .ok [(v.id, t)]

mutual

/-- If a valuation makes two types one and no class stands against it, bindings are found and the valuation
absorbs them. -/
theorem Run.complete (hG : Guides reg keep A M P θ) : ∀ {a : Attachments} {t u : Ty} {c : Course Subst},
    Run reg keep a t u c → A a → M a → P t → P u → t.inst θ = u.inst θ →
    ∃ s, c.result = .ok s ∧ θ.Absorbs s ∧ M c.attachments
  | _, _, _, _, .missingLeft _ _, _, _, ht, _, _ => by cases hG.plain _ ht
  | _, _, _, _, .missingRight _ _, _, _, _, hu, _ => by cases hG.plain _ hu
  | _, _, _, _, .same _ _, _, hM, _, _, _ => ⟨[], rfl, θ.absorbs_nil, hM⟩
  | _, _, _, _, .vars _ _, ha, hM, ht, hu, heq =>
    ⟨_, rfl, absorbs_bindVars heq, hG.meet _ _ _ ha hM ht hu heq⟩
  | _, _, _, _, .left _ _ hc, ha, hM, ht, hu, heq =>
    ⟨_, hG.bind _ _ _ ha hM ht hu hc heq, Valuation.absorbs_single heq, hM⟩
  | _, _, _, _, .right _ _ hc, ha, hM, ht, hu, heq =>
    ⟨_, hG.bind _ _ _ ha hM hu ht hc heq.symm, Valuation.absorbs_single heq.symm, hM⟩
  | _, t, u, _, .parts htc huc h, ha, hM, ht, hu, heq => by
    obtain ⟨hfault, hpairs⟩ := parts_of_inst_eq (hG.plain t ht) (hG.plain u hu) htc huc heq
    rw [hfault, Course.guard_none]
    exact RunEach.complete hG h ha hM Dict.sorted_nil (by simp)
      (fun p hp => forall_parts hG.child ht hu hp) θ.absorbs_nil hpairs

theorem RunEach.complete (hG : Guides reg keep A M P θ) : ∀ {a : Attachments} {s : Subst}
    {ps : List (Ty × Ty)} {c : Course Subst}, RunEach reg keep a s ps c → A a → M a → Dict.Sorted s →
    (∀ e ∈ s, P e.2) → (∀ p ∈ ps, P p.1 ∧ P p.2) → θ.Absorbs s → (∀ p ∈ ps, p.1.inst θ = p.2.inst θ) →
    ∃ r, c.result = .ok r ∧ θ.Absorbs r ∧ M c.attachments
  | _, _, _, _, .nil _ s, _, hM, _, _, _, habs, _ => ⟨s, rfl, habs, hM⟩
  | a, s, p :: _, _, .fail h, ha, hM, _, hs, hps, habs, heq => by
    obtain ⟨hp1, hp2⟩ := hps p mem_cons_self
    obtain ⟨r, hr, -⟩ := Run.complete hG h ha hM (hG.apply a s _ ha hp1 hs) (hG.apply a s _ ha hp2 hs)
      (by rw [habs.inst_apply, habs.inst_apply, heq p mem_cons_self])
    cases hr
  | a, s, p :: ps, _, .next (b := b) (r := r) h hrest, ha, hM, hsorted, hs, hps, habs, heq => by
    obtain ⟨hp1, hp2⟩ := hps p mem_cons_self
    have hx := hG.apply a s _ ha hp1 hs
    have hy := hG.apply a s _ ha hp2 hs
    obtain ⟨_, hr, habs', hM'⟩ := Run.complete hG h ha hM hx hy
      (by rw [habs.inst_apply, habs.inst_apply, heq p mem_cons_self])
    cases hr
    have hgood := (Run.sound h (hG.plain _ hx).proper (hG.plain _ hy).proper rfl).1
    have hover := Run.over hG.toStable h ha hx hy
    obtain ⟨-, hall, hlast⟩ := hG.next hover.attachments hs (hover.found r rfl)
    obtain ⟨all, hfound, hfinal⟩ := RunEach.complete hG hrest hlast
      (hG.of_sets _ _ (Attachments.sets_extend ..) hM') (Subst.sorted_extend keep b hgood.sorted hsorted) hall
      (fun q hq => hps q (mem_cons_of_mem _ hq)) (habs.next habs' hsorted)
      (fun q hq => heq q (mem_cons_of_mem _ hq))
    exact ⟨all, hfound, hfinal⟩

end

end Complete

/-! ## Unification without classes -/

theorem stable_simple (keep : Bool) (a : Attachments) : Stable keep a.Spares (Ty.Simple a) where
  child _ _ := Simple.child
  apply _ _ _ _ ht hs := ht.apply hs
  adopt _ c t hc ht := ⟨ht.adopt, fun x hx => by rw [Attachments.get, Attachments.get?, c.sets_adopt]; exact hc x hx⟩
  share _ _ _ hc hv hw := hc.trans (Attachments.spares_share (hc _ (simple_var.1 hv)) (hc _ (simple_var.1 hw)))

theorem guides_simple (reg : Registry) (keep : Bool) (a : Attachments) (θ : Valuation) :
    Guides reg keep a.Spares (fun _ => True) (Ty.Simple a) θ where
  toStable := stable_simple keep a
  plain _ ht := ht.1
  of_sets _ _ _ _ := trivial
  meet _ _ _ _ _ _ _ _ := trivial
  bind _ _ _ ha _ hv _ hc heq := bindChecked_complete (hv.mono ha) hc heq

mutual

/-- Types without classes can only fail to go together by their structure. -/
theorem Run.structural : ∀ {b : Attachments} {t u : Ty} {c : Course Subst}, Run reg keep b t u c →
    a.Spares b → t.Simple a → u.Simple a → ∀ e, c.result = .error e → e.Structural
  | _, _, _, _, .left _ _ hc, hb, ht, _, _, he => structural_bindChecked (ht.mono hb) hc he
  | _, _, _, _, .right _ _ hc, hb, _, hu, _, he => structural_bindChecked (hu.mono hb) hc he
  | _, t, u, _, .parts htc huc h, hb, ht, hu, e, he => by
    rcases Course.guard_eq_error he with he | he
    · exact RunEach.structural h hb (by simp) (fun p hp => forall_parts (fun _ _ => Simple.child) ht hu hp) e he
    · exact structural_parts ht.1 hu.1 htc huc he

theorem RunEach.structural : ∀ {b : Attachments} {s : Subst} {ps : List (Ty × Ty)} {c : Course Subst},
    RunEach reg keep b s ps c → a.Spares b → (∀ e ∈ s, e.2.Simple a) →
    (∀ p ∈ ps, p.1.Simple a ∧ p.2.Simple a) → ∀ e, c.result = .error e → e.Structural
  | _, _, p :: _, _, .fail h, hb, hs, hps, e, he =>
    Run.structural h hb ((hps p mem_cons_self).1.apply hs) ((hps p mem_cons_self).2.apply hs) e he
  | b, s, p :: ps, _, .next (r := r) h hrest, hb, hs, hps, e, he => by
    obtain ⟨hp1, hp2⟩ := hps p mem_cons_self
    have hover := Run.over (stable_simple keep a) h hb (hp1.apply hs) (hp2.apply hs)
    obtain ⟨-, hall, hlast⟩ := (stable_simple keep a).next hover.attachments hs (hover.found r rfl)
    exact RunEach.structural hrest hlast hall (fun q hq => hps q (mem_cons_of_mem _ hq)) e he

end

end Unify

end ScriptTyping
