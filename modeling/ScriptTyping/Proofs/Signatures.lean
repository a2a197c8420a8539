import ScriptTyping.Proofs.FreeVariables
import ScriptTyping.Proofs.CheckSound
import ScriptTyping.Proofs.InferOwned

/-!
# Signatures of builtins

A check binds builtins to the types of their signatures, one after another. Signatures are resolved where
nothing is declared, so their types have no records and make no tails. The variables of such a type are
made for it alone. None of them occurs in the types before, so the scheme stands for all of them.

When a builtin is bound, its variables are taken out of use (`Owners.seal`): from there on they are owned
by no type, and what is attached to them stays as it is.

Main statements: `Bound.Sealed.bindAll` and `Bound.Sealed.signatures`.
-/

namespace ScriptTyping

open Ty Attachments Infer List Scope

variable {w w' : Owners} {b : Builtin} {f : Frame} {prims : List String} {i : Nat} {found : Option Ty} {t : Ty}

variable {supply supply' s : Supply} {v u : Var}

/-! ## Variables that stand for any type -/

/-- A variable stands for any type from here on. -/
def Owner.seal : Owner → Owner
  | free i => bound i
  | o => o

/-- All variables stand for any type from here on. -/
def Owners.seal (w : Owners) : Owners := w.map Owner.seal

namespace Owners

theorem getElem?_seal (w : Owners) (c : Cell) : w.seal[c]? = (w[c]?).map Owner.seal := getElem?_map

theorem seal_ne_free (c : Cell) (i : Nat) : w.seal[c]? ≠ some (.free i) := by
  rw [getElem?_seal]
  cases w[c]? with
  | none => simp
  | some o => cases o <;> simp [Owner.seal]

theorem Owns.seal (h : w.Owns v) : w.seal.Binds v := by
  obtain ⟨i, hi, hid⟩ := h
  refine ⟨i, ?_, hid⟩
  rw [getElem?_seal, hi]
  rfl

theorem Leaves.seal {l : Label} (h : w.Leaves l) : w.seal.Leaves l := by
  intro c hc
  refine ⟨?_, (h c hc).2⟩
  rw [getElem?_seal, (h c hc).1]
  rfl

end Owners

/-- Where there are no tails, no type is left that could have a variable. -/
theorem Supply.Owned.seal (h : s.Owned w) (ht : s.attachments.tails = []) : s.Owned w.seal := by
  have howner {c : Cell} {o : Owner} {i : Nat} (hc : w.seal[c]? = some o) (ho : o.number? = some i) :
      ∃ o', w[c]? = some o' ∧ o'.number? = some i := by
    rw [Owners.getElem?_seal] at hc
    obtain ⟨o', ho', rfl⟩ := Option.map_eq_some_iff.1 hc
    refine ⟨o', ho', ?_⟩
    cases o' <;> exact ho
  refine ⟨by simp [Owners.seal, h.length], h.unfilled, fun c o i hc ho => ?_, fun c d o o' i hc hd ho ho' => ?_,
    by simp [AllTails, ht]⟩
  · obtain ⟨x, hx, hi⟩ := howner hc ho
    exact h.numbers c x i hx hi
  · obtain ⟨x, hx, hi⟩ := howner hc ho
    obtain ⟨y, hy, hj⟩ := howner hd ho'
    exact h.one c d x y i hx hy hi hj

/-! ## Generalisation -/

theorem Supply.Owned.var_eq (h : s.Owned w) {o o' : Owner} {j : Nat} (hu : w[u.cell]? = some o)
    (hv : w[v.cell]? = some o') (ho : o.number? = some i) (ho' : o'.number? = some j)
    (hui : u.id = Var.generatedId i) (hvj : v.id = Var.generatedId j) (hid : u.id = v.id) : u = v := by
  obtain rfl : i = j := Var.generatedId_injective (hui.symm.trans (hid.trans hvj))
  have hcell := h.one u.cell v.cell o o' i hu hv ho ho'
  cases u
  cases v
  exact Var.mk.injEq .. ▸ ⟨hid, hcell⟩

theorem Supply.Owned.mem_freeVars (hs : s.Owned w) (ht : t.Owned w) : v ∈ t.freeVars ↔ v ∈ t.vars := by
  refine Ty.mem_freeVars fun u hu v hv hid => ?_
  obtain ⟨i, hi, hui⟩ := ht.of_mem_vars hu
  obtain ⟨j, hj, hvj⟩ := ht.of_mem_vars hv
  exact hs.var_eq hi hj rfl rfl hui hvj hid

/-- A variable that stands for any type is none of those that types of the program can have. -/
theorem Supply.Owned.id_ne (hs : s.Owned w) (hu : w.Binds u) (hv : w.Owns v) : u.id ≠ v.id := by
  obtain ⟨i, hi, hui⟩ := hu
  obtain ⟨j, hj, hvj⟩ := hv
  intro hid
  obtain rfl := hs.var_eq hi hj rfl rfl hui hvj hid
  rw [hi] at hj
  cases hj

/-- The scheme stands for all variables of the type, if those in the frame are all bound. -/
theorem Scope.generalize_eq (hs : supply.Owned w') (hw : w <+: w') (hf : ∀ e ∈ f.types, e.2.Signed w)
    (ht : t.Owned w') : generalize [f] t = ⟨t.freeVars, t⟩ := by
  refine congrArg (Scheme.mk · t) (filter_eq_self.2 fun v hv => ?_)
  rw [Bool.not_eq_true', Bool.eq_false_iff]
  intro hmentions
  simp only [mentions, any_cons, any_nil, Bool.or_false, any_eq_true] at hmentions
  obtain ⟨e, he, hoccurs⟩ := hmentions
  obtain ⟨u, hu, hid⟩ := Ty.mem_ids.1 (Ty.occurs_iff_mem_ids.1 hoccurs)
  exact hs.id_ne (((hf e he).type.of_mem_vars hu).1.mono hw)
    (ht.of_mem_vars ((hs.mem_freeVars ht).1 hv)) hid

/-! ## Builtins -/

theorem Scope.owned_start (h : f.Global w) : (start f).Owned w := .top Frame.all_empty h

/-- A signature is resolved to a type that is owned. -/
theorem owned_signatureType (h : supply.Owned w) (prims : List String)
    (signature : String) : ∃ w' : Owners, w <+: w' ∧ (signatureType prims supply signature).2.Owned w' ∧
      w.Spared supply.attachments (signatureType prims supply signature).2.attachments ∧
      ∀ t, (signatureType prims supply signature).1 = .ok t → t.Owned w' := by
  unfold signatureType
  split
  next => exact ⟨w, prefix_rfl, h, .rfl, fun _ ht => nomatch ht⟩
  next e _ =>
    have hstart : Inference.Owned w ⟨prims, supply, start .global, [], []⟩ :=
      ⟨h, owned_start Frame.all_global, by simp⟩
    obtain ⟨w', hkept, hok⟩ := keeps_resolve (w := w) e _ hstart
    exact ⟨w', hkept.owners, hkept.owned.supply, hkept.spared, fun t ht => (hok t ht).1⟩

theorem Builtin.owned_type (h : supply.Owned w) (prims : List String) (b : Builtin) :
    ∃ w' : Owners, w <+: w' ∧ (b.type prims supply).2.Owned w' ∧
      w.Spared supply.attachments (b.type prims supply).2.attachments ∧
      ∀ t, (b.type prims supply).1 = .ok (some t) → t.Owned w' := by
  have hsigned : ∃ w' : Owners, w <+: w' ∧ (signatureType prims supply b.signature).2.Owned w' ∧
      w.Spared supply.attachments (signatureType prims supply b.signature).2.attachments ∧
      ∀ t, (signatureType prims supply b.signature).1.map some = .ok (some t) → t.Owned w' := by
    obtain ⟨w', hw, hsupply, hspared, hok⟩ := owned_signatureType h prims b.signature
    refine ⟨w', hw, hsupply, hspared, fun t ht => ?_⟩
    cases hr : (signatureType prims supply b.signature).1 with
    | error e =>
      rw [hr] at ht
      cases ht
    | ok u =>
      rw [hr] at ht
      cases ht
      exact hok t hr
  unfold Builtin.type
  cases b.kind with
  | function => exact hsigned
  | value =>
    dsimp only
    split
    · refine ⟨w, prefix_rfl, h, .rfl, fun t ht => ?_⟩
      cases ht
      exact owned_const _ _
    · exact hsigned
  | other name => exact ⟨w, prefix_rfl, h, .rfl, fun _ ht => nomatch ht⟩

/-- From `a` to `b` cells were made, and the owners of those from before are all sealed. The variables that
stand for any type have the same classes. -/
structure Owners.Continued (w : Owners) (a : Attachments) (w' : Owners) (b : Attachments) : Prop where
  made : a.next ≤ b.next
  owners : ∀ (c : Cell) (o : Owner), w[c]? = some o → w'[c]? = some o.seal
  spared : w.Spared a b

namespace Owners.Continued

variable {w'' : Owners} {a b d : Attachments}

theorem bound (h : w.Continued a w' b) {c : Cell} (hc : w[c]? = some (.bound i)) : w'[c]? = some (.bound i) :=
  h.owners c _ hc

theorem trans (h : w.Continued a w' b) (h' : w'.Continued b w'' d) : w.Continued a w'' d where
  made := Nat.le_trans h.made h'.made
  owners c o hc := by
    rw [h'.owners c _ (h.owners c o hc)]
    cases o <;> rfl
  spared c i hc := (h'.spared c i (h.bound hc)).trans (h.spared c i hc)

theorem signed (h : w.Continued a w' b) {s : Scheme} (hs : s.Signed w) : s.Signed w' := by
  refine ⟨hs.plain, hs.type.imp (fun v _ hv => ⟨?_, hv.2⟩) (fun l hl c hc => ?_) fun _ hl => hl⟩
  · obtain ⟨⟨i, hi, hid⟩, -⟩ := hv
    exact ⟨i, h.bound hi, hid⟩
  · exact ⟨h.owners c _ (hl c hc).1, (hl c hc).2⟩

end Owners.Continued

namespace Bound

variable {prims : List String} {r r' : Bound}

/-- What is bound is owned. -/
structure Owned (w : Owners) (r : Bound) : Prop where
  supply : r.supply.Owned w
  frame : r.frame.Global w

/-- A check goes through a program in a state that is owned. -/
theorem Owned.initial {b : Bound} (h : b.Owned w) (c : Checker) : (c.initial b).Owned w :=
  ⟨h.supply, owned_start h.frame, by simp [Checker.initial]⟩

/-- All variables stand for any type. -/
structure Sealed (w : Owners) (r : Bound) : Prop where
  supply : r.supply.Owned w
  closed : ∀ (c : Cell) (i : Nat), w[c]? ≠ some (.free i)
  tails : r.supply.attachments.tails = []
  frame : r.frame.All (Scheme.Signed w) fun _ => False

/-- The schemes that builtins are bound to in turn, each with what is attached to cells at that time. -/
def signatures (prims : List String) (r : Bound) : List (String × Builtin) → List (Scheme × Attachments)
  | [] => []
  | (name, b) :: bs =>
    match b.type prims r.supply with
    | (.error _, _) => []
    | (.ok none, supply) => signatures prims { r with supply } bs
    | (.ok (some t), supply) =>
      let scheme := generalize [r.frame] t
      (scheme, supply.attachments) ::
        signatures prims ⟨r.frame.declare name scheme, supply, r.schemes ++ [(name, scheme)]⟩ bs

/-- These are the schemes that are bound. -/
theorem schemes_bindAll (prims : List String) (r : Bound) (bs : List (String × Builtin)) :
    (bindAll prims r bs).1.schemes.map Prod.snd =
      r.schemes.map Prod.snd ++ (signatures prims r bs).map Prod.fst := by
  induction bs generalizing r with
  | nil => simp [bindAll, signatures]
  | cons e bs ih =>
    obtain ⟨name, b⟩ := e
    rw [bindAll, signatures]
    obtain ⟨found, supply⟩ := b.type prims r.supply
    rcases found with e | _ | t
    · simp
    · simp [ih]
    · simp [ih]

/-- What the outermost frame declares was bound. -/
theorem mem_schemes_bindAll (prims : List String) (h : ∀ e ∈ r.frame.types, e ∈ r.schemes)
    (bs : List (String × Builtin)) :
    ∀ e ∈ (bindAll prims r bs).1.frame.types, e ∈ (bindAll prims r bs).1.schemes := by
  induction bs generalizing r with
  | nil => exact h
  | cons e bs ih =>
    obtain ⟨name, b⟩ := e
    rw [bindAll]
    split
    next => exact h
    next => exact ih h
    next =>
      refine ih fun e he => ?_
      rcases Dict.mem_insert he with rfl | he
      · exact mem_append_right _ (mem_singleton_self _)
      · exact mem_append_left _ (h e he)

namespace Sealed

theorem owned (h : r.Sealed w) : r.Owned w :=
  ⟨h.supply, h.frame.imp (fun _ hs => .inr hs) fun _ hf => hf.elim⟩

/-- After the signature of a builtin was resolved, its variables stand for any type. -/
theorem resolved (h : r.Sealed w) (hb : b.type prims r.supply = (.ok found, supply)) : ∃ w' : Owners, w <+: w' ∧
      w.Continued r.supply.attachments w'.seal supply.attachments ∧ supply.Owned w' ∧
      Sealed w'.seal { r with supply } ∧ ∀ t, found = some t → t.Owned w' := by
  obtain ⟨w', hw, hsupply, hspared, htype⟩ := b.owned_type h.supply prims
  rw [hb] at hsupply hspared htype
  have htails := (Builtin.type_plain hb).2.trans h.tails
  have hmade : r.supply.attachments.next ≤ supply.attachments.next := by
    rw [← h.supply.length, ← hsupply.length]
    exact hw.length_le
  have howners (c : Cell) (o : Owner) (hc : w[c]? = some o) : w'.seal[c]? = some o.seal := by
    rw [Owners.getElem?_seal, getElem?_of_append hw hc]
    rfl
  have hcontinued : w.Continued r.supply.attachments w'.seal supply.attachments := ⟨hmade, howners, hspared⟩
  refine ⟨w', hw, hcontinued, hsupply, ⟨hsupply.seal htails, Owners.seal_ne_free, htails, ?_⟩,
    fun t ht => htype t (ht ▸ rfl)⟩
  exact h.frame.imp (fun _ hs => hcontinued.signed hs) fun _ hf => hf

/-- A builtin is bound to a scheme that stands for all variables of its type, which are new. -/
theorem bind (h : r.Sealed w) (name : String) (hb : b.type prims r.supply = (.ok (some t), supply)) :
    ∃ w' : Owners, w.Continued r.supply.attachments w' supply.attachments ∧
      Sealed w' ⟨r.frame.declare name (generalize [r.frame] t), supply,
        r.schemes ++ [(name, generalize [r.frame] t)]⟩ ∧ (generalize [r.frame] t).Signed w' ∧
      ∀ q ∈ (generalize [r.frame] t).vars, q ∈ t.vars ∧ r.supply.attachments.next ≤ q.cell := by
  obtain ⟨w', hw, hcontinued, hsupply, hsealed, htype⟩ := h.resolved hb
  have ht := htype t rfl
  have hplain : t.Plain := (Builtin.type_plain hb).1 t rfl
  have hscheme : (generalize [r.frame] t).Signed w'.seal := by
    rw [generalize_eq hsupply hw h.frame.types ht]
    refine ⟨hplain, ht.imp (fun v hv hown => ⟨hown.seal, ?_⟩) (fun _ hl => hl.seal) fun _ hl => hl⟩
    exact (hsupply.mem_freeVars ht).2 hv
  refine ⟨w'.seal, hcontinued, ⟨hsealed.supply, hsealed.closed, hsealed.tails,
    hsealed.frame.declare name hscheme⟩, hscheme, fun q hq => ?_⟩
  rw [generalize_eq hsupply hw h.frame.types ht] at hq
  have hvar := (hsupply.mem_freeVars ht).1 hq
  refine ⟨hvar, ?_⟩
  -- Of the cells from before none is that of a variable that can be used.
  obtain ⟨i, hi, -⟩ := ht.of_mem_vars hvar
  refine Nat.le_of_not_lt fun hlt => h.closed q.cell i ?_
  rw [← h.supply.length] at hlt
  rw [← hi]
  obtain ⟨rest, rfl⟩ := hw
  exact (getElem?_append_left hlt).symm

/-- Whether all builtins can be bound or not, what is bound is owned. -/
theorem bindAll (h : r.Sealed w) (prims : List String) (bs : List (String × Builtin)) :
    ∃ w', (Bound.bindAll prims r bs).1.Owned w' := by
  induction bs generalizing w r with
  | nil => exact ⟨w, h.owned⟩
  | cons e bs ih =>
    obtain ⟨name, b⟩ := e
    rw [Bound.bindAll]
    split
    next e supply hb =>
      obtain ⟨w', hw, hsupply, -⟩ := b.owned_type h.supply prims
      rw [hb] at hsupply
      exact ⟨w', hsupply, h.owned.frame.mono hw⟩
    next supply hb =>
      obtain ⟨w', -, -, -, hsealed, -⟩ := h.resolved hb
      exact ih hsealed
    next t supply hb =>
      obtain ⟨w', -, hsealed, -⟩ := h.bind name hb
      exact ih hsealed

theorem rfl (h : r.Sealed w) : w.Continued r.supply.attachments w r.supply.attachments := by
  refine ⟨Nat.le_refl _, fun c o hc => ?_, .rfl⟩
  cases o with
  | free i => exact absurd hc (h.closed c i)
  | bound | other => exact hc

/-- Two variables that stand for any type have different names if their cells differ. -/
theorem id_ne (h : r.Sealed w) (hu : w.Binds u) (hv : w.Binds v) (hne : u.cell ≠ v.cell) : u.id ≠ v.id := by
  obtain ⟨i, hi, hui⟩ := hu
  obtain ⟨j, hj, hvj⟩ := hv
  intro hid
  exact hne (congrArg Var.cell (h.supply.var_eq hi hj (by rfl) (by rfl) hui hvj hid))

end Sealed

/-- The scheme of a signature and the classes of its variables are as they were when it was bound. The
variables have cells that were made from `start` on. -/
structure Lasts (w : Owners) (start : Cell) (b : Attachments) (x : Scheme × Attachments) : Prop where
  signed : x.1.Signed w
  vars : ∀ q ∈ x.1.vars, q ∈ x.1.type.vars
  cells : ∀ q ∈ x.1.vars, start ≤ q.cell
  classes : ∀ q ∈ x.1.vars, b.get q.cell = x.2.get q.cell

theorem Lasts.binds {start : Cell} {b : Attachments} {x : Scheme × Attachments} (h : Lasts w start b x)
    {q : Var} (hq : q ∈ x.1.vars) : w.Binds q :=
  (h.signed.type.of_mem_vars (h.vars q hq)).1

/-- The variables of two signatures have different names. -/
def Disjoint (x y : Scheme × Attachments) : Prop := ∀ q ∈ x.1.vars, ∀ q' ∈ y.1.vars, q.id ≠ q'.id

/-- If all builtins can be bound, their schemes last, and no two of them share a variable. -/
theorem Sealed.signatures (h : r.Sealed w) {bs : List (String × Builtin)}
    (hx : Bound.bindAll prims r bs = (r', .ok ())) : ∃ w' : Owners, r'.Sealed w' ∧
      w.Continued r.supply.attachments w' r'.supply.attachments ∧
      (∀ x ∈ signatures prims r bs, Lasts w' r.supply.attachments.next r'.supply.attachments x) ∧
      (signatures prims r bs).Pairwise Disjoint := by
  induction bs generalizing w r with
  | nil =>
    cases hx
    exact ⟨w, h, h.rfl, by simp [Bound.signatures], .nil⟩
  | cons e bs ih =>
    obtain ⟨name, b⟩ := e
    rw [Bound.bindAll] at hx
    rw [Bound.signatures]
    have hlater {w₁ : Owners} {supply : Supply} {x : Scheme × Attachments}
        (hc : w.Continued r.supply.attachments w₁ supply.attachments) {w' : Owners}
        (hl : Lasts w' supply.attachments.next r'.supply.attachments x) :
        Lasts w' r.supply.attachments.next r'.supply.attachments x :=
      ⟨hl.signed, hl.vars, fun q hq => Nat.le_trans hc.made (hl.cells q hq), hl.classes⟩
    cases hb : b.type prims r.supply with
    | mk found supply =>
      rw [hb] at hx
      rcases found with e | _ | t
      · cases (Prod.mk.inj hx).2
      · obtain ⟨w₁, -, hcontinued, -, hsealed, -⟩ := h.resolved hb
        obtain ⟨w', hsealed', hcontinued', hlasts, hpairwise⟩ := ih hsealed hx
        exact ⟨w', hsealed', hcontinued.trans hcontinued', fun x hmem => hlater hcontinued (hlasts x hmem),
          hpairwise⟩
      · obtain ⟨w₁, hcontinued, hsealed, hsigned, hnew⟩ := h.bind name hb
        obtain ⟨w', hsealed', hcontinued', hlasts, hpairwise⟩ := ih hsealed hx
        have hfirst : Lasts w' r.supply.attachments.next r'.supply.attachments
            (generalize [r.frame] t, supply.attachments) := by
          refine ⟨hcontinued'.signed hsigned, fun q hq => (hnew q hq).1, fun q hq => (hnew q hq).2,
            fun q hq => ?_⟩
          obtain ⟨⟨i, hi, -⟩, -⟩ := hsigned.type.of_mem_vars (hnew q hq).1
          exact hcontinued'.spared q.cell i hi
        refine ⟨w', hsealed', hcontinued.trans hcontinued',
          forall_mem_cons.2 ⟨hfirst, fun x hmem => hlater hcontinued (hlasts x hmem)⟩,
          pairwise_cons.2 ⟨fun x hmem q hq q' hq' => ?_, hpairwise⟩⟩
        -- The cells of the variables of the first were made before those of the others.
        obtain ⟨⟨i, hi, -⟩, -⟩ := hsigned.type.of_mem_vars (hnew q hq).1
        have hlt : q.cell < supply.attachments.next := hsealed.supply.cell_lt hi
        exact hsealed'.id_ne (hfirst.binds hq) ((hlasts x hmem).binds hq')
          (Nat.ne_of_lt (Nat.lt_of_lt_of_le hlt ((hlasts x hmem).cells q' hq')))

end Bound

end ScriptTyping
