import ScriptTyping.Proofs.Classes
import ScriptTyping.Proofs.Running

/-!
# Owners of cells

Inference makes a cell for each new variable, and for each constructor whose classes can grow. `Owners`
lists what the cells were made for. A type is `Owned` if each of its variables has the cell that was
made for it, none of its constructors has the cell of a variable, and its records have no cells and
are in no class but that of structs. Owners are only added, so what is owned stays so.

A builtin is bound to the type of its signature, and the variables of this type stand for any type. Only
its scheme has them, and only the outermost frame has such schemes (`Scheme.Signed`). No type of the
program is owned if it has one of them, and what is attached to their cells stays as it is.

`Keeps w x P` says that the computation `x` adds owners to `w` and classes to cells and takes none
away, whether it fails or not, and that what it gives is such that `P`. The lemmas `keeps_`, one for
each piece of inference, put this together in the way in which computations are built.

Main statements: the rules for `Keeps`, such as `Keeps.bind` and `Keeps.mapM`, and `keeps_require`.
-/

namespace ScriptTyping

open Ty Attachments Infer List Dict Scope Scheme

variable {c : Cell} {f : Frame} {change : Frame → Frame} {args : List Ty} {w w' : Owners} {s : Scheme}
  {id name : String} {t : Ty}

/-! ## What cells are made for -/

/-- What a cell was made for. -/
inductive Owner
  /-- A variable that types of the program can have. -/
  | free (number : Nat)
  /-- A variable of a signature, which stands for any type. -/
  | bound (number : Nat)
  /-- No variable, or one that is used no more. -/
  | other

/-- The number of the variable that a cell was made for. -/
def Owner.number? : Owner → Option Nat
  | free i => some i
  | bound i => some i
  | other => none

/-- For each cell in turn what it was made for. -/
abbrev Owners := List Owner

/-- The variable has the cell that was made for it. -/
def Owners.Owns (w : Owners) (v : Var) : Prop :=
  ∃ i, w[v.cell]? = some (.free i) ∧ v.id = Var.generatedId i

/-- The variable stands for any type, and has the cell that was made for it. -/
def Owners.Binds (w : Owners) (v : Var) : Prop :=
  ∃ i, w[v.cell]? = some (.bound i) ∧ v.id = Var.generatedId i

/-- The label has no cell, or one that was made for no variable and that holds all of its classes. -/
def Owners.Leaves (w : Owners) (l : Label) : Prop :=
  ∀ c, l.cell = some c → w[c]? = some .other ∧ l.classes = []

/-- The label has no cell, and no class but that of structs. -/
def Label.Structural (l : Label) : Prop := l.cell = Option.none ∧ ∀ k ∈ l.classes, k = Class.struct

/-- Variables have their own cells, constructors others, and records none. -/
abbrev Ty.Owned (w : Owners) : Ty → Prop := Ty.All w.Owns w.Leaves Label.Structural

/-- The scheme of a signature: it has no records, and stands for all of its variables. -/
structure Scheme.Signed (w : Owners) (s : Scheme) : Prop where
  plain : s.type.Plain
  type : s.type.All (fun v => w.Binds v ∧ v ∈ s.vars) w.Leaves Label.Structural

/-- The type of the scheme is owned, or the scheme is that of a signature. -/
def Scheme.Owned (w : Owners) (s : Scheme) : Prop := s.type.Owned w ∨ s.Signed w

section

variable {w w' : Owners} {t : Ty}

theorem Owners.copied_leaves : Copied w.Leaves := by
  intro _ _ _ c hc
  cases hc

theorem Label.copied_structural : Copied Label.Structural := by
  rintro a l ⟨hcell, hl⟩
  refine ⟨rfl, ?_⟩
  unfold ofLabel
  rw [hcell]
  exact hl

theorem Owners.Leaves.mono {l : Label} (h : w.Leaves l) (hw : w <+: w') : w'.Leaves l :=
  fun c hc => ⟨getElem?_of_append hw (h c hc).1, (h c hc).2⟩

namespace Ty

theorem Owned.mono (h : t.Owned w) (hw : w <+: w') : t.Owned w' := by
  refine h.imp (fun v _ hv => ?_) (fun _ hl => hl.mono hw) fun _ hl => hl
  obtain ⟨i, hi, hid⟩ := hv
  exact ⟨i, getElem?_of_append hw hi, hid⟩

theorem owned_app (h : ∀ t ∈ args, t.Owned w) : (app name args).Owned w :=
  .con (fun _ hc => nomatch hc) h

theorem owned_const (name : String) (classes : ClassSet) : (const name classes).Owned w :=
  .con (fun _ hc => nomatch hc) (by simp)

end Ty

theorem Owners.Binds.mono {v : Var} (h : w.Binds v) (hw : w <+: w') : w'.Binds v := by
  obtain ⟨i, hi, hid⟩ := h
  exact ⟨i, getElem?_of_append hw hi, hid⟩

theorem Scheme.Signed.mono (h : s.Signed w) (hw : w <+: w') : s.Signed w' :=
  ⟨h.plain, h.type.imp (fun _ _ hv => ⟨hv.1.mono hw, hv.2⟩) (fun _ hl => hl.mono hw) fun _ hl => hl⟩

theorem Scheme.Owned.mono (h : s.Owned w) (hw : w <+: w') : s.Owned w' :=
  h.imp (fun h => Ty.Owned.mono h hw) fun h => h.mono hw

end

/-! ## States -/

/-- No cell lost a class. -/
def Attachments.Retains (a b : Attachments) : Prop := ∀ c k, k ∈ a.get c → k ∈ b.get c

/-- The variables that stand for any type have the same classes. -/
def Owners.Spared (w : Owners) (a b : Attachments) : Prop :=
  ∀ c i, w[c]? = some (.bound i) → b.get c = a.get c

/-- The owners are those of the cells that were made, each variable has one cell, and cells that were
not made hold nothing. -/
structure Supply.Owned (w : Owners) (s : Supply) : Prop where
  length : w.length = s.attachments.next
  unfilled : ∀ c, s.attachments.next ≤ c → s.attachments.get? c = none
  numbers : ∀ (c : Cell) (o : Owner) (i : Nat), w[c]? = some o → o.number? = some i → i < s.count
  one : ∀ (c d : Cell) (o o' : Owner) (i : Nat), w[c]? = some o → w[d]? = some o' →
    o.number? = some i → o'.number? = some i → c = d
  tails : s.attachments.AllTails w.Owns w.Leaves Label.Structural

/-- The types of a frame of the program are owned. -/
abbrev Frame.Owned (w : Owners) : Frame → Prop := Frame.All (fun s => s.type.Owned w) (Ty.Owned w)

/-- The types of the outermost frame are owned, or those of signatures. -/
abbrev Frame.Global (w : Owners) : Frame → Prop := Frame.All (Scheme.Owned w) (Ty.Owned w)

theorem Frame.Owned.mono (h : f.Owned w) (hw : w <+: w') : f.Owned w' :=
  h.imp (fun _ hs => Ty.Owned.mono hs hw) fun _ ht => ht.mono hw

theorem Frame.Global.mono (h : f.Global w) (hw : w <+: w') : f.Global w' :=
  h.imp (fun _ hs => hs.mono hw) fun _ ht => ht.mono hw

/-- The frames of the program, of which there is at least one, are within the outermost one. -/
inductive Scope.Owned (w : Owners) : Scope → Prop
  | top {f g : Frame} (hf : f.Owned w) (hg : g.Global w) : Scope.Owned w [f, g]
  | inner {f : Frame} {sc} (hf : f.Owned w) (h : Scope.Owned w sc) : Scope.Owned w (f :: sc)

namespace Scope.Owned

variable {w w' : Owners} {sc : Scope}

theorem mono (h : sc.Owned w) (hw : w <+: w') : sc.Owned w' := by
  induction h with
  | top hf hg => exact .top (hf.mono hw) (hg.mono hw)
  | inner hf _ ih => exact .inner (hf.mono hw) ih

theorem all (h : sc.Owned w) : sc.All (Scheme.Owned w) (Ty.Owned w) := by
  have hinner {f : Frame} (hf : f.Owned w) : f.Global w := hf.imp (fun _ hs => .inl hs) fun _ ht => ht
  induction h with
  | top hf hg => exact Scope.all_cons.2 ⟨hinner hf, Scope.all_cons.2 ⟨hg, by simp [Scope.All]⟩⟩
  | inner hf _ ih => exact Scope.all_cons.2 ⟨hinner hf, ih⟩

/-- The frames of the program have owned types only. -/
theorem dropLast (h : sc.Owned w) : ∀ f ∈ List.dropLast sc, f.Owned w := by
  induction h with
  | top hf _ => simpa using hf
  | @inner f sc hf h ih =>
    have hsome : sc ≠ [] := by cases h <;> simp
    rw [dropLast_cons_of_ne_nil hsome]
    exact forall_mem_cons.2 ⟨hf, ih⟩

theorem modifyHead (h : sc.Owned w) (hc : ∀ f : Frame, f.Owned w → (change f).Owned w) :
    (sc.modifyHead change).Owned w := by
  cases h with
  | top hf hg => exact .top (hc _ hf) hg
  | inner hf h => exact .inner (hc _ hf) h

theorem declareOutside (h : sc.Owned w) (ht : t.Owned w) (name : String) :
    Scope.Owned w (sc.take 1 ++ Scope.modifyHead (sc.drop 1) (·.declare name (.mono t))) := by
  cases h with
  | top hf hg => exact .top hf (hg.declare name (.inl ht))
  | inner hf h => exact .inner hf (h.modifyHead fun _ hg => hg.declare name ht)

theorem addReturn (h : sc.Owned w) (ht : t.Owned w) : (sc.addReturn t).Owned w := by
  induction h with
  | top hf hg =>
    unfold Scope.addReturn
    split
    · exact .top (hf.addReturn ht) hg
    · unfold Scope.addReturn
      split
      · exact .top hf (hg.addReturn ht)
      · exact .top hf hg
  | inner hf h ih =>
    unfold Scope.addReturn
    split
    · exact .inner (hf.addReturn ht) h
    · exact .inner hf ih

/-- A frame that was entered is left. -/
theorem tail (h : sc.Owned w) (hl : 2 < sc.length) : Scope.Owned w sc.tail := by
  cases h with
  | top => simp at hl
  | inner _ h => exact h

theorem length (h : sc.Owned w) : 2 ≤ sc.length := by
  induction h with
  | top => simp
  | inner _ _ ih => exact Nat.le_succ_of_le ih

/-- What is declared in the innermost frame has an owned type. -/
theorem lookupLocal? (h : sc.Owned w) (hs : sc.lookupLocal? name = some s) : s.type.Owned w := by
  cases h with
  | top hf _ => exact hf.types _ (mem_of_get?_eq_some hs)
  | inner hf _ => exact hf.types _ (mem_of_get?_eq_some hs)

end Scope.Owned

/-- The types of the state are owned. -/
structure Inference.Owned (w : Owners) (σ : Inference) : Prop where
  supply : σ.supply.Owned w
  scope : σ.scope.Owned w
  constraints : ∀ c ∈ σ.constraints, c.left.Owned w ∧ c.right.Owned w

/-- From `σ` to `σ'` owners, classes and types of variables were added, and none taken away. -/
structure Inference.Kept (w : Owners) (σ : Inference) (w' : Owners) (σ' : Inference) : Prop where
  owners : w <+: w'
  owned : σ'.Owned w'
  classes : σ.supply.attachments.Retains σ'.supply.attachments
  spared : w.Spared σ.supply.attachments σ'.supply.attachments
  slots : σ.slots <:+ σ'.slots

namespace Supply.Owned

variable {w w' : Owners} {s : Supply} {o : Owner}

/-- One more cell was made. -/
theorem push (h : s.Owned w) {count : Nat} (hcount : s.count ≤ count)
    (ho : ∀ i, o.number? = some i → s.count ≤ i ∧ i < count) : Owned (w ++ [o]) ⟨count, { s.attachments with next := s.attachments.next + 1 }⟩ := by
  have hw : w <+: w ++ [o] := prefix_append _ _
  -- A cell with an owner is one of those from before, or the new one.
  have hcases {c : Nat} {x : Owner} (hc : (w ++ [o])[c]? = some x) :
      w[c]? = some x ∨ c = w.length ∧ o = x := by
    rcases Nat.lt_or_ge c w.length with hlt | hge
    · rw [getElem?_append_left hlt] at hc
      exact .inl hc
    · rw [getElem?_append_right hge] at hc
      obtain ⟨hlt, heq⟩ := List.getElem?_eq_some_iff.1 hc
      simp only [length_singleton, Nat.lt_one_iff] at hlt
      refine .inr ⟨by omega, ?_⟩
      simpa [hlt] using heq
  refine ⟨by simp [h.length], fun c hc => h.unfilled c (Nat.le_of_succ_le hc), fun c x i hc hi => ?_,
    fun c d x y i hc hd hi hj => ?_, fun d hd f hf => Ty.Owned.mono (h.tails d hd f hf) hw⟩
  · rcases hcases hc with hc | ⟨-, rfl⟩
    · exact Nat.lt_of_lt_of_le (h.numbers c x i hc hi) hcount
    · exact (ho i hi).2
  · rcases hcases hc with hc | ⟨rfl, rfl⟩ <;> rcases hcases hd with hd | ⟨rfl, rfl⟩
    · exact h.one c d x y i hc hd hi hj
    · exact absurd (h.numbers c x i hc hi) (Nat.not_lt.2 (ho i hj).1)
    · exact absurd (h.numbers d y i hd hj) (Nat.not_lt.2 (ho i hi).1)
    · rfl

theorem fresh (h : s.Owned w) :
    s.fresh.2.Owned (w ++ [.free s.count]) ∧ s.fresh.1.Owned (w ++ [.free s.count]) := by
  refine ⟨h.push (Nat.le_succ _) fun i hi => ?_, .var ⟨s.count, ?_, rfl⟩⟩
  · cases hi
    exact ⟨Nat.le_refl _, Nat.lt_succ_self _⟩
  · show (w ++ [.free s.count])[s.attachments.next]? = _
    rw [← h.length, getElem?_concat_length]

theorem cell_lt (h : s.Owned w) (hc : w[c]? = some o) : c < s.attachments.next :=
  h.length ▸ (List.getElem?_eq_some_iff.1 hc).1

/-- A cell that was made is filled. -/
theorem set (h : s.Owned w) (hc : c < s.attachments.next) (cs : ClassSet) : Owned w { s with attachments := s.attachments.set c cs } := by
  refine ⟨h.length, fun d hd => ?_, h.numbers, h.one, h.tails⟩
  rw [get?_set, if_neg (Nat.ne_of_lt (Nat.lt_of_lt_of_le hc hd))]
  exact h.unfilled d hd

/-- The variables of an owned type were generated. -/
theorem number_lt (h : s.Owned w) (ht : t.Owned w) (hid : id ∈ t.ids) :
    ∃ n, id = Var.generatedId n ∧ n < s.count := by
  obtain ⟨v, hv, rfl⟩ := Ty.mem_ids.1 hid
  obtain ⟨n, hn, hname⟩ := ht.of_mem_vars hv
  exact ⟨n, hname, h.numbers _ _ n hn (by rfl)⟩

theorem get_next (h : s.Owned w) : s.attachments.get s.attachments.next = [] := by
  rw [Attachments.get, h.unfilled _ (Nat.le_refl _), Option.getD_none]

end Supply.Owned

namespace Attachments.Retains

variable {a b d : Attachments}

theorem rfl : a.Retains a := fun _ _ h => h

theorem trans (h : a.Retains b) (h' : b.Retains d) : a.Retains d := fun c k hk => h' c k (h c k hk)

theorem of_sets (h : b.sets = a.sets) : a.Retains b := fun _ _ hk => get_of_sets h ▸ hk

theorem set {cs : ClassSet} (h : ∀ k ∈ a.get c, k ∈ cs) : a.Retains (a.set c cs) := by
  intro e k hk
  rw [get_set]
  split
  next heq => exact h k (heq ▸ hk)
  next => exact hk

end Attachments.Retains

namespace Owners.Spared

variable {w w' : Owners} {a b d : Attachments}

theorem rfl : w.Spared a a := fun _ _ _ => Eq.refl _

theorem trans (h : w.Spared a b) (hw : w <+: w') (h' : w'.Spared b d) : w.Spared a d :=
  fun c i hc => (h' c i (getElem?_of_append hw hc)).trans (h c i hc)

theorem of_sets (h : b.sets = a.sets) : w.Spared a b := fun c _ _ => congrFun (get_of_sets h) c

theorem set (hc : ∀ i, w[c]? ≠ some (.bound i)) (cs : ClassSet) : w.Spared a (a.set c cs) := by
  intro d i hd
  rw [get_set, if_neg]
  rintro rfl
  exact hc i hd

end Owners.Spared

namespace Inference

variable {w w' w'' : Owners} {σ σ' σ'' : Inference}

theorem Owned.rfl (h : σ.Owned w) : σ.Kept w w σ := ⟨prefix_rfl, h, .rfl, .rfl, suffix_rfl⟩

theorem Kept.trans (h : σ.Kept w w' σ') (h' : σ'.Kept w' w'' σ'') : σ.Kept w w'' σ'' :=
  ⟨h.owners.trans h'.owners, h'.owned, h.classes.trans h'.classes, h.spared.trans h.owners h'.spared,
    h.slots.trans h'.slots⟩

/-- More owners, and a supply for them. -/
theorem Owned.supplied (h : σ.Owned w) {u : Supply} (hw : w <+: w') (hu : u.Owned w')
    (hc : σ.supply.attachments.Retains u.attachments)
    (hb : w.Spared σ.supply.attachments u.attachments) : σ.Kept w w' { σ with supply := u } :=
  ⟨hw, ⟨hu, h.scope.mono hw, fun c hmem => ⟨(h.constraints c hmem).1.mono hw,
    (h.constraints c hmem).2.mono hw⟩⟩, hc, hb, suffix_rfl⟩

end Inference

/-! ## What computations keep -/

def Scope.members (sc : Scope) : List (Dict ClassSet) := sc.map Frame.members

/-- A frame that was entered is left. -/
theorem Scope.Owned.leave {sc sc' : Scope} (h : sc'.Owned w') (hsc : sc.Owned w)
    (hmembers : sc'.members = members (f :: sc)) : Scope.Owned w' sc'.tail := by
  have hlength : sc'.length = sc.length + 1 := by
    simpa [members] using congrArg List.length hmembers
  exact h.tail (hlength ▸ Nat.succ_le_succ hsc.length)

namespace Infer

variable {α β : Type} {w w' : Owners} {σ σ' : Inference}

/-- Whether it fails or not, the computation takes no owner and no class away. If it does not fail, what
it gives is such that `P`, and the same is registered. -/
def Keeps (w : Owners) (x : Infer α) (P : Owners → α → Prop) : Prop :=
  ∀ σ, σ.Owned w → ∃ w', σ.Kept w w' (x.run.run σ).2 ∧ ∀ r, (x.run.run σ).1 = .ok r →
    P w' r ∧ (x.run.run σ).2.scope.members = σ.scope.members

namespace Keeps

variable {P : Owners → α → Prop} {Q : Owners → β → Prop}

variable {x : Infer α} {r : α}

/-- What is kept by a run that does not fail. -/
theorem ran (h : Keeps w x P) (hσ : σ.Owned w) (hx : Ran x σ r σ') :
    ∃ w', σ.Kept w w' σ' ∧ P w' r ∧ σ'.scope.members = σ.scope.members := by
  obtain ⟨w', hkept, hok⟩ := h σ hσ
  rw [hx] at hkept hok
  exact ⟨w', hkept, hok r rfl⟩

/-- It is enough to look at the run, if there is one from each state. -/
theorem of_ran (h : ∀ σ, σ.Owned w → ∃ r σ' w', Ran x σ r σ' ∧ σ.Kept w w' σ' ∧
    P w' r ∧ σ'.scope.members = σ.scope.members) : Keeps w x P := by
  intro σ hσ
  obtain ⟨r, σ', w', hx, hkept, hr⟩ := h σ hσ
  rw [hx]
  refine ⟨w', hkept, fun r' heq => ?_⟩
  cases heq
  exact hr

theorem pure (h : P w r) : Keeps w (pure r) P :=
  of_ran fun σ hσ => ⟨r, σ, w, ran_pure.2 ⟨rfl, rfl⟩, hσ.rfl, h, rfl⟩

theorem throw {e : CheckError} : Keeps w (throw e) P :=
  fun _ hσ => ⟨w, hσ.rfl, fun _ hr => nomatch hr⟩

theorem bind {f : α → Infer β} (hx : Keeps w x P)
    (hf : ∀ w' r, w <+: w' → P w' r → Keeps w' (f r) Q) : Keeps w (x >>= f) Q := by
  intro σ hσ
  obtain ⟨w₁, hkept, hok⟩ := hx σ hσ
  rw [ExceptT.run_bind, StateT.run_bind]
  generalize x.run.run σ = found at hkept hok
  obtain ⟨r | r, σ₁⟩ := found
  · exact ⟨w₁, hkept, fun _ hr => nomatch hr⟩
  · obtain ⟨hr, hmembers⟩ := hok r rfl
    obtain ⟨w₂, hkept', hok'⟩ := hf w₁ r hkept.owners hr σ₁ hkept.owned
    exact ⟨w₂, hkept.trans hkept', fun r' hr' => ⟨(hok' r' hr').1, (hok' r' hr').2.trans hmembers⟩⟩

theorem imp {P' : Owners → α → Prop} (hx : Keeps w x P) (h : ∀ w' r, P w' r → P' w' r) : Keeps w x P' := by
  intro σ hσ
  obtain ⟨w', hkept, hok⟩ := hx σ hσ
  exact ⟨w', hkept, fun r hr => ⟨h w' r (hok r hr).1, (hok r hr).2⟩⟩

theorem discard (hx : Keeps w x P) : Keeps w (discard x) fun _ _ => True := by
  show Keeps w ((fun _ => ()) <$> x) _
  rw [map_eq_pure_bind]
  exact hx.bind fun _ _ _ _ => .pure trivial

/-- A frame that is entered and left. -/
theorem within (hf : f.Owned w) (hx : Keeps w x P) : Keeps w (within f x) P := by
  intro σ hσ
  have hentered : Inference.Owned w { σ with scope := f :: σ.scope } :=
    ⟨hσ.supply, .inner hf hσ.scope, hσ.constraints⟩
  obtain ⟨w', hkept, hok⟩ := hx _ hentered
  cases hfound : x.run.run { σ with scope := f :: σ.scope } with
  | mk result τ =>
    rw [hfound] at hkept hok
    cases result with
    | error e =>
      rw [run_within_error hfound]
      exact ⟨w', ⟨hkept.owners, hkept.owned, hkept.classes, hkept.spared, hkept.slots⟩, fun _ hr => nomatch hr⟩
    | ok r =>
      rw [ran_within.2 ⟨τ, hfound, rfl⟩]
      obtain ⟨hr, hmembers⟩ := hok r rfl
      refine ⟨w', ⟨hkept.owners, ⟨hkept.owned.supply, hkept.owned.scope.leave hσ.scope hmembers,
        hkept.owned.constraints⟩, hkept.classes, hkept.spared, hkept.slots⟩, fun r' heq => ?_⟩
      cases heq
      refine ⟨hr, ?_⟩
      have htail := congrArg List.tail hmembers
      rwa [members, ← map_tail] at htail

end Keeps

/-! ### Types -/

variable {t u : Ty}

theorem keeps_fresh : Keeps w fresh Ty.Owned := by
  refine .of_ran fun σ hσ => ⟨_, _, w ++ [.free σ.supply.count], ran_fresh.2 ⟨rfl, rfl⟩, ?_, ?_, rfl⟩
  · exact hσ.supplied (prefix_append _ _) hσ.supply.fresh.1 (.of_sets rfl) (.of_sets rfl)
  · exact hσ.supply.fresh.2

variable {name : String}

theorem keeps_growing (h : ∀ t ∈ args, t.Owned w) : Keeps w (growing name args) Ty.Owned := by
  refine .of_ran fun σ hσ => ⟨_, _, w ++ [.other], ran_growing.2 ⟨rfl, rfl⟩, ?_, ?_, rfl⟩
  · exact hσ.supplied (prefix_append _ _) (hσ.supply.push (Nat.le_refl _) fun _ hi => nomatch hi)
      (.of_sets rfl) (.of_sets rfl)
  · refine .con (fun c hc => ?_) fun t ht => (h t ht).mono (prefix_append _ _)
    cases hc
    refine ⟨?_, rfl⟩
    show (w ++ [.other])[σ.supply.attachments.next]? = _
    rw [← hσ.supply.length, getElem?_concat_length]

/-- A record is made, and if it needs one, a tail. -/
theorem keeps_record {entries : List (String × Ty)} {classes : ClassSet}
    (h : ∀ e ∈ entries, e.2.Owned w) (hc : ∀ k ∈ classes, k = Class.struct) :
    Keeps w (record name entries classes) Ty.Owned := by
  have hfields : ∀ f ∈ Dict.ofList entries, f.2.Owned w := by
    intro f hf
    rcases mem_insertAll hf with hf | hf
    · exact h f hf
    · cases hf
  have hclasses : ∀ k ∈ ClassSet.adding [] classes, k = Class.struct := by
    simpa [ClassSet.mem_adding] using hc
  refine .of_ran fun σ hσ => ⟨_, _, w, ran_record.2 ⟨rfl, rfl⟩, hσ.supplied prefix_rfl ?_ ?_ ?_, ?_, rfl⟩
  · unfold newRecord
    dsimp only
    split
    · exact hσ.supply
    · refine ⟨hσ.supply.length, hσ.supply.unfilled, hσ.supply.numbers, hσ.supply.one, fun d hd f hf => ?_⟩
      rcases mem_append.1 hd with hd | hd
      · exact hσ.supply.tails d hd f hf
      · rw [mem_singleton.1 hd] at hf
        exact hfields f (mem_of_mem_drop hf)
  · unfold newRecord
    dsimp only
    split <;> exact .of_sets rfl
  · unfold newRecord
    dsimp only
    split <;> exact .of_sets rfl
  · unfold newRecord
    dsimp only
    split
    · exact .record ⟨rfl, hclasses⟩ hfields
    · exact .record ⟨rfl, hclasses⟩ hfields

theorem keeps_equate (ht : t.Owned w) (hu : u.Owned w) : Keeps w (equate t u) fun w' _ => w' = w := by
  refine .of_ran fun σ hσ => ⟨(), _, w, ran_equate.2 rfl, ⟨prefix_rfl, ⟨hσ.supply, hσ.scope, ?_⟩, .rfl, .rfl,
    suffix_rfl⟩, rfl, rfl⟩
  intro c hc
  rcases mem_append.1 hc with hc | hc
  · exact hσ.constraints c hc
  · rw [mem_singleton.1 hc]
    exact ⟨ht, hu⟩

theorem keeps_setSlot {slot : Nat} : Keeps w (setSlot slot t) fun w' _ => w' = w :=
  .of_ran fun _ hσ => ⟨(), _, w, ran_setSlot.2 rfl, ⟨prefix_rfl, ⟨hσ.supply, hσ.scope, hσ.constraints⟩,
    .rfl, .rfl, suffix_cons _ _⟩, rfl, rfl⟩

/-! ### Classes -/

/-- A class that is attached goes into the cell of the type, if it has one, and nothing is taken from
there. -/
theorem kept_attach (hσ : σ.Owned w) (ht : t.Owned w) (k : String) :
    σ.Kept w w { σ with supply := { σ.supply with attachments := σ.supply.attachments.attach t k } } := by
  have hset {c : Cell} {o : Owner} {cs : ClassSet} (hc : w[c]? = some o) (ho : ∀ i, o ≠ .bound i)
      (hcs : ∀ k ∈ σ.supply.attachments.get c, k ∈ cs) : σ.Kept w w
        { σ with supply := { σ.supply with attachments := σ.supply.attachments.set c cs } } :=
    hσ.supplied prefix_rfl (hσ.supply.set (hσ.supply.cell_lt hc) cs) (.set hcs)
      (.set (fun i hi => ho i (Option.some.inj (hc.symm.trans hi))) cs)
  unfold Attachments.attach setClasses
  cases ht with
  | missing => exact hσ.rfl
  | @var v hv =>
    obtain ⟨i, hi, -⟩ := hv
    exact hset hi (by simp) fun k hk => ClassSet.mem_adding.2 (.inl hk)
  | @con name args l hl _ =>
    cases hc : l.cell with
    | none =>
      simp only [cell?, hc]
      exact hσ.rfl
    | some c =>
      obtain ⟨hfree, hclasses⟩ := hl c hc
      simp only [cell?, hc, classes, ofLabel, hclasses]
      exact hset hfree (by simp) fun k hk => ClassSet.mem_adding.2 (.inl hk)
  | record hl _ =>
    simp only [cell?, hl.1]
    exact hσ.rfl

theorem keeps_require (ht : t.Owned w) {k : String} : Keeps w (require t k) fun w' _ => w' = w := by
  refine .of_ran fun σ hσ => ?_
  cases h : σ.scope.instances.require? σ.supply.attachments t k with
  | none => exact ⟨false, σ, w, ran_require.2 (.inl ⟨h, rfl, rfl⟩), hσ.rfl, rfl, rfl⟩
  | some a =>
    refine ⟨true, _, w, ran_require.2 (.inr ⟨a, h, rfl, rfl⟩), ?_, rfl, rfl⟩
    rcases require?_eq_some h with rfl | rfl
    · exact hσ.rfl
    · exact kept_attach hσ ht k

/-- New variables take the classes of others. -/
theorem owned_renewal {s : Supply} (hs : s.Owned w) (vs : List Var) {r : Subst}
    (hr : ∀ e ∈ r, e.2.Owned w) : ∃ w', w <+: w' ∧ (renewal s vs r).2.Owned w' ∧
      s.attachments.Retains (renewal s vs r).2.attachments ∧
      w.Spared s.attachments (renewal s vs r).2.attachments ∧
      ∀ e ∈ (renewal s vs r).1, e.2.Owned w' := by
  induction vs generalizing w s r with
  | nil => exact ⟨w, prefix_rfl, hs, .rfl, .rfl, hr⟩
  | cons v vs ih =>
    have hw : w <+: w ++ [.free s.count] := prefix_append _ _
    obtain ⟨hsupply, hvar⟩ := hs.fresh
    have hnext : (s.freshLike v).2.Owned (w ++ [.free s.count]) :=
      hsupply.set (Nat.lt_succ_self _) _
    have hretains : s.attachments.Retains (s.freshLike v).2.attachments := by
      refine Attachments.Retains.trans (.of_sets rfl) (.set (a := s.fresh.2.attachments) fun k hk => ?_)
      -- The cell of the new variable was empty.
      have hempty : s.fresh.2.attachments.get s.attachments.next = [] := hs.get_next
      exact absurd hk (by simp [hempty])
    have hspared : w.Spared s.attachments (s.freshLike v).2.attachments :=
      (Owners.Spared.of_sets rfl).trans prefix_rfl (.set (a := s.fresh.2.attachments) (fun i hi =>
        Nat.lt_irrefl _ (hs.cell_lt hi)) _)
    obtain ⟨w', hw', hsupply', hretains', hspared', hr'⟩ := ih hnext
      (r := Dict.insert r v.id (.var (s.freshLike v).1)) fun e he => by
        rcases mem_insert he with rfl | he
        · exact hvar
        · exact (hr e he).mono hw
    exact ⟨w', hw.trans hw', hsupply', hretains.trans hretains', hspared.trans hw hspared', hr'⟩

/-- There is a new variable for each of the others. -/
theorem get?_renewal (s : Supply) (vs : List Var) (r : Subst) (h : id ∈ vs.map Var.id ∨ id ∈ Dict.keys r) :
    ∃ u, Dict.get? (renewal s vs r).1 id = some u := by
  induction vs generalizing s r with
  | nil =>
    rcases h with h | h
    · cases h
    · exact Option.ne_none_iff_exists'.1 fun hnone => get?_eq_none_iff.1 hnone h
  | cons v vs ih =>
    refine ih _ _ ?_
    rcases h with h | h
    · rcases mem_cons.1 h with rfl | h
      · exact .inr (mem_keys_insert.2 (.inl rfl))
      · exact .inl h
    · exact .inr (mem_keys_insert.2 (.inr h))

/-- In a use of a signature there is something new for each variable, and nothing else changes. -/
theorem all_instantiate (hs : s.Signed w) (supply : Supply) {Q : Var → Prop}
    (hr : ∀ e ∈ (renewal supply s.vars []).1, e.2.All Q w.Leaves Label.Structural) :
    (s.instantiate supply).1.All Q w.Leaves Label.Structural ∧
      (s.instantiate supply).2 = (renewal supply s.vars []).2 := by
  simp only [Scheme.instantiate, Attachments.apply_of_tailless _
    (fun e he => (plain_renewal supply s.vars e he).tailless) hs.plain.tailless, and_true]
  refine hs.type.apply_bound Owners.copied_leaves Label.copied_structural (fun v hv => ?_) _
  obtain ⟨u, hu⟩ := get?_renewal supply s.vars [] (.inl (mem_map_of_mem hv.2))
  exact ⟨u, hu, hr _ (mem_of_get?_eq_some hu)⟩

theorem keeps_instantiate (hs : s.Owned w) : Keeps w (instantiate s) Ty.Owned := by
  refine .of_ran fun σ hσ => ?_
  obtain ⟨w', hw, hsupply, hretains, hspared, hr⟩ := owned_renewal hσ.supply s.vars (r := []) (by simp)
  obtain ⟨hsets, hnext⟩ := ((renewal σ.supply s.vars []).2.attachments.rewrites_revise
    (s := (renewal σ.supply s.vars []).1) s.type).sets
  obtain ⟨htype, htails⟩ : (s.instantiate σ.supply).1.Owned w' ∧
      AllTails (Owners.Owns w') (Owners.Leaves w') Label.Structural (s.instantiate σ.supply).2.attachments := by
    rcases hs with hs | hs
    · exact hsupply.tails.apply Owners.copied_leaves Label.copied_structural (hs.mono hw) hr
    · obtain ⟨htype, hsame⟩ := all_instantiate (hs.mono hw) σ.supply hr
      exact ⟨htype, hsame ▸ hsupply.tails⟩
  refine ⟨_, _, w', ran_instantiate.2 ⟨rfl, rfl⟩, hσ.supplied hw ?_ (hretains.trans (.of_sets hsets))
    (hspared.trans prefix_rfl (.of_sets hsets)), htype, rfl⟩
  refine ⟨hsupply.length.trans hnext.symm, fun c hc => ?_, hsupply.numbers, hsupply.one, htails⟩
  show (revise _ _ _).get? c = none
  rw [get?_of_sets hsets]
  exact hsupply.unfilled c (hnext ▸ hc)

/-! ### Scopes -/

/-- A scope that is changed without a change of what is registered. -/
theorem keeps_modifyScope {change : Scope → Scope} (hall : ∀ sc : Scope, sc.Owned w → (change sc).Owned w)
    (hmembers : ∀ sc, (change sc).members = sc.members) : Keeps w (modifyScope change) fun w' _ => w' = w :=
  .of_ran fun σ hσ => ⟨(), _, w, ran_modifyScope.2 rfl, ⟨prefix_rfl,
    ⟨hσ.supply, hall _ hσ.scope, hσ.constraints⟩, .rfl, .rfl, suffix_rfl⟩, rfl, hmembers σ.scope⟩

theorem members_modifyHead (sc : Scope) (change : Frame → Frame)
    (h : ∀ f, (change f).members = f.members) : (sc.modifyHead change).members = sc.members := by
  cases sc with
  | nil => rfl
  | cons f sc => simp [Scope.modifyHead, Scope.members, h]

/-- The innermost frame is changed without a change of what is registered. -/
theorem keeps_modifyHead (hall : ∀ f : Frame, f.Owned w → (change f).Owned w)
    (hmembers : ∀ f, (change f).members = f.members) :
    Keeps w (modifyScope (·.modifyHead change)) fun w' _ => w' = w :=
  keeps_modifyScope (fun _ h => h.modifyHead hall) fun sc => members_modifyHead sc change hmembers

theorem keeps_declare (ht : t.Owned w) : Keeps w (declare name t) fun w' _ => w' = w :=
  keeps_modifyHead (fun _ h => h.declare name ht) fun _ => rfl

theorem keeps_declareTypeParam (ht : t.Owned w) : Keeps w (declareTypeParam name t) fun w' _ => w' = w :=
  keeps_modifyHead (fun _ h => h.declareTypeParam name ht) fun _ => rfl

theorem keeps_declareDecl {decl : Node} : Keeps w (declareDecl name decl) fun w' _ => w' = w := by
  refine keeps_modifyHead (fun _ h => h.declareDecl name decl) fun f => ?_
  unfold Frame.declareDecl
  split <;> rfl

theorem keeps_declareOutside (ht : t.Owned w) : Keeps w (declareOutside name t) fun w' _ => w' = w := by
  refine keeps_modifyScope (fun _ h => h.declareOutside ht name) fun sc => ?_
  have hrest := members_modifyHead (sc.drop 1) (·.declare name (.mono t)) fun _ => rfl
  rw [Scope.members, map_append]
  show _ ++ members _ = _
  rw [hrest, members, ← map_append, take_append_drop]
  rfl

theorem keeps_addReturn (ht : t.Owned w) : Keeps w (addReturn t) fun w' _ => w' = w := by
  refine keeps_modifyScope (fun _ h => h.addReturn ht) fun sc => ?_
  induction sc with
  | nil => rfl
  | cons f sc ih =>
    unfold Scope.addReturn
    split
    · rfl
    · exact congrArg (f.members :: ·) ih

end Infer

end ScriptTyping
