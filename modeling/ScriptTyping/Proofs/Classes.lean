import ScriptTyping.Membership
import ScriptTyping.Proofs.SolvedForm

/-!
# Classes of bound variables

Two variables that become one share their classes at once, and a variable that is bound to a
constructor or a record had no class that this lacks. What is attached to a bound variable changes no
more, since it is in none of the types that are unified later. So what it is bound to holds its
classes for good, also where a binding is replaced by a later one.

`Ty.All` says what is so of all variables and labels of a type, and passes through substitution and
unification. `Attachments.Grows` says how attachments change. Main statement: `solveWith_enforces`.
-/

namespace ScriptTyping

open Ty Attachments List

variable {a : Attachments} {done : List Application} {k : String} {x : Ty} {w : Var}

/-! ## Variables and labels -/

namespace Ty

theorem mem_vars_con {v : Var} {name : String} {args : List Ty} {l : Label} :
    v ∈ (con name args l).vars ↔ ∃ t ∈ args, v ∈ t.vars := by
  rw [vars, varsAll_eq_flatMap, mem_flatMap]

theorem mem_vars_record {v : Var} {name : String} {fields : List (String × Ty)} {l : Label} :
    v ∈ (record name fields l).vars ↔ ∃ f ∈ fields, v ∈ f.2.vars := by
  rw [vars, varsFields_eq_flatMap, mem_flatMap]

/-- All variables of the type are such that `Q`, the labels of its constructors such that `L`, and
those of its records such that `R`. -/
inductive All (Q : Var → Prop) (L R : Label → Prop) : Ty → Prop
  | missing : All Q L R missing
  | var {v} (h : Q v) : All Q L R (var v)
  | con {name args l} (hl : L l) (h : ∀ t ∈ args, All Q L R t) : All Q L R (con name args l)
  | record {name fields l} (hl : R l) (h : ∀ f ∈ fields, All Q L R f.2) : All Q L R (record name fields l)

/-- Copies of labels such that `L`, which have no cell, are so too. -/
def Copied (L : Label → Prop) : Prop := ∀ a l, L l → L ⟨ofLabel a l, none, l.tail⟩

/-- Labels such that `L` stay so when they get a cell, and so do attachments such that `A`. -/
def Adopted (A : Attachments → Prop) (L : Label → Prop) : Prop :=
  ∀ a l, A a → L l → L (adoptLabel a l).1 ∧ A (adoptLabel a l).2

variable {Q Q' : Var → Prop} {L L' R R' : Label → Prop} {A : Attachments → Prop} {a b : Attachments}
  {s : Subst} {t : Ty}

namespace All

theorem of_mem_vars (h : t.All Q L R) {v : Var} (hv : v ∈ t.vars) : Q v := by
  induction h with
  | missing => cases hv
  | var h => rwa [mem_singleton.1 hv]
  | con _ _ ih =>
    obtain ⟨t, ht, hv⟩ := mem_vars_con.1 hv
    exact ih t ht hv
  | record _ _ ih =>
    obtain ⟨f, hf, hv⟩ := mem_vars_record.1 hv
    exact ih f hf hv

theorem imp (h : t.All Q L R) (hQ : ∀ v ∈ t.vars, Q v → Q' v) (hL : ∀ l, L l → L' l)
    (hR : ∀ l, R l → R' l) : t.All Q' L' R' := by
  induction h with
  | missing => exact .missing
  | var h => exact .var (hQ _ (by simp [vars]) h)
  | con hl _ ih => exact .con (hL _ hl) fun t ht => ih t ht fun v hv => hQ v (mem_vars_con.2 ⟨t, ht, hv⟩)
  | record hl _ ih =>
    exact .record (hR _ hl) fun f hf => ih f hf fun v hv => hQ v (mem_vars_record.2 ⟨f, hf, hv⟩)

theorem child (h : t.All Q L R) (hx : x.Child t) : x.All Q L R := by
  cases h with
  | missing => cases hx
  | var => cases hx
  | con _ h => exact h x hx
  | record _ h =>
    obtain ⟨k, hk⟩ := hx
    exact h _ hk

theorem substitute (hL : Copied L) (hR : Copied R) (h : t.All Q L R)
    (hs : ∀ e ∈ s, e.2.All Q L R) (a : Attachments) : (t.substitute a s).All Q L R := by
  induction h with
  | missing => exact .missing
  | @var v h =>
    rw [Ty.substitute]
    cases hget : Dict.get? s v.id with
    | none => exact .var h
    | some u => exact hs _ (Dict.mem_of_get?_eq_some hget)
  | con hl _ ih =>
    rw [Ty.substitute, substituteAll_eq_map]
    exact .con (hL _ _ hl) (forall_mem_map.2 fun x hx => ih x hx)
  | record hl _ ih =>
    rw [Ty.substitute, substituteFields_eq_map]
    exact .record (hR _ _ hl) (forall_mem_map.2 fun x hx => ih x hx)

theorem apply (hL : Copied L) (hR : Copied R) (h : t.All Q L R) (hs : ∀ e ∈ s, e.2.All Q L R)
    (a : Attachments) : (Subst.apply a s t).All Q L R := by
  cases s with
  | nil => exact h
  | cons e s => exact h.substitute hL hR hs a

/-- Where something is put in for each variable, only what is put in counts. -/
theorem apply_bound (hL : Copied L) (hR : Copied R) (h : t.All Q L R)
    (hs : ∀ v, Q v → ∃ u, Dict.get? s v.id = some u ∧ u.All Q' L R) (a : Attachments) :
    (Subst.apply a s t).All Q' L R := by
  have hsubst : (t.substitute a s).All Q' L R := by
    induction h with
    | missing => exact .missing
    | @var v hv =>
      obtain ⟨u, hget, hu⟩ := hs v hv
      rw [Ty.substitute, hget]
      exact hu
    | con hl _ ih =>
      rw [Ty.substitute, substituteAll_eq_map]
      exact .con (hL _ _ hl) (forall_mem_map.2 fun x hx => ih x hx)
    | record hl _ ih =>
      rw [Ty.substitute, substituteFields_eq_map]
      exact .record (hR _ _ hl) (forall_mem_map.2 fun x hx => ih x hx)
  cases s with
  | nil =>
    refine h.imp (fun v _ hv => ?_) (fun _ hl => hl) fun _ hl => hl
    obtain ⟨u, hget, -⟩ := hs v hv
    cases hget
  | cons e s => exact hsubst

theorem renewWith {tail? : Nat → Option (Dict Ty)} (h : t.All Q L R)
    (htail : ∀ n d, tail? n = some d → ∀ f ∈ d, f.2.All Q L R) : (renewWith tail? t).All Q L R := by
  induction h with
  | missing => exact .missing
  | var h => exact .var h
  | con hl _ ih =>
    rw [renewWith_con]
    exact .con hl (forall_mem_map.2 fun x hx => ih x hx)
  | @record name fields l hl _ ih =>
    have hfields (n : Nat) : ∀ f ∈ renewFields tail? n fields, f.2.All Q L R := by
      intro f hf
      rw [renewFields_eq_mapValues] at hf
      obtain ⟨x, hx, rfl⟩ := mem_map.1 hf
      exact ih x (mem_of_mem_take hx)
    rw [Attachments.renewWith]
    split
    next => exact .record hl (hfields _)
    next own rest hrest =>
      obtain ⟨tail, -, hmap⟩ := Option.bind_eq_some_iff.1 hrest
      obtain ⟨d, hd, heq⟩ := Option.map_eq_some_iff.1 hmap
      cases heq
      refine .record hl fun f hf => ?_
      rcases mem_append.1 hf with hf | hf
      · exact hfields _ f hf
      · exact htail _ _ hd f hf

end All

end Ty

namespace Attachments

variable {Q : Var → Prop} {L R : Label → Prop} {A : Attachments → Prop} {a b : Attachments}
  {s : Subst} {t : Ty} {c : Cell}

/-- All variables and labels in tails are such that `Q`, `L` and `R`. -/
def AllTails (Q : Var → Prop) (L R : Label → Prop) (a : Attachments) : Prop :=
  ∀ d ∈ a.tails, ∀ f ∈ d, f.2.All Q L R

namespace AllTails

theorem tailAt? (h : a.AllTails Q L R) (depth : Nat) {n : Nat} {d : Dict Ty}
    (hd : a.tailAt? depth n = some d) : ∀ f ∈ d, f.2.All Q L R := by
  induction depth generalizing n d with
  | zero => exact h d (mem_of_getElem? hd)
  | succ depth ih =>
    obtain ⟨e, he, rfl⟩ := Option.map_eq_some_iff.1 hd
    exact forall_mem_map.2 fun x hx => (h e (mem_of_getElem? he) x hx).renewWith fun n d hd => ih hd

theorem current (h : a.AllTails Q L R) (ht : t.All Q L R) : (a.current t).All Q L R := by
  rw [current_eq_renewWith]
  exact ht.renewWith fun n d hd => h.tailAt? _ hd

theorem of_rewrites (hL : Copied L) (hR : Copied R) (h : a.AllTails Q L R) (hr : Rewrites s a b)
    (hs : ∀ e ∈ s, e.2.All Q L R) : b.AllTails Q L R := by
  induction hr with
  | refl => exact h
  | step _ m ih =>
    intro d hd f hf
    obtain ⟨n, hn⟩ := mem_iff_getElem?.1 hd
    rw [getElem?_rewriteTail, Option.map_eq_some_iff] at hn
    obtain ⟨e, he, rfl⟩ := hn
    split at hf
    · obtain ⟨x, hx, rfl⟩ := mem_map.1 hf
      exact .substitute hL hR (ih e (mem_of_getElem? he) x hx) hs _
    · exact ih e (mem_of_getElem? he) f hf

/-- A substitution that is applied where there are tails. -/
theorem apply (hL : Copied L) (hR : Copied R) (h : a.AllTails Q L R) (ht : t.All Q L R)
    (hs : ∀ e ∈ s, e.2.All Q L R) : (a.apply s t).1.All Q L R ∧ (a.apply s t).2.AllTails Q L R := by
  have hall : ∀ e ∈ a.currentAll s, e.2.All Q L R := by
    intro e he
    obtain ⟨x, hx, rfl⟩ := mem_currentAll he
    exact h.current (hs x hx)
  have hrevised : (a.revise s t).AllTails Q L R := h.of_rewrites hL hR (a.rewrites_revise t) hs
  exact ⟨hrevised.current ((h.current ht).apply hL hR hall a), hrevised⟩

theorem replay (hL : Copied L) (hR : Copied R) (h : a.AllTails Q L R) (hs : ∀ x ∈ done, ∀ e ∈ x.1, e.2.All Q L R) :
    (a.replay done).AllTails Q L R := by
  induction done generalizing a with
  | nil => exact h
  | cons x done ih =>
    obtain ⟨hx, hdone⟩ := forall_mem_cons.1 hs
    exact ih (.of_rewrites hL hR h (a.rewrites_revise x.2) hx) hdone

end AllTails

mutual

theorem all_adopt (hL : Adopted A L) (hR : Adopted A R) : ∀ (a : Attachments) (t : Ty), A a → t.All Q L R →
    (a.adopt t).1.All Q L R ∧ A (a.adopt t).2
  | _, .missing, ha, h => ⟨h, ha⟩
  | _, .var _, ha, h => ⟨h, ha⟩
  | a, .con name args l, ha, .con hl h => by
    obtain ⟨hargs, hmid⟩ := all_adoptAll hL hR a args ha h
    obtain ⟨hlabel, hlast⟩ := hL _ l hmid hl
    exact ⟨.con hlabel hargs, hlast⟩
  | a, .record name fields l, ha, .record hl h => by
    obtain ⟨hfields, hmid⟩ := all_adoptFields hL hR a fields ha h
    obtain ⟨hlabel, hlast⟩ := hR _ l hmid hl
    exact ⟨.record hlabel hfields, hlast⟩

theorem all_adoptAll (hL : Adopted A L) (hR : Adopted A R) : ∀ (a : Attachments) (ts : List Ty), A a →
    (∀ t ∈ ts, t.All Q L R) → (∀ t ∈ (a.adoptAll ts).1, t.All Q L R) ∧ A (a.adoptAll ts).2
  | _, [], ha, h => ⟨h, ha⟩
  | a, t :: ts, ha, h => by
    obtain ⟨ht, hts⟩ := forall_mem_cons.1 h
    obtain ⟨hfirst, hmid⟩ := all_adopt hL hR a t ha ht
    obtain ⟨hrest, hlast⟩ := all_adoptAll hL hR _ ts hmid hts
    exact ⟨forall_mem_cons.2 ⟨hfirst, hrest⟩, hlast⟩

theorem all_adoptFields (hL : Adopted A L) (hR : Adopted A R) : ∀ (a : Attachments)
    (fs : List (String × Ty)), A a → (∀ f ∈ fs, f.2.All Q L R) →
    (∀ f ∈ (a.adoptFields fs).1, f.2.All Q L R) ∧ A (a.adoptFields fs).2
  | _, [], ha, h => ⟨h, ha⟩
  | a, (k, t) :: fs, ha, h => by
    obtain ⟨ht, hfs⟩ := forall_mem_cons.1 h
    obtain ⟨hfirst, hmid⟩ := all_adopt hL hR a t ha ht
    obtain ⟨hrest, hlast⟩ := all_adoptFields hL hR _ fs hmid hfs
    exact ⟨forall_mem_cons.2 ⟨hfirst, hrest⟩, hlast⟩

end

/-- What is so of variables and labels passes through unification: labels stay so in copies, and
attachments such that `A` stay so when such labels get cells, if they are kept, and when such variables
share their classes. Tails do not count. -/
structure Passing (keep : Bool) (A : Attachments → Prop) (Q : Var → Prop) (L R : Label → Prop) : Prop where
  labels : Copied L
  records : Copied R
  adopt : keep = true → Adopted A L ∧ Adopted A R
  share : ∀ a v w, A a → Q v → Q w → A (Unify.share a v w)
  of_sets : ∀ a b, b.sets = a.sets → b.next = a.next → A a → A b

theorem Passing.stable {keep : Bool} (h : Passing keep A Q L R) : Unify.Stable keep A (Ty.All Q L R) where
  child _ _ := All.child
  apply c s t _ ht hs := ht.apply h.labels h.records hs c
  adopt hk c t hc ht := all_adopt (h.adopt hk).1 (h.adopt hk).2 c t hc ht
  share c v w hc hv hw := by
    cases hv with
    | var hv =>
      cases hw with
      | var hw => exact h.share c v w hc hv hw

/-! ## Class sets -/

theorem get?_of_sets (h : b.sets = a.sets) : b.get? = a.get? := by
  funext c
  rw [get?, h, get?]

theorem get_of_sets (h : b.sets = a.sets) : b.get = a.get := by
  funext c
  rw [get, get?_of_sets h, get]

theorem ofLabel_of_sets (h : b.sets = a.sets) : b.ofLabel = a.ofLabel := by
  funext l
  rw [ofLabel, get?_of_sets h, ofLabel]

theorem ofLabel_without (a : Attachments) (cs : ClassSet) (tail : Option Tail) :
    a.ofLabel ⟨cs, none, tail⟩ = cs := rfl

theorem Rewrites.sets (h : Rewrites s a b) : b.sets = a.sets ∧ b.next = a.next := by
  induction h with
  | refl => exact ⟨rfl, rfl⟩
  | step _ n ih => exact ih

theorem sets_replay (a : Attachments) (done : List Application) :
    (a.replay done).sets = a.sets ∧ (a.replay done).next = a.next := by
  induction done generalizing a with
  | nil => exact ⟨rfl, rfl⟩
  | cons x done ih =>
    obtain ⟨hsets, hnext⟩ := (a.rewrites_revise (s := x.1) x.2).sets
    obtain ⟨hsets', hnext'⟩ := ih (a.revise x.1 x.2)
    exact ⟨hsets'.trans hsets, hnext'.trans hnext⟩

/-- From `a` to `b` no cell lost a class. Only the cells of variables such that `Q` changed, and what
they got was in one of those cells before. -/
structure Grows (Q : Var → Prop) (a b : Attachments) : Prop where
  kept : ∀ c k, k ∈ a.get c → k ∈ b.get c
  frame : ∀ c, (∀ v, Q v → v.cell ≠ c) → b.get? c = a.get? c
  source : ∀ c k, k ∈ b.get c → k ∈ a.get c ∨ ∃ v, Q v ∧ k ∈ a.get v.cell

namespace Grows

theorem of_sets (h : b.sets = a.sets) : Grows Q a b := by
  refine ⟨fun c k hk => ?_, fun c _ => ?_, fun c k hk => .inl ?_⟩
  · rwa [get_of_sets h]
  · rw [get?_of_sets h]
  · rwa [← get_of_sets h]

theorem trans {d : Attachments} (h : Grows Q a b) (h' : Grows Q b d) : Grows Q a d where
  kept c k hk := h'.kept c k (h.kept c k hk)
  frame c hc := (h'.frame c hc).trans (h.frame c hc)
  source c k hk := by
    rcases h'.source c k hk with hk | ⟨v, hv, hk⟩
    · exact h.source c k hk
    · rcases h.source v.cell k hk with hk | hk
      · exact .inr ⟨v, hv, hk⟩
      · exact .inr hk

theorem get (h : Grows Q a b) (hc : ∀ v, Q v → v.cell ≠ c) : b.get c = a.get c := by
  rw [Attachments.get, h.frame c hc, Attachments.get]

/-- If no variable had a class, none got one. -/
theorem get_of_nil (h : Grows Q a b) (hnil : ∀ v, Q v → a.get v.cell = []) (c : Cell) :
    b.get c = a.get c := by
  by_cases hc : ∃ v, Q v ∧ v.cell = c
  · obtain ⟨v, hv, rfl⟩ := hc
    rw [hnil v hv, eq_nil_iff_forall_not_mem]
    intro k hk
    rcases h.source _ k hk with hk | ⟨w, hw, hk⟩
    · rw [hnil v hv] at hk
      cases hk
    · rw [hnil w hw] at hk
      cases hk
  · exact h.get fun v hv heq => hc ⟨v, hv, heq⟩

end Grows

/-- What the cells of two variables hold after they share their classes. -/
theorem get?_share (a : Attachments) (v w : Var) (c : Cell) : (Unify.share a v w).get? c =
      if w.cell = c ∨ v.cell = c then some (ClassSet.union (a.get v.cell) (a.get w.cell))
      else a.get? c := by
  unfold Unify.share
  rw [get?_set, get?_set]
  by_cases hw : w.cell = c
  · simp [hw]
  · by_cases hv : v.cell = c <;> simp [hw, hv]

theorem mem_get_share {v : Var} : k ∈ (Unify.share a v w).get c ↔
      k ∈ a.get c ∨ (w.cell = c ∨ v.cell = c) ∧ (k ∈ a.get v.cell ∨ k ∈ a.get w.cell) := by
  rw [get, get?_share]
  by_cases hc : w.cell = c ∨ v.cell = c
  · rw [if_pos hc, Option.getD_some, ClassSet.mem_union]
    constructor
    · exact fun hk => .inr ⟨hc, hk⟩
    · rintro (hk | ⟨-, hk⟩)
      · rcases hc with rfl | rfl
        · exact .inr hk
        · exact .inl hk
      · exact hk
  · rw [if_neg hc]
    simp [hc, get]

theorem grows_share {v w : Var} (hv : Q v) (hw : Q w) : Grows Q a (Unify.share a v w) where
  kept c k hk := mem_get_share.2 (.inl hk)
  frame c hc := by rw [get?_share, if_neg (by simp [hc v hv, hc w hw])]
  source c k hk := by
    rcases mem_get_share.1 hk with hk | ⟨-, hk | hk⟩
    · exact .inl hk
    · exact .inr ⟨v, hv, hk⟩
    · exact .inr ⟨w, hw, hk⟩

/-- The cells of variables such that `Q` were made, and cells that were not made hold nothing. -/
structure Serves (Q : Var → Prop) (a : Attachments) : Prop where
  taken : ∀ v, Q v → v.cell < a.next
  unfilled : ∀ c, a.next ≤ c → a.get? c = none

theorem Serves.of_sets (h : a.Serves Q) (hsets : b.sets = a.sets) (hnext : b.next = a.next) : b.Serves Q := by
  refine ⟨fun v hv => ?_, fun c hc => ?_⟩
  · rw [hnext]
    exact h.taken v hv
  · rw [get?_of_sets hsets]
    exact h.unfilled c (hnext ▸ hc)

/-- To give a cell to a label fills none. -/
theorem adoptLabel_cases (a : Attachments) (l : Label) : (a.adoptLabel l = (l, a) ∧ l.cell ≠ none) ∨
      (l.cell = none ∧ a.adoptLabel l = ({ l with cell := some a.next }, { a with next := a.next + 1 })) := by
  unfold adoptLabel
  split
  next c hc => exact .inl ⟨rfl, by simp [hc]⟩
  next hc => exact .inr ⟨hc, rfl⟩

end Attachments

/-- The cell of the label, if it has one, is not the cell of a variable such that `Q`. -/
def Label.Apart (Q : Var → Prop) (l : Label) : Prop := ∀ c, l.cell = some c → ∀ v, Q v → v.cell ≠ c

/-- All variables of the type are such that `Q`, and none of its other parts has the cell of one. -/
abbrev Ty.Known (Q : Var → Prop) : Ty → Prop := Ty.All Q (Label.Apart Q) (Label.Apart Q)

section

variable {Q : Var → Prop} {a b : Attachments} {s : Subst} {t : Ty}

/-- What unification starts from, and how attachments changed since. -/
def Attachments.Since (Q : Var → Prop) (a b : Attachments) : Prop := b.Serves Q ∧ Grows Q a b

theorem copied_apart : Copied (Label.Apart Q) := by
  intro _ _ _ c hc
  cases hc

theorem adopted_apart : Adopted (Attachments.Since Q a) (Label.Apart Q) := by
  rintro b l ⟨hserves, hgrows⟩ hl
  rcases b.adoptLabel_cases l with ⟨h, -⟩ | ⟨-, h⟩ <;> rw [h]
  · exact ⟨hl, hserves, hgrows⟩
  · refine ⟨?_, ⟨fun v hv => Nat.lt_succ_of_lt (hserves.taken v hv), fun c hc => ?_⟩,
      hgrows.trans (.of_sets rfl)⟩
    · rintro c ⟨⟩ v hv
      exact Nat.ne_of_lt (hserves.taken v hv)
    · exact hserves.unfilled c (Nat.le_of_succ_le hc)

theorem passing_known (keep : Bool) (Q : Var → Prop) (a : Attachments) :
    Passing keep (Attachments.Since Q a) Q (Label.Apart Q) (Label.Apart Q) := by
  refine ⟨copied_apart, copied_apart, fun _ => ⟨adopted_apart, adopted_apart⟩, ?_,
    fun b d hsets hnext hb => ?_⟩
  · rintro b v w ⟨hserves, hgrows⟩ hv hw
    refine ⟨⟨hserves.taken, fun c hc => ?_⟩, hgrows.trans (grows_share hv hw)⟩
    have hvc : v.cell ≠ c := Nat.ne_of_lt (Nat.lt_of_lt_of_le (hserves.taken v hv) hc)
    have hwc : w.cell ≠ c := Nat.ne_of_lt (Nat.lt_of_lt_of_le (hserves.taken w hw) hc)
    rw [get?_share, if_neg (by simp [hvc, hwc])]
    exact hserves.unfilled c hc
  · exact ⟨hb.1.of_sets hsets hnext, hb.2.trans (.of_sets hsets)⟩

theorem stable_known (keep : Bool) (Q : Var → Prop) (a : Attachments) :
    Unify.Stable keep (Attachments.Since Q a) (Ty.Known Q) := (passing_known keep Q a).stable

/-! ## What a type holds -/

theorem Registry.classes_of_sets (reg : Registry) (h : b.sets = a.sets) : reg.classes b = reg.classes a := by
  funext t
  cases t with
  | missing => rfl
  | var v => exact congrFun (get_of_sets h) v.cell
  | con name args l => simp only [classes, Attachments.classes, ofLabel_of_sets h]
  | record name fields l => exact congrFun (ofLabel_of_sets h) l

theorem ofLabel_adoptLabel {l : Label} (hb : ∀ c, b.next ≤ c → a.get? c = none) :
    a.ofLabel (b.adoptLabel l).1 = a.ofLabel l := by
  rcases b.adoptLabel_cases l with ⟨h, -⟩ | ⟨hcell, h⟩ <;> rw [h]
  simp only [ofLabel, hcell, hb b.next (Nat.le_refl _), Option.getD_none]

theorem Ty.all_true (t : Ty) : t.All (fun _ => True) (fun _ => True) fun _ => True := by
  induction t with
  | missing => exact .missing
  | var v => exact .var trivial
  | con name args l ih => exact .con trivial ih
  | record name fields l ih => exact .record trivial ih

theorem adopted_next (n : Nat) : Adopted (fun a => n ≤ a.next) fun _ => True := by
  intro a l ha _
  rcases a.adoptLabel_cases l with ⟨h, -⟩ | ⟨-, h⟩ <;> rw [h]
  · exact ⟨trivial, ha⟩
  · exact ⟨trivial, Nat.le_succ_of_le ha⟩

theorem next_le_adopt (a : Attachments) (t : Ty) : a.next ≤ (a.adopt t).2.next :=
  (all_adopt (adopted_next a.next) (adopted_next a.next) a t (Nat.le_refl _) t.all_true).2

/-- A type holds the same classes when it got cells. -/
theorem Registry.classes_adopt (reg : Registry) (hb : ∀ c, b.next ≤ c → a.get? c = none) (t : Ty) :
    reg.classes a (b.adopt t).1 = reg.classes a t := by
  have hnext := adopted_next b.next
  cases t with
  | missing => rfl
  | var v => rfl
  | con name args l =>
    have hle := (all_adoptAll hnext hnext b args (Nat.le_refl _) fun t _ => t.all_true).2
    simp only [adopt, classes, Attachments.classes,
      ofLabel_adoptLabel fun c hc => hb c (Nat.le_trans hle hc)]
  | record name fields l =>
    have hle := (all_adoptFields hnext hnext b fields (Nat.le_refl _) fun f _ => f.2.all_true).2
    exact ofLabel_adoptLabel fun c hc => hb c (Nat.le_trans hle hc)

/-- A type holds the same classes as it is now. -/
theorem Registry.classes_current (reg : Registry) (t : Ty) :
    reg.classes a (b.current t) = reg.classes a t := by
  rw [current_eq_renewWith]
  cases t with
  | missing => rfl
  | var v => rfl
  | con name args l =>
    rw [renewWith_con]
    rfl
  | record name fields l =>
    rw [renewWith]
    split <;> rfl

end

/-! ## Bound variables -/

/-- One variable of each name: variables such that `Q` have the same cell exactly if they have the same
name. -/
def OneEach (Q : Var → Prop) : Prop := ∀ v w, Q v → Q w → (v.id = w.id ↔ v.cell = w.cell)

/-- What a variable is bound to holds the classes of the variable. -/
def Subst.Enforced (reg : Registry) (Q : Var → Prop) (a : Attachments) (s : Subst) : Prop :=
  ∀ v, Q v → ∀ t, (v.id, t) ∈ s → ∀ k ∈ a.get v.cell, k ∈ reg.classes a t

section

variable {reg : Registry} {keep : Bool} {Q Q' : Var → Prop} {a b : Attachments} {s r : Subst} {t : Ty}
  {k : String}

/-- A type loses no class when others get some. -/
theorem Registry.mem_classes_grow (hg : Grows Q' a b) (hQ : ∀ v, Q' v → Q v) (ht : t.Known Q)
    (h : k ∈ reg.classes a t) : k ∈ reg.classes b t := by
  have hlabel {l : Label} (hl : l.Apart Q) : b.ofLabel l = a.ofLabel l := by
    cases hc : l.cell with
    | none => simp only [ofLabel, hc]
    | some c => simp only [ofLabel, hc, hg.frame c fun v hv => hl c hc v (hQ v hv)]
  cases ht with
  | missing => exact h
  | var => exact hg.kept _ k h
  | con hl => simpa only [classes, Attachments.classes, hlabel hl] using h
  | record hl => simpa only [classes, Attachments.classes, hlabel hl] using h

namespace Subst.Enforced

theorem of_sets (h : Enforced reg Q a s) (hsets : b.sets = a.sets) : Enforced reg Q b s := by
  intro v hv t ht k hk
  rw [reg.classes_of_sets hsets]
  exact h v hv t ht k (get_of_sets hsets ▸ hk)

theorem adoptFields (h : Enforced reg Q a s) (hb : ∀ c, b.next ≤ c → a.get? c = none) :
    Enforced reg Q a (b.adoptFields s).1 := by
  induction s generalizing b with
  | nil => exact h
  | cons e s ih =>
    have hrest := ih (b := (b.adopt e.2).2) (fun v hv t ht => h v hv t (mem_cons_of_mem _ ht))
      fun c hc => hb c (Nat.le_trans (next_le_adopt b e.2) hc)
    intro v hv t ht k hk
    rcases mem_cons.1 ht with heq | ht
    · obtain ⟨hid, rfl⟩ := Prod.mk.inj heq
      rw [reg.classes_adopt hb]
      refine h v hv e.2 ?_ k hk
      rw [hid]
      exact mem_cons_self
    · exact hrest v hv t ht k hk

theorem adoptIf (h : Enforced reg Q a s) (hb : ∀ c, b.next ≤ c → a.get? c = none) (keep : Bool) :
    Enforced reg Q a (b.adoptIf keep s).1 := by
  cases keep with
  | false => exact h
  | true => exact h.adoptFields hb

end Subst.Enforced

/-- A type loses no class when bindings are put in. -/
theorem Registry.mem_classes_apply (hr : r.Enforced reg Q a) (hsets : b.sets = a.sets)
    (ht : t.Known Q) (h : k ∈ reg.classes a t) : k ∈ reg.classes a (Subst.apply b r t) := by
  cases r with
  | nil => exact h
  | cons e r =>
    show k ∈ reg.classes a (t.substitute b (e :: r))
    cases ht with
    | missing => exact h
    | @var v hv =>
      rw [substitute]
      cases hget : Dict.get? (e :: r) v.id with
      | none => exact h
      | some u => exact hr v hv u (Dict.mem_of_get?_eq_some hget) k h
    | con =>
      simpa only [substitute, classes, Attachments.classes, ofLabel_without, ofLabel_of_sets hsets]
        using h
    | record =>
      simpa only [substitute, classes, Attachments.classes, ofLabel_without, ofLabel_of_sets hsets]
        using h

namespace Subst.Enforced

/-- Bindings that are found next, and are put into the others. -/
theorem extend (hs : Enforced reg Q a s) (hr : Enforced reg Q a r) (ha : a.Serves Q)
    (hknown : ∀ e ∈ s, e.2.Known Q) (keep : Bool) :
    Enforced reg Q (a.extend keep r s).2 (a.extend keep r s).1 := by
  refine Enforced.of_sets ?_ (sets_extend keep a r s)
  have hnew := hr.adoptIf ha.unfilled keep
  have hsets := sets_adoptIf keep a r
  refine Enforced.adoptIf (fun v hv t ht k hk => ?_) (fun c hc => ?_) keep
  · rcases mem_compose ht with ⟨x, hx, heq⟩ | ht
    · obtain ⟨hid, rfl⟩ := Prod.mk.inj heq
      refine reg.mem_classes_apply hnew hsets (hknown x hx) (hs v hv x.2 ?_ k hk)
      rw [hid]
      exact hx
    · exact hnew v hv t ht k hk
  · refine ha.unfilled c (Nat.le_trans ?_ hc)
    cases keep with
    | false => exact Nat.le_refl _
    | true =>
      have hnext := adopted_next a.next
      exact (all_adoptFields hnext hnext a r (Nat.le_refl _) fun f _ => f.2.all_true).2

/-- Bindings stay as they should where only the classes of other variables grow. -/
theorem grow (h : Enforced reg Q a s) (hone : OneEach Q)
    (hg : Grows (fun v => Q v ∧ v.id ∉ Dict.keys s) a b) (hknown : ∀ e ∈ s, e.2.Known Q) :
    Enforced reg Q b s := by
  intro v hv t ht k hk
  have hcell : ∀ w, Q w ∧ w.id ∉ Dict.keys s → w.cell ≠ v.cell := by
    rintro w ⟨hw, hkey⟩ hsame
    refine hkey ?_
    rw [(hone w v hw hv).2 hsame]
    exact mem_map.2 ⟨_, ht, rfl⟩
  rw [hg.get hcell] at hk
  exact reg.mem_classes_grow hg (fun _ => And.left) (hknown _ ht) (h v hv t ht k hk)

end Subst.Enforced

end

/-! ## Unification -/

namespace Unify

variable {reg : Registry} {keep : Bool} {Q : Var → Prop} {a b : Attachments} {s r : Subst} {t : Ty}

theorem mem_classes_of_bindChecked {v : Var} (h : bindChecked reg a v t = .ok s) :
    ∀ k ∈ a.get v.cell, k ∈ reg.classes a t := by
  unfold bindChecked at h
  split at h
  next hnone =>
    intro k hk
    unfold lacking at hnone
    rw [if_neg (by cases hget : a.get v.cell <;> simp_all)] at hnone
    exact ClassSet.lacking_eq_nil_iff.1 hnone k hk
  next => cases h

/-- A variable that is bound to a constructor or record. -/
theorem enforced_bindChecked {v : Var} (hone : OneEach Q) (hv : Q v) (hc : t.Compound)
    (h : bindChecked reg a v t = .ok s) : s.Enforced reg Q a := by
  have hholds := mem_classes_of_bindChecked h
  obtain ⟨rfl, -⟩ := bindChecked_eq_ok hc h
  intro w hw u hu k hk
  obtain ⟨hid, rfl⟩ := Prod.mk.inj (mem_singleton.1 hu)
  refine hholds k ?_
  rwa [← (hone w v hw hv).1 hid]

/-- Two variables that become one. -/
theorem enforced_bindVars {v : Var} (hone : OneEach Q) (hv : Q v) (hw : Q w) :
    (bindVars v w).Enforced reg Q (share a v w) := by
  have hboth {k : String} : k ∈ (share a v w).get v.cell ↔ k ∈ (share a v w).get w.cell := by
    rw [mem_get_share, mem_get_share]
    simp only [true_or, or_true, true_and]
    tauto
  intro x hx u hu k hk
  rcases bindVars_cases v w with heq | heq <;> rw [heq] at hu <;>
    obtain ⟨hid, rfl⟩ := Prod.mk.inj (mem_singleton.1 hu)
  · rw [(hone x w hx hw).1 hid] at hk
    exact hboth.2 hk
  · rw [(hone x v hx hv).1 hid] at hk
    exact hboth.1 hk

/-- Where bindings are put in, their variables are left no more. -/
theorem known_apply (ht : t.Known Q) (hs : ∀ e ∈ s, e.2.Known Q)
    (hclean : ∀ e ∈ s, ∀ id ∈ e.2.ids, id ∉ Dict.keys s) (a : Attachments) :
    (Subst.apply a s t).Known fun v => Q v ∧ v.id ∉ Dict.keys s := by
  have hweak (l : Label) (hl : l.Apart Q) : l.Apart fun v => Q v ∧ v.id ∉ Dict.keys s :=
    fun c hc v hv => hl c hc v hv.1
  refine (ht.apply copied_apart copied_apart hs a).imp (fun v hv hQ => ⟨hQ, fun hkey => ?_⟩) hweak hweak
  rcases Subst.mem_ids_apply.1 (mem_map_of_mem hv) with ⟨hnone, -⟩ | ⟨w, -, u, hu, hid⟩
  · exact Dict.get?_eq_none_iff.1 hnone hkey
  · exact hclean _ (Dict.mem_of_get?_eq_some hu) _ hid hkey

/-- Bindings stay as they should while the types that they are put into are unified. -/
theorem Run.enforced {y : Ty} {c : Course Subst} (h : Run reg keep a (Subst.apply a s x) (Subst.apply a s y) c)
    (hone : OneEach Q) (ha : a.Serves Q) (hx : x.Known Q) (hy : y.Known Q) (hs : ∀ e ∈ s, e.2.Known Q)
    (hclean : ∀ e ∈ s, ∀ id ∈ e.2.ids, id ∉ Dict.keys s) (henf : s.Enforced reg Q a) :
    s.Enforced reg Q c.attachments := by
  have hserves : a.Serves fun v => Q v ∧ v.id ∉ Dict.keys s :=
    ⟨fun v hv => ha.taken v hv.1, ha.unfilled⟩
  have hover := Run.over (stable_known keep _ a) h ⟨hserves, .of_sets rfl⟩ (known_apply hx hs hclean a)
    (known_apply hy hs hclean a)
  exact henf.grow hone hover.attachments.2 hs

mutual

/-- What unification finds holds the classes of the variables that are bound. -/
theorem Run.enforces (hone : OneEach Q) : ∀ {a : Attachments} {t u : Ty} {c : Course Subst},
    Run reg keep a t u c → a.Serves Q → t.Known Q → u.Known Q → ∀ {s : Subst}, c.result = .ok s →
    s.Enforced reg Q c.attachments
  | _, _, _, _, .missingLeft _ _, _, _, _, _, hs => by cases hs; intro v _ t ht; cases ht
  | _, _, _, _, .missingRight _ _, _, _, _, _, hs => by cases hs; intro v _ t ht; cases ht
  | _, _, _, _, .same _ _, _, _, _, _, hs => by cases hs; intro v _ t ht; cases ht
  | _, _, _, _, .vars _ _, _, .var hv, .var hw, _, hs => by
    cases hs
    exact enforced_bindVars hone hv hw
  | _, _, _, _, .left _ _ hc, _, .var hv, _, _, hs => enforced_bindChecked hone hv hc hs
  | _, _, _, _, .right _ _ hc, _, _, .var hw, _, hs => enforced_bindChecked hone hw hc hs
  | _, t, u, _, .parts (c := c) _ _ h, ha, ht, hu, _, hs => by
    rw [c.attachments_guard]
    refine RunEach.enforces hone h ha (by simp) (Subst.within_nil (t.ids ++ u.ids)) (fun p hp => ?_)
      (by intro v _ t ht; cases ht) (Course.guard_eq_ok hs).1
    obtain ⟨hp1, hp2⟩ := forall_parts (fun _ _ => All.child) ht hu hp
    exact ⟨⟨hp1, (below_parts hp).left⟩, hp2, (below_parts hp).right⟩

theorem RunEach.enforces (hone : OneEach Q) : ∀ {a : Attachments} {s : Subst} {ps : List (Ty × Ty)}
    {c : Course Subst}, RunEach reg keep a s ps c → a.Serves Q → (∀ e ∈ s, e.2.Known Q) →
    ∀ {vs : List String}, s.Within vs →
    (∀ p ∈ ps, (p.1.Known Q ∧ ∀ v ∈ p.1.ids, v ∈ vs) ∧ p.2.Known Q ∧ ∀ v ∈ p.2.ids, v ∈ vs) →
    s.Enforced reg Q a → ∀ {r : Subst}, c.result = .ok r → r.Enforced reg Q c.attachments
  | _, _, _, _, .nil _ _, _, _, _, _, _, henf, _, hr => by cases hr; exact henf
  | _, _, _, _, .fail _, _, _, _, _, _, _, _, hr => by cases hr
  | a, s, p :: _, _, .next (b := b) (r := q) h hrest, ha, hs, _, hwithin, hps, henf, _, hr => by
    obtain ⟨⟨hp1, hids1⟩, hp2, hids2⟩ := hps p mem_cons_self
    have hstable := stable_known keep Q a
    have hap1 := hstable.apply a s _ ⟨ha, .of_sets rfl⟩ hp1 hs
    have hap2 := hstable.apply a s _ ⟨ha, .of_sets rfl⟩ hp2 hs
    have hold := Run.enforced h hone ha hp1 hp2 hs (fun e he id hid => (hwithin.types e he id hid).2) henf
    have hover := Run.over hstable h ⟨ha, .of_sets rfl⟩ hap1 hap2
    obtain ⟨-, hknown, hlast⟩ := hstable.next hover.attachments hs (hover.found q rfl)
    exact RunEach.enforces hone hrest hlast.1 hknown (within_next keep b hwithin hids1 hids2
      (Run.within h rfl)) (fun x hx => hps x (mem_cons_of_mem _ hx))
      (hold.extend (Run.enforces hone h ha hap1 hap2 rfl) hover.attachments.1 hs keep) hr

end

end Unify

/-! ## Solving -/

namespace Solution

variable {reg : Registry} {keep : Bool} {Q : Var → Prop} {T : Ty → Prop} {r : Solution} {c : Constraint}

/-- The attachments are such that `A`, and the variables and labels of all types such that `Q`, `L` and
`R`. -/
structure Over (A : Attachments → Prop) (Q : Var → Prop) (L R : Label → Prop) (r : Solution) : Prop where
  attachments : A r.attachments
  tails : r.attachments.AllTails Q L R
  subst : ∀ e ∈ r.subst, e.2.All Q L R

namespace Over

variable {A : Attachments → Prop} {L R : Label → Prop}

theorem bindings (h : r.Over A Q L R) : ∀ e ∈ r.bindings, e.2.All Q L R := by
  intro e he
  obtain ⟨x, hx, rfl⟩ := mem_bindings he
  exact h.tails.current (h.subst x hx)

theorem prepared (h : r.Over A Q L R) (c : Constraint) : ∀ x ∈ r.prepared c, ∀ e ∈ x.1, e.2.All Q L R := by
  intro x hx e he
  rw [(mem_applications hx).1] at he
  exact h.bindings e he

/-- What an attempt to solve an equation does to attachments, and what it finds. -/
theorem attempt (reg : Registry) (keep : Bool) (h : r.Over A Q L R) (hp : Passing keep A Q L R)
    (hl : c.left.All Q L R) (hr : c.right.All Q L R) : (r.attempt reg keep c).Over A (Ty.All Q L R) :=
  Unify.Run.over hp.stable (run_attempt reg keep r c) h.attachments
    (hp.stable.apply _ _ _ h.attachments (h.tails.current hl) h.bindings)
    (hp.stable.apply _ _ _ h.attachments (h.tails.current hr) h.bindings)

/-- Only the tails change where applications are made up for. -/
theorem replay {d : Attachments} {s : Subst} (hd : A d) (htails : d.tails = r.attachments.tails)
    (h : r.Over A Q L R) (hp : Passing keep A Q L R) (hs : ∀ e ∈ s, e.2.All Q L R)
    (hdone : ∀ x ∈ done, ∀ e ∈ x.1, e.2.All Q L R) (fs : List Failure) :
    (⟨d.replay done, s, fs⟩ : Solution).Over A Q L R := by
  obtain ⟨hsets, hnext⟩ := d.sets_replay done
  have hall : d.AllTails Q L R := by
    unfold AllTails
    rw [htails]
    exact h.tails
  exact ⟨hp.of_sets _ _ hsets hnext hd, .replay hp.labels hp.records hall hdone, hs⟩

theorem step (reg : Registry) (keep : Bool) (h : r.Over A Q L R) (hp : Passing keep A Q L R) (number : Nat)
    (hc : c.kind = .equality → c.left.All Q L R ∧ c.right.All Q L R) :
    (step reg keep r number c).Over A Q L R := by
  have hover (hk : c.kind = .equality) := h.attempt reg keep hp (hc hk).1 (hc hk).2
  rcases r.attempt_cases reg keep c with hk | ⟨hk, d, e, done, hat⟩ | ⟨hk, d, q, done, hat⟩
  · rwa [step_of_ne_equality reg keep r number hk]
  · obtain ⟨hdone, -, hd⟩ := hat ▸ hover hk
    rw [Solution.step_error hk hat]
    refine replay hd (run_of_attempt hat).tails h hp h.bindings (fun x hx => ?_) _
    rcases mem_append.1 hx with hx | hx
    · exact h.prepared c x hx
    · exact (hdone x hx).2
  · have hover := hat ▸ hover hk
    obtain ⟨-, hall, hlast⟩ := hp.stable.next hover.attachments h.bindings (hover.found q rfl)
    rw [Solution.step_ok hk hat]
    refine replay hlast ((tails_extend ..).trans (run_of_attempt hat).tails) h hp hall (fun x hx => ?_) _
    exact (hover.applied hp.stable h.bindings (h.tails.current (hc hk).1) (h.tails.current (hc hk).2) x hx).2

end Over

/-- What is so of all equations stays so while they are solved. -/
theorem over_upTo {A : Attachments → Prop} {L R : Label → Prop} {cs : List Constraint} (reg : Registry)
    (keep : Bool) (hp : Passing keep A Q L R) (ha : A a) (htails : a.AllTails Q L R)
    (hcs : ∀ c ∈ cs, c.kind = .equality → c.left.All Q L R ∧ c.right.All Q L R) {i : Nat} (hi : i ≤ cs.length) :
    (upTo reg keep a cs i).Over A Q L R :=
  upTo_induction (P := fun _ r => r.Over A Q L R) ⟨ha, htails, fun e he => nomatch he⟩
    (fun i c hc h => h.step reg keep hp i (hcs c (mem_of_getElem? hc))) hi

/-- The attachments serve the variables, and types are made of them. -/
structure Served (Q : Var → Prop) (r : Solution) : Prop where
  serves : r.attachments.Serves Q
  tails : r.attachments.AllTails Q (Label.Apart Q) (Label.Apart Q)
  known : ∀ e ∈ r.subst, e.2.Known Q

namespace Served

theorem start (h : r.Served Q) : r.Over (Since Q r.attachments) Q (Label.Apart Q) (Label.Apart Q) :=
  ⟨⟨h.serves, .of_sets rfl⟩, h.tails, h.known⟩

theorem bindings (h : r.Served Q) : ∀ e ∈ r.bindings, e.2.Known Q := h.start.bindings

theorem prepared (h : r.Served Q) (c : Constraint) : ∀ x ∈ r.prepared c, ∀ e ∈ x.1, e.2.Known Q :=
  h.start.prepared c

/-- What an attempt to solve an equation does to attachments, and what it finds. -/
theorem attempt (reg : Registry) (keep : Bool) (h : r.Served Q) (hl : c.left.Known Q) (hr : c.right.Known Q) :
    (r.attempt reg keep c).Over (Since Q r.attachments) (Ty.Known Q) :=
  h.start.attempt reg keep (passing_known keep Q _) hl hr

theorem step (h : r.Served Q) (number : Nat) (hc : c.kind = .equality → c.left.Known Q ∧ c.right.Known Q) :
    (step reg keep r number c).Served Q := by
  have hstep := h.start.step reg keep (passing_known keep Q _) number hc
  exact ⟨hstep.attachments.1, hstep.tails, hstep.subst⟩

end Served

/-- What is bound also holds classes as it should. -/
structure Enforcing (reg : Registry) (Q : Var → Prop) (r : Solution) : Prop extends Served Q r where
  enforced : r.subst.Enforced reg Q r.attachments

namespace Enforcing

theorem bindings (h : r.Enforcing reg Q) : r.bindings.Enforced reg Q r.attachments := by
  intro v hv t ht k hk
  obtain ⟨x, hx, heq⟩ := mem_bindings ht
  obtain ⟨hid, rfl⟩ := Prod.mk.inj heq
  rw [reg.classes_current]
  refine h.enforced v hv x.2 ?_ k hk
  rw [hid]
  exact hx

theorem step (h : r.Enforcing reg Q) (hone : OneEach Q) (htidy : r.Tidy (fun _ => False) T) (number : Nat)
    (hc : c.kind = .equality → c.left.Known Q ∧ c.right.Known Q) :
    (step reg keep r number c).Enforcing reg Q := by
  refine ⟨h.toServed.step number hc, ?_⟩
  by_cases hk : c.kind ≠ .equality
  · rw [step_of_ne_equality reg keep r number hk]
    exact h.enforced
  obtain ⟨hl, hr⟩ := hc (not_not.1 hk)
  have hover := h.toServed.attempt reg keep hl hr
  have hrun := run_attempt reg keep r c
  -- The variables that are bound already are not in what is unified.
  have hold := Unify.Run.enforced hrun hone h.serves (h.tails.current hl) (h.tails.current hr)
    h.toServed.bindings (fun e he id hid hkey => (htidy.reached.clear e he).ids id hid (.inr hkey))
    h.bindings
  rcases r.attempt_cases reg keep c with hk' | ⟨hk, d, e, done, hat⟩ | ⟨hk, d, q, done, hat⟩
  · exact absurd hk' hk
  · rw [hat] at hold
    rw [Solution.step_error hk hat]
    exact hold.of_sets (d.sets_replay _).1
  · rw [hat] at hrun hover hold
    have hstable := stable_known keep Q r.attachments
    have hq := Unify.Run.enforces hone hrun h.serves
      (hstable.apply _ _ _ ⟨h.serves, .of_sets rfl⟩ (h.tails.current hl) h.toServed.bindings)
      (hstable.apply _ _ _ ⟨h.serves, .of_sets rfl⟩ (h.tails.current hr) h.toServed.bindings) rfl
    rw [Solution.step_ok hk hat]
    exact (hold.extend hq hover.attachments.1 h.toServed.bindings keep).of_sets (sets_replay _ _).1

end Enforcing

end Solution

namespace Constraint

/-- Variables have cells that no other part of a type has, and types show tails as they are. -/
structure Served (Q : Var → Prop) (a : Attachments) (cs : List Constraint) : Prop where
  serves : a.Serves Q
  coherent : a.Coherent
  fit : Fit a cs
  tails : a.AllTails Q (Label.Apart Q) (Label.Apart Q)
  known : ∀ c ∈ cs, c.kind = .equality → c.left.Known Q ∧ c.right.Known Q

/-- Where this is so, there is one variable of each name. -/
structure Distinct (Q : Var → Prop) (a : Attachments) (cs : List Constraint) : Prop
    extends Served Q a cs where
  one : OneEach Q

/-- Where there are no records, there are no tails to be looked at. -/
theorem Served.of_plain {Q : Var → Prop} {a : Attachments} {cs : List Constraint} (ht : a.tails = [])
    (hserves : a.Serves Q)
    (hcs : ∀ c ∈ cs, (c.left.Plain ∧ c.right.Plain) ∧ c.left.Known Q ∧ c.right.Known Q) : Served Q a cs where
  serves := hserves
  coherent := by simp [Attachments.Coherent, tailShapes, ht]
  fit c hc _ := ⟨(Fits.of_plain (hcs c hc).1.1).coherent, (Fits.of_plain (hcs c hc).1.2).coherent⟩
  tails := by simp [AllTails, ht]
  known c hc _ := (hcs c hc).2

end Constraint

namespace Solution

variable {Q : Var → Prop} {a : Attachments} {cs : List Constraint} {i : Nat}

/-- The equations can be solved one after another, with types as they are then. -/
theorem tidy_of_served (reg : Registry) (keep : Bool) (h : Constraint.Served Q a cs) (hi : i ≤ cs.length) :
    (upTo reg keep a cs i).Tidy (fun _ => False) fun t => t.shape.Coherent a.tailShapes :=
  tidy_upTo reg keep h.coherent (fun _ ht => ⟨ht, fun _ _ hno => hno⟩) h.fit hi

theorem served_upTo (reg : Registry) (keep : Bool) (h : Constraint.Served Q a cs) (hi : i ≤ cs.length) :
    (upTo reg keep a cs i).Served Q := by
  have hover := over_upTo reg keep (passing_known keep Q a) ⟨h.serves, .of_sets rfl⟩ h.tails h.known hi
  exact ⟨hover.attachments.1, hover.tails, hover.subst⟩

theorem enforcing_upTo (reg : Registry) (keep : Bool) (h : Constraint.Distinct Q a cs)
    (hi : i ≤ cs.length) : (upTo reg keep a cs i).Enforcing reg Q :=
  upTo_induction (P := fun _ r => r.Enforcing reg Q)
    ⟨served_upTo reg keep h.toServed (Nat.zero_le _), fun v _ t ht => nomatch ht⟩
    (fun i c hc ih => ih.step h.one (tidy_of_served reg keep h.toServed (List.getElem?_eq_some_iff.1 hc).1.le) i
      (h.known c (mem_of_getElem? hc))) hi

end Solution

theorem Registry.holds_iff {reg : Registry} {t : Ty} : reg.holds a t k = true ↔ k ∈ reg.classes a t := by
  cases t <;> simp [holds, registers, classes, ClassSet.mem_union]

namespace Constraint

/-- In a solution, whatever failed, it is variables of the equations that are bound, and each class of
one of them is held by what it is bound to. -/
theorem solveWith_enforces (reg : Registry) (keep : Bool) (Q : Var → Prop) (a : Attachments)
    (cs : List Constraint) (h : Distinct Q a cs) : let r := solveWith reg keep a cs
    ∀ e ∈ r.subst, (∃ v, Q v ∧ v.id = e.1) ∧ ∀ v, Q v → v.id = e.1 →
      ∀ k ∈ r.attachments.get v.cell, reg.holds r.attachments e.2 k = true := by
  intro r e he
  constructor
  · have hkey : e.1 ∈ Dict.keys r.subst := mem_map_of_mem he
    obtain ⟨c, hc, hk, hid⟩ := (canonical_solveWith reg keep h.coherent h.fit).keys e.1 hkey
    obtain ⟨hl, hr⟩ := h.known c hc hk
    rcases hid with hid | hid <;> obtain ⟨v, hv, hid⟩ := mem_map.1 hid
    · exact ⟨v, hl.of_mem_vars hv, hid⟩
    · exact ⟨v, hr.of_mem_vars hv, hid⟩
  · intro v hv hid k hk
    have henf := (Solution.enforcing_upTo reg keep h (Nat.le_refl _)).bindings
    rw [Registry.holds_iff]
    unfold r at he hk ⊢
    rw [solveWith_eq_upTo] at he hk ⊢
    exact henf v hv e.2 (hid ▸ he) k hk

/-- Of the variables `a` and `b`, the second is a number. -/
def numbered : Attachments := ⟨[(1, [Class.num])], 2, []⟩

/-- The two variables are one, and an integer. The last equation fails. -/
def numberEquations : List Constraint :=
  [.equal (.var ⟨"a", 0⟩) (.var ⟨"b", 1⟩), .equal (.var ⟨"b", 1⟩) (.const Ty.integer []),
    .equal (.var ⟨"a", 0⟩) (.const Ty.string [])]

theorem plain_const (name : String) (classes : ClassSet) : (Ty.const name classes).Plain := .con (by simp)

theorem known_const (Q : Var → Prop) (name : String) (classes : ClassSet) : (Ty.const name classes).Known Q :=
  .con (by simp [Label.Apart, Label.fixed]) (by simp)

theorem distinct_numbered : Distinct (fun v => v = ⟨"a", 0⟩ ∨ v = ⟨"b", 1⟩) numbered numberEquations where
  toServed := by
    refine .of_plain rfl ⟨?_, fun c hc => ?_⟩ fun c hc => ?_
    · rintro v (rfl | rfl) <;> decide
    · have hne : (c == 1) = false := beq_false_of_ne (Nat.ne_of_gt hc)
      simp [get?, numbered, lookup_cons, hne]
    · simp only [numberEquations, mem_cons, not_mem_nil, or_false] at hc
      rcases hc with rfl | rfl | rfl
      · exact ⟨⟨.var _, .var _⟩, .var (.inl rfl), .var (.inr rfl)⟩
      · exact ⟨⟨.var _, plain_const ..⟩, .var (.inr rfl), known_const ..⟩
      · exact ⟨⟨.var _, plain_const ..⟩, .var (.inl rfl), known_const ..⟩
  one := by
    rintro v w (rfl | rfl) (rfl | rfl) <;> decide

theorem solveWith_enforces_numbered : let r := solveWith Class.ofPrimitive false numbered numberEquations
    r.failures.map Failure.number = [2] ∧ Dict.get? r.subst "b" = some (.const Ty.integer []) ∧
      r.attachments.get 0 = [Class.num] ∧
      ∀ e ∈ r.subst, (∃ v : Var, (v = ⟨"a", 0⟩ ∨ v = ⟨"b", 1⟩) ∧ v.id = e.1) ∧
        ∀ v : Var, v = ⟨"a", 0⟩ ∨ v = ⟨"b", 1⟩ → v.id = e.1 →
          ∀ k ∈ r.attachments.get v.cell, Registry.holds Class.ofPrimitive r.attachments e.2 k = true := by
  refine ⟨by cbv, by cbv, by cbv, ?_⟩
  exact solveWith_enforces Class.ofPrimitive false _ numbered numberEquations distinct_numbered

end Constraint

end ScriptTyping
