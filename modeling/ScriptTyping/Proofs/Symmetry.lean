import ScriptTyping.Proofs.FailedEquations
import ScriptTyping.Proofs.RevisionOrder

/-!
# The sides of a unification

Unification treats its two sides differently. It shares classes from left to right, and of two records
it asks the left one for the fields of the right one. **Theorem (`unifyIn_comm`).** Where records of one
name have the same fields, and the order of variables tells them apart, none of this counts: with the
sides exchanged, unification succeeds or fails alike, binds the same, changes tails in the same way, and
leaves the same classes in all cells, in another order at most.

The two courses are followed side by side.

* *Pairs.* The parts of two types are the same pairs in both, or have their sides exchanged
  (`Faces`, `parts_swap`).
* *Attachments.* They differ in the order of the classes of variables (`Attachments.Shuffled`).
  Whether a type has all classes of a variable does not depend on it, and the later of two variables is
  bound on either side.
* *Applications.* What is applied to the two sides of a pair comes in another order (`Reordered`). As
  the substitution is the same, tails do not notice (`Reordered.replay`).
-/

namespace ScriptTyping

open Ty Attachments List Dict Subst

/-! ## Layouts -/

namespace Ty

mutual

/-- The records in a type: their names, and what their fields are called. -/
def layouts : Ty → List (String × List String)
  | missing => []
  | var _ => []
  | con _ args _ => layoutsAll args
  | record name fields _ => (name, Dict.keys fields) :: layoutsFields fields

def layoutsAll : List Ty → List (String × List String)
  | [] => []
  | t :: ts => t.layouts ++ layoutsAll ts

def layoutsFields : List (String × Ty) → List (String × List String)
  | [] => []
  | (_, t) :: fs => t.layouts ++ layoutsFields fs

end

variable {t : Ty} {r : String × List String}

theorem mem_layouts_con {name : String} {args : List Ty} {l : Label} :
    r ∈ (con name args l).layouts ↔ ∃ t ∈ args, r ∈ t.layouts := by
  rw [layouts]
  induction args with
  | nil => simp [layoutsAll]
  | cons t ts ih => simp [layoutsAll, ih]

theorem mem_layouts_record {name : String} {fields : List (String × Ty)} {l : Label} :
    r ∈ (record name fields l).layouts ↔
      r = (name, Dict.keys fields) ∨ ∃ f ∈ fields, r ∈ f.2.layouts := by
  have hfields : r ∈ layoutsFields fields ↔ ∃ f ∈ fields, r ∈ f.2.layouts := by
    induction fields with
    | nil => simp [layoutsFields]
    | cons f fs ih => simp [layoutsFields, ih]
  rw [layouts, mem_cons, hfields]

/-- Records stay where variables are replaced, and others come in their place. -/
theorem mem_layouts_fill {tails : Bool} {θ : Valuation} :
    r ∈ (t.fill tails θ).layouts ↔ r ∈ t.layouts ∨ ∃ id ∈ t.ids, r ∈ (θ id).layouts := by
  induction t with
  | missing => simp [fill, layouts]
  | var v => simp [fill, layouts]
  | con name args l ih =>
    rw [fill_con, mem_layouts_con, mem_layouts_con]
    simp only [mem_map, exists_exists_and_eq_and, mem_ids_con]
    constructor
    · rintro ⟨t, ht, hr⟩
      rcases (ih t ht).1 hr with hr | ⟨id, hid, hr⟩
      · exact .inl ⟨t, ht, hr⟩
      · exact .inr ⟨id, ⟨t, ht, hid⟩, hr⟩
    · rintro (⟨t, ht, hr⟩ | ⟨id, ⟨t, ht, hid⟩, hr⟩)
      · exact ⟨t, ht, (ih t ht).2 (.inl hr)⟩
      · exact ⟨t, ht, (ih t ht).2 (.inr ⟨id, hid, hr⟩)⟩
  | record name fields l ih =>
    rw [fill_record, mem_layouts_record, mem_layouts_record, keys_mapValues]
    simp only [mapValues, mem_map, exists_exists_and_eq_and, mem_ids_record]
    constructor
    · rintro (hr | ⟨f, hf, hr⟩)
      · exact .inl (.inl hr)
      · rcases (ih f hf).1 hr with hr | ⟨id, hid, hr⟩
        · exact .inl (.inr ⟨f, hf, hr⟩)
        · exact .inr ⟨id, ⟨f, hf, hid⟩, hr⟩
    · rintro ((hr | ⟨f, hf, hr⟩) | ⟨id, ⟨f, hf, hid⟩, hr⟩)
      · exact .inl hr
      · exact .inr ⟨f, hf, (ih f hf).2 (.inl hr)⟩
      · exact .inr ⟨f, hf, (ih f hf).2 (.inr ⟨id, hid, hr⟩)⟩

/-- Fields are listed in ascending order. -/
theorem Proper.layouts (h : t.Proper) : ∀ r ∈ t.layouts, r.2.Pairwise (· < ·) := by
  induction h with
  | var => simp [Ty.layouts]
  | con _ ih =>
    intro r hr
    obtain ⟨t, ht, hr⟩ := mem_layouts_con.1 hr
    exact ih t ht r hr
  | record hs _ ih =>
    intro r hr
    rcases mem_layouts_record.1 hr with rfl | ⟨f, hf, hr⟩
    · exact hs
    · exact ih f hf r hr

theorem mem_layouts_bare : r ∈ t.bare.layouts ↔ r ∈ t.layouts := by
  have hfree (id : String) : (free id).layouts = [] := rfl
  simp [bare, inst, mem_layouts_fill, hfree]

end Ty

/-- A type without gaps over variables such that `Q`, whose records are such that `R`. -/
structure Ty.Formed (Q : Var → Prop) (R : String × List String → Prop) (t : Ty) : Prop where
  known : t.Known Q
  proper : t.Proper
  layouts : ∀ r ∈ t.layouts, R r

section

variable {reg : Registry} {keep : Bool} {Q : Var → Prop} {R : String × List String → Prop}
  {a b : Attachments} {s r : Subst} {t u : Ty}

theorem Unify.stable_layouts (keep : Bool) :
    Unify.Stable keep (fun _ => True) fun t => ∀ r ∈ t.layouts, R r where
  child t x ht hx := by
    intro r hr
    cases t with
    | missing => cases hx
    | var v => cases hx
    | con name args l => exact ht r (mem_layouts_con.2 ⟨x, hx, hr⟩)
    | record name fields l =>
      obtain ⟨k, hk⟩ := hx
      exact ht r (mem_layouts_record.2 (.inr ⟨_, hk, hr⟩))
  apply c s t _ ht hs := by
    intro r hr
    rw [← mem_layouts_bare, bare_apply, inst, mem_layouts_fill] at hr
    rcases hr with hr | ⟨id, -, hr⟩
    · exact ht r hr
    · cases hget : get? s id with
      | none =>
        rw [val_of_not_mem (get?_eq_none_iff.1 hget)] at hr
        cases hr
      | some u =>
        rw [val_of_get? hget, mem_layouts_bare] at hr
        exact hs _ (mem_of_get?_eq_some hget) r hr
  adopt _ c t _ ht := by
    refine ⟨fun r hr => ht r ?_, trivial⟩
    rwa [← mem_layouts_bare, c.bare_adopt, mem_layouts_bare] at hr
  share _ _ _ _ _ _ := trivial

theorem Unify.stable_formed (keep : Bool) (Q : Var → Prop) (R : String × List String → Prop)
    (a : Attachments) : Unify.Stable keep (Since Q a) (Ty.Formed Q R) where
  child t x ht hx :=
    ⟨ht.known.child hx, ht.proper.child hx, (stable_layouts keep).child t x ht.layouts hx⟩
  apply c s t hc ht hs :=
    ⟨(stable_known keep Q a).apply c s t hc ht.known fun e he => (hs e he).known,
      proper_apply (fun e he => (hs e he).proper) ht.proper,
      (stable_layouts keep).apply c s t trivial ht.layouts fun e he => (hs e he).layouts⟩
  adopt hk c t hc ht := by
    obtain ⟨hknown, hlast⟩ := (stable_known keep Q a).adopt hk c t hc ht.known
    exact ⟨⟨hknown, (stable_proper.adopt hk c t trivial ht.proper).1,
      ((stable_layouts keep).adopt hk c t trivial ht.layouts).1⟩, hlast⟩
  share c v w hc hv hw := (stable_known keep Q a).share c v w hc hv.known hw.known

/-! ## Pairs -/

namespace Unify

/-- The same pair, or the same with its sides exchanged. -/
def Faces (p q : Ty × Ty) : Prop := q = p ∨ q = p.swap

theorem Faces.perm {p q : Ty × Ty} (h : Faces p q) : [p.1, p.2].Perm [q.1, q.2] := by
  rcases h with rfl | rfl
  · exact .refl _
  · exact .swap _ _ _

/-- Substitutions are applied to both sides alike. -/
theorem Faces.apply {p q : Ty × Ty} (h : Faces p q) (hab : Framed Q a b) (h1 : p.1.Known Q)
    (h2 : p.2.Known Q) (s : Subst) :
    Faces (apply a s p.1, apply a s p.2) (apply b s q.1, apply b s q.2) := by
  rcases h with rfl | rfl
  · rw [hab.apply h1, hab.apply h2]
    exact .inl rfl
  · rw [Prod.fst_swap, Prod.snd_swap, hab.apply h1, hab.apply h2]
    exact .inr rfl

theorem forall₂_faces_self (ps : List (Ty × Ty)) : List.Forall₂ Faces ps ps :=
  forall₂_same.2 fun _ _ => .inl rfl

theorem forall₂_faces_zip (xs ys : List Ty) : List.Forall₂ Faces (xs.zip ys) (ys.zip xs) := by
  rw [← zip_swap xs ys, forall₂_map_right_iff]
  exact forall₂_same.2 fun _ _ => .inr rfl

/-- Two records with the same fields are taken apart field by field. -/
theorem fieldParts_of_keys {left : String} {fs gs hs : List (String × Ty)}
    (hkeys : Dict.keys gs = Dict.keys hs) (hget : ∀ e ∈ gs, get? fs e.1 = some e.2) :
    fieldParts left fs hs = ⟨(gs.map Prod.snd).zip (hs.map Prod.snd), none⟩ := by
  induction hs generalizing gs with
  | nil =>
    cases gs with
    | nil => rfl
    | cons e gs => cases hkeys
  | cons h hs ih =>
    cases gs with
    | nil => cases hkeys
    | cons e gs =>
      obtain ⟨hfirst, hrest⟩ := forall_mem_cons.1 hget
      obtain ⟨hkey, hkeys⟩ := List.cons.inj hkeys
      simp only [fieldParts, ← hkey, hfirst, ih hkeys hrest]
      rfl

/-- With the sides exchanged, the parts of two types are the same pairs, maybe with their sides
exchanged, if records of one name have the same fields. -/
theorem parts_swap (hR : ∀ n ks ks', R (n, ks) → R (n, ks') → ks = ks') (ht : t.Formed Q R)
    (hu : u.Formed Q R) : (parts u t).fault.isSome = (parts t u).fault.isSome ∧
      List.Forall₂ Faces (parts t u).pairs (parts u t).pairs := by
  cases t with
  | missing => cases ht.proper
  | var v => cases u <;> exact ⟨rfl, .nil⟩
  | con n xs l =>
    cases u with
    | missing => cases hu.proper
    | var w => exact ⟨rfl, .nil⟩
    | con m ys k =>
      simp only [parts]
      by_cases h : n = m ∧ xs.length = ys.length
      · rw [if_pos h, if_pos ⟨h.1.symm, h.2.symm⟩]
        exact ⟨rfl, forall₂_faces_zip xs ys⟩
      · rw [if_neg h, if_neg fun h' => h ⟨h'.1.symm, h'.2.symm⟩]
        exact ⟨rfl, .nil⟩
    | record m gs k => exact ⟨rfl, forall₂_faces_self _⟩
  | record n fs l =>
    cases u with
    | missing => cases hu.proper
    | var w => exact ⟨rfl, .nil⟩
    | con m ys k => exact ⟨rfl, forall₂_faces_self _⟩
    | record m gs k =>
      simp only [parts]
      by_cases hname : n = m
      · subst hname
        have hkeys : Dict.keys fs = Dict.keys gs :=
          hR n _ _ (ht.layouts _ (mem_layouts_record.2 (.inl rfl)))
            (hu.layouts _ (mem_layouts_record.2 (.inl rfl)))
        obtain ⟨-, ⟨⟩ | ⟨⟩ | ⟨hfs, -⟩, -⟩ := ht
        obtain ⟨-, ⟨⟩ | ⟨⟩ | ⟨hgs, -⟩, -⟩ := hu
        rw [if_pos (.inl rfl), if_pos (.inl rfl),
          fieldParts_of_keys hkeys fun e he => hfs.get?_of_mem he,
          fieldParts_of_keys hkeys.symm fun e he => hgs.get?_of_mem he]
        exact ⟨rfl, forall₂_faces_zip _ _⟩
      · -- An anonymous record is asked for its fields on either side.
        by_cases hm : m = Ty.anonymous
        · subst hm
          simp only [hname, Ne.symm hname, or_true, or_self, if_true, if_false]
          exact ⟨trivial, forall₂_faces_self _⟩
        · by_cases hn : n = Ty.anonymous
          · subst hn
            simp only [hname, Ne.symm hname, or_true, or_self, if_true, if_false]
            exact ⟨trivial, forall₂_faces_self _⟩
          · simp only [hname, Ne.symm hname, hm, hn, or_self, if_false]
            exact ⟨rfl, .nil⟩

end Unify

/-! ## Classes in another order -/

/-- The same cells are made, the cells of variables hold the same classes in some order, and all else is
the same. -/
structure Attachments.Shuffled (Q : Var → Prop) (a b : Attachments) : Prop extends Framed Q a b where
  next : b.next = a.next
  mem : ∀ c k, k ∈ b.get c ↔ k ∈ a.get c

namespace Attachments.Shuffled

theorem refl (Q : Var → Prop) (a : Attachments) : Shuffled Q a a :=
  ⟨⟨fun _ _ => rfl, rfl⟩, rfl, fun _ _ => .rfl⟩

theorem mem_classes (h : Shuffled Q a b) (ht : t.Known Q) (reg : Registry) {k : String} :
    k ∈ reg.classes b t ↔ k ∈ reg.classes a t := by
  cases ht with
  | missing => exact .rfl
  | var => exact h.mem _ k
  | con hl => simp only [Registry.classes, classes, h.ofLabel hl]
  | record hl => simp only [Registry.classes, classes, h.ofLabel hl]

/-- Two variables share their classes, whichever is on the left. -/
theorem share (h : Shuffled Q a b) {v w v' w' : Var} (hv : Q v) (hw : Q w)
    (hside : (v', w') = (v, w) ∨ (v', w') = (w, v)) :
    Shuffled Q (Unify.share a v w) (Unify.share b v' w') := by
  rcases hside with heq | heq <;> obtain ⟨rfl, rfl⟩ := Prod.mk.inj heq
  · refine ⟨h.toFramed.share hv hw hv hw, h.next, fun c k => ?_⟩
    simp only [mem_get_share, h.mem]
  · refine ⟨h.toFramed.share hv hw hw hv, h.next, fun c k => ?_⟩
    simp only [mem_get_share, h.mem]
    tauto

theorem adoptLabel (h : Shuffled Q a b) (l : Label) :
    (b.adoptLabel l).1 = (a.adoptLabel l).1 ∧ Shuffled Q (a.adoptLabel l).2 (b.adoptLabel l).2 := by
  unfold Attachments.adoptLabel
  split
  · exact ⟨rfl, h⟩
  · exact ⟨by simp only [fresh, h.next], ⟨h.frame, h.tails⟩, congrArg (· + 1) h.next, h.mem⟩

end Attachments.Shuffled

namespace Attachments

mutual

/-- Types get the same cells. -/
theorem Shuffled.adopt : ∀ {a b : Attachments} (t : Ty), Shuffled Q a b →
    (b.adopt t).1 = (a.adopt t).1 ∧ Shuffled Q (a.adopt t).2 (b.adopt t).2
  | _, _, .missing, h => ⟨rfl, h⟩
  | _, _, .var _, h => ⟨rfl, h⟩
  | a, b, .con name args l, h => by
    obtain ⟨hargs, hmid⟩ := Shuffled.adoptAll args h
    obtain ⟨hlabel, hlast⟩ := hmid.adoptLabel l
    simp only [Attachments.adopt, hargs, hlabel, true_and]
    exact hlast
  | a, b, .record name fields l, h => by
    obtain ⟨hfields, hmid⟩ := Shuffled.adoptFields fields h
    obtain ⟨hlabel, hlast⟩ := hmid.adoptLabel l
    simp only [Attachments.adopt, hfields, hlabel, true_and]
    exact hlast

theorem Shuffled.adoptAll : ∀ {a b : Attachments} (ts : List Ty), Shuffled Q a b →
    (b.adoptAll ts).1 = (a.adoptAll ts).1 ∧ Shuffled Q (a.adoptAll ts).2 (b.adoptAll ts).2
  | _, _, [], h => ⟨rfl, h⟩
  | a, b, t :: ts, h => by
    obtain ⟨ht, hmid⟩ := Shuffled.adopt t h
    obtain ⟨hts, hlast⟩ := Shuffled.adoptAll ts hmid
    simp only [Attachments.adoptAll, ht, hts, true_and]
    exact hlast

theorem Shuffled.adoptFields : ∀ {a b : Attachments} (fs : List (String × Ty)), Shuffled Q a b →
    (b.adoptFields fs).1 = (a.adoptFields fs).1 ∧ Shuffled Q (a.adoptFields fs).2 (b.adoptFields fs).2
  | _, _, [], h => ⟨rfl, h⟩
  | a, b, (k, t) :: fs, h => by
    obtain ⟨ht, hmid⟩ := Shuffled.adopt t h
    obtain ⟨hfs, hlast⟩ := Shuffled.adoptFields fs hmid
    simp only [Attachments.adoptFields, ht, hfs, true_and]
    exact hlast

end

theorem Shuffled.adoptIf (h : Shuffled Q a b) (keep : Bool) (fs : List (String × Ty)) :
    (b.adoptIf keep fs).1 = (a.adoptIf keep fs).1 ∧
      Shuffled Q (a.adoptIf keep fs).2 (b.adoptIf keep fs).2 := by
  cases keep with
  | false => exact ⟨rfl, h⟩
  | true => exact h.adoptFields fs

/-- The next bindings are composed with the others alike. -/
theorem Shuffled.extend (h : Shuffled Q a b) (keep : Bool) (r : Subst) (hs : ∀ e ∈ s, e.2.Known Q) :
    (b.extend keep r s).1 = (a.extend keep r s).1 ∧
      Shuffled Q (a.extend keep r s).2 (b.extend keep r s).2 := by
  obtain ⟨hnew, hmid⟩ := h.adoptIf keep r
  simp only [Attachments.extend, hnew, hmid.compose hs]
  exact hmid.adoptIf keep _

end Attachments

/-! ## Applications in another order -/

/-- What is applied, with the types to which one substitution is applied in another order. -/
inductive Reordered : List Application → List Application → Prop
  | nil : Reordered [] []
  | block {s : Subst} {ts : List Ty} {us xs ys} (h : ts.Perm us) (hrest : Reordered xs ys) :
    Reordered (ts.map (s, ·) ++ xs) (us.map (s, ·) ++ ys)

namespace Reordered

variable {xs ys zs ws : List Application}

theorem append (h : Reordered xs ys) (h' : Reordered zs ws) : Reordered (xs ++ zs) (ys ++ ws) := by
  induction h with
  | nil => exact h'
  | block hperm _ ih =>
    rw [append_assoc, append_assoc]
    exact .block hperm ih

theorem applications (h : b.tails = a.tails) (s : Subst) {ts us : List Ty} (hperm : ts.Perm us) :
    Reordered (a.applications s ts) (b.applications s us) := by
  unfold Attachments.applications
  rw [h]
  split
  · exact .nil
  · simpa using Reordered.block (s := s) hperm .nil

/-- Tails do not notice. -/
theorem replay {L : Levels} (h : Reordered xs ys) (ha : a.Graded L) (hxs : ∀ x ∈ xs, x.1.Lowers L)
    (hdepth : ∀ n, L.tails n ≤ a.tails.length) : a.replay ys = a.replay xs := by
  have hfold (a : Attachments) (s : Subst) (ts : List Ty) :
      (ts.map (s, ·)).foldl (fun a d => a.revise d.1 d.2) a = ts.foldl (fun a t => a.revise s t) a := by
    rw [foldl_map]
  induction h generalizing a with
  | nil => rfl
  | @block s ts us xs ys hperm _ ih =>
    simp only [replay, foldl_append, hfold] at ih ⊢
    cases ts with
    | nil =>
      rw [nil_perm.1 hperm]
      exact ih ha (fun x hx => hxs x (by simpa using hx)) hdepth
    | cons t ts =>
      have hs : s.Lowers L := hxs (s, t) (by simp)
      have hrewrites : a.Rewrites s ((t :: ts).foldl (fun a t => a.revise s t) a) :=
        rewrites_foldl (fun b t _ => b.rewrites_revise t) a
      rw [← ha.foldl_revise_perm hperm hs hdepth]
      refine ih (ha.of_rewrites hs hrewrites) (fun x hx => hxs x (mem_append_right _ hx)) ?_
      rwa [length_rewrites hrewrites]

end Reordered

/-! ## Courses -/

namespace Unify

/-- Two runs that find the same or fail both, on pairs with their sides maybe exchanged, and leave the same up
to the order of classes. -/
def reflected (Q : Var → Prop) : Likeness := ⟨Shuffled Q, Faces, Eq, fun _ _ => True, Reordered⟩

/-- The later of two variables is bound, on either side. -/
theorem bindVars_comm {v w : Var} (h : Var.order v.id w.id ≠ .eq) : bindVars w v = bindVars v w := by
  unfold bindVars
  rw [Var.order_swap w.id v.id]
  cases hord : Var.order v.id w.id with
  | lt => rfl
  | eq => exact absurd hord h
  | gt => rfl

theorem bindChecked_eq {v : Var} : bindChecked reg a v t =
    if ∀ k ∈ a.get v.cell, k ∈ reg.classes a t then bind v t
    else .error (.classes t (lacking reg a (a.get v.cell) t)) := by
  have hlack : lacking reg a (a.get v.cell) t = [] ↔ ∀ k ∈ a.get v.cell, k ∈ reg.classes a t := by
    unfold lacking
    split
    next hnil => simp [List.isEmpty_iff.1 hnil]
    next => exact ClassSet.lacking_eq_nil_iff
  unfold bindChecked
  split
  next hnone => rw [if_pos (hlack.1 hnone)]
  next hne => rw [if_neg fun h => hne (hlack.2 h)]

theorem found_checked (h : Shuffled Q a b) (ht : t.Known Q) (v : Var) :
    (reflected Q).Found (bindChecked reg a v t) (bindChecked reg b v t) := by
  simp only [bindChecked_eq, h.mem, h.mem_classes ht reg]
  split
  · cases bind v t with
    | ok => exact .ok rfl
    | error => exact .error trivial
  · exact .error trivial

/-- With the sides exchanged, and classes in another order, unification takes the same course. -/
theorem kept_reflected (reg : Registry) (keep : Bool)
    (horder : ∀ v w, Q v → Q w → Var.order v.id w.id = .eq → v.id = w.id)
    (hR : ∀ n ks ks', R (n, ks) → R (n, ks') → ks = ks') : (reflected Q).Kept reg keep (Ty.Formed Q R) where
  nil := rfl
  none := .nil
  append := .append
  base := by
    rintro a b t u ⟨x, y⟩ c d hab hside ht hu hno h h'
    cases h with
    | missingLeft => cases ht.proper
    | missingRight => cases hu.proper
    | same _ h =>
      rcases hside with heq | heq <;> cases heq
      · rw [h'.of_vars, if_pos h]
        exact ⟨hab, .ok rfl, .nil⟩
      · rw [h'.of_vars, if_pos h.symm]
        exact ⟨hab, .ok rfl, .nil⟩
    | @vars _ v w h =>
      have hv : Q v := ht.known.of_mem_vars (by simp [vars])
      have hw : Q w := hu.known.of_mem_vars (by simp [vars])
      rcases hside with heq | heq <;> cases heq
      · rw [h'.of_vars, if_neg h]
        exact ⟨hab.share hv hw (.inl rfl), .ok rfl, .nil⟩
      · rw [h'.of_vars, if_neg (Ne.symm h), bindVars_comm fun heq => h (horder v w hv hw heq)]
        exact ⟨hab.share hv hw (.inr rfl), .ok rfl, .nil⟩
    | left _ v hc =>
      rcases hside with heq | heq <;> cases heq
      · exact h'.of_left hc ▸ ⟨hab, found_checked hab hu.known v, .nil⟩
      · exact h'.of_right hc ▸ ⟨hab, found_checked hab hu.known v, .nil⟩
    | right _ w hc =>
      rcases hside with heq | heq <;> cases heq
      · exact h'.of_right hc ▸ ⟨hab, found_checked hab ht.known w, .nil⟩
      · exact h'.of_left hc ▸ ⟨hab, found_checked hab ht.known w, .nil⟩
    | parts ht hu => exact absurd ⟨ht, hu⟩ hno
  parts := by
    have hrel {f g : Option UnifyError} (h : g.isSome = f.isSome) : Option.Rel (fun _ _ => True) f g := by
      cases f <;> cases g <;> first | exact .none | exact .some trivial | cases h
    rintro t u ⟨x, y⟩ hside ht hu hct hcu
    rcases hside with heq | heq <;> cases heq
    · exact ⟨hct, hcu, forall₂_faces_self _, hrel rfl⟩
    · obtain ⟨hfault, hpairs⟩ := parts_swap hR ht hu
      exact ⟨hcu, hct, hpairs, hrel hfault⟩
  apply := by
    rintro a b s _ p q hab rfl hpq hp1 hp2
    exact ⟨hpq.apply hab.toFramed hp1.known hp2.known s, .applications hab.tails s hpq.perm⟩
  extend := by
    rintro a b s _ r _ hab rfl rfl hs
    obtain ⟨hextend, hnext⟩ := hab.extend keep r fun e he => (hs e he).known
    rw [hextend, (hab.adoptIf keep r).1]
    exact ⟨rfl, hnext, .applications hab.tails _ (.refl _)⟩

end Unify

end

/-! ## Both sides -/

open Unify

/-- Two types without gaps, over variables such that `Q`, that show tails as they are. Records of one
name have the same fields, and variables of different names are told apart by their order. -/
structure Balanced (Q : Var → Prop) (a : Attachments) (t u : Ty) : Prop where
  serves : a.Serves Q
  order : ∀ v w, Q v → Q w → Var.order v.id w.id = .eq → v.id = w.id
  coherent : a.Coherent
  tails : a.AllTails Q (Label.Apart Q) (Label.Apart Q)
  left : t.Fits a.tailShapes ∧ t.Known Q
  right : u.Fits a.tailShapes ∧ u.Known Q
  layouts : ∀ r ∈ t.layouts ++ u.layouts, ∀ r' ∈ t.layouts ++ u.layouts, r.1 = r'.1 →
    ∀ k, k ∈ r.2 ↔ k ∈ r'.2

namespace Balanced

variable {reg : Registry} {Q : Var → Prop} {a : Attachments} {t u x : Ty}

/-- A record that occurs in one of the two types. -/
def Layout (t u : Ty) (r : String × List String) : Prop :=
  r ∈ t.layouts ++ u.layouts ∧ r.2.Pairwise (· < ·)

theorem layout_inj (h : Balanced Q a t u) (n : String) (ks ks' : List String)
    (hks : Layout t u (n, ks)) (hks' : Layout t u (n, ks')) : ks = ks' := by
  refine List.Perm.eq_of_pairwise (fun x y _ _ hxy hyx => ?_) hks.2 hks'.2 ?_
  · exact absurd hyx (String.lt_asymm hxy)
  · have hnodup {l : List String} (hl : l.Pairwise (· < ·)) : l.Nodup :=
      hl.imp fun hlt => String.ne_of_lt hlt
    exact (perm_ext_iff_of_nodup (hnodup hks.2) (hnodup hks'.2)).2
      (h.layouts _ hks.1 _ hks'.1 rfl)

/-- A type as it is now has the same records as before. -/
theorem formed_current (h : Balanced Q a t u) (hx : x.Fits a.tailShapes ∧ x.Known Q)
    (hsub : ∀ r ∈ x.layouts, r ∈ t.layouts ++ u.layouts) : (a.current x).Formed Q (Layout t u) := by
  have hbare : (a.current x).bare = x.bare := by
    rw [← bare_shape, ← bare_shape x]
    exact congrArg bare (h.coherent.fit.image_current hx.1.coherent)
  have hproper : (a.current x).Proper := by
    rw [← proper_bare, hbare, proper_bare]
    exact hx.1.proper
  refine ⟨h.tails.current hx.2, hproper, fun r hr => ⟨hsub r ?_, hproper.layouts r hr⟩⟩
  rwa [← mem_layouts_bare, hbare, mem_layouts_bare] at hr

/-- What applies to the sides in one order leaves the tails of the other. -/
theorem tails_replay (h : Balanced Q a t u) {c d : Course Subst}
    (hrun : Run reg true a (a.current t) (a.current u) c) (hcd : (reflected Q).Courses c d) :
    Framed Q (c.attachments.replay c.done) (d.attachments.replay d.done) := by
  have hclear {x : Ty} (hx : x.Fits a.tailShapes) :
      Clear free a.tailShapes (fun _ => False) a (a.current x) := by
    refine clear_free (fun _ _ => id) ?_
    rw [show (a.current x).shape = x.shape from h.coherent.fit.image_current hx.coherent]
    exact hx.coherent
  obtain ⟨θ, B, hlater, -⟩ := hrun.absorbed h.coherent.fit ⟨fun _ _ => rfl, fun _ => rfl⟩
    (hclear h.left.1) (hclear h.right.1) rfl
  have htails : d.attachments.tails = a.tails := hcd.attachments.tails.trans hrun.tails
  have hgraded : d.attachments.Graded (levels θ B) := by
    unfold Graded
    rw [htails]
    exact hlater.fit.graded
  have hlength : B.length = d.attachments.tails.length := by
    rw [← hlater.fit.tails, length_map, htails]
  have hover := Run.over (stable_known true Q a) hrun ⟨h.serves, .of_sets rfl⟩
    (h.tails.current h.left.2) (h.tails.current h.right.2)
  have hall : c.attachments.AllTails Q (Label.Apart Q) (Label.Apart Q) := by
    unfold AllTails
    rw [hrun.tails]
    exact h.tails
  rw [hcd.done.replay hgraded (fun x hx => (hlater.done x hx).lowers)
    fun n => hlength ▸ levels_le θ B n]
  exact hcd.attachments.toFramed.replay hall c.done fun x hx => (hover.done x hx).2

end Balanced

/-- With the sides exchanged, unification finds the same or fails alike, and leaves the same tails and
in each cell the same classes. -/
theorem unifyIn_comm (reg : Registry) (Q : Var → Prop) (a : Attachments) (t u : Ty) (h : Balanced Q a t u) :
    (∀ s, (unifyIn reg a t u).1 = .ok s ↔ (unifyIn reg a u t).1 = .ok s) ∧
    (unifyIn reg a t u).2.tails = (unifyIn reg a u t).2.tails ∧
    ∀ c k, k ∈ (unifyIn reg a t u).2.get c ↔ k ∈ (unifyIn reg a u t).2.get c := by
  have hrun := run_unifyWithin reg true a (a.current t) (a.current u)
  have hcd := Run.alike (q := (_, _)) (kept_reflected reg true h.order h.layout_inj) (stable_formed true Q _ a) hrun
    (run_unifyWithin reg true a (a.current u) (a.current t)) (.refl Q a) (.inr rfl) ⟨h.serves, .of_sets rfl⟩
    (h.formed_current h.left fun r hr => mem_append_left _ hr)
    (h.formed_current h.right fun r hr => mem_append_right _ hr)
  refine ⟨fun s => ?_, (h.tails_replay hrun hcd).tails.symm, fun c k => ?_⟩
  · show (unifyWithin reg true a (a.current t) (a.current u)).forget.result = .ok s ↔
      (unifyWithin reg true a (a.current u) (a.current t)).forget.result = .ok s
    have hiff {r r' : Except UnifyError Subst} (h : (reflected Q).Found r r') : r = .ok s ↔ r' = .ok s := by
      cases h with
      | ok h => cases h; rfl
      | error => simp
    exact hiff hcd.result
  · show k ∈ ((unifyWithin reg true a (a.current t) (a.current u)).forget.attachments.replay _).get c ↔
      k ∈ ((unifyWithin reg true a (a.current u) (a.current t)).forget.attachments.replay _).get c
    rw [get_of_sets (sets_replay _ _).1, get_of_sets (sets_replay _ _).1]
    exact (hcd.attachments.mem c k).symm

open Constraint

/-- The variables `a`, a number, and `T0`, which has an order. -/
def Either (v : Var) : Prop := v = ⟨"a", 0⟩ ∨ v = ⟨"T0", 1⟩

/-- Their classes, and the tail of `tailedBox`. -/
def boxed : Attachments := ⟨[(0, [Class.num]), (1, [Class.ord])], 2, boxTail.tails⟩

/-- The variable `a` and a box of it, whose field is in a tail. -/
def tailedPair : Ty := .app "P" [.var ⟨"a", 0⟩, tailedBox]

/-- The variable `T0` and a box of it. -/
def untailedPair : Ty := .app "P" [.var ⟨"T0", 1⟩, untailedBox (.var ⟨"T0", 1⟩)]

theorem balanced_pairs : Balanced Either boxed tailedPair untailedPair := by
  -- No label has a cell.
  have hapart {cs : ClassSet} {tail : Option Tail} : Label.Apart Either ⟨cs, none, tail⟩ := by
    simp [Label.Apart]
  have hbox {v : Var} {tail : Option Tail} (hv : Either v) :
      (Ty.record "Box" [("x", .var v)] ⟨[], none, tail⟩).Known Either :=
    .record hapart (by simpa using .var hv)
  have hpair {v : Var} {box : Ty} (hv : Either v) (hbox : box.Known Either) :
      (Ty.app "P" [.var v, box]).Known Either :=
    .con hapart (forall_mem_cons.2 ⟨.var hv, by simpa using hbox⟩)
  have hfits {v : Var} {box : Ty} (hbox : box.Fits boxed.tailShapes) :
      (Ty.app "P" [.var v, box]).Fits boxed.tailShapes :=
    .con (forall_mem_cons.2 ⟨.var v, by simpa using hbox⟩)
  refine ⟨⟨?_, fun c hc => ?_⟩, ?_, coherent_boxTail, ?_, ⟨hfits fits_tailedBox, ?_⟩,
    ⟨hfits (fits_untailedBox (.var _)), ?_⟩, ?_⟩
  · rintro v (rfl | rfl) <;> decide
  · have h0 : (c == 0) = false := beq_false_of_ne (Nat.ne_of_gt (Nat.lt_of_lt_of_le Nat.zero_lt_two hc))
    have h1 : (c == 1) = false := beq_false_of_ne (Nat.ne_of_gt (Nat.lt_of_lt_of_le Nat.one_lt_two hc))
    simp [Attachments.get?, boxed, lookup_cons, h0, h1]
  · rintro v w (rfl | rfl) (rfl | rfl) <;> decide
  · intro d hd f hf
    obtain rfl : d = [("x", .var ⟨"a", 0⟩)] := mem_singleton.1 hd
    obtain rfl : f = ("x", .var ⟨"a", 0⟩) := mem_singleton.1 hf
    exact .var (.inl rfl)
  · exact hpair (.inl rfl) (hbox (.inl rfl))
  · exact hpair (.inr rfl) (hbox (.inr rfl))
  · have hall : ∀ r ∈ tailedPair.layouts ++ untailedPair.layouts, r = ("Box", ["x"]) := by decide
    intro r hr r' hr' _ k
    rw [hall r hr, hall r' hr']

/-- On either side `a` becomes `T0`, in the tail too. The classes come in another order. -/
theorem unifyIn_comm_pairs : let r := unifyIn Class.ofPrimitive boxed tailedPair untailedPair
    let r' := unifyIn Class.ofPrimitive boxed untailedPair tailedPair
    (r.1.toOption.map Dict.keys = some ["a"] ∧ r.2.get 0 = [Class.num, Class.ord] ∧
      r'.2.get 0 = [Class.ord, Class.num]) ∧
    (∀ s, r.1 = .ok s ↔ r'.1 = .ok s) ∧ r.2.tails = r'.2.tails ∧
      ∀ k, k ∈ r.2.get 0 ↔ k ∈ r'.2.get 0 := by
  obtain ⟨hsame, htails, hclasses⟩ :=
    unifyIn_comm Class.ofPrimitive Either boxed tailedPair untailedPair balanced_pairs
  exact ⟨⟨by cbv, by cbv, by cbv⟩, hsame, htails, hclasses 0⟩

end ScriptTyping
