import ScriptTyping.Ty.Attachments
import ScriptTyping.Ty.Vars

/-!
# Substitutions

A substitution gives types for some variables. Applied to a type, it replaces each bound variable
and keeps every other as it is. The constructors and records on the way are built anew: they have
the classes that are attached to the old ones at that time, and no cell. A record keeps its tail;
what that means for other records is said in `Ty/Tail`. The empty substitution gives back the type
itself.

`Subst.compose a b` is the substitution that applies `b` and then `a`. What is bound may then stand
in several places. With cells it is one type there, whatever is attached to it later.
-/

namespace ScriptTyping

/-- Types for variables. -/
abbrev Subst := Dict Ty

namespace Ty

mutual

/-- Replace the bound variables of a type, and build its nodes anew. -/
def substitute (a : Attachments) (s : Subst) : Ty → Ty
  | missing => missing
  | var v => (Dict.get? s v.id).getD (var v)
  | con name args l => con name (substituteAll a s args) ⟨a.ofLabel l, none, l.tail⟩
  | record name fields l => record name (substituteFields a s fields) ⟨a.ofLabel l, none, l.tail⟩

/-- Replace the bound variables of some types. -/
def substituteAll (a : Attachments) (s : Subst) : List Ty → List Ty
  | [] => []
  | t :: ts => t.substitute a s :: substituteAll a s ts

/-- Replace the bound variables of some fields. -/
def substituteFields (a : Attachments) (s : Subst) : List (String × Ty) → List (String × Ty)
  | [] => []
  | (k, t) :: fs => (k, t.substitute a s) :: substituteFields a s fs

end

end Ty

namespace Subst

def apply (a : Attachments) (s : Subst) (t : Ty) : Ty := if s.isEmpty then t else t.substitute a s

/-- The substitution that applies `r` and then `s`. -/
def compose (a : Attachments) (s r : Subst) : Subst :=
  if s.isEmpty then r else Dict.insertAll s (Dict.mapValues (apply a s) r)

end Subst

namespace Attachments

/-- Compose `r`, which was found next, with `s`. If `keep` is set, what is bound has cells. -/
def extend (keep : Bool) (a : Attachments) (r s : Subst) : Subst × Attachments :=
  let new := a.adoptIf keep r
  new.2.adoptIf keep (Subst.compose new.2 new.1 s)

/-! ## What cells leave as it is -/

mutual

theorem vars_adopt (a : Attachments) : ∀ t : Ty, (a.adopt t).1.vars = t.vars
  | .missing => rfl
  | .var _ => rfl
  | .con _ args _ => by simp only [adopt, Ty.vars, varsAll_adoptAll a args]
  | .record _ fields _ => by simp only [adopt, Ty.vars, varsFields_adoptFields a fields]

theorem varsAll_adoptAll (a : Attachments) : ∀ ts : List Ty, Ty.varsAll (a.adoptAll ts).1 = Ty.varsAll ts
  | [] => rfl
  | t :: ts => by simp only [adoptAll, Ty.varsAll, vars_adopt a t, varsAll_adoptAll _ ts]

theorem varsFields_adoptFields (a : Attachments) :
    ∀ fs : List (String × Ty), Ty.varsFields (a.adoptFields fs).1 = Ty.varsFields fs
  | [] => rfl
  | (_, t) :: fs => by
    simp only [adoptFields, Ty.varsFields, vars_adopt a t, varsFields_adoptFields _ fs]

end

@[simp] theorem ids_adopt (a : Attachments) (t : Ty) : (a.adopt t).1.ids = t.ids := by
  rw [Ty.ids, vars_adopt, Ty.ids]

/-- Named types that got cells have the same names and variables in the same order. -/
theorem entries_adoptFields (a : Attachments) (fs : List (String × Ty)) :
    (a.adoptFields fs).1.map (fun f => (f.1, f.2.ids)) = fs.map fun f => (f.1, f.2.ids) := by
  induction fs generalizing a with
  | nil => rfl
  | cons f fs ih => simp only [adoptFields, List.map_cons, ih, ids_adopt]

theorem tails_adoptLabel (a : Attachments) (l : Label) : (a.adoptLabel l).2.tails = a.tails := by
  unfold adoptLabel
  split <;> rfl

mutual

theorem tails_adopt (a : Attachments) : ∀ t : Ty, (a.adopt t).2.tails = a.tails
  | .missing => rfl
  | .var _ => rfl
  | .con _ args l => (tails_adoptLabel _ l).trans (tails_adoptAll a args)
  | .record _ fields l => (tails_adoptLabel _ l).trans (tails_adoptFields a fields)

theorem tails_adoptAll (a : Attachments) : ∀ ts : List Ty, (a.adoptAll ts).2.tails = a.tails
  | [] => rfl
  | t :: ts => (tails_adoptAll _ ts).trans (tails_adopt a t)

theorem tails_adoptFields (a : Attachments) : ∀ fs : List (String × Ty), (a.adoptFields fs).2.tails = a.tails
  | [] => rfl
  | (_, t) :: fs => (tails_adoptFields _ fs).trans (tails_adopt a t)

end

@[simp] theorem adoptIf_false (a : Attachments) (fs : List (String × Ty)) :
    a.adoptIf false fs = (fs, a) := rfl

theorem tails_adoptIf (keep : Bool) (a : Attachments) (fs : List (String × Ty)) :
    (a.adoptIf keep fs).2.tails = a.tails := by
  cases keep
  · rfl
  · exact tails_adoptFields a fs

theorem tails_extend (keep : Bool) (a : Attachments) (r s : Subst) : (a.extend keep r s).2.tails = a.tails :=
  (tails_adoptIf ..).trans (tails_adoptIf ..)

@[simp] theorem extend_false (a : Attachments) (r s : Subst) :
    a.extend false r s = (Subst.compose a r s, a) := rfl

end Attachments

/-! ## What substitution does to variables -/

namespace Ty

theorem substituteAll_eq_map (a : Attachments) (s : Subst) (ts : List Ty) :
    substituteAll a s ts = ts.map (substitute a s) := by
  induction ts with
  | nil => rfl
  | cons t ts ih => simp [substituteAll, ih]

theorem substituteFields_eq_map (a : Attachments) (s : Subst) (fs : List (String × Ty)) :
    substituteFields a s fs = fs.map fun f => (f.1, f.2.substitute a s) := by
  induction fs with
  | nil => rfl
  | cons f fs ih => simp [substituteFields, ih]

/-- A variable of the new type was there and is unbound, or comes from what a variable that was
there is bound to. -/
theorem mem_ids_substitute {a : Attachments} {s : Subst} {t : Ty} {id : String} :
    id ∈ (t.substitute a s).ids ↔
      (Dict.get? s id = none ∧ id ∈ t.ids) ∨ ∃ v ∈ t.ids, ∃ u, Dict.get? s v = some u ∧ id ∈ u.ids := by
  induction t with
  | missing => simp [substitute]
  | var v =>
    simp only [substitute, ids_var, List.mem_singleton]
    cases h : Dict.get? s v.id with
    | none =>
      simp only [Option.getD_none, ids_var, List.mem_singleton]
      constructor
      · rintro rfl
        exact .inl ⟨h, rfl⟩
      · rintro (⟨_, rfl⟩ | ⟨w, rfl, u, hu, _⟩)
        · rfl
        · rw [h] at hu; cases hu
    | some u =>
      simp only [Option.getD_some]
      constructor
      · exact fun hu => .inr ⟨_, rfl, u, h, hu⟩
      · rintro (⟨hn, rfl⟩ | ⟨w, rfl, u', hu', hid⟩)
        · rw [h] at hn; cases hn
        · rw [h] at hu'; cases hu'; exact hid
  | con name args l ih =>
    simp only [substitute, substituteAll_eq_map, mem_ids_con, List.mem_map]
    constructor
    · rintro ⟨_, ⟨t, ht, rfl⟩, hid⟩
      rcases (ih t ht).1 hid with ⟨hn, h⟩ | ⟨v, hv, h⟩
      · exact .inl ⟨hn, t, ht, h⟩
      · exact .inr ⟨v, ⟨t, ht, hv⟩, h⟩
    · rintro (⟨hn, t, ht, h⟩ | ⟨v, ⟨t, ht, hv⟩, h⟩)
      · exact ⟨_, ⟨t, ht, rfl⟩, (ih t ht).2 (.inl ⟨hn, h⟩)⟩
      · exact ⟨_, ⟨t, ht, rfl⟩, (ih t ht).2 (.inr ⟨v, hv, h⟩)⟩
  | record name fields l ih =>
    simp only [substitute, substituteFields_eq_map, mem_ids_record, List.mem_map]
    constructor
    · rintro ⟨_, ⟨f, hf, rfl⟩, hid⟩
      rcases (ih f hf).1 hid with ⟨hn, h⟩ | ⟨v, hv, h⟩
      · exact .inl ⟨hn, f, hf, h⟩
      · exact .inr ⟨v, ⟨f, hf, hv⟩, h⟩
    · rintro (⟨hn, f, hf, h⟩ | ⟨v, ⟨f, hf, hv⟩, h⟩)
      · exact ⟨_, ⟨f, hf, rfl⟩, (ih f hf).2 (.inl ⟨hn, h⟩)⟩
      · exact ⟨_, ⟨f, hf, rfl⟩, (ih f hf).2 (.inr ⟨v, hv, h⟩)⟩

end Ty

namespace Subst

@[simp] theorem apply_nil (a : Attachments) (t : Ty) : apply a [] t = t := rfl

/-- A variable of a type to which a substitution was applied was there and is unbound, or comes
from what a variable that was there is bound to. -/
theorem mem_ids_apply {a : Attachments} {s : Subst} {t : Ty} {id : String} : id ∈ (apply a s t).ids ↔
      (Dict.get? s id = none ∧ id ∈ t.ids) ∨ ∃ v ∈ t.ids, ∃ u, Dict.get? s v = some u ∧ id ∈ u.ids := by
  cases s with
  | nil => simp
  | cons e s => exact Ty.mem_ids_substitute

end Subst

end ScriptTyping
