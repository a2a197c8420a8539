import ScriptTyping.Proofs.Sorted
import ScriptTyping.Ty.Equal
import ScriptTyping.Ty.Subst

/-!
# Instances of types

A valuation gives a type to every variable, and `Ty.inst` puts these types in place of the
variables. An instance shows only the structure of a type: its labels are dropped. `Ty.bare` is the
instance in which each variable stands for itself.

**Why valuations.** A substitution also copies the classes that are attached at that time, so two
applications that come to the same type need not give the same tree. On instances they do:

* `Ty.equal_iff`: two types are equal exactly if they have the same bare structure;
* `Subst.bare_apply`: to apply a substitution is to take the instance under its valuation;
* `Subst.val_compose`: the valuation of a composition is the composition of the valuations.

So whatever is said about types up to their structure can be said, and proved, with equations.

**Images.** `Ty.image` is an instance in which a record still shows which tail it has. What is common to
both is proved once, for `Ty.fill`.
-/

namespace ScriptTyping

open List Dict

variable {id : String} {t : Ty}

/-- A type for each variable. -/
abbrev Valuation := String → Ty

/-- A label that shows at most the tail. -/
def Label.trace (tails : Bool) (l : Label) : Label :=
  match tails with
  | true => ⟨[], Option.none, l.tail⟩
  | false => .none

namespace Ty

variable {l : Label} {name : String} {θ : Valuation}

/-- The variable of some name, without a place for classes of its own. -/
def free : Valuation := fun id => var ⟨id, 0⟩

mutual

/-- The structure of a type with a type for each variable, with or without the tails of records. -/
def fill (tails : Bool) (θ : Valuation) : Ty → Ty
  | missing => missing
  | var v => θ v.id
  | con name args l => con name (fillAll tails θ args) (l.trace tails)
  | record name fields l => record name (fillFields tails θ fields) (l.trace tails)

def fillAll (tails : Bool) (θ : Valuation) : List Ty → List Ty
  | [] => []
  | t :: ts => t.fill tails θ :: fillAll tails θ ts

def fillFields (tails : Bool) (θ : Valuation) : List (String × Ty) → List (String × Ty)
  | [] => []
  | (k, t) :: fs => (k, t.fill tails θ) :: fillFields tails θ fs

end

/-- The structure of a type with a type for each variable. -/
def inst (θ : Valuation) (t : Ty) : Ty := t.fill false θ

/-- The structure and the tails of a type with a type for each variable. -/
def image (θ : Valuation) (t : Ty) : Ty := t.fill true θ

/-- The structure of a type. -/
def bare (t : Ty) : Ty := t.inst free

/-! ## Laws -/

section

variable {tails : Bool} {θ θ' σ : Valuation}

theorem fillAll_eq_map (ts : List Ty) : fillAll tails θ ts = ts.map (fill tails θ) := by
  induction ts with
  | nil => rfl
  | cons t ts ih => simp [fillAll, ih]

theorem fillFields_eq_mapValues (fs : List (String × Ty)) :
    fillFields tails θ fs = mapValues (fill tails θ) fs := by
  induction fs with
  | nil => rfl
  | cons f fs ih => simp [fillFields, ih, mapValues]

theorem fill_con (name : String) (args : List Ty) (l : Label) :
    (con name args l).fill tails θ = con name (args.map (fill tails θ)) (l.trace tails) := by
  rw [fill, fillAll_eq_map]

theorem fill_record (name : String) (fields : List (String × Ty)) (l : Label) :
    (record name fields l).fill tails θ =
      record name (mapValues (fill tails θ) fields) (l.trace tails) := by
  rw [fill, fillFields_eq_mapValues]

/-- What stands in place of the variables depends on those that occur only. -/
theorem fill_congr (h : ∀ id ∈ t.ids, θ id = θ' id) : t.fill tails θ = t.fill tails θ' := by
  induction t with
  | missing => rfl
  | var v => exact h v.id (by simp)
  | con name args l ih =>
    rw [fill_con, fill_con]
    congr 1
    exact map_congr_left fun t ht =>
      ih t ht fun id hid => h id (mem_ids_con.2 ⟨t, ht, hid⟩)
  | record name fields l ih =>
    rw [fill_record, fill_record]
    congr 1
    refine map_congr_left fun f hf => ?_
    rw [ih f hf fun id hid => h id (mem_ids_record.2 ⟨f, hf, hid⟩)]

theorem trace_trace (l : Label) : (l.trace tails).trace tails = l.trace tails := by
  cases tails <;> rfl

/-- To fill twice is to fill once. -/
theorem fill_fill (t : Ty) : (t.fill tails σ).fill tails θ = t.fill tails fun id => (σ id).fill tails θ := by
  induction t with
  | missing => rfl
  | var v => rfl
  | con name args l ih =>
    simp only [fill_con, map_map, trace_trace]
    congr 1
    exact map_congr_left ih
  | record name fields l ih =>
    simp only [fill_record, mapValues, map_map, trace_trace]
    congr 1
    exact map_congr_left fun f hf => Prod.ext rfl (ih f hf)

/-- A variable that is there afterwards comes from what a variable stands for. -/
theorem mem_ids_fill : id ∈ (t.fill tails θ).ids ↔ ∃ v ∈ t.ids, id ∈ (θ v).ids := by
  induction t with
  | missing => simp [fill]
  | var v => simp [fill]
  | con name args l ih =>
    simp only [fill_con, mem_ids_con, mem_map]
    constructor
    · rintro ⟨_, ⟨t, ht, rfl⟩, hid⟩
      obtain ⟨v, hv, hid⟩ := (ih t ht).1 hid
      exact ⟨v, ⟨t, ht, hv⟩, hid⟩
    · rintro ⟨v, ⟨t, ht, hv⟩, hid⟩
      exact ⟨_, ⟨t, ht, rfl⟩, (ih t ht).2 ⟨v, hv, hid⟩⟩
  | record name fields l ih =>
    simp only [fill_record, mem_ids_record, mapValues, mem_map]
    constructor
    · rintro ⟨_, ⟨f, hf, rfl⟩, hid⟩
      obtain ⟨v, hv, hid⟩ := (ih f hf).1 hid
      exact ⟨v, ⟨f, hf, hv⟩, hid⟩
    · rintro ⟨v, ⟨f, hf, hv⟩, hid⟩
      exact ⟨_, ⟨f, hf, rfl⟩, (ih f hf).2 ⟨v, hv, hid⟩⟩

/-- A substitution fills as what it binds does. -/
theorem fill_substitute (a : Attachments) (s : Subst) (t : Ty) : (t.substitute a s).fill tails θ =
      t.fill tails fun id => ((get? s id).map (fill tails θ)).getD (θ id) := by
  induction t with
  | missing => rfl
  | var v =>
    simp only [substitute, fill]
    cases get? s v.id <;> rfl
  | con name args l ih =>
    simp only [substitute, fill_con, substituteAll_eq_map, map_map]
    congr 1
    exact map_congr_left ih
  | record name fields l ih =>
    simp only [substitute, fill_record, substituteFields_eq_map, mapValues, map_map]
    congr 1
    exact map_congr_left fun f hf => Prod.ext rfl (ih f hf)

end

/-! ## Instances -/

@[simp] theorem inst_missing (θ : Valuation) : missing.inst θ = missing := rfl

@[simp] theorem inst_var (θ : Valuation) (v : Var) : (var v).inst θ = θ v.id := rfl

theorem inst_con (θ : Valuation) (name : String) (args : List Ty) (l : Label) :
    (con name args l).inst θ = con name (args.map (inst θ)) .none :=
  fill_con name args l

theorem inst_record (θ : Valuation) (name : String) (fields : List (String × Ty)) (l : Label) :
    (record name fields l).inst θ = record name (mapValues (inst θ) fields) .none :=
  fill_record name fields l

theorem bare_con (name : String) (args : List Ty) (l : Label) :
    (con name args l).bare = con name (args.map bare) .none :=
  inst_con free name args l

theorem bare_record (name : String) (fields : List (String × Ty)) (l : Label) :
    (record name fields l).bare = record name (mapValues bare fields) .none :=
  inst_record free name fields l

@[simp] theorem inst_free (θ : Valuation) (id : String) : (free id).inst θ = θ id := rfl

@[simp] theorem ids_free (id : String) : (free id).ids = [id] := rfl

theorem free_injective {id' : String} (h : free id = free id') : id = id' :=
  congrArg Var.id (Ty.var.inj h)

/-- An instance depends on the variables that occur only. -/
theorem inst_congr {θ' : Valuation} (h : ∀ id ∈ t.ids, θ id = θ' id) : t.inst θ = t.inst θ' :=
  fill_congr h

/-- An instance of an instance is an instance. -/
theorem inst_inst (θ σ : Valuation) (t : Ty) : (t.inst σ).inst θ = t.inst fun id => (σ id).inst θ :=
  fill_fill t

@[simp] theorem inst_bare (θ : Valuation) (t : Ty) : t.bare.inst θ = t.inst θ := by
  rw [bare, inst_inst]
  rfl

@[simp] theorem bare_bare (t : Ty) : t.bare.bare = t.bare := inst_bare free t

/-- A variable of an instance comes from what a variable stands for. -/
theorem mem_ids_inst : id ∈ (t.inst θ).ids ↔ ∃ v ∈ t.ids, id ∈ (θ v).ids :=
  mem_ids_fill

@[simp] theorem mem_ids_bare : id ∈ t.bare.ids ↔ id ∈ t.ids := by
  rw [bare, mem_ids_inst]
  simp

/-! ## Types of a known structure -/

theorem bare_eq_var {v : Var} (h : t.bare = var v) : ∃ w, t = var w ∧ w.id = v.id := by
  cases t with
  | var w =>
    cases h
    exact ⟨w, rfl, rfl⟩
  | _ => cases h

theorem bare_eq_con {args : List Ty} (h : t.bare = con name args l) :
    ∃ xs k, t = con name xs k ∧ xs.map bare = args := by
  cases t with
  | con name' xs k =>
    rw [bare_con] at h
    cases h
    exact ⟨xs, k, rfl, rfl⟩
  | _ => cases h

theorem bare_eq_record {fields : List (String × Ty)} (h : t.bare = record name fields l) :
    ∃ fs k, t = record name fs k ∧ mapValues bare fs = fields := by
  cases t with
  | record name' fs k =>
    rw [bare_record] at h
    cases h
    exact ⟨fs, k, rfl, rfl⟩
  | _ => cases h

/-! ## Sizes -/

/-- What a variable stands for is not larger than an instance of a type that it occurs in. -/
theorem size_le_size_inst (h : id ∈ t.ids) : (θ id).size ≤ (t.inst θ).size := by
  induction t with
  | missing => simp at h
  | var v =>
    rw [ids_var, mem_singleton] at h
    exact h ▸ Nat.le_refl _
  | con name args l ih =>
    obtain ⟨t, ht, hid⟩ := mem_ids_con.1 h
    rw [inst_con]
    calc (θ id).size ≤ (t.inst θ).size := ih t ht hid
      _ ≤ sizeAll (args.map (inst θ)) := size_le_sizeAll (mem_map_of_mem ht)
      _ ≤ _ := Nat.le_succ _
  | record name fields l ih =>
    obtain ⟨f, hf, hid⟩ := mem_ids_record.1 h
    rw [inst_record]
    calc (θ id).size ≤ (f.2.inst θ).size := ih f hf hid
      _ ≤ sizeFields (mapValues (inst θ) fields) :=
        size_le_sizeFields (f := (f.1, f.2.inst θ)) (mem_map.2 ⟨f, hf, rfl⟩)
      _ ≤ _ := Nat.le_succ _

/-- No type stands for a variable that it properly contains. -/
theorem ne_inst_of_mem_ids (h : id ∈ t.ids) (hv : ∀ v, t ≠ var v) : θ id ≠ t.inst θ := by
  intro heq
  suffices (θ id).size < (t.inst θ).size by rw [heq] at this; omega
  cases t with
  | missing => simp at h
  | var v => exact absurd rfl (hv v)
  | con name args l =>
    obtain ⟨t, ht, hid⟩ := mem_ids_con.1 h
    rw [inst_con]
    exact Nat.lt_succ_of_le
      (Nat.le_trans (size_le_size_inst hid) (size_le_sizeAll (mem_map_of_mem ht)))
  | record name fields l =>
    obtain ⟨f, hf, hid⟩ := mem_ids_record.1 h
    rw [inst_record]
    exact Nat.lt_succ_of_le (Nat.le_trans (size_le_size_inst hid)
      (size_le_sizeFields (f := (f.1, f.2.inst θ)) (mem_map.2 ⟨f, hf, rfl⟩)))

/-! ## Equality -/

theorem equalAll_iff {ts : List Ty} (us : List Ty) (h : ∀ t ∈ ts, ∀ u, t.equal u = true ↔ t.bare = u.bare) :
    equalAll ts us = true ↔ ts.map bare = us.map bare := by
  induction ts generalizing us with
  | nil => cases us <;> simp [equalAll]
  | cons t ts ih =>
    cases us with
    | nil => simp [equalAll]
    | cons u us =>
      simp [equalAll, h t mem_cons_self u, ih us fun x hx => h x (mem_cons_of_mem _ hx)]

theorem equalFields_iff {fs : List (String × Ty)} (gs : List (String × Ty))
    (h : ∀ f ∈ fs, ∀ u, f.2.equal u = true ↔ f.2.bare = u.bare) :
    equalFields fs gs = true ↔ mapValues bare fs = mapValues bare gs := by
  induction fs generalizing gs with
  | nil => cases gs <;> simp [equalFields, mapValues]
  | cons f fs ih =>
    cases gs with
    | nil => simp [equalFields, mapValues]
    | cons g gs =>
      have ih' := ih gs fun x hx => h x (mem_cons_of_mem _ hx)
      simp only [mapValues] at ih'
      simp [equalFields, mapValues, h f mem_cons_self g.2, ih']

/-- Two types are equal exactly if they have the same structure. -/
theorem equal_iff {u : Ty} : t.equal u = true ↔ t.bare = u.bare := by
  induction t generalizing u with
  | missing => cases u <;> simp [equal, bare, inst, fill, free]
  | var v => cases u <;> simp [equal, bare, inst, fill, free]
  | con name args l ih =>
    cases u with
    | con name' args' l' =>
      have := equalAll_iff args' fun t ht u => ih t ht (u := u)
      simp [equal, this, bare_con]
    | _ => simp [equal, bare, inst, fill, free]
  | record name fields l ih =>
    cases u with
    | record name' fields' l' =>
      have := equalFields_iff fields' fun f hf u => ih f hf (u := u)
      simp [equal, this, bare_record]
    | _ => simp [equal, bare, inst, fill, free]

end Ty

/-! ## Substitutions as valuations -/

namespace Subst

open Ty

variable {a : Attachments} {r s : Subst}

/-- The structure that a substitution gives to each variable, with or without the tails of records. -/
def fills (tails : Bool) (s : Subst) : Valuation :=
  fun id => ((get? s id).map (fill tails free)).getD (free id)

/-- The type that a substitution gives to each variable. -/
def val (s : Subst) : Valuation := s.fills false

section

variable {tails : Bool} {s : Subst} {id : String} {t : Ty}

@[simp] theorem fills_nil : fills tails [] = free := rfl

theorem fills_of_get? (h : get? s id = some t) : fills tails s id = t.fill tails free := by
  simp [fills, h]

theorem fills_of_not_mem (h : id ∉ Dict.keys s) : fills tails s id = free id := by
  simp [fills, get?_eq_none_iff.2 h]

theorem fill_free_fills (s : Subst) (id : String) :
    (fills tails s id).fill tails free = fills tails s id := by
  unfold fills
  cases get? s id with
  | none => rfl
  | some t => exact fill_fill t

/-- To apply a substitution is to fill with what it gives. -/
theorem fill_free_apply (a : Attachments) (s : Subst) (t : Ty) :
    (apply a s t).fill tails free = t.fill tails (fills tails s) := by
  cases s with
  | nil => rfl
  | cons e s => exact fill_substitute a (e :: s) t

theorem get?_compose (hs : Dict.Sorted s) (hr : r.isEmpty = false) (id : String) :
    get? (compose a r s) id = ((get? s id).map (apply a r)).or (get? r id) := by
  rw [compose, hr, if_neg (by simp), get?_insertAll _ (hs.of_keys (keys_mapValues _ s)), get?_mapValues]

/-- What a composition gives. -/
theorem fills_compose (hs : Dict.Sorted s) (id : String) :
    fills tails (compose a r s) id = (fills tails s id).fill tails (fills tails r) := by
  cases r with
  | nil => exact (fill_free_fills s id).symm
  | cons e r =>
    rw [fills, get?_compose hs rfl]
    cases hget : get? s id with
    | none =>
      rw [fills_of_not_mem (get?_eq_none_iff.1 hget)]
      rfl
    | some t =>
      rw [fills_of_get? hget, fill_fill]
      exact fill_free_apply a (e :: r) t

end

@[simp] theorem val_nil : val [] = free := rfl

theorem val_of_get? (h : get? s id = some t) : val s id = t.bare :=
  fills_of_get? h

theorem val_of_not_mem (h : id ∉ Dict.keys s) : val s id = free id :=
  fills_of_not_mem h

theorem val_single (id : String) (t : Ty) (id' : String) :
    val [(id, t)] id' = if id = id' then t.bare else free id' := by
  simp only [val, fills, get?_cons]
  split <;> rfl

@[simp] theorem bare_val (s : Subst) (id : String) : (val s id).bare = val s id :=
  fill_free_fills s id

/-- To apply a substitution is to take the instance under its valuation. -/
theorem bare_apply (a : Attachments) (s : Subst) (t : Ty) : (apply a s t).bare = t.inst (val s) :=
  fill_free_apply a s t

theorem inst_apply (θ : Valuation) (a : Attachments) (s : Subst) (t : Ty) :
    (apply a s t).inst θ = t.inst fun id => (val s id).inst θ := by
  rw [← inst_bare, bare_apply, inst_inst]

theorem sorted_compose (hr : Dict.Sorted r) (hs : Dict.Sorted s) : Dict.Sorted (compose a r s) := by
  unfold compose
  split
  · exact hs
  · exact hr.insertAll _

end Subst

end ScriptTyping
