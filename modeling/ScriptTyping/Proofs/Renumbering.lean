import ScriptTyping.Checker
import ScriptTyping.Proofs.Running
import ScriptTyping.Proofs.VariableOrder

/-!
# Other numbers for variables, cells and tails

What a check finds depends on the numbers that the supply is at only in that its variables, cells and
tails have these numbers. A `Renumbering` gives other numbers to all three. Each operation on types
and attachments commutes with it: done with other numbers, it gives the same with other numbers. So
does each look-up in a scope, since a renumbering keeps different names apart.

`Attachments.Mirrors ρ a a'` says that `a'` is `a` under other numbers, as far as `a` goes: what comes
next in `a` has the number that comes next in `a'`, and what `a'` holds besides does not matter.

Main statements: `Attachments.Mirrors.apply` and `Supply.Mirrors.instantiate`.
-/

namespace ScriptTyping

open Ty List Dict Attachments Registry VarSet

/-! ## Numbers of generated variables -/

namespace Var

/-- The number that a name gives after its first letter. -/
def number? (id : String) : Option Nat :=
  match id.toList with
  | 'T' :: ds => decimalFrom? 0 ds
  | _ => none

@[simp] theorem number?_generatedId (n : Nat) : number? (generatedId n) = some n := by
  unfold number?
  rw [toList_generatedId]
  exact decimalFrom?_toDigits n

end Var

/-! ## Renumberings -/

/-- Other numbers for variables, cells and tails. -/
structure Renumbering where
  ids : Nat → Nat
  cells : Cell → Cell
  tails : Nat → Nat
  ids_injective : ∀ m n, ids m = ids n → m = n
  cells_injective : ∀ m n, cells m = cells n → m = n
  tails_injective : ∀ m n, tails m = tails n → m = n

namespace Renumbering

variable (ρ : Renumbering)

/-- The other name of a variable. One that was not generated keeps its name. -/
def id (name : String) : String :=
  match Var.number? name with
  | some n => if Var.generatedId n = name then Var.generatedId (ρ.ids n) else name
  | none => name

@[simp] theorem id_generatedId (n : Nat) : ρ.id (Var.generatedId n) = Var.generatedId (ρ.ids n) := by
  simp [id]

/-- A name was generated, or is kept. -/
theorem id_cases (name : String) :
    (∃ n, name = Var.generatedId n) ∨ (∀ n, name ≠ Var.generatedId n) ∧ ρ.id name = name := by
  by_cases h : ∃ n, name = Var.generatedId n
  · exact .inl h
  · refine .inr ⟨fun n hn => h ⟨n, hn⟩, ?_⟩
    unfold id
    split
    next n _ => exact if_neg fun hn => h ⟨n, hn.symm⟩
    next => rfl

theorem id_injective {m n : String} (h : ρ.id m = ρ.id n) : m = n := by
  rcases ρ.id_cases m with ⟨i, rfl⟩ | ⟨hm, hkm⟩ <;> rcases ρ.id_cases n with ⟨j, rfl⟩ | ⟨hn, hkn⟩
  · rw [id_generatedId, id_generatedId] at h
    rw [ρ.ids_injective i j (Var.generatedId_injective h)]
  · rw [id_generatedId, hkn] at h
    exact absurd h.symm (hn _)
  · rw [id_generatedId, hkm] at h
    exact absurd h (hm _)
  · rwa [hkm, hkn] at h

@[simp] theorem id_inj {m n : String} : ρ.id m = ρ.id n ↔ m = n :=
  ⟨ρ.id_injective, fun h => h ▸ rfl⟩

@[simp] theorem cells_inj {c d : Cell} : ρ.cells c = ρ.cells d ↔ c = d :=
  ⟨ρ.cells_injective c d, fun h => h ▸ rfl⟩

@[simp] theorem tails_inj {m n : Nat} : ρ.tails m = ρ.tails n ↔ m = n :=
  ⟨ρ.tails_injective m n, fun h => h ▸ rfl⟩

end Renumbering

/-! ## Types -/

variable {ρ : Renumbering}

/-- A variable under other numbers. -/
def Var.renumber (ρ : Renumbering) (v : Var) : Var := ⟨ρ.id v.id, ρ.cells v.cell⟩

def Label.renumber (ρ : Renumbering) (l : Label) : Label :=
  ⟨l.classes, l.cell.map ρ.cells, l.tail.map fun t => ⟨ρ.tails t.number, t.own⟩⟩

namespace Ty

mutual

/-- A type under other numbers. -/
def renumber (ρ : Renumbering) : Ty → Ty
  | missing => missing
  | var v => var (v.renumber ρ)
  | con name args l => con name (renumberAll ρ args) (l.renumber ρ)
  | record name fields l => record name (renumberFields ρ fields) (l.renumber ρ)

def renumberAll (ρ : Renumbering) : List Ty → List Ty
  | [] => []
  | t :: ts => t.renumber ρ :: renumberAll ρ ts

def renumberFields (ρ : Renumbering) : List (String × Ty) → List (String × Ty)
  | [] => []
  | (k, t) :: fs => (k, t.renumber ρ) :: renumberFields ρ fs

end

theorem renumberAll_eq_map (ts : List Ty) : renumberAll ρ ts = ts.map (renumber ρ) := by
  induction ts with
  | nil => rfl
  | cons t ts ih => simp [renumberAll, ih]

theorem renumberFields_eq_mapValues (fs : List (String × Ty)) :
    renumberFields ρ fs = mapValues (renumber ρ) fs := by
  induction fs with
  | nil => rfl
  | cons f fs ih => simp [renumberFields, ih, mapValues]

@[simp] theorem renumber_missing : missing.renumber ρ = missing := rfl

@[simp] theorem renumber_var (v : Var) : (var v).renumber ρ = var (v.renumber ρ) := rfl

@[simp] theorem renumber_con (name : String) (args : List Ty) (l : Label) :
    (con name args l).renumber ρ = con name (args.map (renumber ρ)) (l.renumber ρ) := by
  rw [renumber, renumberAll_eq_map]

@[simp] theorem renumber_record (name : String) (fields : List (String × Ty)) (l : Label) :
    (record name fields l).renumber ρ = record name (mapValues (renumber ρ) fields) (l.renumber ρ) := by
  rw [renumber, renumberFields_eq_mapValues]

@[simp] theorem renumber_app (name : String) (args : List Ty) :
    (app name args).renumber ρ = app name (args.map (renumber ρ)) := renumber_con ..

@[simp] theorem renumber_const (name : String) (classes : ClassSet) :
    (const name classes).renumber ρ = const name classes := renumber_con ..

@[simp] theorem renumber_primitive (name : String) : (primitive name).renumber ρ = primitive name :=
  renumber_const ..

@[simp] theorem renumber_mkRecord (name : String) (fields : List (String × Ty)) (classes : ClassSet) :
    (mkRecord name fields classes).renumber ρ =
      mkRecord name (mapValues (renumber ρ) fields) classes := renumber_record ..

@[simp] theorem isVar_renumber (t : Ty) : (t.renumber ρ).isVar = t.isVar := by
  cases t <;> simp [isVar]

theorem vars_renumber (t : Ty) : (t.renumber ρ).vars = t.vars.map (Var.renumber ρ) := by
  induction t with
  | missing => rfl
  | var v => rfl
  | con name args l ih =>
    rw [renumber_con, vars, vars, varsAll_eq_flatMap, varsAll_eq_flatMap, flatMap_map,
      map_flatMap]
    exact flatMap_congr ih
  | record name fields l ih =>
    rw [renumber_record, vars, vars, varsFields_eq_flatMap, varsFields_eq_flatMap, mapValues,
      flatMap_map, map_flatMap]
    exact flatMap_congr ih

theorem ids_renumber (t : Ty) : (t.renumber ρ).ids = t.ids.map ρ.id := by
  rw [ids, vars_renumber, ids, map_map, map_map]
  rfl

@[simp] theorem occurs_renumber (id : String) (t : Ty) : (t.renumber ρ).occurs (ρ.id id) = t.occurs id := by
  rw [Bool.eq_iff_iff, occurs_iff_mem_ids, occurs_iff_mem_ids, ids_renumber, mem_map]
  simp

end Ty

namespace Dict

variable {α β : Type}

theorem mapValues_insert (f : α → β) (d : Dict α) (key : String) (value : α) :
    mapValues f (insert d key value) = insert (mapValues f d) key (f value) := by
  induction d with
  | nil => rfl
  | cons e d ih =>
    rw [insert]
    show _ = insert ((e.1, f e.2) :: mapValues f d) key (f value)
    rw [insert]
    split
    · rfl
    · split
      · rfl
      · exact congrArg ((e.1, f e.2) :: ·) ih

theorem mapValues_insertAll (f : α → β) (d : Dict α) (entries : List (String × α)) :
    mapValues f (insertAll d entries) = insertAll (mapValues f d) (mapValues f entries) := by
  induction entries generalizing d with
  | nil => rfl
  | cons e entries ih =>
    show mapValues f (insertAll (insert d e.1 e.2) entries) = _
    rw [ih, mapValues_insert]
    rfl

theorem mapValues_ofList (f : α → β) (entries : List (String × α)) :
    mapValues f (ofList entries) = ofList (mapValues f entries) := mapValues_insertAll f [] entries

/-- Two changes after each other are two others after each other, if they are so for each value. -/
theorem mapValues_comm {γ δ : Type} {f : α → β} {g : β → δ} {f' : α → γ} {g' : γ → δ} {d : Dict α}
    (h : ∀ e ∈ d, g (f e.2) = g' (f' e.2)) : mapValues g (mapValues f d) = mapValues g' (mapValues f' d) := by
  simp only [mapValues, map_map]
  exact map_congr_left fun e he => congrArg (Prod.mk e.1) (h e he)

theorem isEmpty_insert (d : Dict α) (key : String) (value : α) : (insert d key value).isEmpty = false := by
  cases d with
  | nil => rfl
  | cons e d =>
    rw [insert]
    split
    · rfl
    · split <;> rfl

end Dict

/-! ## Attachments -/

theorem Ty.ownFields_renumber (f : Ty → Ty) (fields : List (String × Ty)) (l : Label) :
    ownFields (mapValues f fields) (l.renumber ρ) = mapValues f (ownFields fields l) := by
  unfold ownFields Label.renumber
  cases l.tail with
  | none => rfl
  | some t => simp [mapValues]

theorem Attachments.cell?_renumber (t : Ty) : cell? (t.renumber ρ) = (cell? t).map ρ.cells := by
  cases t <;> simp [cell?, Label.renumber, Var.renumber]

/-- The second attachments are the first under other numbers, as far as the first go. -/
structure Attachments.Mirrors (ρ : Renumbering) (a a' : Attachments) : Prop where
  next : ∀ i, ρ.cells (a.next + i) = a'.next + i
  get? : ∀ c, a'.get? (ρ.cells c) = a.get? c
  length : ∀ i, ρ.tails (a.tails.length + i) = a'.tails.length + i
  tails : ∀ n, a'.tails[ρ.tails n]? = (a.tails[n]?).map (mapValues (renumber ρ))

namespace Attachments.Mirrors

variable {a a' : Attachments}

theorem get (h : a.Mirrors ρ a') (c : Cell) : a'.get (ρ.cells c) = a.get c := by
  rw [Attachments.get, h.get?, Attachments.get]

theorem ofLabel (h : a.Mirrors ρ a') (l : Label) : a'.ofLabel (l.renumber ρ) = a.ofLabel l := by
  unfold Attachments.ofLabel Label.renumber
  cases l.cell with
  | none => rfl
  | some c => simp [h.get?]

theorem classes (h : a.Mirrors ρ a') (t : Ty) : a'.classes (t.renumber ρ) = a.classes t := by
  cases t with
  | missing => rfl
  | var v => exact h.get v.cell
  | con name args l =>
    rw [renumber_con]
    exact h.ofLabel l
  | record name fields l =>
    rw [renumber_record]
    exact h.ofLabel l

theorem set (h : a.Mirrors ρ a') (c : Cell) (cs : ClassSet) :
    (a.set c cs).Mirrors ρ (a'.set (ρ.cells c) cs) := by
  refine ⟨h.next, fun d => ?_, h.length, h.tails⟩
  simp only [get?_set, ρ.cells_inj, h.get?]

theorem setClasses (h : a.Mirrors ρ a') (t : Ty) (cs : ClassSet) :
    (a.setClasses t cs).Mirrors ρ (a'.setClasses (t.renumber ρ) cs) := by
  unfold Attachments.setClasses
  rw [cell?_renumber]
  cases cell? t with
  | none => exact h
  | some c => exact h.set c cs

theorem attach (h : a.Mirrors ρ a') (t : Ty) (c : String) :
    (a.attach t c).Mirrors ρ (a'.attach (t.renumber ρ) c) := by
  unfold Attachments.attach
  rw [h.classes]
  exact h.setClasses t _

/-- A new cell has the number that is next on both sides. -/
theorem fresh (h : a.Mirrors ρ a') : a'.fresh.1 = ρ.cells a.fresh.1 ∧ a.fresh.2.Mirrors ρ a'.fresh.2 := by
  refine ⟨(h.next 0).symm, fun i => ?_, h.get?, h.length, h.tails⟩
  show ρ.cells (a.next + 1 + i) = a'.next + 1 + i
  rw [Nat.add_assoc, h.next, Nat.add_assoc]

/-- A record is made of the same fields, and its tail, if it has one, comes last on both sides. -/
theorem newRecord (h : a.Mirrors ρ a') (name : String) (entries : List (String × Ty)) (cs : ClassSet) :
    (a'.newRecord name (mapValues (renumber ρ) entries) cs).1 =
        (a.newRecord name entries cs).1.renumber ρ ∧
      (a.newRecord name entries cs).2.Mirrors ρ
        (a'.newRecord name (mapValues (renumber ρ) entries) cs).2 := by
  have hkeys : (mapValues (renumber ρ) entries).map Prod.fst = entries.map Prod.fst :=
    keys_mapValues (renumber ρ) entries
  have hlength (d : Dict Ty) : (mapValues (renumber ρ) d).length = d.length := length_map _
  unfold Attachments.newRecord
  dsimp only
  rw [← mapValues_ofList, hlength, hkeys]
  split
  · exact ⟨(renumber_mkRecord ..).symm, h⟩
  · refine ⟨?_, h.next, h.get?, fun i => ?_, fun n => ?_⟩
    · have hlast : a'.tails.length = ρ.tails a.tails.length := (h.length 0).symm
      simp [Label.renumber, Label.fixed, hlast]
    · simp only [length_append, length_singleton, Nat.add_assoc]
      exact h.length (1 + i)
    · -- The number of a tail is one from before, or the next, or one behind that.
      rcases Nat.lt_trichotomy n a.tails.length with hn | rfl | hn
      · obtain ⟨d, hd⟩ : ∃ d, a.tails[n]? = some d := ⟨_, getElem?_eq_getElem hn⟩
        have hd' := h.tails n
        rw [hd, Option.map_some] at hd'
        have hn' := (List.getElem?_eq_some_iff.1 hd').1
        rw [getElem?_append_left hn', getElem?_append_left hn, hd, hd', Option.map_some]
      · have hlast : ρ.tails a.tails.length = a'.tails.length := h.length 0
        rw [hlast, getElem?_concat_length, getElem?_concat_length, Option.map_some]
        simp [mapValues]
      · obtain ⟨i, rfl⟩ := Nat.exists_eq_add_of_lt hn
        rw [Nat.add_assoc, h.length, getElem?_eq_none (by simp), getElem?_eq_none (by simp)]
        rfl

/-! ### Membership in classes -/

variable (reg : Registry)

theorem holds (h : a.Mirrors ρ a') (t : Ty) (c : String) :
    reg.holds a' (t.renumber ρ) c = reg.holds a t c := by
  unfold Registry.holds
  rw [h.classes]
  cases t <;> simp [registers]

theorem admits (h : a.Mirrors ρ a') (t : Ty) (c : String) :
    reg.admits a' (t.renumber ρ) c = reg.admits a t c := by
  rw [Registry.admits, isVar_renumber, h.holds, Registry.admits]

/-- A type is put into a class on both sides, or on neither. -/
theorem require? (h : a.Mirrors ρ a') (t : Ty) (c : String) :
    Option.Rel (Mirrors ρ) (reg.require? a t c) (reg.require? a' (t.renumber ρ) c) := by
  unfold Registry.require?
  rw [h.classes, h.admits]
  split
  · exact .some h
  · split
    · exact .some (h.attach t c)
    · exact .none

theorem addition (h : a.Mirrors ρ a') (t u : Ty) :
    reg.addition a' (t.renumber ρ) (u.renumber ρ) = reg.addition a t u := by
  have hin (c : String) : reg.addsIn a' (t.renumber ρ) (u.renumber ρ) c = reg.addsIn a t u c := by
    rw [addsIn, h.admits, h.admits, h.holds, h.holds, addsIn]
  unfold Registry.addition
  rw [hin, hin, isVar_renumber, isVar_renumber]

theorem registryClasses (h : a.Mirrors ρ a') (t : Ty) : reg.classes a' (t.renumber ρ) = reg.classes a t := by
  have hclasses := h.classes t
  cases t with
  | missing => rfl
  | var v => exact hclasses
  | con name args l =>
    simp only [renumber_con] at hclasses ⊢
    simp only [Registry.classes, hclasses]
  | record name fields l =>
    simp only [renumber_record] at hclasses ⊢
    exact hclasses

end Attachments.Mirrors

/-! ## Substitutions -/

/-- The second substitution binds the same variables under other numbers to the same types under other
numbers. -/
structure Subst.Mirrors (ρ : Renumbering) (s s' : Subst) : Prop where
  get? : ∀ id, Dict.get? s' (ρ.id id) = (Dict.get? s id).map (renumber ρ)
  isEmpty : s'.isEmpty = s.isEmpty

section

variable {a a' : Attachments} {s s' : Subst}

theorem Subst.mirrors_nil : Subst.Mirrors ρ [] [] := ⟨fun _ => rfl, rfl⟩

theorem Subst.Mirrors.insert (h : s.Mirrors ρ s') (id : String) (t : Ty) :
    Subst.Mirrors ρ (Dict.insert s id t) (Dict.insert s' (ρ.id id) (t.renumber ρ)) := by
  refine ⟨fun id' => ?_, by rw [isEmpty_insert, isEmpty_insert]⟩
  rw [get?_insert, get?_insert, h.get?]
  simp only [ρ.id_inj]
  split <;> rfl

/-- What is bound is changed in the same way on both sides. -/
theorem Subst.Mirrors.mapValues (h : s.Mirrors ρ s') {f f' : Ty → Ty}
    (hf : ∀ t, f' (t.renumber ρ) = (f t).renumber ρ) :
    Subst.Mirrors ρ (mapValues f s) (mapValues f' s') := by
  refine ⟨fun id => ?_, ?_⟩
  · rw [get?_mapValues, get?_mapValues, h.get?, Option.map_map, Option.map_map]
    exact congrArg (fun g => (Dict.get? s id).map g) (funext hf)
  · have hempty := h.isEmpty
    simpa [Dict.mapValues] using hempty

theorem Ty.substitute_renumber (h : a.Mirrors ρ a') (hs : s.Mirrors ρ s') (t : Ty) :
    (t.renumber ρ).substitute a' s' = (t.substitute a s).renumber ρ := by
  induction t with
  | missing => rfl
  | var v =>
    show (Dict.get? s' (ρ.id v.id)).getD _ = _
    rw [hs.get?, substitute]
    cases Dict.get? s v.id <;> rfl
  | con name args l ih =>
    rw [renumber_con, substitute, substitute, renumber_con, substituteAll_eq_map, substituteAll_eq_map,
      map_map, map_map, h.ofLabel]
    exact congrArg₂ (con name) (map_congr_left ih) rfl
  | record name fields l ih =>
    rw [renumber_record, substitute, substitute, renumber_record, substituteFields_eq_map,
      substituteFields_eq_map, h.ofLabel]
    exact congrArg₂ (record name) (mapValues_comm ih) rfl

theorem Subst.apply_renumber (h : a.Mirrors ρ a') (hs : s.Mirrors ρ s') (t : Ty) :
    Subst.apply a' s' (t.renumber ρ) = (Subst.apply a s t).renumber ρ := by
  unfold Subst.apply
  rw [hs.isEmpty]
  split
  · rfl
  · exact substitute_renumber h hs t

end

/-! ## Tails -/

namespace Attachments

variable {a a' : Attachments} {s s' : Subst}

theorem renewWith_renumber {tail? tail?' : Nat → Option (Dict Ty)}
    (h : ∀ n, tail?' (ρ.tails n) = (tail? n).map (mapValues (renumber ρ))) (t : Ty) :
    renewWith tail?' (t.renumber ρ) = (renewWith tail? t).renumber ρ := by
  induction t with
  | missing => rfl
  | var v => rfl
  | con name args l ih =>
    rw [renumber_con, renewWith_con, renewWith_con, renumber_con, map_map, map_map]
    exact congrArg (con name · _) (map_congr_left ih)
  | record name fields l ih =>
    have hfields (fs : List (String × Ty)) (hfs : ∀ f ∈ fs, f ∈ fields) :
        mapValues (renewWith tail?') (mapValues (renumber ρ) fs) =
          mapValues (renumber ρ) (mapValues (renewWith tail?) fs) :=
      mapValues_comm fun f hf => ih f (hfs f hf)
    rw [renumber_record]
    cases hl : l.tail with
    | none =>
      have hl' : (l.renumber ρ).tail = none := by simp [Label.renumber, hl]
      rw [renewWith_record _ _ hl, renewWith_record _ _ hl', renumber_record, hfields _ fun _ hf => hf]
    | some u =>
      have hl' : (l.renumber ρ).tail = some ⟨ρ.tails u.number, u.own⟩ := by simp [Label.renumber, hl]
      have hu := h u.number
      cases hrest : tail? u.number with
      | none =>
        rw [hrest] at hu
        simp only [renewWith, hl, hl', hrest, hu, Option.map_none, Option.bind_some, renumber_record,
          renewFields_eq_mapValues, take_length]
        rw [hfields _ fun _ hf => hf]
      | some rest =>
        rw [hrest] at hu
        rw [renewWith_record_of_tail _ _ hl hrest, renewWith_record_of_tail _ _ hl' hu, renumber_record]
        have htake := hfields (fields.take u.own) fun _ hf => mem_of_mem_take hf
        simp only [mapValues, map_append, map_take] at htake ⊢
        rw [htake]

theorem Mirrors.tailAt? (h : a.Mirrors ρ a') (depth n : Nat) :
    a'.tailAt? depth (ρ.tails n) = (a.tailAt? depth n).map (mapValues (renumber ρ)) := by
  induction depth generalizing n with
  | zero => exact h.tails n
  | succ depth ih =>
    rw [Attachments.tailAt?, Attachments.tailAt?, h.tails, Option.map_map, Option.map_map]
    exact Option.map_congr fun d _ => mapValues_comm fun f _ => renewWith_renumber ih f.2

/-- As many tails on both sides, so that they are nested equally deep. -/
structure Mirrors.Level (ρ : Renumbering) (a a' : Attachments) : Prop extends Mirrors ρ a a' where
  level : a'.tails.length = a.tails.length

namespace Mirrors.Level

theorem isEmpty (h : Level ρ a a') : a'.tails.isEmpty = a.tails.isEmpty := isEmpty_of_length h.level

theorem current (h : Level ρ a a') (t : Ty) : a'.current (t.renumber ρ) = (a.current t).renumber ρ := by
  unfold Attachments.current
  rw [h.isEmpty, h.level]
  split
  · rfl
  · exact renewWith_renumber (h.tailAt? _) t

theorem currentAll (h : Level ρ a a') (hs : s.Mirrors ρ s') :
    (a.currentAll s).Mirrors ρ (a'.currentAll s') := by
  unfold Attachments.currentAll
  rw [h.isEmpty]
  split
  · exact hs
  · exact hs.mapValues h.current

theorem rewriteTail (h : Level ρ a a') (hs : s.Mirrors ρ s') (n : Nat) :
    Level ρ (a.rewriteTail s n) (a'.rewriteTail s' (ρ.tails n)) := by
  refine ⟨⟨h.next, h.get?, fun i => ?_, fun m => ?_⟩, ?_⟩
  · simpa [Attachments.rewriteTail] using h.length i
  · rw [getElem?_rewriteTail, getElem?_rewriteTail, h.tails, Option.map_map, Option.map_map]
    refine Option.map_congr fun d _ => ?_
    simp only [Function.comp, ρ.tails_inj]
    split
    · exact mapValues_comm fun f _ => substitute_renumber h.toMirrors hs f.2
    · rfl
  · simpa [Attachments.rewriteTail] using h.level

theorem foldl {α β : Type} {g : Attachments → α → Attachments} {g' : Attachments → β → Attachments}
    {f : α → β} {l : List α} (h : Level ρ a a')
    (hg : ∀ x ∈ l, ∀ b b', Level ρ b b' → Level ρ (g b x) (g' b' (f x))) :
    Level ρ (l.foldl g a) ((l.map f).foldl g' a') := by
  induction l generalizing a a' with
  | nil => exact h
  | cons x l ih =>
    exact ih (hg x mem_cons_self a a' h) fun y hy => hg y (mem_cons_of_mem _ hy)

theorem reviseWith {inside inside' : Attachments → Ty → Attachments}
    (hin : ∀ t b b', Level ρ b b' → Level ρ (inside b t) (inside' b' (t.renumber ρ)))
    (hs : s.Mirrors ρ s') (t : Ty) (h : Level ρ a a') :
    Level ρ (reviseWith inside s a t) (reviseWith inside' s' a' (t.renumber ρ)) := by
  induction t generalizing a a' with
  | missing => exact h
  | var v => exact h
  | con name args l ih =>
    rw [renumber_con, reviseWith, reviseWith, reviseAll_eq_foldl,
      reviseAll_eq_foldl]
    exact h.foldl fun t ht b b' hb => ih t ht hb
  | record name fields l ih =>
    have hown : Level ρ ((ownFields fields l).foldl (fun a f => reviseWith inside s a f.2) a)
        ((mapValues (renumber ρ) (ownFields fields l)).foldl
          (fun a f => reviseWith inside' s' a f.2) a') :=
      h.foldl fun f hf b b' hb => ih f (mem_of_mem_ownFields hf) hb
    rw [renumber_record, reviseWith_record, reviseWith_record, ownFields_renumber]
    generalize (ownFields fields l).foldl (fun a f => reviseWith inside s a f.2) a = b at hown ⊢
    generalize (mapValues (renumber ρ) (ownFields fields l)).foldl
      (fun a f => reviseWith inside' s' a f.2) a' = b' at hown ⊢
    cases hl : l.tail with
    | none =>
      have hl' : (l.renumber ρ).tail = none := by simp [Label.renumber, hl]
      simp only [hl']
      exact hown
    | some u =>
      have hl' : (l.renumber ρ).tail = some ⟨ρ.tails u.number, u.own⟩ := by simp [Label.renumber, hl]
      simp only [hl', hown.tails]
      refine Level.rewriteTail ?_ hs u.number
      cases b.tails[u.number]? with
      | none => exact hown
      | some d => exact hown.foldl fun f _ c c' hc => hin f.2 c c' hc

theorem reviseDepth (hs : s.Mirrors ρ s') (depth : Nat) (t : Ty) (h : Level ρ a a') :
    Level ρ (reviseDepth s depth a t) (reviseDepth s' depth a' (t.renumber ρ)) := by
  induction depth generalizing a a' t with
  | zero => exact h
  | succ depth ih => exact reviseWith (fun t b b' hb => ih t hb) hs t h

theorem revise (h : Level ρ a a') (hs : s.Mirrors ρ s') (t : Ty) :
    Level ρ (a.revise s t) (a'.revise s' (t.renumber ρ)) := by
  unfold Attachments.revise
  rw [hs.isEmpty, h.isEmpty, h.level]
  split
  · exact h
  · exact reviseDepth hs _ t h

/-- A substitution is applied on both sides in the same way. -/
theorem apply (h : Level ρ a a') (hs : s.Mirrors ρ s') (t : Ty) :
    (a'.apply s' (t.renumber ρ)).1 = (a.apply s t).1.renumber ρ ∧
      Level ρ (a.apply s t).2 (a'.apply s' (t.renumber ρ)).2 := by
  have hrevised := h.revise hs t
  refine ⟨?_, hrevised⟩
  simp only [Attachments.apply]
  rw [h.current, Subst.apply_renumber h.toMirrors (h.currentAll hs), hrevised.current]

end Mirrors.Level

end Attachments

/-! ## Supplies -/

/-- The same number of tails on both sides, since each has its own number. -/
def Renumbering.KeepsTails (ρ : Renumbering) : Prop := ∀ n, ρ.tails n = n

theorem Attachments.Mirrors.toLevel {a a' : Attachments} (h : a.Mirrors ρ a') (hρ : ρ.KeepsTails) :
    Mirrors.Level ρ a a' :=
  ⟨h, ((h.length 0).symm.trans (hρ _)).trans rfl⟩

/-- The second supply is the first under other numbers, as far as the first goes. -/
structure Supply.Mirrors (ρ : Renumbering) (s s' : Supply) : Prop where
  count : ∀ i, ρ.ids (s.count + i) = s'.count + i
  attachments : s.attachments.Mirrors ρ s'.attachments

namespace Supply.Mirrors

variable {s s' : Supply}

/-- A new variable has the numbers that are next on both sides. -/
theorem freshVar (h : s.Mirrors ρ s') :
    s'.freshVar.1 = s.freshVar.1.renumber ρ ∧ s.freshVar.2.Mirrors ρ s'.freshVar.2 := by
  obtain ⟨hcell, hnext⟩ := h.attachments.fresh
  have hid : Var.generatedId s'.count = ρ.id (Var.generatedId s.count) := by
    rw [ρ.id_generatedId]
    exact congrArg Var.generatedId (h.count 0).symm
  refine ⟨congrArg₂ Var.mk hid hcell, fun i => ?_, hnext⟩
  show ρ.ids (s.count + 1 + i) = s'.count + 1 + i
  rw [Nat.add_assoc, h.count, Nat.add_assoc]

theorem fresh (h : s.Mirrors ρ s') : s'.fresh.1 = s.fresh.1.renumber ρ ∧ s.fresh.2.Mirrors ρ s'.fresh.2 :=
  ⟨congrArg Ty.var h.freshVar.1, h.freshVar.2⟩

theorem freshLike (h : s.Mirrors ρ s') (v : Var) :
    (s'.freshLike (v.renumber ρ)).1 = (s.freshLike v).1.renumber ρ ∧
      (s.freshLike v).2.Mirrors ρ (s'.freshLike (v.renumber ρ)).2 := by
  obtain ⟨hvar, hnext⟩ := h.freshVar
  refine ⟨hvar, hnext.count, ?_⟩
  show Attachments.Mirrors ρ (s.freshVar.2.attachments.set s.freshVar.1.cell _)
    (s'.freshVar.2.attachments.set s'.freshVar.1.cell (s'.attachments.get (ρ.cells v.cell)))
  rw [h.attachments.get, hvar]
  exact hnext.attachments.set _ _

theorem renewal (h : s.Mirrors ρ s') (vs : List Var) {r r' : Subst} (hr : r.Mirrors ρ r') :
    (Scheme.renewal s vs r).1.Mirrors ρ (Scheme.renewal s' (vs.map (Var.renumber ρ)) r').1 ∧
      (Scheme.renewal s vs r).2.Mirrors ρ (Scheme.renewal s' (vs.map (Var.renumber ρ)) r').2 := by
  induction vs generalizing s s' r r' with
  | nil => exact ⟨hr, h⟩
  | cons v vs ih =>
    obtain ⟨hvar, hnext⟩ := h.freshLike v
    have hr' := hr.insert v.id (.var (s.freshLike v).1)
    rw [renumber_var, ← hvar] at hr'
    exact ih hnext hr'

end Supply.Mirrors

/-! ## Schemes and scopes -/

def Scheme.renumber (ρ : Renumbering) (s : Scheme) : Scheme :=
  ⟨s.vars.map (Var.renumber ρ), s.type.renumber ρ⟩

@[simp] theorem Scheme.renumber_mono (t : Ty) : (Scheme.mono t).renumber ρ = .mono (t.renumber ρ) := rfl

/-- One use of a scheme under other numbers is one use of it, under other numbers. -/
theorem Supply.Mirrors.instantiate {u u' : Supply} (h : u.Mirrors ρ u') (hρ : ρ.KeepsTails) (s : Scheme) :
    ((s.renumber ρ).instantiate u').1 = (s.instantiate u).1.renumber ρ ∧
      (s.instantiate u).2.Mirrors ρ ((s.renumber ρ).instantiate u').2 := by
  obtain ⟨hsubst, hsupply⟩ := h.renewal s.vars Subst.mirrors_nil
  obtain ⟨htype, hattachments⟩ := (hsupply.attachments.toLevel hρ).apply hsubst s.type
  exact ⟨htype, hsupply.count, hattachments.toMirrors⟩

def Frame.renumber (ρ : Renumbering) (f : Frame) : Frame :=
  { f with
    types := mapValues (Scheme.renumber ρ) f.types
    tparams := mapValues (Ty.renumber ρ) f.tparams
    returns := f.returns.map (Ty.renumber ρ) }

namespace Frame

@[simp] theorem renumber_empty : Frame.empty.renumber ρ = .empty := rfl

@[simp] theorem renumber_function : Frame.function.renumber ρ = .function := rfl

@[simp] theorem renumber_global : Frame.global.renumber ρ = .global := rfl

theorem renumber_declare (f : Frame) (name : String) (s : Scheme) :
    (f.declare name s).renumber ρ = (f.renumber ρ).declare name (s.renumber ρ) := by
  simp [declare, renumber, mapValues_insert]

theorem renumber_declareTypeParam (f : Frame) (name : String) (t : Ty) :
    (f.declareTypeParam name t).renumber ρ = (f.renumber ρ).declareTypeParam name (t.renumber ρ) := by
  simp [declareTypeParam, renumber, mapValues_insert]

theorem renumber_declareDecl (f : Frame) (name : String) (decl : Node) :
    (f.declareDecl name decl).renumber ρ = (f.renumber ρ).declareDecl name decl := by
  have hdecls : (f.renumber ρ).decls = f.decls := rfl
  unfold declareDecl
  rw [hdecls]
  split <;> rfl

end Frame

def Scope.renumber (ρ : Renumbering) (sc : Scope) : Scope := sc.map (Frame.renumber ρ)

namespace Scope

variable (sc : Scope)

/-- What is looked up in each frame is looked up in the scope. -/
theorem findSome?_renumber {α β : Type} {look : Frame → Option α} {look' : Frame → Option β} {g : α → β}
    (h : ∀ f, look' (f.renumber ρ) = (look f).map g) :
    (sc.renumber ρ).findSome? look' = (sc.findSome? look).map g := by
  rw [Scope.renumber, findSome?_map, map_findSome?]
  exact congrArg (sc.findSome? ·) (funext h)

theorem lookup?_renumber (name : String) :
    (sc.renumber ρ).lookup? name = (sc.lookup? name).map (Scheme.renumber ρ) :=
  findSome?_renumber sc fun f => get?_mapValues _ f.types name

theorem lookupLocal?_renumber (name : String) :
    (sc.renumber ρ).lookupLocal? name = (sc.lookupLocal? name).map (Scheme.renumber ρ) := by
  cases sc with
  | nil => rfl
  | cons f sc => exact get?_mapValues _ f.types name

theorem tparam?_renumber (name : String) :
    (sc.renumber ρ).tparam? name = (sc.tparam? name).map (Ty.renumber ρ) :=
  findSome?_renumber sc fun f => get?_mapValues _ f.tparams name

@[simp] theorem decl?_renumber (name : String) : (sc.renumber ρ).decl? name = sc.decl? name := by
  rw [decl?, Scope.renumber, findSome?_map]
  rfl

@[simp] theorem declaresClass_renumber (name : String) :
    (sc.renumber ρ).declaresClass name = sc.declaresClass name := by
  rw [declaresClass, Scope.renumber, any_map]
  rfl

@[simp] theorem instances_renumber : (sc.renumber ρ).instances = sc.instances := by
  funext name
  rw [instances, Scope.renumber, findSome?_map]
  rfl

@[simp] theorem structDepth_renumber : (sc.renumber ρ).structDepth = sc.structDepth := by
  have hweight : (sc.renumber ρ).structWeight = sc.structWeight := by
    rw [structWeight, Scope.renumber, foldl_map]
    rfl
  rw [structDepth, hweight, structDepth]

theorem renumber_modifyHead {change change' : Frame → Frame}
    (h : ∀ f, (change f).renumber ρ = change' (f.renumber ρ)) :
    Scope.renumber ρ (sc.modifyHead change) = (sc.renumber ρ).modifyHead change' := by
  cases sc with
  | nil => rfl
  | cons f sc => exact congrArg (· :: sc.map (Frame.renumber ρ)) (h f)

theorem renumber_addReturn (t : Ty) :
    Scope.renumber ρ (sc.addReturn t) = (sc.renumber ρ).addReturn (t.renumber ρ) := by
  induction sc with
  | nil => rfl
  | cons f sc ih =>
    have hcons : Scope.renumber ρ (f :: sc) = f.renumber ρ :: Scope.renumber ρ sc := rfl
    have hfunction : (f.renumber ρ).isFunction = f.isFunction := rfl
    rw [hcons, addReturn, addReturn, hfunction]
    split
    · simp [Scope.renumber, Frame.renumber]
    · exact congrArg (f.renumber ρ :: ·) ih

theorem mentions_renumber (id : String) : (sc.renumber ρ).mentions (ρ.id id) = sc.mentions id := by
  rw [mentions, Scope.renumber, any_map, mentions]
  refine congrArg (sc.any ·) (funext fun f => ?_)
  show (mapValues (Scheme.renumber ρ) f.types).any _ = _
  rw [mapValues, any_map]
  exact congrArg (f.types.any ·) (funext fun e => occurs_renumber id e.2.type)

end Scope

/-! ## Generalisation -/

theorem VarSet.push_renumber (vs : VarSet) (v : Var) :
    push (vs.map (Var.renumber ρ)) (v.renumber ρ) = (vs.push v).map (Var.renumber ρ) := by
  have hhas : has (vs.map (Var.renumber ρ)) (ρ.id v.id) = vs.has v.id := by
    rw [has, any_map, has]
    refine congrArg (vs.any ·) (funext fun w => ?_)
    rw [Bool.eq_iff_iff, beq_iff_eq]
    simp [Var.renumber]
  unfold push
  show (if has (vs.map (Var.renumber ρ)) (ρ.id v.id) then _ else _) = _
  rw [hhas]
  split
  · rfl
  · simp

theorem Ty.freeVars_renumber (t : Ty) : (t.renumber ρ).freeVars = t.freeVars.map (Var.renumber ρ) := by
  have hfold (vs : List Var) (known : VarSet) :
      (vs.map (Var.renumber ρ)).foldl push (known.map (Var.renumber ρ)) =
        (vs.foldl push known).map (Var.renumber ρ) := by
    induction vs generalizing known with
    | nil => rfl
    | cons v vs ih =>
      rw [map_cons, foldl_cons, push_renumber, ih, foldl_cons]
  rw [freeVars, collect, vars_renumber]
  exact hfold t.vars []

/-- The variables over which a type is generalised are the same, under other numbers. -/
theorem Scope.generalize_renumber (sc : Scope) (t : Ty) :
    (sc.renumber ρ).generalize (t.renumber ρ) = (sc.generalize t).renumber ρ := by
  unfold Scope.generalize Scheme.renumber
  rw [freeVars_renumber, filter_map]
  refine congrArg (Scheme.mk · _) (congrArg (List.map _) (filter_congr fun v _ => ?_))
  exact congrArg (!·) (sc.mentions_renumber v.id)

end ScriptTyping
