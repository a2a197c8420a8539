import ScriptTyping.Proofs.Course
import ScriptTyping.Ty.Tail

/-!
# What tails show

A tree shows the tail of a record as it was at some time, and the tail itself is changed where it is.
So the trees that are around disagree, but not by much: under the bindings that were found so far, all
of them show the same. This module makes that precise and draws the consequences.

**Fitting.** `Attachments.Fit θ B a`: under the valuation `θ`, the tails of `a` are the list `B`. A tree
fits in if its image is `Ty.Coherent` with `B`, that is, if it shows each tail as `B` has it. Whatever
is done to trees and tails with bindings that `θ` absorbs leaves all images as they are:
`image_current`, `image_substitute`, `Fit.of_rewrites`.

**Cleaning.** To apply bindings to a type should leave none of the bound variables. In the tree itself
that is plain. For what it shows of tails, they have to be gone there too: `a.Holds P n` says that the
variables of the tail `n` are such that `P`, not counting what is in the tail of a record within it.
`settles_revise` is the main fact. If bindings are applied to a type, then all tails that it shows hold
no bound variable, provided that those that the bindings show hold none.
-/

namespace ScriptTyping

open List Dict

variable {id : String} {P Q : String → Prop} {s : Subst}

namespace Ty

variable {θ : Valuation}

/-! ## Images -/

/-- The structure and the tails of a type. -/
def shape (t : Ty) : Ty := t.image free

@[simp] theorem image_missing (θ : Valuation) : missing.image θ = missing := rfl

@[simp] theorem image_var (θ : Valuation) (v : Var) : (var v).image θ = θ v.id := rfl

theorem image_con (θ : Valuation) (name : String) (args : List Ty) (l : Label) :
    (con name args l).image θ = con name (args.map (image θ)) (l.trace true) :=
  fill_con name args l

theorem image_record (θ : Valuation) (name : String) (fields : List (String × Ty)) (l : Label) :
    (record name fields l).image θ = record name (mapValues (image θ) fields) (l.trace true) :=
  fill_record name fields l

theorem image_congr {θ' : Valuation} {t : Ty} (h : ∀ id ∈ t.ids, θ id = θ' id) : t.image θ = t.image θ' :=
  fill_congr h

theorem image_image (θ σ : Valuation) (t : Ty) : (t.image σ).image θ = t.image fun id => (σ id).image θ :=
  fill_fill t

theorem inst_image (θ σ : Valuation) (t : Ty) : (t.image σ).inst θ = t.inst fun id => (σ id).inst θ := by
  induction t with
  | missing => rfl
  | var v => rfl
  | con name args l ih =>
    rw [image_con, inst_con, inst_con, map_map]
    congr 1
    exact map_congr_left ih
  | record name fields l ih =>
    rw [image_record, inst_record, inst_record, mapValues, mapValues, map_map]
    congr 1
    exact map_congr_left fun f hf => Prod.ext rfl (ih f hf)

theorem mem_ids_shape {t : Ty} : id ∈ t.shape.ids ↔ id ∈ t.ids := by
  rw [shape, image, mem_ids_fill]
  simp

@[simp] theorem bare_shape (t : Ty) : t.shape.bare = t.bare := inst_image free free t

/-- A substitution leaves the image as it is if what it binds has the image of the variable. -/
theorem image_substitute (hs : ∀ k u, get? s k = some u → u.image θ = θ k) (a : Attachments) (t : Ty) :
    (t.substitute a s).image θ = t.image θ := by
  refine (fill_substitute a s t).trans (fill_congr fun id _ => ?_)
  cases hget : get? s id with
  | none => rfl
  | some u => exact hs id u hget

/-- The type shows the tail of some number. -/
inductive HasTail (n : Nat) : Ty → Prop
  | here {name fields} {l : Label} {t} (h : l.tail = some t) (hn : t.number = n) :
    HasTail n (record name fields l)
  | con {name args l t} (ht : t ∈ args) (h : HasTail n t) : HasTail n (con name args l)
  | record {name fields l f} (hf : f ∈ fields) (h : HasTail n f.2) : HasTail n (record name fields l)

/-- No record in the type has a tail. -/
def Tailless (t : Ty) : Prop := ∀ n, ¬ t.HasTail n

namespace Tailless

variable {name : String} {args : List Ty} {fields : List (String × Ty)} {l : Label} {t : Ty}

theorem arg (h : (con name args l).Tailless) (ht : t ∈ args) : t.Tailless := fun n hn => h n (.con ht hn)

theorem field (h : (record name fields l).Tailless) {f : String × Ty} (hf : f ∈ fields) : f.2.Tailless :=
  fun n hn => h n (.record hf hn)

theorem tail_eq_none (h : (record name fields l).Tailless) : l.tail = none :=
  Option.eq_none_iff_forall_ne_some.2 fun u hu => h u.number (.here hu rfl)

theorem apply (h : t.Tailless) (hs : ∀ e ∈ s, e.2.Tailless) (a : Attachments) : (s.apply a t).Tailless := by
  unfold Subst.apply
  split
  · exact h
  induction t with
  | missing => exact h
  | var v =>
    rw [substitute]
    cases hget : get? s v.id with
    | none => exact h
    | some u => exact hs _ (mem_of_get?_eq_some hget)
  | con name args l ih =>
    intro n hn
    rw [substitute, substituteAll_eq_map] at hn
    cases hn with
    | con ht hn =>
      obtain ⟨x, hx, rfl⟩ := mem_map.1 ht
      exact ih x hx (h.arg hx) n hn
  | record name fields l ih =>
    intro n hn
    rw [substitute, substituteFields_eq_map] at hn
    cases hn with
    | here hl _ => exact Option.some_ne_none _ (hl.symm.trans h.tail_eq_none)
    | record hf hn =>
      obtain ⟨f, hmem, rfl⟩ := mem_map.1 hf
      exact ih f hmem (h.field hmem) n hn

end Tailless

theorem Plain.tailless {t : Ty} (h : t.Plain) : t.Tailless := by
  intro n hn
  induction h with
  | var v => cases hn
  | con _ ih =>
    cases hn with
    | con ht hn => exact ih _ ht hn

/-- The type shows each tail as `B` has it. -/
inductive Coherent (B : List (Dict Ty)) : Ty → Prop
  | missing : Coherent B missing
  | var (v : Var) : Coherent B (var v)
  | con {name args l} (h : ∀ t ∈ args, Coherent B t) : Coherent B (con name args l)
  | record {name fields} {l : Label} (h : ∀ f ∈ fields, Coherent B f.2)
    (ht : ∀ t, l.tail = some t → B[t.number]? = some (fields.drop t.own)) : Coherent B (record name fields l)

/-- The fields of a record that are not in its tail. -/
def ownFields (fields : List (String × Ty)) (l : Label) : List (String × Ty) :=
  match l.tail with
  | none => fields
  | some t => fields.take t.own

/-- The variables of a type are such that `P`, not counting what is in the tails of records. -/
inductive Own (P : String → Prop) : Ty → Prop
  | missing : Own P missing
  | var {v : Var} (h : P v.id) : Own P (var v)
  | con {name args l} (h : ∀ t ∈ args, Own P t) : Own P (con name args l)
  | record {name fields l} (h : ∀ f ∈ ownFields fields l, Own P f.2) : Own P (record name fields l)

theorem mem_of_mem_ownFields {fields : List (String × Ty)} {l : Label} {f : String × Ty}
    (h : f ∈ ownFields fields l) : f ∈ fields := by
  unfold ownFields at h
  split at h
  · exact h
  · exact mem_of_mem_take h

theorem sizeFields_drop_le (fields : List (String × Ty)) (k : Nat) :
    sizeFields (fields.drop k) ≤ sizeFields fields := by
  induction fields generalizing k with
  | nil => simp
  | cons f fields ih =>
    cases k with
    | zero => exact Nat.le_refl _
    | succ k => exact Nat.le_trans (ih k) (Nat.le_add_left ..)

theorem own_of_ids {t : Ty} (h : ∀ id ∈ t.ids, P id) : t.Own P := by
  induction t with
  | missing => exact .missing
  | var v => exact .var (h v.id (by simp))
  | con name args l ih =>
    exact .con fun t ht => ih t ht fun id hid => h id (mem_ids_con.2 ⟨t, ht, hid⟩)
  | record name fields l ih =>
    refine .record fun f hf => ?_
    have hmem := mem_of_mem_ownFields hf
    exact ih f hmem fun id hid => h id (mem_ids_record.2 ⟨f, hmem, hid⟩)

theorem Own.mono {t : Ty} (h : t.Own P) (hPQ : ∀ id, P id → Q id) : t.Own Q := by
  induction h with
  | missing => exact .missing
  | var h => exact .var (hPQ _ h)
  | con _ ih => exact .con ih
  | record _ ih => exact .record ih

/-- The own variables of a type are variables of it. -/
theorem Own.and_ids {t : Ty} (h : t.Own P) : t.Own fun id => P id ∧ id ∈ t.ids := by
  induction h with
  | missing => exact .missing
  | var h => exact .var ⟨h, by simp⟩
  | con _ ih =>
    exact .con fun t ht => (ih t ht).mono fun id hid => ⟨hid.1, mem_ids_con.2 ⟨t, ht, hid.2⟩⟩
  | record _ ih =>
    exact .record fun f hf => (ih f hf).mono fun id hid =>
      ⟨hid.1, mem_ids_record.2 ⟨f, mem_of_mem_ownFields hf, hid.2⟩⟩

theorem ownFields_mapValues (f : Ty → Ty) (fields : List (String × Ty)) {l k : Label} (h : k.tail = l.tail) :
    ownFields (mapValues f fields) k = mapValues f (ownFields fields l) := by
  unfold ownFields
  rw [h]
  split
  · rfl
  · simp [mapValues]

/-- A substitution takes variables that are such that `P` to ones that are such that `Q`, if it does so
for each that it binds, and the others are. -/
theorem Own.substitute {t : Ty} (h : t.Own P) (hs : ∀ e ∈ s, e.2.Own Q)
    (hPQ : ∀ id, P id → id ∈ Dict.keys s ∨ Q id) (a : Attachments) : (t.substitute a s).Own Q := by
  induction h with
  | missing => exact .missing
  | @var v h =>
    rw [Ty.substitute]
    cases hget : get? s v.id with
    | none => exact .var ((hPQ _ h).resolve_left (get?_eq_none_iff.1 hget))
    | some u => exact hs _ (mem_of_get?_eq_some hget)
  | con _ ih =>
    rw [Ty.substitute, substituteAll_eq_map]
    exact .con (forall_mem_map.2 fun t ht => ih t ht)
  | record _ ih =>
    rw [Ty.substitute, substituteFields_eq_map]
    refine .record fun g hg => ?_
    have hown := ownFields_mapValues (Ty.substitute a s)
    simp only [mapValues] at hown
    rw [hown _ rfl] at hg
    obtain ⟨f, hf, rfl⟩ := mem_map.1 hg
    exact ih f hf

end Ty

open Ty

namespace Attachments

variable {inside : Attachments → Ty → Attachments} {d : Dict Ty} {m : Nat} {tail? : Nat → Option (Dict Ty)}
  {α : Type}

/-- Under the valuation, the tails are the list `B`, and they show each other as they are. -/
structure Fit (θ : Valuation) (B : List (Dict Ty)) (a : Attachments) : Prop where
  tails : a.tails.map (mapValues (image θ)) = B
  coherent : ∀ d ∈ B, ∀ f ∈ d, f.2.Coherent B

/-- The variables of a tail are such that `P`, not counting what is in the tails of records. -/
def Holds (a : Attachments) (P : String → Prop) (n : Nat) : Prop :=
  ∀ d, a.tails[n]? = some d → ∀ f ∈ d, f.2.Own P

variable {n depth : Nat} {b : Attachments} {name : String} {l : Label}

theorem Holds.mono {a : Attachments} (h : a.Holds P n) (hPQ : ∀ id, P id → Q id) : a.Holds Q n :=
  fun d hd f hf => (h d hd f hf).mono hPQ

variable {θ : Valuation} {B : List (Dict Ty)} {a : Attachments}

/-- What a tail shows under the valuation. -/
theorem Fit.getElem? (h : Fit θ B a) (n : Nat) : B[n]? = (a.tails[n]?).map (mapValues (image θ)) := by
  rw [← h.tails, getElem?_map]

/-- The tails as they are, without cells. -/
def tailShapes (a : Attachments) : List (Dict Ty) := a.tails.map (mapValues shape)

/-- The tails show each other as they are. -/
def Coherent (a : Attachments) : Prop :=
  ∀ d ∈ a.tailShapes, ∀ f ∈ d, f.2.Coherent a.tailShapes

theorem Coherent.fit (h : a.Coherent) : a.Fit free a.tailShapes := ⟨rfl, h⟩

/-- A type that fits in shows tails that are there. -/
theorem exists_of_hasTail {t : Ty} (ht : t.Coherent B) (hn : t.HasTail n) :
    ∃ d, B[n]? = some d ∧ sizeFields d < t.size := by
  induction hn with
  | @here name fields l tail htail hnum =>
    cases ht with
    | record _ ht =>
      refine ⟨_, hnum ▸ ht tail htail, Nat.lt_succ_of_le ?_⟩
      exact sizeFields_drop_le fields tail.own
  | con hmem _ ih =>
    cases ht with
    | con ht =>
      obtain ⟨d, hd, hlt⟩ := ih (ht _ hmem)
      exact ⟨d, hd, Nat.lt_succ_of_lt (Nat.lt_of_lt_of_le hlt (size_le_sizeAll hmem))⟩
  | record hmem _ ih =>
    cases ht with
    | record ht _ =>
      obtain ⟨d, hd, hlt⟩ := ih (ht _ hmem)
      exact ⟨d, hd, Nat.lt_succ_of_lt (Nat.lt_of_lt_of_le hlt (size_le_sizeFields hmem))⟩

/-- What is shown by a tail that a type shows is shown by the type. -/
theorem hasTail_of_tail {t : Ty} {f : String × Ty} (ht : t.Coherent B) (hn : t.HasTail n) (hd : B[n]? = some d)
    (hf : f ∈ d) (hm : f.2.HasTail m) : t.HasTail m := by
  induction hn with
  | here htail hnum =>
    cases ht with
    | record _ ht =>
      rw [← hnum, ht _ htail] at hd
      cases hd
      exact .record (mem_of_mem_drop hf) hm
  | con hmem _ ih =>
    cases ht with
    | con ht => exact .con hmem (ih (ht _ hmem))
  | record hmem _ ih =>
    cases ht with
    | record ht _ => exact .record hmem (ih (ht _ hmem))

/-- So are the variables there. -/
theorem mem_ids_of_tail {t : Ty} {f : String × Ty} (ht : t.Coherent B) (hn : t.HasTail n) (hd : B[n]? = some d)
    (hf : f ∈ d) (hid : id ∈ f.2.ids) : id ∈ t.ids := by
  induction hn with
  | here htail hnum =>
    cases ht with
    | record _ ht =>
      rw [← hnum, ht _ htail] at hd
      cases hd
      exact mem_ids_record.2 ⟨f, mem_of_mem_drop hf, hid⟩
  | con hmem _ ih =>
    cases ht with
    | con ht => exact mem_ids_con.2 ⟨_, hmem, ih (ht _ hmem)⟩
  | record hmem _ ih =>
    cases ht with
    | record ht _ => exact mem_ids_record.2 ⟨_, hmem, ih (ht _ hmem)⟩

/-! ## How deep tails are nested -/

/-- How many of some tails are smaller than one of a size. -/
def rank (B : List (Dict Ty)) (size : Nat) : Nat := B.countP fun d => sizeFields d < size

theorem rank_mono (B : List (Dict Ty)) (h : m ≤ n) : rank B m ≤ rank B n :=
  countP_mono_left fun d _ hd => by simp only [decide_eq_true_eq] at *; omega

/-- A tail is not smaller than itself. -/
theorem rank_lt (hd : d ∈ B) (h : sizeFields d < n) : rank B (sizeFields d) < rank B n := by
  induction B with
  | nil => simp at hd
  | cons e B ih =>
    unfold rank at ih ⊢
    rw [countP_cons, countP_cons]
    rcases mem_cons.1 hd with rfl | hd
    · have hle := rank_mono B (Nat.le_of_lt h)
      unfold rank at hle
      simp only [Nat.lt_irrefl, decide_false, h, decide_true]
      simpa using Nat.lt_succ_of_le hle
    · have hlt := ih hd
      have himp : sizeFields e < sizeFields d → sizeFields e < n := fun he => Nat.lt_trans he h
      by_cases he : sizeFields e < sizeFields d
      · simpa [he, himp he] using hlt
      · simp only [he, decide_false]
        simp only [Bool.false_eq_true, if_false, Nat.add_zero]
        exact Nat.lt_of_lt_of_le hlt (Nat.le_add_right ..)

/-! ## Reading -/

section

variable {tail? : Nat → Option (Dict Ty)}

theorem renewAll_eq_map (ts : List Ty) : renewAll tail? ts = ts.map (renewWith tail?) := by
  induction ts with
  | nil => rfl
  | cons t ts ih => simp [renewAll, ih]

theorem renewFields_eq_mapValues (n : Nat) (fs : List (String × Ty)) :
    renewFields tail? n fs = mapValues (renewWith tail?) (fs.take n) := by
  induction fs generalizing n with
  | nil => cases n <;> simp [renewFields, mapValues]
  | cons f fs ih =>
    cases n with
    | zero => rfl
    | succ n => simp [renewFields, ih, mapValues]

theorem renewWith_con (name : String) (args : List Ty) (l : Label) :
    renewWith tail? (.con name args l) = .con name (args.map (renewWith tail?)) l := by
  rw [renewWith, renewAll_eq_map]

theorem renewWith_record (name : String) (fields : List (String × Ty)) {l : Label} (h : l.tail = none) :
    renewWith tail? (.record name fields l) =
      .record name (mapValues (renewWith tail?) fields) l := by
  rw [renewWith, h, Option.bind_none, renewFields_eq_mapValues, take_length]

theorem renewWith_record_of_tail (name : String) (fields : List (String × Ty)) {l : Label}
    {t : Tail} {rest : Dict Ty} (h : l.tail = some t) (hrest : tail? t.number = some rest) :
    renewWith tail? (.record name fields l) =
      .record name (mapValues (renewWith tail?) (fields.take t.own) ++ rest) l := by
  rw [renewWith, h, Option.bind_some, hrest, Option.map_some]
  show Ty.record name (renewFields tail? t.own fields ++ rest) l = _
  rw [renewFields_eq_mapValues]

/-- To bring tails up to date leaves the image as it is. -/
theorem image_renewWith (hB : ∀ n, B[n]? = (tail? n).map (mapValues (image θ))) {t : Ty}
    (ht : (t.image θ).Coherent B) : (renewWith tail? t).image θ = t.image θ := by
  induction t with
  | missing => rfl
  | var v => rfl
  | con name args l ih =>
    rw [image_con] at ht
    cases ht with
    | con ht =>
      rw [renewWith_con, image_con, image_con, map_map]
      congr 1
      exact map_congr_left fun t hmem => ih t hmem (ht _ (mem_map_of_mem hmem))
  | record name fields l ih =>
    rw [image_record] at ht
    cases ht with
    | record ht htail =>
      have hfields (fs : List (String × Ty)) (hsub : ∀ f ∈ fs, f ∈ fields) :
          mapValues (image θ) (mapValues (renewWith tail?) fs) =
            mapValues (image θ) fs := by
        simp only [mapValues, map_map]
        refine map_congr_left fun f hf => Prod.ext rfl (ih f (hsub f hf) ?_)
        exact ht (f.1, f.2.image θ) (mem_map.2 ⟨f, hsub f hf, rfl⟩)
      cases hl : l.tail with
      | none =>
        rw [renewWith_record name fields hl, image_record, image_record,
          hfields fields fun _ h => h]
      | some t =>
        have hnum := htail t hl
        rw [hB, Option.map_eq_some_iff] at hnum
        obtain ⟨rest, hrest, himage⟩ := hnum
        have hown := hfields (fields.take t.own) fun _ h => mem_of_mem_take h
        rw [renewWith_record_of_tail name fields hl hrest, image_record, image_record]
        congr 1
        -- The own fields and the tail together are the fields.
        calc mapValues (image θ) (mapValues (renewWith tail?) (fields.take t.own) ++ rest)
            = mapValues (image θ) (fields.take t.own) ++ mapValues (image θ) rest := by
              rw [← hown]
              exact map_append
          _ = (mapValues (image θ) fields).take t.own ++
                (mapValues (image θ) fields).drop t.own := by
              rw [himage]
              simp [mapValues]
          _ = mapValues (image θ) fields := take_append_drop ..

end

/-- The tails as far as they are brought up to date are those that fit. -/
theorem Fit.tailAt? (h : Fit θ B a) (depth n : Nat) :
    B[n]? = (a.tailAt? depth n).map (mapValues (image θ)) := by
  induction depth generalizing n with
  | zero => exact h.getElem? n
  | succ depth ih =>
    rw [h.getElem?, Attachments.tailAt?]
    cases hd : a.tails[n]? with
    | none => rfl
    | some d =>
      simp only [Option.map_some, Option.some.injEq, mapValues, map_map]
      refine map_congr_left fun f hf => Prod.ext rfl (image_renewWith ih ?_).symm
      refine h.coherent (mapValues (image θ) d) ?_ (f.1, f.2.image θ)
        (mem_map.2 ⟨f, hf, rfl⟩)
      rw [← h.tails]
      exact mem_map_of_mem (mem_of_getElem? hd)

/-- A type as it is now has the image that it had. -/
theorem Fit.image_current (h : Fit θ B a) {t : Ty} (ht : (t.image θ).Coherent B) :
    (a.current t).image θ = t.image θ := by
  unfold current
  split
  · rfl
  · exact image_renewWith (h.tailAt? _) ht

theorem Fit.mem (h : Fit θ B a) (hd : a.tails[n]? = some d) : mapValues (image θ) d ∈ B := by
  rw [← h.tails]
  exact mem_map_of_mem (mem_of_getElem? hd)

theorem rank_le_length (B : List (Dict Ty)) (n : Nat) : rank B n ≤ B.length := countP_le_length

/-- The variables of a type with its tails are its own and those of the tails. -/
theorem ids_renewWith {t : Ty} (hown : t.Own P) (htails : ∀ n, (t.image θ).HasTail n →
      ∃ rest, tail? n = some rest ∧ ∀ f ∈ rest, ∀ id ∈ f.2.ids, P id) : ∀ id ∈ (renewWith tail? t).ids, P id := by
  induction hown with
  | missing => simp [renewWith]
  | var h => simpa [renewWith] using h
  | con _ ih =>
    intro id hid
    rw [renewWith_con, mem_ids_con] at hid
    obtain ⟨u, hu, hid⟩ := hid
    obtain ⟨t, ht, rfl⟩ := mem_map.1 hu
    refine ih t ht (fun n hn => htails n ?_) id hid
    rw [image_con]
    exact .con (mem_map_of_mem ht) hn
  | @record name fields l _ ih =>
    have hfield (f) (hf : f ∈ ownFields fields l) :
        ∀ id ∈ (renewWith tail? f.2).ids, P id := by
      refine ih f hf fun n hn => htails n ?_
      rw [image_record]
      exact .record (mem_map.2 ⟨f, mem_of_mem_ownFields hf, rfl⟩) hn
    unfold ownFields at hfield
    intro id hid
    cases hl : l.tail with
    | none =>
      rw [hl] at hfield
      rw [renewWith_record name fields hl, mem_ids_record] at hid
      obtain ⟨g, hg, hid⟩ := hid
      obtain ⟨f, hf, rfl⟩ := mem_map.1 hg
      exact hfield f hf id hid
    | some t =>
      rw [hl] at hfield
      have hhere : ((Ty.record name fields l).image θ).HasTail t.number := by
        rw [image_record]
        exact .here hl rfl
      obtain ⟨rest, hrest, hids⟩ := htails t.number hhere
      rw [renewWith_record_of_tail name fields hl hrest, mem_ids_record] at hid
      obtain ⟨g, hg, hid⟩ := hid
      rcases mem_append.1 hg with hg | hg
      · obtain ⟨f, hf, rfl⟩ := mem_map.1 hg
        exact hfield f hf id hid
      · exact hids g hg id hid

/-- The variables of a type that shows no tail are its own. -/
theorem ids_of_own {t : Ty} (hown : t.Own P) (hno : ∀ n, ¬ (t.image θ).HasTail n) : ∀ id ∈ t.ids, P id := by
  induction hown with
  | missing => simp
  | var h => simpa using h
  | con _ ih =>
    intro id hid
    obtain ⟨t, ht, hid⟩ := mem_ids_con.1 hid
    refine ih t ht (fun n hn => hno n ?_) id hid
    rw [image_con]
    exact .con (mem_map_of_mem ht) hn
  | @record name fields l _ ih =>
    have hl : l.tail = none := by
      cases hl : l.tail with
      | none => rfl
      | some t =>
        refine absurd ?_ (hno t.number)
        rw [image_record]
        exact .here hl rfl
    intro id hid
    obtain ⟨f, hf, hid⟩ := mem_ids_record.1 hid
    have hown : f ∈ ownFields fields l := by simpa [ownFields, hl] using hf
    refine ih f hown (fun n hn => hno n ?_) id hid
    rw [image_record]
    exact .record (mem_map.2 ⟨f, hf, rfl⟩) hn

/-- A tail that a type shows, with what follows for the types in it. -/
theorem Fit.of_hasTail (h : Fit θ B a) {t : Ty} (ht : (t.image θ).Coherent B)
    (hn : (t.image θ).HasTail n) : ∃ d, a.tails[n]? = some d ∧
      ∀ f ∈ d, (f.2.image θ).Coherent B ∧ (∀ m, (f.2.image θ).HasTail m → (t.image θ).HasTail m) ∧
        rank B (f.2.image θ).size < rank B (t.image θ).size := by
  obtain ⟨e, he, hlt⟩ := exists_of_hasTail ht hn
  have hmem : e ∈ B := mem_of_getElem? he
  rw [h.getElem?, Option.map_eq_some_iff] at he
  obtain ⟨d, hd, rfl⟩ := he
  refine ⟨d, hd, fun f hf => ?_⟩
  have hf' : (f.1, f.2.image θ) ∈ mapValues (image θ) d := mem_map.2 ⟨f, hf, rfl⟩
  refine ⟨h.coherent _ hmem _ hf', fun m hm => ?_, ?_⟩
  · exact hasTail_of_tail ht hn (by rw [h.getElem?, hd]; rfl) hf' hm
  · exact Nat.lt_of_le_of_lt (rank_mono B (size_le_sizeFields hf')) (rank_lt hmem hlt)

/-- If the variables of a type and of all tails that it shows are such that `P`, so are those of the
type with tails that are brought up to date deep enough. -/
theorem Fit.ids_tailAt? (h : Fit θ B a) (depth : Nat) {t : Ty} (hown : t.Own P) (ht : (t.image θ).Coherent B)
    (hold : ∀ n, (t.image θ).HasTail n → a.Holds P n) (hrank : rank B (t.image θ).size ≤ depth) :
    ∀ id ∈ (renewWith (a.tailAt? depth) t).ids, P id := by
  induction depth generalizing t with
  | zero =>
    refine ids_renewWith (θ := θ) hown fun n hn => ?_
    -- There is no room for a tail.
    obtain ⟨e, he, hlt⟩ := exists_of_hasTail ht hn
    have := rank_lt (mem_of_getElem? he) hlt
    omega
  | succ depth ih =>
    refine ids_renewWith (θ := θ) hown fun n hn => ?_
    obtain ⟨d, hd, hfields⟩ := h.of_hasTail ht hn
    refine ⟨mapValues (renewWith (a.tailAt? depth)) d, ?_, fun g hg => ?_⟩
    · rw [Attachments.tailAt?, hd, Option.map_some]
    · obtain ⟨f, hf, rfl⟩ := mem_map.1 hg
      obtain ⟨hco, hsub, hlt⟩ := hfields f hf
      exact ih (hold n hn d hd f hf) hco (fun m hm => hold m (hsub m hm)) (by omega)

/-- If the variables of a type and of all tails that it shows are such that `P`, so are those of the
type as it is now. -/
theorem Fit.ids_current (h : Fit θ B a) {t : Ty} (hown : t.Own P) (ht : (t.image θ).Coherent B)
    (hold : ∀ n, (t.image θ).HasTail n → a.Holds P n) : ∀ id ∈ (a.current t).ids, P id := by
  unfold current
  split
  next hempty =>
    refine ids_of_own (θ := θ) hown fun n hn => ?_
    obtain ⟨d, hd, -⟩ := h.of_hasTail ht hn
    rw [List.isEmpty_iff.1 hempty] at hd
    cases hd
  next =>
    refine h.ids_tailAt? a.tails.length hown ht hold ?_
    have hlen : B.length = a.tails.length := by rw [← h.tails, length_map]
    exact hlen ▸ rank_le_length B _

/-! ## Rewriting -/

/-- Tails were rewritten with a substitution, one after another. -/
inductive Rewrites (s : Subst) (a : Attachments) : Attachments → Prop
  | refl : Rewrites s a a
  | step {b : Attachments} (h : Rewrites s a b) (n : Nat) : Rewrites s a (b.rewriteTail s n)

theorem Rewrites.trans {c : Attachments} (h : Rewrites s a b) (h' : Rewrites s b c) : Rewrites s a c := by
  induction h' with
  | refl => exact h
  | step _ n ih => exact ih.step n

theorem getElem?_rewriteTail (a : Attachments) (s : Subst) (n m : Nat) : (a.rewriteTail s n).tails[m]? =
      (a.tails[m]?).map fun d => if n = m then mapValues (Ty.substitute a s) d else d := by
  simp [rewriteTail, getElem?_modify]

/-- What the valuation absorbs can be written into tails, and they show the same. -/
theorem Rewrites.images (hr : Rewrites s a b) (hs : ∀ k u, Dict.get? s k = some u → u.image θ = θ k) :
    b.tails.map (mapValues (image θ)) = a.tails.map (mapValues (image θ)) := by
  induction hr with
  | refl => rfl
  | @step b _ n ih =>
    rw [← ih]
    refine ext_getElem? fun m => ?_
    rw [getElem?_map, getElem?_map, getElem?_rewriteTail, Option.map_map]
    refine Option.map_congr fun d _ => ?_
    by_cases hnm : n = m
    · simp only [Function.comp, hnm, if_true, mapValues, map_map]
      exact map_congr_left fun f _ => Prod.ext rfl (image_substitute hs b f.2)
    · simp only [Function.comp, hnm, if_false]

theorem Fit.of_rewrites (h : Fit θ B a) (hr : Rewrites s a b)
    (hs : ∀ k u, Dict.get? s k = some u → u.image θ = θ k) : Fit θ B b :=
  ⟨(hr.images hs).trans h.tails, h.coherent⟩

/-- A tail is as before, with what was written into it. -/
theorem Holds.of_rewrites (h : a.Holds P n) (hr : Rewrites s a b) (hs : ∀ e ∈ s, e.2.Own P) : b.Holds P n := by
  induction hr with
  | refl => exact h
  | @step b _ m ih =>
    intro d hd f hf
    rw [getElem?_rewriteTail, Option.map_eq_some_iff] at hd
    obtain ⟨e, he, rfl⟩ := hd
    split at hf
    · obtain ⟨g, hg, rfl⟩ := mem_map.1 hf
      exact (ih e he g hg).substitute hs (fun _ h => .inr h) b
    · exact ih e he f hf

/-- To write bindings into a tail leaves none of the bound variables. -/
theorem Holds.rewriteTail {R : String → Prop} (h : a.Holds R n) (hs : ∀ e ∈ s, e.2.Own P)
    (hRP : ∀ id, R id → id ∈ Dict.keys s ∨ P id) : (a.rewriteTail s n).Holds P n := by
  intro d hd f hf
  rw [getElem?_rewriteTail, Option.map_eq_some_iff] at hd
  obtain ⟨e, he, rfl⟩ := hd
  rw [if_pos rfl] at hf
  obtain ⟨g, hg, rfl⟩ := mem_map.1 hf
  exact (h e he g hg).substitute hs hRP a

section

variable {inside : Attachments → Ty → Attachments} {s : Subst}

theorem reviseAll_eq_foldl (a : Attachments) (ts : List Ty) :
    reviseAll inside s a ts = ts.foldl (reviseWith inside s) a := by
  induction ts generalizing a with
  | nil => rfl
  | cons t ts ih => exact ih _

theorem reviseFields_eq_foldl (a : Attachments) (n : Nat) (fs : List (String × Ty)) :
    reviseFields inside s a n fs = (fs.take n).foldl (fun a f => reviseWith inside s a f.2) a := by
  induction fs generalizing a n with
  | nil => cases n <;> rfl
  | cons f fs ih =>
    cases n with
    | zero => rfl
    | succ n => exact ih _ _

/-- In a record, the own fields come first, then what is in the tail, and then the tail is rewritten. -/
theorem reviseWith_record (a : Attachments) (name : String) (fields : List (String × Ty)) (l : Label) :
    reviseWith inside s a (.record name fields l) =
      let b := (ownFields fields l).foldl (fun a f => reviseWith inside s a f.2) a
      match l.tail with
      | none => b
      | some t =>
        (((b.tails[t.number]?).getD []).foldl (fun a f => inside a f.2) b).rewriteTail s t.number := by
  rw [reviseWith]
  cases hl : l.tail with
  | none => simp only [ownFields, hl, reviseFields_eq_foldl, take_length]
  | some t => simp only [ownFields, hl, reviseFields_eq_foldl]

theorem rewrites_foldl {g : Attachments → α → Attachments} {l : List α} (hg : ∀ b, ∀ x ∈ l, Rewrites s b (g b x))
    (a : Attachments) : Rewrites s a (l.foldl g a) := by
  induction l generalizing a with
  | nil => exact .refl
  | cons x l ih =>
    exact (hg a x mem_cons_self).trans
      (ih (fun b y hy => hg b y (mem_cons_of_mem _ hy)) (g a x))

theorem rewrites_reviseWith (hin : ∀ b x, Rewrites s b (inside b x)) (a : Attachments) (t : Ty) :
    Rewrites s a (reviseWith inside s a t) := by
  induction t generalizing a with
  | missing => exact .refl
  | var v => exact .refl
  | con name args l ih =>
    rw [reviseWith, reviseAll_eq_foldl]
    exact rewrites_foldl (fun b t ht => ih t ht b) a
  | record name fields l ih =>
    have hown := rewrites_foldl (l := ownFields fields l)
      (fun b f hf => ih f (mem_of_mem_ownFields hf) b) a
    rw [reviseWith_record]
    split
    · exact hown
    · exact .step (hown.trans (rewrites_foldl (fun b f _ => hin b f.2) _)) _

theorem rewrites_reviseDepth (depth : Nat) (a : Attachments) (t : Ty) :
    Rewrites s a (reviseDepth s depth a t) := by
  induction depth generalizing a t with
  | zero => exact .refl
  | succ depth ih => exact rewrites_reviseWith ih a t

/-- What the application of a substitution does to tails is to rewrite some. -/
theorem rewrites_revise (a : Attachments) (t : Ty) : Rewrites s a (a.revise s t) := by
  unfold revise
  split
  · exact .refl
  · exact rewrites_reviseDepth _ a t

end

/-! ## Cleaning -/

/-- The variables of all tails that a type shows are such that `P`. -/
def Settled (θ : Valuation) (P : String → Prop) (a : Attachments) (t : Ty) : Prop :=
  ∀ n, (t.image θ).HasTail n → a.Holds P n

theorem Settled.of_rewrites {t : Ty} (h : Settled θ P a t) (hr : Rewrites s a b) (hs : ∀ e ∈ s, e.2.Own P) :
    Settled θ P b t :=
  fun n hn => (h n hn).of_rewrites hr hs

/-- The bindings take variables that are such that `R` to ones that are such that `P`, and the
valuation absorbs them and leaves these as they are. -/
structure Cleans (θ : Valuation) (R P : String → Prop) (s : Subst) : Prop where
  absorbs : ∀ k u, Dict.get? s k = some u → u.image θ = θ k
  own : ∀ e ∈ s, e.2.Own P
  weaker : ∀ id, P id → R id
  cover : ∀ id, R id → id ∈ Dict.keys s ∨ P id
  free : ∀ id, P id → θ id = Ty.free id

/-- What is needed of a type, and of tails, before bindings are applied. -/
structure Ready (θ : Valuation) (B : List (Dict Ty)) (R P : String → Prop) (s : Subst)
    (a : Attachments) (t : Ty) : Prop where
  fit : Fit θ B a
  bound : ∀ e ∈ s, Settled θ P a e.2
  own : t.Own R
  coherent : (t.image θ).Coherent B
  holds : Settled θ R a t

variable {R P : String → Prop} {s : Subst} {t : Ty}

theorem Ready.of_rewrites (h : Ready θ B R P s a t) (hc : Cleans θ R P s)
    (hr : Rewrites s a b) : Ready θ B R P s b t where
  fit := h.fit.of_rewrites hr hc.absorbs
  bound e he := (h.bound e he).of_rewrites hr hc.own
  own := h.own
  coherent := h.coherent
  holds := h.holds.of_rewrites hr fun e he => (hc.own e he).mono hc.weaker

theorem Ready.con {args : List Ty}
    (h : Ready θ B R P s a (.con name args l)) (ht : t ∈ args) : Ready θ B R P s a t := by
  obtain ⟨hfit, hbound, hown, hco, hholds⟩ := h
  unfold Settled at hholds
  rw [image_con] at hco hholds
  have hmem : t.image θ ∈ args.map (image θ) := mem_map_of_mem ht
  cases hown with
  | con hown =>
    cases hco with
    | con hco =>
      exact ⟨hfit, hbound, hown t ht, hco _ hmem, fun n hn => hholds n (.con hmem hn)⟩

theorem Ready.record {fields : List (String × Ty)} {f : String × Ty}
    (h : Ready θ B R P s a (.record name fields l)) (hf : f ∈ ownFields fields l) :
    Ready θ B R P s a f.2 := by
  obtain ⟨hfit, hbound, hown, hco, hholds⟩ := h
  unfold Settled at hholds
  rw [image_record] at hco hholds
  have hmem : (f.1, f.2.image θ) ∈ mapValues (image θ) fields :=
    mem_map.2 ⟨f, mem_of_mem_ownFields hf, rfl⟩
  cases hown with
  | record hown =>
    cases hco with
    | record hco =>
      exact ⟨hfit, hbound, hown f hf, hco _ hmem, fun n hn => hholds n (.record hmem hn)⟩

theorem settled_foldl {g : Attachments → α → Attachments} (ty : α → Ty) {l : List α} (hs : ∀ e ∈ s, e.2.Own P)
    (hg : ∀ b, ∀ x ∈ l, Rewrites s b (g b x)) (h : ∀ b, Rewrites s a b → ∀ x ∈ l, Settled θ P (g b x) (ty x)) :
    ∀ x ∈ l, Settled θ P (l.foldl g a) (ty x) := by
  induction l generalizing a with
  | nil => simp
  | cons x l ih =>
    have hgx := hg a x mem_cons_self
    have hg' (b) (y) (hy : y ∈ l) : Rewrites s b (g b y) := hg b y (mem_cons_of_mem _ hy)
    intro y hy
    rcases mem_cons.1 hy with rfl | hy
    · exact (h a .refl y mem_cons_self).of_rewrites (rewrites_foldl hg' _) hs
    · exact ih hg' (fun b hb z hz => h b (hgx.trans hb) z (mem_cons_of_mem _ hz)) y hy

/-- In a record whose own fields are cleaned, what is in the tail is cleaned, and then the tail. -/
theorem settled_tail {fields : List (String × Ty)} {t : Tail} (hc : Cleans θ R P s)
    (hin : ∀ b x, Rewrites s b (inside b x))
    (hdone : ∀ b x, Ready θ B R P s b x → rank B (x.image θ).size ≤ depth →
      Settled θ P (inside b x) x) (h : Ready θ B R P s a (.record name fields l))
    (hrank : rank B ((Ty.record name fields l).image θ).size ≤ depth + 1) (hl : l.tail = some t)
    (hown : ∀ f ∈ ownFields fields l, Settled θ P a f.2) : Settled θ P
      ((((a.tails[t.number]?).getD []).foldl (fun a f => inside a f.2) a).rewriteTail s t.number)
      (.record name fields l) := by
  have hhere : ((Ty.record name fields l).image θ).HasTail t.number := by
    rw [image_record]
    exact .here hl rfl
  obtain ⟨d, hd, hfields⟩ := h.fit.of_hasTail h.coherent hhere
  rw [hd, Option.getD_some]
  have hrest := rewrites_foldl (l := d) (fun b f _ => hin b f.2) a
  -- What is in the tail.
  have hinner : ∀ f ∈ d, Settled θ P (d.foldl (fun a f => inside a f.2) a) f.2 := by
    refine settled_foldl Prod.snd hc.own (fun b f _ => hin b f.2) fun b hb f hf => ?_
    obtain ⟨hco, hsub, hlt⟩ := hfields f hf
    have hready : Ready θ B R P s a f.2 :=
      ⟨h.fit, h.bound, h.holds _ hhere d hd f hf, hco, fun n hn => h.holds n (hsub n hn)⟩
    exact hdone b f.2 (hready.of_rewrites hc hb) (by omega)
  -- The tail itself.
  have hself := ((h.of_rewrites hc hrest).holds _ hhere).rewriteTail hc.own hc.cover
  have hlast : Rewrites s (d.foldl (fun a f => inside a f.2) a)
      ((d.foldl (fun a f => inside a f.2) a).rewriteTail s t.number) := Rewrites.refl.step _
  intro n hn
  have hcoherent := h.coherent
  rw [image_record] at hn hcoherent
  cases hcoherent with
  | record _ htail =>
    cases hn with
    | here htail' hnum =>
      cases Option.some.inj (hl.symm.trans htail')
      exact hnum ▸ hself
    | record hmem hn =>
      have hdrop := htail t hl
      rw [h.fit.getElem?, hd, Option.map_some, Option.some.injEq] at hdrop
      rw [← take_append_drop t.own (mapValues (image θ) fields), ← hdrop] at hmem
      rcases mem_append.1 hmem with hmem | hmem
      · rw [mapValues, ← map_take] at hmem
        obtain ⟨f, hf, rfl⟩ := mem_map.1 hmem
        simp only [ownFields, hl] at hown
        exact ((hown f hf).of_rewrites (hrest.trans hlast) hc.own) n hn
      · obtain ⟨f, hf, rfl⟩ := mem_map.1 hmem
        exact ((hinner f hf).of_rewrites hlast hc.own) n hn

/-- If the bindings are applied to a type, all tails that it shows are cleaned, provided that this is
done within tails. -/
theorem settled_reviseWith (hc : Cleans θ R P s) (hin : ∀ b x, Rewrites s b (inside b x))
    (hdone : ∀ b x, Ready θ B R P s b x → rank B (x.image θ).size ≤ depth →
      Settled θ P (inside b x) x) (h : Ready θ B R P s a t) (hrank : rank B (t.image θ).size ≤ depth + 1) :
    Settled θ P (reviseWith inside s a t) t := by
  have hrewrites := rewrites_reviseWith hin
  induction t generalizing a with
  | missing => exact fun n hn => by cases hn
  | var v =>
    intro n hn
    cases h.own with
    | var hR =>
      rw [image_var] at hn
      rcases hc.cover _ hR with hkey | hP
      · obtain ⟨u, hu⟩ := Option.ne_none_iff_exists'.1 (mt get?_eq_none_iff.1 (not_not_intro hkey))
        rw [← hc.absorbs _ u hu] at hn
        exact h.bound _ (mem_of_get?_eq_some hu) n hn
      · rw [hc.free _ hP] at hn
        cases hn
  | con name args l ih =>
    rw [reviseWith, reviseAll_eq_foldl]
    have hargs : ∀ t ∈ args, Settled θ P (args.foldl (reviseWith inside s) a) t := by
      refine settled_foldl id hc.own (fun b t _ => hrewrites b t) fun b hb t ht => ?_
      refine ih t ht ((h.con ht).of_rewrites hc hb) (Nat.le_trans (rank_mono B ?_) hrank)
      rw [image_con]
      exact Nat.le_succ_of_le (size_le_sizeAll (mem_map_of_mem ht))
    intro n hn
    rw [image_con] at hn
    cases hn with
    | con hmem hn =>
      obtain ⟨t, ht, rfl⟩ := mem_map.1 hmem
      exact hargs t ht n hn
  | record name fields l ih =>
    rw [reviseWith_record]
    generalize hb : (ownFields fields l).foldl (fun a f => reviseWith inside s a f.2) a = b
    have hab : Rewrites s a b := hb ▸ rewrites_foldl (fun b f _ => hrewrites b f.2) a
    have hown : ∀ f ∈ ownFields fields l, Settled θ P b f.2 := by
      rw [← hb]
      refine settled_foldl Prod.snd hc.own (fun b f _ => hrewrites b f.2) fun b hb f hf => ?_
      refine ih f (mem_of_mem_ownFields hf) ((h.record hf).of_rewrites hc hb)
        (Nat.le_trans (rank_mono B ?_) hrank)
      rw [image_record]
      exact Nat.le_succ_of_le (size_le_sizeFields (f := (f.1, f.2.image θ))
        (mem_map.2 ⟨f, mem_of_mem_ownFields hf, rfl⟩))
    cases hl : l.tail with
    | none =>
      dsimp only
      simp only [ownFields, hl] at hown
      intro n hn
      rw [image_record] at hn
      cases hn with
      | here htail => exact absurd (htail.symm.trans hl) (by simp)
      | record hmem hn =>
        obtain ⟨f, hf, rfl⟩ := mem_map.1 hmem
        exact hown f hf n hn
    | some t => exact settled_tail hc hin hdone (h.of_rewrites hc hab) hrank hl hown

theorem settled_reviseDepth (hc : Cleans θ R P s) (depth : Nat) (h : Ready θ B R P s a t)
    (hrank : rank B (t.image θ).size ≤ depth) : Settled θ P (reviseDepth s depth a t) t := by
  induction depth generalizing a t with
  | zero =>
    intro n hn
    obtain ⟨e, he, hlt⟩ := exists_of_hasTail h.coherent hn
    have := rank_lt (mem_of_getElem? he) hlt
    omega
  | succ depth ih =>
    exact settled_reviseWith hc (rewrites_reviseDepth depth) (fun _ _ hx hr => ih hx hr) h hrank

/-- If the bindings are applied to a type, all tails that it shows are cleaned. -/
theorem settled_revise (hc : Cleans θ R P s) (h : Ready θ B R P s a t) : Settled θ P (a.revise s t) t := by
  have hlen : B.length = a.tails.length := by rw [← h.fit.tails, length_map]
  unfold revise
  split
  next hempty =>
    rcases Bool.or_eq_true_iff.1 hempty with hs | ha
    · -- Nothing is bound, so nothing is to be cleaned.
      have hRP (id : String) (hid : R id) : P id := by
        rcases hc.cover id hid with hkey | hP
        · rw [List.isEmpty_iff.1 hs] at hkey
          cases hkey
        · exact hP
      exact fun n hn => (h.holds n hn).mono hRP
    · intro n hn
      obtain ⟨d, hd, -⟩ := h.fit.of_hasTail h.coherent hn
      rw [List.isEmpty_iff.1 ha] at hd
      cases hd
  next =>
    refine settled_reviseDepth hc _ h (Nat.le_succ_of_le ?_)
    exact hlen ▸ rank_le_length B _

/-! ## Types without tails -/

theorem renewWith_of_tailless (h : t.Tailless) : renewWith tail? t = t := by
  induction t with
  | missing => rfl
  | var v => rfl
  | con name args l ih =>
    rw [renewWith_con]
    congr 1
    exact (map_congr_left fun x hx => ih x hx (h.arg hx)).trans (map_id _)
  | record name fields l ih =>
    rw [renewWith_record name fields h.tail_eq_none]
    congr 1
    refine (map_congr_left fun f hf => ?_).trans (map_id _)
    rw [ih f hf (h.field hf)]
    rfl

theorem current_of_tailless (a : Attachments) (h : t.Tailless) : a.current t = t := by
  unfold current
  split
  · rfl
  · exact renewWith_of_tailless h

theorem currentAll_of_tailless (a : Attachments) (h : ∀ e ∈ s, e.2.Tailless) : a.currentAll s = s := by
  unfold currentAll
  split
  · rfl
  · refine (map_congr_left fun e he => ?_).trans (map_id _)
    rw [a.current_of_tailless (h e he)]
    rfl

theorem reviseWith_of_tailless (h : t.Tailless) : reviseWith inside s a t = a := by
  induction t with
  | missing => rfl
  | var v => rfl
  | con name args l ih =>
    rw [reviseWith, reviseAll_eq_foldl]
    refine List.foldlRecOn (motive := fun b => b = a) args _ rfl fun b hb x hx => ?_
    rw [hb, ih x hx (h.arg hx)]
  | record name fields l ih =>
    rw [reviseWith_record, h.tail_eq_none]
    refine List.foldlRecOn (motive := fun b => b = a) _ _ rfl fun b hb f hf => ?_
    have hf := mem_of_mem_ownFields hf
    rw [hb, ih f hf (h.field hf)]

theorem revise_of_tailless (a : Attachments) (s : Subst) (h : t.Tailless) : a.revise s t = a := by
  unfold revise
  split
  · rfl
  · exact reviseWith_of_tailless h

theorem replay_of_tailless (a : Attachments) {done : List Application} (h : ∀ x ∈ done, x.2.Tailless) :
    a.replay done = a := by
  induction done with
  | nil => rfl
  | cons x xs ih =>
    rw [replay, foldl_cons, a.revise_of_tailless x.1 (h x mem_cons_self)]
    exact ih fun y hy => h y (mem_cons_of_mem _ hy)

theorem apply_of_tailless (a : Attachments) (hs : ∀ e ∈ s, e.2.Tailless) (ht : t.Tailless) :
    a.apply s t = (Subst.apply a s t, a) := by
  have hresult : (Subst.apply a s t).Tailless := ht.apply hs a
  simp only [apply, a.currentAll_of_tailless hs, a.current_of_tailless ht, a.revise_of_tailless s ht,
    a.current_of_tailless hresult]

end Attachments

end ScriptTyping
