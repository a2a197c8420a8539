import Mathlib.Data.List.Forall2
import ScriptTyping.Proofs.Tails

/-!
# Bindings that are found one after another

While types are unified, bindings are applied to parts, found, and composed with those found before.
Each application changes tails. This module says what is so of the bindings and the tails in between.

A stage is given by a valuation `θ`, what tails show under it, and the variables that are bound there.
`Reached θ B K a s` says that from such a stage the bindings `s` were found and applied as they should:
under `θ` and then `s`, the tails of `a` show what they showed at the stage, with the bindings put in,
and neither what is bound nor any tail that it shows has a bound variable left. There are two steps:

* `Reached.pair`: to apply the bindings to a type leaves none of the bound variables there;
* `Reached.next`: what is found next is composed with what was found before.

From these, `Run.reached` follows by induction on a run.
-/

namespace ScriptTyping

open Ty List Dict Attachments Subst ScriptTyping.Valuation

variable {ts : List Ty} {n : Nat} {L : String → Prop} {x : Ty}

namespace Ty

variable {ρ : Valuation}

/-! ## Images of images -/

theorem Coherent.image {B : List (Dict Ty)} (h : x.Coherent B)
    (hρ : ∀ id ∈ x.ids, (ρ id).Coherent (B.map (mapValues (Ty.image ρ)))) :
    (x.image ρ).Coherent (B.map (mapValues (Ty.image ρ))) := by
  induction h with
  | missing => exact .missing
  | var v => exact hρ v.id (by simp)
  | con _ ih =>
    rw [image_con]
    exact .con (forall_mem_map.2 fun t ht => ih t ht fun id hid => hρ id (mem_ids_con.2 ⟨t, ht, hid⟩))
  | record _ htail ih =>
    rw [image_record]
    refine .record (fun g hg => ?_) fun t ht => ?_
    · obtain ⟨f, hf, rfl⟩ := mem_map.1 hg
      exact ih f hf fun id hid => hρ id (mem_ids_record.2 ⟨f, hf, hid⟩)
    · rw [getElem?_map, htail t ht, Option.map_some, mapValues, mapValues,
        map_drop]

/-- A tail that an image shows is shown by the type or by what stands in it for a variable. -/
theorem hasTail_image (h : (x.image ρ).HasTail n) : x.HasTail n ∨ ∃ id ∈ x.ids, (ρ id).HasTail n := by
  induction x with
  | missing => cases h
  | var v => exact .inr ⟨v.id, by simp, h⟩
  | con name args l ih =>
    rw [image_con] at h
    cases h with
    | con hmem hn =>
      obtain ⟨t, ht, rfl⟩ := mem_map.1 hmem
      rcases ih t ht hn with h | ⟨id, hid, h⟩
      · exact .inl (.con ht h)
      · exact .inr ⟨id, mem_ids_con.2 ⟨t, ht, hid⟩, h⟩
  | record name fields l ih =>
    rw [image_record] at h
    cases h with
    | here htail hnum => exact .inl (.here htail hnum)
    | record hmem hn =>
      obtain ⟨f, hf, rfl⟩ := mem_map.1 hmem
      rcases ih f hf hn with h | ⟨id, hid, h⟩
      · exact .inl (.record hf h)
      · exact .inr ⟨id, mem_ids_record.2 ⟨f, hf, hid⟩, h⟩

theorem image_apply {θ : Valuation} {s : Subst}
    (hs : ∀ k u, get? s k = some u → u.image θ = θ k) (a : Attachments) (t : Ty) :
    (Subst.apply a s t).image θ = t.image θ := by
  cases s with
  | nil => rfl
  | cons e s => exact image_substitute hs a t

end Ty

/-! ## Stages -/

/-- The structure and tails that a substitution gives to each variable. -/
def Subst.images (s : Subst) : Valuation := s.fills true

/-- A valuation and then bindings. -/
def Valuation.after (θ : Valuation) (s : Subst) : Valuation := fun id => (θ id).image s.images

/-- What tails show when bindings are put in. -/
def tailsAfter (B : List (Dict Ty)) (s : Subst) : List (Dict Ty) :=
  B.map (mapValues (image s.images))

/-- Variables, and those that a substitution binds. -/
def andKeys (K : String → Prop) (s : Subst) : String → Prop := fun id => K id ∨ id ∈ Dict.keys s

/-- The valuation leaves all variables as they are that are not such that `K`. -/
structure Valuation.Binds (θ : Valuation) (K : String → Prop) : Prop where
  free : ∀ id, ¬ K id → θ id = Ty.free id
  shape : ∀ id, (θ id).shape = θ id

/-- Neither the type nor a tail that it shows has a bound variable. -/
structure Clear (θ : Valuation) (B : List (Dict Ty)) (K : String → Prop) (a : Attachments) (t : Ty) :
    Prop where
  ids : ∀ id ∈ t.ids, ¬ K id
  coherent : (t.image θ).Coherent B
  settled : a.Settled θ (fun id => ¬ K id) t

/-- From the stage of `θ`, `B` and `K`, the bindings `s` were found and applied. -/
structure Reached (θ : Valuation) (B : List (Dict Ty)) (K : String → Prop) (a : Attachments)
    (s : Subst) : Prop where
  binds : θ.Binds K
  sorted : Dict.Sorted s
  keys : ∀ k ∈ Dict.keys s, ¬ K k
  fit : a.Fit (θ.after s) (tailsAfter B s)
  clear : ∀ e ∈ s, Clear (θ.after s) (tailsAfter B s) (andKeys K s) a e.2

variable {θ : Valuation} {B : List (Dict Ty)} {K : String → Prop} {a b : Attachments} {s r : Subst}
  {t : Ty}

namespace Clear

theorem of_rewrites (h : Clear θ B K a t) (hr : a.Rewrites s b)
    (hs : ∀ e ∈ s, e.2.Own fun id => ¬ K id) : Clear θ B K b t :=
  ⟨h.ids, h.coherent, h.settled.of_rewrites hr hs⟩

theorem mono (h : Clear θ B K a t) (hL : ∀ id, L id → K id) : Clear θ B L a t :=
  ⟨fun id hid hin => h.ids id hid (hL id hin), h.coherent,
    fun n hn => (h.settled n hn).mono fun id hid hin => hid (hL id hin)⟩

theorem child (h : Clear θ B K a t) (hx : x.Child t) : Clear θ B K a x := by
  obtain ⟨hids, hco, hsettled⟩ := h
  unfold Attachments.Settled at hsettled
  cases t with
  | missing => cases hx
  | var v => cases hx
  | con name args l =>
    rw [image_con] at hco hsettled
    have hmem : x.image θ ∈ args.map (image θ) := mem_map_of_mem hx
    cases hco with
    | con hco =>
      exact ⟨fun id hid => hids id (mem_ids_con.2 ⟨x, hx, hid⟩), hco _ hmem,
        fun n hn => hsettled n (.con hmem hn)⟩
  | record name fields l =>
    obtain ⟨k, hk⟩ := hx
    rw [image_record] at hco hsettled
    have hmem : (k, x.image θ) ∈ mapValues (image θ) fields := mem_map.2 ⟨_, hk, rfl⟩
    cases hco with
    | record hco =>
      exact ⟨fun id hid => hids id (mem_ids_record.2 ⟨_, hk, hid⟩), hco _ hmem,
        fun n hn => hsettled n (.record hmem hn)⟩

theorem of_tails (h : Clear θ B K a t) (hb : b.tails = a.tails) : Clear θ B K b t := by
  refine ⟨h.ids, h.coherent, fun n hn d hd => h.settled n hn d ?_⟩
  rwa [hb] at hd

theorem adopt (h : Clear θ B K a t) : Clear θ B K a (b.adopt t).1 := by
  have himage : (b.adopt t).1.image θ = t.image θ := fill_adopt b t
  refine ⟨by rw [b.ids_adopt]; exact h.ids, himage ▸ h.coherent, fun n hn => h.settled n ?_⟩
  exact himage ▸ hn

end Clear

namespace Valuation.Binds

theorem image_eq_shape (h : θ.Binds K) (ht : ∀ id ∈ t.ids, ¬ K id) : t.image θ = t.shape :=
  image_congr fun id hid => h.free id (ht id hid)

theorem after (h : θ.Binds K) (s : Subst) : (θ.after s).Binds (andKeys K s) where
  free id hid := by
    have hK : ¬ K id := fun hK => hid (.inl hK)
    have hs : id ∉ Dict.keys s := fun hs => hid (.inr hs)
    rw [Valuation.after, h.free id hK]
    exact fills_of_not_mem hs
  shape id := by
    rw [Valuation.after, Ty.shape, image_image]
    exact image_congr fun id _ => fill_free_fills s id

end Valuation.Binds

theorem tailsAfter_nil (h : a.Fit θ B) (hb : θ.Binds K) : tailsAfter B [] = B := by
  have hshape (t : Ty) : (t.image θ).image free = t.image θ := by
    rw [image_image]
    exact image_congr fun id _ => hb.shape id
  rw [tailsAfter, ← h.tails, map_map]
  refine map_congr_left fun d _ => ?_
  simp only [Function.comp, mapValues, map_map]
  exact map_congr_left fun f _ => Prod.ext rfl (hshape f.2)

namespace Reached

/-- Nothing was found yet. -/
theorem nil (h : a.Fit θ B) (hb : θ.Binds K) : Reached θ B K a [] where
  binds := hb
  sorted := sorted_nil
  keys k hk := by cases hk
  fit := by
    rw [tailsAfter_nil h hb]
    have hθ : θ.after [] = θ := funext hb.shape
    rwa [hθ]
  clear e he := by cases he

/-- What a variable is bound to. -/
theorem images_cases (h : Reached θ B K a s) (id : String) : s.images id = free id ∨
      ∃ u, get? s id = some u ∧ s.images id = u.image (θ.after s) := by
  cases hget : get? s id with
  | none => exact .inl (fills_of_not_mem (get?_eq_none_iff.1 hget))
  | some u =>
    have hu := h.clear _ (mem_of_get?_eq_some hget)
    refine .inr ⟨u, rfl, ?_⟩
    rw [(h.binds.after s).image_eq_shape hu.ids]
    exact fills_of_get? hget

theorem absorbs (h : Reached θ B K a s) (k : String) (u : Ty) (hu : get? s k = some u) :
    u.image (θ.after s) = θ.after s k := by
  have hmem := mem_of_get?_eq_some hu
  have hk : ¬ K k := h.keys k (Dict.mem_keys_of_mem hmem)
  rw [(h.binds.after s).image_eq_shape (h.clear _ hmem).ids, Valuation.after, h.binds.free k hk]
  exact (fills_of_get? hu).symm

theorem own (h : Reached θ B K a s) : ∀ e ∈ s, e.2.Own fun id => ¬ andKeys K s id :=
  fun e he => own_of_ids (h.clear e he).ids

theorem cleans (h : Reached θ B K a s) :
    Attachments.Cleans (θ.after s) (fun id => ¬ K id) (fun id => ¬ andKeys K s id) s where
  absorbs := h.absorbs
  own := h.own
  weaker _ hid hK := hid (.inl hK)
  cover id hK := by
    by_cases hs : id ∈ Dict.keys s
    · exact .inl hs
    · exact .inr fun h => h.elim hK hs
  free := (h.binds.after s).free

theorem of_rewrites (h : Reached θ B K a s) (hr : a.Rewrites s b) : Reached θ B K b s where
  binds := h.binds
  sorted := h.sorted
  keys := h.keys
  fit := h.fit.of_rewrites hr h.absorbs
  clear e he := (h.clear e he).of_rewrites hr h.own

/-- What is clear at a stage waits for the bindings that were found since then, also if fewer
variables count as bound. -/
theorem waits_of_imp (h : Reached θ B K a s) (hL : ∀ id, L id → K id) (ht : Clear θ B L a t) :
    Clear (θ.after s) (tailsAfter B s) L a t := by
  have himage : t.image (θ.after s) = (t.image θ).image s.images := (image_image ..).symm
  refine ⟨ht.ids, ?_, fun n hn => ?_⟩
  · rw [himage]
    refine ht.coherent.image fun id _ => ?_
    rcases h.images_cases id with heq | ⟨u, hu, heq⟩ <;> rw [heq]
    · exact .var _
    · exact (h.clear _ (mem_of_get?_eq_some hu)).coherent
  · rw [himage] at hn
    rcases hasTail_image hn with hn | ⟨id, _, hn⟩
    · exact ht.settled n hn
    · rcases h.images_cases id with heq | ⟨u, hu, heq⟩ <;> rw [heq] at hn
      · cases hn
      · refine ((h.clear _ (mem_of_get?_eq_some hu)).settled n hn).mono fun id hid hl => ?_
        exact hid (.inl (hL id hl))

theorem waits (h : Reached θ B K a s) (ht : Clear θ B K a t) : Clear (θ.after s) (tailsAfter B s) K a t :=
  h.waits_of_imp (fun _ hK => hK) ht

theorem ready (h : Reached θ B K a s) (ht : Clear (θ.after s) (tailsAfter B s) K a t) :
    Attachments.Ready (θ.after s) (tailsAfter B s) (fun id => ¬ K id) (fun id => ¬ andKeys K s id) s
      a t where
  fit := h.fit
  bound e he := (h.clear e he).settled
  own := own_of_ids ht.ids
  coherent := ht.coherent
  holds := ht.settled

/-- No bound variable is left in a type with the bindings put in. -/
theorem ids_apply (h : Reached θ B K a s) (ht : ∀ id ∈ t.ids, ¬ K id) (c : Attachments) :
    ∀ id ∈ (Subst.apply c s t).ids, ¬ andKeys K s id := by
  intro id hid
  rcases Subst.mem_ids_apply.1 hid with ⟨hnone, hid⟩ | ⟨_, _, u, hu, hid⟩
  · exact fun hK => hK.elim (ht id hid) (get?_eq_none_iff.1 hnone)
  · exact (h.clear _ (mem_of_get?_eq_some hu)).ids id hid

/-- If the tails that a type shows are settled, the type with the bindings put in is clear. -/
theorem clear_apply (h : Reached θ B K a s) (ht : Clear (θ.after s) (tailsAfter B s) K b t)
    (hsettled : a.Settled (θ.after s) (fun id => ¬ andKeys K s id) t) (c : Attachments) :
    Clear (θ.after s) (tailsAfter B s) (andKeys K s) a (apply c s t) := by
  have himage := image_apply h.absorbs c t
  exact ⟨h.ids_apply ht.ids c, himage ▸ ht.coherent, fun n hn => hsettled n (himage ▸ hn)⟩

/-- To apply the bindings to a type leaves none of the bound variables there. -/
theorem pair (h : Reached θ B K a s) (ht : Clear (θ.after s) (tailsAfter B s) K a t)
    (c : Attachments) : Reached θ B K (a.revise s t) s ∧
      Clear (θ.after s) (tailsAfter B s) (andKeys K s) (a.revise s t) (apply c s t) := by
  have hnew := h.of_rewrites (a.rewrites_revise t)
  exact ⟨hnew, hnew.clear_apply ht (settled_revise h.cleans (h.ready ht)) c⟩

/-! ## Composition -/

theorem after_extend (θ : Valuation) (keep : Bool) (c : Attachments) (hs : Dict.Sorted s) :
    θ.after (c.extend keep r s).1 = (θ.after s).after r := by
  funext id
  rw [Valuation.after, Valuation.after, Valuation.after, image_image]
  exact image_congr fun id _ => fills_extend hs id

theorem tailsAfter_extend (B : List (Dict Ty)) (keep : Bool) (c : Attachments) (hs : Dict.Sorted s) :
    tailsAfter B (c.extend keep r s).1 =
        tailsAfter (tailsAfter B s) r := by
  rw [tailsAfter, tailsAfter, tailsAfter, map_map]
  refine map_congr_left fun d _ => ?_
  simp only [Function.comp, mapValues, map_map]
  refine map_congr_left fun f _ => Prod.ext rfl ?_
  exact (image_congr fun id _ => fills_extend hs id).trans (image_image ..).symm

theorem andKeys_extend (K : String → Prop) (keep : Bool) (c : Attachments) :
    andKeys K (c.extend keep r s).1 = andKeys (andKeys K s) r := by
  funext k
  simp only [andKeys, mem_keys_extend, or_assoc]

theorem after_adoptIf (θ : Valuation) (keep : Bool) (c : Attachments) (s : Subst) :
    θ.after (c.adoptIf keep s).1 = θ.after s := by
  funext id
  exact congrArg (image · (θ id)) (fills_adoptIf true keep c s)

theorem tailsAfter_adoptIf (B : List (Dict Ty)) (keep : Bool) (c : Attachments) (s : Subst) :
    tailsAfter B (c.adoptIf keep s).1 = tailsAfter B s :=
  congrArg (fun ρ => B.map (mapValues (image ρ))) (fills_adoptIf true keep c s)

theorem andKeys_adoptIf (K : String → Prop) (keep : Bool) (c : Attachments) (s : Subst) :
    andKeys K (c.adoptIf keep s).1 = andKeys K s := by
  funext k
  rw [andKeys, c.keys_adoptIf, andKeys]

theorem adoptIf (h : Reached θ B K a s) (keep : Bool) (c : Attachments) :
    Reached θ B K a (c.adoptIf keep s).1 := by
  refine ⟨h.binds, sorted_adoptIf keep c h.sorted, ?_, ?_, ?_⟩
  · rw [c.keys_adoptIf]
    exact h.keys
  · rw [after_adoptIf, tailsAfter_adoptIf]
    exact h.fit
  · rw [after_adoptIf, tailsAfter_adoptIf, andKeys_adoptIf]
    exact forall_adoptIf (fun _ _ => Clear.adopt) h.clear

/-- When bindings are applied to types one after another, the tails of all are settled. -/
theorem settled_foldl (h : Reached θ B K a s) (hts : ∀ t ∈ ts, Clear (θ.after s) (tailsAfter B s) K a t) :
    ∀ t ∈ ts, (ts.foldl (fun a t => a.revise s t) a).Settled (θ.after s) (fun id => ¬ andKeys K s id) t := by
  refine Attachments.settled_foldl id h.own (fun b t _ => b.rewrites_revise t) ?_
  intro b hb t ht
  exact settled_revise h.cleans ((h.ready (hts t ht)).of_rewrites h.cleans hb)

/-- What is found next is composed with what was found before, and applied to it. -/
theorem next (h : Reached θ B K a s) (hr : Reached (θ.after s) (tailsAfter B s) (andKeys K s) b r)
    (hs : ∀ e ∈ s, Clear (θ.after s) (tailsAfter B s) (andKeys K s) b e.2) (keep : Bool) (c : Attachments) :
    Reached θ B K ((s.map Prod.snd).foldl (fun a t => a.revise (c.adoptIf keep r).1 t) b)
      (c.extend keep r s).1 := by
  have hnew := hr.adoptIf keep c
  have hwait : ∀ t ∈ s.map Prod.snd, Clear ((θ.after s).after (c.adoptIf keep r).1)
      (tailsAfter (tailsAfter B s) (c.adoptIf keep r).1) (andKeys K s) b t := by
    exact forall_mem_map.2 fun e he => hnew.waits (hs e he)
  have hsettled := hnew.settled_foldl hwait
  have hdone := hnew.of_rewrites (rewrites_foldl (l := s.map Prod.snd)
    (fun b t _ => b.rewrites_revise t) b)
  have hclear : ∀ e ∈ Subst.compose (c.adoptIf keep r).2 (c.adoptIf keep r).1 s,
      Clear ((θ.after s).after (c.adoptIf keep r).1)
        (tailsAfter (tailsAfter B s) (c.adoptIf keep r).1)
        (andKeys (andKeys K s) (c.adoptIf keep r).1)
        ((s.map Prod.snd).foldl (fun a t => a.revise (c.adoptIf keep r).1 t) b) e.2 := by
    intro e he
    rcases Subst.mem_compose he with ⟨x, hx, heq⟩ | he
    · have hmem : x.2 ∈ s.map Prod.snd := mem_map_of_mem hx
      rw [heq]
      exact hdone.clear_apply (hwait _ hmem) (hsettled _ hmem) _
    · exact hdone.clear e he
  have hfit := hdone.fit
  rw [after_adoptIf, tailsAfter_adoptIf, andKeys_adoptIf] at hclear
  rw [after_adoptIf, tailsAfter_adoptIf] at hfit
  refine ⟨h.binds, ?_, fun k hk => ?_, ?_, ?_⟩
  · exact sorted_extend keep c hr.sorted h.sorted
  · rw [mem_keys_extend] at hk
    exact hk.elim (h.keys k) fun hk hK => hr.keys k hk (.inl hK)
  · rw [after_extend θ keep c h.sorted, tailsAfter_extend B keep c h.sorted]
    exact hfit
  · rw [after_extend θ keep c h.sorted, tailsAfter_extend B keep c h.sorted, andKeys_extend]
    exact forall_adoptIf (fun _ _ => Clear.adopt) hclear

end Reached

/-! ## One binding -/

/-- Tails fit after bindings whose types fit. -/
theorem Attachments.Fit.after (h : a.Fit θ B)
    (hs : ∀ id, (s.images id).Coherent (tailsAfter B s)) : a.Fit (θ.after s) (tailsAfter B s) := by
  refine ⟨?_, fun d' hd' f' hf' => ?_⟩
  · rw [tailsAfter, ← h.tails, map_map]
    refine map_congr_left fun d _ => ?_
    simp only [Function.comp, mapValues, map_map]
    exact map_congr_left fun f _ => Prod.ext rfl (image_image ..).symm
  · obtain ⟨d, hd, rfl⟩ := mem_map.1 hd'
    obtain ⟨f, hf, rfl⟩ := mem_map.1 hf'
    exact (h.coherent d hd f hf).image fun id _ => hs id

/-- The variables of the tails that a clear type shows are variables of the type. -/
theorem Clear.settled_ids (h : Clear θ B K a t) (hfit : a.Fit θ B) (hb : θ.Binds K) :
    a.Settled θ (fun id => id ∈ t.ids) t := by
  intro n hn d hd f hf
  have hget : B[n]? = some (mapValues (image θ) d) := by rw [hfit.getElem?, hd]; rfl
  have hmem : (f.1, f.2.image θ) ∈ mapValues (image θ) d := mem_map.2 ⟨f, hf, rfl⟩
  refine (h.settled n hn d hd f hf).and_ids.mono fun id hid => ?_
  have himage : id ∈ (f.2.image θ).ids := by
    refine mem_ids_fill.2 ⟨id, hid.2, ?_⟩
    rw [hb.free id hid.1]
    simp
  have hshape := mem_ids_of_tail h.coherent hn hget hmem himage
  rw [hb.image_eq_shape h.ids] at hshape
  obtain ⟨v, hv, hid⟩ := mem_ids_fill.1 hshape
  rw [ids_free, mem_singleton] at hid
  exact hid ▸ hv

/-- One variable is bound to a type in which it does not occur. -/
theorem Reached.single {id : String} (hfit : a.Fit θ B) (hb : θ.Binds K) (hid : ¬ K id)
    (ht : Clear θ B K a t) (hocc : id ∉ t.ids) : Reached θ B K a [(id, t)] := by
  have himages (id' : String) : images [(id, t)] id' = if id = id' then t.shape else free id' := by
    simp only [images, fills, get?_cons]
    split <;> rfl
  have hfix : t.shape.image (images [(id, t)]) = t.shape := by
    rw [Ty.shape, image_image]
    refine image_congr fun id' hid' => ?_
    show images [(id, t)] id' = free id'
    rw [himages, if_neg]
    rintro rfl
    exact hocc hid'
  have hshape : t.shape.Coherent (tailsAfter B [(id, t)]) := by
    rw [← hfix]
    rw [← hb.image_eq_shape ht.ids]
    refine ht.coherent.image fun id' hid' => ?_
    rw [himages]
    split
    next heq =>
      subst heq
      rw [hb.image_eq_shape ht.ids] at hid'
      obtain ⟨v, hv, hv'⟩ := mem_ids_fill.1 hid'
      rw [ids_free, mem_singleton] at hv'
      exact absurd (hv' ▸ hv) hocc
    next => exact .var _
  have hids : ∀ id' ∈ t.ids, ¬ andKeys K [(id, t)] id' := by
    rintro id' hid' (hK | hmem)
    · exact ht.ids id' hid' hK
    · have heq : id' = id := by simpa [Dict.keys] using hmem
      exact hocc (heq ▸ hid')
  have himage : t.image (θ.after [(id, t)]) = t.shape := (hb.after _).image_eq_shape hids
  refine ⟨hb, sorted_singleton id t, by simpa [Dict.keys] using hid, ?_, ?_⟩
  · refine hfit.after fun id' => ?_
    rw [himages]
    split
    · exact hshape
    · exact .var _
  · intro e he
    rw [mem_singleton] at he
    subst he
    refine ⟨hids, himage ▸ hshape, fun n hn => ?_⟩
    rw [himage, ← hb.image_eq_shape ht.ids] at hn
    exact (ht.settled_ids hfit hb n hn).mono hids

/-! ## What runs apply -/

namespace Attachments

theorem replay_append (a : Attachments) (xs ys : List Application) :
    a.replay (xs ++ ys) = (a.replay xs).replay ys :=
  foldl_append

/-- To do the applications of a substitution is to apply it to each type. -/
theorem replay_applications (h : b.tails.isEmpty = a.tails.isEmpty) (s : Subst) (ts : List Ty) :
    a.replay (b.applications s ts) = ts.foldl (fun a t => a.revise s t) a := by
  unfold applications
  rw [h]
  split
  next hempty =>
    have hsame (t : Ty) : a.revise s t = a := if_pos hempty
    show a = _
    induction ts with
    | nil => rfl
    | cons t ts ih => rwa [foldl_cons, hsame]
  next => rw [replay, foldl_map]

theorem mem_applications {x : Application} (h : x ∈ a.applications s ts) : x.1 = s ∧ x.2 ∈ ts := by
  unfold applications at h
  split at h
  · cases h
  · obtain ⟨t, ht, rfl⟩ := mem_map.1 h
    exact ⟨rfl, ht⟩

theorem length_rewrites (h : a.Rewrites s b) : b.tails.length = a.tails.length := by
  induction h with
  | refl => rfl
  | step _ n ih => simpa [rewriteTail] using ih

theorem length_replay (a : Attachments) (done : List Application) :
    (a.replay done).tails.length = a.tails.length := by
  induction done generalizing a with
  | nil => rfl
  | cons d ds ih => exact (ih _).trans (length_rewrites (a.rewrites_revise d.2))

theorem isEmpty_of_length (h : b.tails.length = a.tails.length) : b.tails.isEmpty = a.tails.isEmpty := by
  cases ha : a.tails <;> cases hb : b.tails <;> simp_all

/-- A tail holds what it held, if all that is applied holds it. -/
theorem Holds.replay {P : String → Prop} {done : List Application} (h : a.Holds P n)
    (hdone : ∀ x ∈ done, ∀ e ∈ x.1, e.2.Own P) : (a.replay done).Holds P n := by
  induction done generalizing a with
  | nil => exact h
  | cons x done ih =>
    exact ih (h.of_rewrites (a.rewrites_revise x.2) (hdone x mem_cons_self))
      fun y hy => hdone y (mem_cons_of_mem _ hy)

end Attachments

theorem Clear.replay {done : List Attachments.Application} (h : Clear θ B K a t)
    (hdone : ∀ x ∈ done, ∀ e ∈ x.1, ∀ id ∈ e.2.ids, ¬ K id) : Clear θ B K (a.replay done) t :=
  ⟨h.ids, h.coherent, fun n hn => (h.settled n hn).replay fun x hx e he =>
    own_of_ids (hdone x hx e he)⟩

namespace Unify

variable {reg : Registry} {keep : Bool} {fs : List (String × Ty)} {y : Ty}

/-- Where attachments are such that `A`, what is so of types passes to what is below them, to what comes
from them by substitution, and, if `keep` is set, to copies with cells. What is so of attachments stays
when cells are made and when variables share their classes. -/
structure Stable (keep : Bool) (A : Attachments → Prop) (P : Ty → Prop) : Prop where
  child : ∀ t x, P t → x.Child t → P x
  apply : ∀ c s t, A c → P t → (∀ e ∈ s, P e.2) → P (apply c s t)
  adopt : keep = true → ∀ c t, A c → P t → P (adopt c t).1 ∧ A (adopt c t).2
  share : ∀ c v w, A c → P (.var v) → P (.var w) → A (share c v w)

theorem stable_ids (Q : String → Prop) : Stable keep (fun _ => True) fun t => ∀ id ∈ t.ids, Q id where
  child t x ht hx := by
    intro id hid
    cases t with
    | missing => cases hx
    | var v => cases hx
    | con name args l => exact ht id (mem_ids_con.2 ⟨x, hx, hid⟩)
    | record name fields l =>
      obtain ⟨k, hk⟩ := hx
      exact ht id (mem_ids_record.2 ⟨_, hk, hid⟩)
  apply c s t _ ht hs := by
    intro id hid
    rcases mem_ids_apply.1 hid with ⟨_, hid⟩ | ⟨_, _, u, hu, hid⟩
    · exact ht id hid
    · exact hs _ (mem_of_get?_eq_some hu) id hid
  adopt _ c t _ ht := ⟨by rwa [c.ids_adopt], trivial⟩
  share _ _ _ _ _ _ := trivial

theorem stable_proper : Stable keep (fun _ => True) Ty.Proper where
  child _ _ := Proper.child
  apply _ _ _ _ ht hs := proper_apply hs ht
  adopt _ c t _ ht := ⟨proper_of_bare (by rwa [c.bare_adopt, proper_bare]), trivial⟩
  share _ _ _ _ _ _ := trivial

theorem stable_plain : Stable keep (fun _ => True) Ty.Plain where
  child _ _ := Plain.child
  apply _ _ _ _ ht hs := plain_apply hs ht
  adopt _ c t _ ht := ⟨plain_of_bare (by rwa [c.bare_adopt, plain_bare]), trivial⟩
  share _ _ _ _ _ _ := trivial

theorem stable_tails (a : Attachments) : Stable keep (fun b => b.tails = a.tails) fun _ => True where
  child _ _ _ _ := trivial
  apply _ _ _ _ _ _ := trivial
  adopt _ c t hc _ := ⟨trivial, (c.tails_adopt t).trans hc⟩
  share _ _ _ hc _ _ := hc

variable {A : Attachments → Prop} {P : Ty → Prop}

variable {d : Attachments} {q : Subst} {done : List Attachments.Application}

theorem Stable.adoptFields (hP : Stable true A P) (hd : A d) (h : ∀ f ∈ fs, P f.2) :
    (∀ f ∈ (d.adoptFields fs).1, P f.2) ∧ A (d.adoptFields fs).2 := by
  induction fs generalizing d with
  | nil => exact ⟨by simp [adoptFields], hd⟩
  | cons f fs ih =>
    obtain ⟨hf, hfs⟩ := forall_mem_cons.1 h
    obtain ⟨ht, hnext⟩ := hP.adopt rfl d f.2 hd hf
    obtain ⟨hrest, hlast⟩ := ih hnext hfs
    exact ⟨forall_mem_cons.2 ⟨ht, hrest⟩, hlast⟩

theorem Stable.adoptIf (hP : Stable keep A P) (hd : A d) (h : ∀ f ∈ fs, P f.2) :
    (∀ f ∈ (d.adoptIf keep fs).1, P f.2) ∧ A (d.adoptIf keep fs).2 := by
  cases keep with
  | false => exact ⟨h, hd⟩
  | true => exact hP.adoptFields hd h

/-- What is bound next, and what that is composed with. -/
theorem Stable.next (hP : Stable keep A P) (hd : A d) (hs : ∀ e ∈ s, P e.2) (hr : ∀ e ∈ r, P e.2) :
    (∀ e ∈ (d.adoptIf keep r).1, P e.2) ∧ (∀ e ∈ (d.extend keep r s).1, P e.2) ∧
      A (d.extend keep r s).2 := by
  obtain ⟨hnew, hmid⟩ := hP.adoptIf hd hr
  refine ⟨hnew, hP.adoptIf hmid fun e he => ?_⟩
  rcases mem_compose he with ⟨x, hx, heq⟩ | he
  · rw [heq]
    exact hP.apply _ _ _ hmid (hs x hx) hnew
  · exact hnew e he

/-- All types of what a course applied or found are such that `P`, and the attachments such that `A`. -/
structure Course.Over (A : Attachments → Prop) (P : Ty → Prop) (c : Course Subst) : Prop where
  done : ∀ x ∈ c.done, P x.2 ∧ ∀ e ∈ x.1, P e.2
  found : ∀ s, c.result = .ok s → ∀ e ∈ s, P e.2
  attachments : A c.attachments

theorem Course.done_guard (c : Course Subst) (fault : Option UnifyError) : (c.guard fault).done = c.done := by
  unfold guard
  split <;> rfl

theorem over_bindChecked {v : Var} (ha : A a) (hc : t.Compound) (ht : P t) :
    Course.Over A P ⟨a, bindChecked reg b v t, []⟩ := by
  refine ⟨by simp, fun s hs => ?_, ha⟩
  obtain ⟨rfl, -⟩ := bindChecked_eq_ok hc hs
  simpa using ht

theorem over_applications (hs : ∀ e ∈ s, P e.2) (hts : ∀ t ∈ ts, P t) :
    ∀ x ∈ a.applications s ts, P x.2 ∧ ∀ e ∈ x.1, P e.2 := by
  intro x hx
  obtain ⟨h1, h2⟩ := mem_applications hx
  exact ⟨hts _ h2, h1 ▸ hs⟩

/-- All types of what is applied for a pair, and behind it, are such that `P`. -/
theorem Course.Over.applied (hP : Stable keep A P) (h : Course.Over A P ⟨d, .ok q, done⟩) (hs : ∀ e ∈ s, P e.2)
    (hx : P x) (hy : P y) : ∀ z ∈ b.applications s [x, y] ++ done ++
      d.applications (d.adoptIf keep q).1 (s.map Prod.snd), P z.2 ∧ ∀ e ∈ z.1, P e.2 := by
  intro z hz
  rcases mem_append.1 hz with hz | hz
  · rcases mem_append.1 hz with hz | hz
    · exact over_applications hs (by simp [hx, hy]) z hz
    · exact h.done z hz
  · refine over_applications (hP.next h.attachments hs (h.found q rfl)).1 (fun t ht => ?_) z hz
    obtain ⟨e, he, rfl⟩ := mem_map.1 ht
    exact hs e he

mutual

/-- What unification applies and finds comes from the two types. -/
theorem Run.over (hP : Stable keep A P) : ∀ {a : Attachments} {t u : Ty} {c : Course Subst},
    Run reg keep a t u c → A a → P t → P u → c.Over A P
  | _, _, _, _, .missingLeft _ _, ha, _, _ => ⟨by simp, by rintro _ ⟨⟩; simp, ha⟩
  | _, _, _, _, .missingRight _ _, ha, _, _ => ⟨by simp, by rintro _ ⟨⟩; simp, ha⟩
  | _, _, _, _, .same _ _, ha, _, _ => ⟨by simp, by rintro _ ⟨⟩; simp, ha⟩
  | _, _, _, _, .vars (v := v) (w := w) _ _, ha, ht, hu => by
    refine ⟨by simp, ?_, hP.share _ v w ha ht hu⟩
    rintro _ ⟨⟩
    rcases bindVars_cases v w with h | h <;> rw [h] <;> simpa
  | _, _, _, _, .left _ _ hc, ha, _, hu => over_bindChecked ha hc hu
  | _, _, _, _, .right _ _ hc, ha, ht, _ => over_bindChecked ha hc ht
  | _, t, u, _, .parts (c := c) _ _ h, ha, ht, hu => by
    obtain ⟨hdone, hfound, hlast⟩ := RunEach.over hP h ha (by simp)
      (fun p hp => forall_parts hP.child ht hu hp)
    exact ⟨by rwa [c.done_guard], fun s hs => hfound s (Course.guard_eq_ok hs).1,
      by rwa [c.attachments_guard]⟩

theorem RunEach.over (hP : Stable keep A P) : ∀ {a : Attachments} {s : Subst}
    {ps : List (Ty × Ty)} {c : Course Subst}, RunEach reg keep a s ps c → A a → (∀ e ∈ s, P e.2) →
    (∀ p ∈ ps, P p.1 ∧ P p.2) → c.Over A P
  | _, _, _, _, .nil _ _, ha, hs, _ => ⟨by simp, by rintro _ ⟨⟩; exact hs, ha⟩
  | a, s, p :: _, _, .fail h, ha, hs, hps => by
    obtain ⟨hp1, hp2⟩ := hps p mem_cons_self
    obtain ⟨hdone, -, hlast⟩ := Run.over hP h ha (hP.apply a s _ ha hp1 hs)
      (hP.apply a s _ ha hp2 hs)
    refine ⟨fun x hx => ?_, by simp, hlast⟩
    rcases mem_append.1 hx with hx | hx
    · exact over_applications hs (by simp [hp1, hp2]) x hx
    · exact hdone x hx
  | a, s, p :: ps, _, .next (b := b) (r := r) h hrest, ha, hs, hps => by
    obtain ⟨hp1, hp2⟩ := hps p mem_cons_self
    obtain ⟨hdone, hfound, hb⟩ := Run.over hP h ha (hP.apply a s _ ha hp1 hs)
      (hP.apply a s _ ha hp2 hs)
    obtain ⟨-, hall, hmid⟩ := hP.next hb hs (hfound r rfl)
    obtain ⟨hdone', hfound', hlast⟩ := RunEach.over hP hrest hmid hall
      (fun q hq => hps q (mem_cons_of_mem _ hq))
    refine ⟨fun x hx => ?_, hfound', hlast⟩
    rcases mem_append.1 hx with hx | hx
    · exact Course.Over.applied hP ⟨hdone, hfound, hb⟩ hs hp1 hp2 x hx
    · exact hdone' x hx

end

/-! ## Two runs side by side -/

/-- How two runs are alike: in attachments, in the pairs that are unified, in bindings and errors, and in what is
applied on the way. -/
structure Likeness where
  attachments : Attachments → Attachments → Prop
  pair : Ty × Ty → Ty × Ty → Prop
  subst : Subst → Subst → Prop
  error : UnifyError → UnifyError → Prop
  done : List Attachments.Application → List Attachments.Application → Prop

namespace Likeness

variable {K : Likeness}

inductive Found (K : Likeness) : Except UnifyError Subst → Except UnifyError Subst → Prop
  | ok {s s'} (h : K.subst s s') : Found K (.ok s) (.ok s')
  | error {e e'} (h : K.error e e') : Found K (.error e) (.error e')

structure Courses (K : Likeness) (c d : Course Subst) : Prop where
  attachments : K.attachments c.attachments d.attachments
  result : K.Found c.result d.result
  done : K.done c.done d.done

theorem Courses.guard {c d : Course Subst} {f g : Option UnifyError} (h : K.Courses c d)
    (hfault : Option.Rel K.error f g) : K.Courses (c.guard f) (d.guard g) := by
  obtain ⟨a, result, done⟩ := c
  obtain ⟨b, result', done'⟩ := d
  obtain ⟨hab, hresult, hdone⟩ := h
  cases hresult with
  | error h => cases hfault <;> exact ⟨hab, .error h, hdone⟩
  | ok h =>
    cases hfault with
    | none => exact ⟨hab, .ok h, hdone⟩
    | some h => exact ⟨hab, .error h, hdone⟩

/-- Runs on types such that `P` stay alike, one step after another. -/
structure Kept (K : Likeness) (reg : Registry) (keep : Bool) (P : Ty → Prop) : Prop where
  nil : K.subst [] []
  none : K.done [] []
  append {xs ys zs ws} : K.done xs ys → K.done zs ws → K.done (xs ++ zs) (ys ++ ws)
  /-- Two types of which one is a variable or missing. -/
  base {a b t u q c d} : K.attachments a b → K.pair (t, u) q → P t → P u → ¬ (t.Compound ∧ u.Compound) →
    Run reg keep a t u c → Run reg keep b q.1 q.2 d → K.Courses c d
  parts {t u q} : K.pair (t, u) q → P t → P u → t.Compound → u.Compound → q.1.Compound ∧ q.2.Compound ∧
    List.Forall₂ K.pair (parts t u).pairs (Unify.parts q.1 q.2).pairs ∧
    Option.Rel K.error (Unify.parts t u).fault (Unify.parts q.1 q.2).fault
  apply {a b s s' p q} : K.attachments a b → K.subst s s' → K.pair p q → P p.1 → P p.2 →
    K.pair (apply a s p.1, Subst.apply a s p.2) (Subst.apply b s' q.1, Subst.apply b s' q.2) ∧
    K.done (a.applications s [p.1, p.2]) (b.applications s' [q.1, q.2])
  extend {a b s s' r r'} : K.attachments a b → K.subst s s' → K.subst r r' → (∀ e ∈ s, P e.2) →
    K.subst (a.extend keep r s).1 (b.extend keep r' s').1 ∧
    K.attachments (a.extend keep r s).2 (b.extend keep r' s').2 ∧
    K.done (a.applications (a.adoptIf keep r).1 (s.map Prod.snd))
      (b.applications (b.adoptIf keep r').1 (s'.map Prod.snd))

end Likeness

mutual

theorem Run.alike {K : Likeness} (hK : K.Kept reg keep P) (hP : Stable keep A P) : ∀ {a b : Attachments} {t u : Ty}
    {q : Ty × Ty} {c d : Course Subst}, Run reg keep a t u c → Run reg keep b q.1 q.2 d → K.attachments a b →
    K.pair (t, u) q → A a → P t → P u → K.Courses c d
  | _, _, _, _, _, _, _, .missingLeft _ _, h', hab, hq, _, ht, hu =>
    hK.base hab hq ht hu (fun h => h.1.1 rfl) (.missingLeft ..) h'
  | _, _, _, _, _, _, _, .missingRight _ _, h', hab, hq, _, ht, hu =>
    hK.base hab hq ht hu (fun h => h.2.1 rfl) (.missingRight ..) h'
  | _, _, _, _, _, _, _, .same _ h, h', hab, hq, _, ht, hu =>
    hK.base hab hq ht hu (fun h => h.1.2 _ rfl) (.same _ h) h'
  | _, _, _, _, _, _, _, .vars _ h, h', hab, hq, _, ht, hu =>
    hK.base hab hq ht hu (fun h => h.1.2 _ rfl) (.vars _ h) h'
  | _, _, _, _, _, _, _, .left _ _ h, h', hab, hq, _, ht, hu =>
    hK.base hab hq ht hu (fun h => h.1.2 _ rfl) (.left _ _ h) h'
  | _, _, _, _, _, _, _, .right _ _ h, h', hab, hq, _, ht, hu =>
    hK.base hab hq ht hu (fun h => h.2.2 _ rfl) (.right _ _ h) h'
  | _, _, _, _, _, _, _, .parts hct hcu h, h', hab, hq, ha, ht, hu => by
    obtain ⟨hq1, hq2, hpairs, hfault⟩ := hK.parts hq ht hu hct hcu
    obtain ⟨e, heach, rfl⟩ := h'.of_parts hq1 hq2
    exact (RunEach.alike hK hP h heach hab hK.nil hpairs ha (by simp)
      fun p hp => forall_parts hP.child ht hu hp).guard hfault

theorem RunEach.alike {K : Likeness} (hK : K.Kept reg keep P) (hP : Stable keep A P) : ∀ {a b : Attachments}
    {s s' : Subst} {ps qs : List (Ty × Ty)} {c d : Course Subst}, RunEach reg keep a s ps c →
    RunEach reg keep b s' qs d → K.attachments a b → K.subst s s' → List.Forall₂ K.pair ps qs → A a →
    (∀ e ∈ s, P e.2) → (∀ p ∈ ps, P p.1 ∧ P p.2) → K.Courses c d
  | _, _, _, _, _, _, _, _, .nil _ _, h', hab, hs, .nil, _, _, _ => by
    rw [h'.of_nil]
    exact ⟨hab, .ok hs, hK.none⟩
  | a, _, s, _, p :: _, _, _, _, .fail h, h', hab, hs, .cons hpq _, ha, hall, hps => by
    obtain ⟨hp1, hp2⟩ := hps p mem_cons_self
    obtain ⟨hpair, hdone⟩ := hK.apply hab hs hpq hp1 hp2
    obtain ⟨d, hrun, hcases⟩ := h'.of_cons
    obtain ⟨hlast, hresult, hmore⟩ := Run.alike hK hP h hrun hab hpair ha (hP.apply a s _ ha hp1 hall)
      (hP.apply a s _ ha hp2 hall)
    rcases hcases with ⟨e, he, rfl⟩ | ⟨r, rest, hr, -, -⟩
    · exact ⟨hlast, he ▸ hresult, hK.append hdone hmore⟩
    · rw [hr] at hresult
      cases hresult
  | a, _, s, _, p :: _, _, _, _, .next (r := r) h hrest, h', hab, hs, .cons hpq hqs, ha, hall, hps => by
    obtain ⟨hp1, hp2⟩ := hps p mem_cons_self
    have hap1 := hP.apply a s _ ha hp1 hall
    have hap2 := hP.apply a s _ ha hp2 hall
    obtain ⟨hpair, hdone⟩ := hK.apply hab hs hpq hp1 hp2
    obtain ⟨d, hrun, hcases⟩ := h'.of_cons
    obtain ⟨hmid, hresult, hmore⟩ := Run.alike hK hP h hrun hab hpair ha hap1 hap2
    rcases hcases with ⟨e, he, -⟩ | ⟨r', rest, hr, hrest', rfl⟩
    · rw [he] at hresult
      cases hresult
    · rw [hr] at hresult
      cases hresult with
      | ok hrr =>
        have hover := Run.over hP h ha hap1 hap2
        obtain ⟨-, hall', ha'⟩ := hP.next hover.attachments hall (hover.found r rfl)
        obtain ⟨hsub, hnext, hbound⟩ := hK.extend hmid hs hrr hall
        obtain ⟨hlast, hresult, hlater⟩ := RunEach.alike hK hP hrest hrest' hnext hsub hqs ha' hall'
          fun x hx => hps x (mem_cons_of_mem _ hx)
        exact ⟨hlast, hresult, hK.append (hK.append (hK.append hdone hmore) hbound) hlater⟩

end

/-! ## What runs reach -/

theorem Run.tails {u : Ty} {c : Course Subst} (h : Run reg keep a t u c) : c.attachments.tails = a.tails :=
  (Run.over (stable_tails a) h rfl trivial trivial).attachments

/-- The bindings are applied to the pair that is unified next. -/
theorem reached_pair (h : Reached θ B K a s) (hx : Clear (θ.after s) (tailsAfter B s) K a x)
    (hy : Clear (θ.after s) (tailsAfter B s) K a y) (hempty : b.tails.isEmpty = a.tails.isEmpty) :
    Reached θ B K (a.replay (b.applications s [x, y])) s ∧
      Clear (θ.after s) (tailsAfter B s) (andKeys K s) (a.replay (b.applications s [x, y])) (apply b s x) ∧
      Clear (θ.after s) (tailsAfter B s) (andKeys K s) (a.replay (b.applications s [x, y]))
        (apply b s y) := by
  obtain ⟨hleft, hclear1⟩ := h.pair hx b
  have hK : ∀ e ∈ s, e.2.Own fun id => ¬ K id := fun e he => (h.own e he).mono h.cleans.weaker
  obtain ⟨hboth, hclear2⟩ := hleft.pair (hy.of_rewrites (a.rewrites_revise x) hK) b
  rw [replay_applications hempty]
  exact ⟨hboth, hclear1.of_rewrites (rewrites_revise _ y) h.own, hclear2⟩

/-- What is found for the next pair is composed with the bindings. -/
theorem reached_step (h : Reached θ B K a s) (hx : Clear (θ.after s) (tailsAfter B s) K a x)
    (hy : Clear (θ.after s) (tailsAfter B s) K a y) (hempty : b.tails.isEmpty = a.tails.isEmpty)
    (hrun : Run reg keep b (apply b s x) (apply b s y) ⟨d, .ok q, done⟩)
    (hfound : Reached (θ.after s) (tailsAfter B s) (andKeys K s)
      ((a.replay (b.applications s [x, y])).replay done) q) :
    Reached θ B K (a.replay (b.applications s [x, y] ++ done ++
        d.applications (d.adoptIf keep q).1 (s.map Prod.snd))) (d.extend keep q s).1 := by
  obtain ⟨hboth, hcx, hcy⟩ := reached_pair h hx hy hempty
  have hover := Run.over (stable_ids _) hrun trivial hcx.ids hcy.ids
  have hempty' : d.tails.isEmpty =
      ((a.replay (b.applications s [x, y])).replay done).tails.isEmpty := by
    rw [show d.tails = b.tails from Run.tails hrun, hempty]
    refine (isEmpty_of_length ?_).symm
    rw [length_replay, length_replay]
  rw [replay_append, replay_append, replay_applications hempty']
  exact h.next hfound (fun e he => (hboth.clear e he).replay fun x hx => (hover.done x hx).2) keep d

/-- The bindings are applied to the first of some pairs. -/
theorem reached_first (h : Reached θ B K a s) (hx : Clear θ B K a x) (hy : Clear θ B K a y)
    (hempty : b.tails.isEmpty = a.tails.isEmpty) : Reached θ B K (a.replay (b.applications s [x, y])) s ∧
      Clear (θ.after s) (tailsAfter B s) (andKeys K s) (a.replay (b.applications s [x, y])) (apply b s x) ∧
      Clear (θ.after s) (tailsAfter B s) (andKeys K s) (a.replay (b.applications s [x, y]))
        (apply b s y) ∧ b.tails.isEmpty = (a.replay (b.applications s [x, y])).tails.isEmpty := by
  obtain ⟨hboth, hcx, hcy⟩ := reached_pair h (h.waits hx) (h.waits hy) hempty
  exact ⟨hboth, hcx, hcy, hempty.trans (isEmpty_of_length (a.length_replay _)).symm⟩

/-- What is found for the first of some pairs is composed with the bindings, and the others stay clear. -/
theorem reached_rest (h : Reached θ B K a s) (hx : Clear θ B K a x) (hy : Clear θ B K a y)
    (hempty : b.tails.isEmpty = a.tails.isEmpty)
    (hrun : Run reg keep b (apply b s x) (apply b s y) ⟨d, .ok q, done⟩)
    (hfound : Reached (θ.after s) (tailsAfter B s) (andKeys K s)
      ((a.replay (b.applications s [x, y])).replay done) q) {all : List Attachments.Application}
    (hall : all = b.applications s [x, y] ++ done ++
        d.applications (d.adoptIf keep q).1 (s.map Prod.snd)) :
    Reached θ B K (a.replay all) (d.extend keep q s).1 ∧ (∀ z, Clear θ B K a z → Clear θ B K (a.replay all) z) ∧
      (d.extend keep q s).2.tails.isEmpty = (a.replay all).tails.isEmpty := by
  have hids : ∀ e ∈ s, ∀ id ∈ e.2.ids, ¬ K id := fun e he id hid hK => (h.clear e he).ids id hid (.inl hK)
  have hstable : Stable keep (fun _ => True) fun t => ∀ id ∈ t.ids, ¬ K id := stable_ids _
  have hover := Run.over hstable hrun trivial (hstable.apply b s x trivial hx.ids hids)
    (hstable.apply b s y trivial hy.ids hids)
  refine ⟨hall ▸ reached_step h (h.waits hx) (h.waits hy) hempty hrun hfound, fun z hz => hz.replay fun x hx' => ?_, ?_⟩
  · rw [hall] at hx'
    exact (hover.applied hstable hids hx.ids hy.ids x hx').2
  · rw [tails_extend, show d.tails = b.tails from Run.tails hrun, hempty]
    exact (isEmpty_of_length (a.length_replay _)).symm

mutual

/-- The bindings that unification finds are applied as they should. -/
theorem Run.reached : ∀ {a b : Attachments} {t u : Ty} {c : Course Subst} {θ : Valuation}
    {B : List (Dict Ty)} {K : String → Prop}, Run reg keep b t u c → a.Fit θ B → θ.Binds K →
    Clear θ B K a t → Clear θ B K a u → b.tails.isEmpty = a.tails.isEmpty →
    ∀ {s : Subst}, c.result = .ok s → Reached θ B K (a.replay c.done) s
  | _, _, _, _, _, _, _, _, .missingLeft _ _, hfit, hb, _, _, _, _, hs => by
    cases hs
    exact .nil hfit hb
  | _, _, _, _, _, _, _, _, .missingRight _ _, hfit, hb, _, _, _, _, hs => by
    cases hs
    exact .nil hfit hb
  | _, _, _, _, _, _, _, _, .same _ _, hfit, hb, _, _, _, _, hs => by
    cases hs
    exact .nil hfit hb
  | _, _, _, _, _, _, _, _, .vars (v := v) (w := w) _ hne, hfit, hb, hct, hcu, _, _, hs => by
    cases hs
    rcases bindVars_cases v w with heq | heq <;> rw [heq]
    · exact .single hfit hb (hcu.ids _ (by simp)) hct (by simpa using Ne.symm hne)
    · exact .single hfit hb (hct.ids _ (by simp)) hcu (by simpa using hne)
  | _, _, _, _, _, _, _, _, .left _ v hc, hfit, hb, hct, hcu, _, _, hs => by
    obtain ⟨rfl, hocc⟩ := bindChecked_eq_ok hc hs
    exact .single hfit hb (hct.ids _ (by simp)) hcu hocc
  | _, _, _, _, _, _, _, _, .right _ w hc, hfit, hb, hct, hcu, _, _, hs => by
    obtain ⟨rfl, hocc⟩ := bindChecked_eq_ok hc hs
    exact .single hfit hb (hcu.ids _ (by simp)) hct hocc
  | _, _, _, _, _, _, _, _, .parts (c := c) _ _ h, hfit, hb, hct, hcu, hempty, _, hs => by
    rw [c.done_guard]
    exact RunEach.reached h (.nil hfit hb) (fun p hp => forall_parts (fun _ _ => Clear.child) hct hcu hp)
      hempty (Course.guard_eq_ok hs).1

theorem RunEach.reached : ∀ {a b : Attachments} {s : Subst} {ps : List (Ty × Ty)} {c : Course Subst}
    {θ : Valuation} {B : List (Dict Ty)} {K : String → Prop}, RunEach reg keep b s ps c →
    Reached θ B K a s → (∀ p ∈ ps, Clear θ B K a p.1 ∧ Clear θ B K a p.2) →
    b.tails.isEmpty = a.tails.isEmpty → ∀ {r : Subst}, c.result = .ok r → Reached θ B K (a.replay c.done) r
  | _, _, _, _, _, _, _, _, .nil _ _, hs, _, _, _, hr => by
    cases hr
    exact hs
  | _, _, _, _, _, _, _, _, .fail _, _, _, _, _, hr => by cases hr
  | a, b, s, p :: ps, _, θ, B, K, .next (b := d) (r := q) (c := c) h hrest, hs, hclear, hempty, r, hr => by
    obtain ⟨hc1, hc2⟩ := hclear p mem_cons_self
    obtain ⟨hboth, hcx, hcy, hempty1⟩ := reached_first hs hc1 hc2 hempty
    have hfound := Run.reached h hboth.fit (hs.binds.after s) hcx hcy hempty1 rfl
    obtain ⟨hnext, hstays, hempty2⟩ := reached_rest hs hc1 hc2 hempty h hfound rfl
    rw [replay_append]
    exact RunEach.reached hrest hnext (fun z hz => (hclear z (mem_cons_of_mem _ hz)).imp (hstays _) (hstays _))
      hempty2 hr

end

end Unify

end ScriptTyping
