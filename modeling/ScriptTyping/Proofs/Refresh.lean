import ScriptTyping.Proofs.Replay

/-!
# Tails brought up to date

An equation that fails has bound variables on the way, and what was written into tails stays there
after these bindings were given up. From then on trees that show such a tail as it was before are
simply out of date, and no valuation makes them agree with it. But nothing depends on them: whatever
is done next starts from types as they are now.

**Cores.** `Ty.core` is a type without what is in the tails of its records. To read a type and to apply
a substitution to it depend on cores only. So attachments whose tails have the same cores are
`Attachments.Alike`: substitutions do the same to both, and types look the same in both.

**Refreshing.** `Attachments.refresh` brings all tails up to date. If some attachments that are alike
fit at all, the refreshed ones fit with no variable bound (`Alike.coherent_refresh`), and a type as it
is now shows each tail as it is there (`Alike.clear_current`). So one can start anew.
-/

namespace ScriptTyping

open Attachments List Dict

namespace Ty

/-! ## Cores -/

/-- A type without what is in the tails of its records. -/
def cut (t : Ty) : Ty := renewWith (fun _ => some []) t

/-- The structure of a type without what is in the tails of its records. -/
def core (t : Ty) : Ty := t.shape.cut

theorem cut_con (name : String) (args : List Ty) (l : Label) :
    (con name args l).cut = con name (args.map cut) l :=
  renewWith_con name args l

theorem cut_record (name : String) (fields : List (String × Ty)) (l : Label) :
    (record name fields l).cut = record name (mapValues cut (ownFields fields l)) l := by
  unfold ownFields
  cases hl : l.tail with
  | none => exact renewWith_record name fields hl
  | some t =>
    refine (renewWith_record_of_tail name fields hl rfl).trans ?_
    rw [append_nil]
    rfl

/-- The tails are left out before or after types are put in. -/
theorem cut_image (σ : Valuation) (t : Ty) : (t.image σ).cut = t.cut.image fun id => (σ id).cut := by
  induction t with
  | missing => rfl
  | var v => rfl
  | con name args l ih =>
    rw [image_con, cut_con, cut_con, image_con, map_map, map_map]
    congr 1
    exact map_congr_left ih
  | record name fields l ih =>
    have hown := ownFields_mapValues (image σ) fields (l := l) (k := l.trace true) rfl
    rw [image_record, cut_record, cut_record, image_record, hown]
    simp only [mapValues, map_map]
    congr 1
    exact map_congr_left fun f hf => Prod.ext rfl (ih f (mem_of_mem_ownFields hf))

theorem core_eq (t : Ty) : t.core = t.cut.shape := cut_image free t

@[simp] theorem core_var (v : Var) : (var v).core = free v.id := rfl

theorem core_con (name : String) (args : List Ty) (l : Label) :
    (con name args l).core = con name (args.map core) (l.trace true) := by
  rw [core, shape, image_con, cut_con, map_map]
  rfl

theorem core_record (name : String) (fields : List (String × Ty)) (l : Label) : (record name fields l).core =
      record name (mapValues core (ownFields fields l)) (l.trace true) := by
  rw [core_eq, cut_record, shape, image_record]
  simp only [mapValues, map_map]
  congr 1
  exact map_congr_left fun f _ => Prod.ext rfl (core_eq f.2).symm

/-- The core depends on the structure only. -/
theorem core_of_shape {t u : Ty} (h : t.shape = u.shape) : t.core = u.core := by
  rw [core, h, core]

theorem core_substitute (a : Attachments) (s : Subst) (t : Ty) :
    (t.substitute a s).core = t.core.image fun id => (s.images id).cut := by
  have hshape : (t.substitute a s).shape = t.image s.images := fill_substitute a s t
  rw [core, hshape, cut_image, core_eq, shape, image_image]
  rfl

/-- The tails that a core shows are shown by the type. -/
theorem hasTail_of_core {θ : Valuation} {t : Ty} {n : Nat} (h : t.core.HasTail n) :
    (t.image θ).HasTail n := by
  induction t with
  | missing => cases h
  | var v => cases h
  | con name args l ih =>
    rw [core_con] at h
    rw [image_con]
    cases h with
    | con hmem hn =>
      obtain ⟨t, ht, rfl⟩ := mem_map.1 hmem
      exact .con (mem_map_of_mem ht) (ih t ht hn)
  | record name fields l ih =>
    rw [core_record] at h
    rw [image_record]
    cases h with
    | here htail hnum => exact .here htail hnum
    | record hmem hn =>
      obtain ⟨f, hf, rfl⟩ := mem_map.1 hmem
      have hf := mem_of_mem_ownFields hf
      exact .record (mem_map.2 ⟨f, hf, rfl⟩) (ih f hf hn)

theorem ownFields_ownFields (fields : List (String × Ty)) (l : Label) :
    ownFields (ownFields fields l) l = ownFields fields l := by
  unfold ownFields
  split
  · rfl
  · rw [take_take, Nat.min_self]

/-- The own fields of the core of a record. -/
theorem ownFields_core (fields : List (String × Ty)) (l : Label) :
    ownFields (mapValues core (ownFields fields l)) (l.trace true) =
      mapValues core (ownFields fields l) := by
  rw [ownFields_mapValues core (ownFields fields l) (l := l) (k := l.trace true) rfl,
    ownFields_ownFields]

end Ty

open Ty

/-- Entries that agree in one way agree in another, if that is so for each type. -/
theorem mapValues_eq_of {α β γ : Type} {p : α → β} {q r : α → γ} {d e : Dict α}
    (h : mapValues p d = mapValues p e)
    (hq : ∀ x ∈ d, ∀ y ∈ e, p x.2 = p y.2 → q x.2 = r y.2) : mapValues q d = mapValues r e := by
  induction d generalizing e with
  | nil =>
    cases e with
    | nil => rfl
    | cons y e => cases h
  | cons x d ih =>
    cases e with
    | nil => cases h
    | cons y e =>
      obtain ⟨hhead, htail⟩ := List.cons.inj h
      obtain ⟨hkey, hvalue⟩ := Prod.mk.inj hhead
      have hnew := hq x mem_cons_self y mem_cons_self hvalue
      have hrest := ih htail fun x hx y hy =>
        hq x (mem_cons_of_mem _ hx) y (mem_cons_of_mem _ hy)
      show (x.1, q x.2) :: mapValues q d = (y.1, r y.2) :: mapValues r e
      rw [hkey, hnew, hrest]

namespace Attachments

variable {θ : Valuation} {B : List (Dict Ty)} {a b c : Attachments} {s : Subst} {t u : Ty}

/-! ## Attachments that are alike -/

/-- The tails have the same cores. -/
def Alike (a b : Attachments) : Prop :=
  a.tails.map (mapValues core) = b.tails.map (mapValues core)

theorem alike_of_tails (h : a.tails = b.tails) : Alike a b := by
  rw [Alike, h]

namespace Alike

theorem trans (h : Alike a b) (h' : Alike b c) : Alike a c := Eq.trans h h'

theorem length (h : Alike a b) : a.tails.length = b.tails.length := by
  simpa using congrArg List.length h

theorem getElem? (h : Alike a b) (n : Nat) :
    (a.tails[n]?).map (mapValues core) = (b.tails[n]?).map (mapValues core) := by
  rw [← getElem?_map, ← getElem?_map, h]

/-- A tail of one is a tail of the other, with the same cores. -/
theorem exists_tail (h : Alike a b) {n : Nat} {d : Dict Ty} (hd : b.tails[n]? = some d) :
    ∃ e, a.tails[n]? = some e ∧ mapValues core e = mapValues core d := by
  have hn := h.getElem? n
  rw [hd, Option.map_some, Option.map_eq_some_iff] at hn
  exact hn

theorem rewriteTail (h : Alike a b) (s : Subst) (n : Nat) :
    Alike (a.rewriteTail s n) (b.rewriteTail s n) := by
  refine ext_getElem? fun m => ?_
  simp only [getElem?_map, getElem?_rewriteTail]
  have hm := h.getElem? m
  cases ha : a.tails[m]? with
  | none =>
    rw [ha] at hm
    cases hb : b.tails[m]? with
    | none => rfl
    | some e =>
      rw [hb] at hm
      cases hm
  | some d =>
    rw [ha] at hm
    cases hb : b.tails[m]? with
    | none =>
      rw [hb] at hm
      cases hm
    | some e =>
      rw [hb] at hm
      have hde : mapValues core d = mapValues core e := Option.some.inj hm
      simp only [Option.map_some, Option.some.injEq]
      split
      · simp only [mapValues, map_map]
        refine mapValues_eq_of (q := core ∘ Ty.substitute a s) (r := core ∘ Ty.substitute b s)
          hde fun x _ y _ hxy => ?_
        simp only [Function.comp, core_substitute, hxy]
      · exact hde

end Alike

section

variable {inside : Attachments → Ty → Attachments}

/-- What a substitution does to tails depends on the core. -/
theorem reviseWith_core (a : Attachments) (t : Ty) :
    reviseWith inside s a t.core = reviseWith inside s a t := by
  induction t generalizing a with
  | missing => rfl
  | var v => rfl
  | con name args l ih =>
    rw [core_con, reviseWith, reviseWith, reviseAll_eq_foldl, reviseAll_eq_foldl, foldl_map]
    exact foldl_rel (r := Eq) rfl fun t ht b c hbc => by rw [hbc, ih t ht c]
  | record name fields l ih =>
    have hown (a : Attachments) : (mapValues core (ownFields fields l)).foldl
        (fun a f => reviseWith inside s a f.2) a =
          (ownFields fields l).foldl (fun a f => reviseWith inside s a f.2) a := by
      rw [mapValues, foldl_map]
      exact foldl_rel (r := Eq) rfl fun f hf b c hbc => by
        rw [hbc, ih f (mem_of_mem_ownFields hf) c]
    rw [core_record, reviseWith_record, reviseWith_record, ownFields_core, hown]
    rfl

theorem Alike.reviseWith (hin : ∀ a b x, Alike a b → Alike (inside a x) (inside b x))
    (hcore : ∀ a x, inside a (core x) = inside a x) (h : Alike a b) (t : Ty) :
    Alike (reviseWith inside s a t) (reviseWith inside s b t) := by
  induction t generalizing a b with
  | missing => exact h
  | var v => exact h
  | con name args l ih =>
    rw [reviseWith, reviseWith, reviseAll_eq_foldl, reviseAll_eq_foldl]
    exact foldl_rel h fun t ht a b hab => ih t ht hab
  | record name fields l ih =>
    rw [reviseWith_record, reviseWith_record]
    have hown : Alike ((ownFields fields l).foldl (fun a f => reviseWith inside s a f.2) a)
        ((ownFields fields l).foldl (fun a f => reviseWith inside s a f.2) b) :=
      foldl_rel h fun f hf a b hab => ih f (mem_of_mem_ownFields hf) hab
    generalize (ownFields fields l).foldl (fun a f => reviseWith inside s a f.2) a = a₁
      at hown ⊢
    generalize (ownFields fields l).foldl (fun a f => reviseWith inside s a f.2) b = b₁
      at hown ⊢
    cases hl : l.tail with
    | none => exact hown
    | some tail =>
      -- What is inside the tail counts by its cores only, and these are the same.
      have hcores (c : Attachments) (d : Dict Ty) : d.foldl (fun c f => inside c f.2) c =
          (mapValues core d).foldl (fun c f => inside c f.2) c := by
        rw [mapValues, foldl_map]
        exact foldl_rel (r := Eq) rfl fun f _ c e hce => by rw [hce, hcore e f.2]
      have hsame : mapValues core ((a₁.tails[tail.number]?).getD []) =
          mapValues core ((b₁.tails[tail.number]?).getD []) := by
        have hn := hown.getElem? tail.number
        cases ha : a₁.tails[tail.number]? <;> cases hb : b₁.tails[tail.number]? <;> simp_all
      show Alike (Attachments.rewriteTail (((a₁.tails[tail.number]?).getD []).foldl _ a₁) s _)
        (Attachments.rewriteTail (((b₁.tails[tail.number]?).getD []).foldl _ b₁) s _)
      rw [hcores a₁, hcores b₁, hsame]
      exact (foldl_rel hown fun f _ a b hab => hin a b f.2 hab).rewriteTail s tail.number

end

theorem reviseDepth_core (s : Subst) (depth : Nat) (a : Attachments) (t : Ty) :
    reviseDepth s depth a t.core = reviseDepth s depth a t := by
  cases depth with
  | zero => rfl
  | succ depth => exact reviseWith_core a t

namespace Alike

theorem reviseDepth (h : Alike a b) (s : Subst) (depth : Nat) (t : Ty) :
    Alike (reviseDepth s depth a t) (reviseDepth s depth b t) := by
  induction depth generalizing a b t with
  | zero => exact h
  | succ depth ih =>
    exact .reviseWith (fun a b x hab => ih hab x) (fun a x => reviseDepth_core s depth a x) h t

theorem isEmpty (h : Alike a b) : a.tails.isEmpty = b.tails.isEmpty := isEmpty_of_length h.length

/-- The application of a substitution does the same to tails that are alike. -/
theorem revise (h : Alike a b) (s : Subst) (t : Ty) : Alike (a.revise s t) (b.revise s t) := by
  unfold Attachments.revise
  rw [h.isEmpty, h.length]
  split
  · exact h
  · exact h.reviseDepth s _ t

theorem replay (h : Alike a b) (done : List Application) : Alike (a.replay done) (b.replay done) :=
  foldl_rel h fun x _ _ _ hab => hab.revise x.1 x.2

end Alike

/-! ## What types show -/

section

variable {f g : Nat → Option (Dict Ty)}

theorem renewWith_none (t : Ty) : renewWith (fun _ => none) t = t := by
  have hid (fs : List (String × Ty)) (h : ∀ f ∈ fs, renewWith (fun _ => none) f.2 = f.2) :
      mapValues (renewWith fun _ => none) fs = fs := by
    refine (map_congr_left fun f hf => ?_).trans (map_id _)
    exact Prod.ext rfl (h f hf)
  induction t with
  | missing => rfl
  | var v => rfl
  | con name args l ih =>
    rw [renewWith_con]
    congr 1
    exact (map_congr_left ih).trans (map_id _)
  | record name fields l ih =>
    have hnone : (l.tail.bind fun t : Tail => (none : Option (Dict Ty)).map fun rest => (t.own, rest)) =
        none := by
      cases l.tail <;> rfl
    rw [renewWith]
    simp only [hnone, renewFields_eq_mapValues, take_length, hid fields ih]

/-- A type as it is now is the type with tails that are brought up to date deep enough. -/
theorem current_eq_renewWith (a : Attachments) (t : Ty) :
    a.current t = renewWith (a.tailAt? a.tails.length) t := by
  unfold current
  split
  next hempty =>
    have hnone : a.tailAt? a.tails.length = fun _ => none := by
      funext n
      rw [List.isEmpty_iff.1 hempty]
      simp [tailAt?, List.isEmpty_iff.1 hempty]
    rw [hnone, renewWith_none]
  next => rfl

theorem renewWith_congr (h : ∀ n, t.HasTail n → f n = g n) : renewWith f t = renewWith g t := by
  induction t with
  | missing => rfl
  | var v => rfl
  | con name args l ih =>
    rw [renewWith_con, renewWith_con]
    congr 1
    exact map_congr_left fun t ht => ih t ht fun n hn => h n (.con ht hn)
  | record name fields l ih =>
    have hfields (fs : List (String × Ty)) (hsub : ∀ x ∈ fs, x ∈ fields) :
        mapValues (renewWith f) fs = mapValues (renewWith g) fs :=
      map_congr_left fun x hx =>
        Prod.ext rfl (ih x (hsub x hx) fun n hn => h n (.record (hsub x hx) hn))
    cases hl : l.tail with
    | none => rw [renewWith_record name fields hl, renewWith_record name fields hl,
        hfields fields fun _ h => h]
    | some tail =>
      have htail := h tail.number (.here hl rfl)
      rw [renewWith, renewWith, hl]
      simp only [Option.bind_some, htail]
      split
      · rw [renewFields_eq_mapValues, renewFields_eq_mapValues, take_length,
          hfields fields fun _ h => h]
      · rw [renewFields_eq_mapValues, renewFields_eq_mapValues,
          hfields _ fun _ h => mem_of_mem_take h]

/-- What a type shows with some tails depends on its core. -/
theorem shape_renewWith (h : ∀ n, t.core.HasTail n → (f n).isSome = true) :
    (renewWith f t).shape = renewWith (fun n => (f n).map (mapValues shape)) t.core := by
  induction t with
  | missing => rfl
  | var v => rfl
  | con name args l ih =>
    rw [core_con] at h ⊢
    rw [renewWith_con, renewWith_con, shape, image_con, map_map, map_map]
    congr 1
    exact map_congr_left fun t ht => ih t ht fun n hn => h n (.con (mem_map_of_mem ht) hn)
  | record name fields l ih =>
    rw [core_record] at h ⊢
    have hown : mapValues shape (mapValues (renewWith f) (ownFields fields l)) =
        mapValues (renewWith fun n => (f n).map (mapValues shape))
          (mapValues core (ownFields fields l)) := by
      simp only [mapValues, map_map]
      refine map_congr_left fun x hx => Prod.ext rfl ?_
      exact ih x (mem_of_mem_ownFields hx) fun n hn => h n (.record (mem_map.2 ⟨x, hx, rfl⟩) hn)
    cases hl : l.tail with
    | none =>
      have hl' : (l.trace true).tail = none := hl
      have hall : ownFields fields l = fields := by rw [ownFields, hl]
      rw [hall] at hown ⊢
      rw [renewWith_record name fields hl, renewWith_record name _ hl', shape, image_record]
      exact congrArg (Ty.record name · _) hown
    | some tail =>
      have hl' : (l.trace true).tail = some tail := hl
      obtain ⟨rest, hrest⟩ := Option.isSome_iff_exists.1 (h tail.number (.here hl rfl))
      have hrest' : (f tail.number).map (mapValues shape) = some (mapValues shape rest) := by
        rw [hrest, Option.map_some]
      have htake : (mapValues core (ownFields fields l)).take tail.own =
          mapValues core (ownFields fields l) := by
        have := ownFields_core fields l
        rwa [ownFields, hl'] at this
      have hfields : fields.take tail.own = ownFields fields l := by rw [ownFields, hl]
      rw [renewWith_record_of_tail name fields hl hrest, renewWith_record_of_tail name _ hl' hrest',
        shape, image_record, htake, hfields, ← hown]
      congr 1
      exact map_append

/-- The own fields of a record come before its tail, also when the tail is brought up to date. -/
theorem length_tail {θ : Valuation} {fields : List (String × Ty)} {own : Nat} {rest : Dict Ty}
    (h : mapValues (image θ) rest = (mapValues (image θ) fields).drop own) (ρ : Ty → Ty) :
    (mapValues ρ (fields.take own) ++ rest).take own = mapValues ρ (fields.take own) ∧
      (mapValues ρ (fields.take own) ++ rest).drop own = rest := by
  have hlen : rest.length = fields.length - own := by
    simpa [mapValues] using congrArg List.length h
  have htake : (mapValues ρ (fields.take own)).length = min own fields.length := by
    simp [mapValues]
  by_cases hown : own ≤ fields.length
  · rw [Nat.min_eq_left hown] at htake
    exact ⟨take_left' htake, drop_left' htake⟩
  · obtain rfl : rest = [] := length_eq_zero_iff.1 (by omega)
    rw [append_nil]
    exact ⟨take_of_length_le (by omega), drop_of_length_le (by omega)⟩

/-- To bring tails up to date leaves the core as it is. -/
theorem core_renewWith (hB : ∀ n, B[n]? = (f n).map (mapValues (image θ)))
    (ht : (t.image θ).Coherent B) : (renewWith f t).core = t.core := by
  induction t with
  | missing => rfl
  | var v => rfl
  | con name args l ih =>
    rw [image_con] at ht
    cases ht with
    | con ht =>
      rw [renewWith_con, core_con, core_con, map_map]
      congr 1
      exact map_congr_left fun t hmem => ih t hmem (ht _ (mem_map_of_mem hmem))
  | record name fields l ih =>
    rw [image_record] at ht
    cases ht with
    | record ht htail =>
      have hfields : mapValues core (mapValues (renewWith f) (ownFields fields l)) =
          mapValues core (ownFields fields l) := by
        simp only [mapValues, map_map]
        refine map_congr_left fun x hx => Prod.ext rfl (ih x (mem_of_mem_ownFields hx) ?_)
        exact ht (x.1, x.2.image θ) (mem_map.2 ⟨x, mem_of_mem_ownFields hx, rfl⟩)
      cases hl : l.tail with
      | none =>
        rw [renewWith_record name fields hl, core_record, core_record, ← hfields,
          ← ownFields_mapValues (renewWith f) fields rfl]
      | some tail =>
        have hnum := htail tail hl
        rw [hB, Option.map_eq_some_iff] at hnum
        obtain ⟨rest, hrest, himage⟩ := hnum
        have htake := (length_tail himage (renewWith f)).1
        rw [renewWith_record_of_tail name fields hl hrest, core_record, core_record, ← hfields]
        simp only [ownFields, hl, htake]

end

/-- Tails that are brought up to date deep enough show the same, also where they are alike only. -/
theorem Alike.shape_tailAt? (hab : Alike a b) (hfit : Fit θ B b) (depth : Nat) {depth' : Nat}
    (hcore : t.core = u.core) (hu : (u.image θ).Coherent B) (hrank : rank B (u.image θ).size ≤ depth)
    (hrank' : rank B (u.image θ).size ≤ depth') :
    (renewWith (a.tailAt? depth) t).shape = (renewWith (b.tailAt? depth') u).shape := by
  induction depth generalizing depth' t u with
  | zero =>
    -- There is no room for a tail.
    have hnone (n : Nat) : ¬ u.core.HasTail n := by
      intro hn
      obtain ⟨e, he, hlt⟩ := exists_of_hasTail hu (hasTail_of_core hn)
      have := rank_lt (mem_of_getElem? he) hlt
      omega
    rw [shape_renewWith fun n hn => absurd (hcore ▸ hn) (hnone n),
      shape_renewWith fun n hn => absurd hn (hnone n), hcore]
    exact renewWith_congr fun n hn => absurd hn (hnone n)
  | succ depth ih =>
    have htails (n : Nat) (hn : u.core.HasTail n) : ∃ d e, a.tailAt? (depth + 1) n = some d ∧
        b.tailAt? depth' n = some e ∧ mapValues shape d = mapValues shape e := by
      obtain ⟨e, he, hfields⟩ := hfit.of_hasTail hu (hasTail_of_core hn)
      obtain ⟨d, hd, hde⟩ := hab.exists_tail he
      obtain ⟨x, hx, hlt⟩ := exists_of_hasTail hu (hasTail_of_core hn)
      have hpos := rank_lt (mem_of_getElem? hx) hlt
      obtain ⟨depth', rfl⟩ : ∃ k, depth' = k + 1 := ⟨depth' - 1, by omega⟩
      refine ⟨_, _, by rw [tailAt?, hd, Option.map_some], by rw [tailAt?, he, Option.map_some], ?_⟩
      simp only [mapValues, map_map]
      refine mapValues_eq_of (q := shape ∘ renewWith (a.tailAt? depth))
        (r := shape ∘ renewWith (b.tailAt? depth')) hde fun x _ y hy hxy => ?_
      obtain ⟨hco, -, hless⟩ := hfields y hy
      exact ih hxy hco (by omega) (by omega)
    rw [shape_renewWith, shape_renewWith, hcore]
    · refine renewWith_congr fun n hn => ?_
      obtain ⟨d, e, hd, he, hde⟩ := htails n hn
      rw [hd, he, Option.map_some, Option.map_some, hde]
    · intro n hn
      obtain ⟨d, e, -, he, -⟩ := htails n hn
      rw [he]
      rfl
    · intro n hn
      obtain ⟨d, e, hd, -, -⟩ := htails n (hcore ▸ hn)
      rw [hd]
      rfl

/-- A type looks the same now where tails are alike. -/
theorem Alike.shape_current (hab : Alike a b) (hfit : Fit θ B b) (hcore : t.core = u.core)
    (hu : (u.image θ).Coherent B) : (a.current t).shape = (b.current u).shape := by
  have hlen : B.length = b.tails.length := by rw [← hfit.tails, length_map]
  rw [current_eq_renewWith, current_eq_renewWith, hab.length]
  exact hab.shape_tailAt? hfit _ hcore hu (hlen ▸ rank_le_length B _) (hlen ▸ rank_le_length B _)

theorem Fit.core_current (h : Fit θ B a) (ht : (t.image θ).Coherent B) : (a.current t).core = t.core := by
  rw [current_eq_renewWith]
  exact core_renewWith (h.tailAt? _) ht

/-! ## Refreshing -/

/-- All tails brought up to date. -/
def refresh (a : Attachments) : Attachments :=
  { a with tails := a.tails.map (mapValues a.current) }

theorem getElem?_tailShapes_refresh (a : Attachments) (n : Nat) :
    a.refresh.tailShapes[n]? = (a.tails[n]?).map (mapValues (shape ∘ a.current)) := by
  rw [tailShapes, refresh, map_map, getElem?_map]
  refine Option.map_congr fun d _ => ?_
  simp [mapValues, Function.comp_def]

/-- What is in a tail that fits shows tails as they should be. -/
theorem Fit.coherent_tail (h : Fit θ B a) {d : Dict Ty} (hd : d ∈ a.tails) {f : String × Ty}
    (hf : f ∈ d) : (f.2.image θ).Coherent B := by
  obtain ⟨n, hn⟩ := mem_iff_getElem?.1 hd
  exact h.coherent _ (h.mem hn) (f.1, f.2.image θ) (mem_map.2 ⟨f, hf, rfl⟩)

theorem Fit.alike_refresh (h : Fit θ B a) : Alike a a.refresh := by
  rw [Alike, refresh, map_map]
  refine map_congr_left fun d hd => ?_
  simp only [Function.comp, mapValues, map_map]
  exact map_congr_left fun f hf => Prod.ext rfl (h.core_current (h.coherent_tail hd hf)).symm

/-- Where tails are alike, they look the same when refreshed. -/
theorem Alike.tailShapes_refresh (hab : Alike a b) (hfit : Fit θ B b) :
    a.refresh.tailShapes = b.refresh.tailShapes := by
  refine ext_getElem? fun n => ?_
  rw [getElem?_tailShapes_refresh, getElem?_tailShapes_refresh]
  cases hb : b.tails[n]? with
  | none =>
    have hn := hab.getElem? n
    rw [hb, Option.map_none, Option.map_eq_none_iff] at hn
    rw [hn, Option.map_none, Option.map_none]
  | some d =>
    obtain ⟨e, he, hed⟩ := hab.exists_tail hb
    rw [he, Option.map_some, Option.map_some]
    congr 1
    refine mapValues_eq_of hed fun x _ y hy hxy => ?_
    exact hab.shape_current hfit hxy (hfit.coherent_tail (mem_of_getElem? hb) hy)

theorem alike_of_tailShapes (h : a.tailShapes = b.tailShapes) : Alike a b := by
  have hcores (c : Attachments) :
      c.tails.map (mapValues core) = c.tailShapes.map (mapValues cut) := by
    rw [tailShapes, map_map]
    refine map_congr_left fun d _ => ?_
    simp only [Function.comp, mapValues, map_map]
    rfl
  rw [Alike, hcores, hcores, h]

theorem Alike.alike_refresh (hab : Alike a b) (hfit : Fit θ B b) : Alike a a.refresh :=
  (hab.trans hfit.alike_refresh).trans (alike_of_tailShapes (hab.tailShapes_refresh hfit).symm)

/-- A type shows each tail as it should if the tails that it is given do. -/
theorem coherent_renewWith {C : List (Dict Ty)} {f : Nat → Option (Dict Ty)} (ht : (t.image θ).Coherent B)
    (hf : ∀ n, (t.image θ).HasTail n → ∃ rest, f n = some rest ∧
      B[n]? = some (mapValues (image θ) rest) ∧ C[n]? = some (mapValues shape rest) ∧
      ∀ x ∈ rest, x.2.shape.Coherent C) :
    (renewWith f t).shape.Coherent C := by
  induction t with
  | missing => exact .missing
  | var v => exact .var _
  | con name args l ih =>
    rw [image_con] at ht hf
    rw [renewWith_con, shape, image_con, map_map]
    cases ht with
    | con ht =>
      refine .con fun u hu => ?_
      obtain ⟨x, hx, rfl⟩ := mem_map.1 hu
      have hmem : x.image θ ∈ args.map (image θ) := mem_map_of_mem hx
      exact ih x hx (ht _ hmem) fun n hn => hf n (.con hmem hn)
  | record name fields l ih =>
    rw [image_record] at ht hf
    cases ht with
    | record ht htail =>
      have hfield (x) (hx : x ∈ fields) : (renewWith f x.2).shape.Coherent C := by
        have hmem : (x.1, x.2.image θ) ∈ mapValues (image θ) fields := mem_map.2 ⟨x, hx, rfl⟩
        exact ih x hx (ht _ hmem) fun n hn => hf n (.record hmem hn)
      cases hl : l.tail with
      | none =>
        rw [renewWith_record name fields hl, shape, image_record]
        refine .record (fun g hg => ?_) fun tail htail => ?_
        · simp only [mapValues, map_map] at hg
          obtain ⟨x, hx, rfl⟩ := mem_map.1 hg
          exact hfield x hx
        · exact absurd (htail.symm.trans hl) (by simp)
      | some tail =>
        obtain ⟨rest, hrest, hB, hC, hall⟩ := hf tail.number (.here hl rfl)
        have himage : mapValues (image θ) rest = (mapValues (image θ) fields).drop tail.own :=
          Option.some.inj (hB.symm.trans (htail tail hl))
        rw [renewWith_record_of_tail name fields hl hrest, shape, image_record]
        refine .record (fun g hg => ?_) fun tail' htail' => ?_
        · obtain ⟨x, hx, rfl⟩ := mem_map.1 hg
          rcases mem_append.1 hx with hx | hx
          · obtain ⟨y, hy, rfl⟩ := mem_map.1 hx
            exact hfield y (mem_of_mem_take hy)
          · exact hall x hx
        · obtain rfl : tail = tail' := Option.some.inj (hl.symm.trans htail')
          rw [hC, mapValues, mapValues, ← map_drop]
          exact congrArg (fun fs => some (List.map _ fs)) (length_tail himage (renewWith f)).2.symm

/-- A type with tails that are brought up to date deep enough shows each tail as it is when refreshed. -/
theorem Fit.coherent_tailAt? (h : Fit θ B a) (depth : Nat) (ht : (t.image θ).Coherent B)
    (hrank : rank B (t.image θ).size ≤ depth) :
    (renewWith (a.tailAt? depth) t).shape.Coherent a.refresh.tailShapes := by
  have hlen : B.length = a.tails.length := by rw [← h.tails, length_map]
  induction depth generalizing t with
  | zero =>
    refine coherent_renewWith ht fun n hn => ?_
    obtain ⟨e, he, hlt⟩ := exists_of_hasTail ht hn
    have := rank_lt (mem_of_getElem? he) hlt
    omega
  | succ depth ih =>
    refine coherent_renewWith ht fun n hn => ?_
    obtain ⟨d, hd, hfields⟩ := h.of_hasTail ht hn
    have htail : a.tailAt? (depth + 1) n = some (mapValues (renewWith (a.tailAt? depth)) d) := by
      rw [Attachments.tailAt?, hd, Option.map_some]
    refine ⟨_, htail, ?_, ?_, fun x hx => ?_⟩
    · rw [h.tailAt? (depth + 1) n, htail, Option.map_some]
    · rw [getElem?_tailShapes_refresh, hd, Option.map_some]
      simp only [mapValues, map_map, Option.some.injEq]
      refine map_congr_left fun f hf => Prod.ext rfl ?_
      obtain ⟨hco, -, hlt⟩ := hfields f hf
      have halike : Alike a a := rfl
      show (a.current f.2).shape = (renewWith (a.tailAt? depth) f.2).shape
      rw [current_eq_renewWith]
      exact halike.shape_tailAt? h _ rfl hco (hlen ▸ rank_le_length B _) (by omega)
    · obtain ⟨f, hf, rfl⟩ := mem_map.1 hx
      obtain ⟨hco, -, hlt⟩ := hfields f hf
      exact ih hco (by omega)

/-- A type as it is now shows each tail as it is when refreshed. -/
theorem Fit.coherent_current (h : Fit θ B a) (ht : (t.image θ).Coherent B) :
    (a.current t).shape.Coherent a.refresh.tailShapes := by
  have hlen : B.length = a.tails.length := by rw [← h.tails, length_map]
  rw [current_eq_renewWith]
  exact h.coherent_tailAt? _ ht (hlen ▸ rank_le_length B _)

/-- If tails are like some that fit, they fit when refreshed, with no variable bound. -/
theorem Alike.coherent_refresh (hab : Alike a b) (hfit : Fit θ B b) : a.refresh.Coherent := by
  unfold Coherent
  rw [hab.tailShapes_refresh hfit]
  intro d hd f hf
  obtain ⟨e, he, rfl⟩ := mem_map.1 hd
  obtain ⟨g, hg, rfl⟩ := mem_map.1 hf
  obtain ⟨old, hold, rfl⟩ := mem_map.1 he
  obtain ⟨x, hx, rfl⟩ := mem_map.1 hg
  exact hfit.coherent_current (hfit.coherent_tail hold hx)

end Attachments

/-! ## Starting anew -/

variable {θ : Valuation} {B : List (Dict Ty)} {K : String → Prop} {a b : Attachments} {s : Subst}
  {t u : Ty}

/-- While no variable is bound, the variables of a type are all that is to be looked at. -/
theorem clear_free (hids : ∀ id ∈ t.ids, ¬ K id) (hco : t.shape.Coherent a.tailShapes) :
    Clear free a.tailShapes K a t := by
  refine ⟨hids, hco, fun n hn d hd f hf => own_of_ids fun id hid => ?_⟩
  have hget : a.tailShapes[n]? = some (mapValues shape d) := by
    rw [tailShapes, getElem?_map, hd, Option.map_some]
  have hmem : (f.1, f.2.shape) ∈ mapValues shape d := mem_map.2 ⟨f, hf, rfl⟩
  exact hids id (mem_ids_shape.1 (mem_ids_of_tail hco hn hget hmem (mem_ids_shape.2 hid)))

/-- Of a type that is clear somewhere, no variable that counts as bound is left now. -/
theorem Attachments.Alike.ids_current (hab : Alike a b) (hfit : Fit θ B b) (hcore : t.core = u.core)
    (hu : Clear θ B K b u) : ∀ id ∈ (a.current t).ids, ¬ K id := by
  intro id hid
  have hshape := hab.shape_current hfit hcore hu.coherent
  rw [← mem_ids_shape, hshape, mem_ids_shape] at hid
  exact hfit.ids_current (own_of_ids hu.ids) hu.coherent hu.settled id hid

/-- A type that is clear somewhere is clear now, with no variable bound. -/
theorem Attachments.Alike.clear_current (hab : Alike a b) (hfit : Fit θ B b)
    (hcore : t.core = u.core) (hu : Clear θ B K b u) :
    Clear free a.refresh.tailShapes K a.refresh (a.current t) := by
  refine clear_free (hab.ids_current hfit hcore hu) ?_
  rw [hab.shape_current hfit hcore hu.coherent, hab.tailShapes_refresh hfit]
  exact hfit.coherent_current hu.coherent

/-- Bindings whose types have no bound variable can be put in. -/
theorem reached_free (ha : a.Coherent) (hsorted : Dict.Sorted s) (hkeys : ∀ k ∈ Dict.keys s, ¬ K k)
    (hs : ∀ e ∈ s, Clear free a.tailShapes (andKeys K s) a e.2) : Reached free a.tailShapes K a s := by
  have hbinds : Valuation.Binds free K := ⟨fun _ _ => rfl, fun _ => rfl⟩
  have hfix (e) (he : e ∈ s) : e.2.shape.image s.images = e.2.shape := by
    rw [Ty.shape, image_image]
    refine image_congr fun id hid => ?_
    exact Subst.fills_of_not_mem fun hk => (hs e he).ids id hid (.inr hk)
  have hco (e) (he : e ∈ s) : e.2.shape.Coherent (tailsAfter a.tailShapes s) := by
    rw [← hfix e he]
    refine (hs e he).coherent.image fun id hid => ?_
    have hfree : s.images id = free id :=
      Subst.fills_of_not_mem fun hk => (hs e he).ids id (mem_ids_shape.1 hid) (.inr hk)
    rw [hfree]
    exact .var _
  have himages (id : String) : (s.images id).Coherent (tailsAfter a.tailShapes s) := by
    cases hget : Dict.get? s id with
    | none =>
      have hfree : s.images id = free id := Subst.fills_of_not_mem (get?_eq_none_iff.1 hget)
      rw [hfree]
      exact .var _
    | some u =>
      have hu : s.images id = u.shape := Subst.fills_of_get? hget
      rw [hu]
      exact hco _ (mem_of_get?_eq_some hget)
  refine ⟨hbinds, hsorted, hkeys, ha.fit.after himages, fun e he => ?_⟩
  have himage := (hbinds.after s).image_eq_shape (hs e he).ids
  refine ⟨(hs e he).ids, himage ▸ hco e he, fun n hn => (hs e he).settled n ?_⟩
  rwa [himage] at hn

end ScriptTyping
