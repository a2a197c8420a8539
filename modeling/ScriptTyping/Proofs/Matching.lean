import ScriptTyping.Proofs.Instance
import ScriptTyping.Unify.Basic

/-!
# Matching types

`Matches t u` says that two types go together as they stand, with nothing left to bind. It is wider
than equality: a map goes together with a record whose fields all match the map's values, and a
record with one that asks for fewer of its fields. So it has a direction, and the sides of its
components are fixed: the map's value and the record that has all the fields stand on the left.

Two facts make it useful for solving equations in order:

* `Matches.refl`: a proper type matches itself;
* `Matches.inst`: types that match still match under every proper valuation.

`Ty.Proper` are the types without gaps whose records are dictionaries. `Ty.Plain` are those without
gaps and without records, and on them to match is to be equal: `Matches.bare_eq`.
-/

namespace ScriptTyping

open List Dict Unify

variable {t : Ty} {θ : Valuation}

namespace Ty

variable {tails : Bool}

/-- A type without gaps, whose records have their fields in ascending order. -/
inductive Proper : Ty → Prop
  | var (v : Var) : Proper (var v)
  | con {name args l} (h : ∀ t ∈ args, Proper t) : Proper (con name args l)
  | record {name fields l} (hs : Dict.Sorted fields) (h : ∀ f ∈ fields, Proper f.2) :
    Proper (record name fields l)

/-- A type without gaps and without records. -/
inductive Plain : Ty → Prop
  | var (v : Var) : Plain (var v)
  | con {name args l} (h : ∀ t ∈ args, Plain t) : Plain (con name args l)

theorem Plain.proper (h : t.Plain) : t.Proper := by
  induction h with
  | var v => exact .var v
  | con _ ih => exact .con ih

theorem proper_free (id : String) : (free id).Proper := .var _

theorem plain_free (id : String) : (free id).Plain := .var _

theorem Proper.fill (h : t.Proper) (hθ : ∀ id ∈ t.ids, (θ id).Proper) : (t.fill tails θ).Proper := by
  induction h with
  | var v => exact hθ v.id (by simp)
  | con _ ih =>
    rw [fill_con]
    exact .con (forall_mem_map.2 fun t ht => ih t ht fun id hid => hθ id (mem_ids_con.2 ⟨t, ht, hid⟩))
  | record hs _ ih =>
    rw [fill_record]
    refine .record (hs.of_keys (keys_mapValues _ _)) (forall_mem_map.2 fun f hf => ?_)
    exact ih f hf fun id hid => hθ id (mem_ids_record.2 ⟨f, hf, hid⟩)

theorem Proper.inst (h : t.Proper) (hθ : ∀ id ∈ t.ids, (θ id).Proper) : (t.inst θ).Proper :=
  h.fill hθ

theorem Plain.inst (h : t.Plain) (hθ : ∀ id ∈ t.ids, (θ id).Plain) : (t.inst θ).Plain := by
  induction h with
  | var v => exact hθ v.id (by simp)
  | con _ ih =>
    rw [inst_con]
    exact .con (forall_mem_map.2 fun t ht => ih t ht fun id hid => hθ id (mem_ids_con.2 ⟨t, ht, hid⟩))

/-- A type is proper if it is so with types in place of its variables. -/
theorem proper_of_fill (h : (t.fill tails θ).Proper) : t.Proper := by
  induction t with
  | missing => cases h
  | var v => exact .var v
  | con name args l ih =>
    rw [fill_con] at h
    cases h with
    | con h => exact .con fun t ht => ih t ht (h _ (mem_map_of_mem ht))
  | record name fields l ih =>
    rw [fill_record] at h
    cases h with
    | record hs h =>
      refine .record (hs.of_keys (keys_mapValues _ _).symm) fun f hf => ih f hf ?_
      exact h (f.1, f.2.fill tails θ) (mem_map.2 ⟨f, hf, rfl⟩)

theorem proper_of_bare (h : t.bare.Proper) : t.Proper := proper_of_fill h

theorem proper_bare : t.bare.Proper ↔ t.Proper :=
  ⟨proper_of_bare, fun h => h.inst fun id _ => proper_free id⟩

theorem plain_of_bare (h : t.bare.Plain) : t.Plain := by
  induction t with
  | missing => cases h
  | var v => exact .var v
  | con name args l ih =>
    rw [bare_con] at h
    cases h with
    | con h => exact .con fun t ht => ih t ht (h _ (mem_map_of_mem ht))
  | record name fields l => rw [bare_record] at h; cases h

theorem plain_bare : t.bare.Plain ↔ t.Plain :=
  ⟨plain_of_bare, fun h => h.inst fun id _ => plain_free id⟩

end Ty

def Valuation.Proper (θ : Valuation) : Prop := ∀ id, (θ id).Proper

namespace Subst

open Ty

variable {a : Attachments} {s : Subst}

theorem proper_val (h : ∀ e ∈ s, e.2.Proper) : Valuation.Proper s.val := by
  intro id
  cases hget : get? s id with
  | none =>
    rw [val_of_not_mem (get?_eq_none_iff.1 hget)]
    exact proper_free id
  | some t =>
    rw [val_of_get? hget]
    exact proper_bare.2 (h _ (mem_of_get?_eq_some hget))

theorem proper_apply (h : ∀ e ∈ s, e.2.Proper) (ht : t.Proper) : (apply a s t).Proper := by
  rw [← proper_bare, bare_apply]
  exact ht.inst fun id _ => proper_val h id

theorem plain_apply (h : ∀ e ∈ s, e.2.Plain) (ht : t.Plain) : (apply a s t).Plain := by
  rw [← plain_bare, bare_apply]
  refine ht.inst fun id _ => ?_
  cases hget : get? s id with
  | none =>
    rw [val_of_not_mem (get?_eq_none_iff.1 hget)]
    exact plain_free id
  | some u =>
    rw [val_of_get? hget]
    exact plain_bare.2 (h _ (mem_of_get?_eq_some hget))

end Subst

/-! ## The relation -/

/-- The types go together as they stand. Of two records, the one that must have the fields of the
other is on the left of each pair of fields, and so is the value of a map. -/
inductive Matches : Ty → Ty → Prop
  /-- One variable. -/
  | var {v w : Var} (h : v.id = w.id) : Matches (.var v) (.var w)
  /-- One constructor, applied to as many types, that match pairwise. -/
  | con {name} {xs : List Ty} {ys : List Ty} {l k} (hlen : xs.length = ys.length)
    (h : ∀ p ∈ xs.zip ys, Matches p.1 p.2) : Matches (.con name xs l) (.con name ys k)
  /-- A map, and a record whose fields have the type of its values. -/
  | mapRecord {name owner} {xs : List Ty} {fs l k value} (hmap : Ty.isMapName name = true)
    (hlast : xs.getLast? = some value) (h : ∀ f ∈ fs, Matches value f.2) :
    Matches (.con name xs l) (.record owner fs k)
  /-- The same, with the record on the left. -/
  | recordMap {name owner} {xs : List Ty} {fs l k value} (hmap : Ty.isMapName name = true)
    (hlast : xs.getLast? = some value) (h : ∀ f ∈ fs, Matches value f.2) :
    Matches (.record owner fs k) (.con name xs l)
  /-- Two records of one name, of which the left one has each field of the right one. -/
  | record {name fs gs l k} (hkeys : ∀ g ∈ gs, g.1 ∈ Dict.keys fs)
    (h : ∀ g ∈ gs, ∀ t, get? fs g.1 = some t → Matches t g.2) :
    Matches (.record name fs l) (.record name gs k)
  /-- A record that has each field of an anonymous one. -/
  | anonymousRight {name fs gs l k} (hname : name ≠ Ty.anonymous) (hkeys : ∀ g ∈ gs, g.1 ∈ Dict.keys fs)
    (h : ∀ g ∈ gs, ∀ t, get? fs g.1 = some t → Matches t g.2) :
    Matches (.record name fs l) (.record Ty.anonymous gs k)
  /-- The same, with the anonymous record on the left. -/
  | anonymousLeft {name fs gs l k} (hname : name ≠ Ty.anonymous) (hkeys : ∀ g ∈ gs, g.1 ∈ Dict.keys fs)
    (h : ∀ g ∈ gs, ∀ t, get? fs g.1 = some t → Matches t g.2) :
    Matches (.record Ty.anonymous gs k) (.record name fs l)

namespace Matches

open Ty

variable {xs : List Ty} {u : Ty} {R : Ty → Ty → Prop} {α : Type}

theorem zip_self {xs : List α} {p : α × α} (h : p ∈ xs.zip xs) : p.1 ∈ xs ∧ p.2 = p.1 := by
  induction xs with
  | nil => simp at h
  | cons x xs ih =>
    rcases mem_cons.1 h with rfl | h
    · exact ⟨mem_cons_self, rfl⟩
    · exact ⟨mem_cons_of_mem _ (ih h).1, (ih h).2⟩

/-- A proper type matches itself. -/
theorem refl (h : t.Proper) : Matches t t := by
  induction h with
  | var v => exact .var rfl
  | con _ ih =>
    refine .con rfl fun p hp => ?_
    obtain ⟨hmem, heq⟩ := zip_self hp
    rw [heq]
    exact ih _ hmem
  | record hs _ ih =>
    refine .record (fun g hg => Dict.mem_keys_of_mem hg) fun g hg t ht => ?_
    rw [hs.get?_of_mem (show (g.1, g.2) ∈ _ from hg)] at ht
    exact Option.some.inj ht ▸ ih g hg

theorem keys_inst {fs gs : List (String × Ty)} (h : ∀ g ∈ gs, g.1 ∈ Dict.keys fs) :
    ∀ g ∈ mapValues (inst θ) gs, g.1 ∈ Dict.keys (mapValues (inst θ) fs) := by
  intro g' hg'
  obtain ⟨g, hg, rfl⟩ := mem_map.1 hg'
  rw [keys_mapValues]
  exact h g hg

theorem fields_inst {fs gs : List (String × Ty)}
    (h : ∀ g ∈ gs, ∀ t, get? fs g.1 = some t → R (t.inst θ) (g.2.inst θ)) : ∀ g ∈ mapValues (inst θ) gs, ∀ t,
      get? (mapValues (inst θ) fs) g.1 = some t → R t g.2 := by
  intro g' hg' t' ht'
  obtain ⟨g, hg, rfl⟩ := mem_map.1 hg'
  rw [get?_mapValues, Option.map_eq_some_iff] at ht'
  obtain ⟨t, ht, rfl⟩ := ht'
  exact h g hg t ht

/-- Types that match still match when their variables are replaced. -/
theorem inst (h : Matches t u) (hθ : θ.Proper) : Matches (t.inst θ) (u.inst θ) := by
  induction h with
  | var h => simpa [h] using refl (hθ _)
  | con hlen _ ih =>
    rw [inst_con, inst_con]
    refine .con (by simpa using hlen) fun p hp => ?_
    rw [zip_map] at hp
    obtain ⟨q, hq, rfl⟩ := mem_map.1 hp
    exact ih q hq
  | mapRecord hmap hlast _ ih =>
    rw [inst_con, inst_record]
    exact .mapRecord hmap (by rw [getLast?_map, hlast]; rfl) (forall_mem_map.2 fun f hf => ih f hf)
  | recordMap hmap hlast _ ih =>
    rw [inst_con, inst_record]
    exact .recordMap hmap (by rw [getLast?_map, hlast]; rfl) (forall_mem_map.2 fun f hf => ih f hf)
  | record hkeys _ ih =>
    rw [inst_record, inst_record]
    exact .record (keys_inst hkeys) (fields_inst ih)
  | anonymousRight hname hkeys _ ih =>
    rw [inst_record, inst_record]
    exact .anonymousRight hname (keys_inst hkeys) (fields_inst ih)
  | anonymousLeft hname hkeys _ ih =>
    rw [inst_record, inst_record]
    exact .anonymousLeft hname (keys_inst hkeys) (fields_inst ih)

/-! ## Structure -/

theorem of_keys_bare {fs gs : List (String × Ty)}
    (h : ∀ g ∈ mapValues bare gs, g.1 ∈ Dict.keys (mapValues bare fs)) :
    ∀ g ∈ gs, g.1 ∈ Dict.keys fs := by
  intro g hg
  have := h (g.1, g.2.bare) (mem_map.2 ⟨g, hg, rfl⟩)
  rwa [keys_mapValues] at this

theorem of_fields_bare {fs gs : List (String × Ty)}
    (h : ∀ g ∈ mapValues bare gs, ∀ t, get? (mapValues bare fs) g.1 = some t →
      ∀ x y : Ty, x.bare = t → y.bare = g.2 → Matches x y) :
    ∀ g ∈ gs, ∀ t, get? fs g.1 = some t → Matches t g.2 := by
  intro g hg t ht
  refine h (g.1, g.2.bare) (mem_map.2 ⟨g, hg, rfl⟩) t.bare ?_ t g.2 rfl rfl
  rw [get?_mapValues, ht]
  rfl

theorem of_last_bare {value : Ty} (h : (xs.map bare).getLast? = some value) :
    ∃ x, xs.getLast? = some x ∧ x.bare = value := by
  rw [getLast?_map, Option.map_eq_some_iff] at h
  exact h

/-- Whether types match depends on their structure only. -/
theorem of_bare {x y : Ty} (h : Matches t u) (hx : x.bare = t) (hy : y.bare = u) : Matches x y := by
  induction h generalizing x y with
  | var h =>
    obtain ⟨v, rfl, hv⟩ := bare_eq_var hx
    obtain ⟨w, rfl, hw⟩ := bare_eq_var hy
    exact .var (by rw [hv, hw, h])
  | con hlen _ ih =>
    obtain ⟨xs, _, rfl, rfl⟩ := bare_eq_con hx
    obtain ⟨ys, _, rfl, rfl⟩ := bare_eq_con hy
    refine .con (by simpa using hlen) fun p hp => ?_
    refine ih (p.1.bare, p.2.bare) ?_ rfl rfl
    rw [zip_map]
    exact mem_map.2 ⟨p, hp, rfl⟩
  | mapRecord hmap hlast _ ih =>
    obtain ⟨xs, _, rfl, rfl⟩ := bare_eq_con hx
    obtain ⟨fs, _, rfl, rfl⟩ := bare_eq_record hy
    obtain ⟨value, hlast, hvalue⟩ := of_last_bare hlast
    exact .mapRecord hmap hlast fun f hf =>
      ih (f.1, f.2.bare) (mem_map.2 ⟨f, hf, rfl⟩) hvalue rfl
  | recordMap hmap hlast _ ih =>
    obtain ⟨fs, _, rfl, rfl⟩ := bare_eq_record hx
    obtain ⟨xs, _, rfl, rfl⟩ := bare_eq_con hy
    obtain ⟨value, hlast, hvalue⟩ := of_last_bare hlast
    exact .recordMap hmap hlast fun f hf =>
      ih (f.1, f.2.bare) (mem_map.2 ⟨f, hf, rfl⟩) hvalue rfl
  | record hkeys _ ih =>
    obtain ⟨fs, _, rfl, rfl⟩ := bare_eq_record hx
    obtain ⟨gs, _, rfl, rfl⟩ := bare_eq_record hy
    exact .record (of_keys_bare hkeys) (of_fields_bare fun g hg t ht _ _ => ih g hg t ht)
  | anonymousRight hname hkeys _ ih =>
    obtain ⟨fs, _, rfl, rfl⟩ := bare_eq_record hx
    obtain ⟨gs, _, rfl, rfl⟩ := bare_eq_record hy
    exact .anonymousRight hname (of_keys_bare hkeys)
      (of_fields_bare fun g hg t ht _ _ => ih g hg t ht)
  | anonymousLeft hname hkeys _ ih =>
    obtain ⟨gs, _, rfl, rfl⟩ := bare_eq_record hx
    obtain ⟨fs, _, rfl, rfl⟩ := bare_eq_record hy
    exact .anonymousLeft hname (of_keys_bare hkeys)
      (of_fields_bare fun g hg t ht _ _ => ih g hg t ht)

theorem bare_iff : Matches t.bare u.bare ↔ Matches t u :=
  ⟨fun h => h.of_bare rfl rfl, fun h => h.inst proper_free⟩

theorem map_eq_of_zip {β : Type} {f : α → β} {xs ys : List α} (hlen : xs.length = ys.length)
    (h : ∀ p ∈ xs.zip ys, f p.1 = f p.2) : xs.map f = ys.map f := by
  induction xs generalizing ys with
  | nil => cases ys <;> simp_all
  | cons x xs ih =>
    cases ys with
    | nil => simp at hlen
    | cons y ys =>
      rw [map_cons, map_cons, h (x, y) mem_cons_self,
        ih (by simpa using hlen) fun p hp => h p (mem_cons_of_mem _ hp)]

/-- Plain types that match are equal. -/
theorem bare_eq (h : Matches t u) (ht : t.Plain) (hu : u.Plain) : t.bare = u.bare := by
  induction h with
  | var h => simp [bare, h]
  | con hlen _ ih =>
    cases ht with
    | con ht =>
      cases hu with
      | con hu =>
        rw [bare_con, bare_con, map_eq_of_zip hlen]
        exact fun p hp => ih p hp (ht _ (of_mem_zip hp).1) (hu _ (of_mem_zip hp).2)
  | mapRecord => cases hu
  | recordMap => cases ht
  | record => cases ht
  | anonymousRight => cases ht
  | anonymousLeft => cases ht

/-- To match is to be equal, on types without records. -/
theorem iff_equal (ht : t.Plain) (hu : u.Plain) : Matches t u ↔ t.equal u = true := by
  rw [equal_iff]
  refine ⟨fun h => h.bare_eq ht hu, fun h => ?_⟩
  rw [← bare_iff, h]
  exact .refl (proper_bare.2 hu.proper)

/-! ## Parts -/

/-- If no field is missing and all pairs of fields are related, so is each field of the right record
with the one of the left. -/
theorem of_fieldParts {left : String} {fs gs : List (String × Ty)}
    (hfault : (fieldParts left fs gs).fault = none)
    (h : ∀ p ∈ (fieldParts left fs gs).pairs, R p.1 p.2) :
    (∀ g ∈ gs, g.1 ∈ Dict.keys fs) ∧ ∀ g ∈ gs, ∀ t, get? fs g.1 = some t → R t g.2 := by
  induction gs with
  | nil => simp
  | cons g gs ih =>
    obtain ⟨k, u⟩ := g
    simp only [fieldParts] at hfault h
    split at hfault
    · simp at hfault
    next t ht =>
      simp only [ht] at h
      obtain ⟨hkeys, hfields⟩ := ih hfault fun p hp => h p (mem_cons_of_mem _ hp)
      refine ⟨fun g hg => ?_, fun g hg t' ht' => ?_⟩
      · rcases mem_cons.1 hg with rfl | hg
        · have hmem := Dict.mem_keys_of_mem (mem_of_get?_eq_some ht)
          exact hmem
        · exact hkeys g hg
      · rcases mem_cons.1 hg with rfl | hg
        · rw [ht] at ht'
          exact Option.some.inj ht' ▸ h (t, u) mem_cons_self
        · exact hfields g hg t' ht'

theorem of_mapParts {name owner : String} {fs : List (String × Ty)} {l k : Label}
    (hfault : (mapParts name xs l owner fs k).fault = none)
    (h : ∀ p ∈ (mapParts name xs l owner fs k).pairs, R p.1 p.2) :
    Ty.isMapName name = true ∧ ∃ value, xs.getLast? = some value ∧ ∀ f ∈ fs, R value f.2 := by
  unfold mapParts at hfault h
  split at hfault
  next value hmap hlast =>
    simp only [hmap, hlast, mem_map] at h
    exact ⟨hmap, value, hlast, fun f hf => h (value, f.2) ⟨f, hf, rfl⟩⟩
  next => simp [Unify.Parts.clash] at hfault

/-- Types whose parts match under a valuation match under it. -/
theorem of_parts (hfault : (parts t u).fault = none)
    (h : ∀ p ∈ (parts t u).pairs, Matches (p.1.inst θ) (p.2.inst θ)) : Matches (t.inst θ) (u.inst θ) := by
  let R (x y : Ty) : Prop := Matches (x.inst θ) (y.inst θ)
  unfold parts at hfault h
  split at hfault
  next n xs l m ys k =>
    split at hfault
    next heq =>
      obtain ⟨rfl, hlen⟩ := heq
      simp only [hlen, and_self, if_true] at h
      rw [inst_con, inst_con]
      refine .con (by simpa using hlen) fun p' hp' => ?_
      rw [zip_map] at hp'
      obtain ⟨p, hp, rfl⟩ := mem_map.1 hp'
      exact h p hp
    next => simp [Unify.Parts.clash] at hfault
  next =>
    obtain ⟨hmap, value, hlast, hfields⟩ := of_mapParts (R := R) hfault h
    rw [inst_con, inst_record]
    exact .mapRecord hmap (by rw [getLast?_map, hlast]; rfl) (forall_mem_map.2 fun f hf => hfields f hf)
  next =>
    obtain ⟨hmap, value, hlast, hfields⟩ := of_mapParts (R := R) hfault h
    rw [inst_con, inst_record]
    exact .recordMap hmap (by rw [getLast?_map, hlast]; rfl) (forall_mem_map.2 fun f hf => hfields f hf)
  next n fs l m gs k =>
    rw [inst_record, inst_record]
    split at hfault
    next heq =>
      simp only [heq, if_true] at h
      obtain ⟨hkeys, hfields⟩ := of_fieldParts (R := R) hfault h
      by_cases hn : n = m
      · subst hn
        exact .record (keys_inst hkeys) (fields_inst hfields)
      · obtain rfl := heq.resolve_left hn
        exact .anonymousRight hn (keys_inst hkeys) (fields_inst hfields)
    next hne =>
      rw [not_or] at hne
      simp only [hne.1, hne.2, or_self, if_false] at h
      split at hfault
      next heq =>
        simp only [heq, if_true] at h
        obtain ⟨hkeys, hfields⟩ := of_fieldParts (R := R) hfault h
        exact heq ▸ .anonymousLeft hne.2 (keys_inst hkeys) (fields_inst hfields)
      next => simp [Unify.Parts.clash] at hfault
  next => simp [Unify.Parts.clash] at hfault

end Matches

end ScriptTyping
