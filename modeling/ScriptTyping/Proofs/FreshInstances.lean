import ScriptTyping.Proofs.FreeVariables
import ScriptTyping.Proofs.RevisionOrder
import ScriptTyping.Proofs.StructScoping

/-!
# Uses of a generalized type

A type is generalized over those of its variables that no name of the scope mentions, and each use of the
scheme draws a new variable for each of these. So a use is the type again, up to a renaming that moves the
variables that were generalized to new ones and leaves those of the scope alone: `FreshRenaming`.

This is so of every type, tails included. But a use of a type with a tail changes the tail where it is, and
with it the type of the scheme, so that the next use has the variables of the first: two uses have only
variables of the scope in common if the type shows no tail.

Main statements: `instantiate_generalize`, and `uses_share_tail` for a type with a tail.
-/

namespace ScriptTyping

open Ty List Dict Var Attachments Scope

variable {c : Cell} {n : Nat} {sc : Scope} {id : String} {s s' : Supply} {t : Ty} {v : Var}

/-! ## Variables that are generalized -/

namespace Scope

variable {sc : Scope} {t : Ty}

theorem nodup_generalize : ((sc.generalize t).vars.map Var.id).Nodup :=
  t.nodup_freeVars.sublist (filter_sublist.map _)

theorem of_mem_generalize (hv : v ∈ (sc.generalize t).vars) : v ∈ t.vars ∧ sc.mentions v.id = false := by
  obtain ⟨hv, hm⟩ := mem_filter.1 hv
  exact ⟨mem_vars_of_mem_freeVars hv, by simpa using hm⟩

/-- A type is generalized over what occurs in it and is not mentioned. -/
theorem mem_ids_generalize :
    id ∈ (sc.generalize t).vars.map Var.id ↔ t.occurs id = true ∧ sc.mentions id = false := by
  constructor
  · intro hid
    obtain ⟨v, hv, rfl⟩ := mem_map.1 hid
    obtain ⟨hvar, hm⟩ := of_mem_generalize hv
    exact ⟨occurs_iff_mem_ids.2 (mem_map_of_mem hvar), hm⟩
  · rintro ⟨hocc, hm⟩
    obtain ⟨v, hv, rfl⟩ := mem_map.1 (VarSet.has_iff.1 (has_freeVars.2 (occurs_iff_mem_ids.1 hocc)))
    exact mem_map_of_mem (mem_filter.2 ⟨hv, by simp [hm]⟩)

end Scope

/-! ## Variables that are drawn -/

namespace Supply

/-- The variable that is drawn after some others. -/
def nth (s : Supply) (i : Nat) : Var := ⟨generatedId (s.count + i), s.attachments.next + i⟩

theorem count_freshLike (s : Supply) (v : Var) : (s.freshLike v).2.count = s.count + 1 := rfl

theorem next_freshLike (s : Supply) (v : Var) :
    (s.freshLike v).2.attachments.next = s.attachments.next + 1 := rfl

theorem get_freshLike (s : Supply) (v : Var) (c : Cell) : (s.freshLike v).2.attachments.get c =
      if s.attachments.next = c then s.attachments.get v.cell else s.attachments.get c :=
  get_set _ _ _ _

theorem madeVar_generated (hn : n < s.count) (hc : c < s.attachments.next) : s.MadeVar ⟨generatedId n, c⟩ :=
  ⟨fun _ h => generatedId_injective h ▸ hn, hc⟩

theorem Made.mono (h : s.Made t) (hcount : s.count ≤ s'.count) (hnext : s.attachments.next ≤ s'.attachments.next)
    (htails : s.attachments.tails.length = s'.attachments.tails.length) : s'.Made t := by
  have hlabel (l : Label) (hl : s.MadeLabel l) : s'.MadeLabel l :=
    ⟨fun c hc => Nat.lt_of_lt_of_le (hl.1 c hc) hnext, fun u hu => htails ▸ hl.2 u hu⟩
  exact h.imp (fun v _ hv => ⟨fun n hn => Nat.lt_of_lt_of_le (hv.1 n hn) hcount,
    Nat.lt_of_lt_of_le hv.2 hnext⟩) hlabel hlabel

theorem copied_madeLabel (s : Supply) : Copied s.MadeLabel := fun _ _ hl => ⟨by simp, hl.2⟩

theorem nth_freshLike (s : Supply) (v : Var) (i : Nat) : (s.freshLike v).2.nth i = s.nth (i + 1) := by
  rw [nth, nth, count_freshLike, next_freshLike, Nat.add_right_comm, Nat.add_right_comm s.attachments.next]
  rfl

end Supply

namespace Scheme

open Supply

variable (s : Supply) (vs : List Var) (r : Subst) {i : Nat}

theorem renewal_cons (v : Var) : renewal s (v :: vs) r =
    renewal (s.freshLike v).2 vs (Dict.insert r v.id (.var (s.freshLike v).1)) := rfl

theorem count_renewal : (renewal s vs r).2.count = s.count + vs.length := by
  induction vs generalizing s r with
  | nil => rfl
  | cons v vs ih =>
    rw [renewal_cons, ih, count_freshLike]
    exact Nat.add_right_comm _ _ _

theorem next_renewal : (renewal s vs r).2.attachments.next = s.attachments.next + vs.length := by
  induction vs generalizing s r with
  | nil => rfl
  | cons v vs ih =>
    rw [renewal_cons, ih, next_freshLike]
    exact Nat.add_right_comm _ _ _

theorem sorted_renewal (h : Dict.Sorted r) : Dict.Sorted (renewal s vs r).1 := by
  induction vs generalizing s r with
  | nil => exact h
  | cons v vs ih => exact ih _ _ (h.insert _ _)

/-- What was there before keeps its classes. -/
theorem get_renewal (hc : c < s.attachments.next) :
    (renewal s vs r).2.attachments.get c = s.attachments.get c := by
  induction vs generalizing s r with
  | nil => rfl
  | cons v vs ih =>
    rw [renewal_cons, ih _ _ (Nat.lt_succ_of_lt hc), get_freshLike, if_neg (Nat.ne_of_gt hc)]

/-- A new variable has the classes of the one that it replaces. -/
theorem get_renewal_nth (hvs : ∀ v ∈ vs, v.cell < s.attachments.next) (hv : vs[i]? = some v) :
    (renewal s vs r).2.attachments.get (s.nth i).cell = s.attachments.get v.cell := by
  induction vs generalizing s r i with
  | nil => simp at hv
  | cons x vs ih =>
    obtain ⟨-, hvs⟩ := forall_mem_cons.1 hvs
    rw [renewal_cons]
    cases i with
    | zero =>
      obtain rfl : x = v := by simpa using hv
      rw [get_renewal _ _ _ (Nat.lt_succ_self _), get_freshLike]
      exact if_pos rfl
    | succ i =>
      rw [getElem?_cons_succ] at hv
      have hcell := hvs v (mem_of_getElem? hv)
      rw [← nth_freshLike s x, ih _ _ (fun w hw => Nat.lt_succ_of_lt (hvs w hw)) hv, get_freshLike,
        if_neg (Nat.ne_of_gt hcell)]

theorem get?_renewal_of_not_mem (h : id ∉ vs.map Var.id) : Dict.get? (renewal s vs r).1 id = Dict.get? r id := by
  induction vs generalizing s r with
  | nil => rfl
  | cons v vs ih =>
    rw [map_cons, mem_cons, not_or] at h
    rw [renewal_cons, ih _ _ h.2, get?_insert, if_neg (Ne.symm h.1)]

/-- The variables are replaced by new ones in their order. -/
theorem get?_renewal_nth (hvs : (vs.map Var.id).Nodup) (hv : vs[i]? = some v) :
    get? (renewal s vs r).1 v.id = some (.var (s.nth i)) := by
  induction vs generalizing s r i with
  | nil => simp at hv
  | cons x vs ih =>
    rw [map_cons, nodup_cons] at hvs
    rw [renewal_cons]
    cases i with
    | zero =>
      obtain rfl : x = v := by simpa using hv
      rw [get?_renewal_of_not_mem _ _ _ hvs.1, get?_insert, if_pos rfl]
      rfl
    | succ i =>
      rw [getElem?_cons_succ] at hv
      rw [ih _ _ hvs.2 hv, nth_freshLike]

end Scheme

/-! ## Tails that stay -/

theorem Ty.hasTail_of_mem_ownTails (h : n ∈ t.ownTails) : t.shape.HasTail n := by
  induction t with
  | missing => cases h
  | var v => cases h
  | con name args l ih =>
    rw [ownTails_con, mem_flatMap] at h
    obtain ⟨x, hx, hn⟩ := h
    rw [shape, image_con]
    exact .con (mem_map_of_mem hx) (ih x hx hn)
  | record name fields l ih =>
    rw [ownTails_record, mem_append, mem_flatMap, Option.mem_toList, Option.map_eq_some_iff] at h
    rw [shape, image_record]
    rcases h with ⟨f, hf, hn⟩ | ⟨u, hu, hn⟩
    · have hmem := mem_of_mem_ownFields hf
      exact .record (mem_map_of_mem hmem) (ih f hmem hn)
    · exact .here hu hn

namespace Attachments

variable {a : Attachments} {r : Subst} {B : List (Dict Ty)} {t : Ty} {n : Nat}

/-- A tail with no variable that is bound shows the same after it is rewritten. -/
theorem tailShapes_rewriteTail (h : ∀ d, a.tails[n]? = some d → ∀ f ∈ d, ∀ id ∈ f.2.ids, id ∉ Dict.keys r) :
    (a.rewriteTail r n).tailShapes = a.tailShapes := by
  refine ext_getElem? fun m => ?_
  rw [tailShapes, tailShapes, getElem?_map, getElem?_map, getElem?_rewriteTail, Option.map_map]
  refine Option.map_congr fun d hd => ?_
  by_cases hnm : n = m
  · simp only [Function.comp, hnm, if_true, mapValues, map_map]
    refine map_congr_left fun f hf => Prod.ext rfl ((fill_substitute a r f.2).trans ?_)
    exact image_congr fun id hid => Subst.fills_of_not_mem (h d (hnm ▸ hd) f hf id hid)
  · simp only [Function.comp, hnm, if_false]

/-- Nor does a visit change what tails show, if no variable is bound in those that a type shows. -/
theorem tailShapes_visit (ht : t.Coherent B)
    (hB : ∀ n d, t.HasTail n → B[n]? = some d → ∀ f ∈ d, ∀ id ∈ f.2.ids, id ∉ Dict.keys r) (depth : Nat)
    (ha : a.tailShapes = B) (hn : t.HasTail n) : (visit r depth a n).tailShapes = B := by
  have hrewrite {a : Attachments} {n : Nat} (ha : a.tailShapes = B) (hn : t.HasTail n) :
      (a.rewriteTail r n).tailShapes = B := by
    refine (tailShapes_rewriteTail fun d hd f hf id hid => ?_).trans ha
    have hget : B[n]? = some (mapValues shape d) := by rw [← ha, tailShapes, getElem?_map, hd]; rfl
    exact hB n _ hn hget _ (mem_map_of_mem hf) id (mem_ids_shape.2 hid)
  induction depth generalizing a n with
  | zero => exact visit_zero r a n ▸ hrewrite ha hn
  | succ depth ih =>
    rw [visit_succ]
    refine hrewrite (List.foldlRecOn (motive := fun b => tailShapes b = B) _ _ ha fun b hb m hm => ih hb ?_) hn
    -- The tails inside are shown too.
    obtain ⟨f, hf, hm⟩ := mem_flatMap.1 hm
    cases hd : a.tails[n]? with
    | none =>
      rw [hd] at hf
      cases hf
    | some d =>
      rw [hd, Option.getD_some] at hf
      have hget : B[n]? = some (mapValues shape d) := by rw [← ha, tailShapes, getElem?_map, hd]; rfl
      exact hasTail_of_tail ht hn hget (mem_map_of_mem hf) (hasTail_of_mem_ownTails hm)

theorem tailShapes_revise (ht : t.shape.Coherent a.tailShapes)
    (h : ∀ n d, t.HasTail n → a.tails[n]? = some d → ∀ f ∈ d, ∀ id ∈ f.2.ids, id ∉ Dict.keys r) :
    (a.revise r t).tailShapes = a.tailShapes := by
  unfold revise
  split
  · rfl
  · rw [reviseDepth_succ]
    refine List.foldlRecOn (motive := fun b => tailShapes b = a.tailShapes) _ _ rfl fun b hb m hm =>
      tailShapes_visit ht (fun n d hn hd f hf id hid => ?_) _ hb (hasTail_of_mem_ownTails hm)
    rw [tailShapes, getElem?_map, Option.map_eq_some_iff] at hd
    obtain ⟨e, he, rfl⟩ := hd
    obtain ⟨g, hg, rfl⟩ := mem_map.1 hf
    have hn := (hasTail_image hn).resolve_right (by rintro ⟨_, -, ⟨⟩⟩)
    exact h n e hn he g hg id (mem_ids_shape.1 hid)

end Attachments

/-! ## Uses -/

/-- All that the names of the scope and the type are made of was made before, and the type shows the tails
as they are. -/
structure Supply.Covers (s : Supply) (sc : Scope) (t : Ty) : Prop where
  scope : ∀ n, sc.mentions (generatedId n) = true → n < s.count
  type : s.Made t
  tails : s.attachments.AllTails s.MadeVar s.MadeLabel s.MadeLabel
  coherent : s.attachments.Coherent
  shown : t.shape.Coherent s.attachments.tailShapes

/-- The type `u`, with the supply `s'` that it leaves, is the type `t` with the variables `new`, drawn from
the supply `s`, for those that the scope does not mention. Names of variables are changed as `ρ` says. -/
structure FreshRenaming (sc : Scope) (t : Ty) (s : Supply) (u : Ty) (s' : Supply) (new : List Var)
    (ρ : String → String) : Prop where
  quantified : ∀ id, id ∈ (sc.generalize t).vars.map Var.id ↔ t.occurs id = true ∧ sc.mentions id = false
  drawn : new.map Var.id = (List.range (sc.generalize t).vars.length).map fun i => Var.generatedId (s.count + i)
  count : s'.count = s.count + (sc.generalize t).vars.length
  moved : (sc.generalize t).vars.map (fun v => ρ v.id) = new.map Var.id
  fixed : ∀ id, sc.mentions id = true → ρ id = id
  injective : ∀ i j, t.occurs i = true ∨ sc.mentions i = true → t.occurs j = true ∨ sc.mentions j = true →
    ρ i = ρ j → i = j
  equal : u.equal (t.inst fun id => free (ρ id)) = true
  vars : ∀ w ∈ u.vars, w ∈ new ∨ s.MadeVar w ∧ sc.mentions w.id = true
  classes : new.map (fun w => s'.attachments.get w.cell) =
    (sc.generalize t).vars.map fun v => s.attachments.get v.cell
  apart : ∀ w ∈ new, ∀ v, v ≠ w → v ∈ new ∨ s.MadeVar v → ∀ c,
    (s'.attachments.attach (.var w) c).get v.cell = s'.attachments.get v.cell

/-- A use of a type and the use after it have only variables of the scope in common. -/
theorem FreshRenaming.mentions_of_common {u u' : Ty} {s'' : Supply} {new new' : List Var} {ρ ρ' : String → String}
    (h : FreshRenaming sc t s u s' new ρ) (h' : FreshRenaming sc t s' u' s'' new' ρ') (hu : u.occurs id = true)
    (hu' : u'.occurs id = true) : sc.mentions id = true := by
  obtain ⟨w, hw, rfl⟩ := mem_map.1 (occurs_iff_mem_ids.1 hu)
  obtain ⟨w', hw', hid⟩ := mem_map.1 (occurs_iff_mem_ids.1 hu')
  rcases h.vars w hw with hnew | ⟨-, hm⟩
  · rcases h'.vars w' hw' with hnew' | ⟨-, hm⟩
    · -- The second use draws numbers that are not yet given after the first.
      have hfirst := h.drawn ▸ mem_map_of_mem (f := Var.id) hnew
      have hsecond := h'.drawn ▸ mem_map_of_mem (f := Var.id) hnew'
      obtain ⟨i, hi, hfirst⟩ := mem_map.1 hfirst
      obtain ⟨j, -, hsecond⟩ := mem_map.1 hsecond
      have hnumber := generatedId_injective (hfirst.trans (hid.symm.trans hsecond.symm))
      have hcount := h.count
      rw [mem_range] at hi
      omega
    · exact hid ▸ hm
  · exact hm

namespace Scheme

open Supply

variable {sc : Scope} {t : Ty} {s : Supply}

/-- How a substitution that only renames changes the name of a variable. -/
def newName (r : Subst) (id : String) : String :=
  match get? r id with
  | some (.var w) => w.id
  | _ => id

/-- A name is changed to that of the next variable in turn, or it is left as it is. -/
theorem newName_cases (vs : List Var) (hvs : (vs.map Var.id).Nodup) (id : String) :
    (∃ i v, vs[i]? = some v ∧ v.id = id ∧ get? (renewal s vs []).1 id = some (.var (s.nth i)) ∧
      newName (renewal s vs []).1 id = (s.nth i).id) ∨
    id ∉ vs.map Var.id ∧ Dict.get? (renewal s vs []).1 id = none ∧
      newName (renewal s vs []).1 id = id := by
  by_cases hid : id ∈ vs.map Var.id
  · obtain ⟨v, hv, rfl⟩ := mem_map.1 hid
    obtain ⟨i, hi⟩ := mem_iff_getElem?.1 hv
    have hget := get?_renewal_nth s vs [] hvs hi
    exact .inl ⟨i, v, hi, rfl, hget, by rw [newName, hget]⟩
  · have hget : get? (renewal s vs []).1 id = none := get?_renewal_of_not_mem s vs [] hid
    exact .inr ⟨hid, hget, by rw [newName, hget]⟩

theorem val_renewal (vs : List Var) (hvs : (vs.map Var.id).Nodup) (id : String) :
    (renewal s vs []).1.val id = free (newName (renewal s vs []).1 id) := by
  rcases newName_cases vs hvs id with ⟨i, v, -, -, hget, hid⟩ | ⟨-, hget, hid⟩
  · rw [Subst.val_of_get? hget, hid]
    rfl
  · rw [Subst.val_of_not_mem (get?_eq_none_iff.1 hget), hid]

/-- New variables can be put in for variables that were made before. -/
theorem started_renewal {vs : List Var} (hvs : ∀ v ∈ vs, s.MadeVar v) (hs : s.attachments.Coherent) :
    Started s.attachments.tailShapes (renewal s vs []).2.attachments (renewal s vs []).1 := by
  obtain ⟨htails, hmem⟩ := renewal_spec s vs []
  have hstart : Started s.attachments.tailShapes s.attachments (renewal s vs []).1 := by
    refine reached_free hs (sorted_renewal s vs [] .nil) (fun _ _ => id) fun e he => ?_
    obtain ⟨-, n, c, hn, hvar⟩ := (hmem e he).resolve_right (by simp)
    rw [hvar]
    refine clear_free (fun id hid hkey => ?_) (.var _)
    obtain rfl : id = generatedId n := by simpa using hid
    -- The variables that are replaced have numbers that were given before.
    obtain ⟨x, hx, hxid⟩ := mem_map.1 (hkey.resolve_left id)
    obtain ⟨⟨v, hv, hvid⟩, -⟩ := (hmem x hx).resolve_right (by simp)
    exact Nat.not_le_of_lt ((hvs v hv).1 n (hvid.trans hxid)) hn
  exact hstart.of_tails htails

/-- A use, with the supply it leaves. -/
theorem instantiate_generalize_eq (sc : Scope) (t : Ty) (s : Supply) : (sc.generalize t).instantiate s =
    (((renewal s (sc.generalize t).vars []).2.attachments.apply (renewal s (sc.generalize t).vars []).1 t).1,
      ⟨(renewal s (sc.generalize t).vars []).2.count, (renewal s (sc.generalize t).vars []).2.attachments.revise
        (renewal s (sc.generalize t).vars []).1 t⟩) := rfl

/-- If the variables that are drawn are such that `Q`, and so are those of a type and of tails, then those
of a use and of the tails after it are so too. -/
theorem all_use {Q : Var → Prop} {L : Label → Prop} (hL : Copied L)
    (hdrawn : ∀ i < (sc.generalize t).vars.length, Q (s.nth i)) (htype : t.All Q L L)
    (htails : s.attachments.AllTails Q L L) : ((sc.generalize t).instantiate s).1.All Q L L ∧
      ((sc.generalize t).instantiate s).2.attachments.AllTails Q L L := by
  have hsame := (renewal_spec s (sc.generalize t).vars []).1
  refine Attachments.AllTails.apply hL hL (fun d hd => htails d (hsame ▸ hd)) htype fun e he => ?_
  have hget := (sorted_renewal s (sc.generalize t).vars [] .nil).get?_of_mem he
  rcases newName_cases (s := s) _ Scope.nodup_generalize e.1 with ⟨i, v, hv, -, hnew, -⟩ | ⟨-, hnone, -⟩
  · rw [hnew, Option.some.injEq] at hget
    exact hget ▸ .var (hdrawn i (List.getElem?_eq_some_iff.1 hv).1)
  · rw [hnone] at hget
    cases hget

theorem get_instantiate (c : Cell) : ((sc.generalize t).instantiate s).2.attachments.get c =
    (renewal s (sc.generalize t).vars []).2.attachments.get c :=
  congrFun (get_of_sets (rewrites_revise _ t).sets.1) c

end Scheme

namespace Supply.Covers

open Scheme

variable {sc : Scope} {t : Ty} {s : Supply} (h : s.Covers sc t)
include h

theorem made_generalize : ∀ v ∈ (sc.generalize t).vars, s.MadeVar v :=
  fun _ hv => h.type.of_mem_vars (of_mem_generalize hv).1

theorem lt_count (hid : t.occurs id = true ∨ sc.mentions id = true) (hn : id = generatedId n) :
    n < s.count := by
  rcases hid with hid | hid
  · obtain ⟨v, hv, rfl⟩ := mem_map.1 (occurs_iff_mem_ids.1 hid)
    exact (h.type.of_mem_vars hv).1 n hn
  · exact h.scope n (hn ▸ hid)

/-- A use is the type with names changed. -/
theorem bare_instantiate : ((sc.generalize t).instantiate s).1.bare =
    t.inst fun id => free (newName (renewal s (sc.generalize t).vars []).1 id) := by
  rw [instantiate_generalize_eq, Reached.bare_apply (started_renewal h.made_generalize h.coherent) h.shown]
  exact inst_congr fun id _ => val_renewal _ Scope.nodup_generalize id

theorem newName_injective {i j : String} (hi : t.occurs i = true ∨ sc.mentions i = true)
    (hj : t.occurs j = true ∨ sc.mentions j = true) (heq : newName (renewal s (sc.generalize t).vars []).1 i =
      newName (renewal s (sc.generalize t).vars []).1 j) : i = j := by
  rcases newName_cases (s := s) _ Scope.nodup_generalize i with ⟨m, v, hv, rfl, -, him⟩ | ⟨-, -, him⟩ <;>
    rcases newName_cases (s := s) _ Scope.nodup_generalize j with ⟨n, w, hw, rfl, -, hjn⟩ | ⟨-, -, hjn⟩ <;>
    rw [him, hjn] at heq
  · have hmn := generatedId_injective heq
    obtain rfl : m = n := by omega
    rw [hv, Option.some.injEq] at hw
    rw [hw]
  · have := h.lt_count hj heq.symm
    omega
  · have := h.lt_count hi heq
    omega
  · exact heq

/-- The variables of a use are new, or they are there before and mentioned. -/
theorem vars_instantiate : ∀ w ∈ ((sc.generalize t).instantiate s).1.vars,
    w ∈ (List.range (sc.generalize t).vars.length).map s.nth ∨ s.MadeVar w ∧ sc.mentions w.id = true := by
  intro w hw
  have hall : (((sc.generalize t).instantiate s).1).All
      (fun w => w ∈ (List.range (sc.generalize t).vars.length).map s.nth ∨ s.MadeVar w) s.MadeLabel s.MadeLabel :=
    (all_use s.copied_madeLabel (fun i hi => .inl (mem_map_of_mem (mem_range.2 hi)))
      (h.type.imp (fun _ _ => .inr) (fun _ => id) fun _ => id)
      fun d hd f hf => (h.tails d hd f hf).imp (fun _ _ => .inr) (fun _ => id) fun _ => id).1
  refine (hall.of_mem_vars hw).imp_right fun hmade => ⟨hmade, ?_⟩
  -- What is there before is not new, so its name is not changed.
  have hid : w.id ∈ ((sc.generalize t).instantiate s).1.bare.ids := mem_ids_bare.2 (mem_map_of_mem hw)
  rw [h.bare_instantiate, mem_ids_inst] at hid
  obtain ⟨id, hocc, hid⟩ := hid
  rw [ids_free, mem_singleton] at hid
  rcases newName_cases (s := s) _ Scope.nodup_generalize id with ⟨i, v, -, -, -, hnew⟩ | ⟨hnone, -, hnew⟩
  · have := hmade.1 _ (hid.trans hnew)
    omega
  · rw [hnew] at hid
    rw [mem_ids_generalize, not_and, Bool.not_eq_false] at hnone
    exact hid ▸ hnone (occurs_iff_mem_ids.2 hocc)

theorem freshRenaming : FreshRenaming sc t s ((sc.generalize t).instantiate s).1
    ((sc.generalize t).instantiate s).2 ((List.range (sc.generalize t).vars.length).map s.nth)
    (newName (renewal s (sc.generalize t).vars []).1) where
  quantified _ := Scope.mem_ids_generalize
  drawn := by
    rw [map_map]
    rfl
  count := count_renewal s _ []
  moved := by
    refine ext_getElem (by simp) fun i hi _ => ?_
    rw [length_map] at hi
    have hget := get?_renewal_nth s _ [] nodup_generalize (getElem?_eq_getElem hi)
    simp [newName, hget]
  fixed id hid := by
    rcases newName_cases (s := s) (sc.generalize t).vars nodup_generalize id with
      ⟨i, v, hv, rfl, -⟩ | ⟨-, -, hsame⟩
    · rw [(of_mem_generalize (mem_of_getElem? hv)).2] at hid
      cases hid
    · exact hsame
  injective _ _ := h.newName_injective
  equal := by
    rw [equal_iff, h.bare_instantiate, bare, inst_inst]
    rfl
  vars := h.vars_instantiate
  classes := by
    refine ext_getElem (by simp) fun i _ hi => ?_
    rw [length_map] at hi
    simpa [get_instantiate] using get_renewal_nth s _ [] (fun v hv => (h.made_generalize v hv).2)
      (getElem?_eq_getElem hi)
  apart w hw v hne hv c := by
    obtain ⟨i, -, rfl⟩ := mem_map.1 hw
    refine (get_set _ _ _ _).trans (if_neg fun hcell => ?_)
    rcases hv with hv | hv
    · obtain ⟨j, -, rfl⟩ := mem_map.1 hv
      exact hne (congrArg s.nth (Nat.add_left_cancel hcell.symm))
    · exact Nat.not_lt.2 (Nat.le_add_right _ _) (hcell ▸ hv.2)

/-- If the scope mentions all variables in tails of the type, the type is covered after a use as before. -/
theorem covers_instantiate (hstay : ∀ n d, t.HasTail n → s.attachments.tails[n]? = some d →
      ∀ f ∈ d, ∀ id ∈ f.2.ids, sc.mentions id = true) : ((sc.generalize t).instantiate s).2.Covers sc t := by
  have hsame := (renewal_spec s (sc.generalize t).vars []).1
  have hcount := count_renewal s (sc.generalize t).vars []
  have hnext : ((sc.generalize t).instantiate s).2.attachments.next =
      s.attachments.next + (sc.generalize t).vars.length :=
    (rewrites_revise _ t).sets.2.trans (next_renewal s _ [])
  have hlength : ((sc.generalize t).instantiate s).2.attachments.tails.length = s.attachments.tails.length :=
    (length_rewrites (rewrites_revise _ t)).trans (by rw [hsame])
  have hshapes : ((sc.generalize t).instantiate s).2.attachments.tailShapes = s.attachments.tailShapes := by
    have hbefore : (renewal s (sc.generalize t).vars []).2.attachments.tailShapes = s.attachments.tailShapes := by
      rw [tailShapes, hsame, tailShapes]
    refine Eq.trans (tailShapes_revise (hbefore ▸ h.shown) fun n d hn hd f hf id hid hkey => ?_) hbefore
    have hm := hstay n d hn (hsame ▸ hd) f hf id hid
    rcases newName_cases (s := s) (sc.generalize t).vars Scope.nodup_generalize id with
      ⟨i, v, hv, rfl, -⟩ | ⟨-, hnone, -⟩
    · rw [(Scope.of_mem_generalize (mem_of_getElem? hv)).2] at hm
      cases hm
    · exact get?_eq_none_iff.1 hnone hkey
  have hmade {x : Ty} (hx : s.Made x) : ((sc.generalize t).instantiate s).2.Made x :=
    Made.mono hx (hcount ▸ Nat.le_add_right _ _) (hnext ▸ Nat.le_add_right _ _) hlength.symm
  have hdrawn (i : Nat) (hi : i < (sc.generalize t).vars.length) :
      ((sc.generalize t).instantiate s).2.MadeVar (s.nth i) :=
    madeVar_generated (hcount ▸ Nat.add_lt_add_left hi _) (hnext ▸ Nat.add_lt_add_left hi _)
  refine ⟨fun n hn => Nat.lt_of_lt_of_le (h.scope n hn) (hcount ▸ Nat.le_add_right _ _), hmade h.type,
    (all_use (copied_madeLabel _) hdrawn (hmade h.type) fun d hd f hf => hmade (h.tails d hd f hf)).2,
    ?_, hshapes ▸ h.shown⟩
  rw [Attachments.Coherent, hshapes]
  exact h.coherent

end Supply.Covers

/-- A use of a type that was generalized is the type, but for the variables that were generalized: they are
renamed to new ones. If the scope mentions all variables in tails of the type, this is so of the next use,
and it has only variables of the scope in common with the first. -/
theorem instantiate_generalize {sc : Scope} {t u u' : Ty} {s s' s'' : Supply} (h : s.Covers sc t)
    (hu : (sc.generalize t).instantiate s = (u, s')) (hu' : (sc.generalize t).instantiate s' = (u', s'')) :
    (∃ new ρ, FreshRenaming sc t s u s' new ρ) ∧
      ((∀ n d, t.HasTail n → s.attachments.tails[n]? = some d → ∀ f ∈ d, ∀ id ∈ f.2.ids, sc.mentions id = true) →
        (∃ new ρ, FreshRenaming sc t s' u' s'' new ρ) ∧
          ∀ id, u.occurs id = true → u'.occurs id = true → sc.mentions id = true) := by
  have hfirst := h.freshRenaming
  refine ⟨⟨_, _, hu ▸ hfirst⟩, fun hstay => ?_⟩
  have hcovers := h.covers_instantiate hstay
  rw [hu] at hfirst hcovers
  have hnext := hu' ▸ hcovers.freshRenaming
  exact ⟨⟨_, _, hnext⟩, fun _ => hfirst.mentions_of_common hnext⟩

/-- A record whose field is in a tail, and a variable with a class. -/
def boxAndItem : Ty :=
  .con "Pair" [.record "Box" [("x", .var ⟨generatedId 0, 0⟩)] ⟨[], none, some ⟨0, 0⟩⟩,
    .var ⟨generatedId 1, 1⟩] .none

/-- A supply that has made `boxAndItem`. -/
def boxSupply : Supply := ⟨2, ⟨[(1, ["Num"])], 2, [[("x", .var ⟨generatedId 0, 0⟩)]]⟩⟩

/-- A name has the type of the field. -/
def fieldScope : Scope := [{ Frame.empty with types := [("y", ⟨[], .var ⟨generatedId 0, 0⟩⟩)] }]

theorem covers_boxAndItem (hsc : ∀ n, sc.mentions (generatedId n) = true → n < 2) :
    boxSupply.Covers sc boxAndItem := by
  have hvar (n : Nat) (hn : n < 2) : boxSupply.Made (.var ⟨generatedId n, n⟩) :=
    .var (Supply.madeVar_generated hn hn)
  have hfield : ∀ f ∈ [("x", Ty.var ⟨generatedId 0, 0⟩)], boxSupply.Made f.2 := by
    simpa using hvar 0 (by decide)
  refine ⟨hsc, .con ⟨by rintro c ⟨⟩, by rintro u ⟨⟩⟩ ?_, ?_, ?_, .con ?_⟩
  · refine forall_mem_cons.2 ⟨.record ⟨by simp, ?_⟩ hfield, by simpa using hvar 1 (by decide)⟩
    rintro u ⟨⟩
    decide
  · intro d hd
    obtain rfl := mem_singleton.1 hd
    exact hfield
  · intro d hd f hf
    obtain rfl := mem_singleton.1 hd
    obtain rfl := mem_singleton.1 hf
    exact .var _
  · refine forall_mem_cons.2 ⟨.record (forall_mem_singleton.2 (.var _)) ?_,
      forall_mem_singleton.2 (.var _)⟩
    rintro u ⟨⟩
    rfl

theorem instantiate_generalize_box : boxSupply.Covers fieldScope boxAndItem ∧ ∃ u s' u' s'',
    (fieldScope.generalize boxAndItem).instantiate boxSupply = (u, s') ∧
    (fieldScope.generalize boxAndItem).instantiate s' = (u', s'') ∧
    (∃ new ρ, FreshRenaming fieldScope boxAndItem boxSupply u s' new ρ) ∧
    (∃ new ρ, FreshRenaming fieldScope boxAndItem s' u' s'' new ρ) ∧
    ∀ id, u.occurs id = true → u'.occurs id = true → fieldScope.mentions id = true := by
  have hcovers : boxSupply.Covers fieldScope boxAndItem := covers_boxAndItem fun n hn => by
    have hid : Var.generatedId 0 = Var.generatedId n := by
      simpa [fieldScope, Scope.mentions, Ty.occurs] using hn
    exact Var.generatedId_injective hid ▸ by decide
  obtain ⟨hfirst, hnext⟩ := instantiate_generalize hcovers rfl rfl
  refine ⟨hcovers, _, _, _, _, rfl, rfl, hfirst, hnext fun n d _ hd f hf id hid => ?_⟩
  obtain rfl := mem_singleton.1 (mem_of_getElem? hd)
  obtain rfl := mem_singleton.1 hf
  obtain rfl : id = Var.generatedId 0 := by simpa using hid
  simp [fieldScope, Scope.mentions, Ty.occurs]

/-- If a variable in a tail is generalized, the first use puts the new variable in the tail itself, and the
next use has it too. -/
theorem uses_share_tail : boxSupply.Covers [] boxAndItem ∧
    ((Scope.generalize [] boxAndItem).instantiate boxSupply).1.occurs "T2" = true ∧
    ((Scope.generalize [] boxAndItem).instantiate
      ((Scope.generalize [] boxAndItem).instantiate boxSupply).2).1.occurs "T2" = true :=
  ⟨covers_boxAndItem (by simp [Scope.mentions]), by decide +kernel, by decide +kernel⟩

end ScriptTyping
