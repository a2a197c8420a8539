import ScriptTyping.Proofs.Classes

/-!
# Types that need no bindings

Unification can be used to ask whether two types go together as they stand. **Theorem
(`unify_empty_iff_matches`).** It succeeds without bindings exactly if the types match, and then it
leaves all classes and tails as they are. Equal types match, so that it never counts whether two types
are seen to be one or are compared part by part.

One direction is soundness, for no bindings at all. The other is an induction over the course of
unification: the parts of types that match are pairs that match (`Matches.parts`), and where each pair
finds nothing, the next one starts from what the first one did (`RunEach.idle`).
-/

namespace ScriptTyping

open Ty Attachments List Unify

/-! ## Parts of types that match -/

namespace Matches

/-- If the left record has each field of the right one, none is missing, and fields that are related
make pairs that are. -/
theorem to_fieldParts {R : Ty → Ty → Prop} {left : String} {fs gs : List (String × Ty)}
    (hkeys : ∀ g ∈ gs, g.1 ∈ Dict.keys fs) (h : ∀ g ∈ gs, ∀ t, Dict.get? fs g.1 = some t → R t g.2) :
    (fieldParts left fs gs).fault = none ∧
      ∀ p ∈ (fieldParts left fs gs).pairs, R p.1 p.2 := by
  induction gs with
  | nil => simp [fieldParts]
  | cons g gs ih =>
    obtain ⟨hkey, hkeys⟩ := forall_mem_cons.1 hkeys
    obtain ⟨hfirst, hrest⟩ := forall_mem_cons.1 h
    obtain ⟨hfault, hpairs⟩ := ih hkeys hrest
    cases hget : Dict.get? fs g.1 with
    | none => exact absurd hkey (Dict.get?_eq_none_iff.1 hget)
    | some t =>
      simp only [fieldParts, hget]
      exact ⟨hfault, forall_mem_cons.2 ⟨hfirst t hget, hpairs⟩⟩

theorem to_mapParts {R : Ty → Ty → Prop} {name owner : String} {xs : List Ty}
    {fs : List (String × Ty)} {l k : Label} {value : Ty} (hmap : Ty.isMapName name = true)
    (hlast : xs.getLast? = some value) (h : ∀ f ∈ fs, R value f.2) :
    (mapParts name xs l owner fs k).fault = none ∧
      ∀ p ∈ (mapParts name xs l owner fs k).pairs, R p.1 p.2 := by
  simp only [mapParts, hmap, hlast, true_and]
  exact forall_mem_map.2 fun f hf => h f hf

/-- The parts of constructors and records that match are pairs that match. -/
theorem parts {t u : Ty} (h : Matches t u) (ht : t.Compound) :
    (parts t u).fault = none ∧ ∀ p ∈ (parts t u).pairs, Matches p.1 p.2 := by
  cases h with
  | var => exact absurd rfl (ht.2 _)
  | con hlen h => simpa [Unify.parts, hlen] using h
  | mapRecord hmap hlast h => exact to_mapParts hmap hlast h
  | recordMap hmap hlast h => exact to_mapParts hmap hlast h
  | record hkeys h =>
    rw [Unify.parts, if_pos (.inl rfl)]
    exact to_fieldParts hkeys h
  | anonymousRight _ hkeys h =>
    rw [Unify.parts, if_pos (.inr rfl)]
    exact to_fieldParts hkeys h
  | anonymousLeft hname hkeys h =>
    rw [Unify.parts, if_neg (by simp [hname, hname.symm]), if_pos rfl]
    exact to_fieldParts hkeys h

theorem of_equal {t u : Ty} (hu : u.Proper) (h : t.equal u = true) : Matches t u := by
  rw [← bare_iff, equal_iff.1 h]
  exact refl (proper_bare.2 hu)

end Matches

/-! ## Unification -/

namespace Unify

variable {reg : Registry} {keep : Bool} {a : Attachments}

theorem extend_nil (keep : Bool) (a : Attachments) : a.extend keep [] [] = ([], a) := by
  cases keep <;> rfl

mutual

/-- Types that match are unified without any trace. -/
theorem Run.idle : ∀ {a : Attachments} {t u : Ty} {c : Course Subst}, Run reg keep a t u c →
    Matches t u → c = ⟨a, .ok [], []⟩
  | _, _, _, _, .missingLeft _ _, _ => rfl
  | _, _, _, _, .missingRight _ _, _ => rfl
  | _, _, _, _, .same _ _, _ => rfl
  | _, _, _, _, .vars _ hne, hmatch => by
    cases hmatch with
    | var h => exact absurd h hne
  | _, _, _, _, .left _ _ hu, hmatch => by
    cases hmatch with
    | var => exact absurd rfl (hu.2 _)
  | _, _, _, _, .right _ _ ht, hmatch => by
    cases hmatch with
    | var => exact absurd rfl (ht.2 _)
  | _, _, _, _, .parts ht _ h, hmatch => by
    obtain ⟨hfault, hpairs⟩ := hmatch.parts ht
    rw [hfault, RunEach.idle h rfl hpairs]
    rfl

/-- Each pair starts from what the first one did. -/
theorem RunEach.idle : ∀ {a : Attachments} {s : Subst} {ps : List (Ty × Ty)} {c : Course Subst},
    RunEach reg keep a s ps c → s = [] → (∀ p ∈ ps, Matches p.1 p.2) → c = ⟨a, .ok [], []⟩
  | _, _, _, _, .nil _ _, hs, _ => by rw [hs]
  | a, s, p :: _, _, .fail h, hs, hps => by
    have hp : Matches (Subst.apply a s p.1) (Subst.apply a s p.2) := by
      rw [hs]
      exact hps p mem_cons_self
    have hidle := Run.idle h hp
    simp at hidle
  | a, s, p :: _, _, .next h hrest, hs, hps => by
    have hp : Matches (Subst.apply a s p.1) (Subst.apply a s p.2) := by
      rw [hs]
      exact hps p mem_cons_self
    obtain ⟨hb, hr, hdone⟩ := Course.mk.injEq .. ▸ Run.idle h hp
    rw [Except.ok.injEq] at hr
    have hextend : extend keep a [] [] = ([], a) := extend_nil keep a
    have hlast := RunEach.idle hrest (by rw [hb, hr, hs, hextend]) fun q hq =>
      hps q (mem_cons_of_mem _ hq)
    rw [hlast, hb, hr, hs, hdone, hextend]
    cases keep <;> rfl

end

theorem unifyListing_of_matches {t u : Ty} (h : Matches t u) :
    unifyListing reg keep a t u = ((a, .ok []), []) := by
  have hidle := (run_unifyWithin reg keep a t u).idle h
  have heq : unifyListing reg keep a t u =
      (((unifyWithin reg keep a t u).forget.attachments,
        (unifyWithin reg keep a t u).forget.result), (unifyWithin reg keep a t u).forget.done) := rfl
  rw [heq, hidle]

/-- Where nothing had to be bound, the types match as they stand. -/
theorem matches_of_unifyListing {t u : Ty} (ht : t.Proper) (hu : u.Proper)
    (h : (unifyListing reg keep a t u).1.2 = .ok []) : Matches t u :=
  Matches.bare_iff.1 ((run_unifyWithin reg keep a t u).sound ht hu h).2

end Unify

open Unify

/-- Unification succeeds without bindings exactly if the two types match. Then nothing else is changed,
neither classes nor tails, and equal types are such types. -/
theorem unify_empty_iff_matches (reg : Registry) (keep : Bool) (a : Attachments) {t u : Ty}
    (ht : t.Proper) (hu : u.Proper) : ((unifyListing reg keep a t u).1.2 = .ok [] ↔ Matches t u) ∧
    (Matches t u → unifyListing reg keep a t u = ((a, .ok []), [])) ∧
    (t.equal u = true → unifyListing reg keep a t u = ((a, .ok []), [])) ∧
    ∀ x y, a.current x = t → a.current y = u →
      ((unifyIn reg a x y).1 = .ok [] ↔ Matches t u) ∧
      (Matches t u → unifyIn reg a x y = (.ok [], a)) := by
  refine ⟨⟨matches_of_unifyListing ht hu, fun h => ?_⟩, unifyListing_of_matches,
    fun h => unifyListing_of_matches (.of_equal hu h), ?_⟩
  · rw [unifyListing_of_matches h]
  · rintro x y rfl rfl
    have hidle (h : Matches (a.current x) (a.current y)) : unifyIn reg a x y = (.ok [], a) := by
      rw [unifyIn, unifyListing_of_matches h]
      rfl
    exact ⟨⟨matches_of_unifyListing ht hu, fun h => by rw [hidle h]⟩, hidle⟩

def narrowRecord (name : String) : Ty := .record name [("x", .var ⟨"b", 1⟩)] .none

/-- A record with the field `x`, and another. -/
def wideRecord : Ty := .record "Inner" [("x", .var ⟨"b", 1⟩), ("y", .var ⟨"a", 0⟩)] .none

theorem proper_narrowRecord (name : String) : (narrowRecord name).Proper :=
  .record (Dict.sorted_singleton _ _) (by simp [Proper.var])

theorem proper_wideRecord : wideRecord.Proper :=
  .record (by simp only [Dict.Sorted, Dict.keys]; decide +kernel) (by simp [Proper.var])

open Constraint in
/-- A map whose values ask for `x` goes together with a record whose field has more. A record without
`y` does not go together with one that asks for it. -/
theorem unify_empty_iff_matches_nested :
    unifyIn Class.ofPrimitive numbered (.app Ty.mapName [narrowRecord Ty.anonymous])
        (.record "Outer" [("inner", wideRecord)] .none) = (.ok [], numbered) ∧
      unifyListing Class.ofPrimitive false numbered wideRecord wideRecord =
        ((numbered, .ok []), []) ∧
      ¬ Matches (narrowRecord "Inner") wideRecord := by
  have hinner : Matches (narrowRecord Ty.anonymous) wideRecord :=
    .anonymousLeft (by decide) (by simp [Dict.keys]) (by simp [Dict.get?_cons, Matches.var])
  have hmatch : Matches (.app Ty.mapName [narrowRecord Ty.anonymous])
      (.record "Outer" [("inner", wideRecord)] .none) :=
    .mapRecord (by decide) rfl (by simpa using hinner)
  have hmap : (Ty.app Ty.mapName [narrowRecord Ty.anonymous]).Proper :=
    .con (by simpa using proper_narrowRecord Ty.anonymous)
  have houter : (Ty.record "Outer" [("inner", wideRecord)] .none).Proper :=
    .record (Dict.sorted_singleton _ _) (by simpa using proper_wideRecord)
  obtain ⟨-, -, -, hcurrent⟩ := unify_empty_iff_matches Class.ofPrimitive true numbered hmap houter
  obtain ⟨-, -, hequal, -⟩ := unify_empty_iff_matches Class.ofPrimitive false numbered
    proper_wideRecord proper_wideRecord
  obtain ⟨hiff, -, -, -⟩ := unify_empty_iff_matches Class.ofPrimitive false numbered
    (proper_narrowRecord "Inner") proper_wideRecord
  refine ⟨?_, hequal (by cbv), fun h => ?_⟩
  · exact (hcurrent _ _ (current_of_tails rfl _) (current_of_tails rfl _)).2 hmatch
  · have hfail : (unifyListing Class.ofPrimitive false numbered (narrowRecord "Inner")
        wideRecord).1.2.isOk = false := by cbv
    rw [hiff.2 h] at hfail
    cases hfail

end ScriptTyping
