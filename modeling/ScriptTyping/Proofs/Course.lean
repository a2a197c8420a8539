import ScriptTyping.Proofs.Matching
import ScriptTyping.Unify

/-!
# The course of unification

What unification can do, said once. `Run a t u c` relates two types to the course of their
unification, with one rule for each way it can go, and `RunEach a s ps c` does the same for pairs
that are unified one after another. `run_unifyWithin` shows that unification follows the rules; what
is known about it is then proved by induction on a run.

The first such fact is `Run.sound`: bindings that were found are sorted, confined to the variables of
the two types, proper, and make the types match.
-/

namespace ScriptTyping

open List Dict Subst Attachments

variable {keep : Bool} {vs : List String} {id : String} {t u x : Ty} {p : Ty × Ty} {P : Ty → Prop}

namespace Ty

/-- A constructor or a record. -/
def Compound (t : Ty) : Prop := t ≠ missing ∧ ∀ v, t ≠ var v

/-- The type `x` stands directly below another. -/
def Child (x : Ty) : Ty → Prop
  | con _ args _ => x ∈ args
  | record _ fields _ => ∃ k, (k, x) ∈ fields
  | _ => False

theorem Proper.child (h : t.Proper) (hx : x.Child t) : x.Proper := by
  cases h with
  | var => cases hx
  | con h => exact h x hx
  | record _ h =>
    obtain ⟨k, hk⟩ := hx
    exact h _ hk

theorem Plain.child (h : t.Plain) (hx : x.Child t) : x.Plain := by
  cases h with
  | var => cases hx
  | con h => exact h x hx

end Ty

namespace Unify

/-- A course that also fails if something is wrong behind the last pair. -/
def Course.guard (c : Course Subst) (fault : Option UnifyError) : Course Subst :=
  match c.result, fault with
  | .ok _, some e => { c with result := .error e }
  | _, _ => c

/-- A course without the fact about its bindings. -/
def Course.forget {P : Subst → Prop} (c : Course { s : Subst // P s }) : Course Subst :=
  ⟨c.attachments, c.result.map Subtype.val, c.done⟩

mutual

/-- The course of the unification of two types. -/
inductive Run (reg : Registry) (keep : Bool) : Attachments → Ty → Ty → Course Subst → Prop
  | missingLeft (a : Attachments) (u : Ty) : Run reg keep a .missing u ⟨a, .ok [], []⟩
  | missingRight (a : Attachments) (t : Ty) : Run reg keep a t .missing ⟨a, .ok [], []⟩
  | same (a : Attachments) {v w : Var} (h : v.id = w.id) :
    Run reg keep a (.var v) (.var w) ⟨a, .ok [], []⟩
  | vars (a : Attachments) {v w : Var} (h : v.id ≠ w.id) :
    Run reg keep a (.var v) (.var w) ⟨share a v w, .ok (bindVars v w), []⟩
  | left (a : Attachments) (v : Var) {u : Ty} (hu : u.Compound) :
    Run reg keep a (.var v) u ⟨a, bindChecked reg a v u, []⟩
  | right (a : Attachments) {t : Ty} (w : Var) (ht : t.Compound) :
    Run reg keep a t (.var w) ⟨a, bindChecked reg a w t, []⟩
  | parts {a} {t : Ty} {u : Ty} {c} (ht : t.Compound) (hu : u.Compound)
    (h : RunEach reg keep a [] (parts t u).pairs c) : Run reg keep a t u (c.guard (parts t u).fault)

/-- The course of the unification of pairs, each under the bindings found before. -/
inductive RunEach (reg : Registry) (keep : Bool) :
    Attachments → Subst → List (Ty × Ty) → Course Subst → Prop
  | nil (a : Attachments) (s : Subst) : RunEach reg keep a s [] ⟨a, .ok s, []⟩
  | fail {a b s} {p : Ty × Ty} {ps e done}
    (h : Run reg keep a (apply a s p.1) (apply a s p.2) ⟨b, .error e, done⟩) :
    RunEach reg keep a s (p :: ps) ⟨b, .error e, a.applications s [p.1, p.2] ++ done⟩
  | next {a b s r} {p : Ty × Ty} {ps done c}
    (h : Run reg keep a (apply a s p.1) (apply a s p.2) ⟨b, .ok r, done⟩)
    (hrest : RunEach reg keep (b.extend keep r s).2 (b.extend keep r s).1 ps c) : RunEach reg keep a s (p :: ps)
      { c with done := a.applications s [p.1, p.2] ++ done ++
          b.applications (b.adoptIf keep r).1 (s.map Prod.snd) ++ c.done }

end

/-! ## What rule a run follows -/

section

variable {reg : Registry} {keep : Bool} {a : Attachments} {v w : Var} {t u : Ty} {c : Course Subst}

theorem Run.of_missing_left (h : Run reg keep a .missing u c) : c = ⟨a, .ok [], []⟩ := by
  cases h with
  | missingLeft => rfl
  | missingRight => rfl
  | right _ _ ht => exact absurd rfl ht.1
  | parts ht => exact absurd rfl ht.1

theorem Run.of_missing_right (h : Run reg keep a t .missing c) : c = ⟨a, .ok [], []⟩ := by
  cases h with
  | missingLeft => rfl
  | missingRight => rfl
  | left _ _ hu => exact absurd rfl hu.1
  | parts _ hu => exact absurd rfl hu.1

theorem Run.of_vars (h : Run reg keep a (.var v) (.var w) c) :
    c = if v.id = w.id then ⟨a, .ok [], []⟩ else ⟨share a v w, .ok (bindVars v w), []⟩ := by
  cases h with
  | same _ h => rw [if_pos h]
  | vars _ h => rw [if_neg h]
  | left _ _ hu => exact absurd rfl (hu.2 _)
  | right _ _ ht => exact absurd rfl (ht.2 _)
  | parts ht => exact absurd rfl (ht.2 _)

theorem Run.of_left (h : Run reg keep a (.var v) u c) (hu : u.Compound) :
    c = ⟨a, bindChecked reg a v u, []⟩ := by
  cases h with
  | missingRight => exact absurd rfl hu.1
  | same => exact absurd rfl (hu.2 _)
  | vars => exact absurd rfl (hu.2 _)
  | left => rfl
  | right _ _ ht => exact absurd rfl (ht.2 _)
  | parts ht => exact absurd rfl (ht.2 _)

theorem Run.of_right (h : Run reg keep a t (.var w) c) (ht : t.Compound) :
    c = ⟨a, bindChecked reg a w t, []⟩ := by
  cases h with
  | missingLeft => exact absurd rfl ht.1
  | same => exact absurd rfl (ht.2 _)
  | vars => exact absurd rfl (ht.2 _)
  | left _ _ hu => exact absurd rfl (hu.2 _)
  | right => rfl
  | parts _ hu => exact absurd rfl (hu.2 _)

theorem Run.of_parts (h : Run reg keep a t u c) (ht : t.Compound) (hu : u.Compound) :
    ∃ d, RunEach reg keep a [] (Unify.parts t u).pairs d ∧ c = d.guard (Unify.parts t u).fault := by
  cases h with
  | missingLeft => exact absurd rfl ht.1
  | missingRight => exact absurd rfl hu.1
  | same => exact absurd rfl (ht.2 _)
  | vars => exact absurd rfl (ht.2 _)
  | left => exact absurd rfl (ht.2 _)
  | right => exact absurd rfl (hu.2 _)
  | parts _ _ h => exact ⟨_, h, rfl⟩

theorem RunEach.of_nil {s : Subst} (h : RunEach reg keep a s [] c) : c = ⟨a, .ok s, []⟩ := by
  cases h
  rfl

/-- Pairs are unified one after another, up to one that fails. -/
theorem RunEach.of_cons {s : Subst} {ps : List (Ty × Ty)} (h : RunEach reg keep a s (p :: ps) c) :
    ∃ d, Run reg keep a (apply a s p.1) (apply a s p.2) d ∧ ((∃ e, d.result = .error e ∧
          c = ⟨d.attachments, .error e, a.applications s [p.1, p.2] ++ d.done⟩) ∨
        ∃ r rest, d.result = .ok r ∧ RunEach reg keep (d.attachments.extend keep r s).2
            (d.attachments.extend keep r s).1 ps rest ∧
          c = ⟨rest.attachments, rest.result, a.applications s [p.1, p.2] ++ d.done ++
            d.attachments.applications (d.attachments.adoptIf keep r).1 (s.map Prod.snd) ++ rest.done⟩) := by
  cases h with
  | fail h => exact ⟨_, h, .inl ⟨_, rfl, rfl⟩⟩
  | next h hrest => exact ⟨_, h, .inr ⟨_, _, rfl, hrest, rfl⟩⟩

end

/-! ## Unification follows the rules -/

theorem runEach_eachWithin {reg : Registry}
    {recur : (a : Attachments) → (x y : Ty) → Smaller x y t u → Course (Bindings x y)}
    (hr : ∀ a x y h, Run reg keep a x y (recur a x y h).forget) (ps : List (Ty × Ty)) (h : ∀ p ∈ ps, Below p t u)
    (a : Attachments) (s : Bindings t u) :
    RunEach reg keep a s.1 ps (eachWithin keep t u recur ps h a s).forget := by
  induction ps generalizing a s with
  | nil => exact .nil a s.1
  | cons p ps ih =>
    have hp := hr a (apply a s.1 p.1) (apply a s.1 p.2)
      ((h p mem_cons_self).smaller s.2 a)
    simp only [eachWithin]
    split
    next a' e done heq =>
      rw [heq] at hp
      exact .fail hp
    next a' r done heq =>
      rw [heq] at hp
      exact .next (c := Course.forget _) hp (ih _ _ ⟨_, _⟩)

/-- Unification follows the rules. -/
theorem run_unifyWithin (reg : Registry) (keep : Bool) (a : Attachments) (t u : Ty) :
    Run reg keep a t u (unifyWithin reg keep a t u).forget := by
  rw [unifyWithin.eq_def]
  split
  · exact .missingLeft a _
  · exact .missingRight a _
  · split
    next h => exact .same a h
    next h => exact .vars a h
  next hm hv =>
    show Run reg keep a _ _ ⟨a, (certify _ _).map Subtype.val, []⟩
    rw [val_certify]
    exact .left a _ ⟨hm, hv⟩
  next hm hv =>
    show Run reg keep a _ _ ⟨a, (certify _ _).map Subtype.val, []⟩
    rw [val_certify]
    exact .right a _ ⟨hm, hv⟩
  next ht htv hu huv _ =>
    have heach := runEach_eachWithin (fun a x y _ => run_unifyWithin reg keep a x y)
      (parts t u).pairs (fun _ => below_parts) a ⟨[], within_nil _⟩
    have hrun := Run.parts ⟨ht, htv⟩ ⟨hu, huv⟩ heach
    dsimp only
    split <;> rename_i heq <;> rw [heq] at hrun
    · exact hrun
    · split <;> rename_i hfault <;> rw [hfault] at hrun <;> exact hrun
termination_by (distinct (t.ids ++ u.ids), t.size + u.size)
decreasing_by exact Smaller.lex ‹_›

end Unify

/-! ## Cells -/

namespace Attachments

open Ty

variable {fs : List (String × Ty)}

section

variable {tails : Bool} {θ : Valuation}

theorem trace_adoptLabel (a : Attachments) (l : Label) : (a.adoptLabel l).1.trace tails = l.trace tails := by
  unfold adoptLabel
  split <;> rfl

mutual

theorem fill_adopt (a : Attachments) : ∀ t : Ty, (a.adopt t).1.fill tails θ = t.fill tails θ
  | .missing => rfl
  | .var _ => rfl
  | .con name args l => by
    rw [adopt, fill_con, fill_con, map_fill_adoptAll a args, trace_adoptLabel]
  | .record name fields l => by
    rw [adopt, fill_record, fill_record, mapValues_fill_adoptFields a fields, trace_adoptLabel]

theorem map_fill_adoptAll (a : Attachments) :
    ∀ ts : List Ty, (a.adoptAll ts).1.map (fill tails θ) = ts.map (fill tails θ)
  | [] => rfl
  | t :: ts => by simp only [adoptAll, map_cons, fill_adopt a t, map_fill_adoptAll _ ts]

theorem mapValues_fill_adoptFields (a : Attachments) : ∀ fs : List (String × Ty),
    mapValues (fill tails θ) (a.adoptFields fs).1 = mapValues (fill tails θ) fs
  | [] => rfl
  | (k, t) :: fs => by
    have := mapValues_fill_adoptFields (a.adopt t).2 fs
    simp only [mapValues] at this ⊢
    simp only [adoptFields, map_cons, fill_adopt a t, this]

end

end

theorem bare_adopt (a : Attachments) (t : Ty) : (a.adopt t).1.bare = t.bare := fill_adopt a t

/-- A named type that got cells was there without them. -/
theorem of_mem_adoptFields {a : Attachments} {f : String × Ty} (h : f ∈ (a.adoptFields fs).1) :
    ∃ b, ∃ t, (f.1, t) ∈ fs ∧ f.2 = (adopt b t).1 := by
  induction fs generalizing a with
  | nil => simp [adoptFields] at h
  | cons g fs ih =>
    rw [adoptFields] at h
    rcases mem_cons.1 h with rfl | h
    · exact ⟨a, g.2, mem_cons_self, rfl⟩
    · obtain ⟨b, t, ht, heq⟩ := ih h
      exact ⟨b, t, mem_cons_of_mem _ ht, heq⟩

/-- What does not depend on cells is so of named types after they got cells. -/
theorem forall_adoptIf (hP : ∀ b t, P t → P (adopt b t).1) {a : Attachments} (h : ∀ f ∈ fs, P f.2) :
    ∀ f ∈ (a.adoptIf keep fs).1, P f.2 := by
  intro f hf
  cases keep with
  | false => exact h f hf
  | true =>
    obtain ⟨b, t, ht, heq⟩ := of_mem_adoptFields hf
    rw [heq]
    exact hP b t (h _ ht)

/-- Cells do not change the structure of types. -/
theorem mapValues_fill_adoptIf (tails keep : Bool) (a : Attachments) (fs : List (String × Ty)) :
    mapValues (fill tails free) (a.adoptIf keep fs).1 =
      mapValues (fill tails free) fs := by
  cases keep
  · rfl
  · exact mapValues_fill_adoptFields a fs

theorem keys_adoptIf (keep : Bool) (a : Attachments) (fs : List (String × Ty)) :
    Dict.keys (a.adoptIf keep fs).1 = Dict.keys fs := by
  rw [← keys_mapValues (fill false free), mapValues_fill_adoptIf, keys_mapValues]

end Attachments

/-! ## Soundness -/

namespace Subst

open Ty

variable {k : String}

/-- A sorted substitution that is confined to some variables and gives them proper types. -/
structure Good (vs : List String) (s : Subst) : Prop where
  sorted : Dict.Sorted s
  within : s.Within vs
  proper : ∀ e ∈ s, e.2.Proper

theorem good_nil (vs : List String) : Good vs [] :=
  ⟨sorted_nil, within_nil vs, fun _ h => absurd h not_mem_nil⟩

theorem good_single (h : Within vs [(id, t)]) (ht : t.Proper) : Good vs [(id, t)] :=
  ⟨sorted_singleton id t, h, by simpa using ht⟩

variable {vs ws : List String} {s r : Subst}

theorem fills_adoptIf (tails keep : Bool) (a : Attachments) (s : Subst) :
    fills tails (a.adoptIf keep s).1 = fills tails s := by
  funext id
  rw [fills, fills, ← get?_mapValues, a.mapValues_fill_adoptIf, get?_mapValues]

theorem sorted_adoptIf (keep : Bool) (a : Attachments) (h : Dict.Sorted s) :
    Dict.Sorted (a.adoptIf keep s).1 :=
  h.of_keys (a.keys_adoptIf keep s)

theorem sorted_extend (keep : Bool) (a : Attachments) (hr : Dict.Sorted r) (hs : Dict.Sorted s) :
    Dict.Sorted (a.extend keep r s).1 :=
  sorted_adoptIf keep _ (sorted_compose (sorted_adoptIf keep a hr) hs)

theorem mem_keys_compose {a : Attachments} :
    k ∈ Dict.keys (compose a r s) ↔ k ∈ Dict.keys s ∨ k ∈ Dict.keys r := by
  unfold compose
  split
  next hempty =>
    rw [List.isEmpty_iff.1 hempty]
    simp [Dict.keys]
  next => rw [mem_keys_insertAll, keys_mapValues]

theorem mem_keys_extend {a : Attachments} :
    k ∈ Dict.keys (a.extend keep r s).1 ↔ k ∈ Dict.keys s ∨ k ∈ Dict.keys r := by
  rw [extend, keys_adoptIf, mem_keys_compose, keys_adoptIf]

/-- What is in a composition. -/
theorem mem_compose {a : Attachments} {e : String × Ty} (h : e ∈ compose a r s) :
    (∃ x ∈ s, e = (x.1, apply a r x.2)) ∨ e ∈ r := by
  unfold compose at h
  split at h
  next hempty => exact .inl ⟨e, h, by rw [List.isEmpty_iff.1 hempty]; rfl⟩
  next =>
    rcases mem_insertAll h with h | h
    · obtain ⟨x, hx, rfl⟩ := mem_map.1 h
      exact .inl ⟨x, hx, rfl⟩
    · exact .inr h

theorem Good.adoptIf (keep : Bool) (a : Attachments) (h : Good vs s) : Good vs (a.adoptIf keep s).1 where
  sorted := sorted_adoptIf keep a h.sorted
  within := h.within.adoptIf keep
  proper := forall_adoptIf
    (fun b t ht => proper_of_bare (by rwa [b.bare_adopt, proper_bare])) h.proper

theorem Good.compose (a : Attachments) (hs : Good vs s) (hr : Good ws r)
    (hsub : ∀ w ∈ ws, w ∈ vs) (hdis : ∀ w ∈ ws, w ∉ Dict.keys s) : Good vs (compose a r s) where
  sorted := sorted_compose hr.sorted hs.sorted
  within := hs.within.compose hr.within hsub hdis
  proper e he := by
    rcases mem_compose he with ⟨x, hx, heq⟩ | he
    · rw [heq]
      exact proper_apply hr.proper (hs.proper x hx)
    · exact hr.proper e he

/-- What the next bindings are composed with, with cells where they are wanted. -/
theorem fills_extend {tails : Bool} {a : Attachments} (hs : Dict.Sorted s) (id : String) :
    fills tails (a.extend keep r s).1 id = (fills tails s id).fill tails (fills tails r) := by
  rw [extend, fills_adoptIf, fills_compose hs, fills_adoptIf]

theorem val_extend {a : Attachments} (hs : Dict.Sorted s) (id : String) : val (a.extend keep r s).1 id =
        (val s id).inst (val r) :=
  fills_extend hs id

end Subst

namespace Unify

open Ty

variable {reg : Registry} {keep : Bool} {a : Attachments} {v w : Var}

theorem bindVars_cases (v w : Var) : bindVars v w = [(w.id, .var v)] ∨ bindVars v w = [(v.id, .var w)] := by
  unfold bindVars
  split
  · exact .inl rfl
  · exact .inr rfl

/-- A variable that is bound to a constructor or record does not occur in it. -/
theorem bindChecked_eq_ok {s : Subst} (ht : t.Compound) (h : bindChecked reg a v t = .ok s) :
    s = [(v.id, t)] ∧ v.id ∉ t.ids := by
  unfold bindChecked at h
  split at h
  · unfold bind at h
    split at h
    next w _ => exact absurd rfl (ht.2 w)
    next =>
      split at h
      · cases h
      next hocc =>
        cases h
        exact ⟨rfl, fun hid => hocc (occurs_iff_mem_ids.2 hid)⟩
  · cases h

/-- A variable and what it is bound to become one. -/
theorem inst_val_single (h : id ∉ t.ids) : t.inst (val [(id, t)]) = t.bare := by
  refine inst_congr fun id' hid' => ?_
  rw [val_single, if_neg]
  rintro rfl
  exact h hid'

theorem matches_single (ht : t.Proper) (h : v.id ∉ t.ids) :
    Matches ((Ty.var v).inst (val [(v.id, t)])) (t.inst (val [(v.id, t)])) ∧
      Matches (t.inst (val [(v.id, t)])) ((Ty.var v).inst (val [(v.id, t)])) := by
  have hv : (Ty.var v).inst (val [(v.id, t)]) = t.bare := by
    rw [inst_var, val_single, if_pos rfl]
  rw [hv, inst_val_single h]
  exact ⟨.refl (proper_bare.2 ht), .refl (proper_bare.2 ht)⟩

theorem good_bindVars (h : v.id ≠ w.id) : (bindVars v w).Good ((Ty.var v).ids ++ (Ty.var w).ids) := by
  have hwithin := within_bindVars h
  rcases bindVars_cases v w with heq | heq <;> rw [heq] at hwithin ⊢
  · exact good_single hwithin (.var v)
  · exact good_single hwithin (.var w)

theorem matches_bindVars (h : v.id ≠ w.id) :
    Matches ((Ty.var v).inst (bindVars v w).val) ((Ty.var w).inst (bindVars v w).val) := by
  rcases bindVars_cases v w with heq | heq <;> rw [heq]
  · exact (matches_single (.var v) (by simpa using Ne.symm h)).2
  · exact (matches_single (.var w) (by simpa using h)).1

theorem Course.guard_eq_ok {c : Course Subst} {fault : Option UnifyError} {s : Subst}
    (h : (c.guard fault).result = .ok s) : c.result = .ok s ∧ fault = none := by
  unfold guard at h
  split at h
  · cases h
  next hnot => exact ⟨h, Option.eq_none_iff_forall_ne_some.2 fun e he => hnot s e h he⟩

theorem Course.attachments_guard (c : Course Subst) (fault : Option UnifyError) :
    (c.guard fault).attachments = c.attachments := by
  unfold guard
  split <;> rfl

theorem child_mapParts {n m : String} {xs : List Ty} {gs : List (String × Ty)} {l k : Label}
    (h : p ∈ (mapParts n xs l m gs k).pairs) : p.1.Child (.con n xs l) ∧ p.2.Child (.record m gs k) := by
  unfold mapParts at h
  split at h
  next hlast =>
    obtain ⟨f, hf, rfl⟩ := mem_map.1 h
    exact ⟨mem_of_getLast? hlast, f.1, hf⟩
  next => simp [Parts.clash] at h

/-- What is unified next stands directly below one of the two types. -/
theorem child_parts (h : p ∈ (parts t u).pairs) : (p.1.Child t ∨ p.1.Child u) ∧ (p.2.Child t ∨ p.2.Child u) := by
  unfold parts at h
  split at h
  · split at h
    · exact ⟨.inl (of_mem_zip h).1, .inr (of_mem_zip h).2⟩
    · simp [Parts.clash] at h
  · exact ⟨.inl (child_mapParts h).1, .inr (child_mapParts h).2⟩
  · exact ⟨.inr (child_mapParts h).1, .inl (child_mapParts h).2⟩
  · split at h
    · obtain ⟨k, hf, hg⟩ := mem_fieldParts h
      exact ⟨.inl ⟨k, hf⟩, .inr ⟨k, hg⟩⟩
    · split at h
      · obtain ⟨k, hg, hf⟩ := mem_fieldParts h
        exact ⟨.inr ⟨k, hg⟩, .inl ⟨k, hf⟩⟩
      · simp [Parts.clash] at h
  · simp [Parts.clash] at h

/-- What is so of two types and passes to what is below them is so of their parts. -/
theorem forall_parts (hP : ∀ t x, P t → Ty.Child x t → P x) (ht : P t) (hu : P u) (h : p ∈ (parts t u).pairs) :
    P p.1 ∧ P p.2 :=
  ⟨(child_parts h).1.elim (hP t _ ht) (hP u _ hu), (child_parts h).2.elim (hP t _ ht) (hP u _ hu)⟩

theorem proper_parts (ht : t.Proper) (hu : u.Proper) (h : p ∈ (parts t u).pairs) : p.1.Proper ∧ p.2.Proper :=
  forall_parts (fun _ _ => Proper.child) ht hu h

mutual

/-- What unification finds is good and makes the two types match. -/
theorem Run.sound : ∀ {a : Attachments} {t u : Ty} {c : Course Subst}, Run reg keep a t u c →
    t.Proper → u.Proper → ∀ {s : Subst}, c.result = .ok s →
    s.Good (t.ids ++ u.ids) ∧ Matches (t.inst s.val) (u.inst s.val)
  | _, _, _, _, .missingLeft _ _, ht, _, _, _ => by cases ht
  | _, _, _, _, .missingRight _ _, _, hu, _, _ => by cases hu
  | _, _, _, _, .same _ h, _, _, _, hs => by
    cases hs
    exact ⟨good_nil _, .var h⟩
  | _, _, _, _, .vars _ h, _, _, _, hs => by
    cases hs
    exact ⟨good_bindVars h, matches_bindVars h⟩
  | _, _, _, _, .left _ v hc, _, hu, _, hs => by
    have hwithin := within_bindChecked hs
    obtain ⟨rfl, hocc⟩ := bindChecked_eq_ok hc hs
    exact ⟨good_single hwithin hu, (matches_single hu hocc).1⟩
  | _, _, _, _, .right _ w hc, ht, _, _, hs => by
    have hwithin := within_comm (within_bindChecked hs)
    obtain ⟨rfl, hocc⟩ := bindChecked_eq_ok hc hs
    exact ⟨good_single hwithin ht, (matches_single ht hocc).2⟩
  | _, t, u, _, .parts _ _ h, ht, hu, _, hs => by
    obtain ⟨hs, hfault⟩ := Course.guard_eq_ok hs
    obtain ⟨hgood, -, hpairs⟩ := RunEach.sound h (good_nil (t.ids ++ u.ids))
      (fun p hp => ⟨(proper_parts ht hu hp).1, (proper_parts ht hu hp).2,
        (below_parts hp).left, (below_parts hp).right⟩) hs
    exact ⟨hgood, .of_parts hfault hpairs⟩

/-- What is found for pairs extends what was found before, and makes all of them match. -/
theorem RunEach.sound : ∀ {a : Attachments} {s : Subst} {ps : List (Ty × Ty)} {c : Course Subst},
    RunEach reg keep a s ps c → ∀ {vs : List String}, s.Good vs →
    (∀ p ∈ ps, p.1.Proper ∧ p.2.Proper ∧ (∀ v ∈ p.1.ids, v ∈ vs) ∧ ∀ v ∈ p.2.ids, v ∈ vs) →
    ∀ {r : Subst}, c.result = .ok r →
    r.Good vs ∧ (∃ ρ : Valuation, ρ.Proper ∧ ∀ id, r.val id = (s.val id).inst ρ) ∧
      ∀ p ∈ ps, Matches (p.1.inst r.val) (p.2.inst r.val)
  | _, _, _, _, .nil _ s, _, hs, _, _, hr => by
    cases hr
    refine ⟨hs, ⟨free, proper_free, fun id => (bare_val s id).symm⟩, by simp⟩
  | _, _, _, _, .fail _, _, _, _, _, hr => by cases hr
  | a, s, p :: ps, _, .next (b := b) (r := q) h hrest, vs, hs, hps, r, hr => by
    obtain ⟨hp1, hp2, hids1, hids2⟩ := hps p mem_cons_self
    obtain ⟨hgood, hmatch⟩ := Run.sound h (proper_apply hs.proper hp1)
      (proper_apply hs.proper hp2) rfl
    have hnext := ((hs.compose (b.adoptIf keep q).2 (hgood.adoptIf keep b)
      (fun w hw => (mem_append.1 hw).elim (hs.within.ids_apply hids1 w)
        (hs.within.ids_apply hids2 w))
      (fun _ hw hk => (mem_append.1 hw).elim (hs.within.not_mem_ids_apply hk)
        (hs.within.not_mem_ids_apply hk))).adoptIf keep (b.adoptIf keep q).2)
    obtain ⟨hfinal, ⟨ρ, hρ, hval⟩, hpairs⟩ := RunEach.sound hrest hnext
      (fun q hq => hps q (mem_cons_of_mem _ hq)) hr
    have hval' (id : String) : r.val id = ((s.val id).inst q.val).inst ρ := by
      rw [hval, val_extend hs.sorted]
    refine ⟨hfinal, ⟨fun id => (q.val id).inst ρ, ?_, ?_⟩, fun x hx => ?_⟩
    · exact fun id => (proper_val hgood.proper id).inst fun id' _ => hρ id'
    · exact fun id => by rw [hval', inst_inst]
    · rcases mem_cons.1 hx with rfl | hx
      · have hinst (t : Ty) : t.inst r.val = ((Subst.apply a s t).inst q.val).inst ρ := by
          rw [inst_apply, inst_inst]
          exact inst_congr fun id _ => hval' id
        rw [hinst, hinst]
        exact hmatch.inst hρ
      · exact hpairs x hx

end

/-- What is found next stays confined to the same variables. -/
theorem within_next {s r : Subst} {y : Ty} (keep : Bool) {a : Attachments} (b : Attachments) (hs : s.Within vs)
    (hx : ∀ v ∈ x.ids, v ∈ vs) (hy : ∀ v ∈ y.ids, v ∈ vs)
    (hr : r.Within ((Subst.apply a s x).ids ++ (Subst.apply a s y).ids)) : (b.extend keep r s).1.Within vs := by
  refine (hs.compose (hr.adoptIf keep) (fun w hw => ?_) fun w hw hk => ?_).adoptIf keep
  · exact (mem_append.1 hw).elim (hs.ids_apply hx w) (hs.ids_apply hy w)
  · exact (mem_append.1 hw).elim (hs.not_mem_ids_apply hk) (hs.not_mem_ids_apply hk)

mutual

/-- What unification finds is confined to the variables of the two types. -/
theorem Run.within : ∀ {a : Attachments} {t u : Ty} {c : Course Subst}, Run reg keep a t u c →
    ∀ {s : Subst}, c.result = .ok s → s.Within (t.ids ++ u.ids)
  | _, _, _, _, .missingLeft _ _, _, hs => by cases hs; exact within_nil _
  | _, _, _, _, .missingRight _ _, _, hs => by cases hs; exact within_nil _
  | _, _, _, _, .same _ _, _, hs => by cases hs; exact within_nil _
  | _, _, _, _, .vars _ h, _, hs => by cases hs; exact within_bindVars h
  | _, _, _, _, .left _ _ _, _, hs => within_bindChecked hs
  | _, _, _, _, .right _ _ _, _, hs => within_comm (within_bindChecked hs)
  | _, t, u, _, .parts _ _ h, _, hs =>
    RunEach.within h (within_nil (t.ids ++ u.ids))
      (fun _ hp => ⟨(below_parts hp).left, (below_parts hp).right⟩) (Course.guard_eq_ok hs).1

theorem RunEach.within : ∀ {a : Attachments} {s : Subst} {ps : List (Ty × Ty)} {c : Course Subst},
    RunEach reg keep a s ps c → ∀ {vs : List String}, s.Within vs →
    (∀ p ∈ ps, (∀ v ∈ p.1.ids, v ∈ vs) ∧ ∀ v ∈ p.2.ids, v ∈ vs) →
    ∀ {r : Subst}, c.result = .ok r → r.Within vs
  | _, _, _, _, .nil _ _, _, hs, _, _, hr => by cases hr; exact hs
  | _, _, _, _, .fail _, _, _, _, _, hr => by cases hr
  | _, _, p :: _, _, .next (b := b) h hrest, _, hs, hps, _, hr => by
    obtain ⟨hp1, hp2⟩ := hps p mem_cons_self
    exact RunEach.within hrest (within_next keep b hs hp1 hp2 (Run.within h rfl))
      (fun q hq => hps q (mem_cons_of_mem _ hq)) hr

end

end Unify

end ScriptTyping
