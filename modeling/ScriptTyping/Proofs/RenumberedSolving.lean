import ScriptTyping.Proofs.RenumberedInference
import ScriptTyping.Proofs.RevisionOrder
import ScriptTyping.Proofs.SolvedForm

/-!
# Solving under other numbers

If all types of some equations are renumbered, so are the bindings and the failures that are found.
Two things could go wrong, since they look at the names of variables.

* *Which variable is bound.* Of two variables the later is bound to the earlier. So the new numbers must
  be in the same order as the old ones, as far as variables occur (`Renumbering.KeepsOrder`).
* *The order of a dictionary.* Bindings are listed by names as texts, and the new names may be in another
  order: of `T9` and `T10` the second comes first, of `T10` and `T11` the first. So the bindings of one
  side are those of the other in some order (`Subst.Renamed.types`), and a course applies them to types
  in another order too (`Shuffled`). As the order in which tails are revised does not count, the tails
  are the same in the end (`Shuffled.replay`).

`kept_mirrored` follows unification, and `Solution.Mirrors.step` the solution of one equation.
-/

namespace ScriptTyping

open Ty Unify Attachments List Dict Subst

variable {ρ : Renumbering} {a a' : Attachments} {s s' r r' : Subst}

/-- The variables that are such that `Q` are in the same order under their new numbers. -/
def Renumbering.KeepsOrder (ρ : Renumbering) (Q : String → Prop) : Prop :=
  ∀ x y, Q x → Q y → Var.order (ρ.id x) (ρ.id y) = Var.order x y

/-! ## Bindings -/

theorem Dict.Sorted.nodup_keys {α : Type} {d : Dict α} (h : Dict.Sorted d) : (Dict.keys d).Nodup :=
  h.imp fun hlt => String.ne_of_lt hlt

/-- A sorted dictionary is what is found under its keys. -/
theorem Dict.Sorted.entries {α : Type} {d : Dict α} (h : Dict.Sorted d) (default : α) :
    d = (Dict.keys d).map fun k => (k, (get? d k).getD default) := by
  rw [Dict.keys, map_map]
  refine (map_id d).symm.trans (map_congr_left fun e he => ?_)
  show e = (e.1, (get? d e.1).getD default)
  rw [h.get?_of_mem he, Option.getD_some]

namespace Subst

/-- The second bindings are the first under other numbers, in some order. -/
structure Renamed (ρ : Renumbering) (s s' : Subst) : Prop extends Mirrors ρ s s' where
  keys : ∀ k ∈ Dict.keys s', ∃ id, k = ρ.id id
  sorted : Dict.Sorted s
  sorted' : Dict.Sorted s'

theorem renamed_nil : Renamed ρ [] [] :=
  ⟨mirrors_nil, by simp [Dict.keys], sorted_nil, sorted_nil⟩

theorem renamed_single (id : String) (t : Ty) : Renamed ρ [(id, t)] [(ρ.id id, t.renumber ρ)] := by
  refine ⟨mirrors_nil.insert id t, fun k hk => ⟨id, ?_⟩, sorted_singleton _ _,
    sorted_singleton _ _⟩
  simpa [Dict.keys] using hk

namespace Renamed

theorem mapValues (h : s.Renamed ρ s') {f f' : Ty → Ty} (hf : ∀ t, f' (t.renumber ρ) = (f t).renumber ρ) :
    Renamed ρ (mapValues f s) (mapValues f' s') := by
  refine ⟨h.toMirrors.mapValues hf, ?_, h.sorted.of_keys (keys_mapValues f s),
    h.sorted'.of_keys (keys_mapValues f' s')⟩
  rw [keys_mapValues]
  exact h.keys

theorem currentAll (h : s.Renamed ρ s') (ha : Mirrors.Level ρ a a') :
    (a.currentAll s).Renamed ρ (a'.currentAll s') := by
  unfold Attachments.currentAll
  rw [ha.isEmpty]
  split
  · exact h
  · exact h.mapValues ha.current

theorem compose (hs : s.Renamed ρ s') (hr : r.Renamed ρ r') (ha : a.Mirrors ρ a') :
    (compose a r s).Renamed ρ (compose a' r' s') := by
  unfold Subst.compose
  rw [hr.isEmpty]
  split
  next => exact hs
  next hempty =>
    have happly := hs.mapValues fun t => apply_renumber ha hr.toMirrors t
    refine ⟨⟨fun id => ?_, ?_⟩, fun k hk => ?_, hr.sorted.insertAll _, hr.sorted'.insertAll _⟩
    · rw [get?_insertAll _ happly.sorted', get?_insertAll _ happly.sorted, happly.get?,
        hr.get?]
      cases Dict.get? (Dict.mapValues (Subst.apply a r) s) id <;> rfl
    · -- Something is bound on both sides.
      have hsome {d entries : Subst} (hd : d.isEmpty = false) :
          (insertAll d entries).isEmpty = false := by
        rw [isEmpty_eq_false_iff_exists_mem] at hd ⊢
        obtain ⟨e, he⟩ := hd
        have hkey : e.1 ∈ Dict.keys (Dict.insertAll d entries) :=
          mem_keys_insertAll.2 (.inr (Dict.mem_keys_of_mem he))
        obtain ⟨x, hx, -⟩ := mem_map.1 hkey
        exact ⟨x, hx⟩
      have hfirst : r.isEmpty = false := by simpa using hempty
      rw [hsome hfirst, hsome (hr.isEmpty.trans hfirst)]
    · rcases mem_keys_insertAll.1 hk with hk | hk
      · exact happly.keys k hk
      · exact hr.keys k hk

/-- The bindings of one side are those of the other, in some order. -/
theorem entries (h : s.Renamed ρ s') :
    ∃ es : Subst, es.Perm s ∧ s' = es.map fun e => (ρ.id e.1, e.2.renumber ρ) := by
  obtain ⟨ks, hks⟩ : ∃ ks : List String, ks.map ρ.id = Dict.keys s' := by
    have hrange : Dict.keys s' ∈ Set.range (List.map ρ.id) := by
      rw [Set.range_list_map]
      intro k hk
      obtain ⟨id, hid⟩ := h.keys k hk
      exact ⟨id, hid.symm⟩
    exact hrange
  have hmem (k : String) : k ∈ ks ↔ k ∈ Dict.keys s := by
    have hiff : k ∈ ks ↔ ρ.id k ∈ Dict.keys s' := by
      rw [← hks, mem_map]
      simp
    have hnone : get? s' (ρ.id k) = none ↔ get? s k = none := by
      rw [h.get?, Option.map_eq_none_iff]
    rw [get?_eq_none_iff, get?_eq_none_iff] at hnone
    rw [hiff]
    exact not_iff_not.1 hnone
  have hperm : ks.Perm (Dict.keys s) := by
    have hnodup : (ks.map ρ.id).Nodup := hks ▸ h.sorted'.nodup_keys
    exact (perm_ext_iff_of_nodup hnodup.of_map h.sorted.nodup_keys).2 hmem
  refine ⟨ks.map fun k => (k, (get? s k).getD .missing), ?_, ?_⟩
  · have hfirst := hperm.map fun k => (k, (get? s k).getD .missing)
    rwa [← h.sorted.entries .missing] at hfirst
  · refine (h.sorted'.entries .missing).trans ?_
    rw [← hks, map_map, map_map]
    refine map_congr_left fun k _ => congrArg (Prod.mk (ρ.id k)) ?_
    show (get? s' (ρ.id k)).getD .missing = ((get? s k).getD .missing).renumber ρ
    rw [h.get?]
    cases get? s k <;> rfl

theorem perm (h : s.Renamed ρ s') : s'.Perm (s.map fun e => (ρ.id e.1, e.2.renumber ρ)) := by
  obtain ⟨es, hes, rfl⟩ := h.entries
  exact hes.map _

/-- What is bound on one side is what is bound on the other, in some order. -/
theorem types (h : s.Renamed ρ s') :
    ∃ us : List Ty, us.Perm (s.map Prod.snd) ∧ s'.map Prod.snd = us.map (renumber ρ) := by
  obtain ⟨es, hes, rfl⟩ := h.entries
  refine ⟨es.map Prod.snd, hes.map _, ?_⟩
  rw [map_map, map_map]
  rfl

end Renamed

end Subst

/-! ## Applications -/

/-- The second applications are the first under other numbers. If one substitution was applied to
several types after each other, the order of these may be another. -/
inductive Shuffled (ρ : Renumbering) : List Application → List Application → Prop
  | nil : Shuffled ρ [] []
  | block {s s' : Subst} (hs : s.Mirrors ρ s') {ts us : List Ty} (h : us.Perm ts) :
    Shuffled ρ (ts.map fun t => (s, t)) (us.map fun t => (s', t.renumber ρ))
  | append {xs xs' ys ys'} (h : Shuffled ρ xs xs') (h' : Shuffled ρ ys ys') : Shuffled ρ (xs ++ ys) (xs' ++ ys')

namespace Shuffled

theorem applications (ha : Mirrors.Level ρ a a') (hs : s.Mirrors ρ s') {ts us : List Ty}
    (h : us.Perm ts) : Shuffled ρ (a.applications s ts) (a'.applications s' (us.map (renumber ρ))) := by
  unfold Attachments.applications
  rw [hs.isEmpty, ha.isEmpty]
  split
  · exact .nil
  · rw [map_map]
    exact .block hs h

/-- Tails are the same in the end, if they have levels that all that is applied respects. -/
theorem replay {done done' : List Application} (h : Shuffled ρ done done') {L : Levels}
    (ha : Mirrors.Level ρ a a') (hgraded : a.Graded L) (hdepth : ∀ n, L.tails n ≤ a.tails.length)
    (hdone : ∀ x ∈ done, x.1.Lowers L) : Mirrors.Level ρ (a.replay done) (a'.replay done') := by
  induction h generalizing a a' with
  | nil => exact ha
  | @block s s' hs ts us hperm =>
    have hfirst : a.replay (ts.map fun t => (s, t)) = us.foldl (fun a t => a.revise s t) a := by
      rw [Attachments.replay, foldl_map]
      cases hts : ts with
      | nil =>
        rw [hts] at hperm
        rw [hperm.eq_nil]
      | cons t rest =>
        have hlowers : s.Lowers L := hdone (s, t) (by simp [hts])
        exact hgraded.foldl_revise_perm (hts ▸ hperm.symm) hlowers hdepth
    have hsecond : a'.replay (us.map fun t => (s', t.renumber ρ)) =
        (us.map (renumber ρ)).foldl (fun a t => a.revise s' t) a' := by
      rw [Attachments.replay, foldl_map, foldl_map]
    rw [hfirst, hsecond]
    exact ha.foldl fun t _ b b' hb => hb.revise hs t
  | @append xs xs' ys ys' _ _ ih ih' =>
    have hxs (x) (hx : x ∈ xs) : x.1.Lowers L := hdone x (mem_append_left _ hx)
    have hmid : (a.replay xs).Graded L := by
      refine List.foldlRecOn xs _ hgraded fun b hb x hx => ?_
      exact hb.of_rewrites (hxs x hx) (b.rewrites_revise x.2)
    rw [replay_append, replay_append]
    refine ih' (ih ha hgraded hdepth hxs) hmid ?_ fun x hx => hdone x (mem_append_right _ hx)
    rw [length_replay]
    exact hdepth

end Shuffled

/-! ## The steps of unification -/

namespace Unify

variable {reg : Registry} {Q : String → Prop}

/-- Two runs of which the second is the first under other numbers. -/
def mirrored (ρ : Renumbering) : Likeness where
  attachments := Mirrors.Level ρ
  pair p q := q = p.map (Ty.renumber ρ) (Ty.renumber ρ)
  subst := Subst.Renamed ρ
  error e e' := e' = e.renumber ρ
  done := Shuffled ρ

theorem level_share (h : Mirrors.Level ρ a a') (v w : Var) :
    Mirrors.Level ρ (share a v w) (share a' (v.renumber ρ) (w.renumber ρ)) := by
  refine ⟨?_, h.level⟩
  unfold share
  show Attachments.Mirrors ρ _ ((a'.set (ρ.cells v.cell)
    (ClassSet.union (a'.get (ρ.cells v.cell)) (a'.get (ρ.cells w.cell)))).set (ρ.cells w.cell)
      (ClassSet.union (a'.get (ρ.cells v.cell)) (a'.get (ρ.cells w.cell))))
  rw [h.get, h.get]
  exact (h.set _ _).set _ _

theorem renamed_bindVars (hQ : ρ.KeepsOrder Q) {v w : Var} (hv : Q v.id) (hw : Q w.id) :
    (bindVars v w).Renamed ρ (bindVars (v.renumber ρ) (w.renumber ρ)) := by
  unfold bindVars
  show Subst.Renamed ρ _ (if Var.order (ρ.id v.id) (ρ.id w.id) ≠ .gt then _ else _)
  rw [hQ v.id w.id hv hw]
  split
  · exact renamed_single w.id (.var v)
  · exact renamed_single v.id (.var w)

theorem compound_renumber {t : Ty} (ht : t.Compound) : (t.renumber ρ).Compound := by
  cases t with
  | missing => exact absurd rfl ht.1
  | var w => exact absurd rfl (ht.2 w)
  | con name args l => simp [Compound]
  | record name fields l => simp [Compound]

theorem found_bind (v : Var) {t : Ty} (ht : t.Compound) :
    (mirrored ρ).Found (bind v t) (bind (v.renumber ρ) (t.renumber ρ)) := by
  have hboth (x : Ty) (hx : x.Compound) (v : Var) :
      bind v x = if x.occurs v.id then .error (.occurs v.id x) else .ok [(v.id, x)] := by
    cases x with
    | var w => exact absurd rfl (hx.2 w)
    | _ => rfl
  rw [hboth t ht, hboth _ (compound_renumber ht)]
  show (mirrored ρ).Found _ (if (t.renumber ρ).occurs (ρ.id v.id) then _ else _)
  rw [occurs_renumber]
  split
  · exact .error rfl
  · exact .ok (renamed_single v.id t)

theorem found_bindChecked (h : a.Mirrors ρ a') (v : Var) {t : Ty} (ht : t.Compound) :
    (mirrored ρ).Found (bindChecked reg a v t) (bindChecked reg a' (v.renumber ρ) (t.renumber ρ)) := by
  have hlacking : lacking reg a' (a'.get (v.renumber ρ).cell) (t.renumber ρ) =
      lacking reg a (a.get v.cell) t := by
    show lacking reg a' (a'.get (ρ.cells v.cell)) (t.renumber ρ) = _
    rw [h.get, lacking, h.registryClasses, lacking]
  unfold bindChecked
  rw [hlacking]
  cases lacking reg a (a.get v.cell) t with
  | nil => exact found_bind v ht
  | cons => exact .error rfl

/-! ### Parts -/

def Parts.renumber (ρ : Renumbering) (p : Parts) : Parts :=
  ⟨p.pairs.map (Prod.map (Ty.renumber ρ) (Ty.renumber ρ)), p.fault.map (UnifyError.renumber ρ)⟩

theorem mapParts_renumber (n : String) (xs : List Ty) (l : Label) (m : String)
    (gs : List (String × Ty)) (k : Label) :
    mapParts n (xs.map (renumber ρ)) (l.renumber ρ) m (mapValues (renumber ρ) gs) (k.renumber ρ) =
      (mapParts n xs l m gs k).renumber ρ := by
  unfold mapParts
  rw [getLast?_map]
  cases isMapName n with
  | false => simp [Parts.renumber, Parts.clash, UnifyError.renumber]
  | true =>
    cases xs.getLast? with
    | none => simp [Parts.renumber, Parts.clash, UnifyError.renumber]
    | some value => simp [Parts.renumber, mapValues]

theorem fieldParts_renumber (left : String) (fs gs : List (String × Ty)) :
    fieldParts left (mapValues (renumber ρ) fs) (mapValues (renumber ρ) gs) =
      (fieldParts left fs gs).renumber ρ := by
  induction gs with
  | nil => rfl
  | cons g gs ih =>
    show fieldParts left _ ((g.1, g.2.renumber ρ) :: mapValues (renumber ρ) gs) = _
    simp only [fieldParts, get?_mapValues, ih]
    cases Dict.get? fs g.1 with
    | none => rfl
    | some u => rfl

theorem parts_renumber (t u : Ty) : parts (t.renumber ρ) (u.renumber ρ) = (parts t u).renumber ρ := by
  cases t with
  | missing => cases u <;> rfl
  | var v => cases u <;> rfl
  | con n xs l =>
    cases u with
    | missing => rfl
    | var w => rfl
    | con m ys k =>
      simp only [renumber_con, parts, length_map]
      split
      · simp [Parts.renumber, zip_map]
      · simp [Parts.renumber, Parts.clash, UnifyError.renumber]
    | record m gs k =>
      rw [renumber_con, renumber_record]
      exact mapParts_renumber n xs l m gs k
  | record n fs l =>
    cases u with
    | missing => rfl
    | var w => rfl
    | con m ys k =>
      rw [renumber_con, renumber_record]
      exact mapParts_renumber m ys k n fs l
    | record m gs k =>
      simp only [renumber_record, parts]
      split
      · exact fieldParts_renumber n fs gs
      · split
        · exact fieldParts_renumber m gs fs
        · simp [Parts.renumber, Parts.clash, UnifyError.renumber]

/-! ## Unification -/

theorem kept_mirrored (reg : Registry) (hQ : ρ.KeepsOrder Q) :
    (mirrored ρ).Kept reg false fun t => ∀ id ∈ t.ids, Q id where
  nil := renamed_nil
  none := .nil
  append := .append
  base := by
    rintro a a' t u _ c c' ha rfl ht hu hno h h'
    cases h with
    | missingLeft => exact h'.of_missing_left ▸ ⟨ha, .ok renamed_nil, .nil⟩
    | missingRight => exact h'.of_missing_right ▸ ⟨ha, .ok renamed_nil, .nil⟩
    | @same _ v w h =>
      have hid : (v.renumber ρ).id = (w.renumber ρ).id := congrArg ρ.id h
      rw [h'.of_vars, if_pos hid]
      exact ⟨ha, .ok renamed_nil, .nil⟩
    | @vars _ v w h =>
      have hid : (v.renumber ρ).id ≠ (w.renumber ρ).id := fun heq => h (ρ.id_injective heq)
      rw [h'.of_vars, if_neg hid]
      exact ⟨level_share ha v w, .ok (renamed_bindVars hQ (ht v.id (by simp)) (hu w.id (by simp))), .nil⟩
    | left _ v hc => exact h'.of_left (compound_renumber hc) ▸ ⟨ha, found_bindChecked ha.toMirrors v hc, .nil⟩
    | right _ w hc => exact h'.of_right (compound_renumber hc) ▸ ⟨ha, found_bindChecked ha.toMirrors w hc, .nil⟩
    | parts ht hu => exact absurd ⟨ht, hu⟩ hno
  parts := by
    rintro t u _ rfl _ _ ht hu
    refine ⟨compound_renumber ht, compound_renumber hu, ?_⟩
    simp only [Prod.map_fst, Prod.map_snd, parts_renumber, Parts.renumber]
    refine ⟨forall₂_map_right_iff.2 (forall₂_same.2 fun _ _ => rfl), ?_⟩
    cases (Unify.parts t u).fault <;> constructor
    rfl
  apply := by
    rintro a a' s s' p _ ha hs rfl _ _
    refine ⟨?_, .applications ha hs.toMirrors (.refl [p.1, p.2])⟩
    exact Prod.ext (apply_renumber ha.toMirrors hs.toMirrors _) (apply_renumber ha.toMirrors hs.toMirrors _)
  extend := by
    intro a a' s s' r r' ha hs hr _
    obtain ⟨us, hperm, hus⟩ := hs.types
    have hbound := Shuffled.applications ha hr.toMirrors hperm
    rw [← hus] at hbound
    exact ⟨hs.compose hr ha.toMirrors, ha, hbound⟩

end Unify

/-! ## One equation -/

theorem UnifyError.mapTypes_renumber {f f' : Ty → Ty}
    (hf : ∀ t, f' (t.renumber ρ) = (f t).renumber ρ) (e : UnifyError) :
    (e.renumber ρ).mapTypes f' = (e.mapTypes f).renumber ρ := by
  cases e <;> simp [UnifyError.renumber, UnifyError.mapTypes, hf]

def Failure.renumber (ρ : Renumbering) (f : Failure) : Failure := ⟨f.number, f.error.renumber ρ⟩

def Constraint.renumber (ρ : Renumbering) (c : Constraint) : Constraint := c.mapTypes (Ty.renumber ρ)

namespace Solution

variable {reg : Registry} {K : String → Prop} {T : Ty → Prop} {x x' : Solution} {c : Constraint}

/-- The second solution is the first under other numbers. -/
structure Mirrors (ρ : Renumbering) (x x' : Solution) : Prop where
  attachments : Attachments.Mirrors.Level ρ x.attachments x'.attachments
  subst : x.subst.Renamed ρ x'.subst
  failures : x'.failures = x.failures.map (Failure.renumber ρ)

/-- There are levels that all respect that an equation applies to tails. -/
theorem Tidy.graded {keep : Bool} (h : x.Tidy K T) (hl : T c.left) (hr : T c.right) {d : Attachments}
    {result : Except UnifyError Subst} {done : List Application}
    (hat : x.attempt reg keep c = ⟨d, result, done⟩) :
    ∃ L : Levels, x.attachments.Graded L ∧ (∀ n, L.tails n ≤ x.attachments.tails.length) ∧
      (∀ y ∈ x.prepared c ++ done, y.1.Lowers L) ∧ ∀ q, result = .ok q → q.Lowers L := by
  have hrun := run_attempt reg keep x c
  rw [hat] at hrun
  have hstart := h.reached
  have hempty := h.alike.isEmpty
  obtain ⟨hboth, hcx, hcy, hempty'⟩ := reached_first hstart (h.types _ hl) (h.types _ hr) hempty
  obtain ⟨θ, B, hlater, hstage⟩ := hrun.absorbed hboth.fit (hstart.binds.after _) hcx hcy hempty'
  have hall : LaterClear _ _ K _ (x.prepared c ++ done) θ B :=
    (hstart.applied _ _).trans (hlater.mono fun _ => .inl)
  have hlength : B.length = x.attachments.tails.length := by
    rw [h.alike.length, ← hall.fit.tails, length_map]
  refine ⟨levels θ B, h.alike.graded hall.fit.graded, fun n => hlength ▸ levels_le θ B n,
    fun y hy => (hall.done y hy).lowers, fun q hq => ?_⟩
  obtain ⟨rfl, rfl⟩ := hstage q hq
  exact (hrun.reached hboth.fit (hstart.binds.after _) hcx hcy hempty' hq).absorbed.lowers

namespace Mirrors

theorem bindings (h : x.Mirrors ρ x') : x.bindings.Renamed ρ x'.bindings :=
  h.subst.currentAll h.attachments

theorem applied (h : x.Mirrors ρ x') (t : Ty) : x'.applied (t.renumber ρ) = (x.applied t).renumber ρ := by
  unfold Solution.applied
  rw [h.attachments.current, apply_renumber h.attachments.toMirrors h.bindings.toMirrors]

theorem prepared (h : x.Mirrors ρ x') (c : Constraint) :
    Shuffled ρ (x.prepared c) (x'.prepared (c.renumber ρ)) := by
  have hsides := Shuffled.applications h.attachments h.bindings.toMirrors
    (.refl [x.attachments.current c.left, x.attachments.current c.right])
  rw [map_cons, map_singleton, ← h.attachments.current, ← h.attachments.current] at hsides
  exact hsides

/-- An equation is solved on both sides in the same way, or fails in the same way. -/
theorem step (h : x.Mirrors ρ x') (htidy : x.Tidy K T) (hρ : ρ.KeepsOrder fun id => ¬ K id)
    (number : Nat) (hc : c.kind = .equality → T c.left ∧ T c.right) :
    (step reg false x number c).Mirrors ρ (Solution.step reg false x' number (c.renumber ρ)) := by
  by_cases hk : c.kind = .equality
  · obtain ⟨hl, hr⟩ := hc hk
    have hids (t : Ty) (ht : T t) : ∀ id ∈ (x.applied t).ids, ¬ K id := by
      intro id hid hK
      exact htidy.reached.ids_apply (htidy.types t ht).ids _ id hid (.inl hK)
    have hrun' := run_attempt reg false x' (c.renumber ρ)
    have hleft : x'.applied (c.renumber ρ).left = (x.applied c.left).renumber ρ := h.applied c.left
    have hright : x'.applied (c.renumber ρ).right = (x.applied c.right).renumber ρ := h.applied c.right
    rw [hleft, hright] at hrun'
    have hcourse := Run.alike (q := (_, _)) (kept_mirrored reg hρ) (stable_ids _) (run_attempt reg false x c) hrun'
      h.attachments rfl trivial (hids _ hl) (hids _ hr)
    cases hat : x.attempt reg false c with
    | mk d result done =>
      cases hat' : x'.attempt reg false (c.renumber ρ) with
      | mk d' result' done' =>
        obtain ⟨L, hgraded, hdepth, hdone, hfound⟩ := htidy.graded hl hr hat
        have htails : d.tails = x.attachments.tails := by
          have hrun := run_attempt reg false x c
          rw [hat] at hrun
          exact Run.tails hrun
        rw [hat, hat'] at hcourse
        obtain ⟨hlevel, hresult, hdones⟩ := hcourse
        have hgraded' : d.Graded L := (alike_of_tails htails).graded hgraded
        have hdepth' : ∀ n, L.tails n ≤ d.tails.length := by rwa [htails]
        have hsofar : Shuffled ρ (x.prepared c ++ done) (x'.prepared (c.renumber ρ) ++ done') :=
          .append (h.prepared c) hdones
        cases hresult with
        | error he =>
          subst he
          have hnext := hsofar.replay hlevel hgraded' hdepth' hdone
          rw [Solution.step_error hk hat, Solution.step_error (c := c.renumber ρ) hk hat']
          refine ⟨hnext, h.bindings, ?_⟩
          show x'.failures ++ [_] = (x.failures ++ [_]).map (Failure.renumber ρ)
          rw [h.failures, UnifyError.mapTypes_renumber hnext.current, map_append]
          rfl
        | @ok q q' hq =>
          obtain ⟨us, hperm, hus⟩ := h.bindings.types
          have hlast := Shuffled.applications hlevel hq.toMirrors hperm
          rw [← hus] at hlast
          rw [Solution.step_ok hk hat, Solution.step_ok (c := c.renumber ρ) hk hat']
          simp only [extend_false, adoptIf_false]
          refine ⟨(hsofar.append hlast).replay hlevel hgraded' hdepth' fun y hy => ?_,
            h.bindings.compose hq hlevel.toMirrors, h.failures⟩
          rcases mem_append.1 hy with hy | hy
          · exact hdone y hy
          · rw [(mem_applications hy).1]
            exact hfound q rfl
  · have hk' : (c.renumber ρ).kind ≠ .equality := hk
    rw [step_of_ne_equality reg false x number hk, step_of_ne_equality reg false x' number hk']
    exact h

theorem settled (h : x.Mirrors ρ x') : x.settled.Mirrors ρ x'.settled :=
  ⟨h.attachments, h.bindings, h.failures⟩

end Mirrors

end Solution

/-! ## All equations -/

/-- Under other numbers that are in the same order, the same bindings and failures are found. -/
theorem Constraint.mirrors_solve (reg : Registry) {cs : List Constraint}
    (h : Mirrors.Level ρ a a') (ha : a.Coherent) (hcs : Fit a cs) (hρ : ρ.KeepsOrder (Mentions cs)) :
    (solve reg a cs).Mirrors ρ (solve reg a' (cs.map (Constraint.renumber ρ))) := by
  have horder : ρ.KeepsOrder fun id => ¬ ¬ Mentions cs id :=
    fun y z hy hz => hρ y z (not_not.1 hy) (not_not.1 hz)
  have hlast : (Solution.upTo reg false a cs cs.length).Mirrors ρ _ := Solution.upTo_induction
    (P := fun i x => x.Mirrors ρ (Solution.upTo reg false a' (cs.map (Constraint.renumber ρ)) i))
    ⟨h, renamed_nil, rfl⟩ (fun i c hc ih => ?_) (Nat.le_refl cs.length)
  · rw [solve, solve, solveWith_eq_upTo, solveWith_eq_upTo, length_map]
    exact hlast.settled
  · have hc' : (cs.map (Constraint.renumber ρ))[i]? = some (c.renumber ρ) := by
      rw [getElem?_map, hc, Option.map_some]
    rw [Solution.upTo_succ hc']
    have hmem := mem_of_getElem? hc
    exact ih.step (tidy_sides reg false ha hcs (List.getElem?_eq_some_iff.1 hc).1.le) horder i
      fun hk => ⟨⟨c, hmem, hk, .inl rfl⟩, ⟨c, hmem, hk, .inr rfl⟩⟩

end ScriptTyping
