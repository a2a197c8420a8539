import ScriptTyping.Proofs.FreeVariables
import ScriptTyping.Proofs.Solving

/-!
# Laws of substitution

To compose substitutions is to apply one after the other. The variables of a type to which a substitution
was applied are known from those of the type and of what is bound. Equal types stay equal.

These are laws of trees. An application also changes the tails of records where they are, and a tail that a
type shows twice is changed twice. So the main statements (`apply_compose`, `occurs_apply`, `equal_laws`)
speak of types in which no record has a tail, and `crate` breaks each of them: it shows one tail twice.
-/

namespace ScriptTyping

open Ty List Dict Subst

variable {a : Attachments} {q r s : Subst} {t u : Ty} {id : String}

/-! ## Composition -/

namespace Subst

/-- Where something is bound, one substitution does what two do, and builds each node with the same label. -/
theorem substitute_compose (hs : Sorted s) (hr : r.isEmpty = false) (t : Ty) :
    t.substitute a (compose a r s) = (t.substitute a s).substitute a r := by
  induction t with
  | missing => rfl
  | var v =>
    rw [substitute, substitute, get?_compose hs hr]
    cases hv : get? s v.id with
    | none => rfl
    | some u => simp [apply, hr]
  | con name args l ih =>
    simp only [substitute, substituteAll_eq_map, map_map]
    congr 1
    exact map_congr_left ih
  | record name fields l ih =>
    simp only [substitute, substituteFields_eq_map, map_map]
    congr 1
    exact map_congr_left fun f hf => Prod.ext rfl (ih f hf)

theorem isEmpty_compose (hr : r.isEmpty = false) : (compose a r s).isEmpty = false := by
  obtain ⟨e, r, rfl⟩ := exists_cons_of_ne_nil (isEmpty_eq_false_iff.1 hr)
  have hkey : e.1 ∈ keys (compose a (e :: r) s) := mem_keys_compose.2 (.inr mem_cons_self)
  rw [isEmpty_eq_false_iff]
  intro hnil
  rw [hnil] at hkey
  cases hkey

theorem apply_compose_tree (hs : Sorted s) (t : Ty) : apply a (compose a r s) t = apply a r (apply a s t) := by
  cases hr : r.isEmpty with
  | true =>
    obtain rfl := isEmpty_iff.1 hr
    rfl
  | false =>
    cases s with
    | nil =>
      rw [compose, hr]
      rfl
    | cons e s =>
      simp only [apply, isEmpty_compose hr, hr]
      exact substitute_compose hs hr t

/-- Each variable is bound once, and to a type without tails. -/
structure Simple (s : Subst) : Prop where
  sorted : Sorted s
  tailless : ∀ e ∈ s, e.2.Tailless

namespace Simple

theorem compose (hr : r.Simple) (hs : s.Simple) (a : Attachments) : (compose a r s).Simple where
  sorted := sorted_compose hr.sorted hs.sorted
  tailless e he := by
    rcases mem_compose he with ⟨x, hx, rfl⟩ | he
    · exact (hs.tailless x hx).apply hr.tailless a
    · exact hr.tailless e he

theorem compose_eq (hr : r.Simple) (hs : s.Simple) (a : Attachments) : a.compose r s = (Subst.compose a r s, a) := by
  have hsame : s.foldl (fun a e => a.revise r e.2) a = a := by
    refine foldlRecOn (motive := fun b => b = a) _ _ rfl fun b hb e he => ?_
    rw [hb, a.revise_of_tailless r (hs.tailless e he)]
  simp only [Attachments.compose, a.currentAll_of_tailless hr.tailless, a.currentAll_of_tailless hs.tailless,
    hsame, a.currentAll_of_tailless (hr.compose hs a).tailless]

theorem apply_eq (hs : s.Simple) (ht : t.Tailless) (a : Attachments) : a.apply s t = (apply a s t, a) :=
  a.apply_of_tailless hs.tailless ht

theorem nil : Simple [] := ⟨sorted_nil, by simp⟩

end Simple

end Subst

namespace Attachments

/-- To compose is to apply one after the other: the types are the same tree, with the same classes at each
node. So composition is associative up to application, and to bind nothing is its unit. -/
theorem apply_compose (a : Attachments) (hq : q.Simple) (hr : r.Simple) (hs : s.Simple) (ht : t.Tailless) :
    (let c := a.compose r s
      let first := a.apply s t
      c.2.apply c.1 t = first.2.apply r first.1) ∧
    (let qr := a.compose q r
      let rs := a.compose r s
      let left := qr.2.compose qr.1 s
      let right := rs.2.compose q rs.1
      left.2.apply left.1 t = right.2.apply right.1 t) ∧
    a.compose [] s = (s, a) ∧ a.compose s [] = (s, a) := by
  have hqr := hq.compose hr a
  have hrs := hr.compose hs a
  refine ⟨?_, ?_, Subst.Simple.nil.compose_eq hs a, ?_⟩
  · simp only [hr.compose_eq hs, hrs.apply_eq ht, hs.apply_eq ht, hr.apply_eq (ht.apply hs.tailless a),
      Subst.apply_compose_tree hs.sorted]
  · simp only [hq.compose_eq hr, hr.compose_eq hs, hqr.compose_eq hs, hq.compose_eq hrs,
      (hqr.compose hs a).apply_eq ht, (hq.compose hrs a).apply_eq ht, Subst.apply_compose_tree hs.sorted,
      Subst.apply_compose_tree hrs.sorted, Subst.apply_compose_tree hr.sorted]
  · rw [hs.compose_eq .nil]
    cases s <;> rfl

/-- A type that shows one tail twice, and one that shows two that are the same. -/
def crate (i j : Nat) : Ty :=
  .app "P" (([i, j] : List Nat).map fun n => .record "Box" [("x", .var ⟨"a", 0⟩)] ⟨[], none, some ⟨n, 0⟩⟩)

/-- Three tails, each with a field of the same type. -/
def crateTails : Attachments := ⟨[], 1, replicate 3 [("x", .var ⟨"a", 0⟩)]⟩

/-- A variable bound to a type that it occurs in. -/
def wrapping : Subst := [("a", .app "Array" [.var ⟨"a", 0⟩])]

/-- A record without a tail. -/
def box : Ty := .record "Box" [("x", .var ⟨"a", 0⟩)] (.fixed ["Struct"])

theorem simple_wrapping : wrapping.Simple :=
  ⟨sorted_singleton _ _, forall_mem_singleton.2 (Plain.con (forall_mem_singleton.2 (.var _))).tailless⟩

theorem tailless_box : box.Tailless := by
  intro n hn
  cases hn with
  | here hl _ => cases hl
  | record hf hn =>
    obtain rfl := mem_singleton.1 hf
    cases hn

theorem apply_compose_box : wrapping.Simple ∧ box.Tailless ∧
    let c := crateTails.compose wrapping wrapping
    let first := crateTails.apply wrapping box
    c.2.apply c.1 box = first.2.apply wrapping first.1 :=
  ⟨simple_wrapping, tailless_box, (apply_compose crateTails .nil simple_wrapping simple_wrapping tailless_box).1⟩

/-- A tail that is shown twice is changed twice by each of two substitutions, and twice by their composition. -/
theorem apply_compose_crate : let r : Subst := [("a", .app "integer" [])]
    let c := crateTails.compose r wrapping
    let first := crateTails.apply wrapping (crate 0 0)
    (c.2.apply c.1 (crate 0 0)).1.equal (first.2.apply r first.1).1 = false := by
  decide +kernel

end Attachments

/-! ## Variables -/

namespace Ty

open Attachments

/-- A variable occurs where it is listed among the variables, which are listed once each, in the order in
which they first occur. After a substitution a variable occurs that did so and is not bound, or that is in
what is bound to one that occurred. If none of those that are bound occurs, the type stays the same. -/
theorem occurs_laws (a : Attachments) (s : Subst) (t : Ty) :
    (∀ id, t.occurs id = true ↔ t.freeVars.has id = true) ∧
    t.freeVars.map Var.id = t.ids.eraseDups ∧ (t.freeVars.map Var.id).Nodup ∧
    (s.Simple → t.Tailless →
      (∀ id, (a.apply s t).1.occurs id = true ↔ (get? s id = none ∧ t.occurs id = true) ∨
        ∃ v u, get? s v = some u ∧ t.occurs v = true ∧ u.occurs id = true) ∧
      ((∀ v ∈ keys s, t.occurs v = false) → (a.apply s t).1.equal t = true)) := by
  refine ⟨fun id => occurs_iff_mem_ids.trans has_freeVars.symm, ids_freeVars t, nodup_freeVars t, fun hs ht => ?_⟩
  rw [hs.apply_eq ht]
  refine ⟨fun id => ?_, fun hnone => ?_⟩
  · simp only [occurs_iff_mem_ids, mem_ids_apply]
    grind
  · rw [equal_iff, bare_apply, bare]
    refine inst_congr fun id hid => val_of_not_mem fun hkey => ?_
    exact Bool.false_ne_true ((hnone id hkey).symm.trans (occurs_iff_mem_ids.2 hid))

theorem occurs_laws_box : wrapping.Simple ∧ box.Tailless ∧
    ((crateTails.apply wrapping box).1.occurs "a" = true ↔ (get? wrapping "a" = none ∧ box.occurs "a" = true) ∨
      ∃ v u, get? wrapping v = some u ∧ box.occurs v = true ∧ u.occurs "a" = true) :=
  ⟨simple_wrapping, tailless_box,
    ((occurs_laws crateTails wrapping box).2.2.2 simple_wrapping tailless_box).1 "a"⟩

/-- In a tail that is shown twice, what is bound to a variable is bound again. -/
theorem occurs_laws_crate : let s : Subst := [("a", .app "Array" [.var ⟨"b", 1⟩]), ("b", .app "integer" [])]
    (crate 0 0).occurs "a" = true ∧ Ty.occurs "b" (.app "Array" [.var ⟨"b", 1⟩]) = true ∧
      (crateTails.apply s (crate 0 0)).1.occurs "b" = false := by
  decide +kernel

/-! ## Equality -/

theorem ids_bare (t : Ty) : t.bare.ids = t.ids := by
  induction t with
  | missing => rfl
  | var v => rfl
  | con name args l ih =>
    simp only [bare_con, ids, vars, varsAll_eq_flatMap, flatMap_map, map_flatMap] at ih ⊢
    exact flatMap_congr ih
  | record name fields l ih =>
    simp only [bare_record, mapValues, ids, vars, varsFields_eq_flatMap, flatMap_map, map_flatMap] at ih ⊢
    exact flatMap_congr ih

variable {name name' : String} {fs gs : List (String × Ty)} {l l' : Label}

/-- Dictionaries are the same if they have as many entries and all those of the one are in the other. -/
theorem eq_of_subset {d e : Dict Ty} (hd : Sorted d) (he : Sorted e) (hlen : d.length = e.length)
    (hsub : ∀ x ∈ d, x ∈ e) : d = e := by
  have hnodup {d : Dict Ty} (hd : Sorted d) : d.Nodup := (pairwise_map.1 hd).imp fun h => by
    rintro rfl
    exact String.lt_irrefl _ h
  have hback (y : String × Ty) (hy : y ∈ e) : y ∈ d := by
    by_contra hnot
    have := (nodup_cons.2 ⟨hnot, hnodup hd⟩).length_le_of_subset (forall_mem_cons.2 ⟨hy, hsub⟩)
    simp [hlen] at this
  refine Perm.eq_of_pairwise (fun x y _ _ hxy hyx => ?_) (pairwise_map.1 hd) (pairwise_map.1 he)
    ((perm_ext_iff_of_nodup (hnodup hd) (hnodup he)).2 fun x => ⟨hsub x, hback x⟩)
  exact (String.lt_irrefl _ (String.lt_trans hxy hyx)).elim

/-- Records are equal if they have one name and as many fields, and each field of the one is a field of
the other with an equal type. -/
theorem equal_record_iff (hf : Sorted fs) (hg : Sorted gs) : (record name fs l).equal (record name' gs l') = true ↔
    name = name' ∧ fs.length = gs.length ∧ ∀ f ∈ fs, ∃ u, get? gs f.1 = some u ∧ f.2.equal u = true := by
  rw [equal, Bool.and_eq_true, beq_iff_eq, equalFields_iff gs fun f _ u => equal_iff]
  refine and_congr_right fun _ => ⟨fun h => ⟨?_, fun f hmem => ?_⟩, fun h => ?_⟩
  · simpa [mapValues] using congrArg length h
  · have hin : (f.1, f.2.bare) ∈ mapValues bare gs := h ▸ mem_map.2 ⟨f, hmem, rfl⟩
    obtain ⟨g, hmem, heq⟩ := mem_map.1 hin
    obtain ⟨hkey, hbare⟩ := Prod.mk.inj heq
    exact ⟨g.2, hkey ▸ hg.get?_of_mem hmem, equal_iff.2 hbare.symm⟩
  · obtain ⟨hlen, hall⟩ := h
    refine eq_of_subset (hf.of_keys (keys_mapValues ..)) (hg.of_keys (keys_mapValues ..)) (by simpa [mapValues]) ?_
    refine forall_mem_map.2 fun f hmem => ?_
    obtain ⟨u, hu, heq⟩ := hall f hmem
    exact equal_iff.1 heq ▸ mem_map.2 ⟨_, mem_of_get?_eq_some hu, rfl⟩

/-- Equality is an equivalence that compares the fields of records by look-up. Equal types have the same
variables in the same order, and stay equal under a substitution. -/
theorem equal_laws (a : Attachments) (s : Subst) (t u : Ty) : (Equivalence fun t u : Ty => t.equal u = true) ∧
    (∀ name name' fs gs l l', Sorted fs → Sorted gs →
      ((record name fs l).equal (record name' gs l') = true ↔ name = name' ∧ fs.length = gs.length ∧
        ∀ f ∈ fs, ∃ u, get? gs f.1 = some u ∧ f.2.equal u = true)) ∧
    (t.equal u = true → t.freeVars.map Var.id = u.freeVars.map Var.id) ∧
    (s.Simple → t.Tailless → u.Tailless → t.equal u = true →
      let found := a.apply s t
      found.1.equal (found.2.apply s u).1 = true) := by
  refine ⟨⟨fun t => equal_iff.2 rfl, fun h => equal_iff.2 (equal_iff.1 h).symm, fun h h' => ?_⟩,
    fun _ _ _ _ _ _ => equal_record_iff, fun h => ?_, fun hs ht hu h => ?_⟩
  · exact equal_iff.2 ((equal_iff.1 h).trans (equal_iff.1 h'))
  · rw [ids_freeVars, ids_freeVars, ← ids_bare, equal_iff.1 h, ids_bare]
  · simp only [hs.apply_eq ht, hs.apply_eq hu]
    rw [equal_iff, bare_apply, bare_apply, ← inst_bare, equal_iff.1 h, inst_bare]

theorem equal_laws_box : wrapping.Simple ∧ box.Tailless ∧ box.equal box = true ∧
    let found := crateTails.apply wrapping box
    found.1.equal (found.2.apply wrapping box).1 = true := by
  have hsame : box.equal box = true := by decide
  exact ⟨simple_wrapping, tailless_box, hsame,
    (equal_laws crateTails wrapping box box).2.2.2 simple_wrapping tailless_box tailless_box hsame⟩

/-- A type that shows one tail twice is equal to one that shows two, until a substitution is applied. -/
theorem equal_laws_crate : let found := crateTails.apply wrapping (crate 0 0)
    (crate 0 0).equal (crate 1 2) = true ∧
      found.1.equal (found.2.apply wrapping (crate 1 2)).1 = false := by
  decide +kernel

end Ty

end ScriptTyping
