import ScriptTyping.Unify.Basic

/-!
# Why unification ends

Unification goes from two types to pairs of their parts, under the bindings that were found so
far. Either a variable was bound, and then fewer different variables are left in the pair, or none
was, and then the parts are smaller than the types (`Unify.Smaller`).

That rests on what the bindings look like. `Subst.Within vs s`: the substitution binds variables
among `vs`, to types over variables among `vs` that it does not bind. `Subst.Within.compose` keeps
that true as bindings are found.
-/

namespace ScriptTyping

/-! ## Counting names -/

/-- How many different names a list has. -/
def distinct (l : List String) : Nat := l.eraseDups.length

theorem nodup_eraseDups : ∀ l : List String, l.eraseDups.Nodup
  | [] => by simp
  | x :: l => by
    rw [List.eraseDups_cons, List.nodup_cons]
    refine ⟨fun h => ?_, nodup_eraseDups _⟩
    simp [List.mem_eraseDups] at h
termination_by l => l.length
decreasing_by exact Nat.lt_succ_of_le (List.length_filter_le ..)

theorem distinct_le {l m : List String} (h : l ⊆ m) : distinct l ≤ distinct m :=
  (nodup_eraseDups l).length_le_of_subset fun _ hx =>
    List.mem_eraseDups.2 (h (List.mem_eraseDups.1 hx))

theorem distinct_lt {l m : List String} {x : String} (h : l ⊆ m) (hx : x ∈ m) (hn : x ∉ l) :
    distinct l < distinct m := by
  have hnodup : (x :: l.eraseDups).Nodup :=
    List.nodup_cons.2 ⟨fun h => hn (List.mem_eraseDups.1 h), nodup_eraseDups l⟩
  refine hnodup.length_le_of_subset fun y hy => List.mem_eraseDups.2 ?_
  rcases List.mem_cons.1 hy with rfl | hy
  · exact hx
  · exact h (List.mem_eraseDups.1 hy)

/-! ## Confined substitutions -/

namespace Subst

/-- The substitution binds variables among `vs`, to types over variables among `vs` that it does
not bind. -/
structure Within (vs : List String) (s : Subst) : Prop where
  keys : ∀ k ∈ Dict.keys s, k ∈ vs
  types : ∀ e ∈ s, ∀ v ∈ e.2.ids, v ∈ vs ∧ v ∉ Dict.keys s

theorem within_nil (vs : List String) : Within vs [] :=
  ⟨fun _ h => absurd h List.not_mem_nil, fun _ h => absurd h List.not_mem_nil⟩

theorem within_single {vs : List String} {id : String} {t : Ty} (hid : id ∈ vs)
    (ht : ∀ v ∈ t.ids, v ∈ vs) (hn : id ∉ t.ids) : Within vs [(id, t)] := by
  constructor
  · simpa [Dict.keys] using hid
  · simp only [List.mem_singleton, forall_eq, Dict.keys, List.map_cons, List.map_nil]
    exact fun v hv => ⟨ht v hv, fun h => hn (h ▸ hv)⟩

variable {vs ws : List String} {s r : Subst} {a : Attachments} {t : Ty}

theorem Within.types_get (h : Within vs s) {k : String} {u : Ty} (hk : Dict.get? s k = some u) :
    ∀ v ∈ u.ids, v ∈ vs ∧ v ∉ Dict.keys s :=
  h.types _ (Dict.mem_of_get?_eq_some hk)

/-- No variable comes in from outside. -/
theorem Within.ids_apply (h : Within vs s) (ht : ∀ v ∈ t.ids, v ∈ vs) : ∀ v ∈ (apply a s t).ids, v ∈ vs := by
  intro v hv
  rcases mem_ids_apply.1 hv with ⟨_, hv⟩ | ⟨_, _, u, hu, hv⟩
  · exact ht v hv
  · exact (h.types_get hu v hv).1

/-- What is bound is gone. -/
theorem Within.not_mem_ids_apply (h : Within vs s) {k : String} (hk : k ∈ Dict.keys s) :
    k ∉ (apply a s t).ids := by
  intro hv
  rcases mem_ids_apply.1 hv with ⟨hn, _⟩ | ⟨_, _, u, hu, hv⟩
  · exact Dict.get?_eq_none_iff.1 hn hk
  · exact (h.types_get hu k hv).2 hk

/-- Bindings found under a confined substitution keep it confined. -/
theorem Within.compose (hs : Within vs s) (hr : Within ws r) (hsub : ∀ w ∈ ws, w ∈ vs)
    (hdis : ∀ w ∈ ws, w ∉ Dict.keys s) : Within vs (compose a r s) := by
  unfold Subst.compose
  split
  · exact hs
  have hkeys : ∀ k, k ∈ Dict.keys (Dict.insertAll r (Dict.mapValues (apply a r) s)) ↔
      k ∈ Dict.keys s ∨ k ∈ Dict.keys r := by
    intro k
    rw [Dict.mem_keys_insertAll]
    simp [Dict.keys, Dict.mapValues]
  refine ⟨fun k hk => ?_, fun e he v hv => ?_⟩
  · exact ((hkeys k).1 hk).elim (hs.keys k) fun h => hsub k (hr.keys k h)
  · rw [hkeys, not_or]
    rcases Dict.mem_insertAll he with he | he
    · obtain ⟨⟨k, u⟩, hu, rfl⟩ := List.mem_map.1 he
      have hnot : v ∉ Dict.keys r := fun h => hr.not_mem_ids_apply h hv
      rcases mem_ids_apply.1 hv with ⟨_, hv⟩ | ⟨_, _, u', hu', hv⟩
      · have := hs.types _ hu v hv
        exact ⟨this.1, this.2, hnot⟩
      · have := hr.types_get hu' v hv
        exact ⟨hsub v this.1, hdis v this.1, hnot⟩
    · have := hr.types e he v hv
      exact ⟨hsub v this.1, hdis v this.1, this.2⟩

/-- Whether a substitution is confined depends on names and variables only. -/
theorem Within.of_entries (hs : Within vs s)
    (h : r.map (fun e => (e.1, e.2.ids)) = s.map fun e => (e.1, e.2.ids)) : Within vs r := by
  have hkeys : Dict.keys r = Dict.keys s := by
    simpa [Dict.keys, List.map_map, Function.comp_def] using congrArg (List.map Prod.fst) h
  refine ⟨fun k hk => hs.keys k (hkeys ▸ hk), fun e he v hv => ?_⟩
  obtain ⟨e', he', heq⟩ := List.mem_map.1 (h ▸ List.mem_map_of_mem he)
  rw [hkeys]
  exact hs.types e' he' v ((Prod.mk.inj heq).2 ▸ hv)

/-- Cells do not change whether a substitution is confined. -/
theorem Within.adoptIf (keep : Bool) (hs : Within vs s) : Within vs (a.adoptIf keep s).1 := by
  cases keep
  · exact hs
  · exact hs.of_entries (a.entries_adoptFields s)

end Subst

/-! ## Smaller pairs -/

namespace Unify

/-- The pair `(x, y)` has fewer different variables than `(t, u)`, or no more of them and fewer
nodes. -/
def Smaller (x y t u : Ty) : Prop :=
  distinct (x.ids ++ y.ids) < distinct (t.ids ++ u.ids) ∨
    distinct (x.ids ++ y.ids) ≤ distinct (t.ids ++ u.ids) ∧ x.size + y.size < t.size + u.size

theorem Smaller.lex {x y t u : Ty} (h : Smaller x y t u) :
    Prod.Lex (· < ·) (· < ·) (distinct (x.ids ++ y.ids), x.size + y.size)
      (distinct (t.ids ++ u.ids), t.size + u.size) := by
  rcases h with h | ⟨h, hs⟩
  · exact .left _ _ h
  · rcases Nat.lt_or_eq_of_le h with h | h
    · exact .left _ _ h
    · rw [h]; exact .right _ hs

/-- The pair `p` is below `(t, u)`: it has no other variables, and fewer nodes. -/
structure Below (p : Ty × Ty) (t u : Ty) : Prop where
  left : ∀ v ∈ p.1.ids, v ∈ t.ids ++ u.ids
  right : ∀ v ∈ p.2.ids, v ∈ t.ids ++ u.ids
  size : p.1.size + p.2.size < t.size + u.size

theorem Below.swap {p : Ty × Ty} {t u : Ty} (h : Below p t u) : Below p u t :=
  ⟨fun v hv => by simpa [or_comm] using h.left v hv, fun v hv => by simpa [or_comm] using h.right v hv,
    by have := h.size; omega⟩

theorem below_con_con {n m : String} {xs ys : List Ty} {l k : Label} {p : Ty × Ty}
    (h : p ∈ xs.zip ys) : Below p (.con n xs l) (.con m ys k) := by
  have hx := (List.of_mem_zip h).1
  have hy := (List.of_mem_zip h).2
  refine ⟨fun v hv => List.mem_append_left _ (Ty.mem_ids_con.2 ⟨_, hx, hv⟩),
    fun v hv => List.mem_append_right _ (Ty.mem_ids_con.2 ⟨_, hy, hv⟩), ?_⟩
  have := Ty.size_le_sizeAll hx
  have := Ty.size_le_sizeAll hy
  simp only [Ty.size]
  omega

theorem below_mapParts {n m : String} {xs : List Ty} {gs : List (String × Ty)} {l k : Label}
    {p : Ty × Ty} (h : p ∈ (mapParts n xs l m gs k).pairs) : Below p (.con n xs l) (.record m gs k) := by
  unfold mapParts at h
  split at h
  next value _ hlast =>
    obtain ⟨f, hf, rfl⟩ := List.mem_map.1 h
    have hv : value ∈ xs := List.mem_of_getLast? hlast
    refine ⟨fun v hv' => List.mem_append_left _ (Ty.mem_ids_con.2 ⟨_, hv, hv'⟩),
      fun v hv' => List.mem_append_right _ (Ty.mem_ids_record.2 ⟨_, hf, hv'⟩), ?_⟩
    have := Ty.size_le_sizeAll hv
    have := Ty.size_le_sizeFields hf
    simp only [Ty.size]
    omega
  next => simp [Parts.clash] at h

theorem mem_fieldParts {left : String} {fs gs : List (String × Ty)} {p : Ty × Ty}
    (h : p ∈ (fieldParts left fs gs).pairs) : ∃ k, (k, p.1) ∈ fs ∧ (k, p.2) ∈ gs := by
  induction gs with
  | nil => simp [fieldParts] at h
  | cons g gs ih =>
    obtain ⟨k, t⟩ := g
    simp only [fieldParts] at h
    split at h
    · simp at h
    next u hu =>
      rcases List.mem_cons.1 h with rfl | h
      · exact ⟨k, Dict.mem_of_get?_eq_some hu, List.mem_cons_self⟩
      · obtain ⟨k', h1, h2⟩ := ih h
        exact ⟨k', h1, List.mem_cons_of_mem _ h2⟩

theorem below_fieldParts {n m : String} {fs gs : List (String × Ty)} {l k : Label} {p : Ty × Ty}
    (h : p ∈ (fieldParts n fs gs).pairs) : Below p (.record n fs l) (.record m gs k) := by
  obtain ⟨key, hf, hg⟩ := mem_fieldParts h
  refine ⟨fun v hv => List.mem_append_left _ (Ty.mem_ids_record.2 ⟨_, hf, hv⟩),
    fun v hv => List.mem_append_right _ (Ty.mem_ids_record.2 ⟨_, hg, hv⟩), ?_⟩
  have := Ty.size_le_sizeFields hf
  have := Ty.size_le_sizeFields hg
  simp only [Ty.size] at *
  omega

/-- The parts of two types are below them. -/
theorem below_parts {t u : Ty} {p : Ty × Ty} (h : p ∈ (parts t u).pairs) : Below p t u := by
  unfold parts at h
  split at h
  · split at h
    · exact below_con_con h
    · simp [Parts.clash] at h
  · exact below_mapParts h
  · exact (below_mapParts h).swap
  · split at h
    · exact below_fieldParts h
    · split at h
      · exact (below_fieldParts h).swap
      · simp [Parts.clash] at h
  · simp [Parts.clash] at h

/-- Under bindings within the variables of two types, a pair below them becomes smaller. -/
theorem Below.smaller {p : Ty × Ty} {t u : Ty} {s : Subst} (h : Below p t u)
    (hs : s.Within (t.ids ++ u.ids)) (a : Attachments) :
    Smaller (Subst.apply a s p.1) (Subst.apply a s p.2) t u := by
  have hsub : ∀ v ∈ (Subst.apply a s p.1).ids ++ (Subst.apply a s p.2).ids, v ∈ t.ids ++ u.ids := by
    intro v hv
    rcases List.mem_append.1 hv with hv | hv
    · exact hs.ids_apply h.left v hv
    · exact hs.ids_apply h.right v hv
  cases s with
  | nil => exact .inr ⟨distinct_le fun v hv => hsub v hv, h.size⟩
  | cons e s =>
    have hk : e.1 ∈ Dict.keys (e :: s) := by simp [Dict.keys]
    refine .inl (distinct_lt (fun v hv => hsub v hv) (hs.keys _ hk) fun hv => ?_)
    rcases List.mem_append.1 hv with hv | hv
    · exact hs.not_mem_ids_apply hk hv
    · exact hs.not_mem_ids_apply hk hv

end Unify

end ScriptTyping
