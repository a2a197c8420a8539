import ScriptTyping.Proofs.Refresh

/-!
# The order in which tails are revised

When bindings are composed, what was found last is applied to each of the older ones, in the order in
which a dictionary lists them. That order is the order of names as texts. It must not count: this
module shows that a substitution can be applied to some types in any order, with the same tails in the
end.

**Visits.** To revise the tails of a type is to visit its own tails one after another
(`Attachments.reviseDepth_succ`). A visit goes to the tails inside first, and then rewrites the tail.

**Levels.** If tails fit at some stage, they have levels, such that the tails inside one are of a lower
level, and this stays so for all that the bindings put in (`Attachments.Graded`, `Subst.Lowers`). Of two
visits to different tails, the one to the lower neither reads nor writes the higher. So visits commute,
by induction on the levels (`Graded.visit_comm`).

**Absorption.** However unification ends, there is a stage that absorbs all that it has applied
(`Run.absorbed`), so that levels are there from the start to the end.
-/

namespace ScriptTyping

open Ty List Dict Attachments

namespace Ty

/-! ## Own tails -/

mutual

/-- The tails of the records in a type, not counting those inside tails, as they are met. -/
def ownTails : Ty → List Nat
  | missing => []
  | var _ => []
  | con _ args _ => ownTailsAll args
  | record _ fields l =>
    match l.tail with
    | none => ownTailsFields fields.length fields
    | some t => ownTailsFields t.own fields ++ [t.number]

def ownTailsAll : List Ty → List Nat
  | [] => []
  | t :: ts => t.ownTails ++ ownTailsAll ts

/-- The own tails of the first of some fields. -/
def ownTailsFields : Nat → List (String × Ty) → List Nat
  | 0, _ => []
  | _, [] => []
  | n + 1, (_, t) :: fs => t.ownTails ++ ownTailsFields n fs

end

theorem ownTailsAll_eq_flatMap (ts : List Ty) : ownTailsAll ts = ts.flatMap ownTails := by
  induction ts with
  | nil => rfl
  | cons t ts ih => rw [ownTailsAll, ih, flatMap_cons]

theorem ownTailsFields_eq_flatMap (n : Nat) (fs : List (String × Ty)) :
    ownTailsFields n fs = (fs.take n).flatMap fun f => f.2.ownTails := by
  induction fs generalizing n with
  | nil => cases n <;> rfl
  | cons f fs ih =>
    cases n with
    | zero => rfl
    | succ n => rw [ownTailsFields, ih, take_succ_cons, flatMap_cons]

theorem ownTails_con (name : String) (args : List Ty) (l : Label) :
    (con name args l).ownTails = args.flatMap ownTails := ownTailsAll_eq_flatMap args

theorem ownTails_record (name : String) (fields : List (String × Ty)) (l : Label) :
    (record name fields l).ownTails =
      (ownFields fields l).flatMap (fun f => f.2.ownTails) ++ (l.tail.map Tail.number).toList := by
  rw [ownTails, ownFields]
  cases l.tail with
  | none => simp [ownTailsFields_eq_flatMap]
  | some t => simp [ownTailsFields_eq_flatMap]

end Ty

/-! ## Levels -/

/-- A level for each variable and for each tail. -/
structure Levels where
  ids : String → Nat
  tails : Nat → Nat

/-- The own tails of the type are below a level, and its own variables are not above it. -/
inductive Ty.Under (L : Levels) (k : Nat) : Ty → Prop
  | missing : Under L k missing
  | var {v : Var} (h : L.ids v.id ≤ k) : Under L k (var v)
  | con {name args l} (h : ∀ t ∈ args, Under L k t) : Under L k (con name args l)
  | record {name fields l} (h : ∀ f ∈ ownFields fields l, Under L k f.2)
    (ht : ∀ t, l.tail = some t → L.tails t.number < k) : Under L k (record name fields l)

/-- What is bound does not come above the variable. -/
def Subst.Lowers (L : Levels) (s : Subst) : Prop :=
  ∀ id t, Dict.get? s id = some t → t.Under L (L.ids id)

/-- What is in a tail comes below it. -/
def Attachments.Graded (L : Levels) (a : Attachments) : Prop :=
  ∀ (n : Nat) (d : Dict Ty), a.tails[n]? = some d → ∀ f ∈ d, f.2.Under L (L.tails n)

variable {L : Levels} {k m : Nat} {s : Subst} {a b : Attachments} {t u : Ty}

namespace Ty.Under

theorem mono (h : t.Under L k) (hk : k ≤ m) : t.Under L m := by
  induction h with
  | missing => exact .missing
  | var h => exact .var (Nat.le_trans h hk)
  | con _ ih => exact .con ih
  | record _ ht ih => exact .record ih fun u hu => Nat.lt_of_lt_of_le (ht u hu) hk

theorem ownTails (h : t.Under L k) : ∀ n ∈ t.ownTails, L.tails n < k := by
  induction h with
  | missing => simp [Ty.ownTails]
  | var _ => simp [Ty.ownTails]
  | con _ ih =>
    intro n hn
    rw [ownTails_con, mem_flatMap] at hn
    obtain ⟨t, ht, hn⟩ := hn
    exact ih t ht n hn
  | @record name fields l _ ht ih =>
    intro n hn
    rw [ownTails_record, mem_append, mem_flatMap, Option.mem_toList,
      Option.map_eq_some_iff] at hn
    rcases hn with ⟨f, hf, hn⟩ | ⟨u, hu, rfl⟩
    · exact ih f hf n hn
    · exact ht u hu

theorem substitute (h : t.Under L k) (hs : s.Lowers L) (a : Attachments) : (t.substitute a s).Under L k := by
  induction h with
  | missing => exact .missing
  | @var v h =>
    rw [Ty.substitute]
    cases hget : Dict.get? s v.id with
    | none => exact .var h
    | some u => exact (hs v.id u hget).mono h
  | con _ ih =>
    rw [Ty.substitute, substituteAll_eq_map]
    exact .con (forall_mem_map.2 fun t ht => ih t ht)
  | record _ ht ih =>
    rw [Ty.substitute, substituteFields_eq_map]
    refine .record (fun g hg => ?_) ht
    have hown := ownFields_mapValues (Ty.substitute a s)
    simp only [mapValues] at hown
    rw [hown _ rfl] at hg
    obtain ⟨f, hf, rfl⟩ := mem_map.1 hg
    exact ih f hf

/-- Levels only count for cores. -/
theorem core_iff : t.core.Under L k ↔ t.Under L k := by
  induction t with
  | missing => exact ⟨fun _ => .missing, fun _ => .missing⟩
  | var v =>
    rw [core_var]
    constructor
    · rintro (_ | h)
      exact .var h
    · rintro (_ | h)
      exact .var h
  | con name args l ih =>
    rw [core_con]
    constructor
    · rintro (_ | _ | h)
      exact .con fun t ht => (ih t ht).1 (h _ (mem_map_of_mem ht))
    · rintro (_ | _ | h)
      exact .con (forall_mem_map.2 fun t ht => (ih t ht).2 (h t ht))
  | record name fields l ih =>
    rw [core_record]
    constructor
    · rintro (_ | _ | _ | ⟨h, ht⟩)
      rw [ownFields_core] at h
      exact .record (fun f hf => (ih f (mem_of_mem_ownFields hf)).1
        (h (f.1, f.2.core) (mem_map.2 ⟨f, hf, rfl⟩))) ht
    · rintro (_ | _ | _ | ⟨h, ht⟩)
      refine .record (fun g hg => ?_) ht
      rw [ownFields_core] at hg
      obtain ⟨f, hf, rfl⟩ := mem_map.1 hg
      exact (ih f (mem_of_mem_ownFields hf)).2 (h f hf)

end Ty.Under

namespace Attachments

/-- Levels are the same where tails are alike. -/
theorem Alike.graded (h : Alike a b) (hb : b.Graded L) : a.Graded L := by
  intro n d hd f hf
  have hn := h.getElem? n
  rw [hd, Option.map_some] at hn
  obtain ⟨e, he, heq⟩ := Option.map_eq_some_iff.1 hn.symm
  obtain ⟨g, hg, hfg⟩ : ∃ g ∈ e, (g.1, g.2.core) = (f.1, f.2.core) := by
    have hmem : (f.1, f.2.core) ∈ mapValues core e := by
      rw [heq]
      exact mem_map.2 ⟨f, hf, rfl⟩
    exact mem_map.1 hmem
  rw [← Ty.Under.core_iff, ← (Prod.mk.inj hfg).2, Ty.Under.core_iff]
  exact hb n e he g hg

theorem Graded.of_rewrites (h : a.Graded L) (hs : s.Lowers L) (hr : a.Rewrites s b) : b.Graded L := by
  induction hr with
  | refl => exact h
  | @step b _ m ih =>
    intro n d hd f hf
    rw [getElem?_rewriteTail, Option.map_eq_some_iff] at hd
    obtain ⟨e, he, rfl⟩ := hd
    split at hf
    · obtain ⟨g, hg, rfl⟩ := mem_map.1 hf
      exact (ih n e he g hg).substitute hs b
    · exact ih n e he f hf

/-! ## Visits -/

/-- Change a tail as a substitution changes it: the tails inside, up to some depth, and then itself. -/
def visit (s : Subst) (depth : Nat) (a : Attachments) (n : Nat) : Attachments :=
  (((a.tails[n]?).getD []).foldl (fun a f => reviseDepth s depth a f.2) a).rewriteTail s n

/-- The own tails of what is in a tail. -/
def innerTails (a : Attachments) (n : Nat) : List Nat :=
  ((a.tails[n]?).getD []).flatMap fun f => f.2.ownTails

/-- To revise a type is to visit its own tails. -/
theorem reviseDepth_succ (s : Subst) (depth : Nat) (a : Attachments) (t : Ty) :
    reviseDepth s (depth + 1) a t = t.ownTails.foldl (visit s depth) a := by
  rw [reviseDepth]
  induction t generalizing a with
  | missing => rfl
  | var v => rfl
  | con name args l ih =>
    rw [reviseWith, reviseAll_eq_foldl, ownTails_con, foldl_flatMap]
    exact foldl_rel (r := Eq) rfl fun t ht b c hbc => by rw [hbc, ih t ht c]
  | record name fields l ih =>
    have hown : (ownFields fields l).foldl (fun a f => reviseWith (reviseDepth s depth) s a f.2) a =
        ((ownFields fields l).flatMap fun f => f.2.ownTails).foldl (visit s depth) a := by
      rw [foldl_flatMap]
      exact foldl_rel (r := Eq) rfl fun f hf b c hbc => by
        rw [hbc, ih f (mem_of_mem_ownFields hf) c]
    rw [reviseWith_record, ownTails_record, foldl_append, ← hown]
    cases l.tail with
    | none => rfl
    | some u => rfl

theorem visit_zero (s : Subst) (a : Attachments) (n : Nat) : visit s 0 a n = a.rewriteTail s n := by
  have hsame (d : Dict Ty) : d.foldl (fun a f => reviseDepth s 0 a f.2) a = a := by
    induction d with
    | nil => rfl
    | cons f d ih => exact ih
  rw [visit, hsame]

theorem visit_succ (s : Subst) (depth : Nat) (a : Attachments) (n : Nat) :
    visit s (depth + 1) a n = ((a.innerTails n).foldl (visit s depth) a).rewriteTail s n := by
  rw [visit, innerTails, foldl_flatMap]
  exact congrArg (rewriteTail · s n) (foldl_rel (r := Eq) rfl fun f _ b c hbc => by
    rw [hbc, reviseDepth_succ])

theorem rewrites_visit (s : Subst) (depth : Nat) (a : Attachments) (n : Nat) :
    a.Rewrites s (visit s depth a n) :=
  .step (rewrites_foldl (fun b f _ => rewrites_reviseDepth depth b f.2) a) n

theorem rewrites_visits (s : Subst) (depth : Nat) (a : Attachments) (l : List Nat) :
    a.Rewrites s (l.foldl (visit s depth) a) :=
  rewrites_foldl (fun b n _ => rewrites_visit s depth b n) a

/-- What a substitution gives depends on the classes that are attached, and not on tails. -/
theorem substitute_of_sets (h : b.sets = a.sets) (s : Subst) : substitute b s = substitute a s := by
  have hlabel (l : Label) : b.ofLabel l = a.ofLabel l := by
    simp only [ofLabel, get?, h]
  funext t
  induction t with
  | missing => rfl
  | var v => rfl
  | con name args l ih =>
    rw [substitute, substitute, substituteAll_eq_map, substituteAll_eq_map, hlabel,
      map_congr_left ih]
  | record name fields l ih =>
    rw [substitute, substitute, substituteFields_eq_map, substituteFields_eq_map, hlabel]
    exact congrArg (record name · _) (map_congr_left fun f hf => Prod.ext rfl (ih f hf))

theorem rewriteTail_comm (a : Attachments) (s : Subst) {m n : Nat} (h : m ≠ n) :
    (a.rewriteTail s m).rewriteTail s n = (a.rewriteTail s n).rewriteTail s m := by
  refine congrArg (mk a.sets a.next) (ext_getElem? fun i => ?_)
  show ((a.rewriteTail s m).rewriteTail s n).tails[i]? = ((a.rewriteTail s n).rewriteTail s m).tails[i]?
  have hsubst (i : Nat) : substitute (a.rewriteTail s i) s = substitute a s :=
    substitute_of_sets (b := a.rewriteTail s i) (a := a) rfl s
  simp only [getElem?_rewriteTail, hsubst, Option.map_map]
  refine Option.map_congr fun d _ => ?_
  by_cases him : m = i <;> by_cases hin : n = i
  · exact absurd (him.trans hin.symm) h
  all_goals simp [him, hin]

theorem innerTails_rewriteTail (a : Attachments) (s : Subst) {m n : Nat} (h : m ≠ n) :
    (a.rewriteTail s m).innerTails n = a.innerTails n := by
  rw [innerTails, getElem?_rewriteTail, innerTails]
  cases a.tails[n]? with
  | none => rfl
  | some d => simp [h]

namespace Graded

variable {n depth depth' : Nat}

theorem visit (h : a.Graded L) (hs : s.Lowers L) (depth n : Nat) : (visit s depth a n).Graded L :=
  h.of_rewrites hs (rewrites_visit s depth a n)

theorem innerTails (h : a.Graded L) : ∀ m ∈ a.innerTails n, L.tails m < L.tails n := by
  intro m hm
  rw [Attachments.innerTails, mem_flatMap] at hm
  obtain ⟨f, hf, hm⟩ := hm
  cases hd : a.tails[n]? with
  | none =>
    rw [hd] at hf
    cases hf
  | some d =>
    rw [hd] at hf
    exact (h n d hd f hf).ownTails m hm

/-- A visit that goes deep enough. -/
theorem visit_eq (h : a.Graded L) (hn : L.tails n ≤ depth) : Attachments.visit s depth a n =
    ((a.innerTails n).foldl (Attachments.visit s (depth - 1)) a).rewriteTail s n := by
  cases depth with
  | zero =>
    have hnone : a.innerTails n = [] := by
      refine eq_nil_iff_forall_not_mem.2 fun m hm => ?_
      have := h.innerTails m hm
      omega
    rw [visit_zero, hnone]
    rfl
  | succ depth => exact visit_succ s depth a n

/-- Visits one after another are the same if each is, as long as the levels are kept. -/
theorem foldl_congr {g : Attachments → Nat → Attachments} {l : List Nat} (h : a.Graded L) (hs : s.Lowers L)
    (hg : ∀ b, b.Graded L → ∀ n ∈ l, Attachments.visit s depth b n = g b n) :
    l.foldl (Attachments.visit s depth) a = l.foldl g a := by
  induction l generalizing a with
  | nil => rfl
  | cons n l ih =>
    rw [foldl_cons, foldl_cons, ← hg a h n mem_cons_self]
    exact ih (h.visit hs depth n) fun b hb m hm => hg b hb m (mem_cons_of_mem _ hm)

/-- How deep a visit may go does not count if it is deep enough. -/
theorem visit_of_le (h : a.Graded L) (hs : s.Lowers L) (hn : L.tails n ≤ depth)
    (hn' : L.tails n ≤ depth') : Attachments.visit s depth a n = Attachments.visit s depth' a n := by
  induction depth generalizing a n depth' with
  | zero =>
    have hnone : a.innerTails n = [] := by
      refine eq_nil_iff_forall_not_mem.2 fun m hm => ?_
      have := h.innerTails m hm
      omega
    rw [h.visit_eq hn, h.visit_eq hn', hnone]
    rfl
  | succ depth ih =>
    rw [h.visit_eq hn, h.visit_eq hn']
    refine congrArg (rewriteTail · s n) ?_
    have hlower (m) (hm : m ∈ a.innerTails n) : L.tails m ≤ depth ∧ L.tails m ≤ depth' - 1 := by
      have := h.innerTails m hm
      omega
    exact h.foldl_congr hs fun b hb m hm => ih hb (hlower m hm).1 (hlower m hm).2

/-- A visit to a tail does not concern another that is not below it. -/
theorem visit_rewriteTail (h : a.Graded L) (hs : s.Lowers L) (hne : m ≠ n)
    (hle : L.tails m ≤ L.tails n) (hm : L.tails m ≤ depth) : Attachments.visit s depth (a.rewriteTail s n) m =
      (Attachments.visit s depth a m).rewriteTail s n := by
  induction depth generalizing a m with
  | zero => rw [visit_zero, visit_zero, rewriteTail_comm a s hne.symm]
  | succ depth ih =>
    rw [visit_succ, visit_succ, innerTails_rewriteTail a s hne.symm]
    have hinner : ∀ (l : List Nat) (b : Attachments), b.Graded L →
        (∀ i ∈ l, L.tails i < L.tails m) →
        l.foldl (Attachments.visit s depth) (b.rewriteTail s n) =
          (l.foldl (Attachments.visit s depth) b).rewriteTail s n := by
      intro l
      induction l with
      | nil => exact fun b _ _ => rfl
      | cons i l ihl =>
        intro b hb hl
        have hi := hl i mem_cons_self
        have hin : i ≠ n := by
          rintro rfl
          omega
        rw [foldl_cons, foldl_cons, ih hb hin (by omega) (by omega)]
        exact ihl _ (hb.visit hs depth i) fun j hj => hl j (mem_cons_of_mem _ hj)
    rw [hinner _ a h fun i hi => h.innerTails i hi, rewriteTail_comm _ s hne.symm]

/-- What is inside a tail stays when another is visited that is not above it. -/
theorem innerTails_visit (h : a.Graded L) (hs : s.Lowers L) (hne : m ≠ n)
    (hle : L.tails m ≤ L.tails n) (hm : L.tails m ≤ depth) :
    (Attachments.visit s depth a m).innerTails n = a.innerTails n := by
  induction depth generalizing a m with
  | zero => rw [visit_zero, innerTails_rewriteTail a s hne]
  | succ depth ih =>
    rw [visit_succ, innerTails_rewriteTail _ s hne]
    have hinner : ∀ (l : List Nat) (b : Attachments), b.Graded L →
        (∀ i ∈ l, L.tails i < L.tails m) →
        (l.foldl (Attachments.visit s depth) b).innerTails n = b.innerTails n := by
      intro l
      induction l with
      | nil => exact fun b _ _ => rfl
      | cons i l ihl =>
        intro b hb hl
        have hi := hl i mem_cons_self
        have hin : i ≠ n := by
          rintro rfl
          omega
        rw [foldl_cons, ihl _ (hb.visit hs depth i) fun j hj => hl j (mem_cons_of_mem _ hj)]
        exact ih hb hin (by omega) (by omega)
    exact hinner _ a h fun i hi => h.innerTails i hi

/-- A visit commutes with others, if it does so with each. -/
theorem visit_foldl {l : List Nat} (h : a.Graded L) (hs : s.Lowers L)
    (hl : ∀ b, b.Graded L → ∀ i ∈ l, Attachments.visit s depth' (Attachments.visit s depth b i) m =
      Attachments.visit s depth (Attachments.visit s depth' b m) i) :
    Attachments.visit s depth' (l.foldl (Attachments.visit s depth) a) m =
      l.foldl (Attachments.visit s depth) (Attachments.visit s depth' a m) := by
  induction l generalizing a with
  | nil => rfl
  | cons i l ih =>
    rw [foldl_cons, foldl_cons, ← hl a h i mem_cons_self]
    exact ih (h.visit hs depth i) fun b hb j hj => hl b hb j (mem_cons_of_mem _ hj)

/-- Two visits can be made in any order. -/
theorem visit_comm (h : a.Graded L) (hs : s.Lowers L) (hn : L.tails n ≤ depth) (hm : L.tails m ≤ depth') :
    Attachments.visit s depth' (Attachments.visit s depth a n) m =
      Attachments.visit s depth (Attachments.visit s depth' a m) n := by
  -- The induction is on the sum of the levels; the higher tail is taken apart.
  induction hsum : L.tails n + L.tails m using Nat.strongRecOn
    generalizing a n m depth depth' with
  | _ sum ih =>
    have main : ∀ {n m depth depth' : Nat}, L.tails n ≤ depth → L.tails m ≤ depth' → n ≠ m →
        L.tails m ≤ L.tails n → L.tails n + L.tails m = sum →
        Attachments.visit s depth' (Attachments.visit s depth a n) m =
          Attachments.visit s depth (Attachments.visit s depth' a m) n := by
      intro n m depth depth' hn hm hne hle hsum
      have hvisits := h.of_rewrites hs (rewrites_visits s (depth - 1) a (a.innerTails n))
      rw [h.visit_eq hn, hvisits.visit_rewriteTail hs hne.symm hle hm,
        (h.visit hs depth' m).visit_eq hn, h.innerTails_visit hs hne.symm hle hm]
      refine congrArg (rewriteTail · s n) (h.visit_foldl hs fun b hb i hi => ?_)
      have := h.innerTails i hi
      exact ih (L.tails i + L.tails m) (by omega) hb (by omega) hm rfl
    by_cases hne : n = m
    · subst hne
      rw [h.visit_of_le hs hn hm, (h.visit hs depth' n).visit_of_le hs hm hn]
    · rcases Nat.le_total (L.tails m) (L.tails n) with hle | hle
      · exact main hn hm hne hle hsum
      · exact (main hm hn (Ne.symm hne) hle (by omega)).symm

/-- Tails can be visited in any order. -/
theorem foldl_visit_perm {l l' : List Nat} (hperm : l.Perm l') (h : a.Graded L) (hs : s.Lowers L)
    (hdepth : ∀ n, L.tails n ≤ depth) :
    l.foldl (Attachments.visit s depth) a = l'.foldl (Attachments.visit s depth) a := by
  induction hperm generalizing a with
  | nil => rfl
  | cons n _ ih => exact ih (h.visit hs depth n)
  | swap m n l =>
    exact congrArg (l.foldl (Attachments.visit s depth)) (h.visit_comm hs (hdepth n) (hdepth m))
  | trans _ _ ih ih' => exact (ih h).trans (ih' h)

end Graded

/-- To apply a substitution to types is to visit all their tails. -/
theorem foldl_revise (s : Subst) (a : Attachments) (ts : List Ty)
    (h : (s.isEmpty || a.tails.isEmpty) = false) : ts.foldl (fun a t => a.revise s t) a =
      (ts.flatMap ownTails).foldl (visit s a.tails.length) a := by
  induction ts generalizing a with
  | nil => rfl
  | cons t ts ih =>
    have hrevise : a.revise s t = t.ownTails.foldl (visit s a.tails.length) a := by
      rw [revise, if_neg (by simp [h]), reviseDepth_succ]
    have hlength := length_rewrites (a.rewrites_revise (s := s) t)
    rw [foldl_cons, ih (a.revise s t) (by rw [isEmpty_of_length hlength, h]), hlength,
      flatMap_cons, foldl_append, hrevise]

/-- A substitution can be applied to types in any order. -/
theorem Graded.foldl_revise_perm {ts us : List Ty} (hperm : ts.Perm us) (h : a.Graded L)
    (hs : s.Lowers L) (hdepth : ∀ n, L.tails n ≤ a.tails.length) :
    ts.foldl (fun a t => a.revise s t) a = us.foldl (fun a t => a.revise s t) a := by
  cases hempty : s.isEmpty || a.tails.isEmpty with
  | true =>
    have hsame (ts : List Ty) : ts.foldl (fun a t => a.revise s t) a = a := by
      induction ts with
      | nil => rfl
      | cons t ts ih =>
        rw [foldl_cons, revise, if_pos hempty]
        exact ih
    rw [hsame, hsame]
  | false =>
    rw [foldl_revise s a ts hempty, foldl_revise s a us hempty]
    exact h.foldl_visit_perm (hperm.flatMap_right _) hs hdepth

/-! ## Levels at a stage -/

variable {θ : Valuation} {B : List (Dict Ty)} {K : String → Prop} {done : List Application}

/-- The levels at a stage count the tails that are smaller. -/
def levels (θ : Valuation) (B : List (Dict Ty)) : Levels where
  ids id := rank B (θ id).size
  tails n := ((B[n]?).map fun d => rank B (sizeFields d)).getD 0

theorem levels_le (θ : Valuation) (B : List (Dict Ty)) (n : Nat) : (levels θ B).tails n ≤ B.length := by
  show ((B[n]?).map fun d => rank B (sizeFields d)).getD 0 ≤ B.length
  cases B[n]? with
  | none => exact Nat.zero_le _
  | some d => exact rank_le_length B _

theorem under_of_coherent (h : (t.image θ).Coherent B) : t.Under (levels θ B) (rank B (t.image θ).size) := by
  induction t with
  | missing => exact .missing
  | var v => exact .var (Nat.le_refl _)
  | con name args l ih =>
    rw [image_con] at h ⊢
    cases h with
    | con h =>
      refine .con fun t ht => ?_
      have hmem : t.image θ ∈ args.map (image θ) := mem_map_of_mem ht
      exact (ih t ht (h _ hmem)).mono (rank_mono B (Nat.le_succ_of_le (size_le_sizeAll hmem)))
  | record name fields l ih =>
    have htail (u) (hu : l.tail = some u) :
        ((record name fields l).image θ).HasTail u.number := by
      rw [image_record]
      exact .here hu rfl
    have hco := h
    rw [image_record] at hco
    cases hco with
    | record hco _ =>
      refine .record (fun f hf => ?_) fun u hu => ?_
      · have hf := mem_of_mem_ownFields hf
        have hmem : (f.1, f.2.image θ) ∈ mapValues (image θ) fields := mem_map.2 ⟨f, hf, rfl⟩
        refine (ih f hf (hco _ hmem)).mono (rank_mono B ?_)
        rw [image_record]
        exact Nat.le_succ_of_le (size_le_sizeFields hmem)
      · obtain ⟨d, hd, hlt⟩ := exists_of_hasTail h (htail u hu)
        have hlevel : (levels θ B).tails u.number = rank B (sizeFields d) := by
          simp only [levels, hd, Option.map_some, Option.getD_some]
        rw [hlevel]
        exact rank_lt (mem_of_getElem? hd) hlt

theorem Fit.graded (h : a.Fit θ B) : a.Graded (levels θ B) := by
  intro n d hd f hf
  have hmem : (f.1, f.2.image θ) ∈ mapValues (image θ) d := mem_map.2 ⟨f, hf, rfl⟩
  have hlevel : (levels θ B).tails n = rank B (sizeFields (mapValues (image θ) d)) := by
    simp only [levels, h.getElem?, hd, Option.map_some, Option.getD_some]
  rw [hlevel]
  exact (under_of_coherent (h.coherent _ (h.mem hd) _ hmem)).mono (rank_mono B (size_le_sizeFields hmem))

end Attachments

open Attachments

variable {θ : Valuation} {B : List (Dict Ty)} {K : String → Prop} {done : List Application} {r : Subst}

/-- At the stage, the bindings say of each variable what the stage says. -/
def Subst.Absorbed (θ : Valuation) (B : List (Dict Ty)) (s : Subst) : Prop :=
  ∀ id t, Dict.get? s id = some t → t.image θ = θ id ∧ (θ id).Coherent B

namespace Subst.Absorbed

theorem lowers (h : s.Absorbed θ B) : s.Lowers (levels θ B) := by
  intro id t ht
  obtain ⟨himage, hco⟩ := h id t ht
  have hunder := under_of_coherent (himage ▸ hco)
  rwa [himage] at hunder

/-- What was absorbed is so at each stage that is reached from there. -/
theorem after (h : s.Absorbed θ B) (hr : Reached θ B K a r) : s.Absorbed (θ.after r) (tailsAfter B r) := by
  intro id t ht
  obtain ⟨himage, hco⟩ := h id t ht
  refine ⟨?_, hco.image fun id _ => ?_⟩
  · have htwice : t.image (θ.after r) = (t.image θ).image r.images := (image_image ..).symm
    rw [htwice, himage]
    rfl
  · rcases hr.images_cases id with heq | ⟨u, hu, heq⟩ <;> rw [heq]
    · exact .var _
    · exact (hr.clear _ (mem_of_get?_eq_some hu)).coherent

end Subst.Absorbed

theorem Reached.absorbed (h : Reached θ B K a s) : s.Absorbed (θ.after s) (tailsAfter B s) := by
  intro id t ht
  have himage := h.absorbs id t ht
  exact ⟨himage, himage ▸ (h.clear _ (mem_of_get?_eq_some ht)).coherent⟩

/-- Where all that was applied is absorbed, tails have shown the same from the start. -/
theorem Attachments.fit_replay (hdone : ∀ x ∈ done, x.1.Absorbed θ B) :
    (a.replay done).Fit θ B ↔ a.Fit θ B := by
  induction done generalizing a with
  | nil => exact Iff.rfl
  | cons x done ih =>
    have himages := (a.rewrites_revise (s := x.1) x.2).images (θ := θ)
      fun k u hu => (hdone x mem_cons_self k u hu).1
    refine (ih fun y hy => hdone y (mem_cons_of_mem _ hy)).trans ?_
    exact ⟨fun h => ⟨himages.symm.trans h.tails, h.coherent⟩, fun h => ⟨himages.trans h.tails, h.coherent⟩⟩

/-! ## What runs apply -/

/-- Tails fit at the later stage, which absorbs all that is applied from now on, and all that was
absorbed before. -/
structure Later (θ : Valuation) (B : List (Dict Ty)) (a : Attachments) (done : List Application)
    (θ' : Valuation) (B' : List (Dict Ty)) : Prop where
  fit : a.Fit θ' B'
  done : ∀ x ∈ done, x.1.Absorbed θ' B'
  before : ∀ s : Subst, s.Absorbed θ B → s.Absorbed θ' B'

/-- At the later stage, what was clear of some bound variables is so too. -/
structure LaterClear (θ : Valuation) (B : List (Dict Ty)) (K : String → Prop) (a : Attachments)
    (xs : List Application) (θ' : Valuation) (B' : List (Dict Ty)) : Prop
    extends Later θ B a xs θ' B' where
  clear : ∀ (L : String → Prop) (x : Ty), (∀ id, L id → K id) → Clear θ B L a x →
    Clear θ' B' L (a.replay xs) x

namespace LaterClear

variable {θ' θ'' : Valuation} {B' B'' : List (Dict Ty)} {first : List Application}

theorem mono {M : String → Prop} (h : LaterClear θ B K a done θ' B') (hM : ∀ id, M id → K id) :
    LaterClear θ B M a done θ' B' :=
  ⟨h.toLater, fun L x hL => h.clear L x fun id hid => hM id (hL id hid)⟩

theorem trans (h : LaterClear θ B K a first θ' B') (h' : LaterClear θ' B' K (a.replay first) done θ'' B'') :
    LaterClear θ B K a (first ++ done) θ'' B'' := by
  have hfirst (x) (hx : x ∈ first) := h'.before x.1 (h.done x hx)
  refine ⟨⟨(fit_replay hfirst).1 h'.fit, fun x hx => (mem_append.1 hx).elim (hfirst x) (h'.done x),
    fun s hs => h'.before s (h.before s hs)⟩, fun L x hL hx => ?_⟩
  rw [replay_append]
  exact h'.clear L x hL (h.clear L x hL hx)

/-- What is absorbed and has no bound variable is applied at the same stage. -/
theorem here (hfit : a.Fit θ B) (habs : ∀ x ∈ done, x.1.Absorbed θ B)
    (hids : ∀ x ∈ done, ∀ e ∈ x.1, ∀ id ∈ e.2.ids, ¬ K id) : LaterClear θ B K a done θ B :=
  ⟨⟨hfit, habs, fun _ hs => hs⟩, fun _ _ hL hx => hx.replay fun y hy e he id hid hl =>
    hids y hy e he id hid (hL id hl)⟩

/-- The stage that is reached. -/
theorem reached (h : Reached θ B K a s) : LaterClear θ B K a [] (θ.after s) (tailsAfter B s) :=
  ⟨⟨h.fit, by simp, fun _ hr => hr.after h⟩, fun _ _ hL hx => h.waits_of_imp hL hx⟩

end LaterClear

/-- To apply bindings that were reached stays at their stage. -/
theorem Reached.applied (h : Reached θ B K a s) (b : Attachments) (ts : List Ty) :
    LaterClear (θ.after s) (tailsAfter B s) K a (b.applications s ts) (θ.after s) (tailsAfter B s) := by
  refine .here h.fit (fun x hx => ?_) fun x hx e he id hid hK => ?_
  · rw [(mem_applications hx).1]
    exact h.absorbed
  · rw [(mem_applications hx).1] at he
    exact (h.clear e he).ids id hid (.inl hK)

namespace Unify

variable {reg : Registry} {keep : Bool}

/-- Where nothing was applied, the stage is the one of what was found. -/
theorem later_of_done {c : Course Subst} (hdone : c.done = []) (hfit : a.Fit θ B)
    (hfound : ∀ {s : Subst}, c.result = .ok s → Reached θ B K (a.replay c.done) s) :
    ∃ θ' B', LaterClear θ B K a c.done θ' B' ∧
      ∀ s, c.result = .ok s → θ' = θ.after s ∧ B' = tailsAfter B s := by
  rw [hdone] at hfound ⊢
  cases hresult : c.result with
  | error e => exact ⟨θ, B, .here hfit (by simp) (by simp), by simp⟩
  | ok s =>
    refine ⟨θ.after s, tailsAfter B s, .reached (hfound hresult), ?_⟩
    rintro _ ⟨⟩
    exact ⟨rfl, rfl⟩

mutual

/-- However unification ends, a later stage absorbs all that it has applied. If it has found bindings,
this is the stage where they are put in. -/
theorem Run.absorbed : ∀ {a b : Attachments} {t u : Ty} {c : Course Subst} {θ : Valuation}
    {B : List (Dict Ty)} {K : String → Prop}, Run reg keep b t u c → a.Fit θ B → θ.Binds K →
    Clear θ B K a t → Clear θ B K a u → b.tails.isEmpty = a.tails.isEmpty →
    ∃ θ' B', LaterClear θ B K a c.done θ' B' ∧
      ∀ s, c.result = .ok s → θ' = θ.after s ∧ B' = tailsAfter B s
  | _, _, _, _, _, _, _, _, .parts (c := c) _ _ h, hfit, hb, hct, hcu, hempty => by
    have hnil := Reached.nil hfit hb
    obtain ⟨θ', B', hlater, hstage⟩ := RunEach.absorbed h hnil
      (fun p hp => forall_parts (fun _ _ => Clear.child) hct hcu hp) hempty
    rw [c.done_guard]
    exact ⟨θ', B', (LaterClear.reached hnil).trans hlater, fun s hs => hstage s (Course.guard_eq_ok hs).1⟩
  | _, _, _, _, _, _, _, _, h@(.missingLeft _ _), hfit, hb, hct, hcu, hempty
  | _, _, _, _, _, _, _, _, h@(.missingRight _ _), hfit, hb, hct, hcu, hempty
  | _, _, _, _, _, _, _, _, h@(.same _ _), hfit, hb, hct, hcu, hempty
  | _, _, _, _, _, _, _, _, h@(.vars _ _), hfit, hb, hct, hcu, hempty
  | _, _, _, _, _, _, _, _, h@(.left _ _ _), hfit, hb, hct, hcu, hempty
  | _, _, _, _, _, _, _, _, h@(.right _ _ _), hfit, hb, hct, hcu, hempty =>
    later_of_done rfl hfit (h.reached hfit hb hct hcu hempty)

theorem RunEach.absorbed : ∀ {a b : Attachments} {s : Subst} {ps : List (Ty × Ty)} {c : Course Subst}
    {θ : Valuation} {B : List (Dict Ty)} {K : String → Prop}, RunEach reg keep b s ps c →
    Reached θ B K a s → (∀ p ∈ ps, Clear θ B K a p.1 ∧ Clear θ B K a p.2) →
    b.tails.isEmpty = a.tails.isEmpty → ∃ θ' B', LaterClear (θ.after s) (tailsAfter B s) K a c.done θ' B' ∧
      ∀ r, c.result = .ok r → θ' = θ.after r ∧ B' = tailsAfter B r
  | _, _, _, _, _, _, _, _, .nil _ _, hs, _, _ => by
    refine ⟨_, _, .here hs.fit (by simp) (by simp), ?_⟩
    rintro _ ⟨⟩
    exact ⟨rfl, rfl⟩
  | a, b, s, p :: ps, _, θ, B, K, .fail h, hs, hclear, hempty => by
    obtain ⟨hc1, hc2⟩ := hclear p mem_cons_self
    obtain ⟨hboth, hcx, hcy, hempty1⟩ := reached_first hs hc1 hc2 hempty
    obtain ⟨θ', B', hlater, -⟩ := Run.absorbed h hboth.fit (hs.binds.after s) hcx hcy hempty1
    exact ⟨θ', B', (hs.applied b _).trans (hlater.mono fun _ => .inl), by simp⟩
  | a, b, s, p :: ps, _, θ, B, K, .next (b := d) (r := q) h hrest, hs, hclear, hempty => by
    obtain ⟨hc1, hc2⟩ := hclear p mem_cons_self
    obtain ⟨hboth, hcx, hcy, hempty1⟩ := reached_first hs hc1 hc2 hempty
    have hfound := Run.reached h hboth.fit (hs.binds.after s) hcx hcy hempty1 rfl
    obtain ⟨hnext, hstays, hempty2⟩ := reached_rest hs hc1 hc2 hempty h hfound rfl
    obtain ⟨θ₁, B₁, hmid, hstage⟩ := Run.absorbed h hboth.fit (hs.binds.after s) hcx hcy hempty1
    obtain ⟨rfl, rfl⟩ := hstage q rfl
    obtain ⟨θ', B', hlater, hfinal⟩ := RunEach.absorbed hrest hnext
      (fun z hz => (hclear z (mem_cons_of_mem _ hz)).imp (hstays _) (hstays _)) hempty2
    rw [Reached.after_extend θ keep d hs.sorted, Reached.tailsAfter_extend B keep d hs.sorted] at hlater
    have hcomposed := (hfound.adoptIf keep d).applied d (s.map Prod.snd)
    rw [Reached.after_adoptIf, Reached.tailsAfter_adoptIf, ← replay_append] at hcomposed
    refine ⟨θ', B', LaterClear.trans (.trans ((hs.applied b _).trans (hmid.mono fun _ => .inl))
      (hcomposed.mono fun _ => .inl)) hlater, hfinal⟩

end

end Unify

end ScriptTyping
