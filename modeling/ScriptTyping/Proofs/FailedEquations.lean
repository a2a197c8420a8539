import ScriptTyping.Proofs.Classes

/-!
# Equations that fail

An equation that fails binds nothing. But variables that become one share their classes at once, and
keep them if a later part of the equation fails. So a failed equation can leave classes behind, and a
later equation can fail for that.

This is all that is left, apart from tails. `Attachments.Same` says that two attachments differ in
nothing that unification looks at. From attachments that are the same, solving goes on in the same way
(`Twin`). Main statement: `solve_eraseIdx`, what a failed equation leaves, and that without such a
remainder the others do not notice it.
-/

namespace ScriptTyping

open Ty Attachments List Dict Solution Unify

/-! ## Attachments that are the same -/

namespace Attachments

variable {Q : Var → Prop} {a b : Attachments} {s r : Subst} {t : Ty} {l : Label}

/-- Cells that are not those of variables hold the same, and tails are the same. -/
structure Framed (Q : Var → Prop) (a b : Attachments) : Prop where
  frame : ∀ c, (∀ v, Q v → v.cell ≠ c) → b.get? c = a.get? c
  tails : b.tails = a.tails

/-- All cells hold the same classes, those of variables up to whether they were filled with none, and
tails are the same. -/
structure Same (Q : Var → Prop) (a b : Attachments) : Prop extends Framed Q a b where
  get : ∀ c, b.get c = a.get c

theorem tailAt?_of_tails (h : b.tails = a.tails) : b.tailAt? = a.tailAt? := by
  funext depth
  induction depth with
  | zero =>
    funext n
    rw [tailAt?, h, tailAt?]
  | succ depth ih =>
    funext n
    rw [tailAt?, h, ih, tailAt?]

theorem current_of_same (h : b.tails = a.tails) : b.current = a.current := by
  funext t
  rw [current_eq_renewWith, current_eq_renewWith, h, tailAt?_of_tails h]

namespace Framed

theorem ofLabel (h : Framed Q a b) (hl : l.Apart Q) : b.ofLabel l = a.ofLabel l := by
  cases hc : l.cell with
  | none => simp only [Attachments.ofLabel, hc]
  | some c => simp only [Attachments.ofLabel, hc, h.frame c (hl c hc)]

theorem substitute (h : Framed Q a b) (ht : t.Known Q) (s : Subst) : t.substitute b s = t.substitute a s := by
  induction ht with
  | missing => rfl
  | var => rfl
  | con hl _ ih =>
    rw [Ty.substitute, Ty.substitute, substituteAll_eq_map, substituteAll_eq_map, h.ofLabel hl,
      map_congr_left ih]
  | record hl _ ih =>
    rw [Ty.substitute, Ty.substitute, substituteFields_eq_map, substituteFields_eq_map, h.ofLabel hl,
      map_congr_left fun f hf => by rw [ih f hf]]

theorem apply (h : Framed Q a b) (ht : t.Known Q) (s : Subst) : Subst.apply b s t = Subst.apply a s t := by
  unfold Subst.apply
  rw [h.substitute ht s]

theorem compose (h : Framed Q a b) (hs : ∀ e ∈ s, e.2.Known Q) (r : Subst) :
    Subst.compose b r s = Subst.compose a r s := by
  have hmap : mapValues (Subst.apply b r) s = mapValues (Subst.apply a r) s :=
    map_congr_left fun e he => by rw [h.apply (hs e he)]
  unfold Subst.compose
  rw [hmap]

theorem applications (h : Framed Q a b) (s : Subst) (ts : List Ty) :
    b.applications s ts = a.applications s ts := by
  rw [Attachments.applications, h.tails, Attachments.applications]

theorem currentAll (h : Framed Q a b) (s : Subst) : b.currentAll s = a.currentAll s := by
  rw [Attachments.currentAll, h.tails, current_of_same h.tails, Attachments.currentAll]

/-- Variables that share their classes. They need not be the same ones. -/
theorem share (h : Framed Q a b) {v w v' w' : Var} (hv : Q v) (hw : Q w) (hv' : Q v') (hw' : Q w') :
    Framed Q (share a v w) (share b v' w') where
  frame c hc := by
    rw [get?_share, get?_share, if_neg (by simp [hc v' hv', hc w' hw']),
      if_neg (by simp [hc v hv, hc w hw])]
    exact h.frame c hc
  tails := h.tails

theorem rewriteTail (h : Framed Q a b) (ha : a.AllTails Q (Label.Apart Q) (Label.Apart Q)) (s : Subst)
    (n : Nat) : Framed Q (a.rewriteTail s n) (b.rewriteTail s n) where
  frame := h.frame
  tails := by
    refine ext_getElem? fun m => ?_
    rw [getElem?_rewriteTail, getElem?_rewriteTail, h.tails]
    cases hd : a.tails[m]? with
    | none => rfl
    | some d =>
      have hmap : mapValues (Ty.substitute b s) d = mapValues (Ty.substitute a s) d :=
        map_congr_left fun f hf => by rw [h.substitute (ha d (mem_of_getElem? hd) f hf)]
      rw [Option.map_some, Option.map_some, hmap]

end Framed

namespace Same

theorem classes (h : Same Q a b) (ht : t.Known Q) (reg : Registry) : reg.classes b t = reg.classes a t := by
  cases ht with
  | missing => rfl
  | var => exact h.get _
  | con hl => simp only [Registry.classes, classes, h.ofLabel hl]
  | record hl => exact h.ofLabel hl

theorem share (h : Same Q a b) {v w : Var} (hv : Q v) (hw : Q w) :
    Same Q (share a v w) (share b v w) where
  get c := by
    rw [Attachments.get, Attachments.get, get?_share, get?_share, h.get, h.get]
    split
    · rfl
    · exact h.get c
  toFramed := h.toFramed.share hv hw hv hw

theorem bindChecked (h : Same Q a b) {v : Var} (ht : t.Known Q) (reg : Registry) :
    bindChecked reg b v t = bindChecked reg a v t := by
  rw [Unify.bindChecked, Unify.lacking, h.get, h.classes ht, Unify.bindChecked, Unify.lacking]

end Same

/-! ## What is done to tails -/

section

variable {ρ : Attachments → Attachments → Prop} {inside : Attachments → Ty → Attachments}

/-- What is so of two attachments with the same tails, and stays so when one tail is rewritten in both,
stays so when types are revised. -/
theorem rel_reviseWith (htails : ∀ a b, ρ a b → b.tails = a.tails)
    (hstep : ∀ a b n, ρ a b → ρ (a.rewriteTail s n) (b.rewriteTail s n))
    (hin : ∀ a b x, ρ a b → ρ (inside a x) (inside b x)) (h : ρ a b) (t : Ty) :
    ρ (reviseWith inside s a t) (reviseWith inside s b t) := by
  induction t generalizing a b with
  | missing => exact h
  | var v => exact h
  | con name args l ih =>
    rw [reviseWith, reviseWith, reviseAll_eq_foldl, reviseAll_eq_foldl]
    exact foldl_rel h fun t ht a b hab => ih t ht hab
  | record name fields l ih =>
    rw [reviseWith_record, reviseWith_record]
    have hown : ρ ((ownFields fields l).foldl (fun a f => reviseWith inside s a f.2) a)
        ((ownFields fields l).foldl (fun a f => reviseWith inside s a f.2) b) :=
      foldl_rel h fun f hf a b hab => ih f (mem_of_mem_ownFields hf) hab
    cases hl : l.tail with
    | none => exact hown
    | some tail =>
      simp only [htails _ _ hown]
      exact hstep _ _ _ (foldl_rel hown fun f _ a b hab => hin a b f.2 hab)

theorem rel_revise (htails : ∀ a b, ρ a b → b.tails = a.tails)
    (hstep : ∀ a b n, ρ a b → ρ (a.rewriteTail s n) (b.rewriteTail s n)) (h : ρ a b) (t : Ty) :
    ρ (a.revise s t) (b.revise s t) := by
  have hdepth (depth : Nat) : ∀ a b t, ρ a b → ρ (reviseDepth s depth a t) (reviseDepth s depth b t) := by
    induction depth with
    | zero => exact fun _ _ _ h => h
    | succ depth ih => exact fun _ _ t h => rel_reviseWith htails hstep (fun a b x => ih a b x) h t
  unfold revise
  rw [htails a b h]
  split
  · exact h
  · exact hdepth _ _ _ t h

end

/-- Applications do the same to tails that are the same. -/
theorem Framed.replay (h : Framed Q a b) (ha : a.AllTails Q (Label.Apart Q) (Label.Apart Q))
    (done : List Application) (hdone : ∀ x ∈ done, ∀ e ∈ x.1, e.2.Known Q) :
    Framed Q (a.replay done) (b.replay done) := by
  let ρ (a b : Attachments) : Prop := Framed Q a b ∧ a.AllTails Q (Label.Apart Q) (Label.Apart Q)
  have hboth : ρ (a.replay done) (b.replay done) := by
    refine foldl_rel (r := ρ) ⟨h, ha⟩ fun x hx a b hab => ?_
    have hstep (a b : Attachments) (n : Nat) (hab : ρ a b) :
        ρ (a.rewriteTail x.1 n) (b.rewriteTail x.1 n) :=
      ⟨hab.1.rewriteTail hab.2 x.1 n, .of_rewrites copied_apart copied_apart hab.2
        (.step .refl n) (hdone x hx)⟩
    exact rel_revise (fun a b (hab : ρ a b) => hab.1.tails) hstep hab x.2
  exact hboth.1

theorem Same.replay (h : Same Q a b) (ha : a.AllTails Q (Label.Apart Q) (Label.Apart Q))
    (done : List Application) (hdone : ∀ x ∈ done, ∀ e ∈ x.1, e.2.Known Q) :
    Same Q (a.replay done) (b.replay done) where
  toFramed := h.toFramed.replay ha done hdone
  get c := by
    rw [get_of_sets (sets_replay b done).1, get_of_sets (sets_replay a done).1]
    exact h.get c

end Attachments

/-! ## Unification -/

namespace Unify

variable {reg : Registry} {Q : Var → Prop}

/-- Two runs that find, do and leave the same. -/
def twinning (Q : Var → Prop) : Likeness := ⟨Attachments.Same Q, Eq, Eq, Eq, Eq⟩

/-- From attachments that are the same, unification takes the same course. -/
theorem kept_twinning (reg : Registry) (Q : Var → Prop) : (twinning Q).Kept reg false (Ty.Known Q) where
  nil := rfl
  none := rfl
  append := by
    rintro xs _ zs _ rfl rfl
    rfl
  base := by
    have hfound (r : Except UnifyError Subst) : (twinning Q).Found r r := by cases r <;> constructor <;> rfl
    rintro a b t u _ c d hab rfl ht hu hno h h'
    cases h with
    | missingLeft => exact h'.of_missing_left ▸ ⟨hab, .ok rfl, rfl⟩
    | missingRight => exact h'.of_missing_right ▸ ⟨hab, .ok rfl, rfl⟩
    | same _ h =>
      rw [h'.of_vars, if_pos h]
      exact ⟨hab, .ok rfl, rfl⟩
    | vars _ h =>
      rw [h'.of_vars, if_neg h]
      exact ⟨hab.share (ht.of_mem_vars (by simp [vars])) (hu.of_mem_vars (by simp [vars])), .ok rfl, rfl⟩
    | left _ _ hc =>
      rw [h'.of_left hc, hab.bindChecked hu]
      exact ⟨hab, hfound _, rfl⟩
    | right _ _ hc =>
      rw [h'.of_right hc, hab.bindChecked ht]
      exact ⟨hab, hfound _, rfl⟩
    | parts ht hu => exact absurd ⟨ht, hu⟩ hno
  parts := by
    rintro t u _ rfl _ _ ht hu
    refine ⟨ht, hu, forall₂_eq_eq_eq ▸ rfl, ?_⟩
    cases (Unify.parts t u).fault <;> constructor
    rfl
  apply := by
    rintro a b s _ p _ hab rfl rfl hp1 hp2
    exact ⟨by rw [hab.apply hp1, hab.apply hp2]; rfl, (hab.applications ..).symm⟩
  extend := by
    rintro a b s _ r _ hab rfl rfl hs
    simp only [extend_false, adoptIf_false, hab.compose hs, hab.applications]
    exact ⟨rfl, hab, rfl⟩

/-- Unification only adds classes, to variables of the two types, that one of these had. -/
theorem grows_unifyListing (reg : Registry) (keep : Bool) (a : Attachments) (t u : Ty) :
    Grows (fun v => v ∈ t.vars ∨ v ∈ u.vars) a (unifyListing reg keep a t u).1.1 := by
  have hlabels : Adopted (Grows (fun v => v ∈ t.vars ∨ v ∈ u.vars) a) fun _ => True :=
    fun b l hb _ => ⟨trivial, hb.trans (.of_sets (sets_adoptLabel b l))⟩
  have hpassing : Passing keep (Grows (fun v => v ∈ t.vars ∨ v ∈ u.vars) a)
      (fun v => v ∈ t.vars ∨ v ∈ u.vars) (fun _ => True) fun _ => True :=
    ⟨fun _ _ _ => trivial, fun _ _ _ => trivial, fun _ => ⟨hlabels, hlabels⟩, fun b v w hb hv hw => hb.trans (grows_share hv hw),
      fun b d hsets _ hb => hb.trans (.of_sets hsets)⟩
  have hall (x : Ty) (hx : ∀ v ∈ x.vars, v ∈ t.vars ∨ v ∈ u.vars) :
      x.All (fun v => v ∈ t.vars ∨ v ∈ u.vars) (fun _ => True) fun _ => True :=
    x.all_true.imp (fun v hv _ => hx v hv) (fun _ _ => trivial) fun _ _ => trivial
  exact (Run.over hpassing.stable (run_unifyWithin reg keep a t u) (.of_sets rfl) (hall t fun _ => .inl)
    (hall u fun _ => .inr)).attachments

end Unify

/-! ## Solving -/

namespace Attachments

/-- What a type shows of its tails is up to date once it was brought up to date. -/
theorem renewWith_renewWith {B : List (Dict Ty)} {f : Nat → Option (Dict Ty)} {t : Ty}
    (hB : ∀ n, (B[n]?).map List.length = (f n).map List.length)
    (ht : (renewWith f t).shape.Coherent B) : renewWith f (renewWith f t) = renewWith f t := by
  induction t with
  | missing => rfl
  | var v => rfl
  | con name args l ih =>
    rw [renewWith_con, shape, image_con] at ht
    rw [renewWith_con, renewWith_con, map_map]
    cases ht with
    | con ht =>
      congr 1
      exact map_congr_left fun t hmem =>
        ih t hmem (ht _ (mem_map_of_mem (mem_map_of_mem hmem)))
  | record name fields l ih =>
    cases hl : l.tail with
    | none =>
      rw [renewWith_record name fields hl, shape, image_record] at ht
      rw [renewWith_record name fields hl, renewWith_record name _ hl]
      cases ht with
      | record ht =>
        simp only [mapValues, map_map] at ht ⊢
        congr 1
        exact map_congr_left fun x hx =>
          Prod.ext rfl (ih x hx (ht (x.1, _) (mem_map.2 ⟨x, hx, rfl⟩)))
    | some tail =>
      cases hrest : f tail.number with
      | none =>
        -- The tail is there, since the type shows it.
        obtain ⟨fields', hrec⟩ :
            ∃ fields', renewWith f (.record name fields l) = .record name fields' l := by
          rw [renewWith]
          split <;> exact ⟨_, rfl⟩
        rw [hrec, shape, image_record] at ht
        cases ht with
        | record _ htail =>
          have hlen := hB tail.number
          rw [htail tail hl, hrest] at hlen
          cases hlen
      | some rest =>
        rw [renewWith_record_of_tail name fields hl hrest] at ht ⊢
        rw [renewWith_record_of_tail name _ hl hrest]
        rw [shape, image_record] at ht
        cases ht with
        | record ht htail =>
          have hlen := hB tail.number
          rw [htail tail hl, hrest] at hlen
          have htake : (mapValues (renewWith f) (fields.take tail.own) ++ rest).take tail.own =
              mapValues (renewWith f) (fields.take tail.own) := by
            simp only [Option.map_some, Option.some.injEq, mapValues, length_drop,
              length_map, length_append, length_take] at hlen
            by_cases hown : tail.own ≤ fields.length
            · exact take_left' (by simp [mapValues, hown])
            · obtain rfl : rest = [] := length_eq_zero_iff.1 (by omega)
              rw [append_nil]
              exact take_of_length_le (by simp [mapValues])
          rw [htake]
          congr 2
          simp only [mapValues, map_map]
          refine map_congr_left fun x hx => Prod.ext rfl (ih x (mem_of_mem_take hx) ?_)
          refine ht (x.1, _) (mem_map.2 ⟨(x.1, renewWith f x.2), mem_append_left _ ?_, rfl⟩)
          exact mem_map.2 ⟨x, hx, rfl⟩

theorem length_tailAt? (a : Attachments) (depth n : Nat) :
    (a.tailAt? depth n).map List.length = (a.tails[n]?).map List.length := by
  cases depth with
  | zero => rfl
  | succ depth => simp [tailAt?, mapValues, Function.comp_def]

end Attachments

namespace Solution

variable {reg : Registry} {Q : Var → Prop} {K : String → Prop} {T : Ty → Prop} {r r' : Solution}
  {c : Constraint}

/-- Bindings that were brought up to date are up to date. -/
theorem Tidy.currentAll_bindings (h : r.Tidy K T) : r.attachments.currentAll r.bindings = r.bindings := by
  have hcurrent (e) (he : e ∈ r.subst) :
      r.attachments.current (r.attachments.current e.2) = r.attachments.current e.2 := by
    have hco := (h.bound e he).coherent
    rw [current_eq_renewWith] at hco ⊢
    rw [current_eq_renewWith]
    refine renewWith_renewWith (fun n => ?_) hco
    rw [length_tailAt?, getElem?_tailShapes_refresh, Option.map_map]
    congr 1
    funext d
    simp [mapValues]
  unfold bindings currentAll
  split
  · rfl
  · simp only [mapValues, map_map]
    exact map_congr_left fun e he => Prod.ext rfl (hcurrent e he)

/-- From both, solving goes on in the same way. -/
structure Twin (Q : Var → Prop) (r r' : Solution) : Prop where
  same : Same Q r.attachments r'.attachments
  bindings : r'.bindings = r.bindings

namespace Twin

theorem applied (h : Twin Q r r') (hr : r.Served Q) {t : Ty} (ht : t.Known Q) :
    r'.applied t = r.applied t := by
  unfold Solution.applied
  rw [h.bindings, current_of_same h.same.tails]
  exact h.same.apply (hr.tails.current ht) _

theorem prepared (h : Twin Q r r') (c : Constraint) : r'.prepared c = r.prepared c := by
  unfold Solution.prepared
  rw [h.bindings, current_of_same h.same.tails, h.same.applications]

/-- An equation does the same to both, and fails in the same way. -/
theorem step (reg : Registry) (h : Twin Q r r') (hr : r.Served Q) (number number' : Nat)
    (hc : c.kind = .equality → c.left.Known Q ∧ c.right.Known Q) :
    Twin Q (step reg false r number c) (step reg false r' number' c) ∧
      r'.fault? reg false c = r.fault? reg false c := by
  by_cases hk : c.kind = .equality
  · obtain ⟨hleft, hright⟩ := hc hk
    have hstable := stable_known false Q r.attachments
    have hover := hr.attempt reg false hleft hright
    have hrun := run_attempt reg false r c
    have hrun' := run_attempt reg false r' c
    rw [h.applied hr hleft, h.applied hr hright] at hrun'
    have htwin := Unify.Run.alike (q := (_, _)) (kept_twinning reg Q) hstable hrun hrun' h.same rfl
      ⟨hr.serves, .of_sets rfl⟩ (hstable.apply _ _ _ ⟨hr.serves, .of_sets rfl⟩ (hr.tails.current hleft) hr.bindings)
      (hstable.apply _ _ _ ⟨hr.serves, .of_sets rfl⟩ (hr.tails.current hright) hr.bindings)
    cases hat : r.attempt reg false c with
    | mk d result done =>
      cases hat' : r'.attempt reg false c with
      | mk d' result' done' =>
        rw [hat, hat'] at htwin
        rw [hat] at hrun hover
        obtain ⟨hsame, hresult, hdone⟩ := htwin
        cases hdone
        have htails : d.AllTails Q (Label.Apart Q) (Label.Apart Q) := by
          unfold AllTails
          rw [show d.tails = r.attachments.tails from Unify.Run.tails hrun]
          exact hr.tails
        unfold fault?
        rw [hk, hat, hat']
        cases hresult with
        | error he =>
          cases he
          have hall := hsame.replay htails (r.prepared c ++ done) fun x hx =>
            (mem_append.1 hx).elim (hr.prepared c x) fun hx => (hover.done x hx).2
          rw [step_error hk hat, step_error hk hat', h.prepared, h.bindings]
          exact ⟨⟨hall, hall.currentAll _⟩, by simp only [current_of_same hall.tails]⟩
        | @ok q _ hq =>
          cases hq
          rw [step_ok hk hat, step_ok hk hat', h.prepared, h.bindings]
          simp only [extend_false, adoptIf_false, hsame.compose hr.bindings, hsame.applications]
          have hall := hsame.replay htails (r.prepared c ++ done ++
            d.applications q (r.bindings.map Prod.snd)) fun x hx =>
              (hover.applied hstable hr.bindings (hr.tails.current hleft) (hr.tails.current hright) x hx).2
          exact ⟨⟨hall, hall.currentAll _⟩, trivial⟩
  · rw [step_of_ne_equality reg false r number hk, step_of_ne_equality reg false r' number' hk]
    refine ⟨h, ?_⟩
    unfold fault?
    split <;> split <;> simp_all

/-- More equations do the same to both, and the same of them fail. -/
theorem steps (reg : Registry) (h : Twin Q r r') (hr : r.Served Q) (number number' : Nat) {cs : List Constraint}
    (hcs : ∀ c ∈ cs, c.kind = .equality → c.left.Known Q ∧ c.right.Known Q) :
    Twin Q (steps reg false r number cs) (steps reg false r' number' cs) ∧
      ∃ fs fs', (steps reg false r number cs).failures = r.failures ++ fs ∧
        (steps reg false r' number' cs).failures = r'.failures ++ fs' ∧
        fs'.map Failure.error = fs.map Failure.error ∧ ∀ f ∈ fs', number' ≤ f.number := by
  induction cs generalizing r r' number number' with
  | nil => exact ⟨h, [], [], by simp [steps], by simp [steps], rfl, by simp⟩
  | cons c cs ih =>
    obtain ⟨hc, hcs⟩ := forall_mem_cons.1 hcs
    obtain ⟨hstep, hfault⟩ := h.step reg hr number number' hc
    obtain ⟨htwin, fs, fs', hfs, hfs', herrors, hnumber⟩ :=
      ih hstep (hr.step number hc) (number + 1) (number' + 1) hcs
    refine ⟨htwin, ((r.fault? reg false c).map (Failure.mk number)).toList ++ fs,
      ((r'.fault? reg false c).map (Failure.mk number')).toList ++ fs', ?_, ?_, ?_, ?_⟩
    · rw [steps, hfs, failures_step, append_assoc]
    · rw [steps, hfs', failures_step, append_assoc]
    · rw [map_append, map_append, herrors, hfault]
      cases r.fault? reg false c <;> rfl
    · intro f hf
      rcases mem_append.1 hf with hf | hf
      · rw [Option.mem_toList, Option.map_eq_some_iff] at hf
        obtain ⟨e, -, rfl⟩ := hf
        exact Nat.le_refl _
      · exact Nat.le_of_succ_le (hnumber f hf)

end Twin

variable {e : UnifyError} {cs : List Constraint} {i : Nat}

/-- An equation that cannot be solved is one that unification fails for. -/
theorem attempt_of_fault? {keep : Bool} (h : r.fault? reg keep c = some e) :
    c.kind = .equality ∧ ∃ d e' done, r.attempt reg keep c = ⟨d, .error e', done⟩ := by
  unfold fault? at h
  split at h
  next hk hat => exact ⟨hk, _, _, _, hat⟩
  next => cases h

/-- What an equation adds to classes. -/
theorem grows_step (reg : Registry) (keep : Bool) (r : Solution) (number : Nat) (c : Constraint) :
    Grows (fun v => v ∈ (r.applied c.left).vars ∨ v ∈ (r.applied c.right).vars) r.attachments
      (step reg keep r number c).attachments := by
  have hgrows : Grows _ r.attachments (r.attempt reg keep c).attachments :=
    grows_unifyListing reg keep r.attachments (r.applied c.left) (r.applied c.right)
  rcases r.attempt_cases reg keep c with hk | ⟨hk, d, e, done, hat⟩ | ⟨hk, d, q, done, hat⟩
  · rw [step_of_ne_equality reg keep r number hk]
    exact .of_sets rfl
  · rw [hat] at hgrows
    rw [step_error hk hat]
    exact hgrows.trans (.of_sets (sets_replay _ _).1)
  · rw [hat] at hgrows
    rw [step_ok hk hat]
    exact hgrows.trans (.of_sets ((sets_replay _ _).1.trans (sets_extend ..)))

/-- To solve a list is to go on after its first equations. -/
theorem steps_eq_upTo {a : Attachments} (hi : i ≤ cs.length) : steps reg false (.start a) 0 cs =
      steps reg false (upTo reg false a cs i) i (cs.drop i) := by
  conv_lhs => rw [← take_append_drop i cs, steps_append, length_take, Nat.min_eq_left hi,
    Nat.zero_add]
  rfl

/-- To leave out an equation is to go on with what was found before it. -/
theorem steps_eraseIdx {a : Attachments} (hi : i ≤ cs.length) :
    steps reg false (.start a) 0 (cs.eraseIdx i) =
      steps reg false (upTo reg false a cs i) i (cs.drop (i + 1)) := by
  rw [eraseIdx_eq_take_drop_succ, steps_append, length_take, Nat.min_eq_left hi, Nat.zero_add]
  rfl

/-- After an equation that left all classes and tails as they were, solving goes on as before it. -/
theorem twin_of_fault {a : Attachments} (h : Constraint.Served Q a cs)
    (hc : cs[i]? = some c) {d : Attachments} {done : List Application}
    (hk : c.kind = .equality) (hat : (upTo reg false a cs i).attempt reg false c = ⟨d, .error e, done⟩)
    (hclasses : ∀ cell, (upTo reg false a cs (i + 1)).attachments.get cell =
      (upTo reg false a cs i).attachments.get cell)
    (htails : (upTo reg false a cs (i + 1)).attachments.tails = (upTo reg false a cs i).attachments.tails) :
    Twin Q (upTo reg false a cs i) (upTo reg false a cs (i + 1)) := by
  have hi : i ≤ cs.length := Nat.le_of_lt (List.getElem?_eq_some_iff.1 hc).1
  have hserved := served_upTo reg false h hi
  obtain ⟨hleft, hright⟩ := h.known c (mem_of_getElem? hc) hk
  have hsides := (hserved.attempt reg false hleft hright).attachments.2
  have hafter : upTo reg false a cs (i + 1) = _ := (upTo_succ hc).trans (step_error hk hat)
  have hsame : Same Q (upTo reg false a cs i).attachments (upTo reg false a cs (i + 1)).attachments := by
    refine ⟨⟨fun cell hcell => ?_, htails⟩, hclasses⟩
    rw [hafter, get?_of_sets (sets_replay _ _).1]
    rw [hat] at hsides
    exact hsides.frame cell hcell
  refine ⟨hsame, ?_⟩
  rw [← (tidy_of_served reg false h hi).currentAll_bindings, ← hsame.currentAll]
  show currentAll _ (upTo reg false a cs (i + 1)).subst = _
  rw [hafter]

end Solution

namespace Constraint

/-- Unification adds classes to variables of the two types only, and only such as one of them had.

An equation that fails binds nothing, and adds classes in this way; if no variable of its sides had one,
it adds none. If it leaves all classes and all tails as they were, the other equations are solved as if
it were not there, with the same bindings and the same failures. -/
theorem solve_eraseIdx (reg : Registry) :
    (∀ keep a t u, Grows (fun v => v ∈ t.vars ∨ v ∈ u.vars) a (unifyListing reg keep a t u).1.1) ∧
    ∀ (Q : Var → Prop) (a : Attachments) (cs : List Constraint), Served Q a cs →
      ∀ i, (solve reg a cs).Reports i → ∃ c, cs[i]? = some c ∧
        let before := Solution.upTo reg false a cs i
        let after := Solution.upTo reg false a cs (i + 1)
        let sides (v : Var) := v ∈ (before.applied c.left).vars ∨ v ∈ (before.applied c.right).vars
        after.subst = before.bindings ∧ Grows sides before.attachments after.attachments ∧
        ((∀ v, sides v → before.attachments.get v.cell = []) →
          ∀ cell, after.attachments.get cell = before.attachments.get cell) ∧
        ((∀ cell, after.attachments.get cell = before.attachments.get cell) →
          after.attachments.tails = before.attachments.tails →
          (solve reg a (cs.eraseIdx i)).subst = (solve reg a cs).subst ∧
          (solve reg a (cs.eraseIdx i)).failures.map Failure.error =
            ((solve reg a cs).failures.filter fun f => f.number ≠ i).map Failure.error) := by
  refine ⟨Unify.grows_unifyListing reg, fun Q a cs h i hi => ?_⟩
  obtain ⟨f, hf, rfl⟩ := hi
  rw [solve, solveWith_eq_upTo] at hf
  obtain ⟨hlt, c, hc, hfault⟩ := (Solution.mem_failures_upTo (Nat.le_refl _) f).1 hf
  obtain ⟨hk, d, e, done, hat⟩ := Solution.attempt_of_fault? hfault
  have hafter := (Solution.upTo_succ hc).trans (Solution.step_error hk hat)
  have hgrows := Solution.grows_step reg false (Solution.upTo reg false a cs f.number) f.number c
  rw [← Solution.upTo_succ hc] at hgrows
  refine ⟨c, hc, by rw [hafter], hgrows, fun hnil => hgrows.get_of_nil hnil, fun hclasses htails => ?_⟩
  have htwin := Solution.twin_of_fault h hc hk hat hclasses htails
  obtain ⟨hlast, fs, fs', hfs, hfs', herrors, hnumber⟩ := htwin.steps reg
    (Solution.served_upTo reg false h (Nat.le_of_lt hlt)) f.number (f.number + 1)
    fun c hc => h.known c (mem_of_mem_drop hc)
  simp only [solve, solveWith, Solution.settled, Solution.steps_eraseIdx (Nat.le_of_lt hlt),
    Solution.steps_eq_upTo (Nat.succ_le_of_lt hlt)]
  refine ⟨hlast.bindings.symm, ?_⟩
  have hbefore : ∀ g ∈ (Solution.upTo reg false a cs f.number).failures, g.number ≠ f.number :=
    fun g hg => Nat.ne_of_lt ((Solution.mem_failures_upTo (Nat.le_of_lt hlt) g).1 hg).1
  have hrest : ∀ g ∈ fs', g.number ≠ f.number :=
    fun g hg => Nat.ne_of_gt (hnumber g hg)
  have hkeep {gs : List Failure} (hgs : ∀ g ∈ gs, g.number ≠ f.number) :
      gs.filter (fun g => g.number ≠ f.number) = gs :=
    filter_eq_self.2 fun g hg => decide_eq_true (hgs g hg)
  rw [hfs, hfs', hafter, filter_append, filter_append, hkeep hbefore, hkeep hrest]
  simp [herrors]

/-- Two variables in pairs that are different, and one of them again. -/
def leavingEquations : List Constraint :=
  [.equal (.app "P" [.var ⟨"a", 0⟩, .const Ty.integer []])
      (.app "P" [.var ⟨"b", 1⟩, .const Ty.string []]),
    .equal (.var ⟨"a", 0⟩) (.const Ty.string [])]

/-- If `b` is a number, the first equation fails and makes `a` a number too. Then the second fails,
which is solved if the first is left out. -/
theorem classes_left :
    let first := unify Class.ofPrimitive numbered (.app "P" [.var ⟨"a", 0⟩, .const Ty.integer []])
      (.app "P" [.var ⟨"b", 1⟩, .const Ty.string []])
    (first.2.isOk = false ∧ numbered.get 0 = [] ∧ first.1.get 0 = [Class.num]) ∧
    (let r := solve Class.ofPrimitive numbered leavingEquations;
      r.failures.map Failure.number = [0, 1] ∧ Dict.keys r.subst = []) ∧
    (let r := solve Class.ofPrimitive numbered (leavingEquations.eraseIdx 0);
      r.failures.map Failure.number = [] ∧ Dict.keys r.subst = ["a"]) := by
  refine ⟨⟨by cbv, by cbv, by cbv⟩, ⟨by cbv, by cbv⟩, by cbv, by cbv⟩

/-- The variables `a` and `b` without classes. -/
def unclassed : Attachments := ⟨[], 2, []⟩

theorem served_unclassed : Served (fun v => v = ⟨"a", 0⟩ ∨ v = ⟨"b", 1⟩) unclassed leavingEquations := by
  refine .of_plain rfl ⟨?_, fun _ _ => rfl⟩ fun c hc => ?_
  · rintro v (rfl | rfl) <;> decide
  · have hplain (v : Var) (name : String) : (Ty.app "P" [.var v, .const name []]).Plain :=
      .con (by simp [Plain.var, plain_const])
    have hknown {v : Var} (hv : v = ⟨"a", 0⟩ ∨ v = ⟨"b", 1⟩) (name : String) :
        (Ty.app "P" [.var v, .const name []]).Known fun v => v = ⟨"a", 0⟩ ∨ v = ⟨"b", 1⟩ :=
      .con (by simp [Label.Apart, Label.none, Label.fixed])
        (forall_mem_cons.2 ⟨.var hv, by simp [known_const]⟩)
    simp only [leavingEquations, mem_cons, not_mem_nil, or_false] at hc
    rcases hc with rfl | rfl
    · exact ⟨⟨hplain .., hplain ..⟩, hknown (.inl rfl) _, hknown (.inr rfl) _⟩
    · exact ⟨⟨.var _, plain_const ..⟩, .var (.inl rfl), known_const ..⟩

/-- If `b` is no number, the first equation leaves nothing. -/
theorem solve_eraseIdx_unclassed : let r := solve Class.ofPrimitive unclassed leavingEquations
    r.Reports 0 ∧ (solve Class.ofPrimitive unclassed (leavingEquations.eraseIdx 0)).subst = r.subst ∧
      (solve Class.ofPrimitive unclassed (leavingEquations.eraseIdx 0)).failures.map Failure.error =
        (r.failures.filter fun f => f.number ≠ 0).map Failure.error := by
  intro r
  have hreports : r.Reports 0 := by
    have hnumbers : r.failures.map Failure.number = [0] := by cbv
    obtain ⟨f, hf, hnumber⟩ := mem_map.1 (hnumbers ▸ mem_cons_self)
    exact ⟨f, hf, hnumber⟩
  obtain ⟨c, hc, -, -, hnone, hrest⟩ :=
    (solve_eraseIdx Class.ofPrimitive).2 _ unclassed leavingEquations served_unclassed 0 hreports
  exact ⟨hreports, hrest (hnone fun _ _ => rfl) (by cbv)⟩

end Constraint

end ScriptTyping
