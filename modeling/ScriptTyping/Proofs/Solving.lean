import Mathlib
import ScriptTyping.Proofs.MostGeneral
import ScriptTyping.Proofs.Replay
import ScriptTyping.Solve

/-!
# Solving constraints

Equations are solved in order, and what one of them binds is applied to all that was bound before. So
an equation that was solved stays solved: its sides match under every later solution, since matching
types match under every valuation. An equation that fails binds nothing.

**Tails.** A failed equation leaves something behind after all: what was bound on the way is applied to
parts of its sides, and so to their tails. `Solution.Undisturbed` says that no tail is changed in this
way, beyond what the bindings do that are kept. Without failures, or without tails, it is so.

So every equation has failed or holds under the solution, and the failures are those of the equations
that could not be solved, in order.
-/

namespace ScriptTyping

open Ty Unify List Dict Subst ScriptTyping.Valuation Attachments Solution Course

variable {θ : Valuation} {B : List (Dict Ty)} {K : String → Prop} {a b : Attachments} {s : Subst}
  {t : Ty} {u : Ty} {f : Ty → Ty}

/-! ## Bringing bindings up to date -/

namespace Subst

theorem images_mapValues (hf : ∀ e ∈ s, (f e.2).shape = e.2.shape) : images (mapValues f s) = images s := by
  funext id
  simp only [images, fills, get?_mapValues]
  cases hget : Dict.get? s id with
  | none => rfl
  | some u => exact hf _ (mem_of_get?_eq_some hget)

theorem inst_images (σ : Valuation) (s : Subst) (id : String) : (s.images id).inst σ = (s.val id).inst σ := by
  cases hget : Dict.get? s id with
  | none =>
    have hid := get?_eq_none_iff.1 hget
    rw [images, fills_of_not_mem hid, val_of_not_mem hid]
  | some u =>
    rw [val_of_get? hget, inst_bare, images, fills_of_get? hget]
    exact inst_image σ free u

theorem val_of_images {r : Subst} (h : s.images = r.images) : s.val = r.val := by
  funext id
  rw [← bare_val s, ← bare_val r, bare, bare, ← inst_images, ← inst_images, h]

/-- An instance under bindings depends on the image only. -/
theorem inst_of_image (σ : Valuation) (h : t.image s.images = u.image s.images) :
    (t.inst fun id => (s.val id).inst σ) = u.inst fun id => (s.val id).inst σ := by
  have hinst := congrArg (inst σ) h
  rw [inst_image, inst_image] at hinst
  simpa only [inst_images] using hinst

end Subst

namespace Reached

/-- Bindings can be replaced by others of the same shape. -/
theorem of_shape (h : Reached θ B K a s) (hf : ∀ e ∈ s, (f e.2).shape = e.2.shape) :
    Reached θ B K a (mapValues f s) := by
  have hkeys : Dict.keys (mapValues f s) = Dict.keys s := keys_mapValues f s
  have himages := images_mapValues hf
  have hafter : θ.after (mapValues f s) = θ.after s := by
    funext id
    rw [Valuation.after, himages, Valuation.after]
  have htails : tailsAfter B (mapValues f s) = tailsAfter B s := by
    rw [tailsAfter, himages, tailsAfter]
  have hand : andKeys K (mapValues f s) = andKeys K s := by
    funext k
    rw [andKeys, hkeys, andKeys]
  refine ⟨h.binds, h.sorted.of_keys hkeys, by rw [hkeys]; exact h.keys, ?_, fun e he => ?_⟩
  · rw [hafter, htails]
    exact h.fit
  · obtain ⟨x, hx, rfl⟩ := mem_map.1 he
    have hclear := h.clear x hx
    have hids : ∀ id ∈ (f x.2).ids, ¬ andKeys K s id := by
      intro id hid
      refine hclear.ids id (mem_ids_shape.1 ?_)
      rw [← hf x hx]
      exact mem_ids_shape.2 hid
    have himage : (f x.2).image (θ.after s) = x.2.image (θ.after s) := by
      rw [(h.binds.after s).image_eq_shape hids, (h.binds.after s).image_eq_shape hclear.ids,
        hf x hx]
    rw [hafter, htails, hand]
    exact ⟨hids, himage ▸ hclear.coherent, fun n hn => hclear.settled n (himage ▸ hn)⟩

/-- What is bound has the shape now that it had. -/
theorem shape_current (h : Reached θ B K a s) {e : String × Ty} (he : e ∈ s) :
    (a.current e.2).shape = e.2.shape := by
  have hclear := h.clear e he
  have hids := h.fit.ids_current (own_of_ids hclear.ids) hclear.coherent hclear.settled
  rw [← (h.binds.after s).image_eq_shape hids, ← (h.binds.after s).image_eq_shape hclear.ids]
  exact h.fit.image_current hclear.coherent

theorem currentAll (h : Reached θ B K a s) :
    Reached θ B K a (a.currentAll s) ∧ images (a.currentAll s) = s.images := by
  unfold Attachments.currentAll
  split
  · exact ⟨h, rfl⟩
  · exact ⟨h.of_shape fun e he => h.shape_current he,
      images_mapValues fun e he => h.shape_current he⟩

theorem keys_currentAll (a : Attachments) (s : Subst) : Dict.keys (a.currentAll s) = Dict.keys s := by
  unfold Attachments.currentAll
  split
  · rfl
  · exact keys_mapValues _ s

/-- All that counts of the attachments are the tails. -/
theorem of_tails (h : Reached θ B K a s) (hb : b.tails = a.tails) : Reached θ B K b s where
  binds := h.binds
  sorted := h.sorted
  keys := h.keys
  fit := ⟨by rw [hb]; exact h.fit.tails, h.fit.coherent⟩
  clear e he := (h.clear e he).of_tails hb

end Reached

/-! ## Types of constraints -/

/-- The type has no gaps and shows each tail as it is at the start. -/
structure Ty.Fits (B : List (Dict Ty)) (t : Ty) : Prop where
  proper : t.Proper
  coherent : t.shape.Coherent B

namespace Ty.Fits

variable {l : Label} {name : String}

theorem var (v : Var) : (Ty.var v).Fits B := ⟨.var v, .var _⟩

theorem con {args : List Ty} (h : ∀ t ∈ args, t.Fits B) : (Ty.con name args l).Fits B := by
  refine ⟨.con fun t ht => (h t ht).proper, ?_⟩
  rw [Ty.shape, image_con]
  exact .con (forall_mem_map.2 fun u hu => (h u hu).coherent)

theorem of_plain (h : t.Plain) : t.Fits B := by
  induction h with
  | var v => exact var v
  | con _ ih => exact con ih

theorem record {fields : List (String × Ty)} (hs : Dict.Sorted fields) (h : ∀ f ∈ fields, f.2.Fits B)
    (hl : ∀ t, l.tail = some t → B[t.number]? = some (mapValues shape (fields.drop t.own))) :
    (Ty.record name fields l).Fits B := by
  refine ⟨.record hs fun f hf => (h f hf).proper, ?_⟩
  rw [Ty.shape, image_record]
  refine .record (fun g hg => ?_) fun t ht => ?_
  · obtain ⟨f, hf, rfl⟩ := mem_map.1 hg
    exact (h f hf).coherent
  · rw [mapValues, ← map_drop]
    exact hl t ht

end Ty.Fits

/-- At the start, no variable is bound. -/
abbrev Started (B : List (Dict Ty)) (a : Attachments) (s : Subst) : Prop :=
  Reached free B (fun _ => False) a s

namespace Reached

theorem after_free (s : Subst) : Valuation.after free s = s.images := by
  funext id
  rfl

/-- A type of a constraint waits for whatever is bound. -/
theorem waits_start (h : Started B a s) (ht : t.shape.Coherent B) :
    Clear (Valuation.after free s) (tailsAfter B s) (fun _ => False) a t :=
  h.waits ⟨fun _ _ h => h, ht, fun _ _ _ _ _ _ => own_of_ids fun _ _ h => h⟩

/-- A type of a constraint, as it is now, waits likewise, and has the same image. -/
theorem waits_current (h : Started B a s) (ht : t.shape.Coherent B) :
    Clear (Valuation.after free s) (tailsAfter B s) (fun _ => False) a (a.current t) ∧
      (a.current t).image s.images = t.image s.images := by
  have hwait := h.waits_start ht
  have himage := h.fit.image_current hwait.coherent
  exact ⟨⟨fun _ _ h => h, himage ▸ hwait.coherent, fun n hn => hwait.settled n (himage ▸ hn)⟩, himage⟩

theorem proper_images (hs : ∀ e ∈ s, e.2.Proper) (id : String) : (s.images id).Proper := by
  cases hget : Dict.get? s id with
  | none =>
    rw [images, fills_of_not_mem (get?_eq_none_iff.1 hget)]
    exact proper_free id
  | some u =>
    rw [images, fills_of_get? hget]
    exact (hs _ (mem_of_get?_eq_some hget)).fill fun id _ => proper_free id

theorem proper_current (h : Started B a s) (hs : ∀ e ∈ s, e.2.Proper) (ht : t.Fits B) :
    (a.current t).Proper := by
  have himage : ((a.current t).image s.images).Proper := by
    rw [(h.waits_current ht.coherent).2]
    exact ht.proper.fill fun id _ => proper_images hs id
  exact proper_of_fill himage

theorem proper_currentAll (h : Started B a s) (hs : ∀ e ∈ s, e.2.Proper) :
    ∀ e ∈ a.currentAll s, e.2.Proper := by
  unfold Attachments.currentAll
  split
  · exact hs
  · intro e he
    obtain ⟨x, hx, rfl⟩ := mem_map.1 he
    have hshape : (a.current x.2).shape.Proper := by
      rw [h.shape_current hx]
      exact (hs x hx).fill fun id _ => proper_free id
    exact proper_of_fill hshape

end Reached

/-- What the bindings put into a type is what the stage says of it. -/
theorem Reached.image_apply (h : Started B a s)
    (ht : Clear (Valuation.after free s) (tailsAfter B s) (fun _ => False) a t) :
    (Subst.apply a (a.currentAll s) (a.current t)).image (Valuation.after free s) =
      t.image (Valuation.after free s) := by
  obtain ⟨hnow, himages⟩ := h.currentAll
  have habs := hnow.absorbs
  rw [after_free, himages] at habs
  rw [after_free, Ty.image_apply habs]
  exact h.fit.image_current ht.coherent

/-- To apply the bindings to a type that waits for them puts them in, and leaves no bound variable. -/
theorem Reached.apply (h : Started B a s)
    (ht : Clear (Valuation.after free s) (tailsAfter B s) (fun _ => False) a t) :
    (a.apply s t).1.shape = t.image s.images ∧
      Clear (Valuation.after free s) (tailsAfter B s) (andKeys (fun _ => False) s) (a.revise s t)
        (a.apply s t).1 := by
  have hnow := h.currentAll.1
  have hsettled := settled_revise h.cleans (h.ready ht)
  have hfit := (h.of_rewrites (a.rewrites_revise t)).fit
  have himage := h.image_apply ht
  -- The type before its tails are read again.
  generalize hx : Subst.apply a (a.currentAll s) (a.current t) = x at himage
  have hids : ∀ id ∈ x.ids, ¬ andKeys (fun _ => False) s id := by
    have hall := hnow.ids_apply (t := a.current t) (fun _ _ hK => hK) a
    rw [hx] at hall
    intro id hid hK
    refine hall id hid (hK.imp_right fun hkey => ?_)
    rwa [keys_currentAll]
  have hlast := hfit.ids_current (own_of_ids hids) (himage ▸ ht.coherent)
    fun n hn => hsettled n (himage ▸ hn)
  have hcurrent : ((a.revise s t).current x).image (Valuation.after free s) =
      t.image (Valuation.after free s) :=
    (hfit.image_current (himage ▸ ht.coherent)).trans himage
  show ((a.revise s t).current (Subst.apply a (a.currentAll s) (a.current t))).shape = _ ∧
    Clear _ _ _ _ ((a.revise s t).current (Subst.apply a (a.currentAll s) (a.current t)))
  rw [hx]
  refine ⟨?_, hlast, hcurrent ▸ ht.coherent, fun n hn => hsettled n (hcurrent ▸ hn)⟩
  rw [← (h.binds.after s).image_eq_shape hlast, hcurrent]
  rfl

/-- To apply the bindings to a type is to take its instance under their valuation. -/
theorem Reached.bare_apply (h : Started B a s) (ht : t.shape.Coherent B) :
    (a.apply s t).1.bare = t.inst s.val := by
  rw [← bare_shape, (h.apply (h.waits_start ht)).1, bare, inst_image]
  exact inst_congr fun id _ => (inst_images free s id).trans (bare_val s id)

/-! ## What a step does -/

namespace Solution

variable {reg : Registry} {keep : Bool} {r : Solution} {c : Constraint} {number : Nat} {q : Subst}
  {e : UnifyError}

/-- The bindings as they are now. -/
def bindings (r : Solution) : Subst := r.attachments.currentAll r.subst

/-- A type as it is now, with the bindings put in. -/
def applied (r : Solution) (t : Ty) : Ty :=
  apply r.attachments r.bindings (r.attachments.current t)

/-- The course of the unification that an equation asks for. -/
def attempt (reg : Registry) (keep : Bool) (r : Solution) (c : Constraint) : Course Subst :=
  (unifyWithin reg keep r.attachments (r.applied c.left) (r.applied c.right)).forget

/-- What was applied to the sides of an equation before they were unified. -/
def prepared (r : Solution) (c : Constraint) : List Attachments.Application :=
  r.attachments.applications r.bindings [r.attachments.current c.left, r.attachments.current c.right]

theorem run_attempt (reg : Registry) (keep : Bool) (r : Solution) (c : Constraint) :
    Run reg keep r.attachments (r.applied c.left) (r.applied c.right) (r.attempt reg keep c) :=
  run_unifyWithin reg keep r.attachments _ _

theorem run_of_attempt {d : Course Subst} (h : r.attempt reg keep c = d) :
    Run reg keep r.attachments (r.applied c.left) (r.applied c.right) d :=
  h ▸ run_attempt reg keep r c

variable {d : Attachments} {done : List Attachments.Application}

/-- An equation that fails binds nothing. -/
theorem step_error (hk : c.kind = .equality) (h : r.attempt reg keep c = ⟨d, .error e, done⟩) :
    step reg keep r number c = ⟨d.replay (r.prepared c ++ done), r.bindings,
        r.failures ++ [⟨number, e.mapTypes (d.replay (r.prepared c ++ done)).current⟩]⟩ := by
  have hresult := congrArg result h
  have hattach := congrArg Course.attachments h
  have hdone := congrArg Course.done h
  simp only [attempt, forget] at hresult hattach hdone
  simp only [step, hk, unifyListing]
  simp only [bindings, applied, prepared] at *
  rw [hresult, hattach, hdone]

/-- What an equation binds is composed with what was bound before. -/
theorem step_ok (hk : c.kind = .equality) (h : r.attempt reg keep c = ⟨d, .ok q, done⟩) :
    step reg keep r number c = ⟨(d.extend keep q r.bindings).2.replay
          (r.prepared c ++ done ++ d.applications (d.adoptIf keep q).1 (r.bindings.map Prod.snd)),
        (d.extend keep q r.bindings).1, r.failures⟩ := by
  have hresult := congrArg result h
  have hattach := congrArg Course.attachments h
  have hdone := congrArg Course.done h
  simp only [attempt, forget] at hresult hattach hdone
  simp only [step, hk, unifyListing]
  simp only [bindings, applied, prepared] at *
  rw [hresult, hattach, hdone]

/-- A constraint is no equation, or its sides are unified and that fails or not. -/
theorem attempt_cases (reg : Registry) (keep : Bool) (r : Solution) (c : Constraint) : c.kind ≠ .equality ∨
    (c.kind = .equality ∧ ∃ d e done, r.attempt reg keep c = ⟨d, .error e, done⟩) ∨
      c.kind = .equality ∧ ∃ d q done, r.attempt reg keep c = ⟨d, .ok q, done⟩ := by
  by_cases hk : c.kind = .equality
  · cases hat : r.attempt reg keep c with
    | mk d result done =>
      cases result with
      | error e => exact .inr (.inl ⟨hk, d, e, done, rfl⟩)
      | ok q => exact .inr (.inr ⟨hk, d, q, done, rfl⟩)
  · exact .inl hk

/-! ## Soundness of a step -/

/-- The bindings were found and applied as they should, and are proper. -/
structure Sound (B : List (Dict Ty)) (r : Solution) : Prop where
  started : Started B r.attachments r.subst
  proper : ∀ e ∈ r.subst, e.2.Proper

namespace Sound

theorem bindings (h : Sound B r) : Started B r.attachments r.bindings ∧
    (∀ e ∈ r.bindings, e.2.Proper) ∧ images r.bindings = r.subst.images :=
  ⟨h.started.currentAll.1, h.started.proper_currentAll h.proper, h.started.currentAll.2⟩

/-- The type with the bindings put in. -/
theorem applied (h : Sound B r) (ht : t.Fits B) : (r.applied t).Proper :=
  proper_apply h.bindings.2.1 (h.started.proper_current h.proper ht)

theorem inst_applied (h : Sound B r) (ht : t.Fits B) (σ : Valuation) :
    (r.applied t).inst σ = t.inst fun id => (r.bindings.val id).inst σ := by
  obtain ⟨-, -, himages⟩ := h.bindings
  rw [Solution.applied, Subst.inst_apply]
  refine inst_of_image σ ?_
  rw [himages]
  exact (h.started.waits_current ht.coherent).2

theorem waits (h : Sound B r) (ht : t.Fits B) :
    Clear (Valuation.after free r.bindings) (tailsAfter B r.bindings) (fun _ => False) r.attachments
      (r.attachments.current t) := by
  obtain ⟨hstart, -, himages⟩ := h.bindings
  obtain ⟨-, hco, -⟩ := hstart.waits_start ht.coherent
  refine ⟨fun _ _ h => h, ?_, fun _ _ _ _ _ _ => own_of_ids fun _ _ h => h⟩
  rw [Reached.after_free, himages] at hco ⊢
  rwa [(h.started.waits_current ht.coherent).2]

/-- What is bound by an equation is found and applied as it should. -/
theorem started_ok (h : Sound B r) (hl : c.left.Fits B) (hr : c.right.Fits B) {w : Attachments}
    (hat : r.attempt reg keep c = ⟨d, .ok q, done⟩) (hw : w.tails = d.tails) :
    Started B (w.replay (r.prepared c ++ done ++ d.applications (d.adoptIf keep q).1 (r.bindings.map Prod.snd)))
      (d.extend keep q r.bindings).1 := by
  have hrun := run_of_attempt hat
  have htails : w.tails = r.attachments.tails := hw.trans (Run.tails hrun)
  have hempty : r.attachments.tails.isEmpty = w.tails.isEmpty := by rw [htails]
  have hstart := h.bindings.1.of_tails htails
  have hwl := (h.waits hl).of_tails htails
  have hwr := (h.waits hr).of_tails htails
  obtain ⟨hboth, hcx, hcy⟩ := reached_pair hstart hwl hwr hempty
  have hfound := hrun.reached hboth.fit (hstart.binds.after _) hcx hcy
    (hempty.trans (isEmpty_of_length (w.length_replay _)).symm) rfl
  exact reached_step hstart hwl hwr hempty hrun hfound

/-- An equation that is solved holds, and what was solved before still does. -/
theorem step_ok (h : Sound B r) (number : Nat) (hl : c.left.Fits B) (hr : c.right.Fits B)
    (hk : c.kind = .equality) (hat : r.attempt reg keep c = ⟨d, .ok q, done⟩) :
    Sound B (step reg keep r number c) ∧ (∃ ρ : Valuation, ρ.Proper ∧
        ∀ id, (step reg keep r number c).subst.val id = (r.subst.val id).inst ρ) ∧
      Matches (c.left.inst (step reg keep r number c).subst.val)
        (c.right.inst (step reg keep r number c).subst.val) := by
  obtain ⟨hstart, hproper, himages⟩ := h.bindings
  have hrun := run_of_attempt hat
  obtain ⟨hgood, hmatch⟩ := hrun.sound (h.applied hl) (h.applied hr) rfl
  rw [Solution.step_ok hk hat]
  have hval (id : String) :
      (d.extend keep q r.bindings).1.val id = (r.bindings.val id).inst q.val :=
    val_extend hstart.sorted id
  refine ⟨⟨?_, ?_⟩, ⟨q.val, proper_val hgood.proper, fun id => ?_⟩, ?_⟩
  · exact h.started_ok hl hr hat (tails_extend ..)
  · exact (stable_proper.next trivial hproper hgood.proper).2.1
  · rw [hval, val_of_images himages]
  · rw [h.inst_applied hl, h.inst_applied hr] at hmatch
    rwa [inst_congr fun id _ => hval id, inst_congr (t := c.right) fun id _ => hval id]

/-- An equation that fails leaves the bindings as they were, if it leaves the tails so. -/
theorem step_error (h : Sound B r) (hl : c.left.Fits B) (hr : c.right.Fits B) (hk : c.kind = .equality)
    (hat : r.attempt reg keep c = ⟨d, .error e, done⟩) (htails : (step reg keep r number c).attachments.tails.map
        (mapValues (image r.subst.images)) =
      r.attachments.tails.map (mapValues (image r.subst.images))) : Sound B (step reg keep r number c) ∧
      (step reg keep r number c).subst.val = r.subst.val := by
  obtain ⟨hstart, hproper, himages⟩ := h.bindings
  have hrun := run_of_attempt hat
  rw [Solution.step_error hk hat] at htails ⊢
  obtain ⟨-, hcx, hcy⟩ := reached_pair hstart (h.waits hl) (h.waits hr) rfl
  have hover := Run.over (stable_ids _) hrun trivial hcx.ids hcy.ids
  refine ⟨⟨?_, hproper⟩, val_of_images himages⟩
  refine ⟨hstart.binds, hstart.sorted, hstart.keys, ⟨?_, hstart.fit.coherent⟩, fun x hx => ?_⟩
  · rw [Reached.after_free, himages, htails, ← himages, ← Reached.after_free]
    exact hstart.fit.tails
  · refine ((hstart.clear x hx).of_tails (Run.tails hrun)).replay fun y hy => ?_
    rcases mem_append.1 hy with hy | hy
    · rw [(mem_applications hy).1]
      exact fun z hz => (hstart.clear z hz).ids
    · exact (hover.done y hy).2

end Sound

end Solution

/-! ## Runs -/

namespace Solution

variable {reg : Registry} {keep : Bool} {cs : List Constraint} {c : Constraint} {r : Solution}

/-- Why an equation cannot be solved after what was found, if it cannot. -/
def fault? (reg : Registry) (keep : Bool) (r : Solution) (c : Constraint) : Option UnifyError :=
  match c.kind, r.attempt reg keep c with
  | .equality, ⟨d, .error e, done⟩ => some (e.mapTypes (d.replay (r.prepared c ++ done)).current)
  | _, _ => none

theorem failures_step (r : Solution) (number : Nat) (c : Constraint) : (step reg keep r number c).failures =
      r.failures ++ ((r.fault? reg keep c).map (Failure.mk number)).toList := by
  rcases r.attempt_cases reg keep c with hk | ⟨hk, d, e, done, hat⟩ | ⟨hk, d, q, done, hat⟩
  · simp [fault?, hk, step_of_ne_equality reg keep r number hk]
  · simp [fault?, hk, hat, step_error hk hat]
  · simp [fault?, hk, hat, step_ok hk hat]

/-- What was found after the first of some constraints. -/
def upTo (reg : Registry) (keep : Bool) (a : Attachments) (cs : List Constraint) (i : Nat) : Solution :=
  steps reg keep (.start a) 0 (cs.take i)

variable {i : Nat}

theorem upTo_succ (h : cs[i]? = some c) :
    upTo reg keep a cs (i + 1) = step reg keep (upTo reg keep a cs i) i c := by
  have hlt : i < cs.length := (List.getElem?_eq_some_iff.1 h).1
  have hlen : (cs.take i).length = i := by rw [length_take]; omega
  rw [upTo, take_add_one, h, steps_append, hlen, Nat.zero_add]
  rfl

/-- What is so at the start and stays so in each step is so of every part of a run. -/
theorem upTo_induction {P : Nat → Solution → Prop} (hstart : P 0 (.start a))
    (hstep : ∀ i c, cs[i]? = some c → P i (upTo reg keep a cs i) →
      P (i + 1) (step reg keep (upTo reg keep a cs i) i c)) (hi : i ≤ cs.length) :
    P i (upTo reg keep a cs i) := by
  induction i with
  | zero => exact hstart
  | succ i ih =>
    have hc : cs[i]? = some cs[i] := getElem?_eq_getElem hi
    rw [upTo_succ hc]
    exact hstep i _ hc (ih (Nat.le_of_succ_le hi))

/-- The failures are those of the equations that cannot be solved. -/
theorem mem_failures_upTo (hi : i ≤ cs.length) (f : Failure) :
    f ∈ (upTo reg keep a cs i).failures ↔ f.number < i ∧
      ∃ c, cs[f.number]? = some c ∧
        (upTo reg keep a cs f.number).fault? reg keep c = some f.error := by
  refine upTo_induction (P := fun i r => f ∈ r.failures ↔ f.number < i ∧ ∃ c, cs[f.number]? = some c ∧
    (upTo reg keep a cs f.number).fault? reg keep c = some f.error) (by simp [start]) (fun i c hc ih => ?_) hi
  rw [failures_step, mem_append, ih, Option.mem_toList, Option.map_eq_some_iff]
  constructor
  · rintro (⟨hlt, h⟩ | ⟨e, he, rfl⟩)
    · exact ⟨by omega, h⟩
    · exact ⟨Nat.lt_succ_self i, c, hc, he⟩
  · rintro ⟨hlt, c', hc', he⟩
    by_cases heq : f.number = i
    · rw [heq, hc] at hc'
      cases hc'
      rw [heq] at he
      exact .inr ⟨f.error, he, by rw [← heq]⟩
    · exact .inl ⟨by omega, c', hc', he⟩

/-- The failures are in the order of the equations, one for each. -/
theorem pairwise_failures_upTo (hi : i ≤ cs.length) :
    ((upTo reg keep a cs i).failures.map Failure.number).Pairwise (· < ·) := by
  refine upTo_induction (P := fun _ r => (r.failures.map Failure.number).Pairwise (· < ·)) (by simp [start])
    (fun i c hc ih => ?_) hi
  have hlt : i < cs.length := (List.getElem?_eq_some_iff.1 hc).1
  rw [failures_step, map_append, pairwise_append]
  refine ⟨ih, ?_, ?_⟩
  · cases fault? reg keep (upTo reg keep a cs i) c <;> simp
  · intro m hm n hn
    obtain ⟨f, hf, rfl⟩ := mem_map.1 hm
    obtain ⟨g, hg, rfl⟩ := mem_map.1 hn
    rw [Option.mem_toList, Option.map_eq_some_iff] at hg
    obtain ⟨e, -, rfl⟩ := hg
    exact ((mem_failures_upTo hlt.le f).1 hf).1

/-- An equation that fails changes no tail, beyond what the bindings do that were found before. -/
def Undisturbed (reg : Registry) (keep : Bool) (a : Attachments) (cs : List Constraint) : Prop :=
  ∀ i c, cs[i]? = some c → (upTo reg keep a cs i).fault? reg keep c ≠ none →
    (upTo reg keep a cs (i + 1)).attachments.tails.map
        (mapValues (image (upTo reg keep a cs i).subst.images)) =
      (upTo reg keep a cs i).attachments.tails.map
        (mapValues (image (upTo reg keep a cs i).subst.images))

/-- The equation of some number has failed. -/
def Reports (r : Solution) (number : Nat) : Prop := ∃ f ∈ r.failures, f.number = number

/-- The sides of an equation match under what was found. -/
def Satisfies (r : Solution) (c : Constraint) : Prop :=
  Matches (r.attachments.apply r.subst c.left).1 (r.attachments.apply r.subst c.right).1

/-- The equation has failed, or the instances of its sides match. -/
def Accounted (r : Solution) (number : Nat) (c : Constraint) : Prop :=
  r.Reports number ∨ Matches (c.left.inst r.subst.val) (c.right.inst r.subst.val)

theorem Accounted.mono {r' : Solution} (h : r.Accounted i c) (hfail : ∀ f ∈ r.failures, f ∈ r'.failures)
    {ρ : Valuation} (hρ : ρ.Proper) (hval : ∀ id, r'.subst.val id = (r.subst.val id).inst ρ) :
    r'.Accounted i c := by
  rcases h with ⟨f, hf, hi⟩ | h
  · exact .inl ⟨f, hfail f hf, hi⟩
  · have hinst (t : Ty) : t.inst r'.subst.val = (t.inst r.subst.val).inst ρ := by
      rw [inst_inst]
      exact inst_congr fun id _ => hval id
    refine .inr ?_
    rw [hinst, hinst]
    exact h.inst hρ

/-- A step keeps what was found, and accounts for its equation. -/
theorem Sound.step (h : Sound B r) (number : Nat) (hc : c.kind = .equality → c.left.Fits B ∧ c.right.Fits B)
    (htails : r.fault? reg keep c ≠ none →
      (step reg keep r number c).attachments.tails.map (mapValues (image r.subst.images)) =
        r.attachments.tails.map (mapValues (image r.subst.images))) : Sound B (step reg keep r number c) ∧
      (∃ ρ : Valuation, ρ.Proper ∧ ∀ id, (step reg keep r number c).subst.val id = (r.subst.val id).inst ρ) ∧
      (c.kind = .equality → (step reg keep r number c).Accounted number c) := by
  rcases r.attempt_cases reg keep c with hk | ⟨hk, d, e, done, hat⟩ | ⟨hk, d, q, done, hat⟩
  · rw [step_of_ne_equality reg keep r number hk]
    exact ⟨h, ⟨free, proper_free, fun id => (bare_val r.subst id).symm⟩, fun h => absurd h hk⟩
  · have hfault : r.fault? reg keep c = some (e.mapTypes (d.replay (r.prepared c ++ done)).current) := by
      simp only [fault?, hk, hat]
    obtain ⟨hsound, hval⟩ := h.step_error (hc hk).1 (hc hk).2 hk hat (htails (by simp [hfault]))
    refine ⟨hsound, ⟨free, proper_free, fun id => ?_⟩, fun _ => .inl ?_⟩
    · rw [hval]
      exact (bare_val r.subst id).symm
    · rw [Reports, failures_step, hfault]
      exact ⟨_, mem_append_right _ (mem_singleton.2 rfl), rfl⟩
  · obtain ⟨hsound, hlater, hmatch⟩ := h.step_ok number (hc hk).1 (hc hk).2 hk hat
    exact ⟨hsound, hlater, fun _ => .inr hmatch⟩

theorem failures_subset_step (r : Solution) (number : Nat) (c : Constraint) :
    ∀ f ∈ r.failures, f ∈ (step reg keep r number c).failures := by
  intro f hf
  rw [failures_step]
  exact mem_append_left _ hf

/-- A run is sound, and accounts for all its equations. -/
theorem sound_upTo (hfit : a.Fit free B) (hcs : ∀ c ∈ cs, c.kind = .equality → c.left.Fits B ∧ c.right.Fits B)
    (hu : Undisturbed reg keep a cs) (hi : i ≤ cs.length) : Sound B (upTo reg keep a cs i) ∧
      ∀ j c, j < i → cs[j]? = some c → c.kind = .equality → (upTo reg keep a cs i).Accounted j c := by
  refine upTo_induction (P := fun i r => Sound B r ∧ ∀ j c, j < i → cs[j]? = some c → c.kind = .equality →
    r.Accounted j c) ⟨⟨Reached.nil hfit ⟨fun _ _ => rfl, fun _ => rfl⟩, by simp [start]⟩, by simp⟩
    (fun i c hc ⟨hsound, hall⟩ => ?_) hi
  have htails := hu i c hc
  rw [upTo_succ hc] at htails
  obtain ⟨hnext, ⟨ρ, hρ, hval⟩, hthis⟩ := hsound.step i (hcs c (mem_of_getElem? hc)) htails
  refine ⟨hnext, fun j d hj hd hk => ?_⟩
  by_cases heq : j = i
  · rw [heq, hc] at hd
    cases hd
    exact heq ▸ hthis hk
  · exact (hall j d (by omega) hd hk).mono (failures_subset_step _ _ _) hρ hval

/-- Where no equation fails, none changes a tail by failing. -/
theorem undisturbed_of_failures (h : (upTo reg keep a cs cs.length).failures = []) :
    Undisturbed reg keep a cs := by
  intro i c hc hfault
  have hlt : i < cs.length := (List.getElem?_eq_some_iff.1 hc).1
  obtain ⟨e, he⟩ := Option.ne_none_iff_exists'.1 hfault
  have hmem := (mem_failures_upTo (Nat.le_refl _) ⟨i, e⟩).2 ⟨hlt, c, hc, he⟩
  rw [h] at hmem
  cases hmem

/-- What is bound has no records. -/
def Plain (r : Solution) : Prop := ∀ e ∈ r.subst, e.2.Plain

theorem Plain.bindings (h : r.Plain) : r.bindings = r.subst :=
  r.attachments.currentAll_of_tailless fun e he => (h e he).tailless

theorem Plain.settled (h : r.Plain) : r.settled = r := by
  rw [Solution.settled, show r.attachments.currentAll r.subst = r.subst from h.bindings]

theorem Plain.applied (h : r.Plain) (ht : t.Plain) : r.applied t = Subst.apply r.attachments r.subst t := by
  rw [Solution.applied, r.attachments.current_of_tailless ht.tailless, h.bindings]

theorem Plain.plain_applied (h : r.Plain) (ht : t.Plain) : (r.applied t).Plain := by
  rw [h.applied ht]
  exact plain_apply h ht

/-- What is bound has no records if the equations have none. -/
theorem Plain.step {number : Nat} (h : r.Plain) (hc : c.kind = .equality → c.left.Plain ∧ c.right.Plain) :
    (step reg keep r number c).Plain := by
  rcases r.attempt_cases reg keep c with hk | ⟨hk, d, e, done, hat⟩ | ⟨hk, d, q, done, hat⟩
  · rwa [step_of_ne_equality reg keep r number hk]
  · rw [step_error hk hat, h.bindings]
    exact h
  · obtain ⟨hl, hr⟩ := hc hk
    have hfound :=
      (Run.over stable_plain (run_of_attempt hat) trivial (h.plain_applied hl) (h.plain_applied hr)).found q rfl
    rw [step_ok hk hat, h.bindings]
    exact (stable_plain.next trivial h hfound).2.1

theorem plain_upTo (reg : Registry) (keep : Bool) (a : Attachments)
    (hcs : ∀ c ∈ cs, c.kind = .equality → c.left.Plain ∧ c.right.Plain)
    (hi : i ≤ cs.length) : (upTo reg keep a cs i).Plain :=
  upTo_induction (P := fun _ => Plain) (by simp [start, Plain])
    (fun _ c hc h => h.step (hcs c (mem_of_getElem? hc))) hi

/-- Where there are no records, an equation is satisfied if its sides are equal. -/
theorem satisfies_iff_equal (hs : r.Plain) (hl : c.left.Plain) (hr : c.right.Plain) : r.Satisfies c ↔
      (r.attachments.apply r.subst c.left).1.equal (r.attachments.apply r.subst c.right).1 := by
  have hplain {t : Ty} (ht : t.Plain) : (r.attachments.apply r.subst t).1.Plain := by
    rw [r.attachments.apply_of_tailless (fun e he => (hs e he).tailless) ht.tailless]
    exact plain_apply hs ht
  exact Matches.iff_equal (hplain hl) (hplain hr)

end Solution

namespace Constraint

variable {reg : Registry} {keep : Bool} {cs : List Constraint}

theorem solveWith_eq_upTo : solveWith reg keep a cs = (upTo reg keep a cs cs.length).settled := by
  rw [upTo, take_length]
  rfl

/-- Every equation has failed or holds under the solution, and then its sides are equal if there are
no records. The failures are those of the equations that cannot be solved after the ones before them,
in order. -/
theorem solveWith_accounts (reg : Registry) (keep : Bool) (a : Attachments) (cs : List Constraint)
    (ha : a.Coherent)
    (hcs : ∀ c ∈ cs, c.kind = .equality → c.left.Fits a.tailShapes ∧ c.right.Fits a.tailShapes)
    (hu : Solution.Undisturbed reg keep a cs) : (∀ i c, cs[i]? = some c → c.kind = .equality →
      (solveWith reg keep a cs).Reports i ∨ (solveWith reg keep a cs).Satisfies c) ∧
    ((∀ c ∈ cs, c.kind = .equality → c.left.Plain ∧ c.right.Plain) →
      ∀ c ∈ cs, c.kind = .equality → ((solveWith reg keep a cs).Satisfies c ↔
        ((solveWith reg keep a cs).attachments.apply (solveWith reg keep a cs).subst c.left).1.equal
          ((solveWith reg keep a cs).attachments.apply (solveWith reg keep a cs).subst c.right).1)) ∧
    ((solveWith reg keep a cs).failures.map Failure.number).Pairwise (· < ·) ∧
    ∀ f, f ∈ (solveWith reg keep a cs).failures ↔ ∃ c, cs[f.number]? = some c ∧
      (Solution.upTo reg keep a cs f.number).fault? reg keep c = some f.error := by
  have hall : cs.length ≤ cs.length := Nat.le_refl _
  obtain ⟨hsound, haccounted⟩ := Solution.sound_upTo ha.fit hcs hu hall
  rw [solveWith_eq_upTo]
  refine ⟨fun i c hc hk => ?_, fun hplain c hc hk => ?_, ?_, fun f => ?_⟩
  · have hlt : i < cs.length := (List.getElem?_eq_some_iff.1 hc).1
    obtain ⟨hl, hr⟩ := hcs c (mem_of_getElem? hc) hk
    refine (haccounted i c hlt hc hk).imp_right fun hmatch => ?_
    obtain ⟨hstart, -, himages⟩ := hsound.bindings
    rw [← Subst.val_of_images himages] at hmatch
    exact hmatch.of_bare (hstart.bare_apply hl.coherent) (hstart.bare_apply hr.coherent)
  · have hs := Solution.plain_upTo reg keep a hplain hall
    rw [hs.settled]
    exact Solution.satisfies_iff_equal hs (hplain c hc hk).1 (hplain c hc hk).2
  · exact Solution.pairwise_failures_upTo hall
  · refine (Solution.mem_failures_upTo hall f).trans (and_iff_right_of_imp ?_)
    rintro ⟨c, hc, -⟩
    exact (List.getElem?_eq_some_iff.1 hc).1

/-- A record with one field, which is in a tail. -/
def tailedBox : Ty := .record "Box" [("x", .var ⟨"a", 0⟩)] ⟨[], none, some ⟨0, 0⟩⟩

/-- A record with one field and no tail. -/
def untailedBox (t : Ty) : Ty := .record "Box" [("x", t)] .none

/-- The tail of `tailedBox`. -/
def boxTail : Attachments := ⟨[], 1, [[("x", .var ⟨"a", 0⟩)]]⟩

theorem coherent_boxTail : boxTail.Coherent := by
  intro d hd f hf
  obtain rfl : d = [("x", Ty.free "a")] := mem_singleton.1 hd
  obtain rfl : f = ("x", Ty.free "a") := mem_singleton.1 hf
  exact .var _

theorem fits_untailedBox (h : t.Fits B) : (untailedBox t).Fits B :=
  .record (sorted_singleton _ _) (by simpa using h) fun _ ht => by cases ht

theorem fits_tailedBox : tailedBox.Fits boxTail.tailShapes := by
  refine .record (sorted_singleton _ _) (by simpa using .var _) ?_
  rintro t ⟨⟩
  rfl

theorem of_matches_untailedBox (h : Matches (untailedBox t) (untailedBox u)) : Matches t u := by
  generalize hx : untailedBox t = x at h
  generalize hy : untailedBox u = y at h
  cases h with
  | record _ h =>
    cases hx
    cases hy
    exact h _ mem_cons_self t rfl
  | anonymousRight => exact absurd (Ty.record.inj hy).1 (by decide)
  | anonymousLeft => exact absurd (Ty.record.inj hx).1 (by decide)
  | _ => contradiction

/-- The second of these equations fails. -/
def boxEquations : List Constraint :=
  [.equal tailedBox (untailedBox (.app "B" [])), .equal (.app "B" []) (.app "C" [])]

theorem solveWith_accounts_box :
    (solveWith (fun _ => []) false boxTail boxEquations).failures.map Failure.number = [1] ∧
      (solveWith (fun _ => []) false boxTail boxEquations).Satisfies
        (.equal tailedBox (untailedBox (.app "B" []))) := by
  have hfail : (solveWith (fun _ => []) false boxTail boxEquations).failures.map Failure.number =
      [1] := by cbv
  have hcs : ∀ c ∈ boxEquations, c.kind = .equality →
      c.left.Fits boxTail.tailShapes ∧ c.right.Fits boxTail.tailShapes := by
    have hnone (name : String) : (Ty.app name []).Fits boxTail.tailShapes := .con (by simp)
    intro c hc _
    rcases mem_cons.1 hc with rfl | hc
    · exact ⟨fits_tailedBox, fits_untailedBox (hnone "B")⟩
    · obtain rfl := mem_singleton.1 hc
      exact ⟨hnone "B", hnone "C"⟩
  have hu : Solution.Undisturbed (fun _ => []) false boxTail boxEquations := by
    intro i c hc hfault
    cases i with
    | zero =>
      cases hc
      exact absurd (by cbv) hfault
    | succ i =>
      cases i with
      | zero =>
        cases hc
        cbv
      | succ i => cases hc
  obtain ⟨hall, -⟩ := solveWith_accounts _ _ _ _ coherent_boxTail hcs hu
  refine ⟨hfail, (hall 0 _ rfl rfl).resolve_left ?_⟩
  rintro ⟨f, hf, hzero⟩
  have hmem := mem_map_of_mem (f := Failure.number) hf
  rw [hfail, hzero] at hmem
  simp at hmem

/-- The first of these equations is solved, and the second fails after `a` was bound. -/
def disturbingEquations : List Constraint :=
  [.equal tailedBox (untailedBox (.var ⟨"a", 0⟩)),
    .equal (.app "P" [.var ⟨"a", 0⟩, tailedBox]) (.app "P" [.app "B" [], .app "B" []])]

/-- An equation that was solved need not hold in the end, if one that fails changes a tail. -/
theorem not_satisfies_disturbed :
    (solveWith (fun _ => []) false boxTail disturbingEquations).failures.map Failure.number = [1] ∧
      ¬ (solveWith (fun _ => []) false boxTail disturbingEquations).Satisfies
        (.equal tailedBox (untailedBox (.var ⟨"a", 0⟩))) := by
  refine ⟨by cbv, fun h => ?_⟩
  have hl : ((solveWith (fun _ => []) false boxTail disturbingEquations).attachments.apply
      (solveWith (fun _ => []) false boxTail disturbingEquations).subst tailedBox).1.equal
        (untailedBox (.app "B" [])) = true := by cbv
  have hr : ((solveWith (fun _ => []) false boxTail disturbingEquations).attachments.apply
      (solveWith (fun _ => []) false boxTail disturbingEquations).subst
        (untailedBox (.var ⟨"a", 0⟩))).1.equal (untailedBox (.var ⟨"a", 0⟩)) = true := by cbv
  rw [Solution.Satisfies, ← Matches.bare_iff] at h
  rw [Constraint.equal, equal_iff.1 hl, equal_iff.1 hr, Matches.bare_iff] at h
  cases of_matches_untailedBox h

end Constraint

end ScriptTyping
