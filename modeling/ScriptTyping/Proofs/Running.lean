import ScriptTyping.Check.Infer
import ScriptTyping.Proofs.Solving

/-!
# Runs of inference

`Ran x σ r σ'` says that a computation of inference, started in `σ`, gives `r` and leaves `σ'`. The
lemmas `ran_` take a run apart, one for each way in which computations are built, so that no other
proof has to look into the monad.

A state is `Sound` if all of its types show the tails of records as they are. A run only adds
constraints and tails, so what was sound stays so: the state is `Later`. A scheme that is used in many
ways has no records, so that its uses share no tail.

`Gives` says what every run of a computation comes to, and `Finds` that the scope stays as it is. There is
a rule for each way in which computations are built, so that a proof follows the text of the program.
-/

namespace ScriptTyping

open List Dict Attachments

variable {a : Attachments} {e : CheckError} {classes : ClassSet} {σ σ' : Inference} {B B' : List (Dict Ty)}
  {entries : List (String × Ty)} {args : List Ty} {n slot : Nat} {s : Scheme} {c name : String} {u : Supply}
  {t : Ty}

namespace Infer

variable {α β : Type} {σ σ' τ : Inference} {r : PUnit} {x : Infer α} {f : α → Infer β}

/-! ## Runs -/

/-- From a state, the computation comes to a result and another state. -/
def Ran (x : Infer α) (σ : Inference) (r : α) (σ' : Inference) : Prop := x.run.run σ = (.ok r, σ')

theorem ran_pure {a r : α} : Ran (pure a) σ r σ' ↔ r = a ∧ σ' = σ := by
  constructor
  · rintro ⟨⟩
    exact ⟨rfl, rfl⟩
  · rintro ⟨rfl, rfl⟩
    rfl

theorem ran_throw {r : α} : ¬ Ran (throw e) σ r σ' := by
  rintro ⟨⟩

theorem ran_bind {r : β} : Ran (x >>= f) σ r σ' ↔ ∃ a τ, Ran x σ a τ ∧ Ran (f a) τ r σ' := by
  unfold Ran
  rw [ExceptT.run_bind, StateT.run_bind]
  cases hx : x.run.run σ with
  | mk result τ =>
    cases result with
    | error e =>
      constructor
      · rintro ⟨⟩
      · rintro ⟨a, τ', ⟨⟩, -⟩
    | ok a =>
      constructor
      · intro h
        exact ⟨a, τ, rfl, h⟩
      · rintro ⟨_, _, ⟨⟩, h⟩
        exact h

theorem ran_map {f : α → β} {r : β} : Ran (f <$> x) σ r σ' ↔ ∃ a, Ran x σ a σ' ∧ r = f a := by
  rw [map_eq_pure_bind, ran_bind]
  simp only [ran_pure]
  grind

theorem ran_get {r : Inference} : Ran get σ r σ' ↔ r = σ ∧ σ' = σ := by
  constructor
  · rintro ⟨⟩
    exact ⟨rfl, rfl⟩
  · rintro ⟨rfl, rfl⟩
    rfl

theorem ran_set : Ran (set τ) σ r σ' ↔ σ' = τ := by
  constructor
  · rintro ⟨⟩
    rfl
  · rintro rfl
    rfl

theorem ran_modify {f : Inference → Inference} : Ran (modify f) σ r σ' ↔ σ' = f σ := by
  constructor
  · rintro ⟨⟩
    rfl
  · rintro rfl
    rfl

theorem ran_discard : Ran (discard x) σ r σ' ↔ ∃ a, Ran x σ a σ' := by
  show Ran ((fun _ => PUnit.unit) <$> x) σ r σ' ↔ _
  rw [ran_map]
  exact ⟨fun ⟨a, h, _⟩ => ⟨a, h⟩, fun ⟨a, h⟩ => ⟨a, h, rfl⟩⟩

theorem ran_mapM_nil {r : List β} : Ran ([].mapM f) σ r σ' ↔ r = [] ∧ σ' = σ := by
  rw [mapM_nil, ran_pure]

variable {r : Unit} {xs : List α} {name : String}

theorem ran_mapM_cons {x : α} {r : List β} : Ran ((x :: xs).mapM f) σ r σ' ↔
      ∃ y τ ys, Ran (f x) σ y τ ∧ Ran (xs.mapM f) τ ys σ' ∧ r = y :: ys := by
  rw [mapM_cons, ran_bind]
  simp only [ran_bind, ran_pure]
  grind

theorem ran_forM_cons {f : α → Infer PUnit} {x : α} {r : PUnit} :
    Ran ((x :: xs).forM f) σ r σ' ↔ ∃ u τ, Ran (f x) σ u τ ∧ Ran (xs.forM f) τ r σ' :=
  ran_bind

/-! ## What the steps do -/

theorem ran_fresh : Ran fresh σ t σ' ↔ t = σ.supply.fresh.1 ∧ σ' = { σ with supply := σ.supply.fresh.2 } := by
  simp only [fresh, ran_bind, ran_get, ran_set, ran_pure]
  grind

theorem ran_growing : Ran (growing name args) σ t σ' ↔ t = .con name args { Label.none with cell := some σ.supply.attachments.fresh.1 } ∧
      σ' = { σ with supply := { σ.supply with attachments := σ.supply.attachments.fresh.2 } } := by
  simp only [growing, ran_bind, ran_get, ran_set, ran_pure]
  grind

theorem ran_record : Ran (record name entries classes) σ t σ' ↔
      t = (σ.supply.attachments.newRecord name entries classes).1 ∧ σ' = { σ with supply := { σ.supply with attachments :=
          (σ.supply.attachments.newRecord name entries classes).2 } } := by
  simp only [record, ran_bind, ran_get, ran_set, ran_pure]
  grind

theorem ran_instantiate : Ran (instantiate s) σ t σ' ↔ t = (s.instantiate σ.supply).1 ∧ σ' = { σ with supply := (s.instantiate σ.supply).2 } := by
  simp only [instantiate, ran_bind, ran_get, ran_set, ran_pure]
  grind

theorem ran_equate {u : Ty} : Ran (equate t u) σ r σ' ↔ σ' = { σ with constraints := σ.constraints ++ [.equal t u] } := ran_modify

theorem ran_require {b : Bool} : Ran (require t c) σ b σ' ↔
    (σ.scope.instances.require? σ.supply.attachments t c = none ∧ b = false ∧ σ' = σ) ∨
      ∃ a, σ.scope.instances.require? σ.supply.attachments t c = some a ∧ b = true ∧ σ' = { σ with supply := { σ.supply with attachments := a } } := by
  simp only [require, ran_bind, ran_get]
  cases h : σ.scope.instances.require? σ.supply.attachments t c with
  | none => simp [h, ran_pure]
  | some a => simp [h, ran_map, ran_set, and_comm]

theorem ran_scope {r : Scope} : Ran scope σ r σ' ↔ r = σ.scope ∧ σ' = σ := by
  simp only [scope, ran_bind, ran_get, ran_pure]
  grind

theorem ran_modifyScope {f : Scope → Scope} :
    Ran (modifyScope f) σ r σ' ↔ σ' = { σ with scope := f σ.scope } := ran_modify

theorem ran_within {f : Frame} {r : α} : Ran (within f x) σ r σ' ↔ ∃ τ, Ran x { σ with scope := f :: σ.scope } r τ ∧ σ' = { τ with scope := τ.scope.tail } := by
  simp only [within, ran_bind, ran_modifyScope, ran_pure]
  grind

/-- What fails in a frame that was entered leaves it where it is. -/
theorem run_within_error {f : Frame} (h : x.run.run { σ with scope := f :: σ.scope } = (.error e, σ')) :
    (within f x).run.run σ = (.error e, σ') := by
  show (x >>= fun r => modifyScope List.tail >>= fun _ => pure r).run.run _ = _
  rw [ExceptT.run_bind, StateT.run_bind, h]
  rfl

theorem ran_setSlot : Ran (setSlot slot t) σ r σ' ↔ σ' = { σ with slots := (slot, t) :: σ.slots } := ran_modify

end Infer

/-! ## Types under more tails -/

open Ty

theorem getElem?_of_append {α : Type} {xs ys : List α} (h : xs <+: ys) {x : α} (hx : xs[n]? = some x) :
    ys[n]? = some x := by
  obtain ⟨zs, rfl⟩ := h
  rw [getElem?_append_left (List.getElem?_eq_some_iff.1 hx).1, hx]

theorem Ty.Coherent.mono (hB : B <+: B') (h : t.Coherent B) : t.Coherent B' := by
  induction h with
  | missing => exact .missing
  | var v => exact .var v
  | con _ ih => exact .con ih
  | record _ ht ih => exact .record ih fun t hl => getElem?_of_append hB (ht t hl)

theorem Ty.Fits.mono (hB : B <+: B') (h : t.Fits B) : t.Fits B' :=
  ⟨h.proper, h.coherent.mono hB⟩

theorem Ty.Fits.of_shape {u : Ty} (h : t.Fits B) (hu : u.shape = t.shape) : u.Fits B := by
  have hproper : u.shape.Proper := by
    rw [hu]
    exact h.proper.fill fun id _ => proper_free id
  exact ⟨proper_of_fill hproper, hu ▸ h.coherent⟩

/-- A part of a type that fits does so too. -/
theorem Ty.Fits.child {x : Ty} (h : t.Fits B) (hx : x.Child t) : x.Fits B := by
  refine ⟨h.proper.child hx, ?_⟩
  have hcoherent := h.coherent
  cases t with
  | missing => cases hx
  | var v => cases hx
  | con name args l =>
    rw [shape, image_con] at hcoherent
    cases hcoherent with
    | con hargs => exact hargs _ (mem_map_of_mem hx)
  | record name fields l =>
    rw [shape, image_record] at hcoherent
    obtain ⟨k, hk⟩ := hx
    cases hcoherent with
    | record hfields _ => exact hfields (k, x.shape) (mem_map_of_mem hk)

/-- The name and the classes of a record do not count. -/
theorem Ty.Fits.relabel {owner : String} {fields : List (String × Ty)} {l l' : Label}
    (h : (Ty.record owner fields l).Fits B) (hl : l'.tail = l.tail) : (Ty.record name fields l').Fits B := by
  obtain ⟨hproper, hcoherent⟩ := h
  rw [shape, image_record] at hcoherent
  cases hproper with
  | record hs hfields =>
    refine ⟨.record hs hfields, ?_⟩
    rw [shape, image_record]
    cases hcoherent with
    | record hall htail =>
      refine .record hall fun t ht => htail t ?_
      rw [← ht]
      simp only [Label.trace, hl]

namespace Attachments

variable {a b : Attachments}

theorem tailShapes_mono (h : a.tails <+: b.tails) : a.tailShapes <+: b.tailShapes := by
  obtain ⟨more, hmore⟩ := h
  exact ⟨more.map (mapValues shape), by rw [tailShapes, tailShapes, ← map_append, hmore]⟩

theorem Coherent.of_tails (h : a.Coherent) (hb : b.tails = a.tails) : b.Coherent := by
  rw [Coherent, tailShapes, hb]
  exact h

/-- A record with fields that fit does so too, once its tail is there. -/
theorem fits_newRecord (ha : a.Coherent) (h : ∀ e ∈ entries, e.2.Fits a.tailShapes) (name : String)
    (classes : ClassSet) : a.tails <+: (a.newRecord name entries classes).2.tails ∧
      (a.newRecord name entries classes).2.Coherent ∧
      (a.newRecord name entries classes).1.Fits (a.newRecord name entries classes).2.tailShapes := by
  have hsorted := sorted_ofList entries
  have hfields : ∀ f ∈ Dict.ofList entries, f.2.Fits a.tailShapes := by
    intro f hf
    rcases mem_insertAll hf with hf | hf
    · exact h f hf
    · cases hf
  unfold newRecord
  dsimp only
  split
  · exact ⟨prefix_rfl, ha, .record hsorted hfields fun t ht => by cases ht⟩
  · generalize Shelf.firstPage (entries.map Prod.fst) = own
    generalize hb : ({ a with tails := a.tails ++ [(Dict.ofList entries).drop own] } : Attachments) = b
    have hmore : a.tails <+: b.tails := by
      rw [← hb]
      exact ⟨_, rfl⟩
    have hshapes : b.tailShapes =
        a.tailShapes ++ [mapValues shape ((Dict.ofList entries).drop own)] := by
      rw [← hb, tailShapes, tailShapes, map_append, map_singleton]
    have hB : a.tailShapes <+: b.tailShapes := tailShapes_mono hmore
    refine ⟨hmore, fun d hd f hf => ?_, .record hsorted (fun f hf => (hfields f hf).mono hB) ?_⟩
    · rw [hshapes] at hd
      rcases mem_append.1 hd with hd | hd
      · exact (ha d hd f hf).mono hB
      · rw [mem_singleton.1 hd] at hf
        obtain ⟨g, hg, rfl⟩ := mem_map.1 hf
        exact ((hfields g (mem_of_mem_drop hg)).mono hB).coherent
    · rintro t ⟨⟩
      have hlen : a.tails.length = a.tailShapes.length := by rw [tailShapes, length_map]
      rw [hshapes, hlen, getElem?_concat_length]

/-- A new record has the fields that are given, the last of each name. -/
theorem exists_newRecord (a : Attachments) (name : String) (entries : List (String × Ty))
    (classes : ClassSet) : ∃ l, (a.newRecord name entries classes).1 =
      .record (if name = "" then Ty.anonymous else name) (Dict.ofList entries) l := by
  unfold newRecord
  dsimp only
  split
  · exact ⟨_, rfl⟩
  · exact ⟨_, rfl⟩

end Attachments

/-! ## Uses of schemes -/

/-- Variables that are generated one after another have different names. -/
theorem Var.generatedId_injective {m : Nat} (h : generatedId m = generatedId n) : m = n :=
  Nat.repr_inj.1 ((String.append_right_inj _).1 h)

namespace Scheme

/-- The type of a use: the type of the scheme with others in place of its variables. -/
def Instance (s : Scheme) (t : Ty) : Prop :=
  ∃ r : Subst, (∀ e ∈ r, ∃ v ∈ s.vars, v.id = e.1) ∧ t.bare = s.type.inst r.val

/-- The type of the scheme fits, and if uses of it differ, it has no records. -/
structure Fits (B : List (Dict Ty)) (s : Scheme) : Prop where
  type : s.type.Fits B
  plain : s.vars = [] ∨ s.type.Plain

theorem Fits.mono (h : s.Fits B) (hB : B <+: B') : s.Fits B' :=
  ⟨h.type.mono hB, h.plain⟩

theorem fits_mono (h : t.Fits B) : (mono t).Fits B := ⟨h, .inl rfl⟩

theorem tails_freshLike (s : Supply) (v : Var) :
    (s.freshLike v).2.attachments.tails = s.attachments.tails := rfl

/-- New variables are found for the variables of a scheme only, with numbers from the supply. -/
theorem renewal_spec (s : Supply) (vs : List Var) (r : Subst) :
    (renewal s vs r).2.attachments.tails = s.attachments.tails ∧
      ∀ e ∈ (renewal s vs r).1, ((∃ v ∈ vs, v.id = e.1) ∧
        ∃ n c, s.count ≤ n ∧ e.2 = .var ⟨Var.generatedId n, c⟩) ∨ e ∈ r := by
  induction vs generalizing s r with
  | nil => exact ⟨rfl, fun e he => .inr he⟩
  | cons v vs ih =>
    obtain ⟨htails, hmem⟩ := ih (s.freshLike v).2 (Dict.insert r v.id (.var (s.freshLike v).1))
    refine ⟨htails.trans (tails_freshLike s v), fun e he => ?_⟩
    rcases hmem e he with ⟨⟨w, hw, hid⟩, n, c, hn, hvar⟩ | he
    · exact .inl ⟨⟨w, mem_cons_of_mem _ hw, hid⟩, n, c, Nat.le_of_succ_le hn, hvar⟩
    · rcases mem_insert he with rfl | he
      · exact .inl ⟨⟨v, mem_cons_self, rfl⟩, s.count, _, Nat.le_refl _, rfl⟩
      · exact .inr he

theorem plain_renewal (s : Supply) (vs : List Var) : ∀ e ∈ (renewal s vs []).1, e.2.Plain := by
  intro e he
  rcases (renewal_spec s vs []).2 e he with ⟨-, n, c, -, hvar⟩ | he
  · exact hvar ▸ .var _
  · cases he

/-- Where nothing is bound, a type that fits is as it was, but for cells. -/
theorem shape_apply_nil (ha : a.Coherent) (ht : t.Fits a.tailShapes) :
    (a.apply [] t).1.shape = t.shape ∧ (a.apply [] t).2 = a := by
  have hrevise : a.revise [] t = a := rfl
  have hnow {u : Ty} (hu : u.shape.Coherent a.tailShapes) : (a.current u).shape = u.shape :=
    ha.fit.image_current hu
  have hall : a.currentAll [] = [] := by
    unfold currentAll
    split <;> rfl
  refine ⟨?_, hrevise⟩
  show ((a.revise [] t).current (Subst.apply a (a.currentAll []) (a.current t))).shape = _
  rw [hrevise, hall]
  show (a.current (a.current t)).shape = _
  rw [hnow, hnow ht.coherent]
  rw [hnow ht.coherent]
  exact ht.coherent

/-- A use of a scheme gives an instance and leaves the tails as they are. -/
theorem instantiate_spec (hu : u.attachments.Coherent) (hs : s.Fits u.attachments.tailShapes) :
    (s.instantiate u).2.attachments.tails = u.attachments.tails ∧
      (s.instantiate u).1.Fits u.attachments.tailShapes ∧ s.Instance (s.instantiate u).1 := by
  obtain ⟨htails, hmem⟩ := renewal_spec u s.vars []
  rcases hs.plain with hmono | hplain
  · have hnone : renewal u s.vars [] = ([], u) := by rw [hmono]; rfl
    obtain ⟨hshape, hsame⟩ := shape_apply_nil hu hs.type
    simp only [instantiate, hnone]
    refine ⟨by rw [hsame], hs.type.of_shape hshape, [], by simp, ?_⟩
    rw [← bare_shape, hshape, bare_shape]
    rfl
  · have hvars : ∀ e ∈ (renewal u s.vars []).1, ∃ v ∈ s.vars, v.id = e.1 := by
      intro e he
      rcases hmem e he with ⟨hkey, -⟩ | he
      · exact hkey
      · cases he
    have hall := plain_renewal u s.vars
    simp only [instantiate, apply_of_tailless _ (fun e he => (hall e he).tailless) hplain.tailless]
    exact ⟨htails, .of_plain (Subst.plain_apply hall hplain), _, hvars, Subst.bare_apply _ _ _⟩

end Scheme

/-! ## Scopes -/

/-- All schemes in the frame are such that `S`, and all other types in it such that `T`. -/
structure Frame.All (S : Scheme → Prop) (T : Ty → Prop) (f : Frame) : Prop where
  types : ∀ e ∈ f.types, S e.2
  tparams : ∀ e ∈ f.tparams, T e.2
  returns : ∀ t ∈ f.returns, T t

namespace Frame

variable {S S' : Scheme → Prop} {T T' : Ty → Prop} {f : Frame}

theorem All.imp (h : f.All S T) (hS : ∀ s, S s → S' s) (hT : ∀ t, T t → T' t) : f.All S' T' :=
  ⟨fun e he => hS _ (h.types e he), fun e he => hT _ (h.tparams e he),
    fun t ht => hT _ (h.returns t ht)⟩

theorem all_empty : empty.All S T := ⟨by simp [empty], by simp [empty], by simp [empty]⟩

theorem all_function : function.All S T :=
  ⟨by simp [function, empty], by simp [function, empty], by simp [function, empty]⟩

theorem all_global : global.All S T :=
  ⟨by simp [global, empty], by simp [global, empty], by simp [global, empty]⟩

theorem All.declare (h : f.All S T) (name : String) (hs : S s) : (f.declare name s).All S T := by
  refine ⟨fun e he => ?_, h.tparams, h.returns⟩
  rcases mem_insert he with rfl | he
  · exact hs
  · exact h.types e he

theorem All.declareTypeParam (h : f.All S T) (name : String) (ht : T t) :
    (f.declareTypeParam name t).All S T := by
  refine ⟨h.types, fun e he => ?_, h.returns⟩
  rcases mem_insert he with rfl | he
  · exact ht
  · exact h.tparams e he

theorem All.declareDecl (h : f.All S T) (name : String) (decl : Node) :
    (f.declareDecl name decl).All S T := by
  unfold Frame.declareDecl
  split
  · exact h
  · exact ⟨h.types, h.tparams, h.returns⟩

theorem All.addReturn (h : f.All S T) (ht : T t) : Frame.All S T { f with returns := f.returns ++ [t] } := by
  refine ⟨h.types, h.tparams, fun u hu => ?_⟩
  rcases mem_append.1 hu with hu | hu
  · exact h.returns u hu
  · exact mem_singleton.1 hu ▸ ht

abbrev Fits (B : List (Dict Ty)) : Frame → Prop := Frame.All (Scheme.Fits B) (Ty.Fits B)

end Frame

namespace Scope

variable {S S' : Scheme → Prop} {T T' : Ty → Prop} {B B' : List (Dict Ty)} {sc : Scope}

/-- All schemes in the scope are such that `S`, and all other types in it such that `T`. -/
def All (S : Scheme → Prop) (T : Ty → Prop) (sc : Scope) : Prop := ∀ f ∈ sc, f.All S T

theorem all_cons {f : Frame} : All S T (f :: sc) ↔ f.All S T ∧ sc.All S T := forall_mem_cons

namespace All

variable {change : Frame → Frame}

theorem imp (h : sc.All S T) (hS : ∀ s, S s → S' s) (hT : ∀ t, T t → T' t) : sc.All S' T' :=
  fun f hf => (h f hf).imp hS hT

theorem tail (h : sc.All S T) : All S T sc.tail := fun f hf => h f (mem_of_mem_tail hf)

theorem modifyHead (h : sc.All S T) (hc : ∀ f, f.All S T → (change f).All S T) :
    All S T (sc.modifyHead change) := by
  cases sc with
  | nil => exact h
  | cons f sc => exact all_cons.2 ⟨hc f (all_cons.1 h).1, (all_cons.1 h).2⟩

theorem declareOutside (h : sc.All S T) (hc : ∀ f, f.All S T → (change f).All S T) :
    All S T (sc.take 1 ++ Scope.modifyHead (sc.drop 1) change) := by
  have hrest : All S T (sc.drop 1) := fun f hf => h f (mem_of_mem_drop hf)
  intro f hf
  rcases mem_append.1 hf with hf | hf
  · exact h f (mem_of_mem_take hf)
  · exact hrest.modifyHead hc f hf

theorem addReturn (h : sc.All S T) (ht : T t) : All S T (sc.addReturn t) := by
  induction sc with
  | nil => exact h
  | cons f sc ih =>
    obtain ⟨hf, hsc⟩ := all_cons.1 h
    unfold Scope.addReturn
    split
    · exact all_cons.2 ⟨hf.addReturn ht, hsc⟩
    · exact all_cons.2 ⟨hf, ih hsc⟩

theorem lookup? (h : sc.All S T) (hs : sc.lookup? name = some s) : S s := by
  obtain ⟨f, hf, hget⟩ := exists_of_findSome?_eq_some hs
  exact (h f hf).types _ (mem_of_get?_eq_some hget)

theorem lookupLocal? (h : sc.All S T) (hs : sc.lookupLocal? name = some s) : S s := by
  cases sc with
  | nil => cases hs
  | cons f sc => exact (h f mem_cons_self).types _ (mem_of_get?_eq_some hs)

theorem tparam? (h : sc.All S T) (ht : sc.tparam? name = some t) : T t := by
  obtain ⟨f, hf, hget⟩ := exists_of_findSome?_eq_some ht
  exact (h f hf).tparams _ (mem_of_get?_eq_some hget)

end All

abbrev Fits (B : List (Dict Ty)) : Scope → Prop := All (Scheme.Fits B) (Ty.Fits B)

theorem Fits.mono (h : sc.Fits B) (hB : B <+: B') : sc.Fits B' :=
  h.imp (fun _ hs => hs.mono hB) fun _ ht => ht.mono hB

end Scope

/-! ## States -/

namespace Inference

/-- The tails of a state, without cells. -/
def tails (σ : Inference) : List (Dict Ty) := σ.supply.attachments.tailShapes

/-- The types of a state fit: tails show each other, and the scope, the constraints and the types of
variables show them, as they are. -/
structure Sound (σ : Inference) : Prop where
  coherent : σ.supply.attachments.Coherent
  scope : σ.scope.Fits σ.tails
  constraints : ∀ c ∈ σ.constraints, c.left.Fits σ.tails ∧ c.right.Fits σ.tails
  slots : ∀ e ∈ σ.slots, e.2.Fits σ.tails

/-- A later state: constraints and tails were added, and none was changed. -/
structure Later (σ σ' : Inference) : Prop where
  sound : σ'.Sound
  primitives : σ'.primitives = σ.primitives
  constraints : σ.constraints <+: σ'.constraints
  attached : σ.supply.attachments.tails <+: σ'.supply.attachments.tails

variable {σ σ' σ'' : Inference}

theorem Sound.rfl (h : σ.Sound) : σ.Later σ := ⟨h, Eq.refl _, prefix_rfl, prefix_rfl⟩

namespace Later

theorem trans (h : σ.Later σ') (h' : σ'.Later σ'') : σ.Later σ'' :=
  ⟨h'.sound, h'.primitives.trans h.primitives, h.constraints.trans h'.constraints,
    h.attached.trans h'.attached⟩

theorem tails (h : σ.Later σ') : σ.tails <+: σ'.tails := tailShapes_mono h.attached

theorem fits (h : σ.Later σ') (ht : t.Fits σ.tails) : t.Fits σ'.tails := ht.mono h.tails

/-- The innermost frame is left. -/
theorem pop (h : σ.Later σ') : σ.Later { σ' with scope := σ'.scope.tail } :=
  ⟨⟨h.sound.coherent, h.sound.scope.tail, h.sound.constraints, h.sound.slots⟩, h.primitives,
    h.constraints, h.attached⟩

end Later

theorem tails_supply (hu : u.attachments.tails = σ.supply.attachments.tails) : Inference.tails { σ with supply := u } = σ.tails := by
  rw [Inference.tails, tailShapes, hu]
  rfl

namespace Sound

/-- Another supply with the same tails. -/
theorem supply (h : σ.Sound) (hu : u.attachments.tails = σ.supply.attachments.tails) : σ.Later { σ with supply := u } := by
  have htails := tails_supply hu
  refine ⟨⟨h.coherent.of_tails hu, ?_, ?_, ?_⟩, Eq.refl _, prefix_rfl, ?_⟩
  · rw [htails]
    exact h.scope
  · rw [htails]
    exact h.constraints
  · rw [htails]
    exact h.slots
  · exact ⟨[], by rw [append_nil, hu]⟩

/-- Another scope that fits. -/
theorem withScope (h : σ.Sound) {sc : Scope} (hsc : sc.Fits σ.tails) : σ.Later { σ with scope := sc } :=
  ⟨⟨h.coherent, hsc, h.constraints, h.slots⟩, Eq.refl _, prefix_rfl, prefix_rfl⟩

end Sound

end Inference

/-! ## What computations give -/

/-- The primitive types are these, and all types that are asked to be one are `ok`. -/
def Inference.Meets (ok : Ty → Ty → Prop) (prims : List String) (σ : Inference) : Prop :=
  σ.primitives = prims ∧ ∀ l r, Constraint.equal l r ∈ σ.constraints → ok l r

theorem Inference.Later.meets {ok : Ty → Ty → Prop} {prims : List String} (h : σ.Later σ')
    (hok : σ'.Meets ok prims) : σ.Meets ok prims :=
  ⟨h.primitives.symm.trans hok.1, fun l r hmem => hok.2 l r (h.constraints.subset hmem)⟩

/-- A sound state with these primitive types, this scope and these tails. -/
structure Inference.At (prims : List String) (sc : Scope) (B : List (Dict Ty)) (σ : Inference) : Prop where
  sound : σ.Sound
  primitives : σ.primitives = prims
  scope : σ.scope = sc
  tails : σ.tails = B

theorem Inference.Sound.at (h : σ.Sound) : σ.At σ.primitives σ.scope σ.tails :=
  ⟨h, Eq.refl _, Eq.refl _, Eq.refl _⟩

namespace Infer

open Inference

variable {α β : Type} {ok : Ty → Ty → Prop} {prims : List String} {sc : Scope} {B : List (Dict Ty)}
  {x : Infer α} {f : α → Infer β} {Q : Scope → List (Dict Ty) → α → Prop} {R : α → Scope → Prop}
  {Q' : Scope → List (Dict Ty) → β → Prop} {R' : β → Scope → Prop}

/-- From every state with this scope and these tails, a run leaves a later state. What it finds is such
that `Q` there, and such that `R` if all that was asked for until then is `ok`. -/
def Gives (ok : Ty → Ty → Prop) (prims : List String) (sc : Scope) (B : List (Dict Ty)) (x : Infer α)
    (Q : Scope → List (Dict Ty) → α → Prop) (R : α → Scope → Prop) : Prop :=
  ∀ σ r σ', σ.At prims sc B → Ran x σ r σ' →
    σ.Later σ' ∧ Q σ'.scope σ'.tails r ∧ (σ'.Meets ok prims → R r σ'.scope)

/-- The same, and the scope stays as it is. -/
abbrev Finds (ok : Ty → Ty → Prop) (prims : List String) (sc : Scope) (B : List (Dict Ty)) (x : Infer α)
    (V : List (Dict Ty) → α → Prop) (P : α → Prop) : Prop :=
  Gives ok prims sc B x (fun sc' B' r => sc' = sc ∧ V B' r) fun r _ => P r

theorem Gives.pure {a : α} (hq : Q sc B a) (hr : R a sc) : Gives ok prims sc B (pure a) Q R := by
  rintro σ r σ' ⟨h, -, rfl, rfl⟩ hx
  obtain ⟨rfl, rfl⟩ := ran_pure.1 hx
  exact ⟨h.rfl, hq, fun _ => hr⟩

theorem Gives.throw : Gives ok prims sc B (throw e) Q R := fun _ _ _ _ hx => absurd hx ran_throw

variable {R₁ : α → Scope → Prop} {P : α → Prop} {name : String}

theorem Gives.mono {Q₁ : Scope → List (Dict Ty) → α → Prop}
    (h : Gives ok prims sc B x Q R) (hq : ∀ sc B r, Q sc B r → Q₁ sc B r)
    (hr : ∀ r sc, R r sc → R₁ r sc) : Gives ok prims sc B x Q₁ R₁ := by
  intro σ r σ' hat hx
  obtain ⟨hlater, hQ, hR⟩ := h _ _ _ hat hx
  exact ⟨hlater, hq _ _ _ hQ, fun hok => hr _ _ (hR hok)⟩

theorem Gives.imp (h : Gives ok prims sc B x Q R)
    (hr : ∀ {r sc}, R r sc → R₁ r sc) : Gives ok prims sc B x Q R₁ :=
  h.mono (fun _ _ _ => id) fun _ _ => hr

/-- What is asked for by a part is asked for by the whole. -/
theorem Gives.bind (h : Gives ok prims sc B x Q R) (hf : ∀ r sc' B', B <+: B' → Q sc' B' r →
      Gives ok prims sc' B' (f r) Q' fun s sc'' => R r sc' → R' s sc'') :
    Gives ok prims sc B (x >>= f) Q' R' := by
  intro σ s σ' hat hx
  obtain ⟨r, τ, hx, hf'⟩ := ran_bind.1 hx
  obtain ⟨hlater, hq, hr⟩ := h _ _ _ hat hx
  obtain ⟨hlater', hq', hr'⟩ := hf r _ _ (hat.tails ▸ hlater.tails) hq _ _ _
    ⟨hlater.sound, hlater.primitives.trans hat.primitives, rfl, rfl⟩ hf'
  exact ⟨hlater.trans hlater', hq', fun hok => hr' hok (hr (hlater'.meets hok))⟩

theorem Finds.bind {V : List (Dict Ty) → α → Prop} (h : Finds ok prims sc B x V P)
    (hf : ∀ r B', B <+: B' → V B' r → Gives ok prims sc B' (f r) Q' fun s sc' => P r → R' s sc') :
    Gives ok prims sc B (x >>= f) Q' R' := by
  refine Gives.bind h ?_
  rintro r _ B' hB ⟨rfl, hv⟩
  exact hf r B' hB hv

theorem Gives.discard (h : Gives ok prims sc B x Q R) : Gives ok prims sc B (discard x)
    (fun sc' B' _ => ∃ r, Q sc' B' r) fun _ sc' => ∃ r, R r sc' := by
  intro σ _ σ' hat hx
  obtain ⟨r, hx⟩ := ran_discard.1 hx
  obtain ⟨hlater, hq, hr⟩ := h _ _ _ hat hx
  exact ⟨hlater, ⟨r, hq⟩, fun hok => ⟨r, hr hok⟩⟩

/-- The innermost frame is entered and left again. -/
theorem Gives.within {g : Frame} (hg : g.Fits B)
    (h : Gives ok prims (g :: sc) B x (fun sc' => Q sc'.tail) fun r sc' => R r sc'.tail) :
    Gives ok prims sc B (within g x) Q R := by
  rintro σ r σ' ⟨hsound, hprims, rfl, rfl⟩ hx
  obtain ⟨τ, hx', rfl⟩ := ran_within.1 hx
  have hlater := hsound.withScope (Scope.all_cons.2 ⟨hg, hsound.scope⟩)
  obtain ⟨hlater', hq, hr⟩ := h _ _ _ ⟨hlater.sound, hprims, rfl, rfl⟩ hx'
  exact ⟨(hlater.trans hlater').pop, hq, hr⟩

/-! ### Steps -/

/-- A step to a state with the same tails, and what comes after it. -/
theorem Gives.step {τ : Inference} {r : α} {sc' : Scope} (hat : σ.At prims sc B) (hlater : σ.Later τ)
    (hscope : τ.scope = sc') (htails : τ.tails = σ.tails) (hx : Ran x τ r σ') (h : Gives ok prims sc' B x Q R) :
    σ.Later σ' ∧ Q σ'.scope σ'.tails r ∧ (σ'.Meets ok prims → R r σ'.scope) := by
  obtain ⟨hlater', hq, hr⟩ := h _ _ _
    ⟨hlater.sound, hlater.primitives.trans hat.primitives, hscope, htails.trans hat.tails⟩ hx
  exact ⟨hlater.trans hlater', hq, hr⟩

/-- Only classes and the numbers of variables can change, and what is found is such that `P`. -/
def Still (x : Infer α) (P : α → Prop) : Prop :=
  ∀ σ r σ', Ran x σ r σ' → P r ∧
    ∃ u : Supply, σ' = { σ with supply := u } ∧ u.attachments.tails = σ.supply.attachments.tails

theorem Still.bind (h : Still x P)
    (hf : ∀ r, P r → Gives ok prims sc B (f r) Q' R') : Gives ok prims sc B (x >>= f) Q' R' := by
  intro σ s σ' hat hx
  obtain ⟨r, τ, hx, hf'⟩ := ran_bind.1 hx
  obtain ⟨hr, u, rfl, hu⟩ := h _ _ _ hx
  exact (hf r hr).step hat (hat.sound.supply hu) hat.scope (tails_supply hu) hf'

theorem Still.gives (h : Still x P) (hf : ∀ r, P r → Q sc B r ∧ R r sc) : Gives ok prims sc B x Q R := by
  rw [← bind_pure x]
  exact h.bind fun r hr => .pure (hf r hr).1 (hf r hr).2

theorem Still.discard (h : Still x P) : Still (discard x) fun _ => True := by
  intro σ _ σ' hx
  obtain ⟨r, hx⟩ := ran_discard.1 hx
  exact ⟨trivial, (h _ _ _ hx).2⟩

theorem still_fresh : Still fresh fun t => ∃ v, t = .var v := by
  intro σ t σ' hx
  obtain ⟨rfl, rfl⟩ := ran_fresh.1 hx
  exact ⟨⟨_, rfl⟩, _, rfl, rfl⟩

theorem still_growing : Still (growing name args) fun t => ∃ l, t = .con name args l := by
  intro σ t σ' hx
  obtain ⟨rfl, rfl⟩ := ran_growing.1 hx
  exact ⟨⟨_, rfl⟩, _, rfl, rfl⟩

theorem tails_attach (a : Attachments) (t : Ty) (c : String) : (a.attach t c).tails = a.tails := by
  unfold Attachments.attach Attachments.setClasses
  split <;> rfl

theorem require?_eq_some {reg : Registry} {b : Attachments} (h : reg.require? a t c = some b) :
    b = a ∨ b = a.attach t c := by
  unfold Registry.require? at h
  split at h
  · exact .inl (Option.some.inj h).symm
  · split at h
    · exact .inr (Option.some.inj h).symm
    · cases h

theorem still_require : Still (require t c) fun _ => True := by
  intro σ b σ' hx
  refine ⟨trivial, ?_⟩
  rcases ran_require.1 hx with ⟨-, -, rfl⟩ | ⟨a, ha, -, rfl⟩
  · exact ⟨_, rfl, rfl⟩
  · refine ⟨_, rfl, ?_⟩
    rcases require?_eq_some ha with rfl | rfl
    · rfl
    · exact tails_attach _ _ _

theorem finds_instantiate (hs : s.Fits B) : Finds ok prims sc B (instantiate s) Ty.Fits s.Instance := by
  rintro σ t σ' ⟨h, -, rfl, rfl⟩ hx
  obtain ⟨htails, hfits, hinst⟩ := Scheme.instantiate_spec h.coherent hs
  obtain ⟨rfl, rfl⟩ := ran_instantiate.1 hx
  have hlater := h.supply htails
  exact ⟨hlater, ⟨rfl, hlater.fits hfits⟩, fun _ => hinst⟩

theorem finds_record (he : ∀ e ∈ entries, e.2.Fits B) :
    Finds ok prims sc B (record name entries classes) Ty.Fits fun t =>
      ∃ l, t = .record (if name = "" then Ty.anonymous else name) (Dict.ofList entries) l := by
  rintro σ t σ' ⟨h, -, rfl, rfl⟩ hx
  obtain ⟨hattached, hcoherent, hfits⟩ := fits_newRecord h.coherent he name classes
  have hB := tailShapes_mono hattached
  obtain ⟨rfl, rfl⟩ := ran_record.1 hx
  refine ⟨⟨⟨hcoherent, h.scope.mono hB, fun c hc => ?_, fun e he => (h.slots e he).mono hB⟩, rfl,
    prefix_rfl, hattached⟩, ⟨rfl, hfits⟩, fun _ => exists_newRecord _ _ _ _⟩
  exact ⟨(h.constraints c hc).1.mono hB, (h.constraints c hc).2.mono hB⟩

theorem scope_bind {f : Scope → Infer β} (h : sc.Fits B → Gives ok prims sc B (f sc) Q' R') :
    Gives ok prims sc B (scope >>= f) Q' R' := by
  rintro σ s σ' ⟨hsound, hprims, rfl, rfl⟩ hx
  obtain ⟨_, _, hget, hx⟩ := ran_bind.1 hx
  obtain ⟨rfl, rfl⟩ := ran_scope.1 hget
  exact h hsound.scope _ _ _ ⟨hsound, hprims, rfl, rfl⟩ hx

theorem get_bind {f : Inference → Infer β}
    (h : ∀ σ : Inference, σ.At prims sc B → Gives ok prims sc B (f σ) Q' R') :
    Gives ok prims sc B (get >>= f) Q' R' := by
  intro σ s σ' hat hx
  obtain ⟨_, _, hget, hx⟩ := ran_bind.1 hx
  obtain ⟨rfl, rfl⟩ := ran_get.1 hget
  exact h _ hat _ _ _ hat hx

theorem modifyScope_bind {change : Scope → Scope} {f : Unit → Infer β}
    (hsc : sc.Fits B → (change sc).Fits B) (h : Gives ok prims (change sc) B (f ()) Q' R') :
    Gives ok prims sc B (modifyScope change >>= f) Q' R' := by
  rintro σ s σ' ⟨hsound, hprims, rfl, rfl⟩ hx
  obtain ⟨_, _, hchange, hx⟩ := ran_bind.1 hx
  obtain rfl := ran_modifyScope.1 hchange
  exact h.step ⟨hsound, hprims, rfl, rfl⟩ (hsound.withScope (hsc hsound.scope)) rfl rfl hx

theorem declare_bind {f : Unit → Infer β} (ht : t.Fits B)
    (h : Gives ok prims (sc.modifyHead (·.declare name (.mono t))) B (f ()) Q' R') :
    Gives ok prims sc B (declare name t >>= f) Q' R' :=
  modifyScope_bind (fun hsc => hsc.modifyHead fun _ hf => hf.declare name (Scheme.fits_mono ht)) h

theorem equate_bind {l r : Ty} {f : Unit → Infer β} (hl : l.Fits B) (hr : r.Fits B)
    (h : Gives ok prims sc B (f ()) Q' fun s sc' => ok l r → R' s sc') :
    Gives ok prims sc B (equate l r >>= f) Q' R' := by
  rintro σ s σ' ⟨hsound, hprims, rfl, rfl⟩ hx
  obtain ⟨_, τ, hequate, hx⟩ := ran_bind.1 hx
  obtain rfl := ran_equate.1 hequate
  have hlater : σ.Later { σ with constraints := σ.constraints ++ [.equal l r] } := by
    refine ⟨⟨hsound.coherent, hsound.scope, fun c hc => ?_, hsound.slots⟩, rfl, ⟨_, rfl⟩, prefix_rfl⟩
    rcases mem_append.1 hc with hc | hc
    · exact hsound.constraints c hc
    · rw [mem_singleton.1 hc]
      exact ⟨hl, hr⟩
  obtain ⟨hlater', hq, hr⟩ := h _ _ _ ⟨hlater.sound, hprims, rfl, rfl⟩ hx
  exact ⟨hlater.trans hlater', hq, fun hok => hr hok (hok.2 _ _ (hlater'.constraints.subset (by simp)))⟩

theorem setSlot_bind {f : Unit → Infer β} (ht : t.Fits B) (h : Gives ok prims sc B (f ()) Q' R') :
    Gives ok prims sc B (setSlot slot t >>= f) Q' R' := by
  rintro σ s σ' ⟨hsound, hprims, rfl, rfl⟩ hx
  obtain ⟨_, _, hset, hx⟩ := ran_bind.1 hx
  obtain rfl := ran_setSlot.1 hset
  have hslots : ∀ e ∈ (slot, t) :: σ.slots, e.2.Fits σ.tails :=
    forall_mem_cons.2 ⟨ht, hsound.slots⟩
  have hlater : σ.Later { σ with slots := (slot, t) :: σ.slots } :=
    ⟨⟨hsound.coherent, hsound.scope, hsound.constraints, hslots⟩, rfl, prefix_rfl, prefix_rfl⟩
  exact h.step ⟨hsound, hprims, rfl, rfl⟩ hlater rfl rfl hx

end Infer

end ScriptTyping
