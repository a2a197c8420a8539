import ScriptTyping.Proofs.Running

/-!
# What annotations stand for

`Denotes` says which types an annotation can stand for in a scope, without saying how they are found:
where something new is drawn, any variable will do. A struct stands for a record of its fields, and
its name is expanded wherever it is used.

Main statement: `Infer.resolve_denotes`, that what is found for an annotation is one of these types.
-/

namespace ScriptTyping

open Ty Inference List

/-! ## Rules -/

/-- Type parameters come into scope in the innermost frame: as the arguments that are given for them,
then as variables. The classes that they ask for are declared. -/
inductive TypeParams : Scope → List TypeParam → List Ty → List Ty → Scope → Prop
  | nil {sc args} : TypeParams sc [] args [] sc
  | given {sc : Scope} {sc'} {p : TypeParam} {ps t args ts} (hbounds : ∀ c ∈ p.bounds, sc.declaresClass c = true)
    (h : TypeParams (sc.modifyHead (·.declareTypeParam p.name t)) ps args ts sc') :
    TypeParams sc (p :: ps) (t :: args) (t :: ts) sc'
  | new {sc : Scope} {sc'} {p : TypeParam} {ps v ts} (hbounds : ∀ c ∈ p.bounds, sc.declaresClass c = true)
    (h : TypeParams (sc.modifyHead (·.declareTypeParam p.name (.var v))) ps [] ts sc') :
    TypeParams sc (p :: ps) [] (.var v :: ts) sc'

/-- The name stands for a primitive type. -/
def IsPrimitive (prims : List String) (name : String) : Prop :=
  name ∈ prims ∨ name = Ty.void ∨ name = Ty.unknown

mutual

/-- The annotation can stand for the type. -/
inductive Denotes (prims : List String) : Scope → TypeExpr → Ty → Prop
  | primitive {sc name} (h : IsPrimitive prims name) : Denotes prims sc (.named name) (.primitive name)
  | param {sc : Scope} {name t} (hp : ¬ IsPrimitive prims name) (h : sc.tparam? name = some t) :
    Denotes prims sc (.named name) t
  | structName {sc : Scope} {name d t} (hp : ¬ IsPrimitive prims name) (ht : sc.tparam? name = none)
    (hd : sc.decl? name = some (.structDecl d)) (h : Expands prims sc d [] t) : Denotes prims sc (.named name) t
  | enumName {sc : Scope} {sc' name d params l} (hp : ¬ IsPrimitive prims name) (ht : sc.tparam? name = none)
    (hd : sc.decl? name = some (.enumDecl d)) (h : TypeParams (.empty :: sc) d.tparams [] params sc') :
    Denotes prims sc (.named name) (.con d.name params l)
  | array {sc elem t} (h : Denotes prims sc elem t) : Denotes prims sc (.array elem) (.app Ty.arrayName [t])
  | map {sc key value k t} (hk : Denotes prims sc key k) (h : Denotes prims sc value t) :
    Denotes prims sc (.map key value) (.app Ty.mapName [t])
  | promise {sc elem t} (h : Denotes prims sc elem t) : Denotes prims sc (.promise elem) (.app Ty.promiseName [t])
  | func {sc params ret ts t} (hp : DenotesParams prims sc params ts) (h : Denotes prims sc ret t) :
    Denotes prims sc (.func params ret) (.arrow ts t)
  | procedure {sc params ts} (hp : DenotesParams prims sc params ts) :
    Denotes prims sc (.func params .missing) (.arrow ts (.primitive Ty.void))
  | structRef {sc : Scope} {name args d ts t} (hd : sc.structDecl? name = some d)
    (ha : DenotesAll prims sc args ts) (h : Expands prims sc d ts t) : Denotes prims sc (.structRef name args) t
  | enumRef {sc : Scope} {sc' name args d ts params l} (hd : sc.enumDecl? name = some d)
    (ha : DenotesAll prims sc args ts) (h : TypeParams (.empty :: sc) d.tparams ts params sc') :
    Denotes prims sc (.enumRef name args) (.con d.name params l)
  | generic {sc sc' tparams base params t} (hp : TypeParams (.empty :: sc) tparams [] params sc')
    (h : Denotes prims sc' base t) : Denotes prims sc (.generic tparams base) t

/-- The struct with these arguments can stand for the type. -/
inductive Expands (prims : List String) : Scope → StructDecl → List Ty → Ty → Prop
  | mk {sc sc'} {d : StructDecl} {args params entries l}
    (hp : TypeParams (.empty :: sc) d.tparams args params sc')
    (h : DenotesFields prims sc' params d.fields entries) : Expands prims sc d args
      (.record (if d.name = "" then Ty.anonymous else d.name) (Dict.ofList entries) l)

/-- The annotations can stand for the types. -/
inductive DenotesAll (prims : List String) : Scope → List TypeExpr → List Ty → Prop
  | nil {sc} : DenotesAll prims sc [] []
  | cons {sc e es t ts} (h : Denotes prims sc e t) (hs : DenotesAll prims sc es ts) :
    DenotesAll prims sc (e :: es) (t :: ts)

/-- The parameters can have the types. Without annotation, one that is variadic is an array. -/
inductive DenotesParams (prims : List String) : Scope → List Param → List Ty → Prop
  | nil {sc} : DenotesParams prims sc [] []
  | written {sc} {p : Param} {ps t ts} (h : Denotes prims sc p.ann t) (hs : DenotesParams prims sc ps ts) :
    DenotesParams prims sc (p :: ps) (t :: ts)
  | variadic {sc} {p : Param} {ps v ts} (hm : p.ann.isMissing = true) (hv : p.variadic = true)
    (hs : DenotesParams prims sc ps ts) : DenotesParams prims sc (p :: ps) (.app Ty.arrayName [.var v] :: ts)
  | new {sc} {p : Param} {ps v ts} (hm : p.ann.isMissing = true) (hv : p.variadic = false)
    (hs : DenotesParams prims sc ps ts) : DenotesParams prims sc (p :: ps) (.var v :: ts)

/-- The fields can have the types. Without annotation, one has the only type parameter that there
is. -/
inductive DenotesFields (prims : List String) :
    Scope → List Ty → List Field → List (String × Ty) → Prop
  | nil {sc params} : DenotesFields prims sc params [] []
  | written {sc params} {f : Field} {fs t entries} (h : Denotes prims sc f.ann t)
    (hs : DenotesFields prims sc params fs entries) :
    DenotesFields prims sc params (f :: fs) ((f.name, t) :: entries)
  | only {sc} {f : Field} {fs t entries} (hm : f.ann.isMissing = true)
    (hs : DenotesFields prims sc [t] fs entries) : DenotesFields prims sc [t] (f :: fs) ((f.name, t) :: entries)
  | new {sc} {params : List Ty} {f : Field} {fs v entries} (hm : f.ann.isMissing = true) (hp : params.length ≠ 1)
    (hs : DenotesFields prims sc params fs entries) :
    DenotesFields prims sc params (f :: fs) ((f.name, .var v) :: entries)

end

theorem TypeExpr.eq_missing {e : TypeExpr} (h : e.isMissing = true) : e = .missing := by
  cases e <;> first | rfl | cases h

/-! ## Type parameters -/

namespace Infer

variable {ok : Ty → Ty → Prop} {prims : List String} {sc : Scope} {B : List (Dict Ty)}

def AllFit (B : List (Dict Ty)) (ts : List Ty) : Prop := ∀ t ∈ ts, t.Fits B

theorem AllFit.mono {B B' : List (Dict Ty)} {ts : List Ty} (h : AllFit B ts) (hB : B <+: B') : AllFit B' ts :=
  fun t ht => (h t ht).mono hB

theorem allFit_nil : AllFit B [] := by simp [AllFit]

theorem allFit_cons {t : Ty} {ts : List Ty} : AllFit B (t :: ts) ↔ t.Fits B ∧ AllFit B ts :=
  forall_mem_cons

theorem bounds_bind {β : Type} {t : Ty} {cs : List String} {f : PUnit → Infer β}
    {Q : Scope → List (Dict Ty) → β → Prop} {R : β → Scope → Prop}
    (h : (∀ c ∈ cs, sc.declaresClass c = true) → Gives ok prims sc B (f ⟨⟩) Q R) :
    Gives ok prims sc B (cs.forM (requireBound t) >>= f) Q R := by
  induction cs with
  | nil => exact h (by simp)
  | cons c cs ih =>
    show Gives ok prims sc B ((requireBound t c >>= fun _ => cs.forM (requireBound t)) >>= f) Q R
    rw [bind_assoc, requireBound, bind_assoc]
    refine scope_bind fun _ => ?_
    split
    · exact .throw
    next hdeclared =>
      rw [bind_assoc]
      refine still_require.bind fun b _ => ?_
      split
      · exact .throw
      · exact ih fun hcs => h (forall_mem_cons.2 ⟨by simpa using hdeclared, hcs⟩)

theorem tail_modifyHead (sc : Scope) (change : Frame → Frame) : (sc.modifyHead change).tail = sc.tail := by
  cases sc <;> rfl

/-- Type parameters are declared as they should. -/
theorem gives_declareTypeParams {ps : List TypeParam} {args : List Ty} (hargs : AllFit B args) :
    Gives ok prims sc B (declareTypeParams ps args)
      (fun sc' B' ts => sc'.tail = sc.tail ∧ AllFit B' ts) (TypeParams sc ps args) := by
  induction ps generalizing sc B args with
  | nil => exact .pure ⟨rfl, allFit_nil⟩ .nil
  | cons p ps ih =>
    have hrest {t : Ty} (ht : t.Fits B) (hargs : AllFit B args.tail)
        (hrule : ∀ {ts sc'}, TypeParams (sc.modifyHead (·.declareTypeParam p.name t)) ps args.tail ts sc' →
          TypeParams sc (p :: ps) args (t :: ts) sc') :
        Gives ok prims sc B (do declareTypeParam p.name t; return t :: (← declareTypeParams ps args.tail))
          (fun sc' B' ts => sc'.tail = sc.tail ∧ AllFit B' ts) (TypeParams sc (p :: ps) args) := by
      refine modifyScope_bind (fun hsc => hsc.modifyHead fun f hf => hf.declareTypeParam p.name ht) ?_
      refine (ih hargs).bind ?_
      rintro ts sc' B' hB ⟨htail, hts⟩
      exact .pure ⟨htail.trans (tail_modifyHead sc _), allFit_cons.2 ⟨ht.mono hB, hts⟩⟩ hrule
    rw [declareTypeParams]
    cases args with
    | nil =>
      refine still_fresh.bind ?_
      rintro _ ⟨v, rfl⟩
      exact bounds_bind fun hbounds => hrest (.var v) allFit_nil (.new hbounds)
    | cons t args =>
      obtain ⟨ht, hargs⟩ := allFit_cons.1 hargs
      exact bounds_bind fun hbounds => hrest ht hargs (.given hbounds)

/-! ## Structs and enums -/

/-- The enum that was found, with its parameters. -/
theorem finds_enumType {d : EnumDecl} {args : List Ty} (hargs : AllFit B args) :
    Finds ok prims sc B (enumType d args) Ty.Fits fun t => ∃ params sc' l,
      TypeParams (.empty :: sc) d.tparams args params sc' ∧ t = .con d.name params l := by
  have hparams : Finds ok prims sc B (within .empty (declareTypeParams d.tparams args)) AllFit fun params =>
      ∃ sc', TypeParams (.empty :: sc) d.tparams args params sc' :=
    .within Frame.all_empty ((gives_declareTypeParams hargs).imp fun h => ⟨_, h⟩)
  refine hparams.bind fun params B' _ hps => still_growing.gives ?_
  rintro _ ⟨l, rfl⟩
  refine ⟨⟨rfl, .con hps⟩, ?_⟩
  rintro ⟨sc', h⟩
  exact ⟨params, sc', l, h, rfl⟩

/-- All annotations stand for what is found for them. -/
def Resolves (resolve : TypeExpr → Infer Ty) : Prop :=
  ∀ {ok prims} e sc B, Finds ok prims sc B (resolve e) Ty.Fits (Denotes prims sc e)

/-- Structs are expanded as they should. -/
def FindsExpansions (expand : StructDecl → List Ty → Infer Ty) : Prop :=
  ∀ {ok prims} d sc B args, AllFit B args →
    Finds ok prims sc B (expand d args) Ty.Fits (Expands prims sc d args)

variable {resolve : TypeExpr → Infer Ty} {expand : StructDecl → List Ty → Infer Ty}

def EntriesFit (B : List (Dict Ty)) (entries : List (String × Ty)) : Prop := ∀ e ∈ entries, e.2.Fits B

theorem entriesFit_cons {e : String × Ty} {entries : List (String × Ty)} {B' : List (Dict Ty)}
    (he : e.2.Fits B) (hB : B <+: B') (h : EntriesFit B' entries) : EntriesFit B' (e :: entries) :=
  forall_mem_cons.2 ⟨he.mono hB, h⟩

/-- The types of fields, given what is found for annotations. -/
theorem finds_fields (hres : Resolves resolve) {params : List Ty} (fs : List Field) (hparams : AllFit B params) :
    Finds ok prims sc B (fs.mapM fun f => return (f.name, ← fieldType resolve params f.ann)) EntriesFit
      (DenotesFields prims sc params fs) := by
  induction fs generalizing B with
  | nil => exact .pure ⟨rfl, by simp [EntriesFit]⟩ .nil
  | cons f fs ih =>
    have hfield : Finds ok prims sc B (fieldType resolve params f.ann) Ty.Fits fun t =>
        ∀ rest, DenotesFields prims sc params fs rest →
          DenotesFields prims sc params (f :: fs) ((f.name, t) :: rest) := by
      unfold fieldType
      split
      next hmissing =>
        split
        next u => exact .pure ⟨rfl, hparams _ mem_cons_self⟩ fun rest => .only hmissing
        next hmany =>
          refine still_fresh.gives ?_
          rintro _ ⟨v, rfl⟩
          refine ⟨⟨rfl, .var v⟩, fun rest => .new hmissing fun hone => ?_⟩
          obtain ⟨u, rfl⟩ := length_eq_one_iff.1 hone
          exact hmany u rfl
      next => exact (hres f.ann sc B).imp fun h rest => .written h
    rw [mapM_cons, bind_assoc]
    refine hfield.bind fun t B' hB ht => ?_
    rw [pure_bind]
    refine (ih (hparams.mono hB)).bind fun rest B'' hB' hrest => .pure ⟨rfl, ?_⟩ fun h hcons => hcons rest h
    exact entriesFit_cons (e := (f.name, t)) ht hB' hrest

theorem findsExpansions_structType (hres : Resolves resolve) : FindsExpansions (structType resolve) := by
  intro ok prims d sc B args hargs
  refine .within Frame.all_empty ((gives_declareTypeParams hargs).bind ?_)
  rintro params sc' B' - ⟨htail, hparams⟩
  refine (finds_fields hres d.fields hparams).bind fun entries B'' _ hentries => ?_
  refine (finds_record hentries).mono ?_ ?_
  · rintro _ B'' t ⟨rfl, ht⟩
    exact ⟨htail, ht⟩
  · rintro _ _ ⟨l, rfl⟩ hfields htparams
    exact .mk htparams hfields

/-! ## Annotations -/

theorem fits_primitive (name : String) : (Ty.primitive name).Fits B :=
  .con fun _ ht => by cases ht

theorem fits_app {name : String} {t : Ty} (ht : t.Fits B) : (Ty.app name [t]).Fits B :=
  .con fun _ hu => mem_singleton.1 hu ▸ ht

theorem fits_arrow {ts : List Ty} {t : Ty} (hts : AllFit B ts) (ht : t.Fits B) : (Ty.arrow ts t).Fits B := by
  refine .con fun u hu => ?_
  rcases mem_append.1 hu with hu | hu
  · exact hts u hu
  · exact mem_singleton.1 hu ▸ ht

theorem finds_resolveName (hexp : FindsExpansions expand) (name : String) :
    Finds ok prims sc B (resolveName expand name) Ty.Fits (Denotes prims sc (.named name)) := by
  refine get_bind ?_
  rintro σ ⟨h, rfl, rfl, rfl⟩
  split
  next hprim => exact .pure ⟨rfl, fits_primitive name⟩ (.primitive hprim)
  next hprim =>
    split
    next t hparam => exact .pure ⟨rfl, h.scope.tparam? hparam⟩ (.param hprim hparam)
    next hparam =>
      split
      next d hdecl => exact (hexp d _ _ [] allFit_nil).imp (.structName hprim hparam hdecl)
      next d hdecl =>
        refine (finds_enumType allFit_nil).imp ?_
        rintro _ - ⟨params, sc', l, htparams, rfl⟩
        exact .enumName hprim hparam hdecl htparams
      next => exact .throw

theorem finds_paramType {x : Infer Ty} {p : Param}
    (hx : Finds ok prims sc B x Ty.Fits (Denotes prims sc p.ann)) :
    Finds ok prims sc B (paramType x (!p.ann.isMissing) p.variadic) Ty.Fits fun t => ∀ ps ts,
      DenotesParams prims sc ps ts → DenotesParams prims sc (p :: ps) (t :: ts) := by
  unfold paramType
  cases hm : p.ann.isMissing with
  | false => exact hx.imp fun h _ _ => .written h
  | true =>
    cases hv : p.variadic with
    | true =>
      refine still_fresh.bind ?_
      rintro _ ⟨v, rfl⟩
      exact .pure ⟨rfl, fits_app (.var v)⟩ fun _ _ => .variadic hm hv
    | false =>
      refine still_fresh.gives ?_
      rintro _ ⟨v, rfl⟩
      exact ⟨⟨rfl, .var v⟩, fun _ _ => .new hm hv⟩

mutual

theorem finds_resolveWith (hexp : FindsExpansions expand) : Resolves (resolveWith expand)
  | ok, prims, .missing, sc, B => .throw
  | ok, prims, .named name, sc, B => finds_resolveName hexp name
  | ok, prims, .array elem, sc, B =>
    (finds_resolveWith hexp elem sc B).bind fun t B' _ ht => .pure ⟨rfl, fits_app ht⟩ .array
  | ok, prims, .map key value, sc, B => by
    rw [resolveWith]
    refine (finds_resolveWith hexp key sc B).discard.bind ?_
    rintro _ _ B' - ⟨_, rfl, -⟩
    refine (finds_resolveWith hexp value _ B').bind fun t _ _ ht => .pure ⟨rfl, fits_app ht⟩ ?_
    rintro hvalue ⟨k, hkey⟩
    exact .map hkey hvalue
  | ok, prims, .promise elem, sc, B =>
    (finds_resolveWith hexp elem sc B).bind fun t B' _ ht => .pure ⟨rfl, fits_app ht⟩ .promise
  | ok, prims, .func params ret, sc, B => by
    rw [resolveWith]
    refine (finds_resolveParams hexp params sc B).bind fun ts B' _ hts => ?_
    split
    next hmissing =>
      rw [TypeExpr.eq_missing hmissing]
      exact .pure ⟨rfl, fits_arrow hts (fits_primitive _)⟩ .procedure
    next =>
      exact (finds_resolveWith hexp ret sc B').bind fun t B'' hB ht =>
        .pure ⟨rfl, fits_arrow (hts.mono hB) ht⟩ fun hret hparams => .func hparams hret
  | ok, prims, .structRef name args, sc, B => by
    rw [resolveWith]
    refine scope_bind fun _ => ?_
    split
    next => exact .throw
    next d hd =>
      exact (finds_resolveAll hexp args sc B).bind fun ts B' _ hts =>
        (hexp d sc B' ts hts).imp fun h hargs => .structRef hd hargs h
  | ok, prims, .enumRef name args, sc, B => by
    rw [resolveWith]
    refine scope_bind fun _ => ?_
    split
    next => exact .throw
    next d hd =>
      refine (finds_resolveAll hexp args sc B).bind fun ts B' _ hts => (finds_enumType hts).imp ?_
      rintro _ - ⟨params, sc', l, htparams, rfl⟩ hargs
      exact .enumRef hd hargs htparams
  | ok, prims, .generic tparams base, sc, B => by
    rw [resolveWith]
    refine .within Frame.all_empty ((gives_declareTypeParams allFit_nil).discard.bind ?_)
    rintro _ sc' B' - ⟨_, htail, -⟩
    refine (finds_resolveWith hexp base sc' B').mono ?_ ?_
    · rintro _ _ t ⟨rfl, ht⟩
      exact ⟨htail, ht⟩
    · rintro t _ h ⟨params, hparams⟩
      exact .generic hparams h

theorem finds_resolveParams {ok prims} (hexp : FindsExpansions expand) : ∀ ps sc B,
    Finds ok prims sc B (resolveParams expand ps) AllFit (DenotesParams prims sc ps)
  | [], sc, B => .pure ⟨rfl, allFit_nil⟩ .nil
  | ⟨name, ann, variadic⟩ :: ps, sc, B => by
    rw [resolveParams]
    refine (finds_paramType (p := ⟨name, ann, variadic⟩) (finds_resolveWith hexp ann sc B)).bind ?_
    intro t B' _ ht
    exact (finds_resolveParams hexp ps sc B').bind fun ts B'' hB hts =>
      .pure ⟨rfl, allFit_cons.2 ⟨ht.mono hB, hts⟩⟩ fun h hcons => hcons ps ts h

theorem finds_resolveAll {ok prims} (hexp : FindsExpansions expand) : ∀ es sc B,
    Finds ok prims sc B (resolveAll expand es) AllFit (DenotesAll prims sc es)
  | [], sc, B => .pure ⟨rfl, allFit_nil⟩ .nil
  | e :: es, sc, B => by
    rw [resolveAll]
    refine (finds_resolveWith hexp e sc B).bind fun t B' _ ht => ?_
    exact (finds_resolveAll hexp es sc B').bind fun ts B'' hB hts =>
      .pure ⟨rfl, allFit_cons.2 ⟨ht.mono hB, hts⟩⟩ fun h hfirst => .cons hfirst h

end

theorem resolves_resolveDepth (n : Nat) : Resolves (resolveDepth n) := by
  induction n with
  | zero => exact finds_resolveWith fun _ _ _ _ _ => .throw
  | succ n ih => exact finds_resolveWith (findsExpansions_structType ih)

theorem resolves_resolve : Resolves Infer.resolve :=
  fun e sc B => scope_bind fun _ => resolves_resolveDepth _ e sc B

/-- What is found for an annotation is what it can stand for. -/
theorem resolve_denotes (e : TypeExpr) {σ : Inference} (h : σ.Sound) {t : Ty} {σ' : Inference}
    (hx : Ran (Infer.resolve e) σ t σ') : σ.Later σ' ∧ Denotes σ.primitives σ.scope e t := by
  obtain ⟨hlater, -, hdenotes⟩ := @resolves_resolve (fun _ _ => True) _ e _ _ _ _ _ h.at hx
  exact ⟨hlater, hdenotes ⟨hlater.primitives, fun _ _ _ => trivial⟩⟩

theorem findsExpansions_expandStruct : FindsExpansions expandStruct :=
  findsExpansions_structType resolves_resolve

theorem finds_resolveEach (es : List TypeExpr) :
    Finds ok prims sc B (resolveEach es) AllFit (DenotesAll prims sc es) := by
  unfold resolveEach
  induction es generalizing B with
  | nil => exact .pure ⟨rfl, allFit_nil⟩ .nil
  | cons e es ih =>
    rw [mapM_cons]
    exact (resolves_resolve e sc B).bind fun t B' _ ht => ih.bind fun ts B'' hB hts =>
      .pure ⟨rfl, allFit_cons.2 ⟨ht.mono hB, hts⟩⟩ fun h hfirst => .cons hfirst h

end Infer

end ScriptTyping
