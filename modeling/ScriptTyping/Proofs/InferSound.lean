import ScriptTyping.Proofs.Typing

/-!
# Inference follows the rules

A run of inference from a sound state leaves a sound state, and what it finds is what the rules say.
The rules are about any pairs of types that are `ok`: here these are the pairs that inference has asked
to be one when it is done. So nothing is said yet about a solution.

Each piece of inference has one lemma. `finds_` is said of a piece that leaves the scope as it was,
`gives_` of one that can change it, and `types_` of one that finds the type of a node.

Main statement: `infer_typed`.
-/

namespace ScriptTyping

open Ty Inference Infer List

variable {B : List (Dict Ty)} {t : Ty}

theorem Scope.Fits.returned {sc : Scope} (h : sc.Fits B) : ∀ t ∈ sc.returned, t.Fits B := by
  cases sc with
  | nil => simp [Scope.returned]
  | cons f sc => exact (Scope.all_cons.1 h).1.returns

/-! ## What inference asks -/

/-- If there is a type, it fits. -/
def Ty.Valued (B : List (Dict Ty)) (t : Ty) : Prop := t.isMissing = false → t.Fits B

theorem Ty.Valued.mono {B' : List (Dict Ty)} (h : t.Valued B) (hB : B <+: B') : t.Valued B' :=
  fun hm => (h hm).mono hB

theorem Ty.Fits.isMissing (h : t.Fits B) : t.isMissing = false := by
  cases h.proper <;> rfl

theorem Ty.eq_missing (h : t.isMissing = true) : t = .missing := by
  cases t with
  | missing => rfl
  | _ => cases h

theorem Node.eq_missing {n : Node} (h : n.isMissing = true) : n = .missing := by
  cases n with
  | missing => rfl
  | _ => cases h

theorem Ty.valued_missing : Valued B .missing := fun h => by cases h

namespace Infer

variable {β : Type} {ok : Ty → Ty → Prop} {prims : List String} {sc : Scope} {B : List (Dict Ty)} {t : Ty}
  {Q : Scope → List (Dict Ty) → β → Prop} {R : β → Scope → Prop} {target : Node} {declared l r : Ty}

theorem fits_boolean : boolean.Fits B := fits_primitive _

variable {f : Unit → Infer β} {op name : String} {σ σ' : Inference} {key : Option String}

theorem expectBoolean_bind (ht : t.Valued B)
    (h : Gives ok prims sc B (f ()) Q fun s sc' => Condition ok t → R s sc') :
    Gives ok prims sc B (expectBoolean t >>= f) Q R := by
  unfold expectBoolean
  cases hm : t.isMissing with
  | true => exact h.imp fun hr => hr fun hc => by rw [hm] at hc; cases hc
  | false => exact equate_bind (ht hm) fits_boolean (h.imp fun hr hok => hr fun _ => hok)

theorem ran_expectValue {r : Unit} (hx : Ran (expectValue op t) σ r σ') : t.isMissing = false ∧ σ' = σ := by
  unfold expectValue at hx
  split at hx
  next => exact absurd hx ran_throw
  next hm => exact ⟨by simpa using hm, (ran_pure.1 hx).2⟩

theorem expectValue_bind (h : t.isMissing = false → Gives ok prims sc B (f ()) Q R) :
    Gives ok prims sc B (expectValue op t >>= f) Q R := by
  unfold expectValue
  cases hm : t.isMissing with
  | true => exact .throw
  | false => exact h hm

/-! ## Operators -/

theorem finds_sumType (hl : l.Fits B) (hr : r.Fits B) :
    Finds ok prims sc B (sumType l r) (fun B t => t.Fits B ∧ t = l) fun _ => ok l r := by
  have hsum : Finds ok prims sc B (equate l r >>= fun _ => pure l) (fun B t => t.Fits B ∧ t = l) fun _ => ok l r :=
    equate_bind hl hr (.pure ⟨rfl, hl, rfl⟩ id)
  refine get_bind fun σ _ => ?_
  split
  · exact .throw
  · exact still_require.discard.bind fun _ _ => still_require.discard.bind fun _ _ => hsum
  · exact hsum

theorem finds_binaryType (hl : l.Fits B) (hr : r.Fits B) :
    Finds ok prims sc B (binaryType op l r) (fun B t => t.Fits B ∧ operationType? op l = some t)
      fun _ => ok l r := by
  unfold binaryType
  split
  next hop =>
    refine (finds_sumType hl hr).mono ?_ fun _ _ => id
    rintro _ B _ ⟨rfl, ht, rfl⟩
    exact ⟨rfl, ht, by rw [operationType?, if_pos hop]⟩
  next hop =>
    split
    · exact .throw
    next c hc =>
      have hresult : operationType? op l = some (if c = Class.num then l else boolean) := by
        rw [operationType?, if_neg hop, hc]
        rfl
      refine still_require.bind fun b _ => ?_
      cases b with
      | false => exact .throw
      | true =>
        refine still_require.bind fun b _ => ?_
        cases b with
        | false => exact .throw
        | true =>
          refine equate_bind hl hr (.pure ⟨rfl, ?_, hresult⟩ id)
          split
          · exact hl
          · exact fits_boolean

theorem finds_numericType (ht : t.Valued B) :
    Finds ok prims sc B (numericType op t) Ty.Valued fun u => u = t ∧ t.isMissing = false := by
  refine expectValue_bind fun hm => still_require.bind fun b _ => ?_
  cases b with
  | false => exact .throw
  | true => exact .pure ⟨rfl, ht⟩ ⟨rfl, hm⟩

/-! ## Names and parts -/

theorem finds_nameType (name : String) : Finds ok prims sc B (nameType name) Ty.Valued fun t =>
    Typed ok prims sc (.ident name) t sc := by
  refine scope_bind fun hsc => ?_
  split
  next s hs =>
    refine (finds_instantiate (hsc.lookup? hs)).mono ?_ fun _ _ => .ident hs
    rintro _ B t ⟨rfl, ht⟩
    exact ⟨rfl, fun _ => ht⟩
  next hs =>
    refine still_fresh.gives ?_
    rintro _ ⟨v, rfl⟩
    exact ⟨⟨rfl, fun _ => .var v⟩, .undeclared hs⟩

theorem declareTarget_bind (ht : t.Fits B) (h : Gives ok prims (sc.assigned target t) B (f ()) Q R) :
    Gives ok prims sc B (declareTarget target t >>= f) Q R := by
  unfold declareTarget
  unfold Scope.assigned at h
  cases hid : target.ident? with
  | none =>
    rw [hid] at h
    exact h
  | some name =>
    simp only [hid] at h
    rw [bind_assoc]
    refine scope_bind fun hsc => ?_
    split
    next hnone =>
      rw [if_pos hnone] at h
      exact declare_bind ht h
    next hsome =>
      rw [if_neg hsome] at h
      exact h

theorem child_partType? {u : Ty} (hu : partType? t key = some u) : u.Child t := by
  unfold partType? at hu
  split at hu
  next =>
    split at hu
    next => exact mem_of_head? hu
    next =>
      split at hu
      next => exact mem_of_getLast? hu
      next => cases hu
  next fields _ key => exact ⟨key, Dict.mem_of_get?_eq_some hu⟩
  next => cases hu

theorem finds_partType (ht : t.Valued B) : Finds ok prims sc B (partType t key) Ty.Valued (PartOf t key) := by
  unfold partType
  split
  next u hu =>
    have hm : t.isMissing = false := by
      cases t with
      | missing => cases hu
      | _ => rfl
    exact .pure ⟨rfl, fun _ => (ht hm).child (child_partType? hu)⟩ (.known hu)
  next hnone =>
    refine still_fresh.gives ?_
    rintro _ ⟨v, rfl⟩
    exact ⟨⟨rfl, fun _ => .var v⟩, .new hnone⟩

/-! ## Declarations -/

theorem finds_resolveIfWritten (e : TypeExpr) :
    Finds ok prims sc B (resolveIfWritten e) Ty.Valued (Written prims sc e) := by
  unfold resolveIfWritten
  split
  next hm =>
    rw [TypeExpr.eq_missing hm]
    exact .pure ⟨rfl, valued_missing⟩ .none
  next =>
    refine (resolves_resolve e sc B).mono ?_ fun _ _ => .some
    rintro _ B t ⟨rfl, ht⟩
    exact ⟨rfl, fun _ => ht⟩

theorem finds_resolveOrNew (e : TypeExpr) :
    Finds ok prims sc B (resolveOrNew e) Ty.Fits (WrittenOrNew prims sc e) := by
  refine still_fresh.bind ?_
  rintro _ ⟨v, rfl⟩
  split
  next hm =>
    rw [TypeExpr.eq_missing hm]
    exact .pure ⟨rfl, .var v⟩ .new
  next => exact (resolves_resolve e sc B).imp .written

theorem finds_heldType {found : Ty} (hd : declared.Valued B) (hf : found.Valued B) :
    Finds ok prims sc B (heldType declared found) Ty.Fits (VariableHolds ok declared found) := by
  unfold heldType
  cases hmf : found.isMissing with
  | true =>
    rw [Ty.eq_missing hmf]
    cases hmd : declared.isMissing with
    | true =>
      rw [Ty.eq_missing hmd]
      refine still_fresh.gives ?_
      rintro _ ⟨v, rfl⟩
      exact ⟨⟨rfl, .var v⟩, .new⟩
    | false => exact .pure ⟨rfl, hd hmd⟩ (.declared hmd)
  | false =>
    cases hmd : declared.isMissing with
    | true => exact .pure ⟨rfl, hf hmf⟩ (.value hmf fun hc => by rw [hmd] at hc; cases hc)
    | false => exact equate_bind (hd hmd) (hf hmf) (.pure ⟨rfl, hf hmf⟩ fun h => .value hmf fun _ => h)

theorem fits_shownType (hd : declared.Valued B) (ht : t.Fits B) : (shownType declared t).Fits B := by
  unfold shownType
  split
  next =>
    split
    · exact ht
    · exact hd rfl
  next => exact ht

theorem gives_declareParam (p : Param) : Gives ok prims sc B (declareParam p) (fun _ => Ty.Fits) fun t sc' =>
    DenotesParams prims sc [p] [t] ∧ sc' = sc.modifyHead (·.declare p.name (.mono t)) :=
  (finds_paramType (resolves_resolve p.ann sc B)).bind fun _ _ _ ht =>
    declare_bind ht (.pure ht fun h => ⟨h [] [] .nil, rfl⟩)

theorem gives_declareParams (ps : List Param) : Gives ok prims sc B (ps.mapM declareParam) (fun _ => AllFit)
    (DeclaresParams prims sc ps) := by
  induction ps generalizing sc B with
  | nil => exact .pure allFit_nil .nil
  | cons p ps ih =>
    rw [mapM_cons]
    refine (gives_declareParam p).bind fun t sc' B' _ ht => ih.bind fun ts _ _ hB hts =>
      .pure (allFit_cons.2 ⟨ht.mono hB, hts⟩) ?_
    rintro hparams ⟨hparam, rfl⟩
    exact .cons hparam hparams

theorem declareFunction_bind (ht : t.Fits B) (h : Gives ok prims (sc.named name t) B (f ()) Q R) :
    Gives ok prims sc B (declareFunction name t >>= f) Q R := by
  unfold declareFunction
  unfold Scope.named at h
  split
  next hname =>
    rw [if_pos hname] at h
    exact h
  next hname =>
    rw [if_neg hname] at h
    exact modifyScope_bind
      (fun hsc => hsc.declareOutside fun f hf => hf.declare name (Scheme.fits_mono ht)) h

theorem equateAll_bind {us : List Ty} {f : PUnit → Infer β} (ht : t.Fits B) (hus : AllFit B us)
    (h : Gives ok prims sc B (f ⟨⟩) Q fun s sc' => (∀ u ∈ us, ok t u) → R s sc') :
    Gives ok prims sc B (us.forM (equate t) >>= f) Q R := by
  induction us generalizing R with
  | nil => exact h.imp fun hr => hr (by simp)
  | cons u us ih =>
    show Gives ok prims sc B ((equate t u >>= fun _ => us.forM (equate t)) >>= f) Q R
    obtain ⟨hu, hus⟩ := allFit_cons.1 hus
    rw [bind_assoc]
    exact equate_bind ht hu (ih hus (h.imp fun hr hall hu => hr (forall_mem_cons.2 ⟨hu, hall⟩)))

theorem fits_resultTypes {returned : List Ty} {value : Ty} {annotated : Bool} (hr : AllFit B returned)
    (hv : value.Valued B) : AllFit B (resultTypes returned value annotated) := by
  unfold resultTypes
  split
  · exact hr
  · split
    next hm => simpa [AllFit] using hv (by simpa using hm)
    next =>
      split
      · exact allFit_nil
      · simpa [AllFit] using fits_primitive _

theorem fits_functionTy {sig : Signature} {params : List Ty} {ret : Ty} (hp : AllFit B params)
    (hr : ret.Fits B) : (functionTy sig params ret).Fits B := by
  refine fits_arrow hp ?_
  split
  · exact fits_app hr
  · exact hr

/-! ## Variants, calls and literals -/

theorem finds_variantFields (fs : List Field) :
    Finds ok prims sc B (fs.mapM fun f => return (f.name, ← resolveOrNew f.ann)) EntriesFit
      (DenotesFields prims sc [] fs) := by
  induction fs generalizing B with
  | nil => exact .pure ⟨rfl, by simp [EntriesFit]⟩ .nil
  | cons f fs ih =>
    rw [mapM_cons, bind_assoc]
    refine (finds_resolveOrNew f.ann).bind fun t B' _ ht => ?_
    rw [pure_bind]
    refine ih.bind fun entries _ hB hentries => .pure ⟨rfl, entriesFit_cons (e := (f.name, t)) ht hB hentries⟩ ?_
    intro hdenotes hwritten
    generalize hann : f.ann = ann at hwritten
    cases hwritten with
    | new => exact .new (by rw [hann]; rfl) (by simp) hdenotes
    | written hwritten => exact .written (hann ▸ hwritten) hdenotes

/-- The type of the result of a call, or of the promise of one. -/
def callResult (awaited : Bool) (v : Var) : Ty :=
  if awaited then .app Ty.promiseName [.var v] else .var v

theorem finds_callType {awaited : Bool} {callee : Ty} {args : List Ty} (hc : callee.Valued B)
    (ha : AllFit B args) : Finds ok prims sc B (callType awaited callee args)
      (fun _ t => ∃ v, t = callResult awaited v)
      fun t => callee.isMissing = false → ok callee (.arrow args t) := by
  refine still_fresh.bind ?_
  rintro _ ⟨v, rfl⟩
  have hret : (callResult awaited v).Fits B := by
    unfold callResult
    split
    · exact fits_app (.var v)
    · exact .var v
  cases hm : callee.isMissing with
  | true => exact .pure ⟨rfl, v, rfl⟩ fun hc => by cases hc
  | false => exact equate_bind (hc hm) (fits_arrow ha hret) (.pure ⟨rfl, v, rfl⟩ fun h _ => h)

theorem finds_awaitedType (ht : t.Valued B) :
    Finds ok prims sc B (awaitedType t) Ty.Valued (Awaited ok t) := by
  cases t with
  | missing => exact .pure ⟨rfl, valued_missing⟩ (.other rfl (by simp))
  | var v =>
    refine still_fresh.bind ?_
    rintro _ ⟨w, rfl⟩
    exact equate_bind (.var v) (fits_app (.var w)) (.pure ⟨rfl, fun _ => .var w⟩ .new)
  | con name args l =>
    obtain _ | ⟨elem, _ | ⟨_, _⟩⟩ := args
    · exact .pure ⟨rfl, ht⟩ (.other rfl (by simp))
    · refine .pure ⟨rfl, ?_⟩ ?_
      · split
        · exact fun _ => (ht rfl).child (mem_singleton.2 rfl)
        · exact ht
      · split
        next hname =>
          rw [hname]
          exact .promise
        next hname => exact .other rfl (by simp [hname])
    · exact .pure ⟨rfl, ht⟩ (.other rfl (by simp))
  | record name fields l => exact .pure ⟨rfl, ht⟩ (.other rfl (by simp))

theorem finds_structLitType {d : StructDecl} (ht : t.Valued B) :
    Finds ok prims sc B (structLitType d name t) Ty.Valued (FitsStruct ok prims sc d name t) := by
  cases t with
  | record owner fields l =>
    refine get_bind fun σ _ => ?_
    have hfits {u : Ty} (hu : u.Fits B) (hrule : ∀ {e}, Expands prims sc d [] e → ok e u →
        FitsStruct ok prims sc d name (.record owner fields l) u) :
        Finds ok prims sc B (do equate (← expandStruct d []) u; return u) Ty.Valued
          (FitsStruct ok prims sc d name (.record owner fields l)) :=
      (findsExpansions_expandStruct d sc B [] allFit_nil).bind fun e B' hB he =>
        equate_bind he (hu.mono hB) (.pure ⟨rfl, fun _ => hu.mono hB⟩ fun hok he => hrule he hok)
    by_cases howner : owner = Ty.anonymous
    · refine hfits ?_ ?_
      · rw [if_pos howner]
        exact (ht rfl).relabel rfl
      · rw [if_pos howner, howner]
        exact .anonymous
    · refine hfits ?_ ?_
      · rw [if_neg howner]
        exact ht rfl
      · rw [if_neg howner]
        exact .named howner
  | _ => exact .pure ⟨rfl, ht⟩ (.other (by simp))

/-! ## Nodes -/

/-- What the rules are about, and how the constants of enums are visited. -/
structure Setting where
  ok : Ty → Ty → Prop
  prims : List String
  constant : Node → Infer Ty

namespace Setting

variable (S : Setting)

/-- The computation finds the type that the rules give to the node. -/
def Infers (x : Infer Ty) (n : Node) : Prop :=
  ∀ sc B, Gives S.ok S.prims sc B x (fun _ => Ty.Valued) (Typed S.ok S.prims sc n)

/-- The node has the type that the rules say. -/
def Types (n : Node) : Prop := S.Infers (inferWith S.constant n) n

/-- The last of the nodes has the type that the rules say. -/
def TypesLast (ns : List Node) : Prop := ∀ sc B last, last.Valued B →
  Gives S.ok S.prims sc B (inferLast S.constant last ns) (fun _ => Ty.Valued)
    (TypedLast S.ok S.prims sc last ns)

/-- The variables are declared as the rules say. -/
def TypesVars (vs : List Variable) : Prop := ∀ sc B,
  Gives S.ok S.prims sc B (inferVars S.constant vs) (fun _ _ _ => True)
    fun _ => TypedVars S.ok S.prims sc vs

/-- The arguments have the types that the rules say. -/
def TypesArgs (ns : List Node) : Prop := ∀ sc B,
  Gives S.ok S.prims sc B (inferArgs S.constant ns) (fun _ => AllFit) (TypedArgs S.ok S.prims sc ns)

/-- The elements have the type that the rules say. -/
def TypesElems (ns : List Node) : Prop := ∀ sc B first, first.Valued B →
  Gives S.ok S.prims sc B (inferElems S.constant first ns) (fun _ => Ty.Valued)
    (TypedElems S.ok S.prims sc first ns)

/-- The properties have the types that the rules say. -/
def TypesProps (ps : List (String × Node)) : Prop := ∀ sc B,
  Gives S.ok S.prims sc B (inferProps S.constant ps) (fun _ => EntriesFit) (TypedProps S.ok S.prims sc ps)

end Setting

section

variable {S : Setting}

variable {n cond left right yes no body callee object : Node} {args ns : List Node} {vs : List Variable}
  {expr value x : Node} {v : Variable}

theorem types_pure (heq : inferWith S.constant n = pure t) (ht : ∀ B, t.Valued B)
    (hrule : ∀ ok prims sc, Typed ok prims sc n t sc) : S.Types n := by
  intro sc B
  rw [heq]
  exact .pure (ht B) (hrule _ _ _)

/-- A condition is visited, and then asked to be a truth value. -/
theorem condition_bind (hc : S.Types cond)
    (h : ∀ sc' B', B <+: B' → Gives S.ok S.prims sc' B' (f ()) Q fun s sc'' =>
      ∀ c, Typed S.ok S.prims sc cond c sc' → Condition S.ok c → R s sc'') :
    Gives S.ok S.prims sc B (inferWith S.constant cond >>= fun c => expectBoolean c >>= f) Q R :=
  (hc sc B).bind fun c sc' B' hB hv =>
    expectBoolean_bind hv ((h sc' B' hB).imp fun hr hbool htyped => hr c htyped hbool)

/-- Two operands are visited, and then asked to have values. -/
theorem operands_bind {op : String} {f : Ty → Ty → Infer β} (hl : S.Types left) (hr : S.Types right)
    (h : ∀ t u sc' B', B <+: B' → t.Fits B' → u.Fits B' → Gives S.ok S.prims sc' B' (f t u) Q fun s sc'' =>
      ∀ sc₁, Typed S.ok S.prims sc left t sc₁ → Typed S.ok S.prims sc₁ right u sc' → R s sc'') :
    Gives S.ok S.prims sc B (do
      let t ← inferWith S.constant left
      let u ← inferWith S.constant right
      expectValue op t
      expectValue op u
      f t u) Q R :=
  (hl sc B).bind fun t sc₁ B₁ hB₁ ht => (hr sc₁ B₁).bind fun u sc₂ B₂ hB₂ hu =>
    expectValue_bind fun hmt => expectValue_bind fun hmu =>
      (h t u sc₂ B₂ (hB₁.trans hB₂) ((ht hmt).mono hB₂) (hu hmu)).imp fun hr hright hleft => hr sc₁ hleft hright

theorem types_program {body : List Node} (hb : S.TypesLast body) : S.Types (.program body) := by
  intro sc B
  rw [inferWith]
  refine (hb sc B _ valued_missing).discard.bind fun _ sc' B' _ _ => .pure valued_missing ?_
  rintro ⟨t, h⟩
  exact .program h

theorem types_block {body : List Node} (hb : S.TypesLast body) : S.Types (.block body) := by
  intro sc B
  rw [inferWith]
  exact .within Frame.all_empty ((hb _ B _ valued_missing).imp .block)

theorem types_exprStmt (he : S.Types expr) : S.Types (.exprStmt expr) := by
  intro sc B
  rw [inferWith]
  refine (he sc B).bind fun t sc' B' _ ht => .pure ?_ .exprStmt
  split
  · exact valued_missing
  · exact ht

theorem types_ifElse (hc : S.Types cond) (hy : S.Types yes) (hn : S.Types no) :
    S.Types (.ifElse cond yes no) := by
  intro sc B
  rw [inferWith]
  refine condition_bind hc fun sc₁ B₁ _ => (hy sc₁ B₁).bind fun t sc₂ B₂ _ ht => ?_
  refine (hn sc₂ B₂).discard.bind fun _ sc₃ B₃ hB _ => .pure (ht.mono hB) ?_
  rintro ⟨u, hno⟩ hyes c hcond hbool
  exact .ifElse hcond hbool hyes hno

/-- The body of a loop is visited in a frame of its own. -/
theorem gives_body (hb : S.Types body) :
    Gives S.ok S.prims sc B (discard (within .empty (inferWith S.constant body))) (fun _ _ _ => True)
      fun _ sc' => ∃ t inner, Typed S.ok S.prims (.empty :: sc) body t inner ∧ sc' = inner.tail := by
  have hinner : Gives S.ok S.prims sc B (within .empty (inferWith S.constant body)) (fun _ _ _ => True)
      fun t sc' => ∃ inner, Typed S.ok S.prims (.empty :: sc) body t inner ∧ sc' = inner.tail :=
    .within Frame.all_empty ((hb _ B).mono (fun _ _ _ _ => trivial) fun _ _ h => ⟨_, h, rfl⟩)
  exact hinner.discard.mono (fun _ _ _ _ => trivial) fun _ _ h => h

theorem types_whileLoop (hc : S.Types cond) (hb : S.Types body) : S.Types (.whileLoop cond body) := by
  intro sc B
  rw [inferWith]
  refine condition_bind hc fun sc₁ B₁ _ => (gives_body hb).bind fun _ sc₂ B₂ _ _ => .pure valued_missing ?_
  rintro ⟨t, inner, hbody, rfl⟩ c hcond hbool
  exact .whileLoop hcond hbool hbody

theorem types_forLoop {init step : Node} (hi : S.Types init) (hc : S.Types cond)
    (hs : S.Types step) (hb : S.Types body) : S.Types (.forLoop init cond step body) := by
  intro sc B
  rw [inferWith]
  refine .within Frame.all_empty ((hi _ B).discard.bind fun _ sc₁ B₁ _ _ => ?_)
  refine condition_bind hc fun sc₂ B₂ _ => (hs sc₂ B₂).discard.bind fun _ sc₃ B₃ _ _ => ?_
  refine (gives_body hb).bind fun _ sc₄ B₄ _ _ => .pure valued_missing ?_
  rintro ⟨t, inner, hbody, rfl⟩ ⟨s, hstep⟩ c hcond hbool ⟨i, hinit⟩
  exact .forLoop hinit hcond hbool hstep hbody

theorem types_returns (hv : S.Types value) : S.Types (.returns value) := by
  intro sc B
  rw [inferWith]
  refine (hv sc B).bind fun t sc' B' _ ht => ?_
  refine modifyScope_bind (fun hsc => hsc.addReturn ?_) (.pure valued_missing .returns)
  split
  next => exact fits_primitive _
  next hm => exact ht (by simpa using hm)

theorem gives_variableType (v : Variable) (hv : S.Types v.value) : Gives S.ok S.prims sc B
    (variableType v.name v.ann v.slot (inferWith S.constant v.value)) (fun _ => Ty.Valued)
    (TypedVar S.ok S.prims sc v) := by
  refine scope_bind fun hsc => ?_
  split
  next s hs =>
    have ht := (hsc.lookupLocal? hs).type
    exact setSlot_bind ht (.pure (fun _ => ht) (.again hs))
  next hnone =>
    refine (finds_resolveIfWritten v.ann).bind fun declared B₁ _ hd => ?_
    refine (hv sc B₁).bind fun found sc₂ B₂ hB₂ hf => ?_
    refine (finds_heldType (hd.mono hB₂) hf).bind fun t B₃ hB₃ ht => setSlot_bind ht (declare_bind ht ?_)
    exact .pure (fun _ => fits_shownType (hd.mono (hB₂.trans hB₃)) ht)
      fun hholds hvalue hwritten => .new hnone hwritten hvalue hholds

theorem gives_functionType (name : String) (sig : Signature) (hb : S.Types body) :
    Gives S.ok S.prims sc B (functionType name sig (inferWith S.constant body)) (fun _ => Ty.Valued)
      (TypedFunction S.ok S.prims sc name sig body) := by
  refine .within Frame.all_function ((gives_declareTypeParams allFit_nil).discard.bind fun _ sc₁ B₁ _ _ => ?_)
  refine (gives_declareParams sig.params).bind fun params sc₂ B₂ _ hps => ?_
  refine (finds_resolveOrNew sig.ret).bind fun ret B₃ hB₃ hret => ?_
  have hfunction : (functionTy sig params ret).Fits B₃ := fits_functionTy (hps.mono hB₃) hret
  refine declareFunction_bind hfunction ((hb _ B₃).bind fun value sc₄ B₄ hB₄ hvalue => ?_)
  refine scope_bind fun hsc => equateAll_bind (hret.mono hB₄) (fits_resultTypes hsc.returned hvalue) ?_
  refine .pure (fun _ => hfunction.mono hB₄) ?_
  rintro hall hbody hwritten hparams ⟨tparams, htparams⟩
  exact .mk htparams hparams hwritten hbody hall

theorem types_lets (hvs : S.TypesVars vs) : S.Types (.lets vs) := by
  intro sc B
  rw [inferWith]
  exact (hvs sc B).bind fun _ _ _ _ _ => .pure valued_missing .lets

theorem types_var (hv : S.Types v.value) : S.Types (.var v) :=
  fun _ _ => (gives_variableType v hv).imp .var

theorem types_func (name : String) (sig : Signature) (hb : S.Types body) : S.Types (.func name sig body) := by
  intro sc B
  rw [inferWith]
  refine (gives_functionType name sig hb).discard.bind fun _ _ _ _ _ => .pure valued_missing ?_
  rintro ⟨t, h⟩
  exact .func h

theorem types_lambda (sig : Signature) (hb : S.Types body) : S.Types (.lambda sig body) := by
  intro sc B
  rw [inferWith]
  exact (gives_functionType "" sig hb).imp .lambda

theorem types_structDecl (d : StructDecl) : S.Types (.structDecl d) := by
  intro sc B
  rw [inferWith]
  exact modifyScope_bind (fun hsc => hsc.modifyHead fun f hf => hf.declareDecl d.name _)
    (.pure valued_missing .structDecl)

theorem types_enumDecl (d : EnumDecl) : S.Types (.enumDecl d) := by
  intro sc B
  rw [inferWith]
  exact modifyScope_bind (fun hsc => hsc.modifyHead fun f hf => hf.declareDecl d.name _)
    (.pure valued_missing .enumDecl)

/-- What is found without a change of the scope. -/
theorem Finds.gives {V : List (Dict Ty) → β → Prop} {P : β → Prop} {x : Infer β}
    (h : Finds ok prims sc B x V P) : Gives ok prims sc B x (fun _ => V) fun r sc' => sc' = sc ∧ P r := by
  rw [← bind_pure x]
  exact h.bind fun _ _ _ hv => .pure hv fun hp => ⟨rfl, hp⟩

theorem types_ident (name : String) : S.Types (.ident name) := by
  intro sc B
  rw [inferWith]
  refine (finds_nameType name).gives.imp ?_
  rintro t _ ⟨rfl, h⟩
  exact h

theorem types_binary (op : String) (hl : S.Types left) (hr : S.Types right) :
    S.Types (.binary op left right) := by
  intro sc B
  rw [inferWith]
  refine operands_bind hl hr fun t u sc' B' _ ht hu => ?_
  rw [← bind_pure (binaryType op t u)]
  refine (finds_binaryType ht hu).bind ?_
  rintro r B'' - ⟨hr, hop⟩
  exact .pure (fun _ => hr) fun hok _ hl hr => .binary hl hr ht.isMissing hu.isMissing hop hok

theorem types_logical (op : String) (hl : S.Types left) (hr : S.Types right) :
    S.Types (.logical op left right) := by
  intro sc B
  rw [inferWith]
  refine operands_bind hl hr fun t u sc' B' _ ht hu => ?_
  exact equate_bind ht fits_boolean (equate_bind hu fits_boolean (.pure (fun _ => fits_boolean)
    fun hub htb _ hl hr => .logical hl hr ht.isMissing hu.isMissing htb hub))

theorem types_unary (op : String) (he : S.Types x) : S.Types (.unary op x) := by
  intro sc B
  rw [inferWith]
  refine (he sc B).bind fun t sc' B' _ ht => ?_
  by_cases hop : op = "!"
  · rw [unaryType, if_pos hop, hop]
    exact expectValue_bind fun hm => equate_bind (ht hm) fits_boolean
      (.pure (fun _ => fits_boolean) fun hok hx => .not hx hm hok)
  · rw [unaryType, if_neg hop]
    refine (finds_numericType ht).gives.imp ?_
    rintro _ _ ⟨rfl, rfl, hm⟩ hx
    exact .unary hx hop hm

theorem types_update (op : String) (before : Bool) (he : S.Types x) : S.Types (.update op x before) := by
  intro sc B
  rw [inferWith]
  refine (he sc B).bind fun t sc' B' _ ht => (finds_numericType ht).gives.imp ?_
  rintro _ _ ⟨rfl, rfl, hm⟩ hx
  exact .update hx hm

theorem types_assign (op : String) (ht : S.Types target) (hv : S.Types value) :
    S.Types (.assign op target value) := by
  intro sc B
  rw [inferWith]
  refine operands_bind ht hv fun t u sc' B' _ ht hu => ?_
  exact equate_bind ht hu (declareTarget_bind ht (.pure (fun _ => ht)
    fun hok _ htarget hvalue => .assign htarget hvalue ht.isMissing hu.isMissing hok))

theorem types_ternary (hc : S.Types cond) (hy : S.Types yes) (hn : S.Types no) :
    S.Types (.ternary cond yes no) := by
  intro sc B
  rw [inferWith]
  refine condition_bind hc fun sc₁ B₁ _ => operands_bind hy hn fun t u sc₂ B₂ _ ht hu => ?_
  exact equate_bind ht hu (.pure (fun _ => ht) fun hok _ hyes hno _ hcond hbool =>
    .ternary hcond hbool hyes hno ht.isMissing hu.isMissing hok)

theorem types_sequence {exprs : List Node} (he : S.TypesLast exprs) : S.Types (.sequence exprs) := by
  intro sc B
  rw [inferWith]
  exact (he sc B _ valued_missing).imp .sequence

theorem types_call (hf : S.Types callee) (ha : S.TypesArgs args) : S.Types (.call callee args) := by
  intro sc B
  rw [inferWith]
  refine (hf sc B).bind fun c sc₁ B₁ _ hc => (ha sc₁ B₁).bind fun ts sc₂ B₂ hB hts => ?_
  rw [← bind_pure (callType false c ts)]
  refine (finds_callType (hc.mono hB) hts).bind ?_
  rintro _ B₃ - ⟨v, rfl⟩
  exact .pure (fun _ => .var v) fun hok hargs hcallee => .call hcallee hargs hok

theorem types_awaitCall (hf : S.Types callee) (ha : S.TypesArgs args) :
    S.Types (.await (.call callee args)) := by
  intro sc B
  rw [inferWith]
  refine (hf sc B).bind fun c sc₁ B₁ _ hc => (ha sc₁ B₁).bind fun ts sc₂ B₂ hB hts => ?_
  refine (finds_callType (hc.mono hB) hts).bind ?_
  rintro _ B₃ - ⟨v, rfl⟩
  exact .pure (fun _ => .var v) fun hok hargs hcallee => .awaitCall hcallee hargs hok

theorem types_await (hc : ∀ callee args, expr ≠ .call callee args) (he : S.Types expr) :
    S.Types (.await expr) := by
  intro sc B
  rw [inferWith_await S.constant hc]
  refine (he sc B).bind fun t sc' B' _ ht => (finds_awaitedType ht).gives.imp ?_
  rintro u _ ⟨rfl, hawaited⟩ hx
  exact .await hc hx hawaited

theorem types_variant (hconst : ∀ n, S.Infers (S.constant n) n) (property : String)
    (arrow : Bool) {d : EnumDecl} (henum : enumOf? sc object = some d) :
    Gives S.ok S.prims sc B (variantType S.constant d property) (fun _ => Ty.Valued)
      (Typed S.ok S.prims sc (.member object property arrow)) := by
  unfold variantType
  split
  next => exact .throw
  next v hv =>
    refine .within Frame.all_empty ((gives_declareTypeParams allFit_nil).bind ?_)
    rintro params sc₁ B₁ - ⟨-, hps⟩
    refine still_growing.bind ?_
    rintro _ ⟨l, rfl⟩
    have henumFits : (Ty.con d.name params l).Fits B₁ := .con hps
    have hkind {x : Infer Ty} (hx : Gives S.ok S.prims sc₁ B₁ x (fun _ => Ty.Fits)
        (TypedVariant S.ok S.prims sc₁ v (.con d.name params l))) :
        Gives S.ok S.prims sc₁ B₁ x (fun _ => Ty.Valued) fun t sc' =>
          TypeParams (.empty :: sc) d.tparams [] params sc₁ →
            Typed S.ok S.prims sc (.member object property arrow) t sc'.tail :=
      hx.mono (fun _ _ _ h _ => h) fun _ _ h hparams => .variant henum hv hparams h
    split
    next hk => exact hkind (.pure henumFits (.unit hk))
    next hk =>
      exact hkind ((finds_resolveEach v.tuple).bind fun ts B₂ hB hts =>
        .pure (fits_arrow hts (henumFits.mono hB)) (.tuple hk))
    next hk =>
      refine hkind ((finds_variantFields v.fields).bind fun entries B₂ hB hentries => ?_)
      refine (finds_record hentries).bind fun r B₃ hB' hr => .pure ?_ ?_
      · exact fits_arrow (allFit_cons.2 ⟨hr, allFit_nil⟩) (henumFits.mono (hB.trans hB'))
      · rintro ⟨l', rfl⟩ hfields
        exact .fields hk hfields
    next hk =>
      refine hkind ((hconst v.value sc₁ B₁).discard.bind fun _ sc₂ B₂ hB _ => .pure (henumFits.mono hB) ?_)
      rintro ⟨u, h⟩
      exact .constant hk h

theorem types_member (hconst : ∀ n, S.Infers (S.constant n) n) (property : String)
    (arrow : Bool) (ho : S.Types object) : S.Types (.member object property arrow) := by
  intro sc B
  rw [inferWith]
  refine scope_bind fun _ => ?_
  split
  next d henum => exact types_variant hconst property arrow henum
  next henum =>
    refine (ho sc B).bind fun t sc' B' _ ht => (finds_partType ht).gives.imp ?_
    rintro u _ ⟨rfl, hpart⟩ hx
    exact .member henum hx hpart

theorem types_index {position : Node} (ho : S.Types object) (hp : S.Types position) :
    S.Types (.index object position) := by
  intro sc B
  rw [inferWith]
  refine (ho sc B).bind fun t sc₁ B₁ _ ht => (hp sc₁ B₁).discard.bind fun _ sc₂ B₂ hB _ => ?_
  refine (finds_partType (ht.mono hB)).gives.imp ?_
  rintro u _ ⟨rfl, hpart⟩ ⟨p, hposition⟩ hobject
  exact .index hobject hposition hpart

theorem types_array {elems : List Node} (he : S.TypesElems elems) : S.Types (.array elems) := by
  intro sc B
  rw [inferWith]
  refine (he sc B _ valued_missing).bind fun t sc' B' _ ht => .pure (fun _ => fits_app ?_) .array
  split
  next => exact fits_primitive _
  next hm => exact ht (by simpa using hm)

theorem types_object {props : List (String × Node)} (hp : S.TypesProps props) : S.Types (.object props) := by
  intro sc B
  rw [inferWith]
  refine (hp sc B).bind fun entries sc' B' _ hentries => ?_
  rw [← bind_pure (record _ _ _)]
  refine (finds_record hentries).bind fun t B'' _ ht => .pure (fun _ => ht) ?_
  rintro ⟨l, rfl⟩ hprops
  exact .object hprops

theorem types_structLit (name : String) (ho : S.Types object) : S.Types (.structLit name object) := by
  intro sc B
  rw [inferWith]
  refine scope_bind fun _ => ?_
  split
  next => exact .throw
  next d hd =>
    cases hm : object.isMissing with
    | true =>
      have hempty : (Ty.mkRecord Ty.anonymous [] []).Fits B :=
        .record .nil (by simp) (by simp [Label.fixed])
      refine (finds_structLitType fun _ => hempty).gives.imp ?_
      rintro u _ ⟨rfl, hfits⟩
      rw [Node.eq_missing hm]
      exact .emptyStructLit hd hfits
    | false =>
      refine (ho sc B).bind fun t sc' B' _ ht => (finds_structLitType ht).gives.imp ?_
      rintro u _ ⟨rfl, hfits⟩ hobject
      exact .structLit hd hm hobject hfits

theorem types_type (e : TypeExpr) : S.Types (.type e) := by
  intro sc B
  rw [inferWith, ← bind_pure (resolve e)]
  exact (resolves_resolve e sc B).bind fun t B' _ ht => .pure (fun _ => ht) .type

/-! ## Lists of nodes -/

theorem typesLast_cons (hn : S.Types n) (hns : S.TypesLast ns) : S.TypesLast (n :: ns) := by
  intro sc B last _
  rw [inferLast]
  exact (hn sc B).bind fun t sc' B' _ ht => (hns sc' B' t ht).imp fun hrest hfirst => .cons hfirst hrest

theorem typesVars_cons (hv : S.Types v.value) (hvs : S.TypesVars vs) : S.TypesVars (v :: vs) := by
  intro sc B
  rw [inferVars]
  refine (gives_variableType v hv).discard.bind fun _ sc' B' _ _ => (hvs sc' B').imp ?_
  rintro _ _ hrest ⟨t, hfirst⟩
  exact .cons hfirst hrest

theorem typesArgs_cons (hn : S.Types n) (hns : S.TypesArgs ns) : S.TypesArgs (n :: ns) := by
  intro sc B
  rw [inferArgs]
  refine (hn sc B).bind fun t sc' B' _ ht => expectValue_bind fun hm => ?_
  exact (hns sc' B').bind fun ts _ _ hB hts => .pure (allFit_cons.2 ⟨(ht hm).mono hB, hts⟩)
    fun hrest hfirst => .cons hfirst hm hrest

theorem typesElems_cons (hn : S.Types n) (hns : S.TypesElems ns) : S.TypesElems (n :: ns) := by
  intro sc B first hfirst
  rw [inferElems]
  refine (hn sc B).bind fun t sc' B' hB ht => ?_
  have hnext : (if first.isMissing then t else first).Valued B' := by
    split
    · exact ht
    · exact hfirst.mono hB
  have hrest := hns sc' B' _ hnext
  by_cases hboth : (!first.isMissing && !t.isMissing) = true
  · rw [if_pos hboth]
    simp only [Bool.and_eq_true, Bool.not_eq_true'] at hboth
    exact equate_bind ((hfirst hboth.1).mono hB) (ht hboth.2)
      (hrest.imp fun hrest hok hnode => .cons hnode (fun _ _ => hok) hrest)
  · rw [if_neg hboth]
    exact hrest.imp fun hrest hnode => .cons hnode (fun hf hm => absurd (by rw [hf, hm]; rfl) hboth) hrest

theorem typesProps_cons {key : String} {ps : List (String × Node)} (hn : S.Types n)
    (hps : S.TypesProps ps) : S.TypesProps ((key, n) :: ps) := by
  intro sc B
  rw [inferProps]
  refine (hn sc B).bind fun t sc' B' _ ht => (hps sc' B').bind fun ts _ _ hB hts => .pure ?_ ?_
  · split
    next => exact hts
    next hm => exact entriesFit_cons (e := (key, t)) (ht (by simpa using hm)) hB hts
  · exact fun hrest hfirst => .cons hfirst hrest

/-! ## The induction -/

mutual

theorem types_node (hconst : ∀ n, S.Infers (S.constant n) n) : ∀ n : Node, S.Types n
  | .missing => types_pure (by rw [inferWith]) (fun _ => valued_missing) fun _ _ _ => .missing
  | .program body => types_program (types_last hconst body)
  | .block body => types_block (types_last hconst body)
  | .exprStmt expr => types_exprStmt (types_node hconst expr)
  | .ifElse cond yes no => types_ifElse (types_node hconst cond) (types_node hconst yes) (types_node hconst no)
  | .whileLoop cond body => types_whileLoop (types_node hconst cond) (types_node hconst body)
  | .forLoop init cond step body =>
    types_forLoop (types_node hconst init) (types_node hconst cond) (types_node hconst step) (types_node hconst body)
  | .returns value => types_returns (types_node hconst value)
  | .breaks => types_pure (by rw [inferWith]) (fun _ => valued_missing) fun _ _ _ => .breaks
  | .continues => types_pure (by rw [inferWith]) (fun _ => valued_missing) fun _ _ _ => .continues
  | .lets vars => types_lets (types_vars hconst vars)
  | .var ⟨_, _, value, _⟩ => types_var (types_node hconst value)
  | .func name sig body => types_func name sig (types_node hconst body)
  | .lambda sig body => types_lambda sig (types_node hconst body)
  | .structDecl d => types_structDecl d
  | .enumDecl d => types_enumDecl d
  | .number _ _ => types_pure (by rw [inferWith]) (fun _ _ => fits_primitive _) fun _ _ _ => .number
  | .string _ => types_pure (by rw [inferWith]) (fun _ _ => fits_primitive _) fun _ _ _ => .string
  | .bool _ => types_pure (by rw [inferWith]) (fun _ _ => fits_boolean) fun _ _ _ => .bool
  | .ident name => types_ident name
  | .binary op left right => types_binary op (types_node hconst left) (types_node hconst right)
  | .logical op left right => types_logical op (types_node hconst left) (types_node hconst right)
  | .unary op x => types_unary op (types_node hconst x)
  | .update op x before => types_update op before (types_node hconst x)
  | .assign op target value => types_assign op (types_node hconst target) (types_node hconst value)
  | .ternary cond yes no => types_ternary (types_node hconst cond) (types_node hconst yes) (types_node hconst no)
  | .sequence exprs => types_sequence (types_last hconst exprs)
  | .call callee args => types_call (types_node hconst callee) (types_args hconst args)
  | .await expr => by
    cases expr with
    | call callee args => exact types_awaitCall (types_node hconst callee) (types_args hconst args)
    | _ => exact types_await (by simp) (types_node hconst _)
  | .member object property arrow => types_member hconst property arrow (types_node hconst object)
  | .index object position => types_index (types_node hconst object) (types_node hconst position)
  | .array elems => types_array (types_elems hconst elems)
  | .object props => types_object (types_props hconst props)
  | .structLit name object => types_structLit name (types_node hconst object)
  | .type e => types_type e

theorem types_last (hconst : ∀ n, S.Infers (S.constant n) n) : ∀ ns : List Node, S.TypesLast ns
  | [] => fun _ _ _ hlast => .pure hlast .nil
  | n :: ns => typesLast_cons (types_node hconst n) (types_last hconst ns)

theorem types_vars (hconst : ∀ n, S.Infers (S.constant n) n) : ∀ vs : List Variable, S.TypesVars vs
  | [] => fun _ _ => .pure trivial .nil
  | ⟨_, _, value, _⟩ :: vs => typesVars_cons (types_node hconst value) (types_vars hconst vs)

theorem types_args (hconst : ∀ n, S.Infers (S.constant n) n) : ∀ ns : List Node, S.TypesArgs ns
  | [] => fun _ _ => .pure allFit_nil .nil
  | n :: ns => typesArgs_cons (types_node hconst n) (types_args hconst ns)

theorem types_elems (hconst : ∀ n, S.Infers (S.constant n) n) : ∀ ns : List Node, S.TypesElems ns
  | [] => fun _ _ _ hfirst => .pure hfirst .nil
  | n :: ns => typesElems_cons (types_node hconst n) (types_elems hconst ns)

theorem types_props (hconst : ∀ n, S.Infers (S.constant n) n) : ∀ ps : List (String × Node), S.TypesProps ps
  | [] => fun _ _ => .pure (by simp [EntriesFit]) .nil
  | (_, n) :: ps => typesProps_cons (types_node hconst n) (types_props hconst ps)

end

end

theorem gives_inferDepth (depth : Nat) (n : Node) (sc : Scope) (B : List (Dict Ty)) :
    Gives ok prims sc B (inferDepth depth n) (fun _ => Ty.Valued) (Typed ok prims sc n) := by
  induction depth generalizing n sc B with
  | zero => exact types_node (S := ⟨ok, prims, _⟩) (fun _ _ _ => .throw) n sc B
  | succ depth ih => exact types_node (S := ⟨ok, prims, _⟩) ih n sc B

/-- A run of inference finds a type that the rules give to the node, if what it asked for is `ok`. -/
theorem infer_typed (n : Node) (h : σ.Sound) (hx : Ran (infer n) σ t σ') : σ.Later σ' ∧ t.Valued σ'.tails ∧
      ∀ ok prims, σ'.Meets ok prims → Typed ok prims σ.scope n t σ'.scope := by
  obtain ⟨hlater, hv, -⟩ := @gives_inferDepth (fun _ _ => True) _ _ n _ _ _ _ _ h.at hx
  refine ⟨hlater, hv, fun ok prims hok => ?_⟩
  have hat : σ.At prims σ.scope σ.tails := ⟨h, (hlater.meets hok).1, rfl, rfl⟩
  exact (gives_inferDepth _ n _ _ _ _ _ hat hx).2.2 hok

end Infer

end ScriptTyping
