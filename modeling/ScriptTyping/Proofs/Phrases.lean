import ScriptTyping.Proofs.TypeGrammar

/-!
# Phrases

The trees that the parser gives. Not every tree can be read from a text: names are identifiers, an
operator is one of those of its place, a target can be assigned to, the body of a function is a block.
`Phrase` says this of expressions and of statements.

Main statements: the tokens of a text have the data that their kind allows (`tokenize_lexed`), and the
program that is read from a text consists of phrases (`phrases_of_parseProgram`). An `else` belongs to the
last `if` that can have one, so a statement that is open to an `else` never comes before one; this is
the only thing that a production has to know about what comes behind it.
-/

namespace ScriptTyping

open Parser List Cursor TypeParam ParamPart

/-! ## Words -/

/-- An identifier that is no keyword. -/
structure IsName (s : String) : Prop where
  shape : ∃ c cs, s.toList = c :: cs ∧ Text.isIdentStart c ∧ ∀ d ∈ cs, Text.isIdentContinue d
  free : Keyword.ofSpelling? s = none

theorem IsName.ne_empty {s : String} (h : IsName s) : s ≠ "" := by
  rintro rfl
  obtain ⟨⟨c, cs, hnil, -⟩, -⟩ := h
  cases hnil

/-- Digits, and a fraction behind them if there is one. -/
def IsNumeral (s : String) : Prop :=
  ∃ whole fraction, s.toList = whole ++ fraction ∧ whole ≠ [] ∧ (∀ c ∈ whole, isDecimal c) ∧
    (fraction = [] ∨ ∃ ds, fraction = '.' :: ds ∧ ds ≠ [] ∧ ∀ c ∈ ds, isDecimal c)

/-- A token has data that its kind allows. -/
def Token.Lexed (t : Token) : Prop :=
  match t.kind with
  | .ident => IsName t.data
  | .number => IsNumeral t.data
  | .string => True
  | _ => t.data = ""

theorem lexed_word {c : Char} (h : Text.isIdentStart c) (p : Pos) (cs : List Char) :
    (word p (c :: cs)).1.Lexed := by
  have hcont := Text.isIdentContinue_of_isIdentStart h
  simp only [word]
  split
  next => rfl
  next hfree =>
    refine ⟨⟨c, cs.takeWhile Text.isIdentContinue, ?_, h, fun d hd => ?_⟩, hfree⟩
    · simp [accept, hcont]
    · exact all_eq_true.1 all_takeWhile d hd

theorem isNumeral_scanNumber {c : Char} (h : isDecimal c) (cs : List Char) :
    IsNumeral (String.ofList (scanNumber (c :: cs)).data) := by
  -- The marks between digits are left out, and the first character is none of them.
  have hwhole : ((c :: cs).takeWhile fun c => isDecimal c || c == '_').filter (· != '_') ≠ [] := by
    have hc : c ≠ '_' := by
      rintro rfl
      exact absurd h (by decide)
    simp [h, hc]
  have hdigits : ∀ d ∈ ((c :: cs).takeWhile fun c => isDecimal c || c == '_').filter (· != '_'),
      isDecimal d := by
    intro d hd
    obtain ⟨hd, hne⟩ := mem_filter.1 hd
    simpa [bne_iff_ne.1 hne] using all_eq_true.1 all_takeWhile d hd
  unfold scanNumber
  split
  next d rest _ =>
    split
    next hd =>
      refine ⟨_, _, String.toList_ofList, hwhole, hdigits, .inr ⟨_, rfl, by simp [hd], fun e he => ?_⟩⟩
      exact all_eq_true.1 all_takeWhile e he
    next => exact ⟨_, [], by simp, hwhole, hdigits, .inl rfl⟩
  next => exact ⟨_, [], by simp, hwhole, hdigits, .inl rfl⟩

theorem lexed_string (p : Pos) (c : Char) (cs : List Char)
    (h : (string p c cs).1.kind ≠ .illegal) : (string p c cs).1.Lexed := by
  simp only [string] at h ⊢
  split
  next => exact trivial
  next heq => simp [heq] at h

theorem lexed_symbol (p : Pos) (c : Char) (cs : List Char)
    (h : (symbol p c cs).1.kind ≠ .illegal) : (symbol p c cs).1.Lexed := by
  simp only [symbol] at h ⊢
  split
  next => rfl
  next heq => simp [heq] at h

theorem lexed_token {p : Pos} {cs : List Char} (h : (token p cs).1.kind ≠ .illegal) :
    (token p cs).1.Lexed := by
  cases cs with
  | nil => rfl
  | cons c cs =>
    simp only [token] at h ⊢
    split
    next hc => exact lexed_word hc p cs
    next hc =>
      rw [if_neg hc] at h
      split
      next hc => exact isNumeral_scanNumber hc cs
      next hc =>
        rw [if_neg hc] at h
        split
        next hc => exact lexed_string p c cs (by rwa [if_pos hc] at h)
        next hc => exact lexed_symbol p c cs (by rwa [if_neg hc] at h)

theorem lexed_next {c : Cursor} (h : c.next.1.kind ≠ .illegal) : c.next.1.Lexed := by
  simp only [Cursor.next] at h ⊢
  split
  next heq => simp [heq] at h
  next heq =>
    rw [heq] at h
    exact lexed_token h

/-- The tokens of a text, of which the last is its end. -/
theorem Cursor.tokenize_lexed {c : Cursor} {ts : List Token} (h : c.tokenize = .ok ts) :
    (∀ t ∈ ts, t.Lexed) ∧ ∃ front last, ts = front ++ [last] ∧ last.kind = .eof := by
  fun_induction tokenize c generalizing ts
  next => simp at h
  next hlegal heof =>
    obtain rfl := Except.ok.inj h
    exact ⟨by simpa using lexed_next hlegal, [], _, rfl, heof⟩
  next c _ hlegal _ ih =>
    cases hrest : tokenize c.next.2 with
    | error e => simp [hrest, Except.map] at h
    | ok us =>
      rw [hrest] at h
      obtain rfl := Except.ok.inj h
      obtain ⟨hus, front, last, rfl, hlast⟩ := ih hrest
      refine ⟨?_, c.next.1 :: front, last, rfl, hlast⟩
      exact forall_mem_cons.2 ⟨lexed_next hlegal, hus⟩

/-- Tokens that all have data of their kind, up to an end of text. -/
def lexed : Ending where
  holds s := s.Ended ∧ ∀ t ∈ s.current :: s.rest, t.Lexed
  next {s} h hk := by
    refine ⟨(h.1.next hk).1, fun t ht => h.2 t ?_⟩
    unfold Stream.next at ht
    split at ht
    next => exact ht
    next hrest =>
      rw [hrest]
      exact mem_cons_of_mem _ ht
  halve {s} h hk := by
    refine ⟨(h.1.halve hk).1, forall_mem_cons.2 ⟨?_, fun t ht => h.2 t (mem_cons_of_mem _ ht)⟩⟩
    have hdata := h.2 s.current (by simp)
    unfold Token.Lexed at hdata
    rw [hk] at hdata
    exact hdata
  ended h := h.1

/-! ## Types -/

def TypeParam.Written (p : TypeParam) : Prop := IsName p.name ∧ ∀ b ∈ p.bounds, IsName b

/-- A type that is written with names. A parameter of a function type can do without one. -/
inductive TypeExpr.Written : TypeExpr → Prop
  | named {name} (h : IsName name) : Written (.named name)
  | array {t} (h : Written t) : Written (.array t)
  | map {t u} (ht : Written t) (hu : Written u) : Written (.map t u)
  | promise {t} (h : Written t) : Written (.promise t)
  | func {ps t} (hnames : ∀ p ∈ ps, p.name = "" ∨ IsName p.name) (hps : ∀ p ∈ ps, Written p.ann) (h : Written t) :
    Written (.func ps t)
  | structRef {name ts} (h : IsName name) (hts : ∀ t ∈ ts, Written t) : Written (.structRef name ts)
  | enumRef {name ts} (h : IsName name) (hts : ∀ t ∈ ts, Written t) : Written (.enumRef name ts)
  | generic {ps t} (hne : ps ≠ []) (hps : ∀ p ∈ ps, p.Written) (h : Written t) : Written (.generic ps t)

/-- A type that can be left out. -/
def TypeExpr.Optional (t : TypeExpr) : Prop := t = .missing ∨ t.Written

theorem TypeExpr.Written.isMissing {t : TypeExpr} (h : t.Written) : t.isMissing = false := by
  cases h <;> rfl

theorem TypeParam.written_of_terminals {ps : List TypeParam}
    (h : ∀ n, .name n ∈ terminalsAll ps → IsName n) {p : TypeParam} (hp : p ∈ ps) : p.Written := by
  have hsub : p.terminals.Subset (terminalsAll ps) :=
    (sublist_intercalate (mem_map_of_mem hp)).subset
  refine ⟨h _ (hsub (by simp [terminals])), fun b hb => h b (hsub ?_)⟩
  have hne : p.bounds ≠ [] := ne_nil_of_mem hb
  have hbounds : .name b ∈ [Terminal.symbol .plus].intercalate (p.bounds.map fun b => [.name b]) :=
    (sublist_intercalate (mem_map_of_mem hb)).subset (by simp)
  simp [terminals, hne, hbounds]

theorem mem_angledTerminals {parts : List (TypeExpr × List Terminal)} {q : TypeExpr × List Terminal}
    (hq : q ∈ parts) {k : Terminal} (hk : k ∈ q.2) : k ∈ angledTerminals parts := by
  have hmem : k ∈ [Terminal.symbol .comma].intercalate (parts.map Prod.snd) :=
    (sublist_intercalate (mem_map_of_mem hq)).subset hk
  simp [angledTerminals, ne_nil_of_mem hq, hmem]

/-- A type that is derived by terminals whose names are names is written with names. -/
theorem Derives.written {t : TypeExpr} {ks : List Terminal} (h : Derives t ks)
    (hnames : ∀ n, .name n ∈ ks → IsName n) : t.Written := by
  induction h with
  | named => exact .named (hnames _ (by simp))
  | array _ ih => exact .array (ih fun n hn => hnames n (by simp [hn]))
  | promise _ ih => exact .promise (ih fun n hn => hnames n (by simp [hn]))
  | map _ _ iht ihu =>
    exact .map (iht fun n hn => hnames n (by simp [hn])) (ihu fun n hn => hnames n (by simp [hn]))
  | generic hne _ ih =>
    refine .generic hne (fun p hp => written_of_terminals (fun n hn => hnames n ?_) hp)
      (ih fun n hn => hnames n (by simp [hn]))
    simp [hn]
  | @func parts _ _ _ _ ihparts ih =>
    have hpart {p : ParamPart} (hp : p ∈ parts) {n : String} (hn : .name n ∈ p.terminals) : IsName n := by
      have hmem : .name n ∈ [Terminal.symbol .comma].intercalate (parts.map ParamPart.terminals) :=
        (sublist_intercalate (mem_map_of_mem hp)).subset hn
      exact hnames n (by simp [hmem])
    refine .func ?_ ?_ (ih fun n hn => hnames n (by simp [hn]))
    · intro q hq
      obtain ⟨p, hp, rfl⟩ := mem_map.1 hq
      cases hname : p.name with
      | none => exact .inl (by simp [param, hname])
      | some n =>
        refine .inr ?_
        simpa [ParamPart.param, hname] using hpart hp (n := n) (by simp [ParamPart.terminals, hname])
    · intro q hq
      obtain ⟨p, hp, rfl⟩ := mem_map.1 hq
      exact ihparts p hp fun n hn => hpart hp (by simp [ParamPart.terminals, hn])
  | @structRef name parts _ ih =>
    refine .structRef (hnames _ (by simp)) (forall_mem_map.2 fun q hq => ?_)
    exact ih q hq fun n hn => hnames n (mem_append_right _ (mem_angledTerminals hq hn))
  | @enumRef name parts _ ih =>
    refine .enumRef (hnames _ (by simp)) (forall_mem_map.2 fun q hq => ?_)
    exact ih q hq fun n hn => hnames n (mem_append_right _ (mem_angledTerminals hq hn))

section Lexed

variable {s : Stream}

/-- The names among the terminals of a stream are names. -/
theorem isName_of_mem_terminals (h : lexed.holds s) {n : String} (hn : .name n ∈ s.terminals) : IsName n := by
  obtain ⟨t, ht, hmem⟩ := mem_flatMap.1 hn
  have hlexed := h.2 t ((dropLast_sublist _).subset ht)
  unfold Token.terminals at hmem
  split at hmem
  next => simp at hmem
  next hk =>
    obtain rfl : n = t.data := by simpa using hmem
    simpa [Token.Lexed, hk] using hlexed
  next hident => exact (hident (congrArg Terminal.kind (mem_singleton.1 hmem)).symm).elim

/-- What a run takes from lexed tokens has names for its names. -/
theorem Spans.isName {α : Type} {p : Parser α} {Q : α → List Terminal → Prop} (h : Spans lexed s p Q) :
    Ensures lexed.toInvariant s p fun a _ => ∃ ks, Q a ks ∧ ∀ n, .name n ∈ ks → IsName n := by
  refine .assume fun hs => h.mono ?_
  rintro a s' ⟨ks, hks, hQ⟩
  exact ⟨ks, hQ, fun n hn => isName_of_mem_terminals hs (hks ▸ mem_append_left _ hn)⟩

theorem isName_current (h : lexed.holds s) (hk : s.current.kind = .ident) : IsName s.current.data := by
  simpa [Token.Lexed, hk] using h.2 s.current (by simp)

theorem isNumeral_current (h : lexed.holds s) (hk : s.current.kind = .number) : IsNumeral s.current.data := by
  simpa [Token.Lexed, hk] using h.2 s.current (by simp)

/-- A symbol is kept as it is spelled. -/
theorem text_current (h : lexed.holds s) {c : Symbol} (hk : s.current.kind = .symbol c) :
    s.current.text = c.spelling := by
  have hdata : s.current.data = "" := by simpa [Token.Lexed, hk] using h.2 s.current (by simp)
  simp [Token.text, hdata, hk]

end Lexed

/-! ## Trees -/

/-- A number, a string or a truth value. -/
inductive Literal : Node → Prop
  | number {raw} (h : IsNumeral raw) : Literal (.number raw (raw.toList.contains '.'))
  | string {value} : Literal (.string value)
  | bool {value} : Literal (.bool value)

def Field.Written (f : Field) : Prop := IsName f.name ∧ f.ann.Optional

structure Signature.Written (sig : Signature) : Prop where
  tparams : ∀ p ∈ sig.tparams, p.Written
  params : ∀ p ∈ sig.params, IsName p.name ∧ p.ann.Optional
  ret : sig.ret.Optional

/-- A variable that is not yet numbered. Its value is left to `Phrase`. -/
def VariableOf.Written (v : Variable) : Prop := IsName v.name ∧ v.ann.Optional ∧ v.slot = 0

/-- A variant of an enum, of which only the parts of its kind are there. -/
inductive VariantOf.Written : Variant → Prop
  | unit {name} (h : IsName name) : Written ⟨name, .unit, [], [], .missing⟩
  | tuple {name ts} (h : IsName name) (hne : ts ≠ []) (hts : ∀ t ∈ ts, t.Written) :
    Written ⟨name, .tuple, ts, [], .missing⟩
  | fields {name fs} (h : IsName name) (hfs : ∀ f ∈ fs, f.Written) : Written ⟨name, .fields, [], fs, .missing⟩
  | constant {name value} (h : IsName name) (hvalue : Literal value) : Written ⟨name, .constant, [], [], value⟩

/-- Whether an `else` behind a statement would belong to it. -/
def Node.takesElse : Node → Bool
  | .ifElse _ _ no => no.isMissing || no.takesElse
  | .whileLoop _ body => body.takesElse
  | .forLoop _ _ _ body => body.takesElse
  | _ => false

/-- What a part of a program is. -/
inductive Category where
  | expr
  | stmt

/-- The trees that are read from texts. A part that can be left out is either missing or a phrase. -/
inductive Phrase : Category → Node → Prop
  -- Expressions
  | literal {x} (h : Literal x) : Phrase .expr x
  | ident {name} (h : IsName name) : Phrase .expr (.ident name)
  | binary {c : Symbol} {x y} (hc : c.precedence ≠ 0) (hand : c ≠ .ampAmp) (hor : c ≠ .barBar)
    (hx : Phrase .expr x) (hy : Phrase .expr y) : Phrase .expr (.binary c.spelling x y)
  | logical {c : Symbol} {x y} (hc : c = .ampAmp ∨ c = .barBar) (hx : Phrase .expr x) (hy : Phrase .expr y) :
    Phrase .expr (.logical c.spelling x y)
  | unary {c : Symbol} {x} (hc : c = .bang ∨ c = .minus ∨ c = .plus ∨ c = .tilde) (hx : Phrase .expr x) :
    Phrase .expr (.unary c.spelling x)
  | update {c : Symbol} {x before} (hc : c = .increment ∨ c = .decrement) (hx : Phrase .expr x) :
    Phrase .expr (.update c.spelling x before)
  | assign {c : Symbol} {x y} (hc : c.isAssignment) (htarget : Grammar.isTarget x) (hx : Phrase .expr x)
    (hy : Phrase .expr y) : Phrase .expr (.assign c.spelling x y)
  | ternary {x y z} (hx : Phrase .expr x) (hy : Phrase .expr y) (hz : Phrase .expr z) :
    Phrase .expr (.ternary x y z)
  | sequence {x xs} (hx : Phrase .expr x) (hne : xs ≠ []) (hxs : ∀ y ∈ xs, Phrase .expr y) :
    Phrase .expr (.sequence (x :: xs))
  | call {x xs} (hx : Phrase .expr x) (hxs : ∀ y ∈ xs, Phrase .expr y) : Phrase .expr (.call x xs)
  | await {x} (hx : Phrase .expr x) : Phrase .expr (.await x)
  | member {x name arrow} (hx : Phrase .expr x) (h : IsName name) : Phrase .expr (.member x name arrow)
  | index {x y} (hx : Phrase .expr x) (hy : Phrase .expr y) : Phrase .expr (.index x y)
  | array {xs} (hxs : ∀ y ∈ xs, Phrase .expr y) : Phrase .expr (.array xs)
  | object {ps} (hps : ∀ q ∈ ps, Phrase .expr q.2) : Phrase .expr (.object ps)
  | structLit {name ps} (h : IsName name) (hps : ∀ q ∈ ps, Phrase .expr q.2) :
    Phrase .expr (.structLit name (.object ps))
  | lambda {sig : Signature} {body} (hsig : sig.Written) (hbody : ∀ x ∈ body, Phrase .stmt x) :
    Phrase .expr (.lambda sig (.block body))
  -- Statements
  | exprStmt {x} (hx : Phrase .expr x) : Phrase .stmt (.exprStmt x)
  | block {body} (hbody : ∀ x ∈ body, Phrase .stmt x) : Phrase .stmt (.block body)
  | ifElse {x y z} (hx : Phrase .expr x) (hy : Phrase .stmt y) (hz : z ≠ .missing → Phrase .stmt z)
    (helse : z ≠ .missing → y.takesElse = false) : Phrase .stmt (.ifElse x y z)
  | whileLoop {x y} (hx : Phrase .expr x) (hy : Phrase .stmt y) : Phrase .stmt (.whileLoop x y)
  | forLoop {init x y body} (hinit : init ≠ .missing → Phrase .expr init) (hx : x ≠ .missing → Phrase .expr x)
    (hy : y ≠ .missing → Phrase .expr y) (hbody : Phrase .stmt body) : Phrase .stmt (.forLoop init x y body)
  | forLet {vars x y body} (hne : vars ≠ []) (hvars : ∀ v ∈ vars, v.Written)
    (hvalues : ∀ v ∈ vars, v.value ≠ .missing → Phrase .expr v.value) (hx : x ≠ .missing → Phrase .expr x)
    (hy : y ≠ .missing → Phrase .expr y) (hbody : Phrase .stmt body) :
    Phrase .stmt (.forLoop (.lets vars) x y body)
  | returns {x} (hx : x ≠ .missing → Phrase .expr x) : Phrase .stmt (.returns x)
  | breaks : Phrase .stmt .breaks
  | continues : Phrase .stmt .continues
  | lets {vars} (hne : vars ≠ []) (hvars : ∀ v ∈ vars, v.Written)
    (hvalues : ∀ v ∈ vars, v.value ≠ .missing → Phrase .expr v.value) : Phrase .stmt (.lets vars)
  | func {name} {sig : Signature} {body} (h : IsName name) (hsig : sig.Written)
    (hbody : ∀ x ∈ body, Phrase .stmt x) : Phrase .stmt (.func name sig (.block body))
  | structDecl {name ps fs} (h : IsName name) (hps : ∀ p ∈ ps, p.Written) (hfs : ∀ f ∈ fs, f.Written) :
    Phrase .stmt (.structDecl ⟨name, ps, fs⟩)
  | enumDecl {name ps vs} (h : IsName name) (hps : ∀ p ∈ ps, p.Written) (hvs : ∀ v ∈ vs, v.Written) :
    Phrase .stmt (.enumDecl ⟨name, ps, vs⟩)

theorem Phrase.ne_missing {c : Category} {x : Node} (h : Phrase c x) : x ≠ .missing := by
  rintro rfl
  obtain ⟨⟨⟩⟩ := h

theorem Node.isMissing_iff {x : Node} : x.isMissing = true ↔ x = .missing := by
  cases x <;> simp [Node.isMissing]

theorem Node.isMissing_of_ne {x : Node} (h : x ≠ .missing) : x.isMissing = false :=
  Bool.eq_false_iff.2 (mt Node.isMissing_iff.1 h)

/-! ## Productions -/

/-- From lexed tokens, the parser gives what `P` allows. -/
abbrev Yields {α : Type} (s : Stream) (p : Parser α) (P : α → Prop) : Prop :=
  Ensures lexed.toInvariant s p fun a _ => P a

/-- From lexed tokens, the parser gives a statement, and no `else` that belongs to it is left. -/
abbrev YieldsStmt (s : Stream) (p : Parser Node) : Prop :=
  Ensures lexed.toInvariant s p fun x t =>
    Phrase .stmt x ∧ (x.takesElse → t.current.kind ≠ .keyword .kElse)

namespace Grammar

/-- The productions give phrases. -/
structure Sound (g : Grammar) : Prop where
  stmt (s : Stream) : YieldsStmt s g.stmt
  expr (s : Stream) : Yields s g.expr (Phrase .expr)
  assign (s : Stream) : Yields s g.assign (Phrase .expr)
  ternary (s : Stream) : Yields s g.ternary (Phrase .expr)
  binary (least : Nat) (s : Stream) : Yields s (g.binary least) (Phrase .expr)
  unary (s : Stream) : Yields s g.unary (Phrase .expr)
  type (s : Stream) : Yields s g.type TypeExpr.Written

variable {g : Grammar} {s : Stream}

theorem yields_ident {context : String} : Yields s (expectIdent context) IsName :=
  .assume fun hs => .expectIdent fun hk => isName_current hs hk

/-! ### Types and signatures -/

theorem yields_typeParams : Yields s typeParams fun ps => ∀ p ∈ ps, p.Written := by
  refine (spans_typeParams.isName).mono ?_
  rintro ps t ⟨_, ⟨-, rfl⟩, hnames⟩ p hp
  exact written_of_terminals hnames hp

theorem yields_optTypeParams : Yields s optTypeParams fun ps => ∀ p ∈ ps, p.Written := by
  refine .bind (.got_any nofun) fun b s _ => ?_
  split
  next => exact .bind yields_typeParams fun ps s hps => .bind .expectCloseAngle_any fun _ s _ => .pure hps
  next => exact .pure (by simp)

variable (hg : g.Sound)
include hg

theorem yields_annotated : Yields s g.annotation TypeExpr.Optional := by
  refine .bind (.got_any nofun) fun b s _ => ?_
  split
  next => exact (hg.type s).mono fun t _ ht => .inr ht
  next => exact .pure (.inl rfl)

theorem yields_params : Yields s (g.params false) fun ps => ∀ p ∈ ps, IsName p.name ∧ p.ann.Optional := by
  refine .kind ?_
  split
  next => exact .pure (by simp)
  next =>
    refine (Ensures.sepBy fun s => ?_).mono fun ps _ h => h.2
    refine .bind (.got_any nofun) fun v s _ => .kind (.peekKind ?_)
    simp only [Bool.false_eq_true, false_and, if_false]
    exact .bind yields_ident fun n s hn => .bind (yields_annotated hg) fun t s ht => .pure ⟨hn, ht⟩

theorem yields_signature {async : Bool} : Yields s (g.signature async) Signature.Written := by
  refine .bind yields_optTypeParams fun tps s htps => .bind (.expect_any nofun) fun _ s _ => ?_
  refine .bind (yields_params hg) fun ps s hps => .bind (.expect_any nofun) fun _ s _ => ?_
  exact .bind (yields_annotated hg) fun t s ht => .pure ⟨htps, hps, ht⟩

theorem yields_block : Yields s g.block fun x => ∃ body, x = .block body ∧ ∀ y ∈ body, Phrase .stmt y := by
  refine .bind (.expect_any nofun) fun _ s _ => ?_
  refine .bind (.manyUntil fun s => (hg.stmt s).mono fun x _ h => h.1) fun body s hbody => ?_
  exact .bind (.expect_any nofun) fun _ s _ => .pure ⟨body, rfl, hbody⟩

theorem yields_lambda {async : Bool} : Yields s (g.lambda async) (Phrase .expr) := by
  refine .bind (.expect_any nofun) fun _ s _ => .bind (yields_signature hg) fun sig s hsig => ?_
  refine .bind (yields_block hg) ?_
  rintro _ s ⟨body, rfl, hbody⟩
  exact .pure (.lambda hsig hbody)

/-! ### Expressions -/

omit hg in
theorem yields_literal : Yields s literal Literal := by
  refine .assume fun hs => .current ?_
  split
  next hk =>
    refine .bind (.advance_any (hk ▸ nofun)) fun _ s _ => .pure ?_
    exact .number (isNumeral_current hs hk)
  next hk => exact .bind (.advance_any (hk ▸ nofun)) fun _ s _ => .pure .string
  next hk => exact .bind (.advance_any (hk ▸ nofun)) fun _ s _ => .pure .bool
  next hk => exact .bind (.advance_any (hk ▸ nofun)) fun _ s _ => .pure .bool
  next => exact .fail

theorem yields_arrayLit : Yields s g.arrayLit (Phrase .expr) := by
  refine .bind (.expect_any nofun) fun _ s _ => .bind (.commaUntil hg.ternary) fun xs s hxs => ?_
  exact .bind (.expect_any nofun) fun _ s _ => .pure (.array hxs)

theorem yields_property : Yields s g.property fun q => Phrase .expr q.2 := by
  refine .current ?_
  split
  next hk =>
    refine .bind (.advance_any (hk ▸ nofun)) fun _ s _ => .bind (.expect_any nofun) fun _ s _ => ?_
    exact .bind (hg.assign s) fun x s hx => .pure hx
  next hk =>
    refine .bind (.advance_any (hk ▸ nofun)) fun _ s _ => .bind (.expect_any nofun) fun _ s _ => ?_
    exact .bind (hg.assign s) fun x s hx => .pure hx
  next => exact .fail

theorem yields_objectLit : Yields s g.objectLit fun x =>
    ∃ ps, x = .object ps ∧ ∀ q ∈ ps, Phrase .expr q.2 := by
  refine .bind (.expect_any nofun) fun _ s _ => ?_
  refine .bind (.commaUntil fun s => yields_property hg) fun ps s hps => ?_
  exact .bind (.expect_any nofun) fun _ s _ => .pure ⟨ps, rfl, hps⟩

theorem yields_primary : Yields s g.primary (Phrase .expr) := by
  refine .assume fun hs => .current ?_
  split
  iterate 4 next => exact yields_literal.mono fun x _ h => .literal h
  next => exact yields_arrayLit hg
  next =>
    refine (yields_objectLit hg).mono ?_
    rintro _ s ⟨ps, rfl, hps⟩
    exact .object hps
  next => exact yields_lambda hg
  next hk => exact .bind (.advance_any (hk ▸ nofun)) fun _ s _ => yields_lambda hg
  next hk =>
    have hname := isName_current hs hk
    refine .bind (.advance_any (hk ▸ nofun)) fun _ s _ => .kind ?_
    split
    next =>
      refine .bind (yields_objectLit hg) ?_
      rintro _ s ⟨ps, rfl, h⟩
      exact .pure (.structLit hname h)
    next => exact .pure (.ident hname)
  next hk =>
    refine .bind (.advance_any (hk ▸ nofun)) fun _ s _ => .bind (hg.expr s) fun x s hx => ?_
    exact .bind (.expect_any nofun) fun _ s _ => .pure hx
  next => exact .unexpected

theorem yields_arguments : Yields s g.arguments fun xs => ∀ x ∈ xs, Phrase .expr x := by
  refine .kind ?_
  split
  next => exact .pure (by simp)
  next => exact (Ensures.sepBy hg.assign).mono fun xs _ h => h.2

theorem yields_postfixOps {x : Node} (hx : Phrase .expr x) : Yields s (g.postfixOps x) (Phrase .expr) := by
  refine .iterate (J := fun x _ => Phrase .expr x) (fun x s hx => .kind ?_) hx
  split
  next hk =>
    refine .bind (.advance_any (hk ▸ nofun)) fun _ s _ => .bind (hg.expr s) fun y s hy => ?_
    exact .bind (.expect_any nofun) fun _ s _ => .pure (.index hx hy)
  next hk =>
    refine .bind (.advance_any (hk ▸ nofun)) fun _ s _ => .bind (yields_arguments hg) fun ys s hys => ?_
    exact .bind (.expect_any nofun) fun _ s _ => .pure (.call hx hys)
  next hk =>
    refine .bind (.advance_any (hk ▸ nofun)) fun _ s _ => ?_
    exact .bind yields_ident fun n s hn => .pure (.member hx hn)
  next hk =>
    refine .bind (.advance_any (hk ▸ nofun)) fun _ s _ => ?_
    exact .bind yields_ident fun n s hn => .pure (.member hx hn)
  next => exact .pure hx

omit hg in
theorem yields_update {x : Node} {before : Bool} (hx : Phrase .expr x) (hs : lexed.holds s)
    (hk : s.current.kind = .symbol .increment ∨ s.current.kind = .symbol .decrement) :
    Phrase .expr (.update s.current.text x before) := by
  obtain hk | hk := hk <;> rw [text_current hs hk]
  · exact .update (.inl rfl) hx
  · exact .update (.inr rfl) hx

omit hg in
/-- An operator before its operand that does not change it. -/
theorem yields_prefixed {x : Node} (hx : Phrase .expr x) (hs : lexed.holds s)
    (hop : s.current.kind.isPrefixOp)
    (hne : ¬ (s.current.kind = .symbol .increment ∨ s.current.kind = .symbol .decrement)) :
    Phrase .expr (.unary s.current.text x) := by
  cases hk : s.current.kind with
  | symbol c =>
    rw [text_current hs hk]
    refine .unary ?_ hx
    rw [hk] at hop hne
    cases c <;> simp_all [Kind.isPrefixOp, Symbol.isPrefixOp]
  | _ => simp [hk, Kind.isPrefixOp] at hop

theorem yields_unaryExpr : Yields s g.unaryExpr (Phrase .expr) := by
  refine .assume fun hs => .current ?_
  split
  next hk =>
    refine .bind (.advance_any (hk ▸ nofun)) fun _ s _ => ?_
    exact .bind (hg.unary s) fun x s hx => .pure (.await hx)
  next =>
    split
    next hk =>
      refine .bind (.advance_any (by obtain hk | hk := hk <;> exact hk ▸ nofun)) fun _ s _ => ?_
      exact .bind (hg.unary s) fun x s hx => .pure (yields_update hx hs hk)
    next hne =>
      split
      next hop =>
        refine .bind (.advance_any fun h => by simp [h, Kind.isPrefixOp] at hop) fun _ s _ => ?_
        exact .bind (hg.unary s) fun x s hx => .pure (yields_prefixed hx hs hop hne)
      next =>
        refine .bind (yields_primary hg) fun x s hx => .bind (yields_postfixOps hg hx) fun y s hy => ?_
        refine .assume fun hs => .current ?_
        split
        next hk =>
          refine .bind (.advance_any (by obtain hk | hk := hk <;> exact hk ▸ nofun)) fun _ s _ => ?_
          exact .pure (yields_update hy hs hk)
        next => exact .pure hy

omit hg in
theorem yields_binaryNode {x y : Node} (hx : Phrase .expr x) (hy : Phrase .expr y) (hs : lexed.holds s)
    (hop : s.current.kind.isBinaryOp) : Phrase .expr (binaryNode s.current x y) := by
  cases hk : s.current.kind with
  | symbol c =>
    rw [hk] at hop
    have hc : c.precedence ≠ 0 := by simpa [Kind.isBinaryOp, Kind.precedence] using hop
    unfold binaryNode
    rw [text_current hs hk]
    simp only [hk, Kind.symbol.injEq]
    split
    next hlogical => exact .logical hlogical hx hy
    next hne => exact .binary hc (fun h => hne (.inl h)) (fun h => hne (.inr h)) hx hy
  | _ => simp [hk, Kind.isBinaryOp, Kind.precedence] at hop

theorem yields_binaryExpr {least : Nat} : Yields s (g.binaryExpr least) (Phrase .expr) := by
  refine .bind (yields_unaryExpr hg) fun x s hx => ?_
  refine .iterate (J := fun x _ => Phrase .expr x) (fun x s hx => .assume fun hs => .current ?_) hx
  split
  next hop =>
    have hne : s.current.kind ≠ .eof := fun h => by simp [h, Kind.isBinaryOp, Kind.precedence] at hop
    refine .bind (.advance_any hne) fun _ t _ => .bind (hg.binary _ t) fun y t hy => ?_
    exact .pure (yields_binaryNode hx hy hs hop.1)
  next => exact .pure hx

theorem yields_ternaryExpr : Yields s g.ternaryExpr (Phrase .expr) := by
  refine .bind (yields_binaryExpr hg) fun x s hx => .bind (.got_any nofun) fun b s _ => ?_
  split
  next =>
    refine .bind (hg.assign s) fun y s hy => .bind (.expect_any nofun) fun _ s _ => ?_
    exact .bind (hg.ternary s) fun z s hz => .pure (.ternary hx hy hz)
  next => exact .pure hx

theorem yields_assignExpr : Yields s g.assignExpr (Phrase .expr) := by
  refine .current (.bind (yields_ternaryExpr hg) fun x s hx => .assume fun hs => .current ?_)
  split
  next => exact .pure hx
  next hop =>
    split
    next => exact .bind (P := fun _ _ => False) .throw fun _ _ h => h.elim
    next htarget =>
      have hop : s.current.kind.isAssignment := by simpa using hop
      cases hk : s.current.kind with
      | symbol c =>
        rw [hk] at hop
        rw [text_current hs hk]
        refine .bind (.advance_any (hk ▸ nofun)) fun _ s _ => .bind (hg.assign s) fun y s hy => ?_
        exact .pure (.assign hop (by simpa using htarget) hx hy)
      | _ => simp [hk, Kind.isAssignment] at hop

theorem yields_sequenceExpr : Yields s g.sequenceExpr (Phrase .expr) := by
  refine .bind (yields_assignExpr hg) fun x s hx => .bind (.got_any nofun) fun b s _ => ?_
  split
  next => exact .bind (.sepBy hg.assign) fun xs s h => .pure (.sequence hx h.1 h.2)
  next => exact .pure hx

/-! ### Statements -/

omit hg in
theorem yieldsStmt_exprStmt {x : Node} (hx : Phrase .expr x) : YieldsStmt s (exprStmt x) :=
  .bind .expectSemi_any fun _ _ _ => .pure ⟨.exprStmt hx, nofun⟩

theorem yieldsStmt_funcDecl {async : Bool} : YieldsStmt s (g.funcDecl async) := by
  refine .bind (.expect_any nofun) fun _ s _ => .bind yields_ident fun n s hn => ?_
  refine .bind (yields_signature hg) fun sig s hsig => .bind (yields_block hg) ?_
  rintro _ s ⟨body, rfl, hbody⟩
  exact .pure ⟨.func hn hsig hbody, nofun⟩

theorem yields_letDecl : Yields s g.letDecl fun x => ∃ vars, x = .lets vars ∧ vars ≠ [] ∧
    ∀ v ∈ vars, v.Written ∧ (v.value ≠ .missing → Phrase .expr v.value) := by
  refine .bind (.expect_any nofun) fun _ s _ => .bind (.sepBy (R := fun v =>
    v.Written ∧ (v.value ≠ .missing → Phrase .expr v.value)) fun s => ?_)
    fun vars s h => .pure ⟨vars, rfl, h⟩
  refine .bind yields_ident fun n s hn => .bind (yields_annotated hg) fun t s ht => ?_
  refine .bind (.got_any nofun) fun b s _ => ?_
  split
  next => exact .bind (hg.assign s) fun x s hx => .pure ⟨⟨hn, ht, rfl⟩, fun _ => hx⟩
  next =>
    refine .bind (P := fun x _ => x = .missing) (.pure rfl) ?_
    rintro _ s rfl
    exact .pure ⟨⟨hn, ht, rfl⟩, fun h => (h rfl).elim⟩

theorem yields_condition {word : String} : Yields s (g.condition word) (Phrase .expr) := by
  refine .bind (.expect_any nofun) fun _ s _ => .bind (hg.expr s) fun x s hx => ?_
  exact .bind (.expect_any nofun) fun _ s _ => .pure hx

/-- Where an `else` is taken, the branch before it takes none. -/
theorem yieldsStmt_ifStmt : YieldsStmt s g.ifStmt := by
  refine .bind (.expect_any nofun) fun _ s _ => .bind (yields_condition hg) fun x s hx => ?_
  refine .bind (hg.stmt s) fun y s hy => ?_
  refine .bind (P := fun b t => if b then s.current.kind = .keyword .kElse
    else t.current.kind ≠ .keyword .kElse) (.got nofun (fun hk => hk) fun hk => hk) fun b t hb => ?_
  cases b with
  | true =>
    have helse : y.takesElse = false := by
      cases h : y.takesElse with
      | true => exact (hy.2 h hb).elim
      | false => rfl
    refine .bind (hg.stmt t) fun z t hz => .pure ⟨.ifElse hx hy.1 (fun _ => hz.1) fun _ => helse, ?_⟩
    have hmissing : z.isMissing = false :=
      Node.isMissing_of_ne hz.1.ne_missing
    simpa [Node.takesElse, hmissing] using hz.2
  | false =>
    refine .bind (P := fun z t' => z = .missing ∧ t' = t) (.pure ⟨rfl, rfl⟩) ?_
    rintro _ _ ⟨rfl, rfl⟩
    exact .pure ⟨.ifElse hx hy.1 (fun h => (h rfl).elim) fun h => (h rfl).elim, fun _ => hb⟩

theorem yieldsStmt_whileStmt : YieldsStmt s g.whileStmt := by
  refine .bind (.expect_any nofun) fun _ s _ => .bind (yields_condition hg) fun x s hx => ?_
  exact .bind (hg.stmt s) fun y s hy => .pure ⟨.whileLoop hx hy.1, hy.2⟩

/-- A clause of a loop, up to a token behind it. -/
def clause (g : Grammar) (stop : Symbol) : Parser Node := do
  if (← kind) = .symbol stop then pure .missing else g.expr

def firstClause (g : Grammar) : Parser Node := do
  match ← kind with
  | .symbol .semicolon => pure .missing
  | .keyword .kLet => g.letDecl
  | _ => g.expr

omit hg in
theorem forStmt_eq : g.forStmt = do
    let _ ← expect Keyword.kFor ""
    let _ ← expect Symbol.openParen "after 'for'"
    let init ← g.firstClause
    let _ ← expect Symbol.semicolon "after loop initializer"
    let cond ← g.clause .semicolon
    let _ ← expect Symbol.semicolon "after loop condition"
    let step ← g.clause .closeParen
    let _ ← expect Symbol.closeParen "after loop clauses"
    return .forLoop init cond step (← g.stmt) := by
  -- What stands behind an alternative can be put behind each of its cases.
  have hclause (stop : Symbol) (f : Node → Parser Node) : g.clause stop >>= f =
      kind >>= fun k => if k = .symbol stop then pure .missing >>= f else g.expr >>= f := by
    rw [clause, bind_assoc]
    refine bind_congr fun k => ?_
    split <;> rfl
  have hfirst (f : Node → Parser Node) : g.firstClause >>= f = kind >>= fun k => match k with
      | .symbol .semicolon => pure .missing >>= f
      | .keyword .kLet => g.letDecl >>= f
      | _ => g.expr >>= f := by
    rw [firstClause, bind_assoc]
    refine bind_congr fun k => ?_
    split <;> rfl
  simp only [hclause, hfirst]
  rfl

theorem yields_clause {stop : Symbol} : Yields s (g.clause stop) fun x => x ≠ .missing → Phrase .expr x := by
  refine .kind ?_
  split
  next => exact .pure fun h => (h rfl).elim
  next => exact (hg.expr s).mono fun x _ hx _ => hx

theorem yieldsStmt_forStmt : YieldsStmt s g.forStmt := by
  rw [forStmt_eq]
  refine .bind (.expect_any nofun) fun _ s _ => .bind (.expect_any nofun) fun _ s _ => ?_
  refine .bind (P := fun x _ => (x ≠ .missing → Phrase .expr x) ∨ ∃ vars, x = .lets vars ∧ vars ≠ [] ∧
    ∀ v ∈ vars, v.Written ∧ (v.value ≠ .missing → Phrase .expr v.value)) (.kind ?_) fun init s hinit => ?_
  · split
    next => exact .pure (.inl fun h => (h rfl).elim)
    next => exact (yields_letDecl hg).mono fun x _ h => .inr h
    next => exact (hg.expr s).mono fun x _ hx => .inl fun _ => hx
  refine .bind (.expect_any nofun) fun _ s _ => .bind (yields_clause hg) fun x s hx => ?_
  refine .bind (.expect_any nofun) fun _ s _ => .bind (yields_clause hg) fun y s hy => ?_
  refine .bind (.expect_any nofun) fun _ s _ => .bind (hg.stmt s) fun body s hbody => .pure ⟨?_, hbody.2⟩
  obtain hinit | ⟨vars, rfl, hne, hvars⟩ := hinit
  · exact .forLoop hinit hx hy hbody.1
  · exact .forLet hne (fun v hv => (hvars v hv).1) (fun v hv => (hvars v hv).2) hx hy hbody.1

theorem yieldsStmt_returnStmt : YieldsStmt s g.returnStmt := by
  refine .bind (.expect_any nofun) fun _ s _ => .bind (.got_any nofun) fun b s _ => ?_
  split
  next => exact .pure ⟨.returns fun h => (h rfl).elim, nofun⟩
  next =>
    refine .kind ?_
    split
    next =>
      refine .bind (P := fun x _ => x = .missing) (.pure rfl) ?_
      rintro _ s rfl
      exact .bind .expectSemi_any fun _ s _ => .pure ⟨.returns fun h => (h rfl).elim, nofun⟩
    next =>
      refine .bind (hg.expr s) fun x s hx => .bind .expectSemi_any fun _ s _ => ?_
      exact .pure ⟨.returns fun _ => hx, nofun⟩

theorem yields_fields : Yields s g.fields fun fs => ∀ f ∈ fs, f.Written :=
  .commaUntilStrict fun _ => .bind yields_ident fun _ _ hn =>
    .bind (yields_annotated hg) fun _ _ ht => .pure ⟨hn, ht⟩

theorem yieldsStmt_structStmt : YieldsStmt s g.structStmt := by
  refine .bind (.expect_any nofun) fun _ s _ => .bind yields_ident fun n s hn => ?_
  refine .bind yields_optTypeParams fun ps s hps => .bind (.expect_any nofun) fun _ s _ => ?_
  refine .bind (yields_fields hg) fun fs s hfs => .bind (.expect_any nofun) fun _ s _ => ?_
  exact .bind (.got_any nofun) fun _ s _ => .pure ⟨.structDecl hn hps hfs, nofun⟩

theorem yields_variant : Yields s g.variant VariantOf.Written := by
  refine .bind yields_ident fun n s hn => .bind (.got_any nofun) fun b s _ => ?_
  split
  next =>
    refine .bind (yields_fields hg) fun fs s hfs => .bind (.expect_any nofun) fun _ s _ => ?_
    exact .pure (.fields hn hfs)
  next =>
    refine .bind (.got_any nofun) fun b s _ => ?_
    split
    next =>
      refine .bind (.sepBy hg.type) fun ts s hts => .bind (.expect_any nofun) fun _ s _ => ?_
      exact .pure (.tuple hn hts.1 hts.2)
    next =>
      refine .bind (.got_any nofun) fun b s _ => ?_
      split
      next => exact .bind yields_literal fun x s hx => .pure (.constant hn hx)
      next => exact .pure (.unit hn)

theorem yieldsStmt_enumStmt : YieldsStmt s g.enumStmt := by
  refine .bind (.expect_any nofun) fun _ s _ => .bind yields_ident fun n s hn => ?_
  refine .bind yields_optTypeParams fun ps s hps => .bind (.expect_any nofun) fun _ s _ => ?_
  refine .bind (.commaUntilStrict fun s => yields_variant hg) fun vs s hvs => ?_
  refine .bind (.expect_any nofun) fun _ s _ => .bind (.got_any nofun) fun _ s _ => ?_
  exact .pure ⟨.enumDecl hn hps hvs, nofun⟩

theorem yieldsStmt_statement : YieldsStmt s g.statement := by
  have hexpr (s : Stream) : YieldsStmt s (g.sequenceExpr >>= exprStmt) :=
    .bind (yields_sequenceExpr hg) fun x s hx => yieldsStmt_exprStmt hx
  refine .kind ?_
  split
  next =>
    refine .peekKind ?_
    split
    next => exact yieldsStmt_funcDecl hg
    next => exact hexpr s
  next hk =>
    refine .peekKind ?_
    split
    next =>
      refine .bind (.advance_any (hk ▸ nofun)) fun _ s _ => .peekKind ?_
      split
      next => exact yieldsStmt_funcDecl hg
      next =>
        refine .bind (yields_lambda hg) fun x s hx => .bind (yields_postfixOps hg hx) fun y s hy => ?_
        exact yieldsStmt_exprStmt hy
    next => exact hexpr s
  next =>
    refine .bind (yields_letDecl hg) ?_
    rintro _ s ⟨vars, rfl, hne, hvars⟩
    refine .bind .expectSemi_any fun _ s _ => .pure ⟨.lets hne (fun v hv => (hvars v hv).1) ?_, nofun⟩
    exact fun v hv => (hvars v hv).2
  next => exact yieldsStmt_ifStmt hg
  next => exact yieldsStmt_whileStmt hg
  next => exact yieldsStmt_forStmt hg
  next => exact yieldsStmt_returnStmt hg
  next hk =>
    refine .bind (.advance_any (hk ▸ nofun)) fun _ s _ => .bind .expectSemi_any fun _ s _ => ?_
    exact .pure ⟨.breaks, nofun⟩
  next hk =>
    refine .bind (.advance_any (hk ▸ nofun)) fun _ s _ => .bind .expectSemi_any fun _ s _ => ?_
    exact .pure ⟨.continues, nofun⟩
  next =>
    refine (yields_block hg).mono ?_
    rintro _ s ⟨body, rfl, hbody⟩
    exact ⟨.block hbody, nofun⟩
  next => exact yieldsStmt_structStmt hg
  next => exact yieldsStmt_enumStmt hg
  next hk => exact .bind (.advance_any (hk ▸ nofun)) fun _ s _ => hg.stmt s
  next => exact hexpr s

omit hg in
/-- The productions of every depth give phrases: each does if those one level deeper do. -/
theorem sound_ofDepth (n : Nat) : (ofDepth n).Sound := by
  induction n with
  | zero => exact ⟨fun _ => .fail, fun _ => .fail, fun _ => .fail, fun _ => .fail, fun _ _ => .fail,
      fun _ => .fail, fun _ => .fail⟩
  | succ n ih =>
    refine ⟨fun _ => yieldsStmt_statement ih, fun _ => yields_sequenceExpr ih,
      fun _ => yields_assignExpr ih, fun _ => yields_ternaryExpr ih, fun _ _ => yields_binaryExpr ih,
      fun _ => yields_unaryExpr ih, fun s => (spans_type lexed (n + 1) s).isName.mono ?_⟩
    rintro t s' ⟨ks, ht, hnames⟩
    exact ht.written hnames

end Grammar

/-! ## Programs -/

open Grammar in
theorem phrases_statements {g : Grammar} (hg : g.Sound) {n : Nat} {s : Stream} (hs : lexed.holds s)
    {body : List Node} (h : g.statements n s = (body, none)) : ∀ x ∈ body, Phrase .stmt x := by
  induction n generalizing s body with
  | zero => simp [statements] at h
  | succ n ih =>
    unfold statements at h
    split at h
    next =>
      obtain rfl : body = [] := (congrArg Prod.fst h).symm
      simp
    next =>
      split at h
      next => simp at h
      next x s' hrun =>
        obtain ⟨hs', hx, -⟩ := hg.stmt s hs hrun
        cases hrest : g.statements n s' with
        | mk xs e =>
          simp only [hrest, Prod.mk.injEq] at h
          obtain ⟨rfl, rfl⟩ := h
          exact forall_mem_cons.2 ⟨hx, ih hs' hrest⟩

theorem parseProgram_eq_ok {source : String} {p : Node} : parseProgram source = .ok p ↔
    ∃ ts body, tokenize source = .ok ts ∧ readTokens ts = (body, none) ∧ p = .program body := by
  show ((tokenize source).mapError SourceError.lex >>= fun ts => (parseTokens ts).mapError .parse) = _ ↔ _
  cases tokenize source with
  | error e => exact ⟨nofun, by rintro ⟨_, _, ⟨⟩, -⟩⟩
  | ok ts =>
    show (parseTokens ts).mapError SourceError.parse = _ ↔ _
    unfold parseTokens
    cases hread : readTokens ts with
    | mk body e =>
      cases e with
      | none =>
        constructor
        · intro h
          exact ⟨ts, body, rfl, hread, (Except.ok.inj h).symm⟩
        · rintro ⟨_, _, ⟨⟩, hbody, rfl⟩
          rw [hread] at hbody
          obtain ⟨rfl, -⟩ := Prod.mk.inj hbody
          rfl
      | some e =>
        refine ⟨nofun, ?_⟩
        rintro ⟨_, _, ⟨⟩, hbody, -⟩
        rw [hread] at hbody
        exact nomatch (Prod.mk.inj hbody).2

/-- The program that is read from a text consists of phrases. -/
theorem phrases_of_parseProgram {source : String} {p : Node} (h : parseProgram source = .ok p) :
    ∃ body, p = .program body ∧ ∀ x ∈ body, Phrase .stmt x := by
  obtain ⟨ts, body, hts, hbody, rfl⟩ := parseProgram_eq_ok.1 h
  obtain ⟨hlexed, front, last, rfl, hlast⟩ := tokenize_lexed hts
  have heq := @ofTokens_eq front last hlast
  exact ⟨body, rfl, phrases_statements (Grammar.sound_ofDepth _)
    ⟨⟨front, last, heq, hlast⟩, by rwa [heq]⟩ hbody⟩

end ScriptTyping
