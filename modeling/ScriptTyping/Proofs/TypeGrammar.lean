import ScriptTyping.Proofs.Reading

/-!
# The grammar of types

`Derives t ks` says that the type `t` can be written as the terminals `ks`. Its rules are those of the
grammar that the parser documents, one for each production. A token stands for one terminal, or for two
closing brackets where it is `>>`.

Main statement: `parseTypeTokens_iff`. Tokens that end in their only end of text are read as `t` exactly
if their terminals derive `t`; no terminals derive two types; and it makes no difference how closing
brackets are put together to tokens.

*Soundness* goes over the runs of the parser. `Spans E s p Q` says that a run of `p` from `s` takes
terminals that `Q` allows for its result; the productions keep this one after another, and the depth of
the grammar is what the induction is on. *Completeness* goes over derivations. The productions are
shown to read the pieces of a type (`reads_`), and a derivation is not deeper than its terminals are
many.
-/

namespace ScriptTyping

open Parser Piece List

/-! ## Derivations -/

namespace Terminal

abbrev symbol (s : Symbol) : Terminal := ⟨.symbol s, ""⟩

abbrev keyword (k : Keyword) : Terminal := ⟨.keyword k, ""⟩

abbrev name (n : String) : Terminal := ⟨.ident, n⟩

end Terminal

/-- The terminals that a token stands for: `>>` is two closing brackets. -/
def Token.terminals (t : Token) : List Terminal :=
  match t.kind with
  | .symbol .shiftRight => [.symbol .greater, .symbol .greater]
  | .ident => [.name t.data]
  | k => [⟨k, ""⟩]

/-- A name, and its bounds if it has any. -/
def TypeParam.terminals (p : TypeParam) : List Terminal :=
  .name p.name :: if p.bounds.isEmpty then [] else
    .symbol .colon :: [.symbol .plus].intercalate (p.bounds.map fun b => [.name b])

/-- Type parameters with commas between them. -/
def TypeParam.terminalsAll (ps : List TypeParam) : List Terminal :=
  [.symbol .comma].intercalate (ps.map terminals)

/-- A parameter of a function type with the terminals of its type. Its name may be left out. -/
structure ParamPart where
  name : Option String
  ann : TypeExpr
  variadic : Bool
  type : List Terminal

namespace ParamPart

def param (p : ParamPart) : Param := ⟨p.name.getD "", p.ann, p.variadic⟩

def terminals (p : ParamPart) : List Terminal :=
  (if p.variadic then [.symbol .ellipsis] else []) ++
    (match p.name with
      | some n => [.name n, .symbol .colon]
      | none => []) ++ p.type

end ParamPart

/-- Type arguments with their terminals, between angle brackets, or nothing. -/
def angledTerminals (parts : List (TypeExpr × List Terminal)) : List Terminal :=
  if parts.isEmpty then [] else
    .symbol .less :: [.symbol .comma].intercalate (parts.map Prod.snd) ++ [.symbol .greater]

/-- The terminals that a type can be written as. -/
inductive Derives : TypeExpr → List Terminal → Prop
  | generic {ps t ks} (hne : ps ≠ []) (h : Derives t ks) : Derives (.generic ps t)
      ([.symbol .less] ++ TypeParam.terminalsAll ps ++ [.symbol .greater] ++ ks)
  | array {t ks} (h : Derives t ks) : Derives (.array t)
      ([.name "Array", .symbol .less] ++ ks ++ [.symbol .greater])
  | map {t u ks ls} (ht : Derives t ks) (hu : Derives u ls) : Derives (.map t u)
      ([.name "Map", .symbol .less] ++ ks ++ [.symbol .comma] ++ ls ++ [.symbol .greater])
  | promise {t ks} (h : Derives t ks) : Derives (.promise t)
      ([.name "Promise", .symbol .less] ++ ks ++ [.symbol .greater])
  | func {parts : List ParamPart} {t ks} (hparts : ∀ p ∈ parts, Derives p.ann p.type) (h : Derives t ks) :
    Derives (.func (parts.map ParamPart.param) t)
      ([.symbol .openParen] ++ [.symbol .comma].intercalate (parts.map ParamPart.terminals) ++
        [.symbol .closeParen, .symbol .arrow] ++ ks)
  | structRef {name} {parts : List (TypeExpr × List Terminal)} (hparts : ∀ p ∈ parts, Derives p.1 p.2) :
    Derives (.structRef name (parts.map Prod.fst)) ([.keyword .kStruct, .name name] ++ angledTerminals parts)
  | enumRef {name} {parts : List (TypeExpr × List Terminal)} (hparts : ∀ p ∈ parts, Derives p.1 p.2) :
    Derives (.enumRef name (parts.map Prod.fst)) ([.keyword .kEnum, .name name] ++ angledTerminals parts)
  | named {name} : Derives (.named name) [.name name]

/-! ## What a run takes -/

namespace Stream

/-- The terminals of a stream, up to its last token. -/
def terminals (s : Stream) : List Terminal := (s.current :: s.rest).dropLast.flatMap Token.terminals

/-- The last token is an end of text. -/
def Ended (s : Stream) : Prop := ∃ front last, s.current :: s.rest = front ++ [last] ∧ last.kind = .eof

variable {s : Stream}

/-- A token that is no end of text has others behind it. -/
theorem Ended.next (h : s.Ended) (hk : s.current.kind ≠ .eof) :
    s.next.Ended ∧ s.terminals = s.current.terminals ++ s.next.terminals := by
  obtain ⟨front, last, heq, hlast⟩ := h
  cases front with
  | nil =>
    simp only [nil_append, List.cons.injEq] at heq
    exact (hk (heq.1 ▸ hlast)).elim
  | cons t front =>
    simp only [cons_append, List.cons.injEq] at heq
    cases hrest : s.rest with
    | nil => simp [hrest] at heq
    | cons u rest =>
      rw [hrest] at heq
      have hnext : s.next = ⟨u, rest⟩ := by simp [Stream.next, hrest]
      rw [hnext]
      exact ⟨⟨front, last, heq.2, hlast⟩, by simp [terminals, hrest]⟩

/-- The first half of `>>` is a closing bracket, and so is what is left of it. -/
theorem Ended.halve (h : s.Ended) (hk : s.current.kind = .symbol .shiftRight) :
    s.halve.Ended ∧ s.terminals = .symbol .greater :: s.halve.terminals := by
  obtain ⟨front, last, heq, hlast⟩ := h
  cases front with
  | nil =>
    simp only [nil_append, List.cons.injEq] at heq
    rw [heq.1, hlast] at hk
    exact nomatch hk
  | cons t front =>
    simp only [cons_append, List.cons.injEq] at heq
    refine ⟨⟨s.halve.current :: front, last, by simp [Stream.halve, heq.2], hlast⟩, ?_⟩
    obtain ⟨-, heq⟩ := heq
    simp [terminals, Stream.halve, heq, dropLast_cons_of_ne_nil, Token.terminals, hk]

end Stream

/-- An invariant by which the end of text stays in front of a parser. -/
structure Ending extends Invariant where
  ended {s : Stream} : holds s → s.Ended

theorem Ensures.ending {α : Type} {E : Ending} {s : Stream} {p : Parser α} {P : α → Stream → Prop}
    (h : s.Ended → Ensures E.toInvariant s p P) : Ensures E.toInvariant s p P :=
  fun hs => h (E.ended hs) hs

/-- Each run of the parser from `s` takes terminals that `Q` allows for its value. -/
def Spans {α : Type} (E : Ending) (s : Stream) (p : Parser α) (Q : α → List Terminal → Prop) : Prop :=
  Ensures E.toInvariant s p fun a s' => ∃ ks, s.terminals = ks ++ s'.terminals ∧ Q a ks

namespace Spans

variable {E : Ending} {α β : Type} {s : Stream} {p : Parser α} {f : α → Parser β} {P : α → List Terminal → Prop}
  {Q : β → List Terminal → Prop} {b : β} {c : Symbol} {context : String}

theorem pure (h : Q b []) : Spans E s (pure b) Q := Ensures.pure ⟨[], rfl, h⟩

theorem bind (hp : Spans E s p P) (hf : ∀ a ks, P a ks → ∀ s, Spans E s (f a) fun b ls => Q b (ks ++ ls)) :
    Spans E s (p >>= f) Q := by
  refine Ensures.bind hp ?_
  rintro a t ⟨ks, hks, hP⟩
  refine (hf a ks hP t).mono ?_
  rintro b s' ⟨ls, hls, hQ⟩
  exact ⟨ks ++ ls, by rw [hks, hls, append_assoc], hQ⟩

/-- A step over a token that is known to be no end of text. -/
theorem advance {f : Unit → Parser β} (hk : s.current.kind ≠ .eof)
    (h : Spans E s.next (f ()) fun b ls => Q b (s.current.terminals ++ ls)) :
    Spans E s (Parser.advance >>= f) Q := by
  refine Ensures.ending fun hs => .bind (P := fun _ t => t = s.next) (.advance hk rfl) ?_
  rintro ⟨⟩ _ rfl
  refine h.mono ?_
  rintro b s' ⟨ls, hls, hQ⟩
  exact ⟨_, by rw [(hs.next hk).2, hls, append_assoc], hQ⟩

theorem terminals_symbol (hs : s.Ended) (hk : s.current.kind = .symbol c) (hc : c ≠ .shiftRight) :
    s.terminals = [.symbol c] ++ s.next.terminals := by
  rw [(hs.next (hk ▸ nofun)).2]
  cases c <;> simp_all [Token.terminals]

theorem got (hc : c ≠ .shiftRight) :
    Spans E s (Parser.got (.symbol c)) fun b ks => ks = if b then [.symbol c] else [] :=
  Ensures.ending fun hs => .got nofun (fun hk => ⟨_, terminals_symbol hs hk hc, rfl⟩) fun _ => ⟨[], rfl, rfl⟩

theorem expect (hc : c ≠ .shiftRight) :
    Spans E s (Parser.expect (.symbol c) context) fun _ ks => ks = [.symbol c] :=
  Ensures.ending fun hs => .expect nofun fun hk => ⟨_, terminals_symbol hs hk hc, rfl⟩

theorem expectIdent : Spans E s (Parser.expectIdent context) fun n ks => ks = [.name n] :=
  Ensures.ending fun hs => .expectIdent fun hk =>
    ⟨_, (hs.next (hk ▸ nofun)).2, by simp [Token.terminals, hk]⟩

theorem expectCloseAngle : Spans E s Parser.expectCloseAngle fun _ ks => ks = [.symbol .greater] :=
  Ensures.ending fun hs => .expectCloseAngle (fun hk => ⟨_, terminals_symbol hs hk nofun, rfl⟩)
    fun hk => ⟨[_], (hs.halve hk).2, rfl⟩

/-- What a list with separators takes: what its items take, and the separators between them. The parts
`ι` are what the items are read from. -/
theorem sepBy {ι : Type} (value : ι → α) (spell : ι → List Terminal) {R : ι → Prop} (hc : c ≠ .shiftRight)
    (hp : ∀ s, Spans E s p fun x ks => ∃ i, x = value i ∧ ks = spell i ∧ R i) :
    Spans E s (Parser.sepBy c p) fun xs ks => ∃ parts : List ι, parts ≠ [] ∧ xs = parts.map value ∧
      ks = [.symbol c].intercalate (parts.map spell) ∧ ∀ i ∈ parts, R i := by
  -- Before each turn, the items read so far have each been taken with a separator behind it.
  refine Ensures.iterate (J := fun xs t => ∃ parts : List ι, xs = parts.map value ∧
    (∀ i ∈ parts, R i) ∧ s.terminals = (parts.map spell).flatMap (· ++ [.symbol c]) ++ t.terminals)
    ?_ ⟨[], by simp⟩
  rintro _ t ⟨parts, rfl, hparts, hs⟩
  refine (bind (Q := fun r ls => ∃ i, R i ∧ (r = .inl ((parts ++ [i]).map value) ∧
    ls = spell i ++ [.symbol c] ∨ r = .inr ((parts ++ [i]).map value) ∧ ls = spell i)) (hp t) ?_).mono ?_
  · rintro _ _ ⟨i, rfl, rfl, hi⟩ t
    refine bind (got hc) ?_
    rintro (_ | _) _ rfl t
    · exact pure ⟨i, hi, .inr (by simp)⟩
    · exact pure ⟨i, hi, .inl (by simp)⟩
  · rintro _ t' ⟨_, hls, i, hi, h⟩
    have hall : ∀ j ∈ parts ++ [i], R j := forall_mem_append.2 ⟨hparts, by simpa using hi⟩
    obtain ⟨rfl, rfl⟩ | ⟨rfl, rfl⟩ := h
    · exact ⟨parts ++ [i], rfl, hall, by simp [hs, hls]⟩
    · exact ⟨_, by rw [hs, hls, ← append_assoc], parts ++ [i], by simp, rfl,
        by simp [intercalate_concat], hall⟩

/-- Where what an item takes is fixed by the item, so is what a list takes. -/
theorem sepBy_map {spell : α → List Terminal} (hc : c ≠ .shiftRight)
    (hp : ∀ s, Spans E s p fun x ks => ks = spell x) : Spans E s (Parser.sepBy c p) fun xs ks =>
      xs ≠ [] ∧ ks = [.symbol c].intercalate (xs.map spell) := by
  refine (sepBy id spell (R := fun _ => True) hc fun s => (hp s).mono ?_).mono ?_
  · rintro x s' ⟨_, hks, rfl⟩
    exact ⟨_, hks, x, rfl, rfl, trivial⟩
  · rintro _ s' ⟨_, hks, xs, hne, rfl, rfl, -⟩
    exact ⟨_, hks, by simpa using hne, by simp⟩

end Spans

/-! ## Soundness -/

namespace Grammar

variable {E : Ending} {g : Grammar} {s : Stream}

def typeParam : Parser TypeParam := do
  let name ← expectIdent "for type parameter"
  let bounds ←
    if ← got Symbol.colon then sepBy .plus (expectIdent "for type-class constraint") else pure []
  return ⟨name, bounds⟩

theorem typeParams_eq : typeParams = sepBy .comma typeParam := rfl

theorem spans_typeParam : Spans E s typeParam fun p ks => ks = p.terminals := by
  refine .bind .expectIdent ?_
  rintro name _ rfl s
  refine .bind (.got nofun) ?_
  rintro (_ | _) _ rfl s
  · exact .bind (P := fun bounds ks => bounds = [] ∧ ks = []) (.pure ⟨rfl, rfl⟩) fun
      | _, _, ⟨rfl, rfl⟩, _ => .pure rfl
  · refine .bind (Spans.sepBy_map nofun fun _ => .expectIdent) ?_
    rintro bounds _ ⟨hne, rfl⟩ s
    exact .pure (by simp [TypeParam.terminals, hne])

theorem spans_typeParams : Spans E s typeParams fun ps ks => ps ≠ [] ∧ ks = TypeParam.terminalsAll ps := by
  rw [typeParams_eq]
  exact Spans.sepBy_map nofun fun _ => spans_typeParam

theorem spans_closedType (hg : ∀ s, Spans E s g.type Derives) :
    Spans E s g.closedType fun t ks => ∃ ls, Derives t ls ∧ ks = ls ++ [.symbol .greater] := by
  refine .bind (hg s) fun t ls ht s => .bind .expectCloseAngle ?_
  rintro _ _ rfl s
  exact .pure ⟨ls, ht, by simp⟩

theorem spans_typeArgs (hg : ∀ s, Spans E s g.type Derives) :
    Spans E s g.typeArgs fun ts ks => ∃ parts : List (TypeExpr × List Terminal),
      ts = parts.map Prod.fst ∧ ks = angledTerminals parts ∧ ∀ q ∈ parts, Derives q.1 q.2 := by
  refine .bind (.got nofun) ?_
  rintro (_ | _) _ rfl s
  · exact .pure ⟨[], rfl, rfl, by simp⟩
  · refine .bind (.sepBy Prod.fst Prod.snd (R := fun q => Derives q.1 q.2) nofun
      fun s => (hg s).mono fun t _ ⟨ks, hks, ht⟩ => ⟨ks, hks, (t, ks), rfl, rfl, ht⟩) ?_
    rintro _ _ ⟨parts, hne, rfl, rfl, hparts⟩ s
    refine .bind .expectCloseAngle ?_
    rintro _ _ rfl s
    exact .pure ⟨parts, rfl, by simp [angledTerminals, hne], hparts⟩

theorem spans_annotated (hg : ∀ s, Spans E s g.type Derives) (hk : s.current.kind = .symbol .colon) :
    Spans E s g.annotation fun t ks => ∃ ls, Derives t ls ∧ ks = .symbol .colon :: ls := by
  refine Ensures.ending fun hs => Ensures.bind (P := fun b t => b = true ∧ t = s.next)
    (.got nofun (fun _ => ⟨rfl, rfl⟩) fun hne => (hne hk).elim) ?_
  rintro _ _ ⟨rfl, rfl⟩
  refine (hg s.next).mono ?_
  rintro t s' ⟨ks, hks, ht⟩
  exact ⟨.symbol .colon :: ks, by simp [Spans.terminals_symbol hs hk nofun, hks], ks, ht, rfl⟩

theorem spans_param (hg : ∀ s, Spans E s g.type Derives) :
    Spans E s (g.param true) fun p ks => ∃ part : ParamPart,
      p = part.param ∧ ks = part.terminals ∧ Derives part.ann part.type := by
  refine .bind (.got nofun) ?_
  rintro variadic _ rfl s
  refine Ensures.kind (Ensures.peekKind ?_)
  simp only [true_and, ite_not]
  split
  next hnamed =>
    obtain ⟨hident, hcolon⟩ := hnamed
    refine Ensures.ending fun hs => Ensures.bind (P := fun n t => n = s.current.data ∧ t = s.next)
      (.expectIdent fun _ => ⟨rfl, rfl⟩) ?_
    rintro _ _ ⟨rfl, rfl⟩
    refine Ensures.bind (spans_annotated hg hcolon) ?_
    rintro t s' ⟨_, hks, ls, ht, rfl⟩
    refine Ensures.pure ⟨.name s.current.data :: .symbol .colon :: ls, ?_,
      ⟨some s.current.data, t, variadic, ls⟩, rfl, by simp [ParamPart.terminals], ht⟩
    simp [(hs.next (hident ▸ nofun)).2, hks, Token.terminals, hident]
  next =>
    refine Spans.bind (hg s) fun t ks ht s => .pure ⟨⟨none, t, variadic, ks⟩, rfl, ?_, ht⟩
    simp [ParamPart.terminals]

theorem spans_params (hg : ∀ s, Spans E s g.type Derives) :
    Spans E s (g.params true) fun ps ks => ∃ parts : List ParamPart, ps = parts.map ParamPart.param ∧
      ks = [.symbol .comma].intercalate (parts.map ParamPart.terminals) ∧
        ∀ q ∈ parts, Derives q.ann q.type := by
  refine Ensures.kind ?_
  split
  next => exact Spans.pure ⟨[], rfl, rfl, by simp⟩
  next =>
    refine (Spans.sepBy (c := .comma) _ _ nofun fun _ => spans_param hg).mono ?_
    rintro _ s' ⟨ks, hks, parts, -, h⟩
    exact ⟨ks, hks, parts, h⟩

/-- A name with an opening bracket behind it is one of the three constructors, or stands alone. -/
theorem spans_namedType (hg : ∀ s, Spans E s g.type Derives) (hk : s.current.kind = .ident) :
    Spans E s (g.namedType s.current.data) Derives := by
  have hterm : s.current.terminals = [.name s.current.data] := by simp [Token.terminals, hk]
  refine Ensures.peekKind (Spans.advance (hk ▸ nofun) ?_)
  rw [hterm]
  simp only [ite_not]
  split
  next hless =>
    have hless' : s.next.current.terminals = [.symbol .less] := by simp [Token.terminals, hless]
    split
    next heq =>
      rw [heq]
      refine .advance (hless ▸ nofun) (.bind (spans_closedType hg) ?_)
      rintro t _ ⟨ls, ht, rfl⟩ s
      exact .pure (by simpa [hless'] using Derives.array ht)
    next heq =>
      rw [heq]
      refine .advance (hless ▸ nofun) (.bind (spans_closedType hg) ?_)
      rintro t _ ⟨ls, ht, rfl⟩ s
      exact .pure (by simpa [hless'] using Derives.promise ht)
    next heq =>
      rw [heq]
      refine .advance (hless ▸ nofun) (.bind (hg _) fun t ks ht s => ?_)
      refine .bind (.expect nofun) ?_
      rintro _ _ rfl s
      refine .bind (spans_closedType hg) ?_
      rintro u _ ⟨ls, hu, rfl⟩ s
      exact .pure (by simpa [hless'] using Derives.map ht hu)
    next => exact .pure .named
  next => exact .pure .named

/-- One production takes what derives the type that it gives, if the one below it does. -/
theorem spans_typeExpr (hg : ∀ s, Spans E s g.type Derives) : Spans E s g.typeExpr Derives := by
  refine Ensures.current ?_
  split
  next hk =>
    refine Spans.advance (hk ▸ nofun) (.bind spans_typeParams ?_)
    rintro ps _ ⟨hne, rfl⟩ s
    refine .bind .expectCloseAngle ?_
    rintro _ _ rfl s
    refine .bind (hg s) fun t ks ht s => .pure ?_
    simpa [Token.terminals, hk] using Derives.generic hne ht
  next hk =>
    refine Spans.advance (hk ▸ nofun) (.bind (spans_params hg) ?_)
    rintro _ _ ⟨parts, rfl, rfl, hparts⟩ s
    refine .bind (.expect nofun) ?_
    rintro _ _ rfl s
    refine .bind (.expect nofun) ?_
    rintro _ _ rfl s
    refine .bind (hg s) fun t ks ht s => .pure ?_
    simpa [Token.terminals, hk] using Derives.func hparts ht
  next hk =>
    refine Spans.advance (hk ▸ nofun) (.bind .expectIdent ?_)
    rintro name _ rfl s
    refine .bind (spans_typeArgs hg) ?_
    rintro _ _ ⟨parts, rfl, rfl, hparts⟩ s
    exact .pure (by simpa [Token.terminals, hk] using Derives.structRef hparts)
  next hk =>
    refine Spans.advance (hk ▸ nofun) (.bind .expectIdent ?_)
    rintro name _ rfl s
    refine .bind (spans_typeArgs hg) ?_
    rintro _ _ ⟨parts, rfl, rfl, hparts⟩ s
    exact .pure (by simpa [Token.terminals, hk] using Derives.enumRef hparts)
  next hk => exact spans_namedType hg hk
  next => exact .fail

theorem spans_type (E : Ending) (n : Nat) (s : Stream) : Spans E s (ofDepth n).type Derives := by
  induction n generalizing s with
  | zero => exact .fail
  | succ n ih => exact spans_typeExpr ih

/-! ## Completeness -/

section Reads

variable {V : View} {t u : TypeExpr} {name : String} {ks ls bs cs : List Piece} {F : List Piece → Prop}

/-- What can stand behind a type. A name must not be taken for a constructor, nor for a parameter. -/
def TypeEnd : List Piece → Prop := Next fun k => k ≠ .symbol .less ∧ k ≠ .symbol .colon

/-- The pieces of a type parameter, with blanks between them. -/
def WritesTypeParam (p : TypeParam) (ps : List Piece) : Prop :=
  (p.bounds = [] ∧ ps = [ident p.name]) ∨ ∃ bs qs, Blanks bs ∧
    Separated (OneOf (.symbol .plus)) (fun b ps => ps = [ident b]) p.bounds qs ∧
      ps = ident p.name :: symbol .colon :: (bs ++ qs)

theorem reads_typeParam {p : TypeParam} {ps : List Piece} (h : WritesTypeParam p ps) :
    Reads V typeParam p ps (Next fun k => k = .symbol .comma ∨ k = .symbol .greater) := by
  obtain ⟨hnil, rfl⟩ | ⟨bs, qs, hb, hbounds, rfl⟩ := h
  · refine .expectIdent (.not_got ?_ ?_ nofun)
    · rw [← hnil]
      exact .bind_done .pure .pure
    · intro rest h
      exact h.mono fun k hk => by obtain rfl | rfl := hk <;> exact nofun
  · refine .expectIdent (.got rfl ?_)
    refine .blanks hb (.bind_done (reads_sepBy (G := fun _ => True) ?_ (fun _ _ => trivial) ?_ nofun) .pure)
    · exact hbounds.imp fun b ps h => h ▸ .ident
    · intro rest h
      exact ⟨trivial, h.mono fun k hk => by obtain rfl | rfl := hk <;> exact nofun⟩

variable {ps : List TypeParam} {ts : List TypeExpr} {variadic inType : Bool}

theorem reads_typeParams (h : Separated (OneOf (.symbol .comma)) WritesTypeParam ps ks) :
    Reads V typeParams ps ks (Next (· = .symbol .greater)) := by
  rw [typeParams_eq]
  refine reads_sepBy (h.imp fun p ps => reads_typeParam) (fun rest h => h.mono fun k => .inl) ?_ nofun
  intro rest h
  exact ⟨h.mono fun k => .inr, h.mono fun k hk => hk ▸ nofun⟩

theorem reads_closedType (h : Reads V g.type t ks TypeEnd) : Reads V g.closedType t (ks ++ [closing]) F :=
  h.bind (.close .pure) fun _ _ => ⟨_, rfl, nofun, nofun⟩

theorem reads_named : Reads V g.typeExpr (.named name) [ident name] TypeEnd := by
  refine .current fun u hk hd => ?_
  simp only [hk, hd rfl]
  refine .peekKind_ne (j := .symbol .less) (fun k hne => ?_) (fun rest h => h.mono fun k hk => hk.1) nofun
  refine .advance ?_
  simp only [hne, not_false_eq_true, if_true]
  exact .pure

theorem reads_array (h : Reads V g.type t ks TypeEnd) :
    Reads V g.typeExpr (.array t) (ident "Array" :: opening :: (ks ++ [closing])) F := by
  refine .current fun u hk hd => ?_
  simp only [hk, hd rfl]
  refine .peekKind ?_ rfl nofun
  simp only [not_true_eq_false, if_false]
  exact .advance (.advance (.bind_done (reads_closedType h) .pure))

theorem reads_promise (h : Reads V g.type t ks TypeEnd) :
    Reads V g.typeExpr (.promise t) (ident "Promise" :: opening :: (ks ++ [closing])) F := by
  refine .current fun u hk hd => ?_
  simp only [hk, hd rfl]
  refine .peekKind ?_ rfl nofun
  simp only [not_true_eq_false, if_false]
  exact .advance (.advance (.bind_done (reads_closedType h) .pure))

theorem reads_map (ht : Reads V g.type t ks TypeEnd) (hb : OneOf (.symbol .comma) bs)
    (hu : Reads V g.type u ls TypeEnd) :
    Reads V g.typeExpr (.map t u) (ident "Map" :: opening :: (ks ++ (bs ++ (ls ++ [closing])))) F := by
  refine .current fun v hk hd => ?_
  simp only [hk, hd rfl]
  refine .peekKind ?_ rfl nofun
  simp only [not_true_eq_false, if_false]
  refine .advance (.advance (ht.bind (.expect_one hb fun _ => .bind_done (reads_closedType hu) .pure) ?_))
  intro rest _
  exact ⟨_, nextKind_append (nextKind_append hb.nextKind _) rest, nofun, nofun⟩

theorem reads_generic (hps : Separated (OneOf (.symbol .comma)) WritesTypeParam ps ls)
    (h : Reads V g.type t ks TypeEnd) :
    Reads V g.typeExpr (.generic ps t) (opening :: (ls ++ closing :: ks)) TypeEnd := by
  refine .current fun u hk _ => ?_
  simp only [hk]
  refine .advance ((reads_typeParams hps).bind (.close (.bind_done h .pure)) fun _ _ => ?_)
  exact ⟨_, rfl, rfl⟩

theorem reads_typeArgs_nil : Reads V g.typeArgs [] [] TypeEnd :=
  .not_got .pure (fun _ h => h.mono fun _ hk => hk.1) nofun

theorem reads_typeArgs
    (h : Separated (OneOf (.symbol .comma)) (fun t ps => Reads V g.type t ps TypeEnd) ts ks) :
    Reads V g.typeArgs ts (opening :: (ks ++ [closing])) F := by
  refine .got rfl ((reads_sepBy (F := Next (· = .symbol .greater)) h ?_ ?_ nofun).bind (.close .pure) ?_)
  · exact fun rest h => h.mono fun k hk => hk ▸ ⟨nofun, nofun⟩
  · exact fun rest h => ⟨h.mono fun k hk => hk ▸ ⟨nofun, nofun⟩, h.mono fun k hk => hk ▸ nofun⟩
  · exact fun _ _ => ⟨_, rfl, rfl⟩

theorem reads_structRef (h : Reads V g.typeArgs ts ks TypeEnd) (hb : Blanks bs) :
    Reads V g.typeExpr (.structRef name ts) (keyword .kStruct :: (bs ++ ident name :: ks)) TypeEnd := by
  refine .current fun u hk _ => ?_
  simp only [hk]
  exact .advance (.blanks hb (.expectIdent (.bind_done h .pure)))

theorem reads_enumRef (h : Reads V g.typeArgs ts ks TypeEnd) (hb : Blanks bs) :
    Reads V g.typeExpr (.enumRef name ts) (keyword .kEnum :: (bs ++ ident name :: ks)) TypeEnd := by
  refine .current fun u hk _ => ?_
  simp only [hk]
  exact .advance (.blanks hb (.expectIdent (.bind_done h .pure)))

/-- The dots before a variadic parameter. -/
def dots (variadic : Bool) : List Piece := if variadic then [symbol .ellipsis] else []

def ParamEnd : List Piece → Prop := Next fun k => k = .symbol .comma ∨ k = .symbol .closeParen

theorem ParamEnd.typeEnd (h : ParamEnd ks) : TypeEnd ks :=
  Next.mono (fun k hk => by obtain rfl | rfl := hk <;> exact ⟨nofun, nofun⟩) h

theorem reads_dots {β : Type} {f : Bool → Parser β} {b : β}
    (h : Reads V (f variadic) b ks F) (hk : Next (· ≠ .symbol .ellipsis) ks) :
    Reads V (got Symbol.ellipsis >>= f) b (dots variadic ++ ks) F := by
  cases variadic with
  | true => exact .got rfl h
  | false => exact .not_got h (fun rest _ => hk.append rest) nofun

/-- A type is no parameter with a name: a name at its front has no colon behind it. -/
def Bare (ks : List Piece) : Prop :=
  ∃ t ps, ks = mark t :: ps ∧ t.kind ≠ .symbol .ellipsis ∧ t.kind ≠ .symbol .closeParen ∧
    (t.kind = .ident → ps = [] ∨ Next (· = .symbol .less) ps)

theorem reads_param_bare (h : Reads V g.type t ks TypeEnd) (hk : Bare ks) :
    Reads V (g.param true) ⟨"", t, variadic⟩ (dots variadic ++ ks) ParamEnd := by
  obtain ⟨k, ps, rfl, hdots, -, hname⟩ := hk
  have htype (c : Prop) [Decidable c] (hc : ¬ c) : Reads V (if true = true ∧ ¬ c then do
      let t ← g.type
      pure (ParamOf.mk "" t variadic)
    else do
      let name ← expectIdent "for parameter name"
      let ann ← g.annotation
      pure ⟨name, ann, variadic⟩) ⟨"", t, variadic⟩ (mark k :: ps) ParamEnd := by
    rw [if_pos ⟨rfl, hc⟩]
    exact (h.mono fun _ => ParamEnd.typeEnd).bind_done .pure
  refine reads_dots (.kind ?_) ⟨_, rfl, hdots⟩
  by_cases hident : k.kind = .ident
  · refine .peekKind_ne (j := .symbol .colon) (fun j hj => htype _ fun h => hj h.2) ?_ nofun
    intro rest hend
    obtain rfl | hless := hname hident
    · exact (ParamEnd.typeEnd hend).mono fun k hk => hk.2
    · exact (hless.append rest).mono fun k hk => hk ▸ nofun
  · exact .peekKind_any fun j => htype _ fun h => hident h.1

theorem reads_annotated (h : Reads V g.type t ks TypeEnd) (hb : Blanks bs) :
    Reads V g.annotation t (symbol .colon :: (bs ++ ks)) TypeEnd :=
  .got rfl (.blanks hb h)

theorem reads_param_named (h : Reads V g.annotation t (symbol .colon :: ks) TypeEnd) :
    Reads V (g.param inType) ⟨name, t, variadic⟩ (dots variadic ++ ident name :: symbol .colon :: ks)
      ParamEnd := by
  refine reads_dots (.kind (.peekKind ?_ rfl nofun)) ⟨_, rfl, nofun⟩
  simp only [and_self, not_true_eq_false, and_false, if_false]
  exact .expectIdent ((h.mono fun _ => ParamEnd.typeEnd).bind_done .pure)

theorem reads_params {ps : List Param} (h : Listed (OneOf (.symbol .comma))
      (fun p ks => Reads V (g.param inType) p ks ParamEnd ∧ Next (· ≠ .symbol .closeParen) ks) ps ks) :
    Reads V (g.params inType) ps ks (Next (· = .symbol .closeParen)) := by
  obtain ⟨rfl, rfl⟩ | h := h
  · refine .stopped ?_ nofun
    simpa using Reads.pure
  · refine .not_stopped ?_ (fun rest _ => h.next.append rest) nofun
    refine reads_sepBy (h.imp fun p ks h => h.1) (fun rest h => h.mono fun k => .inl) ?_ nofun
    exact fun rest h => ⟨h.mono fun k => .inr, h.mono fun k hk => hk ▸ nofun⟩

theorem reads_func {ps : List Param} (hps : Reads V (g.params true) ps ls (Next (· = .symbol .closeParen)))
    (h : Reads V g.type t ks TypeEnd) (hb : OneOf (.symbol .arrow) bs) :
    Reads V g.typeExpr (.func ps t) (symbol .openParen :: (ls ++ symbol .closeParen :: (bs ++ ks)))
      TypeEnd := by
  refine .current fun u hk _ => ?_
  simp only [hk]
  refine .advance (hps.bind (.expect rfl fun _ => .expect_one hb fun _ => .bind_done h .pure) ?_)
  exact fun _ _ => ⟨_, rfl, rfl⟩

end Reads

/-- Productions below the first come from the depth below. -/
theorem reads_type_of_lt {V : View} {t : TypeExpr} {ks : List Piece} {F : List Piece → Prop} {m n : Nat}
    (h : ∀ n, m ≤ n → Reads V (ofDepth n).typeExpr t ks F) (hm : m < n) :
    Reads V (ofDepth n).type t ks F := by
  obtain ⟨n, rfl⟩ := Nat.exists_eq_succ_of_ne_zero (Nat.ne_of_gt (Nat.zero_lt_of_lt hm))
  exact h n (Nat.le_of_lt_succ hm)

end Grammar

/-- A terminal as it stands in front of a parser. -/
def Terminal.piece (k : Terminal) : Piece :=
  if k = .symbol .greater then .closing else if k = .symbol .less then opening else .mark k

namespace Derives

open Grammar

variable {t : TypeExpr} {ks : List Terminal}

theorem bare (h : Derives t ks) : Bare (ks.map Terminal.piece) := by
  cases h with
  | named => exact ⟨_, _, rfl, nofun, nofun, fun _ => .inl rfl⟩
  | array | map | promise => exact ⟨_, _, rfl, nofun, nofun, fun _ => .inr ⟨_, rfl, rfl⟩⟩
  | generic | func | structRef | enumRef => exact ⟨_, _, rfl, nofun, nofun, nofun⟩

theorem oneOf_piece {s : Symbol} (hg : s ≠ .greater) (hl : s ≠ .less) :
    OneOf (.symbol s) [Terminal.piece (.symbol s)] :=
  ⟨.symbol s, by simp [Terminal.piece, hg, hl], rfl⟩

theorem length_le_intercalate {ι : Type} (spell : ι → List Terminal) (c : Terminal) {i : ι} {is : List ι}
    (h : i ∈ is) : (spell i).length ≤ ([c].intercalate (is.map spell)).length :=
  (sublist_intercalate (mem_map_of_mem h)).length_le

theorem writesTypeParam (p : TypeParam) : WritesTypeParam p (p.terminals.map Terminal.piece) := by
  by_cases hb : p.bounds = []
  · exact .inl ⟨hb, by simp [TypeParam.terminals, hb, Terminal.piece]⟩
  · have hbounds := separated_intercalate (R := fun b ps => ps = [ident b])
      (oneOf_piece (s := .plus) nofun nofun) id (fun b => [ident b]) hb fun _ _ => rfl
    rw [map_id] at hbounds
    exact .inr ⟨[], _, rfl, hbounds,
      by simp [TypeParam.terminals, hb, Terminal.piece, map_intercalate, Function.comp_def]⟩

variable {V : View}

theorem reads_angled {n : Nat} {parts : List (TypeExpr × List Terminal)}
    (h : ∀ p ∈ parts, ∀ n, p.2.length ≤ n →
      Reads V (ofDepth n).typeExpr p.1 (p.2.map Terminal.piece) TypeEnd)
    (hn : (angledTerminals parts).length ≤ n) :
    Reads V (ofDepth n).typeArgs (parts.map Prod.fst) ((angledTerminals parts).map Terminal.piece)
      TypeEnd := by
  by_cases hne : parts = []
  · subst hne
    exact reads_typeArgs_nil
  · simp only [angledTerminals, List.isEmpty_iff, hne, if_false] at hn ⊢
    have hargs := separated_intercalate (R := fun t ps => Reads V (ofDepth n).type t ps TypeEnd)
      (oneOf_piece (s := .comma) nofun nofun) Prod.fst (fun p => p.2.map Terminal.piece) hne fun p hp =>
        reads_type_of_lt (h p hp) ?_
    · simpa [Terminal.piece, map_intercalate, Function.comp_def] using
        reads_typeArgs (F := TypeEnd) hargs
    · have hlen := length_le_intercalate Prod.snd (.symbol .comma) hp
      simp only [cons_append, length_cons, length_append] at hn
      omega

theorem reads_part {n : Nat} {p : ParamPart} (hp : Derives p.ann p.type)
    (h : Reads V (ofDepth n).type p.ann (p.type.map Terminal.piece) TypeEnd) :
    Reads V ((ofDepth n).param true) p.param (p.terminals.map Terminal.piece) ParamEnd ∧
      Next (· ≠ .symbol .closeParen) (p.terminals.map Terminal.piece) := by
  obtain ⟨name, ann, variadic, type⟩ := p
  have hdots : (if variadic then [Terminal.symbol .ellipsis] else []).map Terminal.piece =
      dots variadic := by cases variadic <;> rfl
  cases name with
  | none =>
    simp only [ParamPart.param, ParamPart.terminals, append_nil, map_append, hdots]
    refine ⟨reads_param_bare h hp.bare, ?_⟩
    obtain ⟨k, ps, heq, -, hk, -⟩ := hp.bare
    rw [heq]
    cases variadic with
    | true => exact ⟨_, rfl, nofun⟩
    | false => exact ⟨_, rfl, hk⟩
  | some name =>
    simp only [ParamPart.param, ParamPart.terminals, append_assoc, map_append, hdots]
    refine ⟨reads_param_named (reads_annotated h (rfl : Blanks [])), ?_⟩
    cases variadic <;> exact ⟨_, rfl, nofun⟩

/-- A derivation is read, by productions as deep as its terminals are many. -/
theorem reads (h : Derives t ks) (n : Nat) (hn : ks.length ≤ n) :
    Reads V (ofDepth n).typeExpr t (ks.map Terminal.piece) TypeEnd := by
  induction h generalizing n with
  | named => exact reads_named
  | array _ ih =>
    simp only [length_append, length_cons, length_nil] at hn
    have harray := reads_array (F := TypeEnd) (reads_type_of_lt (n := n) ih (by omega))
    simpa [Terminal.piece] using harray
  | promise _ ih =>
    simp only [length_append, length_cons, length_nil] at hn
    have hpromise := reads_promise (F := TypeEnd) (reads_type_of_lt (n := n) ih (by omega))
    simpa [Terminal.piece] using hpromise
  | map _ _ iht ihu =>
    simp only [length_append, length_cons, length_nil] at hn
    have hmap := reads_map (F := TypeEnd) (reads_type_of_lt (n := n) iht (by omega))
      (oneOf_piece nofun nofun) (reads_type_of_lt (n := n) ihu (by omega))
    simpa [Terminal.piece] using hmap
  | generic hne _ ih =>
    simp only [length_append, length_cons, length_nil] at hn
    have hparams := separated_intercalate (oneOf_piece (s := .comma) nofun nofun) id _ hne
      fun p _ => writesTypeParam p
    rw [map_id] at hparams
    have hgeneric := reads_generic hparams (reads_type_of_lt (n := n) ih (by omega))
    simpa [Terminal.piece, TypeParam.terminalsAll, map_intercalate, Function.comp_def] using hgeneric
  | @func parts t ks hparts _ ihparts ih =>
    simp only [length_append, length_cons, length_nil] at hn
    have hparams : Listed (OneOf (.symbol .comma)) (fun p ps =>
        Reads V ((ofDepth n).param true) p ps ParamEnd ∧ Next (· ≠ .symbol .closeParen) ps)
        (parts.map ParamPart.param)
        (([Terminal.symbol .comma].intercalate (parts.map ParamPart.terminals)).map Terminal.piece) := by
      by_cases hne : parts = []
      · subst hne
        exact .inl ⟨rfl, rfl⟩
      · rw [map_intercalate, map_map]
        refine .inr (separated_intercalate (oneOf_piece (s := .comma) nofun nofun) _ _ hne fun p hp => ?_)
        refine reads_part (hparts p hp) (reads_type_of_lt (ihparts p hp) ?_)
        have hlen := length_le_intercalate ParamPart.terminals (.symbol .comma) hp
        have htype : p.type.length ≤ p.terminals.length := by
          simp only [ParamPart.terminals, length_append]
          omega
        omega
    have hfunc := reads_func (reads_params hparams) (reads_type_of_lt (n := n) ih (by omega))
      (oneOf_piece nofun nofun)
    simpa [Terminal.piece] using hfunc
  | structRef _ ih =>
    simp only [length_append, length_cons, length_nil] at hn
    exact reads_structRef (reads_angled ih (by omega)) (rfl : Blanks [])
  | enumRef _ ih =>
    simp only [length_append, length_cons, length_nil] at hn
    exact reads_enumRef (reads_angled ih (by omega)) (rfl : Blanks [])

end Derives

/-! ## Whole token lists -/

section Tokens

variable {front : List Token} {last : Token}

theorem weight_pieces (ks : List Terminal) : weight (ks.map Terminal.piece) = ks.length := by
  induction ks with
  | nil => rfl
  | cons k ks ih =>
    by_cases hg : k = .symbol .greater
    · simp [Terminal.piece, hg, weight, ih]
    · by_cases hl : k = .symbol .less <;> simp [Terminal.piece, hg, hl, weight, ih]

theorem shown_terminals (hlast : last.kind = .eof) : Shown false (front ++ [last])
      ((front.flatMap Token.terminals).map Terminal.piece ++ [.mark ⟨.eof, ""⟩]) := by
  induction front with
  | nil => exact .mark ⟨hlast, by simp⟩ .nil
  | cons t front ih =>
    rw [flatMap_cons, map_append, append_assoc]
    unfold Token.terminals
    split
    next hk => exact .both hk ih
    next hk => exact .mark ⟨hk, fun _ => rfl⟩ ih
    next hsplit hident =>
      by_cases hg : t.kind = .symbol .greater
      · simpa [hg, Terminal.piece] using .closing hg ih
      by_cases hl : t.kind = .symbol .less
      · simpa [hl, Terminal.piece] using .mark ⟨hl, by simp⟩ ih
      · simpa [hg, hl, Terminal.piece] using
          .mark (k := ⟨t.kind, ""⟩) ⟨rfl, fun h => (hident (by simpa using h)).elim⟩ ih

/-- The stream of tokens that end in an end of text. -/
theorem ofTokens_eq (hlast : last.kind = .eof) :
    (Stream.ofTokens (front ++ [last])).current :: (Stream.ofTokens (front ++ [last])).rest =
      front ++ [last] := by
  simp only [Stream.ofTokens, getLast?_append, getLast?_singleton, Option.some_or,
    Option.any_some, hlast, decide_true, if_true]
  cases front <;> rfl

theorem took_wholeType {g : Grammar} {t : TypeExpr} {s s' : Stream} :
    Took g.wholeType s t s' ↔ Took g.type s t s' ∧ s'.current.kind = .eof := by
  simp only [Grammar.wholeType, took_bind, took_kind]
  constructor
  · rintro ⟨a, s₁, htype, _, _, ⟨rfl, rfl⟩, h⟩
    split at h
    next =>
      obtain ⟨_, _, -, h⟩ := took_bind.1 h
      obtain ⟨_, _, h, -⟩ := took_bind.1 h
      exact (took_fail h).elim
    next hk =>
      obtain ⟨rfl, rfl⟩ := took_pure.1 h
      exact ⟨htype, Decidable.not_not.1 hk⟩
  · rintro ⟨htype, hk⟩
    refine ⟨t, s', htype, _, _, ⟨rfl, rfl⟩, ?_⟩
    rw [if_neg (not_not_intro hk)]
    exact took_pure.2 ⟨rfl, rfl⟩

theorem parseTypeTokens_eq_ok {ts : List Token} {t : TypeExpr} : parseTypeTokens ts = .ok t ↔
    ∃ s', Took (Grammar.ofStream (.ofTokens ts)).type (.ofTokens ts) t s' ∧ s'.current.kind = .eof := by
  simp only [← took_wholeType]
  show Except.map Prod.fst (StateT.run _ _) = _ ↔ ∃ s', StateT.run _ _ = _
  cases (Grammar.ofStream (.ofTokens ts)).wholeType.run (.ofTokens ts) with
  | error e => simp [Except.map]
  | ok r =>
    obtain ⟨u, s'⟩ := r
    simp [Except.map]

/-- Tokens whose terminals derive a type are read as it. -/
theorem Derives.parse (hlast : last.kind = .eof) {t : TypeExpr}
    (h : Derives t (front.flatMap Token.terminals)) : parseTypeTokens (front ++ [last]) = .ok t := by
  generalize hs : Stream.ofTokens (front ++ [last]) = s
  have hshown : (tokenView false).shows s
      ((front.flatMap Token.terminals).map Terminal.piece ++ [.mark ⟨.eof, ""⟩]) := by
    show Shown false (s.current :: s.rest) _
    rw [← hs, ofTokens_eq hlast]
    exact shown_terminals hlast
  have hlen : (front.flatMap Token.terminals).length ≤ s.weight := by
    have hweight := (tokenView false).weigh hshown
    rw [weight_append, weight_pieces] at hweight
    omega
  obtain ⟨s', htook, hend⟩ := h.reads s.weight hlen s _ hshown rfl ⟨_, rfl, nofun, nofun⟩
  refine parseTypeTokens_eq_ok.2 ⟨s', ?_, ((tokenView false).current hend).1⟩
  rw [hs]
  exact htook

theorem kind_eq_eof {t : Token} (h : ⟨.eof, ""⟩ ∈ t.terminals) : t.kind = .eof := by
  unfold Token.terminals at h
  split at h
  next => simp at h
  next => simp at h
  next => simpa [eq_comm] using h

/-- That the end of text is there is enough. -/
def ended : Ending where
  holds := Stream.Ended
  next h hk := (h.next hk).1
  halve h hk := (h.halve hk).1
  ended h := h

/-- Tokens that are read as a type have terminals that derive it. -/
theorem derives_of_parse (hlast : last.kind = .eof) (hfront : ∀ t ∈ front, t.kind ≠ .eof) {t : TypeExpr}
    (h : parseTypeTokens (front ++ [last]) = .ok t) : Derives t (front.flatMap Token.terminals) := by
  obtain ⟨s', htook, heof⟩ := parseTypeTokens_eq_ok.1 h
  have heq := @ofTokens_eq front last hlast
  generalize Stream.ofTokens (front ++ [last]) = s at htook heq
  obtain ⟨hs', ks, hks, ht⟩ := Grammar.spans_type ended _ s ⟨front, last, heq, hlast⟩ htook
  have hall : s.terminals = front.flatMap Token.terminals := by
    rw [Stream.terminals, heq, dropLast_concat]
  -- What is left starts with an end of text, which no token before the last stands for.
  have hrest : s'.rest = [] := by
    cases hrest : s'.rest with
    | nil => rfl
    | cons _ _ =>
      have hmem : (⟨.eof, ""⟩ : Terminal) ∈ front.flatMap Token.terminals := by
        rw [← hall, hks, Stream.terminals, hrest]
        simp [Token.terminals, heof]
      obtain ⟨u, hu, hterm⟩ := mem_flatMap.1 hmem
      exact (hfront u hu (kind_eq_eof hterm)).elim
  rw [hall, Stream.terminals, hrest, dropLast_singleton, flatMap_nil, append_nil] at hks
  rwa [hks]

/-- **The type grammar.** Tokens are read as the type that their terminals derive, and as no other; so
it makes no difference how closing brackets are put together to tokens. -/
theorem parseTypeTokens_iff (hlast : last.kind = .eof) (hfront : ∀ t ∈ front, t.kind ≠ .eof) :
    (∀ t, parseTypeTokens (front ++ [last]) = .ok t ↔ Derives t (front.flatMap Token.terminals)) ∧
    (∀ t u, Derives t (front.flatMap Token.terminals) → Derives u (front.flatMap Token.terminals) →
      t = u) ∧
    (∀ (front' : List Token) (last' : Token), last'.kind = .eof → (∀ t ∈ front', t.kind ≠ .eof) →
      front'.flatMap Token.terminals = front.flatMap Token.terminals →
        ∀ t, parseTypeTokens (front' ++ [last']) = .ok t ↔ parseTypeTokens (front ++ [last]) = .ok t) := by
  refine ⟨fun t => ⟨derives_of_parse hlast hfront, Derives.parse hlast⟩, fun t u ht hu => ?_, ?_⟩
  · exact Except.ok.inj ((ht.parse hlast).symm.trans (hu.parse hlast))
  · intro front' last' hlast' hfront' hsame t
    constructor
    · intro h
      exact Derives.parse hlast (hsame ▸ derives_of_parse hlast' hfront' h)
    · intro h
      exact Derives.parse hlast' (hsame.symm ▸ derives_of_parse hlast hfront h)

/-- The type `Array<Promise<a>>` with its last brackets as one token and as two. -/
theorem parseTypeTokens_iff_closing_brackets : let name (n : String) : Token := ⟨.ident, .point .start, n⟩
    let mark (s : Symbol) : Token := ⟨.symbol s, .point .start, ""⟩
    let last : Token := ⟨.eof, .point .start, ""⟩
    let front := [name "Array", mark .less, name "Promise", mark .less, name "a"]
    Derives (.array (.promise (.named "a"))) ((front ++ [mark .shiftRight]).flatMap Token.terminals) ∧
      parseTypeTokens (front ++ [mark .shiftRight] ++ [last]) = .ok (.array (.promise (.named "a"))) ∧
      parseTypeTokens (front ++ [mark .greater, mark .greater] ++ [last]) =
        .ok (.array (.promise (.named "a"))) := by
  intro name mark last front
  obtain ⟨hiff, -, hsame⟩ := @parseTypeTokens_iff (front ++ [mark .shiftRight]) last rfl (by decide)
  have hd : Derives (.array (.promise (.named "a")))
      ((front ++ [mark .shiftRight]).flatMap Token.terminals) := .array (.promise .named)
  have hone := (hiff _).2 hd
  exact ⟨hd, hone, (hsame (front ++ [mark .greater, mark .greater]) last rfl (by decide) rfl _).2 hone⟩

end Tokens

end ScriptTyping
