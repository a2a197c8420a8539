import ScriptTyping.Syntax.Grammar

/-!
# Reading

`Took p s a s'` says that a parser, started on the stream `s`, gives `a` and leaves `s'`. The lemmas
`took_` take a run apart, one for each way in which parsers are built, so that no other proof has to
look into the monad. `Ensures I s p Q` is what every run from `s` leads to, with rules that follow the
text of a parser.

What stands in front of a parser is a list of *pieces*: tokens by their kind and data, the blanks
between them, and closing angle brackets, two of which can be one token `>>`. A `View` is a way to see
pieces in a stream, by the laws that parsers rely on. `Reads V p a ps F` says that `p` gives `a` and goes
on exactly behind `ps` wherever `ps` stands in front of something that `F` allows. Where parsers are put
together, so are the pieces that they read; a loop reads the pieces of its `Turns`.
-/

namespace ScriptTyping

open List Parser

namespace Parser

variable {α β : Type} {s s' : Stream} {a : α} {b : β} {u : Unit} {k : Kind} {context : String}
  {step : α → Parser (α ⊕ β)} {n : Nat}

/-! ## Runs -/

/-- From a stream, the parser comes to a value and leaves another stream. -/
def Took (p : Parser α) (s : Stream) (a : α) (s' : Stream) : Prop := p.run s = .ok (a, s')

theorem took_pure {c : α} : Took (pure a) s c s' ↔ c = a ∧ s' = s := by
  constructor
  · rintro ⟨⟩
    exact ⟨rfl, rfl⟩
  · rintro ⟨rfl, rfl⟩
    rfl

theorem took_bind {p : Parser α} {f : α → Parser β} :
    Took (p >>= f) s b s' ↔ ∃ a t, Took p s a t ∧ Took (f a) t b s' := by
  unfold Took
  rw [StateT.run_bind]
  cases hp : p.run s with
  | error e =>
    constructor
    · rintro ⟨⟩
    · rintro ⟨a, t, ⟨⟩, -⟩
  | ok r =>
    obtain ⟨a, t⟩ := r
    constructor
    · intro h
      exact ⟨a, t, rfl, h⟩
    · rintro ⟨_, _, ⟨⟩, h⟩
      exact h

theorem took_current {t : Token} : Took current s t s' ↔ t = s.current ∧ s' = s := took_pure

theorem took_kind : Took kind s k s' ↔ k = s.current.kind ∧ s' = s := took_pure

theorem took_peekKind : Took peekKind s k s' ↔ k = s.peek.kind ∧ s' = s := took_pure

theorem took_advance : Took advance s u s' ↔ s' = s.next := by
  constructor
  · rintro ⟨⟩
    rfl
  · rintro rfl
    rfl

theorem took_fail {f : SyntaxFault} : ¬ Took (fail f) s a s' := by
  rintro ⟨⟩

theorem took_throw {e : ParseError} : ¬ Took (throw e) s a s' := by
  rintro ⟨⟩

theorem took_unexpected : ¬ Took unexpected s a s' := by
  rintro ⟨⟩

theorem took_got {b : Bool} : Took (got k) s b s' ↔
    (s.current.kind = k ∧ b = true ∧ s' = s.next) ∨ (s.current.kind ≠ k ∧ b = false ∧ s' = s) := by
  simp only [got, took_bind, took_kind]
  constructor
  · rintro ⟨_, _, ⟨rfl, rfl⟩, h⟩
    split at h
    next hk =>
      obtain ⟨_, _, hnext, h⟩ := took_bind.1 h
      obtain ⟨rfl, rfl⟩ := took_pure.1 h
      exact .inl ⟨hk, rfl, took_advance.1 hnext⟩
    next hk => exact .inr ⟨hk, took_pure.1 h⟩
  · rintro (⟨hk, rfl, rfl⟩ | ⟨hk, rfl, rfl⟩) <;> refine ⟨_, _, ⟨rfl, rfl⟩, ?_⟩
    · rw [if_pos hk]
      rfl
    · rw [if_neg hk]
      rfl

theorem took_expect {t : Token} : Took (expect k context) s t s' ↔
    s.current.kind = k ∧ t = s.current ∧ s' = s.next := by
  simp only [expect, took_bind, took_current, took_got]
  constructor
  · rintro ⟨_, _, ⟨rfl, rfl⟩, b, t', ⟨hk, rfl, rfl⟩ | ⟨_, rfl, rfl⟩, h⟩
    · obtain ⟨rfl, rfl⟩ := took_pure.1 h
      exact ⟨hk, rfl, rfl⟩
    · exact (took_fail h).elim
  · rintro ⟨hk, rfl, rfl⟩
    exact ⟨_, _, ⟨rfl, rfl⟩, true, _, .inl ⟨hk, rfl, rfl⟩, took_pure.2 ⟨rfl, rfl⟩⟩

theorem took_expectIdent {name : String} : Took (expectIdent context) s name s' ↔
    s.current.kind = .ident ∧ name = s.current.data ∧ s' = s.next := by
  simp only [expectIdent, took_bind, took_expect, took_pure]
  grind

theorem took_expectCloseAngle : Took expectCloseAngle s u s' ↔
    (s.current.kind = .symbol .greater ∧ s' = s.next) ∨
      (s.current.kind = .symbol .shiftRight ∧ s' = s.halve) := by
  simp only [expectCloseAngle, took_bind, took_kind]
  constructor
  · rintro ⟨_, _, ⟨rfl, rfl⟩, h⟩
    split at h
    next hk => exact .inl ⟨hk, took_advance.1 h⟩
    next hk =>
      obtain ⟨⟩ := h
      exact .inr ⟨hk, rfl⟩
    next => exact (took_fail h).elim
  · rintro (⟨hk, rfl⟩ | ⟨hk, rfl⟩) <;> refine ⟨_, _, ⟨rfl, rfl⟩, ?_⟩ <;> simp only [hk] <;> rfl

theorem took_expectSemi : Took (expectSemi context) s u s' ↔
    (s.current.kind = .symbol .semicolon ∧ s' = s.next) ∨
      ((s.current.kind = .symbol .closeBrace ∨ s.current.kind = .eof) ∧ s' = s) := by
  simp only [expectSemi, took_bind, took_got]
  by_cases hk : s.current.kind = .symbol .semicolon
  · simp [hk, took_pure]
  · constructor
    · rintro ⟨_, _, ⟨hk', -, -⟩ | ⟨-, rfl, rfl⟩, h⟩
      · exact (hk hk').elim
      · obtain ⟨_, _, hkind, h⟩ := took_bind.1 h
        obtain ⟨rfl, rfl⟩ := took_kind.1 hkind
        split at h
        next hk => exact .inr ⟨.inl hk, (took_pure.1 h).2⟩
        next hk => exact .inr ⟨.inr hk, (took_pure.1 h).2⟩
        next => exact (took_fail h).elim
    · rintro (⟨hk', -⟩ | ⟨hk', rfl⟩)
      · exact (hk hk').elim
      · refine ⟨false, _, .inr ⟨hk, rfl, rfl⟩, took_bind.2 ⟨_, _, took_kind.2 ⟨rfl, rfl⟩, ?_⟩⟩
        obtain hk' | hk' := hk' <;> simp only [hk'] <;> rfl

theorem took_iterate : Took (iterate step a) s b s' ↔ Took (repeatFor step (s.weight + 1) a) s b s' := by
  show Took (get >>= fun s => repeatFor step (s.weight + 1) a) s b s' ↔ _
  rw [took_bind]
  constructor
  · rintro ⟨_, _, ⟨⟩, h⟩
    exact h
  · intro h
    exact ⟨s, s, rfl, h⟩

theorem took_repeatFor : Took (repeatFor step (n + 1) a) s b s' ↔
      (∃ c t, Took (step a) s (.inl c) t ∧ Took (repeatFor step n c) t b s') ∨
        Took (step a) s (.inr b) s' := by
  rw [repeatFor, took_bind]
  constructor
  · rintro ⟨c | c, t, hstep, h⟩
    · exact .inl ⟨c, t, hstep, h⟩
    · obtain ⟨rfl, rfl⟩ := took_pure.1 h
      exact .inr hstep
  · rintro (⟨c, t, hstep, h⟩ | h)
    · exact ⟨.inl c, t, hstep, h⟩
    · exact ⟨.inr b, s', h, took_pure.2 ⟨rfl, rfl⟩⟩

end Parser

/-- The token behind the one in hand is the next one in hand. -/
theorem Stream.peek_eq (s : Stream) : s.peek = s.next.current := by
  unfold Stream.peek Stream.next
  cases s.rest <;> rfl

/-! ## What runs ensure -/

/-- A property of streams that a parser keeps when it passes a token or half of one. -/
structure Invariant where
  holds : Stream → Prop
  next {s : Stream} : holds s → s.current.kind ≠ .eof → holds s.next
  halve {s : Stream} : holds s → s.current.kind = .symbol .shiftRight → holds s.halve

open Parser in
/-- Each run from `s` keeps the invariant, and `Q` allows its value and the stream that it leaves. -/
def Ensures {α : Type} (I : Invariant) (s : Stream) (p : Parser α) (Q : α → Stream → Prop) : Prop :=
  I.holds s → ∀ ⦃a s'⦄, Took p s a s' → I.holds s' ∧ Q a s'

namespace Ensures

open Parser

variable {α β : Type} {I : Invariant} {s : Stream} {p : Parser α} {f : α → Parser β}
  {P : α → Stream → Prop} {Q : β → Stream → Prop} {a : α} {b : β} {k : Kind} {context : String}

theorem pure (h : Q b s) : Ensures I s (pure b) Q := by
  intro hs a s' htook
  obtain ⟨rfl, rfl⟩ := took_pure.1 htook
  exact ⟨hs, h⟩

theorem bind (hp : Ensures I s p P) (hf : ∀ a t, P a t → Ensures I t (f a) Q) : Ensures I s (p >>= f) Q := by
  intro hs b s' htook
  obtain ⟨a, t, hpt, hft⟩ := took_bind.1 htook
  obtain ⟨ht, hP⟩ := hp hs hpt
  exact hf a t hP ht hft

theorem mono (hp : Ensures I s p P) {R : α → Stream → Prop} (hPR : ∀ a t, P a t → R a t) :
    Ensures I s p R := by
  intro hs a s' htook
  obtain ⟨hs', hP⟩ := hp hs htook
  exact ⟨hs', hPR a s' hP⟩

/-- The invariant may be used. -/
theorem assume (h : I.holds s → Ensures I s p P) : Ensures I s p P := fun hs => h hs hs

theorem fail {fault : SyntaxFault} : Ensures I s (fail fault) Q :=
  fun _ _ _ h => (took_fail h).elim

theorem throw {e : ParseError} : Ensures I s (throw e) Q := fun _ _ _ h => (took_throw h).elim

theorem unexpected : Ensures I s unexpected Q := fun _ _ _ h => (took_unexpected h).elim

theorem current {f : Token → Parser β} (h : Ensures I s (f s.current) Q) :
    Ensures I s (current >>= f) Q := by
  intro hs b s' htook
  obtain ⟨_, _, hcurrent, hft⟩ := took_bind.1 htook
  obtain ⟨rfl, rfl⟩ := took_current.1 hcurrent
  exact h hs hft

theorem kind {f : Kind → Parser β} (h : Ensures I s (f s.current.kind) Q) :
    Ensures I s (kind >>= f) Q := by
  intro hs b s' htook
  obtain ⟨_, _, hkind, hft⟩ := took_bind.1 htook
  obtain ⟨rfl, rfl⟩ := took_kind.1 hkind
  exact h hs hft

theorem peekKind {f : Kind → Parser β} (h : Ensures I s (f s.next.current.kind) Q) :
    Ensures I s (peekKind >>= f) Q := by
  intro hs b s' htook
  obtain ⟨_, _, hkind, hft⟩ := took_bind.1 htook
  obtain ⟨rfl, rfl⟩ := took_peekKind.1 hkind
  rw [Stream.peek_eq] at hft
  exact h hs hft

theorem advance {Q : Unit → Stream → Prop} (hk : s.current.kind ≠ .eof) (h : Q () s.next) :
    Ensures I s advance Q := by
  intro hs _ s' htook
  obtain rfl := took_advance.1 htook
  exact ⟨I.next hs hk, h⟩

theorem advance_any (hk : s.current.kind ≠ .eof) : Ensures I s Parser.advance fun _ _ => True :=
  .advance hk trivial

theorem got {Q : Bool → Stream → Prop} (hk : k ≠ .eof) (hyes : s.current.kind = k → Q true s.next)
    (hno : s.current.kind ≠ k → Q false s) : Ensures I s (got k) Q := by
  intro hs b s' htook
  obtain ⟨hk', rfl, rfl⟩ | ⟨hk', rfl, rfl⟩ := took_got.1 htook
  · exact ⟨I.next hs (hk' ▸ hk), hyes hk'⟩
  · exact ⟨hs, hno hk'⟩

theorem expect {Q : Token → Stream → Prop} (hk : k ≠ .eof)
    (h : s.current.kind = k → Q s.current s.next) : Ensures I s (expect k context) Q := by
  intro hs b s' htook
  obtain ⟨hk', rfl, rfl⟩ := took_expect.1 htook
  exact ⟨I.next hs (hk' ▸ hk), h hk'⟩

theorem got_any (hk : k ≠ .eof) : Ensures I s (Parser.got k) fun _ _ => True :=
  .got hk (fun _ => trivial) fun _ => trivial

theorem expect_any (hk : k ≠ .eof) : Ensures I s (Parser.expect k context) fun _ _ => True :=
  .expect hk fun _ => trivial

theorem expectIdent {Q : String → Stream → Prop} (h : s.current.kind = .ident → Q s.current.data s.next) :
    Ensures I s (expectIdent context) Q := by
  intro hs b s' htook
  obtain ⟨hk, rfl, rfl⟩ := took_expectIdent.1 htook
  exact ⟨I.next hs (hk ▸ nofun), h hk⟩

theorem expectCloseAngle {Q : Unit → Stream → Prop} (hone : s.current.kind = .symbol .greater → Q () s.next)
    (hhalf : s.current.kind = .symbol .shiftRight → Q () s.halve) :
    Ensures I s expectCloseAngle Q := by
  intro hs _ s' htook
  obtain ⟨hk, rfl⟩ | ⟨hk, rfl⟩ := took_expectCloseAngle.1 htook
  · exact ⟨I.next hs (hk ▸ nofun), hone hk⟩
  · exact ⟨I.halve hs hk, hhalf hk⟩

theorem expectCloseAngle_any : Ensures I s Parser.expectCloseAngle fun _ _ => True :=
  .expectCloseAngle (fun _ => trivial) fun _ => trivial

theorem expectSemi {Q : Unit → Stream → Prop} (hsemi : s.current.kind = .symbol .semicolon → Q () s.next)
    (hend : s.current.kind = .symbol .closeBrace ∨ s.current.kind = .eof → Q () s) :
    Ensures I s (expectSemi context) Q := by
  intro hs _ s' htook
  obtain ⟨hk, rfl⟩ | ⟨hk, rfl⟩ := took_expectSemi.1 htook
  · exact ⟨I.next hs (hk ▸ nofun), hsemi hk⟩
  · exact ⟨hs, hend hk⟩

theorem expectSemi_any : Ensures I s (Parser.expectSemi context) fun _ _ => True :=
  .expectSemi (fun _ => trivial) fun _ => trivial

/-- What each turn of a loop keeps up is there when it ends. -/
theorem iterate {step : α → Parser (α ⊕ β)} {J : α → Stream → Prop}
    (hstep : ∀ a s, J a s → Ensures I s (step a) fun r t => r.elim (J · t) (Q · t)) (ha : J a s) :
    Ensures I s (Parser.iterate step a) Q := by
  intro hs b s' htook
  rw [took_iterate] at htook
  generalize s.weight + 1 = n at htook
  induction n generalizing a s with
  | zero => exact (took_fail htook).elim
  | succ n ih =>
    obtain ⟨c, t, hturn, hrest⟩ | hturn := took_repeatFor.1 htook
    · obtain ⟨ht, hJ⟩ := hstep a s ha hs hturn
      exact ih hJ ht hrest
    · exact hstep a s ha hs hturn

/-! Items of lists -/

section Items

variable {R : α → Prop} {c : Symbol}

/-- What is so of each item that a turn adds is so of all items of a loop. -/
theorem items {step : List α → Parser (List α ⊕ List α)}
    (h : ∀ xs s, (∀ x ∈ xs, R x) → Ensures I s (step xs) fun r _ => ∀ x ∈ r.elim id id, R x) :
    Ensures I s (Parser.iterate step []) fun xs _ => ∀ x ∈ xs, R x :=
  .iterate (J := fun xs _ => ∀ x ∈ xs, R x) (fun xs s hxs => (h xs s hxs).mono fun r _ => by cases r <;> exact id)
    (by simp)

theorem forall_concat {xs : List α} {x : α} (hxs : ∀ y ∈ xs, R y) (hx : R x) : ∀ y ∈ xs ++ [x], R y :=
  forall_mem_append.2 ⟨hxs, forall_mem_singleton.2 hx⟩

theorem sepBy (h : ∀ s, Ensures I s p fun x _ => R x) :
    Ensures I s (Parser.sepBy c p) fun xs _ => xs ≠ [] ∧ ∀ x ∈ xs, R x := by
  refine .iterate (J := fun xs _ => ∀ x ∈ xs, R x) (fun xs s hxs => ?_) (by simp)
  refine .bind (h s) fun x t hx => .bind (.got_any nofun) fun b t _ => .pure ?_
  cases b with
  | true => exact forall_concat hxs hx
  | false => exact ⟨by simp, forall_concat hxs hx⟩

theorem commaUntil (h : ∀ s, Ensures I s p fun x _ => R x) :
    Ensures I s (Parser.commaUntil c p) fun xs _ => ∀ x ∈ xs, R x := by
  refine items fun xs s hxs => .kind ?_
  split
  next => exact .pure hxs
  next =>
    refine .bind (h s) fun x t hx => .bind (.got_any nofun) fun b t _ => .pure ?_
    cases b <;> exact forall_concat hxs hx

theorem commaUntilStrict (h : ∀ s, Ensures I s p fun x _ => R x) :
    Ensures I s (Parser.commaUntilStrict c context p) fun xs _ => ∀ x ∈ xs, R x := by
  refine items fun xs s hxs => .kind ?_
  split
  next => exact .pure hxs
  next =>
    refine .bind (h s) fun x t hx => .bind (.got_any nofun) fun b t _ => ?_
    split
    next => exact .pure (forall_concat hxs hx)
    next =>
      refine .kind ?_
      split
      next => exact .pure (forall_concat hxs hx)
      next => exact .fail

theorem manyUntil {stop : Kind → Bool} (h : ∀ s, Ensures I s p fun x _ => R x) :
    Ensures I s (Parser.manyUntil stop p) fun xs _ => ∀ x ∈ xs, R x := by
  refine items fun xs s hxs => .kind ?_
  split
  next => exact .pure hxs
  next => exact .bind (h s) fun x t hx => .pure (forall_concat hxs hx)

end Items

end Ensures

/-! ## Pieces -/

/-- A token by its kind and data. -/
structure Terminal where
  kind : Kind
  data : String
deriving DecidableEq

/-- The data of a token that shows a terminal. Symbols and keywords have none. -/
def Terminal.content (t : Terminal) : String :=
  match t.kind with
  | .symbol _ | .keyword _ => ""
  | _ => t.data

/-- A piece of a written text: a blank, a token, or a closing angle bracket, which can be the half of a
token `>>`. -/
inductive Piece where
  | blank
  | mark (t : Terminal)
  | closing
deriving DecidableEq

namespace Piece

abbrev symbol (s : Symbol) : Piece := mark ⟨.symbol s, ""⟩

abbrev keyword (k : Keyword) : Piece := mark ⟨.keyword k, ""⟩

abbrev ident (name : String) : Piece := mark ⟨.ident, name⟩

/-- An opening angle bracket. Its data, which no token shows, tell it from the operator. -/
abbrev opening : Piece := mark ⟨.symbol .less, "<"⟩

/-- How many of some pieces are no blanks. -/
def weight : List Piece → Nat
  | [] => 0
  | blank :: ps => weight ps
  | _ :: ps => weight ps + 1

/-- The kind of the first piece that is no blank. -/
def nextKind : List Piece → Option Kind
  | [] => none
  | blank :: ps => nextKind ps
  | mark t :: _ => some t.kind
  | closing :: _ => some (.symbol .greater)

variable {ps qs : List Piece} {k : Kind} {K L : Kind → Prop}

@[simp] theorem weight_append (ps qs : List Piece) : weight (ps ++ qs) = weight ps + weight qs := by
  induction ps with
  | nil => simp [weight]
  | cons p ps ih => cases p <;> simp [weight, ih] <;> omega

theorem nextKind_append (h : nextKind ps = some k) (qs : List Piece) : nextKind (ps ++ qs) = some k := by
  induction ps with
  | nil => simp [nextKind] at h
  | cons p ps ih => cases p <;> simp_all [nextKind]

theorem isSome_nextKind (h : (nextKind qs).isSome) : (nextKind (ps ++ qs)).isSome := by
  induction ps with
  | nil => exact h
  | cons p ps ih => cases p <;> simp [nextKind, ih]

theorem weight_pos (h : (nextKind ps).isSome) : 0 < weight ps := by
  induction ps with
  | nil => simp [nextKind] at h
  | cons p ps ih => cases p <;> simp_all [nextKind, weight]

/-- The first kind of some pieces is one that is allowed. -/
def Next (K : Kind → Prop) (ps : List Piece) : Prop := ∃ k, nextKind ps = some k ∧ K k

theorem Next.mono (hKL : ∀ k, K k → L k) {ps : List Piece} (h : Next K ps) : Next L ps := by
  obtain ⟨k, hk, hK⟩ := h
  exact ⟨k, hk, hKL k hK⟩

theorem Next.append (h : Next K ps) (qs : List Piece) : Next K (ps ++ qs) := by
  obtain ⟨k, hk, hK⟩ := h
  exact ⟨k, nextKind_append hk qs, hK⟩

theorem Next.isSome (h : Next K ps) : (nextKind ps).isSome := by
  obtain ⟨k, hk, -⟩ := h
  simp [hk]

def Blanks (ps : List Piece) : Prop := ps.filter (· ≠ blank) = []

/-- One token of a kind, with blanks around it. -/
def OneOf (k : Kind) (ps : List Piece) : Prop :=
  ∃ t, ps.filter (· ≠ blank) = [mark t] ∧ t.kind = k

theorem OneOf.nextKind (h : OneOf k ps) : nextKind ps = some k := by
  obtain ⟨t, ht, rfl⟩ := h
  induction ps with
  | nil => simp at ht
  | cons p ps ih => cases p <;> simp_all [Piece.nextKind]

theorem OneOf.weight (h : OneOf k ps) : weight ps = 1 := by
  obtain ⟨t, ht, -⟩ := h
  have hcount (qs : List Piece) : Piece.weight qs = (qs.filter (· ≠ blank)).length := by
    induction qs with
    | nil => rfl
    | cons q qs ih => cases q <;> simp_all [Piece.weight]
  rw [hcount, ht]
  rfl

end Piece

/-! ## Lists with separators -/

theorem intercalate_concat {κ : Type} (sep : List κ) (ls : List (List κ)) (l : List κ) :
    sep.intercalate (ls ++ [l]) = ls.flatMap (· ++ sep) ++ l := by
  induction ls with
  | nil => simp
  | cons k ls ih => cases ls <;> simp_all

theorem map_intercalate {κ μ : Type} (f : κ → μ) (sep : List κ) (ls : List (List κ)) :
    (sep.intercalate ls).map f = (sep.map f).intercalate (ls.map (List.map f)) := by
  induction ls with
  | nil => simp
  | cons k ls ih => cases ls <;> simp_all

theorem sublist_intercalate {κ : Type} {sep l : List κ} {ls : List (List κ)} (h : l ∈ ls) :
    l.Sublist (sep.intercalate ls) := by
  induction ls with
  | nil => simp at h
  | cons k ls ih =>
    cases ls with
    | nil => simp_all
    | cons m ls =>
      rw [intercalate_cons_cons]
      obtain rfl | h := mem_cons.1 h
      · rw [append_assoc]
        exact sublist_append_left l _
      · exact (ih h).trans (sublist_append_right ..)

/-- Some things that stand one after another, with something between each two. -/
inductive Separated {α κ : Type} (between : List κ → Prop) (R : α → List κ → Prop) :
    List α → List κ → Prop
  | one {a ks} (h : R a ks) : Separated between R [a] ks
  | more {a as ks bs ls} (h : R a ks) (hb : between bs) (hrest : Separated between R as ls) :
    Separated between R (a :: as) (ks ++ bs ++ ls)

theorem Separated.imp {α κ : Type} {between : List κ → Prop} {R S : α → List κ → Prop}
    (hRS : ∀ a ks, R a ks → S a ks) {as : List α} {ks : List κ} (h : Separated between R as ks) :
    Separated between S as ks := by
  induction h with
  | one h => exact .one (hRS _ _ h)
  | more h hb _ ih => exact .more (hRS _ _ h) hb ih

open Piece in
/-- The first kind of a list is that of its first item. -/
theorem Separated.next {α : Type} {between : List Piece → Prop} {R : α → List Piece → Prop}
    {K : Kind → Prop} {as : List α} {ps : List Piece}
    (h : Separated between (fun a ps => R a ps ∧ Next K ps) as ps) : Next K ps := by
  cases h with
  | one h => exact h.2
  | more h => exact (h.2.append _).append _

/-- Items with the same list between each two of them. -/
theorem separated_intercalate {ι α κ : Type} {between : List κ → Prop} {R : α → List κ → Prop}
    {sep : List κ} (hsep : between sep) (value : ι → α) (spell : ι → List κ) {is : List ι}
    (hne : is ≠ []) (h : ∀ i ∈ is, R (value i) (spell i)) :
    Separated between R (is.map value) (sep.intercalate (is.map spell)) := by
  induction is with
  | nil => exact (hne rfl).elim
  | cons i is ih =>
    cases is with
    | nil => simpa using .one (h i (by simp))
    | cons j is =>
      simp only [map_cons, intercalate_cons_cons]
      refine .more (h i (by simp)) hsep ?_
      exact ih (by simp) fun k hk => h k (mem_cons_of_mem _ hk)

/-! ## Views -/

open Piece Parser

/-- A way to see pieces in a stream. -/
structure View where
  shows : Stream → List Piece → Prop
  skip {s : Stream} {ps : List Piece} : shows s (blank :: ps) → shows s ps
  current {s : Stream} {t : Terminal} {ps : List Piece} : shows s (mark t :: ps) →
    s.current.kind = t.kind ∧ (t.kind = .ident → s.current.data = t.data)
  next {s : Stream} {t : Terminal} {ps : List Piece} : shows s (mark t :: ps) →
    (nextKind ps).isSome → shows s.next ps
  angle {s : Stream} {ps : List Piece} : shows s (closing :: ps) →
    s.current.kind = .symbol .greater ∨ s.current.kind = .symbol .shiftRight
  close {s : Stream} {ps : List Piece} : shows s (closing :: ps) → (nextKind ps).isSome →
    ∃ s', Took expectCloseAngle s () s' ∧ shows s' ps
  weigh {s : Stream} {ps : List Piece} : shows s ps → weight ps ≤ s.weight

namespace View

/-- Tokens are shown with their data, also where these are no name. -/
def Exact (V : View) : Prop :=
  ∀ ⦃s t ps⦄, V.shows s (mark t :: ps) → s.current.data = t.content

variable {V : View} {s : Stream} {ps : List Piece} {k j : Kind}

/-- What is allowed of the first kind holds of the kind in hand, if it makes no difference to it that
two brackets are one token. -/
theorem kind_of_next {K : Kind → Prop} (h : V.shows s ps) (hps : Next K ps)
    (hK : K (.symbol .greater) → K (.symbol .shiftRight)) : K s.current.kind := by
  obtain ⟨k, hk, hKk⟩ := hps
  induction ps with
  | nil => simp [nextKind] at hk
  | cons p ps ih =>
    cases p with
    | blank => exact ih (V.skip h) hk
    | mark t =>
      obtain rfl := Option.some.inj hk
      rwa [(V.current h).1]
    | closing =>
      obtain rfl := Option.some.inj hk
      obtain hg | hs := V.angle h
      · rwa [hg]
      · exact hs ▸ hK hKk

/-- The kind in hand is the one that is shown, unless that is half of a token. -/
theorem kind (h : V.shows s ps) (hk : nextKind ps = some k) (hne : k ≠ .symbol .greater) : s.current.kind = k :=
  V.kind_of_next (K := (· = k)) h ⟨k, hk, rfl⟩ fun heq => (hne heq.symm).elim

theorem blanks {bs : List Piece} (hb : Blanks bs) (h : V.shows s (bs ++ ps)) : V.shows s ps := by
  unfold Blanks at hb
  induction bs with
  | nil => exact h
  | cons b bs ih =>
    cases b with
    | blank => exact ih (by simpa using hb) (V.skip h)
    | _ => simp at hb

/-- One token between two others is passed. -/
theorem one {bs : List Piece} (hb : OneOf k bs) (h : V.shows s (bs ++ ps))
    (hps : (nextKind ps).isSome) : s.current.kind = k ∧ V.shows s.next ps := by
  obtain ⟨t, ht, rfl⟩ := hb
  induction bs with
  | nil => simp at ht
  | cons b bs ih =>
    cases b with
    | blank => exact ih (V.skip h) (by simpa using ht)
    | mark u =>
      simp only [ne_eq, reduceCtorEq, not_false_eq_true, decide_true, filter_cons_of_pos,
        List.cons.injEq, mark.injEq] at ht
      obtain ⟨rfl, hbs⟩ := ht
      exact ⟨(V.current h).1, blanks hbs (V.next h (isSome_nextKind hps))⟩
    | closing => simp at ht

end View

/-- The parser gives `a` and goes on behind `ps`, wherever `ps` stands in front of what `F` allows. -/
def Reads {α : Type} (V : View) (p : Parser α) (a : α) (ps : List Piece) (F : List Piece → Prop) : Prop :=
  ∀ s rest, V.shows s (ps ++ rest) → (nextKind rest).isSome → F rest →
    ∃ s', Took p s a s' ∧ V.shows s' rest

namespace Reads

variable {α β : Type} {V : View} {p : Parser α} {f : α → Parser β} {a : α} {b : β}
  {ps qs : List Piece} {F G : List Piece → Prop} {t : Terminal} {k : Kind} {K : Kind → Prop}
  {context : String}

theorem pure : Reads V (pure a) a [] F := fun s _ h _ _ => ⟨s, took_pure.2 ⟨rfl, rfl⟩, h⟩

theorem mono (h : Reads V p a ps F) (hFG : ∀ rest, G rest → F rest) : Reads V p a ps G :=
  fun s rest hs hsome hG => h s rest hs hsome (hFG rest hG)

theorem blank (h : Reads V p a ps F) : Reads V p a (blank :: ps) F :=
  fun s rest hs hsome hF => h s rest (V.skip hs) hsome hF

theorem blanks {bs : List Piece} (hb : Blanks bs) (h : Reads V p a ps F) : Reads V p a (bs ++ ps) F :=
  fun s rest hs hsome hF => h s rest (View.blanks hb (by rwa [← append_assoc])) hsome hF

/-- A parser that gives a value behind which the next one reads. -/
theorem andThen (h : ∀ s rest, V.shows s (ps ++ rest) → (nextKind rest).isSome → F rest →
    ∃ a s', Took p s a s' ∧ ∃ qs, V.shows s' (qs ++ rest) ∧ Reads V (f a) b qs F) :
    Reads V (p >>= f) b ps F := by
  intro s rest hs hsome hF
  obtain ⟨a, s₁, h₁, qs, hs₁, hf⟩ := h s rest hs hsome hF
  obtain ⟨s₂, h₂, hs₂⟩ := hf s₁ rest hs₁ hsome hF
  exact ⟨s₂, took_bind.2 ⟨a, s₁, h₁, h₂⟩, hs₂⟩

/-- What one parser leaves is read by the next. -/
theorem bind (h : Reads V p a ps F) (hf : Reads V (f a) b qs G)
    (hF : ∀ rest, G rest → F (qs ++ rest)) : Reads V (p >>= f) b (ps ++ qs) G := by
  refine andThen fun s rest hs hsome hG => ?_
  rw [append_assoc] at hs
  obtain ⟨s₁, h₁, hs₁⟩ := h s (qs ++ rest) hs (isSome_nextKind hsome) (hF rest hG)
  exact ⟨a, s₁, h₁, qs, hs₁, hf⟩

/-- A parser that others follow, of which none reads anything. -/
theorem bind_done (h : Reads V p a ps F) (hf : Reads V (f a) b [] F) : Reads V (p >>= f) b ps F := by
  refine andThen fun s rest hs hsome hF => ?_
  obtain ⟨s₁, h₁, hs₁⟩ := h s rest hs hsome hF
  exact ⟨a, s₁, h₁, [], hs₁, hf⟩

theorem advance {f : Unit → Parser β} (h : Reads V (f ()) b ps F) :
    Reads V (advance >>= f) b (mark t :: ps) F :=
  andThen fun s _ hs hsome _ =>
    ⟨(), s.next, took_advance.2 rfl, ps, V.next hs (isSome_nextKind hsome), h⟩

theorem current {f : Token → Parser β} (h : ∀ u : Token, u.kind = t.kind →
    (t.kind = .ident → u.data = t.data) → Reads V (f u) b (mark t :: ps) F) :
    Reads V (current >>= f) b (mark t :: ps) F :=
  andThen fun s _ hs _ _ =>
    ⟨_, s, took_current.2 ⟨rfl, rfl⟩, _, hs, h s.current (V.current hs).1 (V.current hs).2⟩

theorem current_exact {f : Token → Parser β} (hV : V.Exact) (h : ∀ u : Token, u.kind = t.kind →
    u.data = t.content → Reads V (f u) b (mark t :: ps) F) :
    Reads V (Parser.current >>= f) b (mark t :: ps) F :=
  andThen fun s _ hs _ _ => ⟨_, s, took_current.2 ⟨rfl, rfl⟩, _, hs, h s.current (V.current hs).1 (hV hs)⟩

theorem kind {f : Kind → Parser β} (h : Reads V (f t.kind) b (mark t :: ps) F) :
    Reads V (kind >>= f) b (mark t :: ps) F :=
  andThen fun s _ hs _ _ => ⟨_, s, took_kind.2 ⟨(V.current hs).1.symm, rfl⟩, _, hs, h⟩

/-- Look at a token of which only some things are known. -/
theorem current_any {f : Token → Parser β} (h : ∀ u : Token, K u.kind → Reads V (f u) b ps F)
    (hps : ∀ rest, F rest → Next K (ps ++ rest)) (hK : K (.symbol .greater) → K (.symbol .shiftRight)) :
    Reads V (Parser.current >>= f) b ps F :=
  andThen fun s rest hs _ hF =>
    ⟨_, s, took_current.2 ⟨rfl, rfl⟩, _, hs, h _ (V.kind_of_next hs (hps rest hF) hK)⟩

theorem kind_any {f : Kind → Parser β} (h : ∀ k, K k → Reads V (f k) b ps F)
    (hps : ∀ rest, F rest → Next K (ps ++ rest)) (hK : K (.symbol .greater) → K (.symbol .shiftRight)) :
    Reads V (Parser.kind >>= f) b ps F :=
  andThen fun s rest hs _ hF =>
    ⟨_, s, took_kind.2 ⟨rfl, rfl⟩, _, hs, h _ (V.kind_of_next hs (hps rest hF) hK)⟩

theorem peekKind {f : Kind → Parser β} (h : Reads V (f k) b (mark t :: ps) F) (hk : nextKind ps = some k)
    (hne : k ≠ .symbol .greater) : Reads V (peekKind >>= f) b (mark t :: ps) F := by
  refine andThen fun s rest hs hsome _ => ?_
  have hnext := V.kind (V.next hs (isSome_nextKind hsome)) (nextKind_append hk rest) hne
  rw [← Stream.peek_eq] at hnext
  exact ⟨k, s, took_peekKind.2 ⟨hnext.symm, rfl⟩, _, hs, h⟩

theorem peekKind_ne {f : Kind → Parser β} {j : Kind} (h : ∀ k, k ≠ j → Reads V (f k) b (mark t :: ps) F)
    (hk : ∀ rest, F rest → Next (· ≠ j) (ps ++ rest)) (hne : j ≠ .symbol .shiftRight) :
    Reads V (Parser.peekKind >>= f) b (mark t :: ps) F := by
  refine andThen fun s rest hs hsome hF => ?_
  have hnext := V.kind_of_next (V.next hs (isSome_nextKind hsome)) (hk rest hF) fun _ => hne.symm
  rw [← Stream.peek_eq] at hnext
  exact ⟨_, s, took_peekKind.2 ⟨rfl, rfl⟩, _, hs, h _ hnext⟩

theorem peekKind_any {f : Kind → Parser β} (h : ∀ k, Reads V (f k) b ps F) :
    Reads V (Parser.peekKind >>= f) b ps F :=
  andThen fun s _ hs _ _ => ⟨_, s, took_peekKind.2 ⟨rfl, rfl⟩, _, hs, h _⟩

theorem got {f : Bool → Parser β} (hk : t.kind = k) (h : Reads V (f true) b ps F) :
    Reads V (got k >>= f) b (mark t :: ps) F :=
  andThen fun s _ hs hsome _ => ⟨true, s.next, took_got.2 (.inl ⟨(V.current hs).1.trans hk, rfl, rfl⟩), ps,
    V.next hs (isSome_nextKind hsome), h⟩

theorem not_got {f : Bool → Parser β} (h : Reads V (f false) b ps F)
    (hk : ∀ rest, F rest → Next (· ≠ k) (ps ++ rest)) (hne : k ≠ .symbol .shiftRight) :
    Reads V (Parser.got k >>= f) b ps F :=
  andThen fun s rest hs _ hF =>
    ⟨false, s, took_got.2 (.inr ⟨V.kind_of_next hs (hk rest hF) fun _ => hne.symm, rfl, rfl⟩), _, hs, h⟩

/-- A token with blanks around it is passed. -/
theorem got_one {f : Bool → Parser β} (hb : OneOf k ps) (h : Reads V (f true) b [] F) :
    Reads V (Parser.got k >>= f) b ps F := by
  refine andThen fun s rest hs hsome _ => ?_
  obtain ⟨hk, hnext⟩ := V.one hb hs hsome
  exact ⟨true, s.next, took_got.2 (.inl ⟨hk, rfl, rfl⟩), [], hnext, h⟩

/-- A loop has come to the kind that it looks for. -/
theorem stopped {f : Kind → Parser β} (h : Reads V (f k) b [] (Next (· = k)))
    (hne : k ≠ .symbol .greater) : Reads V (Parser.kind >>= f) b [] (Next (· = k)) :=
  .kind_any (K := (· = k)) (fun _ hk => hk ▸ h) (fun _ h => h) fun heq => (hne heq.symm).elim

/-- A loop has not come to the kind that it looks for. -/
theorem not_stopped {x y : Parser β} (h : Reads V y b ps F)
    (hk : ∀ rest, F rest → Next (· ≠ k) (ps ++ rest)) (hne : k ≠ .symbol .shiftRight) :
    Reads V (do if (← Parser.kind) = k then x else y) b ps F :=
  .kind_any (fun _ hk => by rwa [if_neg hk]) hk fun _ => hne.symm

theorem expect {f : Token → Parser β} (hk : t.kind = k) (h : ∀ u : Token, Reads V (f u) b ps F) :
    Reads V (expect k context >>= f) b (mark t :: ps) F :=
  andThen fun s _ hs hsome _ => ⟨_, s.next, took_expect.2 ⟨(V.current hs).1.trans hk, rfl, rfl⟩, ps,
    V.next hs (isSome_nextKind hsome), h _⟩

theorem expect_one {f : Token → Parser β} (hb : OneOf k ps) (h : ∀ u : Token, Reads V (f u) b qs F) :
    Reads V (Parser.expect k context >>= f) b (ps ++ qs) F := by
  refine andThen fun s rest hs hsome _ => ?_
  rw [append_assoc] at hs
  obtain ⟨hk, hnext⟩ := V.one hb hs (isSome_nextKind hsome)
  exact ⟨_, s.next, took_expect.2 ⟨hk, rfl, rfl⟩, qs, hnext, h _⟩

theorem expectIdent {f : String → Parser β} {name : String} (h : Reads V (f name) b ps F) :
    Reads V (expectIdent context >>= f) b (ident name :: ps) F :=
  andThen fun s _ hs hsome _ =>
    ⟨name, s.next, took_expectIdent.2 ⟨(V.current hs).1, ((V.current hs).2 rfl).symm, rfl⟩, ps,
      V.next hs (isSome_nextKind hsome), h⟩

theorem ident {name : String} : Reads V (Parser.expectIdent context) name [ident name] F := by
  simpa using expectIdent (f := Pure.pure) .pure

theorem close {f : Unit → Parser β} (h : Reads V (f ()) b ps F) :
    Reads V (expectCloseAngle >>= f) b (closing :: ps) F := by
  refine andThen fun s rest hs hsome _ => ?_
  obtain ⟨s₁, h₁, hs₁⟩ := V.close hs (isSome_nextKind hsome)
  exact ⟨(), s₁, h₁, ps, hs₁, h⟩

theorem semicolon {f : Unit → Parser β} (h : Reads V (f ()) b ps F) :
    Reads V (expectSemi context >>= f) b (symbol .semicolon :: ps) F :=
  andThen fun s _ hs hsome _ => ⟨(), s.next, took_expectSemi.2 (.inl ⟨(V.current hs).1, rfl⟩), ps,
    V.next hs (isSome_nextKind hsome), h⟩

end Reads

/-! ## Loops -/

section Loops

variable {α β : Type} {V : View} {step : α → Parser (α ⊕ β)} {a : α} {b : β} {ps : List Piece}
  {F : List Piece → Prop}

/-- The turns of a loop: what each of them reads, up to the one that gives the result. -/
inductive Turns (V : View) (step : α → Parser (α ⊕ β)) (b : β) (F : List Piece → Prop) :
    α → List Piece → Prop
  | last {a : α} {ps : List Piece} (h : Reads V (step a) (.inr b) ps F) : Turns V step b F a ps
  | more {a : α} {c} {ps : List Piece} {qs G} (h : Reads V (step a) (.inl c) ps G)
    (hG : ∀ rest, F rest → G (qs ++ rest)) (hw : 0 < weight ps) (hrest : Turns V step b F c qs) :
    Turns V step b F a (ps ++ qs)

/-- Each turn but the last takes a token, so the loop turns often enough. -/
theorem Turns.reads (h : Turns V step b F a ps) : Reads V (iterate step a) b ps F := by
  intro s rest hs hsome hF
  have hloop (n : Nat) (hn : weight ps < n) :
      ∃ s', Took (repeatFor step n a) s b s' ∧ V.shows s' rest := by
    induction h generalizing s n with
    | last h =>
      obtain ⟨n, rfl⟩ := Nat.exists_eq_add_of_lt hn
      obtain ⟨s', htook, hs'⟩ := h s rest hs hsome hF
      exact ⟨s', took_repeatFor.2 (.inr htook), hs'⟩
    | @more a c ps qs G h hG hw _ ih =>
      obtain ⟨n, rfl⟩ := Nat.exists_eq_add_of_lt hn
      rw [append_assoc] at hs
      obtain ⟨s₁, htook, hs₁⟩ := h s _ hs (isSome_nextKind hsome) (hG rest hF)
      obtain ⟨s', hloop, hs'⟩ := ih s₁ hs₁ (weight (ps ++ qs) + n) (by rw [weight_append]; omega)
      exact ⟨s', took_repeatFor.2 (.inl ⟨_, s₁, htook, hloop⟩), hs'⟩
  have hweight := V.weigh hs
  rw [weight_append] at hweight
  obtain ⟨s', htook, hs'⟩ := hloop (s.weight + 1) (by omega)
  exact ⟨s', took_iterate.2 htook, hs'⟩

end Loops

/-! ## Lists -/

section Lists

variable {α : Type} {V : View} {item : Parser α} {xs : List α} {ps : List Piece}
  {F G : List Piece → Prop}

/-- The turns over items with separators, given what a turn does with an item and the separator behind it,
and what is done with the last item. -/
theorem Separated.turns {step : List α → Parser (List α ⊕ List α)} {R : α → List Piece → Prop} {sep : Symbol}
    (h : Separated (OneOf (.symbol sep)) R xs ps)
    (hone : ∀ acc x ps, R x ps → Turns V step (acc ++ [x]) F acc ps)
    (hmore : ∀ acc x ps bs, R x ps → OneOf (.symbol sep) bs →
      Reads V (step acc) (.inl (acc ++ [x])) (ps ++ bs) fun _ => True) (acc : List α) :
    Turns V step (acc ++ xs) F acc ps := by
  induction h generalizing acc with
  | one h => exact hone acc _ _ h
  | @more x xs ks bs ls h hb _ ih =>
    rw [append_cons]
    exact .more (hmore acc x ks bs h hb) (fun _ _ => trivial) (by simp [hb.weight]) (ih _)

/-- Items with separators between them, where each item but the last comes before a separator. -/
theorem reads_sepBy {sep : Symbol}
    (h : Separated (OneOf (.symbol sep)) (fun x ps => Reads V item x ps G) xs ps)
    (hG : ∀ rest, Next (· = .symbol sep) rest → G rest)
    (hF : ∀ rest, F rest → G rest ∧ Next (· ≠ .symbol sep) rest) (hs : sep ≠ .shiftRight) :
    Reads V (sepBy sep item) xs ps F := by
  refine (h.turns (fun acc x ps hitem => .last ?_) (fun acc x ps bs hitem hb => ?_) []).reads
  · refine (hitem.mono fun rest h => (hF rest h).1).bind_done ?_
    exact .not_got .pure (fun rest h => (hF rest h).2) (by simpa using hs)
  · refine hitem.bind (.got_one hb .pure) fun rest _ => hG _ ?_
    exact ⟨_, nextKind_append hb.nextKind rest, rfl⟩

/-- A list that can be empty. -/
def Listed {κ : Type} (between : List κ → Prop) (R : α → List κ → Prop) (xs : List α) (ks : List κ) : Prop :=
  (xs = [] ∧ ks = []) ∨ Separated between R xs ks

section Stop

variable {stop : Symbol} {β : Type} {b : β} {x : α} {y : Parser β} {f : α → Bool → Parser β}

/-- A turn of a loop that reads an item and the comma behind it. -/
theorem reads_item (hitem : Reads V item x ps G ∧ Next (· ≠ .symbol stop) ps) {bs : List Piece}
    (hb : OneOf (.symbol .comma) bs) (hG : ∀ rest, Next (· = .symbol .comma) rest → G rest)
    (hsh : stop ≠ .shiftRight) (hf : Reads V (f x true) b [] F) :
    Reads V (do if (← kind) = Kind.symbol stop then y else f (← item) (← got Symbol.comma)) b (ps ++ bs) F := by
  refine .not_stopped ?_ (fun rest _ => (hitem.2.append bs).append rest) (by simpa using hsh)
  refine hitem.1.bind (.got_one hb hf) fun rest _ => hG _ ?_
  exact ⟨_, nextKind_append hb.nextKind rest, rfl⟩

/-- A turn that reads the last item. -/
theorem reads_lastItem (hitem : Reads V item x ps G ∧ Next (· ≠ .symbol stop) ps)
    (hG : ∀ rest, Next (· = .symbol stop) rest → G rest) (hs : stop ≠ .comma) (hsh : stop ≠ .shiftRight)
    (hf : Reads V (f x false) b [] (Next (· = .symbol stop))) :
    Reads V (do if (← kind) = Kind.symbol stop then y else f (← item) (← got Symbol.comma)) b ps
      (Next (· = .symbol stop)) := by
  refine .not_stopped ?_ (fun rest _ => hitem.2.append rest) (by simpa using hsh)
  refine (hitem.1.mono hG).bind_done (.not_got hf (fun rest h => h.mono fun k hk => ?_) (by simp))
  simp [hk, hs]

variable {xs : List α} {context : String}
  (h : Listed (OneOf (.symbol .comma)) (fun x ps => Reads V item x ps G ∧ Next (· ≠ .symbol stop) ps) xs ps)
  (hG : ∀ rest, Next (fun k => k = .symbol .comma ∨ k = .symbol stop) rest → G rest)
  (hs : stop ≠ .comma) (hsh : stop ≠ .shiftRight) (hgr : stop ≠ .greater)

include h hG hs hsh hgr

/-- Items up to a closing token, none of which starts like it. -/
theorem reads_commaUntil : Reads V (commaUntil stop item) xs ps (Next (· = .symbol stop)) := by
  obtain ⟨rfl, rfl⟩ | h := h
  · exact Turns.reads (.last (.stopped (by simpa using Reads.pure) (by simpa using hgr)))
  refine (h.turns (fun acc x ps hitem => .last ?_) (fun acc x ps bs hitem hb => ?_) []).reads
  · exact reads_lastItem hitem (fun rest h => hG rest (h.mono fun k => .inr)) hs hsh .pure
  · exact reads_item hitem hb (fun rest h => hG rest (h.mono fun k => .inl)) hsh .pure

theorem reads_commaUntilStrict :
    Reads V (commaUntilStrict stop context item) xs ps (Next (· = .symbol stop)) := by
  obtain ⟨rfl, rfl⟩ | h := h
  · exact Turns.reads (.last (.stopped (by simpa using Reads.pure) (by simpa using hgr)))
  refine (h.turns (fun acc x ps hitem => ?_) (fun acc x ps bs hitem hb => ?_) []).reads
  · rw [← append_nil ps]
    refine .more (G := Next (· = .symbol stop)) ?_ (fun _ h => h) (weight_pos hitem.2.isSome)
      (.last (.stopped (by simpa using Reads.pure) (by simpa using hgr)))
    refine reads_lastItem hitem (fun rest h => hG rest (h.mono fun k => .inr)) hs hsh ?_
    exact .stopped (by simpa using Reads.pure) (by simpa using hgr)
  · exact reads_item hitem hb (fun rest h => hG rest (h.mono fun k => .inl)) hsh .pure

end Stop

end Lists

/-! ## Tokens in view -/

/-- A token is a terminal. The data of a token that is no name count only if they must be exact. -/
def Token.Is (exact : Bool) (t : Token) (k : Terminal) : Prop :=
  t.kind = k.kind ∧ (exact ∨ k.kind = .ident → t.data = k.content)

/-- Tokens that show some pieces. Blanks cannot be seen in them. -/
inductive Shown (exact : Bool) : List Token → List Piece → Prop
  | nil : Shown exact [] []
  | blank {ts ps} (h : Shown exact ts ps) : Shown exact ts (blank :: ps)
  | mark {t : Token} {k ts ps} (ht : t.Is exact k) (h : Shown exact ts ps) : Shown exact (t :: ts) (mark k :: ps)
  | closing {t : Token} {ts ps} (ht : t.kind = .symbol .greater) (h : Shown exact ts ps) :
    Shown exact (t :: ts) (closing :: ps)
  | both {t : Token} {ts ps} (ht : t.kind = .symbol .shiftRight) (h : Shown exact ts ps) :
    Shown exact (t :: ts) (closing :: closing :: ps)

namespace Shown

variable {exact : Bool} {s : Stream} {ts : List Token} {ps : List Piece}

theorem weight_le (h : Shown exact ts ps) : weight ps ≤ Token.weightAll ts := by
  induction h with
  | nil => exact Nat.le_refl _
  | blank _ ih => exact ih
  | @mark t _ _ _ _ _ ih =>
    have ht : 0 < t.weight := by unfold Token.weight; split <;> decide
    simp only [weight, Token.weightAll]
    omega
  | @closing t _ _ _ _ ih =>
    have ht : 0 < t.weight := by unfold Token.weight; split <;> decide
    simp only [weight, Token.weightAll]
    omega
  | both ht _ ih =>
    simp only [weight, Token.weightAll, Token.weight, if_pos ht]
    omega

/-- Where pieces are left, so are tokens. -/
theorem next (h : Shown exact s.rest ps) (hps : (nextKind ps).isSome) :
    Shown exact (s.next.current :: s.next.rest) ps := by
  unfold Stream.next
  split
  next hnil =>
    rw [hnil] at h
    have hweight := h.weight_le
    have := weight_pos hps
    simp only [Token.weightAll] at hweight
    omega
  next hcons => rwa [hcons] at h

end Shown

/-- The pieces that are shown by the tokens of a stream. -/
def tokenView (exact : Bool) : View where
  shows s ps := Shown exact (s.current :: s.rest) ps
  skip := by
    rintro s ps (_ | h)
    exact h
  current := by
    rintro s t ps (_ | _ | ⟨⟨hk, hd⟩, _⟩)
    exact ⟨hk, fun h => by simpa [Terminal.content, h] using hd (.inr h)⟩
  next := by
    rintro s t ps (_ | _ | ⟨_, h⟩) hps
    exact h.next hps
  angle := by
    rintro s ps (_ | _ | _ | ⟨ht, _⟩ | ⟨ht, _⟩)
    · exact .inl ht
    · exact .inr ht
  close := by
    rintro s ps (_ | _ | _ | ⟨ht, h⟩ | ⟨ht, h⟩) hps
    · exact ⟨_, took_expectCloseAngle.2 (.inl ⟨ht, rfl⟩), h.next hps⟩
    · exact ⟨_, took_expectCloseAngle.2 (.inr ⟨ht, rfl⟩), .closing rfl h⟩
  weigh := Shown.weight_le

theorem tokenView_exact : (tokenView true).Exact := by
  rintro s t ps (_ | _ | ⟨⟨_, hd⟩, _⟩)
  exact hd (.inl rfl)

end ScriptTyping
