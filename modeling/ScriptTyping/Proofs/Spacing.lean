import ScriptTyping.Proofs.Everywhere
import ScriptTyping.Proofs.Relexing

/-!
# Spacing

In the text of a legible tree no two pieces run into each other. `Node.Legible` says of each node what
this takes: a sign is not followed by the same sign, an operator behind an operand or a bracket does not
stand behind an operator before it, and names and strings can be read again.

Main statement: `linked_program`. Each piece of a program stands before the next (`Linked`). The
induction is over phrases. An expression is linked between any piece that can be before it and any piece
that can be behind it (`Spaced`), so a phrase is put together from its parts without a look into them.
-/

namespace ScriptTyping

open Piece List
open Node hiding ident

variable {o : Bool} {k : Keyword} {ps rest ys : List Piece} {c : Symbol}

/-! ## Legible trees -/

/-- Whether a type has parameters of its own. -/
def TypeExpr.isGeneric : TypeExpr → Bool
  | .generic .. => true
  | _ => false

/-- Nothing in a type runs into its neighbour: no two opening brackets stand side by side. -/
def TypeExpr.Legible (loose : Bool) : TypeExpr → Prop
  | .array t | .map t _ | .promise t | .structRef _ (t :: _) | .enumRef _ (t :: _) =>
    t.isGeneric → loose
  | _ => True

namespace Node

/-- Whether a node is an operator at one operand. -/
def isUnary : Node → Bool
  | unary .. | update .. => true
  | _ => false

/-- The first character of an operator that stands before its operand. -/
def sign : Node → Option Char
  | unary op _ | update op _ true => op.toList.head?
  | _ => none

/-- What is written behind a node belongs to all of it. -/
def IsHead (loose : Bool) (x : Node) : Prop := x.sign = none ∧ (x.isUnary → loose)

/-- What is written for a node can be told from what is written for others. A loose text is one that the
grammar need not accept. -/
def Legible (loose : Bool) : Node → Prop
  | unary op x => op = "+" ∨ op = "-" → x.sign ≠ op.toList.head?
  | update _ x false | call x _ | member x _ _ | index x _ => x.IsHead loose
  | string value => ∀ c ∈ value.toList, Readable c
  | object props => ∀ q ∈ props, IsWord q.1.toList ∧ (Keyword.ofSpelling? q.1 = none ∨ loose)
  | array elems => ∀ x ∈ elems, x.isAssign → loose
  | exprStmt x => (exprStmt x).text.toList.head? = some '\x7b' → loose
  | type t => t.Legible loose
  | _ => True

end Node

/-! ## Linked pieces -/

/-- Pieces that can stand between two others. -/
def Linked (loose : Bool) (p : Piece) (ps : List Piece) (q : Piece) : Prop :=
  (p :: (ps ++ [q])).IsChain (Before loose)

section Linked

variable {loose : Bool} {p q m : Piece} {ps qs : List Piece}

theorem Linked.nil (h : Before loose p q) : Linked loose p [] q := .cons_cons h (.singleton q)

theorem Linked.cons (h : Before loose p m) (hps : Linked loose m ps q) : Linked loose p (m :: ps) q :=
  .cons_cons h hps

theorem Linked.append (h : Linked loose p ps m) (hqs : Linked loose m qs q) :
    Linked loose p (ps ++ m :: qs) q := by
  unfold Linked
  rw [append_assoc, cons_append, ← cons_append, isChain_split]
  exact ⟨h, hqs⟩

/-- What an expression can stand behind. A sign must not be followed by the same sign. -/
def Opens (p : Piece) (sign : Option Char) : Prop :=
  p ∈ [blank, symbol .openParen, symbol .openBracket, symbol .bang, symbol .tilde, symbol .increment,
    symbol .decrement] ∨ p = symbol .plus ∧ sign ≠ some '+' ∨ p = symbol .minus ∧ sign ≠ some '-'

/-- What can stand right behind an expression. -/
def Closes (q : Piece) : Prop := q.Valid ∧ q.trails ∧ q ≠ symbol .colon

/-- What an expression can end with. -/
def Finishes (p : Piece) : Prop :=
  (∃ n, p = ident n ∧ IsName n) ∨ (∃ d, p = mark ⟨.number, d⟩) ∨ (∃ d, p = mark ⟨.string, d⟩) ∨
    p ∈ [keyword .kTrue, keyword .kFalse, symbol .closeParen, symbol .closeBracket, symbol .closeBrace,
      symbol .increment, symbol .decrement]

end Linked

section Joints

variable {loose : Bool} {p q m : Piece} {ps qs : List Piece} {c : Symbol} {s : Option Char}

def Piece.sign : Piece → Option Char
  | mark ⟨.symbol .plus, _⟩ | mark ⟨.symbol .increment, _⟩ => some '+'
  | mark ⟨.symbol .minus, _⟩ | mark ⟨.symbol .decrement, _⟩ => some '-'
  | _ => none

/-- What is so of two pieces is so of each of them. -/
theorem of_mem_pair {P : Piece → Prop} {a b : Piece} (h : q ∈ [a, b]) (ha : P a) (hb : P b) : P q := by
  obtain rfl | rfl : q = a ∨ q = b := by simpa using h
  exacts [ha, hb]

theorem leads_of_isWord (h : q.isWord) : q.leads := by
  unfold isWord at h
  split at h
  next => split at h <;> simp_all [leads]
  next => cases h

theorem Opens.before (h : Opens p s) (hv : q.Valid) (hq : q.leads) (hs : q.sign = none ∨ q.sign = s) :
    Before loose p q := by
  have hplus (hne : s ≠ some '+') : q ≠ symbol .plus ∧ q ≠ symbol .increment := by
    constructor <;> rintro rfl <;> simp_all [Piece.sign]
  have hminus (hne : s ≠ some '-') : q ≠ symbol .minus ∧ q ≠ symbol .decrement := by
    constructor <;> rintro rfl <;> simp_all [Piece.sign]
  have hclosing : q ≠ closing := by
    rintro rfl
    cases hq
  refine ⟨hv, ?_, ?_⟩
  · obtain h | ⟨rfl, h⟩ | ⟨rfl, h⟩ := h
    · simp only [mem_cons, not_mem_nil, or_false] at h
      obtain rfl | rfl | rfl | rfl | rfl | rfl | rfl := h <;> simp [fits, hq, hclosing]
    · simp [fits, hq, hplus h]
    · simp [fits, hq, hminus h]
  · rintro n rfl
    simp [Opens] at h

theorem Finishes.before (h : Finishes p) (hq : Closes q) : Before loose p q := by
  obtain ⟨hv, htrails, hcolon⟩ := hq
  refine ⟨hv, ?_, ?_⟩
  · obtain ⟨n, rfl, -⟩ | ⟨d, rfl⟩ | ⟨d, rfl⟩ | h := h
    iterate 3 simp [fits, htrails]
    simp only [mem_cons, not_mem_nil, or_false] at h
    obtain rfl | rfl | rfl | rfl | rfl | rfl | rfl := h <;> simp [fits, htrails, hcolon]
  · rintro n rfl
    obtain ⟨m, hm, hname⟩ | ⟨d, ⟨⟩⟩ | ⟨d, ⟨⟩⟩ | h := h
    · obtain rfl : n = m := by simpa using hm
      exact .inl hname.free
    · simp at h

/-- What can stand behind an expression can stand behind a symbol that ends one. -/
theorem Closes.behind (hq : Closes q)
    (hc : c ∈ [.closeParen, .closeBracket, .closeBrace, .increment, .decrement]) : Before loose (symbol c) q := by
  refine Finishes.before (.inr (.inr (.inr ?_))) hq
  revert c
  decide

theorem Closes.blank : Closes Piece.blank := ⟨trivial, rfl, nofun⟩

theorem Closes.comma : Closes (symbol .comma) := ⟨.inl rfl, rfl, nofun⟩

theorem Closes.semicolon : Closes (symbol .semicolon) := ⟨.inl rfl, rfl, nofun⟩

theorem Closes.closeParen : Closes (symbol .closeParen) := ⟨.inl rfl, rfl, nofun⟩

theorem Closes.closeBracket : Closes (symbol .closeBracket) := ⟨.inl rfl, rfl, nofun⟩

/-- A symbol with a blank behind it. -/
theorem before_blank (hc : c ≠ .dot) : Before loose (symbol c) blank := by
  refine ⟨trivial, ?_, nofun⟩
  cases c with
  | dot => exact (hc rfl).elim
  | _ => rfl

theorem blank_before (c : Symbol) : Before loose blank (symbol c) := ⟨.inl rfl, rfl, nofun⟩

end Joints

/-! ## Lists -/

section Lists

variable {loose : Bool} {p q a b : Piece} {parts : List (List Piece)} {sep : List Piece}

/-- Parts with the same pieces between each two, where `a` stands behind a part and `b` before one. -/
theorem linked_intercalate
    (hsep : ∀ {p q xs ys}, Linked loose p xs a → Linked loose b ys q → Linked loose p (xs ++ sep ++ ys) q)
    (hne : parts ≠ []) (hfirst : ∀ part ∈ parts.head?, ∀ q' ∈ [a, q], Linked loose p part q')
    (h : ∀ part ∈ parts, ∀ q' ∈ [a, q], Linked loose b part q') :
    Linked loose p (sep.intercalate parts) q := by
  induction parts generalizing p with
  | nil => exact (hne rfl).elim
  | cons x parts ih =>
    cases parts with
    | nil => simpa using hfirst x (by simp) q (by simp)
    | cons y parts =>
      rw [intercalate_cons_cons]
      refine hsep (hfirst x (by simp) a (by simp)) (ih (by simp) (fun z hz => ?_) fun z hz => ?_)
      · obtain rfl : y = z := by simpa using hz
        exact h y (by simp)
      · exact h z (mem_cons_of_mem _ hz)

theorem linked_comma {xs : List Piece} (hx : Linked loose p xs (symbol .comma)) (hy : Linked loose blank ys q) :
    Linked loose p (xs ++ [symbol .comma, blank] ++ ys) q := by
  rw [append_assoc]
  exact hx.append (.cons (before_blank nofun) hy)

/-- Parts with commas between them. -/
theorem linked_commas (hnil : Before loose p q)
    (h : ∀ part ∈ parts, ∀ p' ∈ [p, blank], ∀ q' ∈ [symbol .comma, q], Linked loose p' part q') :
    Linked loose p (commas parts) q := by
  by_cases hne : parts = []
  · subst hne
    exact .nil hnil
  · refine linked_intercalate linked_comma hne (fun part hpart => ?_) fun part hpart => ?_
    · exact h part (mem_of_mem_head? hpart) p (by simp)
    · exact h part hpart blank (by simp)

/-- Parts between angle brackets, or nothing. Only the first part stands right behind a bracket. -/
theorem linked_angled (hnil : parts = [] → Linked loose p rest q) (hp : Before loose p opening)
    (hrest : Linked loose closing rest q)
    (hfirst : ∀ part ∈ parts.head?, ∀ q' ∈ [symbol .comma, closing], Linked loose opening part q')
    (h : ∀ part ∈ parts, ∀ q' ∈ [symbol .comma, closing], Linked loose blank part q') :
    Linked loose p (angledPieces parts ++ rest) q := by
  by_cases hne : parts = []
  · simpa [angledPieces, hne] using hnil hne
  · simp only [angledPieces, List.isEmpty_iff, hne, if_false]
    rw [cons_append, cons_append, append_assoc]
    exact .cons hp ((linked_intercalate linked_comma hne hfirst h).append hrest)

/-- Parts between braces. -/
theorem linked_braced (hp : Before loose p (symbol .openBrace)) (hq : Before loose (symbol .closeBrace) q)
    (h : ∀ part ∈ parts, ∀ q' ∈ [symbol .comma, blank], Linked loose blank part q') :
    Linked loose p (bracedPieces parts) q := by
  by_cases hne : parts = []
  · subst hne
    exact .cons hp (.cons ⟨.inl rfl, rfl, nofun⟩ (.nil hq))
  · simp only [bracedPieces, List.isEmpty_iff, hne, if_false]
    rw [cons_append, cons_append]
    refine .cons hp (.cons (before_blank nofun) ?_)
    exact (linked_intercalate linked_comma hne (fun part hpart => h part (mem_of_mem_head? hpart)) h).append
      (.cons (blank_before _) (.nil hq))

end Lists

/-! ## Types -/

section Types

variable {loose : Bool} {p q : Piece} {t : TypeExpr} {n : String}

/-- What a type can stand behind. -/
def OpensType (loose : Bool) (p : Piece) (t : TypeExpr) : Prop :=
  p ∈ [blank, symbol .openParen, symbol .ellipsis, closing] ∨ p = opening ∧ (t.isGeneric → loose)

/-- What can stand right behind a type. -/
def ClosesType (q : Piece) : Prop := q = closing ∨ Closes q

theorem before_ident (hn : IsName n) (hp : p.fits loose (ident n)) (hne : ∀ m, p ≠ ident m) :
    Before loose p (ident n) := by
  refine ⟨hn.shape, hp, fun h => (hne _ h).elim⟩

theorem ident_before (hn : IsName n) (hv : q.Valid) (hq : (ident n).fits loose q) :
    Before loose (ident n) q := by
  refine ⟨hv, hq, fun h => .inl ?_⟩
  obtain rfl := (Terminal.mk.inj (mark.inj h)).2
  exact hn.free

theorem ident_before_closes (hn : IsName n) (hq : ClosesType q) : Before loose (ident n) q := by
  obtain rfl | hq := hq
  · exact ident_before hn trivial rfl
  · exact Finishes.before (.inl ⟨n, rfl, hn⟩) hq

theorem closing_before (hq : ClosesType q) : Before loose closing q := by
  obtain rfl | ⟨hv, hq, -⟩ := hq
  · exact ⟨trivial, rfl, nofun⟩
  · exact ⟨hv, by simp [fits, hq], nofun⟩

theorem OpensType.before (h : OpensType loose p t) (hv : q.Valid)
    (hq : q.isWord ∨ q = symbol .openParen ∨ q = opening ∧ t.isGeneric) : Before loose p q := by
  have hleads : q.leads = true := by
    obtain hq | rfl | ⟨rfl, -⟩ := hq
    · exact leads_of_isWord hq
    iterate 2 rfl
  have hclosing : q ≠ closing := by
    rintro rfl
    cases hleads
  refine ⟨hv, ?_, ?_⟩
  · obtain h | ⟨rfl, hloose⟩ := h
    · simp only [mem_cons, not_mem_nil, or_false] at h
      obtain rfl | rfl | rfl | rfl := h
      iterate 3 simp [fits, hleads, hclosing]
      obtain hq | rfl | ⟨rfl, -⟩ := hq
      · simp [fits, hq]
      iterate 2 rfl
    · obtain hq | rfl | ⟨rfl, hgeneric⟩ := hq
      · simp [fits, hq]
      · rfl
      · simp [fits, hloose hgeneric]
  · rintro n rfl
    simp [OpensType] at h

/-- Pieces with a symbol between them that has blanks on both sides. -/
theorem linked_between (hc : c ≠ .dot) {xs : List Piece} (hx : Linked loose p xs blank)
    (hy : Linked loose blank ys q) : Linked loose p (xs ++ blank :: symbol c :: blank :: ys) q :=
  hx.append (.cons (blank_before c) (.cons (before_blank hc) hy))

theorem TypeParam.linked {tp : TypeParam} (h : tp.Written) (hp : p = opening ∨ p = blank)
    (hq : ClosesType q) : Linked loose p tp.pieces q := by
  obtain ⟨hname, hbounds⟩ := h
  have hp : Before loose p (ident tp.name) := by
    obtain rfl | rfl := hp <;> exact before_ident hname rfl nofun
  refine .cons hp ?_
  by_cases hnil : tp.bounds = []
  · simp only [hnil, isEmpty_nil, if_true]
    exact .nil (ident_before_closes hname hq)
  · simp only [List.isEmpty_iff, hnil, if_false]
    refine .cons (ident_before hname (.inl rfl) rfl) (.cons (before_blank nofun) ?_)
    have hbound : ∀ part ∈ tp.bounds.map fun b => [ident b], ∀ q' ∈ [blank, q],
        Linked loose blank part q' := by
      intro part hpart q' hq'
      obtain ⟨b, hb, rfl⟩ := mem_map.1 hpart
      have hq' : ClosesType q' := of_mem_pair hq' (.inr .blank) hq
      exact .cons (before_ident (hbounds b hb) rfl nofun) (.nil (ident_before_closes (hbounds b hb) hq'))
    refine linked_intercalate (fun hx hy => ?_) (by simpa using hnil)
      (fun part hpart => hbound part (mem_of_mem_head? hpart)) hbound
    rw [append_assoc]
    exact linked_between (c := .plus) nofun hx hy

theorem ClosesType.comma : ClosesType (symbol .comma) := .inr .comma

theorem linked_typeParams {tps : List TypeParam} (h : ∀ tp ∈ tps, tp.Written)
    (hnil : tps = [] → Linked loose p rest q) (hp : Before loose p opening) (hrest : Linked loose closing rest q) :
    Linked loose p (angledPieces (tps.map TypeParam.pieces) ++ rest) q := by
  have hpart : ∀ part ∈ tps.map TypeParam.pieces, ∀ p' ∈ [opening, blank],
      ∀ q' ∈ [symbol .comma, closing], Linked loose p' part q' := by
    intro part hpart p' hp' q' hq'
    obtain ⟨tp, htp, rfl⟩ := mem_map.1 hpart
    exact TypeParam.linked (h tp htp) (by simpa using hp') (of_mem_pair hq' .comma (.inl rfl))
  exact linked_angled (fun hnil' => hnil (by simpa using hnil')) hp hrest
    (fun part h => hpart part (mem_of_mem_head? h) _ (by simp))
    fun part h => hpart part h _ (by simp)

/-- A parameter, given that its annotation can stand where it does. -/
theorem ParamOf.linked {a : Param} (hname : a.name = "" ∧ a.ann.isMissing = false ∨ IsName a.name)
    (hann : a.ann.isMissing = false → ∀ p' ∈ [blank, symbol .openParen, symbol .ellipsis],
      Linked loose p' a.ann.pieces q)
    (hp : p ∈ [symbol .openParen, blank]) (hq : ClosesType q) : Linked loose p (a.pieces a.ann.pieces) q := by
  have hbody (p' : Piece) (hp' : p' ∈ [blank, symbol .openParen, symbol .ellipsis]) :
      Linked loose p' (if a.name = "" then a.ann.pieces else if a.ann.isMissing then [ident a.name]
        else ident a.name :: symbol .colon :: blank :: a.ann.pieces) q := by
    obtain ⟨hname, hmissing⟩ | hname := hname
    · rw [if_pos hname]
      exact hann hmissing p' hp'
    · have hfirst : Before loose p' (ident a.name) := by
        simp only [mem_cons, not_mem_nil, or_false] at hp'
        obtain rfl | rfl | rfl := hp' <;> exact before_ident hname rfl nofun
      rw [if_neg hname.ne_empty]
      split
      next => exact .cons hfirst (.nil (ident_before_closes hname hq))
      next hmissing =>
        refine .cons hfirst (.cons (ident_before hname (.inl rfl) rfl) (.cons (before_blank nofun) ?_))
        exact hann (by simpa using hmissing) blank (by simp)
  unfold ParamOf.pieces Grammar.dots
  split
  next =>
    have hdots := of_mem_pair (P := (Before loose · (symbol .ellipsis))) hp ⟨.inl rfl, rfl, nofun⟩ (blank_before _)
    exact .cons hdots (hbody _ (by simp))
  next => exact hbody p (of_mem_pair hp (by simp) (by simp))

/-- The arguments of a type. -/
theorem linked_arguments {ts : List TypeExpr} (hn : IsName n) (hq : ClosesType q)
    (hfirst : ∀ t ∈ ts.head?, t.isGeneric → loose)
    (h : ∀ t ∈ ts, ∀ {p q}, OpensType loose p t → ClosesType q → Linked loose p t.pieces q) :
    Linked loose (ident n) (angledPieces (TypeExpr.piecesAll ts)) q := by
  have hcloses : ∀ q' ∈ [symbol .comma, closing], ClosesType q' :=
    fun q' hq' => of_mem_pair hq' .comma (.inl rfl)
  rw [TypeExpr.piecesAll_eq, ← append_nil (angledPieces _)]
  refine linked_angled (fun _ => .nil (ident_before_closes hn hq))
    (ident_before hn (.inr ⟨rfl, rfl⟩) rfl) (.nil (closing_before hq)) ?_ ?_
  · intro part hpart q' hq'
    rw [head?_map] at hpart
    obtain ⟨t, ht, rfl⟩ := Option.map_eq_some_iff.1 hpart
    exact h t (mem_of_mem_head? ht) (.inr ⟨rfl, hfirst t ht⟩) (hcloses q' hq')
  · intro part hpart q' hq'
    obtain ⟨t, ht, rfl⟩ := mem_map.1 hpart
    exact h t ht (.inl (by simp)) (hcloses q' hq')

theorem linked_params {ps : List Param}
    (h : ∀ a ∈ ps, ∀ p ∈ [symbol .openParen, blank], ∀ q ∈ [symbol .comma, symbol .closeParen],
      Linked loose p (a.pieces a.ann.pieces) q) :
    Linked loose (symbol .openParen) (commas (TypeExpr.piecesParams ps)) (symbol .closeParen) := by
  refine linked_commas ⟨.inl rfl, rfl, nofun⟩ fun part hpart => ?_
  rw [TypeExpr.piecesParams_eq] at hpart
  obtain ⟨a, ha, rfl⟩ := mem_map.1 hpart
  exact h a ha

theorem linked_parametric {u : TypeExpr} (hp : OpensType loose p u) (h : Linked loose opening ps q)
    (hn : n ∈ ["Array", "Promise", "Map"]) : Linked loose p (ident n :: opening :: ps) q := by
  have hname : IsName n := by
    simp only [mem_cons, not_mem_nil, or_false] at hn
    obtain rfl | rfl | rfl := hn <;>
      exact ⟨⟨_, _, rfl, by decide, forall_mem_of_all (by decide)⟩, by decide⟩
  exact .cons (hp.before hname.shape (.inl rfl)) (.cons (ident_before hname (.inr ⟨rfl, rfl⟩) rfl) h)

theorem TypeExpr.Written.linked (h : t.Written) (hl : t.All (TypeExpr.Legible loose))
    (hp : OpensType loose p t) (hq : ClosesType q) : Linked loose p t.pieces q := by
  have hblank {k : Keyword} : Before loose (keyword k) blank := ⟨trivial, rfl, nofun⟩
  induction h generalizing p q with
  | named h => exact .cons (hp.before h.shape (.inl rfl)) (.nil (ident_before_closes h hq))
  | array _ ih | promise _ ih =>
    obtain ⟨hfirst, hl⟩ := hl.parts
    exact linked_parametric hp ((ih hl (.inr ⟨rfl, hfirst⟩) (.inl rfl)).append (.nil (closing_before hq))) (by simp)
  | map _ _ iht ihu =>
    obtain ⟨hfirst, hlt, hlu⟩ := hl.parts
    refine linked_parametric hp ?_ (by simp)
    refine (iht hlt (.inr ⟨rfl, hfirst⟩) .comma).append (.cons (before_blank nofun) ?_)
    exact (ihu hlu (.inl (by simp)) (.inl rfl)).append (.nil (closing_before hq))
  | @func ps t hnames hps _ ihps ih =>
    obtain ⟨-, hlps, hl⟩ := hl.parts
    refine .cons (hp.before (.inl rfl) (.inr (.inl rfl))) ((linked_params fun a ha p hp q hq => ?_).append ?_)
    · have hq : ClosesType q := of_mem_pair hq .comma (.inr .closeParen)
      refine ParamOf.linked ((hnames a ha).imp_left fun h => ⟨h, (hps a ha).isMissing⟩) ?_ hp hq
      exact fun _ p' hp' => ihps a ha (hlps a ha) (.inl (mem_append_left [closing] hp')) hq
    · exact .cons ⟨trivial, rfl, nofun⟩ (.cons (blank_before _) (.cons (before_blank nofun)
        (ih hl (.inl (by simp)) hq)))
  | @structRef name ts h _ ih | @enumRef name ts h _ ih =>
    obtain ⟨hfirst, hl⟩ := hl.parts
    refine .cons (hp.before rfl (.inl rfl)) (.cons hblank (.cons (before_ident h rfl nofun) ?_))
    refine linked_arguments h hq ?_ fun t ht _ _ hp hq => ih t ht (hl t ht) hp hq
    cases ts <;> simp_all [TypeExpr.Legible]
  | @generic tps t hne htps _ ih =>
    obtain ⟨-, hl⟩ := hl.parts
    exact linked_typeParams htps (fun h => (hne h).elim) (hp.before (.inr ⟨rfl, rfl⟩) (.inr (.inr ⟨rfl, rfl⟩)))
      (ih hl (.inl (by simp)) hq)

end Types

/-! ## Parts of declarations -/

section Declarations

variable {loose : Bool} {p q : Piece} {n : String} {t : TypeExpr} {sig : Signature}

theorem keyword_before_blank : Before loose (keyword k) blank := ⟨trivial, rfl, nofun⟩

theorem linked_annotation (ht : t.Optional) (hl : t.All (TypeExpr.Legible loose)) (hnil : Before loose p q)
    (hcolon : Before loose p (symbol .colon)) (hq : ClosesType q) : Linked loose p t.annotationPieces q := by
  obtain rfl | ht := ht
  · exact .nil hnil
  · simp only [TypeExpr.annotationPieces, ht.isMissing, Bool.false_eq_true, if_false]
    exact .cons hcolon (.cons (before_blank nofun) (ht.linked hl (.inl (by simp)) hq))

/-- A name and its annotation. -/
theorem linked_field {f : Field} (hf : f.Written) (hl : f.ann.All (TypeExpr.Legible loose))
    (hq : ClosesType q) : Linked loose blank f.pieces q := by
  obtain ⟨hname, hann⟩ := hf
  refine .cons (before_ident hname rfl nofun) ?_
  exact linked_annotation hann hl (ident_before_closes hname hq) (ident_before hname (.inl rfl) rfl) hq

theorem linked_fields {fs : List Field} (hfs : ∀ f ∈ fs, f.Written)
    (hl : ∀ f ∈ fs, f.ann.All (TypeExpr.Legible loose)) (hq : Before loose (symbol .closeBrace) q) :
    Linked loose blank (bracedPieces (fs.map Field.pieces)) q := by
  refine linked_braced (blank_before _) hq fun part hpart q' hq' => ?_
  obtain ⟨f, hf, rfl⟩ := mem_map.1 hpart
  exact linked_field (hfs f hf) (hl f hf) (of_mem_pair hq' .comma (.inr .blank))

theorem Signature.linked (h : sig.Written) (hparams : ∀ a ∈ sig.params, a.ann.All (TypeExpr.Legible loose))
    (hret : sig.ret.All (TypeExpr.Legible loose)) (hp : Before loose p opening)
    (hparen : Before loose p (symbol .openParen)) : Linked loose p sig.pieces blank := by
  have hrest (p' : Piece) (hp' : Before loose p' (symbol .openParen)) : Linked loose p'
      (symbol .openParen :: (commas (TypeExpr.piecesParams sig.params) ++
        symbol .closeParen :: sig.ret.annotationPieces)) blank := by
    refine .cons hp' ((linked_params fun a ha p hp q hq => ?_).append ?_)
    · obtain ⟨hname, hann⟩ := h.params a ha
      have hq : ClosesType q := of_mem_pair hq .comma (.inr .closeParen)
      refine ParamOf.linked (.inr hname) (fun hmissing p' hp' => ?_) hp hq
      obtain hann | hann := hann
      · simp [hann, TypeExpr.isMissing] at hmissing
      · exact hann.linked (hparams a ha) (.inl (mem_append_left [closing] hp')) hq
    · exact linked_annotation h.ret hret (before_blank nofun) ⟨.inl rfl, rfl, nofun⟩ (.inr .blank)
  exact linked_typeParams h.tparams (fun _ => hrest p hparen) hp (hrest closing ⟨.inl rfl, rfl, nofun⟩)

theorem Signature.linked_head (hp : Before loose p (keyword .kAsync)) (hp' : Before loose p (keyword .kFun))
    (h : Linked loose blank ps q) : Linked loose p (sig.headPieces ++ ps) q := by
  unfold Signature.headPieces
  split
  next =>
    exact .cons hp (.cons keyword_before_blank (.cons ⟨rfl, rfl, nofun⟩ (.cons keyword_before_blank h)))
  next => exact .cons hp' (.cons keyword_before_blank h)

/-- A variable and its value. -/
theorem VariableOf.linked {v : Variable} {value : List Piece} (h : v.Written)
    (hl : v.ann.All (TypeExpr.Legible loose)) (hq : Closes q)
    (hvalue : v.value ≠ .missing → Linked loose blank value q) : Linked loose blank (v.pieces value) q := by
  obtain ⟨hname, hann, -⟩ := h
  have hcolon : Before loose (ident v.name) (symbol .colon) := ident_before hname (.inl rfl) rfl
  refine .cons (before_ident hname rfl (by simp)) ?_
  by_cases hmissing : v.value = .missing
  · simp only [hmissing, isMissing, if_true, append_nil]
    exact linked_annotation hann hl (Finishes.before (.inl ⟨_, rfl, hname⟩) hq) hcolon (.inr hq)
  · simp only [isMissing_of_ne hmissing, Bool.false_eq_true, if_false]
    refine linked_between (c := .assign) (by simp) ?_ (hvalue hmissing)
    exact linked_annotation hann hl (ident_before hname trivial rfl) hcolon (.inr .blank)

theorem linked_literal {x : Node} (hx : Literal x) (hl : x.All (Node.Legible loose)) (hp : Opens p none)
    (hq : Closes q) : Linked loose p (x.pieces o) q := by
  cases hx with
  | number h =>
    simp only [pieces]
    exact .cons (hp.before h rfl (.inl rfl)) (.nil (Finishes.before (.inr (.inl ⟨_, rfl⟩)) hq))
  | string =>
    simp only [pieces]
    exact .cons (hp.before hl.parts rfl (.inl rfl)) (.nil (Finishes.before (.inr (.inr (.inl ⟨_, rfl⟩))) hq))
  | @bool value =>
    simp only [pieces]
    cases value <;>
      exact .cons (hp.before rfl rfl (.inl rfl)) (.nil (Finishes.before (.inr (.inr (.inr (by simp)))) hq))

/-- A variant, of which the constant is a literal. -/
theorem VariantOf.linked {v : Variant} (h : v.Written)
    (htuple : ∀ t ∈ v.tuple, t.All (TypeExpr.Legible loose))
    (hfields : ∀ f ∈ v.fields, f.ann.All (TypeExpr.Legible loose))
    (hvalue : v.value.All (Node.Legible loose)) (hq : q = symbol .comma ∨ q = blank) :
    Linked loose blank (v.pieces (v.value.pieces false)) q := by
  have hcloses : Closes q := by
    obtain rfl | rfl := hq
    exacts [.comma, .blank]
  cases h with
  | unit h => exact .cons (before_ident h rfl nofun) (.nil (Finishes.before (.inl ⟨_, rfl, h⟩) hcloses))
  | @tuple _ ts h hne hts =>
    refine .cons (before_ident h rfl nofun) (.cons (ident_before h (.inl rfl) rfl) ?_)
    have hempty : Before loose (symbol .openParen) (symbol .closeParen) := ⟨.inl rfl, rfl, nofun⟩
    refine (linked_commas hempty fun part hpart p' hp' q' hq' => ?_).append (.nil (hcloses.behind (by simp)))
    rw [TypeExpr.piecesAll_eq] at hpart
    obtain ⟨t, ht, rfl⟩ := mem_map.1 hpart
    exact (hts t ht).linked (htuple t ht) (.inl (of_mem_pair hp' (by simp) (by simp)))
      (of_mem_pair hq' .comma (.inr .closeParen))
  | fields h hfs =>
    exact .cons (before_ident h rfl nofun) (.cons (ident_before h trivial rfl)
      (linked_fields hfs hfields (hcloses.behind (by simp))))
  | constant h hlit =>
    exact .cons (before_ident h rfl nofun) (.cons (ident_before h trivial rfl) (.cons (blank_before _)
      (.cons (before_blank nofun) (linked_literal hlit hvalue (.inl (by simp)) hcloses))))

end Declarations

/-! ## Expressions -/

section Expressions

variable {loose : Bool} {p q : Piece} {x y z : Node} {xs : List Node}

/-- What an expression can stand behind without parentheses. -/
def Begins (p : Piece) : Prop := p ∈ [blank, symbol .openParen, symbol .openBracket]

theorem Begins.blank : Begins Piece.blank := by simp [Begins]

theorem Begins.openParen : Begins (symbol .openParen) := by simp [Begins]

theorem Begins.openBracket : Begins (symbol .openBracket) := by simp [Begins]

theorem Begins.opens (h : Begins p) (s : Option Char) : Opens p s := by
  refine .inl ?_
  simp only [Begins, mem_cons, not_mem_nil, or_false] at h
  obtain rfl | rfl | rfl := h <;> simp

/-- An expression keeps its distance, as an operand and on its own. -/
structure Spaced (loose : Bool) (x : Node) : Prop where
  operand {p q : Piece} (hp : Opens p x.sign) (hq : Closes q) : Linked loose p (x.pieces true) q
  whole {p q : Piece} (hp : Begins p) (hq : Closes q) : Linked loose p (x.pieces false) q

/-- An expression that has parentheses as an operand. -/
theorem spaced_parens {core : List Piece} (hpieces : ∀ o, x.pieces o = parensPieces o core)
    (h : ∀ {p q}, Begins p → Closes q → Linked loose p core q) : Spaced loose x where
  operand hp hq := by
    rw [hpieces]
    refine .cons (hp.before (.inl rfl) rfl (.inl rfl)) (.append (h .openParen .closeParen) ?_)
    exact .nil (hq.behind (by simp))
  whole hp hq := by
    rw [hpieces]
    exact h hp hq

/-- An expression that never has parentheses. -/
theorem spaced_bare (core : List Piece) (hpieces : ∀ o, x.pieces o = core)
    (h : ∀ {p q}, Opens p x.sign → Closes q → Linked loose p core q) : Spaced loose x where
  operand hp hq := hpieces true ▸ h hp hq
  whole hp hq := hpieces false ▸ h (hp.opens _) hq

/-- What has a call, a member or an index behind it. -/
theorem Spaced.head (hx : Spaced loose x) (hhead : x.IsHead loose) (hp : Opens p none) (hq : Closes q) :
    Linked loose p (x.pieces true) q :=
  hx.operand (by rwa [hhead.1]) hq

theorem Spaced.between (hc : c ≠ .dot) (hx : Spaced loose x) (hy : Spaced loose y) (hp : Begins p) (hq : Closes q) :
    Linked loose p (x.pieces true ++ blank :: operator c.spelling :: blank :: y.pieces true) q := by
  rw [operator_spelling]
  exact linked_between hc (hx.operand (hp.opens _) .blank) (hy.operand (.inl (by simp)) hq)

/-- Expressions in a list. -/
theorem linked_exprs (h : ∀ x ∈ xs, Spaced loose x) (hp : Begins p) (hq : Closes q) (hnil : Before loose p q) :
    Linked loose p (commas (piecesAll xs)) q := by
  refine linked_commas hnil fun part hpart p' hp' q' hq' => ?_
  rw [piecesAll_eq] at hpart
  obtain ⟨x, hx, rfl⟩ := mem_map.1 hpart
  exact (h x hx).whole (of_mem_pair hp' hp .blank) (of_mem_pair hq' .comma hq)

theorem linked_props {ps : List (String × Node)} (h : ∀ a ∈ ps, Spaced loose a.2)
    (hkeys : (object ps).Legible loose) (hp : Before loose p (symbol .openBrace)) (hq : Closes q) :
    Linked loose p (bracedPieces (piecesProps ps)) q := by
  refine linked_braced hp (hq.behind (by simp)) fun part hpart q' hq' => ?_
  rw [piecesProps_eq] at hpart
  obtain ⟨a, ha, rfl⟩ := mem_map.1 hpart
  obtain ⟨hword, hkey⟩ := hkeys a ha
  refine .cons ⟨hword, rfl, nofun⟩ (.cons ⟨.inl rfl, rfl, fun h => ?_⟩ (.cons (before_blank nofun) ?_))
  · obtain rfl := (Terminal.mk.inj (mark.inj h)).2
    exact hkey.imp_right fun h => ⟨h, rfl⟩
  · exact (h a ha).whole .blank (of_mem_pair hq' .comma .blank)

/-- A statement keeps its distance. -/
def SpacedStmt (loose : Bool) (x : Node) : Prop :=
  ∀ q ∈ [blank, ending], Linked loose blank (x.pieces false) q

/-- Statements with blanks between them. -/
theorem linked_stmts (hne : xs ≠ []) (h : ∀ x ∈ xs, SpacedStmt loose x) (hq : q ∈ [blank, ending]) :
    Linked loose blank ([blank].intercalate (piecesAll xs)) q := by
  have hpart : ∀ part ∈ piecesAll xs, ∀ q' ∈ [blank, q], Linked loose blank part q' := by
    intro part hpart q' hq'
    rw [piecesAll_eq] at hpart
    obtain ⟨x, hx, rfl⟩ := mem_map.1 hpart
    exact h x hx q' (of_mem_pair hq' (by simp) hq)
  refine linked_intercalate (fun hx hy => ?_) (by simpa [piecesAll_eq] using hne)
    (fun part h => hpart part (mem_of_mem_head? h)) hpart
  rw [append_assoc]
  exact hx.append hy

theorem linked_block (h : ∀ x ∈ xs, SpacedStmt loose x) (hp : Before loose p (symbol .openBrace))
    (hq : Before loose (symbol .closeBrace) q) : Linked loose p ((block xs).pieces o) q := by
  unfold pieces
  by_cases hne : xs = []
  · simp only [hne, isEmpty_nil, if_true]
    exact .cons hp (.cons ⟨.inl rfl, rfl, nofun⟩ (.nil hq))
  · simp only [List.isEmpty_iff, hne, if_false]
    refine .cons hp (.cons (before_blank nofun) ((linked_stmts hne h (by simp)).append ?_))
    exact .cons (blank_before _) (.nil hq)

theorem linked_optional (h : x ≠ .missing → Spaced loose x) (hp : Begins p) (hq : Closes q)
    (hnil : Before loose p q) : Linked loose p (x.pieces false) q := by
  by_cases hx : x = .missing
  · subst hx
    exact .nil hnil
  · exact (h hx).whole hp hq

end Expressions

/-! ## Trees -/

section Trees

variable {loose : Bool} {x : Node} {q : Piece}

def Category.Spaced (loose : Bool) : Category → Node → Prop
  | .expr => ScriptTyping.Spaced loose
  | .stmt => SpacedStmt loose

theorem linked_vars {vars : List Variable} (h : ∀ v ∈ vars, v.Written)
    (hvalues : ∀ v ∈ vars, v.value ≠ .missing → Spaced loose v.value)
    (hl : ∀ v ∈ vars, v.ann.All (TypeExpr.Legible loose)) :
    Linked loose blank (commas (piecesVars vars)) (symbol .semicolon) := by
  refine linked_commas ⟨.inl rfl, rfl, nofun⟩ fun part hpart p' hp' q' hq' => ?_
  rw [piecesVars_eq] at hpart
  obtain ⟨v, hv, rfl⟩ := mem_map.1 hpart
  obtain rfl : p' = blank := by simpa using hp'
  have hq' : Closes q' := of_mem_pair hq' .comma .semicolon
  exact VariableOf.linked (h v hv) (hl v hv) hq' fun hne => (hvalues v hv hne).whole .blank hq'

theorem linked_variants {vs : List Variant} (h : ∀ v ∈ vs, v.Written)
    (hl : ∀ v ∈ vs, (∀ t ∈ v.tuple, t.All (TypeExpr.Legible loose)) ∧
      (∀ f ∈ v.fields, f.ann.All (TypeExpr.Legible loose)) ∧ v.value.All (Node.Legible loose)) :
    Linked loose blank (commas (piecesVariants vs)) blank := by
  refine linked_commas ⟨trivial, rfl, nofun⟩ fun part hpart p' hp' q' hq' => ?_
  rw [piecesVariants_eq] at hpart
  obtain ⟨v, hv, rfl⟩ := mem_map.1 hpart
  obtain rfl : p' = blank := by simpa using hp'
  obtain ⟨htuple, hfields, hvalue⟩ := hl v hv
  exact VariantOf.linked (h v hv) htuple hfields hvalue (by simpa using hq')

/-- The part of a loop or a branch behind its head. -/
theorem linked_condition (hx : Spaced loose x) (h : Linked loose blank ps q) : Linked loose blank
      (keyword k :: blank :: symbol .openParen :: (x.pieces false ++ symbol .closeParen :: blank :: ps)) q := by
  refine .cons ⟨rfl, rfl, nofun⟩ (.cons keyword_before_blank (.cons (blank_before _) ?_))
  exact .append (hx.whole .openParen .closeParen) (.cons (before_blank nofun) h)

theorem linked_for {y z body : Node} (hps : Linked loose (symbol .openParen) ps (symbol .semicolon))
    (hy : y ≠ .missing → Spaced loose y) (hz : z ≠ .missing → Spaced loose z)
    (h : Linked loose blank (body.pieces false) q) : Linked loose blank
      (keyword .kFor :: blank :: symbol .openParen :: (ps ++ symbol .semicolon :: blank ::
        (y.pieces false ++ symbol .semicolon :: blank ::
          (z.pieces false ++ symbol .closeParen :: blank :: body.pieces false)))) q := by
  have hclause {w : Node} {c : Symbol} (hw : w ≠ .missing → Spaced loose w) (hc : Closes (symbol c)) :
      Linked loose blank (w.pieces false) (symbol c) :=
    linked_optional hw .blank hc (blank_before c)
  refine .cons ⟨rfl, rfl, nofun⟩ (.cons keyword_before_blank (.cons (blank_before _) (hps.append ?_)))
  refine .cons (before_blank nofun) (.append (hclause hy .semicolon) ?_)
  exact .cons (before_blank nofun) (.append (hclause hz .closeParen) (.cons (before_blank nofun) h))

theorem Node.headPieces_of_ne_lets (h : ∀ vars, x ≠ .lets vars) : x.headPieces = x.pieces false := by
  cases x with
  | lets vars => exact (h vars rfl).elim
  | _ => rfl

theorem Phrase.spaced {c : Category} (h : Phrase c x) (hl : x.All (Node.Legible loose)) :
    c.Spaced loose x := by
  have hword {k : Keyword} : Before loose blank (keyword k) := ⟨rfl, rfl, by simp⟩
  have hstop {q : Piece} (hq : q ∈ [blank, ending]) : Closes q := of_mem_pair hq .blank ⟨rfl, rfl, by simp⟩
  have hsemicolon {q : Piece} (hq : q ∈ [blank, ending]) : Before loose (symbol .semicolon) q :=
    of_mem_pair hq (before_blank (by simp)) ⟨rfl, rfl, by simp⟩
  induction h with
  | literal h =>
    refine spaced_bare _ (fun o => ?_) fun hp hq => linked_literal h hl ?_ hq (o := false)
    · cases h <;> rfl
    · cases h <;> exact hp
  | ident h =>
    refine spaced_bare _ (fun _ => rfl) fun hp hq => ?_
    exact .cons (hp.before h.shape rfl (.inl rfl)) (.nil (Finishes.before (.inl ⟨_, rfl, h⟩) hq))
  | @binary c x y hc _ _ _ _ ihx ihy | @logical c x y hc _ _ ihx ihy | @assign c x y hc _ _ _ ihx ihy =>
    obtain ⟨-, hlx, hly⟩ := hl.parts
    refine spaced_parens (fun _ => rfl) (Spaced.between (c := c) ?_ (ihx hlx) (ihy hly))
    rintro rfl
    revert hc
    decide
  | @unary c x hc _ ih =>
    obtain ⟨hsign, hlx⟩ := hl.parts
    refine spaced_bare (symbol c :: x.pieces true) (fun _ => ?_) fun hp hq => ?_
    · simp only [pieces, operator_spelling]
    · -- Only a sign has something to fear from what is behind it.
      obtain rfl | rfl | rfl | rfl := hc
      · exact .cons (hp.before (.inl rfl) rfl (.inl rfl)) ((ih hlx).operand (.inl (by simp)) hq)
      · exact .cons (hp.before (.inl rfl) rfl (.inr rfl))
          ((ih hlx).operand (.inr (.inr ⟨rfl, hsign (.inr rfl)⟩)) hq)
      · exact .cons (hp.before (.inl rfl) rfl (.inr rfl))
          ((ih hlx).operand (.inr (.inl ⟨rfl, hsign (.inl rfl)⟩)) hq)
      · exact .cons (hp.before (.inl rfl) rfl (.inl rfl)) ((ih hlx).operand (.inl (by simp)) hq)
  | @update c x before hc _ ih =>
    obtain ⟨hhead, hlx⟩ := hl.parts
    cases before with
    | true =>
      refine spaced_bare (symbol c :: x.pieces true) (fun _ => ?_) fun hp hq => ?_
      · simp only [pieces, operator_spelling, if_true]
      · obtain rfl | rfl := hc <;>
          exact .cons (hp.before (.inl rfl) rfl (.inr rfl)) ((ih hlx).operand (.inl (by simp)) hq)
    | false =>
      refine spaced_bare (x.pieces true ++ [symbol c]) (fun _ => ?_) fun hp hq => ?_
      · simp only [pieces, operator_spelling, Bool.false_eq_true, if_false]
      · obtain rfl | rfl := hc <;>
          exact .append ((ih hlx).head hhead hp ⟨.inl rfl, rfl, by simp⟩) (.nil (hq.behind (by simp)))
  | ternary _ _ _ ihx ihy ihz =>
    obtain ⟨-, hlx, hly, hlz⟩ := hl.parts
    refine spaced_parens (fun _ => rfl) fun hp hq => ?_
    refine linked_between (c := .question) (by simp) ((ihx hlx).operand (hp.opens _) .blank) ?_
    exact linked_between (c := .colon) (by simp) ((ihy hly).operand (.inl (by simp)) .blank)
      ((ihz hlz).operand (.inl (by simp)) hq)
  | @sequence x xs hx hne hxs ihx ihxs =>
    obtain ⟨-, hl⟩ := hl.parts
    refine spaced_bare _ (fun _ => rfl) fun hp hq => ?_
    refine .cons (hp.before (.inl rfl) rfl (.inl rfl)) (.append ?_ (.nil (hq.behind (by simp))))
    refine linked_exprs ?_ .openParen .closeParen ⟨.inl rfl, rfl, by simp⟩
    simp only [forall_mem_cons] at hl ⊢
    exact ⟨ihx hl.1, fun y hy => ihxs y hy (hl.2 y hy)⟩
  | @call x xs _ _ ihx ihxs =>
    obtain ⟨hhead, hlx, hlxs⟩ := hl.parts
    refine spaced_bare _ (fun _ => rfl) fun hp hq => ?_
    refine .append ((ihx hlx).head hhead hp ⟨.inl rfl, rfl, by simp⟩) ?_
    refine .append ?_ (.nil (hq.behind (by simp)))
    exact linked_exprs (fun y hy => ihxs y hy (hlxs y hy)) .openParen .closeParen ⟨.inl rfl, rfl, by simp⟩
  | await _ ih =>
    obtain ⟨-, hl⟩ := hl.parts
    refine spaced_parens (fun _ => rfl) fun hp hq => ?_
    exact .cons ((hp.opens none).before rfl rfl (.inl rfl)) (.cons keyword_before_blank
      ((ih hl).operand (.inl (by simp)) hq))
  | @member x name arrow _ h ih =>
    obtain ⟨hhead, hlx⟩ := hl.parts
    refine spaced_bare _ (fun _ => rfl) fun hp hq => ?_
    have hend := @Finishes.before loose _ _ (.inl ⟨name, rfl, h⟩) hq
    cases arrow <;> exact .append ((ih hlx).head hhead hp ⟨.inl rfl, rfl, by simp⟩)
      (.cons (before_ident h rfl (by simp)) (.nil hend))
  | index _ _ ihx ihy =>
    obtain ⟨hhead, hlx, hly⟩ := hl.parts
    refine spaced_bare _ (fun _ => rfl) fun hp hq => ?_
    refine .append ((ihx hlx).head hhead hp ⟨.inl rfl, rfl, by simp⟩) ?_
    exact .append ((ihy hly).whole .openBracket .closeBracket) (.nil (hq.behind (by simp)))
  | array _ ih =>
    obtain ⟨-, hl⟩ := hl.parts
    refine spaced_bare _ (fun _ => rfl) fun hp hq => ?_
    refine .cons (hp.before (.inl rfl) rfl (.inl rfl)) (.append ?_ (.nil (hq.behind (by simp))))
    exact linked_exprs (fun y hy => ih y hy (hl y hy)) .openBracket .closeBracket ⟨.inl rfl, rfl, by simp⟩
  | object _ ih =>
    obtain ⟨hkeys, hl⟩ := hl.parts
    refine spaced_bare _ (fun _ => rfl) fun hp hq => ?_
    exact linked_props (fun a ha => ih a ha (hl a ha)) hkeys (hp.before (.inl rfl) rfl (.inl rfl)) hq
  | structLit h _ ih =>
    obtain ⟨-, hl⟩ := hl.parts
    obtain ⟨hkeys, hl⟩ := hl.parts
    refine spaced_bare _ (fun _ => rfl) fun hp hq => ?_
    refine .cons (hp.before h.shape rfl (.inl rfl)) (.cons (ident_before h trivial rfl) ?_)
    exact linked_props (fun a ha => ih a ha (hl a ha)) hkeys (blank_before _) hq
  | lambda hsig _ ih =>
    obtain ⟨-, hparams, hret, hl⟩ := hl.parts
    obtain ⟨-, hl⟩ := hl.parts
    refine spaced_parens (fun _ => rfl) fun hp hq => ?_
    refine Signature.linked_head ((hp.opens none).before rfl rfl (.inl rfl))
      ((hp.opens none).before rfl rfl (.inl rfl)) ?_
    refine .append (Signature.linked hsig hparams hret ⟨.inr ⟨rfl, rfl⟩, rfl, by simp⟩ (blank_before _)) ?_
    exact linked_block (fun y hy => ih y hy (hl y hy)) (blank_before _) (hq.behind (by simp))
  | exprStmt _ ih =>
    obtain ⟨-, hl⟩ := hl.parts
    intro q hq
    exact .append ((ih hl).whole .blank .semicolon) (.nil (hsemicolon hq))
  | block _ ih =>
    obtain ⟨-, hl⟩ := hl.parts
    intro q hq
    exact linked_block (fun y hy => ih y hy (hl y hy)) (blank_before _) ((hstop hq).behind (by simp))
  | @ifElse x y z _ _ _ _ ihx ihy ihz =>
    obtain ⟨-, hlx, hly, hlz⟩ := hl.parts
    intro q hq
    refine linked_condition (ihx hlx) ?_
    by_cases hz : z = .missing
    · simpa [hz, isMissing] using ihy hly q hq
    · simp only [isMissing_of_ne hz, Bool.false_eq_true, if_false]
      refine (ihy hly blank (by simp)).append ?_
      exact .cons hword (.cons keyword_before_blank (ihz hz hlz q hq))
  | whileLoop _ _ ihx ihy =>
    obtain ⟨-, hlx, hly⟩ := hl.parts
    exact fun q hq => linked_condition (ihx hlx) (ihy hly q hq)
  | @forLoop init x y body hinit _ _ _ ihinit ihx ihy ihbody =>
    obtain ⟨-, hlinit, hlx, hly, hlbody⟩ := hl.parts
    intro q hq
    rw [pieces_forLoop]
    refine linked_for ?_ (fun h => ihx h hlx) (fun h => ihy h hly) (ihbody hlbody q hq)
    rw [headPieces_of_ne_lets]
    · exact linked_optional (fun h => ihinit h hlinit) .openParen .semicolon ⟨.inl rfl, rfl, by simp⟩
    · rintro vars rfl
      obtain ⟨⟨⟩⟩ := hinit (by simp)
  | forLet hne hvars _ _ _ _ ihvalues ihx ihy ihbody =>
    obtain ⟨-, hlvars, hlx, hly, hlbody⟩ := hl.parts
    obtain ⟨-, hlvars⟩ := hlvars.parts
    intro q hq
    rw [pieces_forLoop]
    refine linked_for ?_ (fun h => ihx h hlx) (fun h => ihy h hly) (ihbody hlbody q hq)
    refine .cons ⟨rfl, rfl, by simp⟩ (.cons keyword_before_blank ?_)
    exact linked_vars hvars (fun v hv h => ihvalues v hv h (hlvars v hv).2.2) fun v hv => (hlvars v hv).2.1
  | @returns x _ ih =>
    obtain ⟨-, hl⟩ := hl.parts
    intro q hq
    unfold pieces
    by_cases hx : x = .missing
    · simp only [hx, isMissing, if_true]
      exact .cons hword (.cons ⟨.inl rfl, rfl, by simp⟩ (.nil (hsemicolon hq)))
    · simp only [isMissing_of_ne hx, Bool.false_eq_true, if_false]
      refine .cons hword (.cons keyword_before_blank ?_)
      exact .append ((ih hx hl).whole .blank .semicolon) (.nil (hsemicolon hq))
  | breaks | continues =>
    exact fun q hq => .cons hword (.cons ⟨.inl rfl, rfl, by simp⟩ (.nil (hsemicolon hq)))
  | lets hne hvars _ ihvalues =>
    obtain ⟨-, hl⟩ := hl.parts
    intro q hq
    refine .cons hword (.cons keyword_before_blank (.append ?_ (.nil (hsemicolon hq))))
    exact linked_vars hvars (fun v hv h => ihvalues v hv h (hl v hv).2.2) fun v hv => (hl v hv).2.1
  | @func name sig body h hsig _ ih =>
    obtain ⟨-, hparams, hret, hl⟩ := hl.parts
    obtain ⟨-, hl⟩ := hl.parts
    intro q hq
    refine Signature.linked_head hword hword (.cons (before_ident h rfl (by simp)) ?_)
    refine (Signature.linked hsig hparams hret (ident_before h (.inr ⟨rfl, rfl⟩) rfl)
      (ident_before h (.inl rfl) rfl)).append ?_
    exact linked_block (fun y hy => ih y hy (hl y hy)) (blank_before _) ((hstop hq).behind (by simp))
  | structDecl h hps hfs =>
    obtain ⟨-, hl⟩ := hl.parts
    intro q hq
    refine .cons hword (.cons keyword_before_blank (.cons (before_ident h rfl (by simp)) ?_))
    have hrest {p : Piece} (hp : Before loose p blank) :=
      Linked.cons hp (linked_fields hfs hl ((hstop hq).behind (by simp)))
    exact linked_typeParams hps (fun _ => hrest (ident_before h trivial rfl))
      (ident_before h (.inr ⟨rfl, rfl⟩) rfl) (hrest ⟨trivial, rfl, by simp⟩)
  | enumDecl h hps hvs =>
    obtain ⟨-, hl⟩ := hl.parts
    intro q hq
    refine .cons hword (.cons keyword_before_blank (.cons (before_ident h rfl (by simp)) ?_))
    have hrest {p : Piece} (hp : Before loose p blank) :=
      Linked.cons hp (.cons (blank_before .openBrace) (.cons (before_blank (by simp))
        (.append (linked_variants hvs hl) (.cons (blank_before .closeBrace) (.nil ((hstop hq).behind (by simp)))))))
    exact linked_typeParams hps (fun _ => hrest (ident_before h trivial rfl))
      (ident_before h (.inr ⟨rfl, rfl⟩) rfl) (hrest ⟨trivial, rfl, by simp⟩)

/-- In the text of a program each piece stands before the next. -/
theorem linked_program {body : List Node} (h : ∀ x ∈ body, Phrase .stmt x)
    (hl : (program body).All (Node.Legible loose)) :
    Linked loose blank ((program body).pieces false) ending := by
  obtain ⟨-, hl⟩ := hl.parts
  unfold pieces
  by_cases hne : body = []
  · subst hne
    exact .nil ⟨rfl, rfl, nofun⟩
  · exact linked_stmts hne (fun x hx => (h x hx).spaced (hl x hx)) (by simp)

end Trees

end ScriptTyping
