import ScriptTyping.Proofs.Productions
import ScriptTyping.Proofs.Spacing

/-!
# Reading again

The text of a program is read as the program. Each phrase is read from its own pieces by the production for
it (`Phrase.understood`); this is one induction over phrases, with one lemma for each form. It is about a
grammar that is a bit more lenient than the one of the language, so that it also tells the texts apart that
the language does not accept again: it takes a brace that opens an object at the start of a statement for
what it is, wherever this can be seen (`Discerns`), and it reads the loose levels of expressions.

Main statement: `parseProgram_text`. For texts in which no brace opens an object at the start of a statement
the lenient grammar is the grammar (`lenient_strict`), and pieces that stand beside each other as they may are
the tokens of their text (`relexes`, `linked_program`).
-/

namespace ScriptTyping

open Piece ScriptTyping.Parser List
open Node hiding ident exprStmt

/-! ## A lenient grammar -/

namespace Grammar

/-- A statement, where some streams are known to start with an object. -/
def lenientStmt (loose : Bool) (object : Stream → Bool) (g : Grammar) : Parser Node := fun s =>
  if object s ∨ startsPlain s.current.kind then (g.sequenceLevel loose >>= exprStmt) s else g.statement s

/-- The productions, which nest at most `n` deep. If `loose`, the elements of an array can be assignments,
and more can be applied behind a step up or down. -/
def lenient (loose : Bool) (object : Stream → Bool) : Nat → Grammar
  | 0 => ofDepth 0
  | n + 1 =>
    { stmt := (lenient loose object n).lenientStmt loose object
      expr := (lenient loose object n).sequenceLevel loose
      assign := (lenient loose object n).assignLevel loose
      ternary := if loose then (lenient loose object n).assignLevel loose
        else (lenient loose object n).ternaryLevel loose
      binary := (lenient loose object n).binaryLevel loose
      unary := (lenient loose object n).unaryLevel loose
      type := (ofDepth (n + 1)).type }

theorem lenientStmt_strict (g : Grammar) : g.lenientStmt false (fun _ => false) = g.statement := by
  funext s
  simp only [lenientStmt, levels_strict.2.2.2, Bool.false_eq_true, false_or]
  split
  next h => exact (statement_plain h).symm
  next => rfl

/-- A grammar that is not lenient is the grammar. -/
theorem lenient_strict (n : Nat) : lenient false (fun _ => false) n = ofDepth n := by
  induction n with
  | zero => rfl
  | succ n ih =>
    obtain ⟨hbinary, hternary, hassign, hsequence⟩ := @levels_strict (ofDepth n)
    simp only [lenient, ih, lenientStmt_strict, unaryLevel_strict, hbinary, hternary, hassign, hsequence]
    rfl

end Grammar

/-! ## First pieces -/

/-- The first of some pieces is a token of a kind, and no blank comes behind it if it is an operator. -/
def Leads (K : Kind → Prop) (ps : List Piece) : Prop :=
  ∃ t qs, ps = mark t :: qs ∧ K t.kind ∧ (t.kind.isBinaryOp → ∃ u rs, qs = mark u :: rs)

section Leads

variable {K L : Kind → Prop} {ps : List Piece}

theorem Leads.append (h : Leads K ps) (qs : List Piece) : Leads K (ps ++ qs) := by
  obtain ⟨t, rs, rfl, hK, hop⟩ := h
  refine ⟨t, rs ++ qs, rfl, hK, fun h => ?_⟩
  obtain ⟨u, us, rfl⟩ := hop h
  exact ⟨u, us ++ qs, rfl⟩

theorem Leads.mono (hKL : ∀ k, K k → L k) (h : Leads K ps) : Leads L ps := by
  obtain ⟨t, rs, rfl, hK, hop⟩ := h
  exact ⟨t, rs, rfl, hKL _ hK, hop⟩

theorem Leads.next (h : Leads K ps) : Next K ps := by
  obtain ⟨t, rs, rfl, hK, -⟩ := h
  exact ⟨_, rfl, hK⟩

/-- A first token that is no binary operator. -/
theorem Leads.of_mark {t : Terminal} {qs : List Piece} (hK : K t.kind) (hop : t.kind.isBinaryOp = false) :
    Leads K (mark t :: qs) :=
  ⟨t, qs, rfl, hK, fun h => by simp [hop] at h⟩

end Leads

/-- What an operand starts with. -/
def startsTerm (k : Kind) : Prop := Grammar.startsPlain k ∨ k = .symbol .openBrace

/-- Whether a node is a function without a name. -/
def Node.isLambda : Node → Bool
  | .lambda .. => true
  | _ => false

/-- What an expression starts with. -/
structure Node.Starts (x : Node) : Prop where
  operand : Leads startsTerm (x.pieces true)
  whole (h : x.isLambda = false) : Leads startsTerm (x.pieces false)

theorem starts_bare {x : Node} {core : List Piece} (hpieces : ∀ o, x.pieces o = core)
    (h : Leads startsTerm core) : x.Starts :=
  ⟨hpieces true ▸ h, fun _ => hpieces false ▸ h⟩

theorem starts_parens {x : Node} {core : List Piece} (hpieces : ∀ o, x.pieces o = parensPieces o core)
    (h : x.isLambda = false → Leads startsTerm core) : x.Starts :=
  ⟨hpieces true ▸ .of_mark (.inl rfl) rfl, fun hx => hpieces false ▸ h hx⟩

theorem Phrase.starts {x : Node} (h : Phrase .expr x) : x.Starts := by
  generalize hc : Category.expr = c at h
  induction h with
  | literal h =>
    cases h with
    | number | string => exact starts_bare (fun _ => rfl) (.of_mark (.inl rfl) rfl)
    | @bool value => cases value <;> exact starts_bare (fun _ => rfl) (.of_mark (.inl rfl) rfl)
  | ident | sequence | array | structLit => exact starts_bare (fun _ => rfl) (.of_mark (.inl rfl) rfl)
  | binary _ _ _ _ _ ih | logical _ _ _ ih | assign _ _ _ _ ih | ternary _ _ _ ih =>
    exact starts_parens (fun _ => rfl) fun _ => (ih hc).operand.append _
  | @unary c x hsym hx ih =>
    have hpieces (o : Bool) : (Node.unary c.spelling x).pieces o = symbol c :: x.pieces true := by
      simp only [pieces, operator_spelling]
    refine starts_bare hpieces ⟨_, _, rfl, .inl ?_, fun _ => ?_⟩
    · obtain rfl | rfl | rfl | rfl := hsym <;> rfl
    · obtain ⟨t, qs, hqs, -⟩ := (ih hc).operand
      exact ⟨t, qs, hqs⟩
  | @update c x before hsym hx ih =>
    cases before with
    | true =>
      have hpieces (o : Bool) : (Node.update c.spelling x true).pieces o = symbol c :: x.pieces true := by
        simp only [pieces, operator_spelling, if_true]
      refine starts_bare hpieces (.of_mark (.inl ?_) ?_) <;> obtain rfl | rfl := hsym <;> rfl
    | false =>
      have hpieces (o : Bool) : (Node.update c.spelling x false).pieces o = x.pieces true ++ [symbol c] := by
        simp only [pieces, operator_spelling, Bool.false_eq_true, if_false]
      exact starts_bare hpieces ((ih hc).operand.append _)
  | call _ _ ih | member _ _ ih | index _ _ ih =>
    exact starts_bare (fun _ => rfl) ((ih hc).operand.append _)
  | await => exact starts_parens (fun _ => rfl) fun _ => .of_mark (.inl rfl) rfl
  | object => exact starts_bare (fun _ => Grammar.bracedPieces_eq _) (.of_mark (.inr rfl) rfl)
  | lambda => exact starts_parens (fun _ => rfl) nofun
  | _ => cases hc

/-- What an expression starts with that is no operand. -/
def startsExpr (k : Kind) : Prop := startsTerm k ∨ k = .keyword .kFun ∨ k = .keyword .kAsync

theorem ne_of_startsExpr {k : Kind} (h : startsExpr k) : k ≠ .symbol .closeParen ∧ k ≠ .symbol .closeBracket ∧
    k ≠ .symbol .closeBrace ∧ k ≠ .symbol .semicolon ∧ k ≠ .keyword .kLet := by
  obtain (h | rfl) | rfl | rfl := h
  · refine ⟨?_, ?_, ?_, ?_, ?_⟩ <;> rintro rfl <;> cases h
  all_goals exact ⟨nofun, nofun, nofun, nofun, nofun⟩

theorem Phrase.eq_lambda {x : Node} (h : Phrase .expr x) (hx : x.isLambda = true) : ∃ sig body,
    x = .lambda sig (.block body) ∧ sig.Written ∧ ∀ y ∈ body, Phrase .stmt y := by
  cases h with
  | lambda hsig hbody => exact ⟨_, _, rfl, hsig, hbody⟩
  | literal h => cases h <;> cases hx
  | _ => cases hx

theorem Phrase.next {x : Node} (h : Phrase .expr x) : Next startsExpr (x.pieces false) := by
  cases hx : x.isLambda with
  | true =>
    obtain ⟨sig, body, rfl, -, -⟩ := h.eq_lambda hx
    show Next startsExpr (sig.headPieces ++ _)
    unfold Signature.headPieces
    split
    · exact ⟨_, rfl, .inr (.inr rfl)⟩
    · exact ⟨_, rfl, .inr (.inl rfl)⟩
  | false => exact (h.starts.whole hx).next.mono fun _ => .inl

/-- The kinds that can come first in a statement, and not behind one. -/
def startsStmt (k : Kind) : Prop :=
  k ≠ .symbol .closeBrace ∧ k ≠ .eof ∧ k ≠ .symbol .semicolon ∧ k ≠ .keyword .kElse ∧ k ≠ .symbol .question

theorem startsStmt_of_startsTerm {k : Kind} (h : startsTerm k) : startsStmt k := by
  obtain h | rfl := h
  · refine ⟨?_, ?_, ?_, ?_, ?_⟩ <;> rintro rfl <;> cases h
  · exact ⟨nofun, nofun, nofun, nofun, nofun⟩

theorem Signature.leads_head (sig : Signature) (qs : List Piece) :
    Leads startsStmt (sig.headPieces ++ qs) := by
  unfold Signature.headPieces
  split <;> exact .of_mark ⟨nofun, nofun, nofun, nofun, nofun⟩ rfl

theorem Phrase.leads {x : Node} (h : Phrase .stmt x) : Leads startsStmt (x.pieces false) := by
  have hword {k : Keyword} {qs : List Piece} (hk : k ≠ .kElse) : Leads startsStmt (keyword k :: qs) :=
    .of_mark ⟨nofun, nofun, nofun, by simpa using hk, nofun⟩ rfl
  cases h with
  | @exprStmt x hx =>
    refine Leads.append ?_ _
    cases hlambda : x.isLambda with
    | true =>
      obtain ⟨sig, body, rfl, -, -⟩ := hx.eq_lambda hlambda
      exact sig.leads_head _
    | false => exact (hx.starts.whole hlambda).mono fun _ => startsStmt_of_startsTerm
  | block =>
    unfold pieces
    split <;> exact .of_mark ⟨nofun, nofun, nofun, nofun, nofun⟩ rfl
  | func => exact Signature.leads_head _ _
  | returns =>
    unfold pieces
    split <;> exact hword nofun
  | forLoop | forLet =>
    rw [pieces_forLoop]
    exact hword nofun
  | _ => exact hword nofun

/-! ## Reading phrases -/

/-- What stands behind a statement: the end, or a blank and something that does not go on with an
expression. -/
def Apart (rest : List Piece) : Prop := rest = [ending] ∨
  ∃ qs, rest = blank :: qs ∧ Leads (· ≠ .symbol .question) qs

/-- What can stand behind a statement so that it is not part of it. -/
structure EndsStmt (x : Node) (rest : List Piece) : Prop where
  semicolon : Next (· ≠ .symbol .semicolon) rest
  branch : x.takesElse → Next (· ≠ .keyword .kElse) rest
  apart : Apart rest

/-- A statement that starts with an object. -/
def Node.LeadsObject : Node → Prop
  | exprStmt x => nextKind (x.pieces false) = some (.symbol .openBrace)
  | _ => False

section Reading

variable (V : View) (loose : Bool) (object : Stream → Bool)

/-- Streams that show a statement show whether it starts with an object. -/
def Discerns : Prop :=
  ∀ ⦃x s rest⦄, Phrase .stmt x → x.Legible loose → V.shows s (x.pieces false ++ rest) →
    EndsStmt x rest → (object s = true ↔ x.LeadsObject)

/-- Pieces are read by a production that is deep enough for them. -/
def ReadBy {α : Type} (P : Grammar → Parser α) (a : α) (ps : List Piece) (F : List Piece → Prop) : Prop :=
  ∀ n, weight ps ≤ n → Reads V (P (.lenient loose object n)) a ps F

/-- An expression is read, as an operand and on its own. -/
structure Understood (x : Node) : Prop where
  chain (h : x.IsHead loose) : Next Grammar.startsOperand (x.pieces true) ∧
    ∀ n, weight (x.pieces true) ≤ n → Grammar.Chain V loose (.lenient loose object n) x (x.pieces true)
  operand : ReadBy V loose object (Grammar.unaryLevel loose) x (x.pieces true) (Ends 2)
  ternary (h : x.isAssign = false) :
    ReadBy V loose object (Grammar.ternaryLevel loose) x (x.pieces false) (Ends 5)
  whole : ReadBy V loose object (Grammar.assignLevel loose) x (x.pieces false) (Ends 5)

/-- A statement is read. -/
def UnderstoodStmt (x : Node) : Prop :=
  ReadBy V loose object (Grammar.lenientStmt loose object) x (x.pieces false) (EndsStmt x)

/-- A phrase is read, and if it is a function, so are the statements of its body. -/
def Category.Understood : Category → Node → Prop
  | .expr, x => ScriptTyping.Understood V loose object x ∧
    ∀ sig body, x = .lambda sig (.block body) → ∀ y ∈ body, UnderstoodStmt V loose object y
  | .stmt, x => UnderstoodStmt V loose object x

end Reading

section Reading

open Grammar

variable {V : View} {loose : Bool} {object : Stream → Bool} {x y z : Node} {ps core : List Piece}
  {F : List Piece → Prop} {n : Nat}

/-- Productions below the first come from the depth below. -/
theorem ReadBy.below {α : Type} {P Q : Grammar → Parser α} {a : α} (h : ReadBy V loose object P a ps F)
    (hQ : ∀ n, Q (lenient loose object (n + 1)) = P (lenient loose object n)) (hn : weight ps < n) :
    Reads V (Q (lenient loose object n)) a ps F := by
  obtain ⟨n, rfl⟩ := Nat.exists_eq_succ_of_ne_zero (Nat.ne_of_gt (Nat.zero_lt_of_lt hn))
  exact hQ n ▸ h n (Nat.le_of_lt_succ hn)

theorem lenient_type {t : TypeExpr} (ht : t.Written) (hn : weight t.pieces < n) :
    Reads V (lenient loose object n).type t t.pieces TypeEnd := by
  obtain ⟨n, rfl⟩ := Nat.exists_eq_succ_of_ne_zero (Nat.ne_of_gt (Nat.zero_lt_of_lt hn))
  exact reads_type_of_lt (reads_type ht) hn

theorem ReadBy.binary (h : ReadBy V loose object (unaryLevel loose) x ps (Ends 2)) (least : Nat) :
    ReadBy V loose object (binaryLevel loose · least) x ps (Ends 3) :=
  fun n hn => reads_binary_of_unary (h n hn)

theorem ReadBy.ternary (h : ReadBy V loose object (unaryLevel loose) x ps (Ends 2)) :
    ReadBy V loose object (ternaryLevel loose) x ps (Ends 4) :=
  fun n hn => reads_ternary_of_binary (h.binary 1 n hn)

theorem ReadBy.assign (h : ReadBy V loose object (ternaryLevel loose) x ps (Ends 5))
    (hps : (nextKind ps).isSome) : ReadBy V loose object (assignLevel loose) x ps (Ends 5) :=
  fun n hn => reads_assign_of_ternary (h n hn) hps

theorem ReadBy.expr (h : ReadBy V loose object (assignLevel loose) x ps (Ends 5)) :
    ReadBy V loose object (sequenceLevel loose) x ps (Ends 6) :=
  fun n hn => reads_expr_of_assign (h n hn)

theorem ReadBy.mono {α : Type} {P : Grammar → Parser α} {a : α} {G : List Piece → Prop}
    (h : ReadBy V loose object P a ps F) (hFG : ∀ rest, G rest → F rest) : ReadBy V loose object P a ps G :=
  fun n hn => (h n hn).mono hFG

/-- An expression that has parentheses as an operand. -/
theorem understood_parens (hpieces : ∀ o, x.pieces o = parensPieces o core)
    (hternary : x.isAssign = false → ReadBy V loose object (ternaryLevel loose) x core (Ends 5))
    (hassign : ReadBy V loose object (assignLevel loose) x core (Ends 5)) : Understood V loose object x := by
  have hstart : Next startsOperand (x.pieces true) := hpieces true ▸ ⟨_, rfl, nofun, nofun, nofun, rfl⟩
  have hchain (n : Nat) (hn : weight (x.pieces true) ≤ n) :
      Chain V loose (lenient loose object n) x (x.pieces true) := by
    rw [hpieces] at hn ⊢
    simp only [parensPieces, if_true, weight, weight_append] at hn
    exact chain_of_primary (reads_parens (hassign.expr.below (fun _ => rfl) (by omega)))
  exact ⟨fun _ => ⟨hstart, hchain⟩, fun n hn => reads_operand (hchain n hn) hstart,
    fun h => hpieces false ▸ hternary h, hpieces false ▸ hassign⟩

/-- An expression that never has parentheses. -/
theorem understood_bare (hsame : x.pieces false = x.pieces true) (hsome : (nextKind (x.pieces true)).isSome)
    (hchain : x.IsHead loose → Next startsOperand (x.pieces true) ∧
      ∀ n, weight (x.pieces true) ≤ n → Chain V loose (lenient loose object n) x (x.pieces true))
    (hread : ReadBy V loose object (unaryLevel loose) x (x.pieces true) (Ends 2)) :
    Understood V loose object x := by
  have hternary : ReadBy V loose object (ternaryLevel loose) x (x.pieces true) (Ends 5) :=
    hread.ternary.mono fun _ h => Ends.mono (by decide) h
  exact ⟨hchain, hread, fun _ => hsame ▸ hternary, hsame ▸ hternary.assign hsome⟩

theorem understood_chain (hsame : x.pieces false = x.pieces true) (hstart : Next startsOperand (x.pieces true))
    (hchain : ∀ n, weight (x.pieces true) ≤ n → Chain V loose (lenient loose object n) x (x.pieces true)) :
    Understood V loose object x :=
  understood_bare hsame hstart.isSome (fun _ => ⟨hstart, hchain⟩) fun n hn => reads_operand (hchain n hn) hstart

theorem Understood.element (h : Understood V loose object x) (hx : x.isAssign → loose)
    (hn : weight (x.pieces false) < n) :
    Reads V (lenient loose object n).ternary x (x.pieces false) (Ends 5) := by
  cases loose with
  | true => exact h.whole.below (fun _ => rfl) hn
  | false => exact (h.ternary (by simpa using hx)).below (fun _ => rfl) hn

/-! ### Expressions -/

/-- An operand on its own. -/
theorem Understood.assign (h : Understood V loose object x) (hx : Phrase .expr x) :
    ReadBy V loose object (assignLevel loose) x (x.pieces true) (Ends 5) :=
  ReadBy.assign (h.operand.ternary.mono fun _ h => Ends.mono (by decide) h) hx.starts.operand.next.isSome

/-- The last part of a conditional expression. -/
theorem Understood.branch (h : Understood V loose object x) (hx : Phrase .expr x)
    (hn : weight (x.pieces true) < n) :
    Reads V (lenient loose object n).ternary x (x.pieces true) (Ends 5) := by
  cases loose with
  | true => exact (h.assign hx).below (fun _ => rfl) hn
  | false =>
    exact (h.operand.ternary.mono fun _ h => Ends.mono (by decide) h).below (fun _ => rfl) hn

variable {xs body : List Node} {c : Symbol} {name : String} {sig : Signature} {s : Stream}
  {vars : List Variable}

/-- Expressions in a list. -/
theorem Understood.args (hne : xs ≠ []) (h : ∀ x ∈ xs, Understood V loose object x)
    (hn : weight (commas (piecesAll xs)) < n) : Separated (OneOf (.symbol .comma))
      (fun y ps => Reads V (lenient loose object n).assign y ps (Ends 5)) xs (commas (piecesAll xs)) := by
  rw [piecesAll_eq] at hn ⊢
  refine separated_commas hne fun y hy => ?_
  have hle := weight_le_commas (mem_map_of_mem (f := pieces false) hy)
  exact (h y hy).whole.below (fun _ => rfl) (by omega)

theorem Understood.props {props : List (String × Node)} (hV : V.Exact)
    (h : ∀ q ∈ props, Understood V loose object q.2) (hn : weight (commas (piecesProps props)) < n) :
    Listed (OneOf (.symbol .comma)) (fun q ps => Reads V (lenient loose object n).property q ps (Ends 5) ∧
      Next (· ≠ .symbol .closeBrace) ps) props (commas (piecesProps props)) := by
  rw [piecesProps_eq] at hn ⊢
  refine listed_commas fun q hq => ?_
  have hle := weight_le_commas (mem_map_of_mem (f := fun q : String × Node =>
    Piece.ident q.1 :: symbol .colon :: blank :: q.2.pieces false) hq)
  simp only [weight] at hle
  exact ⟨reads_property hV ((h q hq).whole.below (fun _ => rfl) (by omega)), _, rfl, by simp⟩

theorem understood_literal (hV : V.Exact) (h : Literal x) : Understood V loose object x := by
  have hsame : x.pieces true = x.pieces false := by cases h <;> rfl
  refine understood_chain hsame.symm ?_ fun n _ => ?_
  · cases h with
    | number | string => exact ⟨_, rfl, nofun, nofun, nofun, rfl⟩
    | @bool value => cases value <;> exact ⟨_, rfl, nofun, nofun, nofun, rfl⟩
  · rw [hsame]
    exact chain_of_primary (reads_primary_literal hV h)

theorem understood_ident {name : String} : Understood V loose object (.ident name) :=
  understood_chain rfl ⟨_, rfl, nofun, nofun, nofun, rfl⟩ fun _ _ => chain_of_primary reads_ident

/-- Two operands and an operator between them. -/
theorem understood_between (hV : V.Exact) (hc : c.precedence ≠ 0) (hx : Phrase .expr x)
    (hux : Understood V loose object x) (huy : Understood V loose object y) (hz : infixNode c x y = z)
    (hpieces : ∀ o, z.pieces o =
      parensPieces o (x.pieces true ++ blank :: symbol c :: blank :: y.pieces true)) :
    Understood V loose object z := by
  have hternary : ReadBy V loose object (ternaryLevel loose) z
      (x.pieces true ++ blank :: symbol c :: blank :: y.pieces true) (Ends 5) := by
    intro n hn
    simp only [weight, weight_append] at hn
    have hright := (huy.operand.binary (c.precedence + 1)).below (n := n)
      (Q := fun g => g.binary (c.precedence + 1)) (fun _ => rfl) (by omega)
    have hread := reads_binary hV hc (Nat.pos_of_ne_zero hc) (hux.operand n (by omega)) hright
    rw [hz] at hread
    exact (reads_ternary_of_binary hread).mono fun _ h => Ends.mono (by decide) h
  exact understood_parens hpieces (fun _ => hternary) (hternary.assign (hx.starts.operand.append _).next.isSome)

theorem understood_assign (hV : V.Exact) (hc : c.isAssignment = true) (htarget : isTarget x = true)
    (hx : Phrase .expr x) (hy : Phrase .expr y) (hux : Understood V loose object x)
    (huy : Understood V loose object y) : Understood V loose object (.assign c.spelling x y) := by
  have hpieces (o : Bool) : (assign c.spelling x y).pieces o =
      parensPieces o (x.pieces true ++ blank :: symbol c :: blank :: y.pieces true) := by
    simp only [pieces, operator_spelling]
  refine understood_parens hpieces nofun fun n hn => ?_
  simp only [weight, weight_append] at hn
  exact reads_assign hV hc htarget (hux.operand.ternary n (by omega)) hx.starts.operand.next.isSome
    ((huy.assign hy).below (fun _ => rfl) (by omega))

theorem understood_unary (hV : V.Exact) (hc : c = .bang ∨ c = .minus ∨ c = .plus ∨ c = .tilde)
    (hux : Understood V loose object x) : Understood V loose object (.unary c.spelling x) := by
  refine understood_bare rfl (by simp [pieces, nextKind]) (fun h => ?_) fun n hn => ?_
  · exact absurd (c.head_spelling.symm.trans h.1) (by simp)
  · simp only [pieces, operator_spelling, weight] at hn ⊢
    exact reads_unary hV hc (hux.operand.below (fun _ => rfl) (by omega))

theorem understood_update (hV : V.Exact) {before : Bool} (hc : c = .increment ∨ c = .decrement)
    (hhead : before = false → x.IsHead loose) (hux : Understood V loose object x) :
    Understood V loose object (.update c.spelling x before) := by
  cases before with
  | true =>
    refine understood_bare rfl (by simp [pieces, nextKind]) (fun h => ?_) fun n hn => ?_
    · exact absurd (c.head_spelling.symm.trans h.1) (by simp)
    · simp only [pieces, operator_spelling, if_true, weight] at hn ⊢
      exact reads_update_before hV hc (hux.operand.below (fun _ => rfl) (by omega))
  | false =>
    obtain ⟨hstart, hchain⟩ := hux.chain (hhead rfl)
    have hpieces : (update c.spelling x false).pieces true = x.pieces true ++ [symbol c] := by
      simp only [pieces, operator_spelling, Bool.false_eq_true, if_false]
    have hle (n : Nat) (hn : weight ((update c.spelling x false).pieces true) ≤ n) :
        weight (x.pieces true) ≤ n := by
      rw [hpieces, weight_append] at hn
      omega
    refine understood_bare rfl (hpieces ▸ (hstart.append _).isSome) (fun h => ?_) fun n hn => ?_
    · obtain rfl : loose = true := h.2 rfl
      exact ⟨hpieces ▸ hstart.append _, fun n hn => hpieces ▸ (hchain n (hle n hn)).update hV hc⟩
    · exact hpieces ▸ reads_update_behind hV hc (hchain n (hle n hn)) hstart

theorem understood_ternary (hx : Phrase .expr x) (hy : Phrase .expr y) (hz : Phrase .expr z)
    (hux : Understood V loose object x) (huy : Understood V loose object y)
    (huz : Understood V loose object z) : Understood V loose object (.ternary x y z) := by
  have hternary : ReadBy V loose object (ternaryLevel loose) (.ternary x y z) (x.pieces true ++ blank ::
      symbol .question :: blank :: (y.pieces true ++ blank :: symbol .colon :: blank :: z.pieces true))
      (Ends 5) := by
    intro n hn
    simp only [weight, weight_append] at hn
    exact reads_ternary (hux.operand.binary 1 n (by omega)) ((huy.assign hy).below (fun _ => rfl) (by omega))
      (huz.branch hz (by omega))
  exact understood_parens (fun _ => rfl) (fun _ => hternary)
    (hternary.assign (hx.starts.operand.append _).next.isSome)

theorem understood_sequence (hne : xs ≠ []) (hux : Understood V loose object x)
    (huxs : ∀ y ∈ xs, Understood V loose object y) : Understood V loose object (.sequence (x :: xs)) := by
  have hcommas : commas (piecesAll (x :: xs)) =
      x.pieces false ++ symbol .comma :: blank :: commas (piecesAll xs) := by
    obtain ⟨y, ys, rfl⟩ := exists_cons_of_ne_nil hne
    simp [piecesAll, commas]
  have hread : ReadBy V loose object (sequenceLevel loose) (.sequence (x :: xs))
      (x.pieces false ++ symbol .comma :: blank :: commas (piecesAll xs)) (Ends 6) := by
    intro n hn
    simp only [weight, weight_append] at hn
    exact reads_sequence (hux.whole n (by omega)) (Understood.args hne huxs (by omega))
  refine understood_chain rfl ⟨_, rfl, by simp, by simp, by simp, rfl⟩ fun n hn => ?_
  simp only [pieces, hcommas, weight, weight_append] at hn ⊢
  refine chain_of_primary (reads_parens (hread.below (fun _ => rfl) ?_))
  simp only [weight, weight_append]
  omega

theorem understood_call (hhead : x.IsHead loose) (hxs : ∀ y ∈ xs, Phrase .expr y)
    (hux : Understood V loose object x) (huxs : ∀ y ∈ xs, Understood V loose object y) :
    Understood V loose object (.call x xs) := by
  obtain ⟨hstart, hchain⟩ := hux.chain hhead
  refine understood_chain rfl (hstart.append _) fun n hn => ?_
  simp only [pieces, weight, weight_append] at hn ⊢
  refine (hchain n (by omega)).apply (reads_step_call ?_) (by simp) (by decide)
  cases xs with
  | nil => exact reads_arguments_nil
  | cons y ys =>
    refine reads_arguments (Understood.args (by simp) huxs (by omega)) ?_
    obtain ⟨qs, hqs⟩ := exists_intercalate_cons [symbol .comma, blank] (y.pieces false) (piecesAll ys)
    rw [piecesAll, commas, hqs]
    exact ((hxs y (by simp)).next.append qs).mono fun _ hk => (ne_of_startsExpr hk).1

theorem understood_await (hux : Understood V loose object x) : Understood V loose object (.await x) := by
  have hread : ReadBy V loose object (unaryLevel loose) (.await x)
      (keyword .kAwait :: blank :: x.pieces true) (Ends 2) := by
    intro n hn
    simp only [weight] at hn
    exact reads_await (hux.operand.below (fun _ => rfl) (by omega))
  have hternary := hread.ternary.mono (G := Ends 5) fun _ h => Ends.mono (by decide) h
  exact understood_parens (fun _ => rfl) (fun _ => hternary) (hternary.assign rfl)

theorem understood_member {arrow : Bool} (hhead : x.IsHead loose)
    (hux : Understood V loose object x) : Understood V loose object (.member x name arrow) := by
  obtain ⟨hstart, hchain⟩ := hux.chain hhead
  refine understood_chain rfl (hstart.append _) fun n hn => ?_
  simp only [pieces, weight, weight_append] at hn ⊢
  exact (hchain n (by omega)).apply reads_step_member (by cases arrow <;> simp) (by cases arrow <;> decide)

theorem understood_index (hhead : x.IsHead loose) (hux : Understood V loose object x)
    (huy : Understood V loose object y) : Understood V loose object (.index x y) := by
  obtain ⟨hstart, hchain⟩ := hux.chain hhead
  refine understood_chain rfl (hstart.append _) fun n hn => ?_
  simp only [pieces, weight, weight_append] at hn ⊢
  have hindex := huy.whole.expr.below (Q := Grammar.expr) (n := n) (fun _ => rfl) (by omega)
  exact (hchain n (by omega)).apply (reads_step_index hindex) (by simp) (by decide)

theorem understood_array (hxs : ∀ y ∈ xs, Phrase .expr y)
    (hassign : ∀ y ∈ xs, y.isAssign → loose) (huxs : ∀ y ∈ xs, Understood V loose object y) : Understood V loose object (.array xs) := by
  refine understood_chain rfl ⟨_, rfl, nofun, nofun, nofun, rfl⟩ fun n hn => ?_
  simp only [pieces, weight, weight_append, piecesAll_eq] at hn ⊢
  refine chain_of_primary (reads_arrayLit (listed_commas fun y hy => ⟨?_, ?_⟩))
  · have hle := weight_le_commas (mem_map_of_mem (f := pieces false) hy)
    exact (huxs y hy).element (hassign y hy) (by omega)
  · exact (hxs y hy).next.mono fun _ hk => (ne_of_startsExpr hk).2.1

theorem understood_object (hV : V.Exact) {ps : List (String × Node)}
    (hups : ∀ q ∈ ps, Understood V loose object q.2) : Understood V loose object (.object ps) := by
  have hpieces (o : Bool) : (Node.object ps).pieces o =
      symbol .openBrace :: closedPieces (piecesProps ps) := bracedPieces_eq _
  refine understood_chain rfl (hpieces true ▸ ⟨_, rfl, nofun, nofun, nofun, rfl⟩) fun n hn => ?_
  simp only [hpieces, weight, weight_closed] at hn ⊢
  exact chain_of_primary (reads_object (reads_objectLit (Understood.props hV hups (by omega))))

theorem understood_structLit (hV : V.Exact) {ps : List (String × Node)}
    (hups : ∀ q ∈ ps, Understood V loose object q.2) :
    Understood V loose object (.structLit name (.object ps)) := by
  have hpieces (o : Bool) : (structLit name (.object ps)).pieces o =
      ident name :: blank :: symbol .openBrace :: closedPieces (piecesProps ps) := by
    simp only [pieces, bracedPieces_eq]
  refine understood_chain rfl (hpieces true ▸ ⟨_, rfl, nofun, nofun, nofun, rfl⟩) fun n hn => ?_
  simp only [hpieces, weight, weight_closed] at hn ⊢
  exact chain_of_primary (reads_structLit (reads_objectLit (Understood.props hV hups (by omega))))

/-! ### Functions -/

theorem endsStmt_of_leads {qs : List Piece} (h : Leads startsStmt qs) : EndsStmt x (blank :: qs) where
  semicolon := Next.mono (fun _ hk => hk.2.2.1) h.next
  branch _ := Next.mono (fun _ hk => hk.2.2.2.1) h.next
  apart := .inr ⟨qs, rfl, h.mono fun _ hk => hk.2.2.2.2⟩

theorem reads_body {o : Bool} (hbody : ∀ x ∈ body, Phrase .stmt x)
    (h : ∀ x ∈ body, UnderstoodStmt V loose object x) (hn : weight ((block body).pieces o) ≤ n) :
    Reads V (lenient loose object n).block (.block body) ((block body).pieces o) F := by
  refine reads_block (R := EndsStmt) (fun x hx => ?_) (fun x hx => ?_) (fun x hx y hy rest => ?_)
    fun x hx rest => ?_
  · have hne : body.isEmpty = false := by simpa using ne_nil_of_mem hx
    have hle := weight_le_of_sublist (@sublist_intercalate _ [blank] _ _
      (mem_map_of_mem (f := pieces false) hx))
    simp only [pieces, hne, Bool.false_eq_true, if_false, weight, weight_append, piecesAll_eq] at hn
    exact ReadBy.below (h x hx) (fun _ => rfl) (by omega)
  · exact Next.mono (fun _ hk => ⟨hk.1, hk.2.1⟩) (hbody x hx).leads.next
  · exact endsStmt_of_leads ((hbody y hy).leads.append rest)
  · exact ⟨⟨_, rfl, by simp⟩, fun _ => ⟨_, rfl, by simp⟩, .inr ⟨_, rfl, .of_mark (by simp) rfl⟩⟩

theorem reads_sig (hsig : sig.Written) (hn : weight sig.pieces < n) :
    Reads V ((lenient loose object n).signature sig.async) sig sig.pieces TypeEnd :=
  reads_signature hsig fun _ ht hle => lenient_type ht (by omega)

theorem exists_block_pieces (body : List Node) :
    ∃ qs, ∀ o, (block body).pieces o = symbol .openBrace :: qs := by
  by_cases hnil : body = []
  · exact ⟨[symbol .closeBrace], fun o => by simp [pieces, hnil]⟩
  · refine ⟨blank :: ([blank].intercalate (piecesAll body) ++ [blank, symbol .closeBrace]), fun o => ?_⟩
    simp [pieces, hnil]

theorem weight_head_pos (sig : Signature) : 0 < weight sig.headPieces := by
  unfold Signature.headPieces
  split <;> decide

theorem understood_lambda (hsig : sig.Written)
    (hbody : ∀ y ∈ body, Phrase .stmt y) (h : ∀ y ∈ body, UnderstoodStmt V loose object y) :
    Understood V loose object (.lambda sig (.block body)) := by
  have hstart : Next startsOperand
      (sig.headPieces ++ (sig.pieces ++ blank :: (block body).pieces false)) := by
    unfold Signature.headPieces
    split <;> exact ⟨_, rfl, nofun, nofun, nofun, rfl⟩
  have hread : ReadBy V loose object (unaryLevel loose) (.lambda sig (.block body))
      (sig.headPieces ++ (sig.pieces ++ blank :: (block body).pieces false)) (Ends 2) := by
    intro n hn
    have hpos := weight_head_pos sig
    simp only [weight, weight_append] at hn
    have hblock : Reads V (lenient loose object n).block (.block body) ((block body).pieces false)
        (Next (· ≠ .symbol .openBrace)) := reads_body hbody h (by omega)
    obtain ⟨qs, hqs⟩ := exists_block_pieces body
    rw [hqs] at hstart hblock ⊢
    exact reads_operand (chain_of_primary (reads_primary_lambda (reads_sig hsig (by omega)) hblock)) hstart
  have hternary := hread.ternary.mono (G := Ends 5) fun _ h => Ends.mono (by decide) h
  exact understood_parens (fun _ => rfl) (fun _ => hternary) (hternary.assign hstart.isSome)

/-! ### Statements -/

theorem took_lenientStmt {g : Grammar} {s' : Stream} : Took (g.lenientStmt loose object) s x s' ↔
    if object s ∨ startsPlain s.current.kind then Took (g.sequenceLevel loose >>= exprStmt) s x s'
    else Took g.statement s x s' := by
  show (if object s ∨ startsPlain s.current.kind then _ else _) = _ ↔ _
  split <;> rfl

/-- A statement that is no expression, or a function, shows this by its first token. -/
theorem Phrase.next_word (h : Phrase .stmt x) (hx : ∀ y, x = .exprStmt y → y.isLambda) :
    ¬ x.LeadsObject ∧ Next (startsPlain · = false) (x.pieces false) := by
  have hhead (sig : Signature) (qs : List Piece) :
      Next (fun k => k ≠ .symbol .openBrace ∧ startsPlain k = false) (sig.headPieces ++ qs) := by
    unfold Signature.headPieces
    split <;> exact ⟨_, rfl, nofun, rfl⟩
  cases h with
  | @exprStmt y hy =>
    obtain ⟨sig, body, rfl, -, -⟩ := hy.eq_lambda (hx y rfl)
    obtain ⟨k, hk, hne, hplain⟩ : Next _ ((Node.lambda sig (.block body)).pieces false) := hhead sig _
    exact ⟨fun hlead => hne (Option.some.inj (hk.symm.trans hlead)), k, nextKind_append hk _, hplain⟩
  | @block body =>
    obtain ⟨qs, hqs⟩ := exists_block_pieces body
    exact ⟨id, hqs false ▸ ⟨_, rfl, rfl⟩⟩
  | func => exact ⟨id, (hhead _ _).mono fun _ hk => hk.2⟩
  | returns =>
    refine ⟨id, ?_⟩
    unfold pieces
    split <;> exact ⟨_, rfl, rfl⟩
  | forLoop | forLet =>
    rw [pieces_forLoop]
    exact ⟨id, _, rfl, rfl⟩
  | _ => exact ⟨id, _, rfl, rfl⟩

/-- A statement that does not start with an expression, or with a function. -/
theorem understood_stmt (hobject : Discerns V loose object) (hx : Phrase .stmt x) (hl : x.Legible loose)
    (hne : ∀ y, x = .exprStmt y → y.isLambda)
    (h : ReadBy V loose object statement x (x.pieces false) (EndsStmt x)) :
    UnderstoodStmt V loose object x := by
  intro n hn s rest hs hsome hF
  obtain ⟨s', hs', hrest⟩ := h n hn s rest hs hsome hF
  obtain ⟨hlead, hplain⟩ := hx.next_word hne
  have hkind : startsPlain s.current.kind = false := V.kind_of_next hs (hplain.append _) fun _ => rfl
  refine ⟨s', took_lenientStmt.2 ?_, hrest⟩
  rwa [if_neg (not_or.2 ⟨mt (hobject hx hl hs hF).1 hlead, by simp [hkind]⟩)]

theorem understood_exprStmt (hobject : Discerns V loose object) (hx : Phrase .expr x)
    (hl : (Node.exprStmt x).Legible loose) (hux : Understood V loose object x)
    (hbody : ∀ sig body, x = .lambda sig (.block body) → ∀ y ∈ body, UnderstoodStmt V loose object y) :
    UnderstoodStmt V loose object (.exprStmt x) := by
  cases hlambda : x.isLambda with
  | true =>
    refine understood_stmt hobject (.exprStmt hx) hl (fun y hy => Node.exprStmt.inj hy ▸ hlambda) fun n hn => ?_
    obtain ⟨sig, body, rfl, hsig, hstmts⟩ := hx.eq_lambda hlambda
    have hpos := weight_head_pos sig
    have hpieces : (Node.exprStmt (.lambda sig (.block body))).pieces false = (sig.headPieces ++ (sig.pieces ++
        blank :: (block body).pieces false)) ++ [symbol .semicolon] := rfl
    rw [hpieces] at hn ⊢
    simp only [weight, weight_append] at hn
    have hblock (F : List Piece → Prop) : Reads V (lenient loose object n).block (.block body)
      ((block body).pieces false) F := reads_body hstmts (hbody sig body rfl) (by omega)
    obtain ⟨qs, hqs⟩ := exists_block_pieces body
    simp only [hqs] at hblock ⊢
    exact reads_stmt_lambda (reads_sig hsig (by omega)) hblock
  | false =>
    intro n hn s rest hs hsome hF
    have hexpr : Reads V ((lenient loose object n).sequenceLevel loose) x (x.pieces false) (Ends 6) := by
      simp only [pieces, weight, weight_append] at hn
      exact hux.whole.expr n (by omega)
    obtain ⟨s', hs', hrest⟩ := reads_exprStmt hexpr s rest hs hsome hF
    refine ⟨s', took_lenientStmt.2 ?_, hrest⟩
    rwa [if_pos]
    obtain ⟨t, qs, hqs, hk | hk, -⟩ := hx.starts.whole hlambda
    · have hnext : Next (startsPlain · = true) ((Node.exprStmt x).pieces false ++ rest) := by
        show Next _ ((x.pieces false ++ _) ++ rest)
        exact hqs ▸ ⟨_, rfl, hk⟩
      exact .inr (V.kind_of_next hs hnext fun h => by cases h)
    · exact .inl ((hobject (.exprStmt hx) hl hs hF).2 (by simp [Node.LeadsObject, hqs, nextKind, hk]))

theorem understood_block (hobject : Discerns V loose object)
    (hbody : ∀ x ∈ body, Phrase .stmt x) (h : ∀ x ∈ body, UnderstoodStmt V loose object x) :
    UnderstoodStmt V loose object (.block body) := by
  refine understood_stmt hobject (.block hbody) trivial nofun fun n hn => ?_
  have hblock := reads_body (F := EndsStmt (.block body)) hbody h hn
  obtain ⟨qs, hqs⟩ := exists_block_pieces body
  rw [hqs] at hblock ⊢
  exact reads_stmt_block hblock

theorem EndsStmt.imp {rest : List Piece} (h : EndsStmt x rest) (helse : y.takesElse → x.takesElse) :
    EndsStmt y rest :=
  ⟨h.semicolon, fun hy => h.branch (helse hy), h.apart⟩

theorem understood_ifElse (hobject : Discerns V loose object) (h : Phrase .stmt (.ifElse x y z))
    (helse : z ≠ .missing → y.takesElse = false) (hux : Understood V loose object x)
    (huy : UnderstoodStmt V loose object y) (huz : z ≠ .missing → UnderstoodStmt V loose object z) :
    UnderstoodStmt V loose object (.ifElse x y z) := by
  refine understood_stmt hobject h trivial (by simp) fun n hn => ?_
  by_cases hz : z = .missing
  · subst hz
    simp only [pieces, isMissing, if_true, append_nil, weight, weight_append] at hn ⊢
    refine reads_if (hux.whole.expr.below (fun _ => rfl) (by omega))
      ((ReadBy.below huy (fun _ => rfl) (by omega)).mono fun rest hF => hF.imp fun _ => rfl) ?_
    exact fun rest hF => hF.branch rfl
  · simp only [pieces, isMissing_of_ne hz, Bool.false_eq_true, if_false, weight, weight_append] at hn ⊢
    refine reads_ifElse (hux.whole.expr.below (fun _ => rfl) (by omega))
      (ReadBy.below huy (fun _ => rfl) (by omega))
      ((ReadBy.below (huz hz) (fun _ => rfl) (by omega)).mono fun rest hF => hF.imp fun hz => ?_) fun rest => ?_
    · simp [takesElse, hz]
    · refine ⟨⟨_, rfl, by simp⟩, fun hy => ?_, .inr ⟨_, rfl, .of_mark (by simp) rfl⟩⟩
      simp [helse hz] at hy

theorem understood_while (hobject : Discerns V loose object) (h : Phrase .stmt (.whileLoop x y))
    (hux : Understood V loose object x) (huy : UnderstoodStmt V loose object y) :
    UnderstoodStmt V loose object (.whileLoop x y) := by
  refine understood_stmt hobject h trivial nofun fun n hn => ?_
  simp only [pieces, weight, weight_append] at hn ⊢
  exact reads_while (hux.whole.expr.below (fun _ => rfl) (by omega))
    ((ReadBy.below huy (fun _ => rfl) (by omega)).mono fun rest hF => hF.imp id)

/-- A loop, of which the first clause can be read. -/
theorem understood_for (hobject : Discerns V loose object) {init body : Node}
    (h : Phrase .stmt (.forLoop init x y body))
    (hinit : ∀ n, weight init.headPieces < n → Reads V (lenient loose object n).firstClause init init.headPieces
      (Next (· = .symbol .semicolon)))
    (hx : x ≠ .missing → Phrase .expr x) (hy : y ≠ .missing → Phrase .expr y)
    (hux : x ≠ .missing → Understood V loose object x) (huy : y ≠ .missing → Understood V loose object y)
    (hbody : UnderstoodStmt V loose object body) :
    UnderstoodStmt V loose object (.forLoop init x y body) := by
  refine understood_stmt hobject h trivial nofun fun n hn => ?_
  rw [pieces_forLoop] at hn ⊢
  simp only [weight, weight_append] at hn
  refine reads_for (hinit n (by omega)) (reads_clause (.inl rfl) fun hne => ⟨?_, ?_⟩)
    (reads_clause (.inr rfl) fun hne => ⟨?_, ?_⟩)
    ((ReadBy.below hbody (fun _ => rfl) (by omega)).mono fun rest hF => hF.imp id)
  · exact (hux hne).whole.expr.below (fun _ => rfl) (by omega)
  · exact (hx hne).next.mono fun _ hk => (ne_of_startsExpr hk).2.2.2.1
  · exact (huy hne).whole.expr.below (fun _ => rfl) (by omega)
  · exact (hy hne).next.mono fun _ hk => (ne_of_startsExpr hk).1

theorem understood_return (hobject : Discerns V loose object) (hx : x ≠ .missing → Phrase .expr x)
    (hux : x ≠ .missing → Understood V loose object x) : UnderstoodStmt V loose object (.returns x) := by
  refine understood_stmt hobject (.returns hx) trivial nofun fun n hn => ?_
  by_cases hmissing : x = .missing
  · subst hmissing
    exact reads_return_missing
  · simp only [pieces, isMissing_of_ne hmissing, Bool.false_eq_true, if_false, weight, weight_append] at hn ⊢
    refine reads_return ((hux hmissing).whole.expr.below (fun _ => rfl) (by omega)) ?_
    exact (hx hmissing).next.mono fun _ hk => ⟨(ne_of_startsExpr hk).2.2.2.1, (ne_of_startsExpr hk).2.2.1⟩

theorem weight_variable {v : Variable} (ps : List Piece) :
    (v.ann.Written → weight v.ann.pieces < weight (v.pieces ps)) ∧
      (v.value ≠ .missing → weight ps < weight (v.pieces ps)) := by
  unfold VariableOf.pieces
  constructor
  · intro ht
    have hle := weight_le_annotation ht
    simp only [weight, weight_append]
    omega
  · intro hne
    simp only [isMissing_of_ne hne, Bool.false_eq_true, if_false, weight, weight_append]
    omega

/-- Declared variables, with or without a semicolon behind them. -/
theorem reads_lets (hne : vars ≠ []) (hvars : ∀ v ∈ vars, v.Written)
    (hvalues : ∀ v ∈ vars, v.value ≠ .missing → Understood V loose object v.value)
    (hn : weight (headPieces (.lets vars)) ≤ n) :
    Reads V (lenient loose object n).letDecl (.lets vars) (headPieces (.lets vars))
      (Next (· = .symbol .semicolon)) := by
  refine reads_letDecl hne fun v hv => ?_
  obtain ⟨hann, hvalue⟩ := weight_variable (v := v) (v.value.pieces false)
  have hle := weight_le_commas
    (mem_map_of_mem (f := fun v : Variable => v.pieces (v.value.pieces false)) hv)
  simp only [headPieces, piecesVars_eq, weight] at hn
  refine reads_variable (hvars v hv) (fun ht => lenient_type ht ?_) fun hne =>
    (hvalues v hv hne).whole.below (fun _ => rfl) ?_
  · have hlt := hann ht
    omega
  · have hlt := hvalue hne
    omega

theorem understood_lets (hobject : Discerns V loose object) (h : Phrase .stmt (.lets vars))
    (hne : vars ≠ []) (hvars : ∀ v ∈ vars, v.Written)
    (hvalues : ∀ v ∈ vars, v.value ≠ .missing → Understood V loose object v.value) :
    UnderstoodStmt V loose object (.lets vars) := by
  refine understood_stmt hobject h trivial nofun fun n hn => ?_
  have hle : weight (headPieces (.lets vars)) ≤ n := by
    simp only [pieces, headPieces, weight, weight_append] at hn ⊢
    omega
  exact reads_let (reads_lets hne hvars hvalues hle)

theorem understood_func (hobject : Discerns V loose object)
    (hname : IsName name) (hsig : sig.Written) (hbody : ∀ y ∈ body, Phrase .stmt y)
    (h : ∀ y ∈ body, UnderstoodStmt V loose object y) :
    UnderstoodStmt V loose object (.func name sig (.block body)) := by
  refine understood_stmt hobject (.func hname hsig hbody) trivial nofun fun n hn => ?_
  have hpos := weight_head_pos sig
  have hpieces : (func name sig (.block body)).pieces false = sig.headPieces ++ ident name ::
      (sig.pieces ++ blank :: (block body).pieces false) := rfl
  rw [hpieces] at hn ⊢
  simp only [weight, weight_append] at hn
  have hblock : Reads V (lenient loose object n).block (.block body) ((block body).pieces false)
      (EndsStmt (.func name sig (.block body))) := reads_body hbody h (by omega)
  obtain ⟨qs, hqs⟩ := exists_block_pieces body
  rw [hqs] at hblock ⊢
  exact reads_func_stmt (reads_sig hsig (by omega)) hblock

theorem weight_field {f : Field} (ht : f.ann.Written) : weight f.ann.pieces < weight f.pieces := by
  have hle := weight_le_annotation ht
  simp only [Field.pieces, weight]
  omega

theorem understood_struct (hobject : Discerns V loose object) {ps : List TypeParam}
    {fs : List Field} (hname : IsName name) (hps : ∀ p ∈ ps, p.Written) (hfs : ∀ f ∈ fs, f.Written) :
    UnderstoodStmt V loose object (.structDecl ⟨name, ps, fs⟩) := by
  refine understood_stmt hobject (.structDecl hname hps hfs) trivial nofun fun n hn => ?_
  refine reads_struct hfs (fun f hf ht => lenient_type ht ?_) fun rest hF => hF.semicolon
  have hfield := weight_field ht
  have hle := weight_le_commas (mem_map_of_mem (f := Field.pieces) hf)
  simp only [pieces, StructDecl.pieces, bracedPieces_eq, weight, weight_append, weight_closed] at hn
  omega

/-- What is read inside a variant is shorter than it. -/
theorem weight_variant {v : Variant} (hv : v.Written) (ps : List Piece) :
    (∀ t ∈ v.tuple, weight t.pieces < weight (v.pieces ps)) ∧
      ∀ f ∈ v.fields, f.ann.Written → weight f.ann.pieces < weight (v.pieces ps) := by
  cases hv with
  | unit | constant => exact ⟨(by simp), by simp⟩
  | @tuple name ts =>
    refine ⟨fun t (ht : t ∈ ts) => ?_, by simp⟩
    have hle := weight_le_commas (mem_map_of_mem (f := TypeExpr.pieces) ht)
    simp only [VariantOf.pieces, TypeExpr.piecesAll_eq, weight, weight_append]
    omega
  | @fields name fs =>
    refine ⟨(by simp), fun f (hf : f ∈ fs) ht => ?_⟩
    have hfield := weight_field ht
    have hle := weight_le_commas (mem_map_of_mem (f := Field.pieces) hf)
    simp only [VariantOf.pieces, bracedPieces_eq, weight, weight_closed]
    omega

theorem understood_enum (hobject : Discerns V loose object) (hV : V.Exact) {ps : List TypeParam}
    {vs : List Variant} (hname : IsName name) (hps : ∀ p ∈ ps, p.Written) (hvs : ∀ v ∈ vs, v.Written) :
    UnderstoodStmt V loose object (.enumDecl ⟨name, ps, vs⟩) := by
  refine understood_stmt hobject (.enumDecl hname hps hvs) trivial nofun fun n hn => ?_
  refine reads_enum (fun v hv => ?_) fun rest hF => hF.semicolon
  obtain ⟨htuple, hfields⟩ := weight_variant (hvs v hv) (v.value.pieces false)
  have hle := weight_le_commas
    (mem_map_of_mem (f := fun v : Variant => v.pieces (v.value.pieces false)) hv)
  simp only [pieces, piecesVariants_eq, weight, weight_append] at hn
  refine reads_variant hV (hvs v hv) (fun t ht hwritten => lenient_type hwritten ?_) fun f hf hwritten =>
    lenient_type hwritten ?_
  · have hlt := htuple t ht
    omega
  · have hlt := hfields f hf hwritten
    omega

/-! ### Phrases -/

theorem Phrase.understood {c : Category} (hV : V.Exact) (hobject : Discerns V loose object) (h : Phrase c x)
    (hl : x.All (Node.Legible loose)) : c.Understood V loose object x := by
  induction h with
  | literal h => exact ⟨understood_literal hV h, by cases h <;> nofun⟩
  | ident => exact ⟨understood_ident, nofun⟩
  | binary hc hand hor hx _ ihx ihy =>
    obtain ⟨-, hlx, hly⟩ := hl.parts
    refine ⟨understood_between hV hc hx (ihx hlx).1 (ihy hly).1 (if_neg (by simp [hand, hor])) fun o => ?_,
      nofun⟩
    simp only [pieces, operator_spelling]
  | logical hc hx _ ihx ihy =>
    obtain ⟨-, hlx, hly⟩ := hl.parts
    refine ⟨understood_between hV (by obtain rfl | rfl := hc <;> decide) hx (ihx hlx).1 (ihy hly).1 (if_pos hc)
      fun o => ?_, nofun⟩
    simp only [pieces, operator_spelling]
  | unary hc _ ih =>
    obtain ⟨-, hlx⟩ := hl.parts
    exact ⟨understood_unary hV hc (ih hlx).1, nofun⟩
  | update hc _ ih =>
    obtain ⟨hhead, hlx⟩ := hl.parts
    exact ⟨understood_update hV hc (by rintro rfl; exact hhead) (ih hlx).1, nofun⟩
  | assign hc htarget hx hy ihx ihy =>
    obtain ⟨-, hlx, hly⟩ := hl.parts
    exact ⟨understood_assign hV hc htarget hx hy (ihx hlx).1 (ihy hly).1, nofun⟩
  | ternary hx hy hz ihx ihy ihz =>
    obtain ⟨-, hlx, hly, hlz⟩ := hl.parts
    exact ⟨understood_ternary hx hy hz (ihx hlx).1 (ihy hly).1 (ihz hlz).1, nofun⟩
  | sequence _ hne _ ihx ihxs =>
    obtain ⟨-, hl⟩ := hl.parts
    obtain ⟨hlx, hlxs⟩ := forall_mem_cons.1 hl
    exact ⟨understood_sequence hne (ihx hlx).1 fun y hy => (ihxs y hy (hlxs y hy)).1, nofun⟩
  | call _ hxs ihx ihxs =>
    obtain ⟨hhead, hlx, hlxs⟩ := hl.parts
    exact ⟨understood_call hhead hxs (ihx hlx).1 fun y hy => (ihxs y hy (hlxs y hy)).1, nofun⟩
  | await _ ih =>
    obtain ⟨-, hlx⟩ := hl.parts
    exact ⟨understood_await (ih hlx).1, nofun⟩
  | member _ _ ih =>
    obtain ⟨hhead, hlx⟩ := hl.parts
    exact ⟨understood_member hhead (ih hlx).1, nofun⟩
  | index _ _ ihx ihy =>
    obtain ⟨hhead, hlx, hly⟩ := hl.parts
    exact ⟨understood_index hhead (ihx hlx).1 (ihy hly).1, nofun⟩
  | array hxs ih =>
    obtain ⟨hassign, hl⟩ := hl.parts
    exact ⟨understood_array hxs hassign fun y hy => (ih y hy (hl y hy)).1, nofun⟩
  | object _ ih =>
    obtain ⟨-, hl⟩ := hl.parts
    exact ⟨understood_object hV fun q hq => (ih q hq (hl q hq)).1, nofun⟩
  | structLit _ _ ih =>
    obtain ⟨-, hl⟩ := hl.parts
    obtain ⟨-, hl⟩ := hl.parts
    exact ⟨understood_structLit hV fun q hq => (ih q hq (hl q hq)).1, nofun⟩
  | @lambda sig body hsig hbody ih =>
    obtain ⟨-, -, -, hl⟩ := hl.parts
    obtain ⟨-, hl⟩ := hl.parts
    have hstmts : ∀ y ∈ body, UnderstoodStmt V loose object y := fun y hy => ih y hy (hl y hy)
    refine ⟨understood_lambda hsig hbody hstmts, ?_⟩
    rintro _ _ ⟨⟩
    exact hstmts
  | exprStmt hx ih =>
    obtain ⟨hlead, hlx⟩ := hl.parts
    exact understood_exprStmt hobject hx hlead (ih hlx).1 (ih hlx).2
  | block hbody ih =>
    obtain ⟨-, hl⟩ := hl.parts
    exact understood_block hobject hbody fun y hy => ih y hy (hl y hy)
  | ifElse hx hy hz helse ihx ihy ihz =>
    obtain ⟨-, hlx, hly, hlz⟩ := hl.parts
    exact understood_ifElse hobject (.ifElse hx hy hz helse) helse (ihx hlx).1 (ihy hly) fun h => ihz h hlz
  | whileLoop hx hy ihx ihy =>
    obtain ⟨-, hlx, hly⟩ := hl.parts
    exact understood_while hobject (.whileLoop hx hy) (ihx hlx).1 (ihy hly)
  | @forLoop init x y body hinit hx hy hbody ihinit ihx ihy ihbody =>
    obtain ⟨-, hlinit, hlx, hly, hlbody⟩ := hl.parts
    have hlets : ∀ vars, init ≠ .lets vars := by
      rintro vars rfl
      obtain ⟨⟨⟩⟩ := hinit nofun
    refine understood_for hobject (.forLoop hinit hx hy hbody) (fun n hn => ?_) hx hy (fun h => (ihx h hlx).1)
      (fun h => (ihy h hly).1) (ihbody hlbody)
    rw [headPieces_of_ne_lets hlets] at hn ⊢
    refine reads_firstClause fun h => ⟨(ihinit h hlinit).1.whole.expr.below (fun _ => rfl) hn, ?_⟩
    exact (hinit h).next.mono fun _ hk => (ne_of_startsExpr hk).2.2.2
  | forLet hne hvars hvalues hx hy hbody ihvalues ihx ihy ihbody =>
    obtain ⟨-, hlvars, hlx, hly, hlbody⟩ := hl.parts
    obtain ⟨-, hlvars⟩ := hlvars.parts
    refine understood_for hobject (.forLet hne hvars hvalues hx hy hbody) (fun n hn => ?_) hx hy
      (fun h => (ihx h hlx).1) (fun h => (ihy h hly).1) (ihbody hlbody)
    exact reads_firstClause_let (reads_lets hne hvars (fun v hv h => (ihvalues v hv h (hlvars v hv).2.2).1)
      (Nat.le_of_lt hn))
  | returns hx ih =>
    obtain ⟨-, hlx⟩ := hl.parts
    exact understood_return hobject hx fun h => (ih h hlx).1
  | breaks => exact understood_stmt hobject .breaks trivial nofun fun _ _ => reads_break
  | continues => exact understood_stmt hobject .continues trivial nofun fun _ _ => reads_continue
  | lets hne hvars hvalues ih =>
    obtain ⟨-, hl⟩ := hl.parts
    exact understood_lets hobject (.lets hne hvars hvalues) hne hvars fun v hv h => (ih v hv h (hl v hv).2.2).1
  | func hname hsig hbody ih =>
    obtain ⟨-, -, -, hl⟩ := hl.parts
    obtain ⟨-, hl⟩ := hl.parts
    exact understood_func hobject hname hsig hbody fun y hy => ih y hy (hl y hy)
  | structDecl hname hps hfs => exact understood_struct hobject hname hps hfs
  | enumDecl hname hps hvs => exact understood_enum hobject hV hname hps hvs

/-! ## Programs -/

theorem length_le_weight (h : ∀ x ∈ xs, Phrase .stmt x) :
    xs.length ≤ weight ([blank].intercalate (piecesAll xs)) := by
  induction xs with
  | nil => exact Nat.zero_le _
  | cons x xs ih =>
    obtain ⟨hx, hxs⟩ := forall_mem_cons.1 h
    have hpos := weight_pos hx.leads.next.isSome
    have hlen := ih hxs
    cases xs with
    | nil => simpa [piecesAll] using Nat.succ_le_of_lt hpos
    | cons y ys =>
      simp only [piecesAll, intercalate_cons_cons, weight_append, weight, length_cons] at hlen ⊢
      omega

/-- The statements of a program are read one after another, up to the end. -/
theorem statements_eq {g : Grammar} (hxs : ∀ x ∈ xs, Phrase .stmt x)
    (h : ∀ x ∈ xs, Reads V g.stmt x (x.pieces false) (EndsStmt x))
    (hs : V.shows s ([blank].intercalate (piecesAll xs) ++ [ending])) (hn : xs.length < n) :
    g.statements n s = (xs, none) := by
  induction xs generalizing s n with
  | nil =>
    obtain ⟨n, rfl⟩ := Nat.exists_eq_succ_of_ne_zero (Nat.ne_of_gt hn)
    have heof : s.current.kind = .eof := (V.current hs).1
    simp [statements, heof]
  | cons x xs ih =>
    obtain ⟨n, rfl⟩ := Nat.exists_eq_succ_of_ne_zero (Nat.ne_of_gt (Nat.zero_lt_of_lt hn))
    obtain ⟨hx, hxs⟩ := forall_mem_cons.1 hxs
    obtain ⟨hread, hreads⟩ := forall_mem_cons.1 h
    have hlen : xs.length < n := by simpa using hn
    -- What is behind the statement, and what is left of it for the next ones.
    obtain ⟨rest, hrest, hsome, hends, hleft⟩ : ∃ rest,
        [blank].intercalate (piecesAll (x :: xs)) ++ [ending] = x.pieces false ++ rest ∧
        (nextKind rest).isSome ∧ EndsStmt x rest ∧ ∀ s', V.shows s' rest →
          V.shows s' ([blank].intercalate (piecesAll xs) ++ [ending]) := by
      cases xs with
      | nil =>
        exact ⟨[ending], by simp [piecesAll], rfl, ⟨⟨_, rfl, by simp⟩, fun _ => ⟨_, rfl, by simp⟩, .inl rfl⟩,
          fun s' h => h⟩
      | cons y ys =>
        obtain ⟨qs, hqs⟩ : ∃ qs,
            [blank].intercalate (piecesAll (y :: ys)) ++ [ending] = y.pieces false ++ qs := by
          obtain ⟨qs, hqs⟩ := exists_intercalate_cons [blank] (y.pieces false) (piecesAll ys)
          exact ⟨qs ++ [ending], by rw [piecesAll, hqs, append_assoc]⟩
        have hleads := (hxs y (by simp)).leads.append qs
        refine ⟨blank :: (y.pieces false ++ qs), ?_, hleads.next.isSome, endsStmt_of_leads hleads,
          fun s' h => ?_⟩
        · rw [← hqs]
          simp [piecesAll, intercalate_cons_cons]
        · rw [hqs]
          exact V.skip h
    have heof : s.current.kind ≠ .eof :=
      V.kind_of_next (K := (· ≠ .eof)) hs (hrest ▸ (hx.leads.next.mono fun _ hk => hk.2.1).append _) (by simp)
    obtain ⟨s', htook, hs'⟩ := hread s rest (hrest ▸ hs) hsome hends
    have hrun : g.stmt.run s = .ok (x, s') := htook
    simp only [statements, heof, if_false, hrun, ih hxs hreads (hleft s' hs') hlen]

/-- A grammar that is deep enough reads a program from its pieces. -/
theorem lenient_statements (hV : V.Exact) (hobject : Discerns V loose object)
    (hbody : ∀ x ∈ body, Phrase .stmt x) (hl : (program body).All (Node.Legible loose))
    (hs : V.shows s ((program body).pieces false ++ [ending])) :
    (lenient loose object (s.weight + 1)).statements (s.weight + 1) s = (body, none) := by
  have hle := V.weigh hs
  rw [weight_append] at hle
  refine statements_eq hbody (fun x hx => ?_) hs ?_
  · have hx' : weight (x.pieces false) ≤ weight ((program body).pieces false) :=
      weight_le_of_sublist (sublist_intercalate (by
        rw [piecesAll_eq]
        exact mem_map_of_mem (f := pieces false) hx))
    have hread : UnderstoodStmt V loose object x :=
      (hbody x hx).understood hV hobject (hl.parts.2 x hx)
    exact hread.below (fun _ => rfl) (by omega)
  · have hlen : body.length ≤ weight ((program body).pieces false) := length_le_weight hbody
    omega

/-- No statement starts with an object, if no text of one starts with a brace. -/
theorem discerns_strict : Discerns V false fun _ => false := by
  intro x s rest hx hl hs hrest
  refine ⟨nofun, fun hobject => ?_⟩
  cases hx with
  | @exprStmt x hx =>
    obtain ⟨⟨k, d⟩, qs, hqs, -⟩ := hx.exprStmt.leads
    have hk : nextKind ((Node.exprStmt x).pieces false) = some (.symbol .openBrace) := nextKind_append hobject _
    rw [hqs] at hk
    obtain rfl : k = .symbol .openBrace := Option.some.inj hk
    refine absurd (hl ?_) nofun
    rw [text, toList_render, hqs]
    rfl
  | _ => exact hobject.elim

end Reading

/-- The text of a legible tree is read as the tree. -/
theorem parseProgram_of_legible {body : List Node} (hbody : ∀ x ∈ body, Phrase .stmt x)
    (hl : (program body).All (Node.Legible false)) :
    parseProgram (program body).text = .ok (.program body) := by
  have htext : (program body).text.toList = spell ((program body).pieces false ++ [ending]) := by
    rw [text, toList_render]
    simp [Terminal.chars]
  obtain ⟨ts, hts, hshown⟩ := relexes (linked_program hbody hl) Pos.start
  rw [← htext] at hts
  obtain ⟨-, front, last, rfl, hlast⟩ := Cursor.tokenize_lexed hts
  have hs : (tokenView true).shows (Stream.ofTokens (front ++ [last]))
      ((program body).pieces false ++ [ending]) := by
    show Shown true (_ :: _) _
    rwa [ofTokens_eq hlast]
  have hread := lenient_statements tokenView_exact discerns_strict hbody hl hs
  rw [Grammar.lenient_strict] at hread
  exact parseProgram_eq_ok.2 ⟨_, body, hts, hread, rfl⟩

/-! ## Reading again -/

/-- A type of which the text can be read again: what comes first in its brackets has no parameters of its
own. -/
def TypeExpr.Rereadable : TypeExpr → Prop
  | .array t | .map t _ | .promise t | .structRef _ (t :: _) | .enumRef _ (t :: _) => t.isGeneric = false
  | _ => True

namespace Node

/-- What is asked of each node so that the text of a tree can be read again: operators at one operand are
not applied to each other, nor is anything else to them; texts hold only what a quoted text can show;
keys are names; elements of arrays are no assignments; and no statement starts with a brace that is one of
an object. -/
def Rereadable : Node → Prop
  | unary _ x | update _ x _ | call x _ | member x _ _ | index x _ => x.isUnary = false
  | string value => ∀ c ∈ value.toList, Readable c
  | object props => ∀ q ∈ props, IsName q.1
  | array elems => ∀ x ∈ elems, x.isAssign = false
  | exprStmt x => (exprStmt x).text.toList.head? ≠ some '\x7b'
  | type t => t.Rereadable
  | _ => True

theorem isHead_of_isUnary {x : Node} (h : x.isUnary = false) : x.IsHead false := by
  refine ⟨?_, fun hx => by simp [h] at hx⟩
  cases x with
  | unary | update => cases h
  | _ => rfl

theorem Rereadable.legible {x : Node} (h : x.Rereadable) : x.Legible false := by
  cases x with
  | unary op x =>
    rintro (rfl | rfl) <;> rw [(isHead_of_isUnary h).1] <;> nofun
  | update op x before =>
    cases before with
    | true => trivial
    | false => exact isHead_of_isUnary h
  | call | member | index => exact isHead_of_isUnary h
  | string => exact h
  | object => exact fun q hq => ⟨(h q hq).shape, .inl (h q hq).free⟩
  | array => exact fun y hy hassign => by simp [h y hy] at hassign
  | exprStmt => exact fun hbrace => absurd hbrace h
  | type t =>
    have hgeneric {u : TypeExpr} (hu : u.isGeneric = false) : u.isGeneric → false := by simp [hu]
    cases t with
    | array | map | promise => exact hgeneric h
    | structRef name ts | enumRef name ts =>
      cases ts with
      | nil => trivial
      | cons => exact hgeneric h
    | _ => trivial
  | _ => trivial

end Node

instance : DecidablePred IsWord
  | [] => isFalse nofun
  | c :: ds =>
    have : Decidable (∀ d ∈ ds, Text.isIdentContinue d) := List.decidableBAll _ ds
    decidable_of_iff (Text.isIdentStart c ∧ ∀ d ∈ ds, Text.isIdentContinue d)
    ⟨fun ⟨hc, hds⟩ => ⟨c, ds, rfl, hc, hds⟩, by rintro ⟨_, _, ⟨⟩, h⟩; exact h⟩

instance : DecidablePred IsName := fun s =>
  decidable_of_iff (IsWord s.toList ∧ Keyword.ofSpelling? s = none)
    ⟨fun ⟨hshape, hfree⟩ => ⟨hshape, hfree⟩, fun h => ⟨h.shape, h.free⟩⟩

instance : DecidablePred Readable := fun c =>
  inferInstanceAs (Decidable (Text.isPrintable c = true ∨ c = '\n' ∨ c = '\t' ∨ c = '\r'))

instance : DecidablePred TypeExpr.Rereadable
  | .array t | .map t _ | .promise t | .structRef _ (t :: _) | .enumRef _ (t :: _) =>
    inferInstanceAs (Decidable (t.isGeneric = false))
  | .missing | .named _ | .func .. | .structRef _ [] | .enumRef _ [] | .generic .. => isTrue trivial

instance : DecidablePred Node.Rereadable
  | .unary _ x | .update _ x _ | .call x _ | .member x _ _ | .index x _ =>
    inferInstanceAs (Decidable (x.isUnary = false))
  | .string value => List.decidableBAll Readable value.toList
  | .object props => inferInstanceAs (Decidable (∀ q ∈ props, IsName q.1))
  | .array elems => inferInstanceAs (Decidable (∀ x ∈ elems, x.isAssign = false))
  | .exprStmt x => inferInstanceAs (Decidable ((Node.exprStmt x).text.toList.head? ≠ some '\x7b'))
  | .type t => inferInstanceAs (Decidable t.Rereadable)
  | .missing | .program _ | .block _ | .ifElse .. | .whileLoop .. | .forLoop .. | .returns _ | .breaks
  | .continues | .lets _ | .var _ | .func .. | .structDecl _ | .enumDecl _ | .number .. | .bool _
  | .ident _ | .binary .. | .logical .. | .assign .. | .ternary .. | .sequence _ | .await _
  | .structLit .. | .lambda .. => isTrue trivial

theorem exists_of_any {ε α : Type} {e : Except ε α} {f : α → Bool} (h : e.toOption.any f = true) :
    ∃ a, e = .ok a ∧ f a = true := by
  cases e with
  | error => cases h
  | ok a => exact ⟨a, rfl, h⟩

/-- The text of a program is read as the program. -/
theorem parseProgram_text {source : String} {p : Node} (h : parseProgram source = .ok p)
    (hp : ∀ n ∈ p.walk fun _ => true, n.Rereadable) : parseProgram p.text = .ok p := by
  obtain ⟨body, rfl, hbody⟩ := phrases_of_parseProgram h
  exact parseProgram_of_legible hbody fun n hn => (hp n hn).legible

/-- Brackets that close together, an operator before another, a quoted line break and an object. -/
def spreadSource : String := "let x: Map<int,Array<int> > = -(1+a)*2; f(x[0]++, \x7bk: 's\\n'\x7d)"

def spreadText : String :=
  "let x: Map<int, Array<int>> = -(1 + a) * 2; f(x[0]++, \x7b k: \"s\\n\" \x7d);"

theorem parseProgram_text_spread : ∃ p, parseProgram spreadSource = .ok p ∧
    (∀ n ∈ p.walk fun _ => true, n.Rereadable) ∧ p.text = spreadText ∧ parseProgram p.text = .ok p := by
  have hparse : (parseProgram spreadSource).toOption.any (fun p =>
      (∀ n ∈ p.walk fun _ => true, n.Rereadable) ∧ p.text = spreadText) = true := by decide +kernel
  obtain ⟨p, hp, hsame⟩ := exists_of_any hparse
  obtain ⟨hnodes, htext⟩ := of_decide_eq_true hsame
  exact ⟨p, hp, hnodes, htext, parseProgram_text hp hnodes⟩

end ScriptTyping
