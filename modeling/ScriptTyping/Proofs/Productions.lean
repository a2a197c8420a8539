import ScriptTyping.Proofs.Pieces

/-!
# Productions

What each production of the grammar reads, when the productions below it read what they should. A
statement here is `Reads V p a ps F`: wherever the pieces `ps` stand before something that `F` allows, the
parser `p` gives `a` and stops behind them.

What may follow an expression is a matter of levels (`Kind.level`): the production of a level goes on with
the operators of its level, so it ends before anything of a higher one (`Ends`). An operand is read together
with what is applied to it, so it is described by what may still come (`Chain`).

The levels have a form that reads a bit more, if `loose`: behind a step up or down more can be applied, as in
`a++.b`, which the grammar accepts in parentheses only. Not loose, they are the productions of the grammar.
-/

namespace ScriptTyping

open Parser Piece List

/-! ## What follows -/

/-- Which production goes on with a symbol: 0 behind an operand, 1 with a step up or down, 2 with a
binary operator, 3 with a condition, 4 with an assignment, 5 with a sequence, 6 with none of them. -/
def Symbol.level (c : Symbol) : Nat :=
  match c with
  | .openBracket | .openParen | .dot | .arrow | .openBrace => 0
  | .increment | .decrement => 1
  | .question => 3
  | .comma => 5
  | c => if c.precedence ≠ 0 then 2 else if c.isAssignment then 4 else 6

/-- Which production goes on with a kind. -/
def Kind.level : Kind → Nat
  | .symbol c => c.level
  | _ => 6

theorem Kind.isBinaryOp_of_level {k : Kind} (h : 3 ≤ k.level) : k.isBinaryOp = false := by
  cases k with
  | symbol c =>
    revert h
    cases c <;> decide
  | _ => rfl

theorem Kind.isAssignment_of_level {k : Kind} (h : 5 ≤ k.level) : k.isAssignment = false := by
  cases k with
  | symbol c =>
    revert h
    cases c <;> decide
  | _ => rfl

theorem Symbol.level_of_precedence {c : Symbol} (h : c.precedence ≠ 0) : c.level = 2 := by
  revert h
  cases c <;> decide

theorem Symbol.level_of_isAssignment {c : Symbol} (h : c.isAssignment = true) : c.level = 4 := by
  revert h
  cases c <;> decide

/-- No production below a level goes on. -/
def Ends (l : Nat) : List Piece → Prop := Next fun k => l ≤ k.level

theorem Ends.mono {l m : Nat} (hlm : l ≤ m) {ps : List Piece} (h : Ends m ps) : Ends l ps :=
  Next.mono (fun _ hk => Nat.le_trans hlm hk) h

namespace Grammar

section Expressions

variable {V : View} {loose : Bool} {g : Grammar} {x y z : Node} {ps qs ls ks : List Piece}
  {F : List Piece → Prop} {c : Symbol} {name : String} {l : Nat}

/-! ## Operands -/

/-- One turn of the loop behind an operand. -/
def postfixStep (g : Grammar) (x : Node) : Parser (Node ⊕ Node) := do
  match ← kind with
  | .symbol .openBracket =>
    advance
    let i ← g.expr
    let _ ← expect Symbol.closeBracket "after array index"
    return .inl (.index x i)
  | .symbol .openParen =>
    advance
    let args ← g.arguments
    let _ ← expect Symbol.closeParen "after function arguments"
    return .inl (.call x args)
  | .symbol .dot =>
    advance
    return .inl (.member x (← expectIdent "after '.'") false)
  | .symbol .arrow =>
    advance
    return .inl (.member x (← expectIdent "after '->'") true)
  | _ => return .inr x

/-- One turn of the loop behind an operand. If `loose`, a step up or down is a turn too. -/
def operandStep (loose : Bool) (g : Grammar) (x : Node) : Parser (Node ⊕ Node) := do
  let t ← current
  if loose ∧ (t.kind = .symbol .increment ∨ t.kind = .symbol .decrement) then
    advance
    return .inl (.update t.text x false)
  g.postfixStep x

/-- An operand and what is applied to it. -/
def operand (loose : Bool) (g : Grammar) : Parser Node := g.primary >>= iterate (g.operandStep loose)

theorem operandStep_strict : g.operandStep false = g.postfixStep := by
  funext x s
  simp only [operandStep, Bool.false_eq_true, false_and, if_false]
  rfl

theorem operand_strict : g.operand false = g.primary >>= g.postfixOps := by
  rw [operand, operandStep_strict]
  rfl

theorem reads_stop : Reads V (g.postfixStep x) (.inr x) [] (Ends 1) := by
  refine .kind_any (K := fun k => 1 ≤ k.level) (fun k hk => ?_) (fun rest h => h) id
  split
  iterate 4 next => exact absurd hk (by decide)
  next => exact .pure

/-- A turn that is no step up or down. -/
theorem reads_operandStep {a : Node ⊕ Node} (h : Reads V (g.postfixStep x) a ps F)
    (hps : ∀ rest, F rest → Next (fun k => loose → k.level ≠ 1) (ps ++ rest)) :
    Reads V (g.operandStep loose x) a ps F := by
  refine .current_any (fun u hu => ?_) hps fun _ _ => by decide
  rw [if_neg]
  · exact h
  · rintro ⟨hloose, hk | hk⟩ <;> exact hu hloose (hk ▸ rfl)

theorem reads_step_index (h : Reads V g.expr y ls (Ends 6)) : Reads V (g.postfixStep x)
    (.inl (.index x y)) (symbol .openBracket :: (ls ++ [symbol .closeBracket])) F := by
  refine .kind (.advance (h.bind (.expect rfl fun _ => .pure) fun _ _ => ?_))
  exact ⟨_, rfl, by decide⟩

theorem reads_step_call {args : List Node} (h : Reads V g.arguments args ls (Next (· = .symbol .closeParen))) :
    Reads V (g.postfixStep x) (.inl (.call x args)) (symbol .openParen :: (ls ++ [symbol .closeParen])) F :=
  .kind (.advance (h.bind (.expect rfl fun _ => .pure) fun _ _ => ⟨_, rfl, rfl⟩))

theorem reads_step_member {arrow : Bool} : Reads V (g.postfixStep x) (.inl (.member x name arrow))
    [symbol (if arrow then .arrow else .dot), ident name] F := by
  cases arrow <;> exact .kind (.advance (.expectIdent .pure))

/-- Pieces that are read as an operand, to which more can be applied. -/
def Chain (V : View) (loose : Bool) (g : Grammar) (x : Node) (ps : List Piece) : Prop :=
  ∀ (b : Node) (F : List Piece → Prop) (qs : List Piece), Turns V (g.operandStep loose) b F x qs →
    (∀ rest, F rest → Next (· ≠ .symbol .openBrace) (qs ++ rest)) →
      Reads V (g.operand loose) b (ps ++ qs) F

theorem chain_of_primary (h : Reads V g.primary x ps (Next (· ≠ .symbol .openBrace))) :
    Chain V loose g x ps :=
  fun _ _ _ hturns hF => h.bind hturns.reads hF

variable {k : Terminal} {xs : List Node} {parts : List (List Piece)}

/-- What is applied to an operand gives an operand. -/
theorem Chain.step (h : Chain V loose g x ps)
    (hstep : Reads V (g.operandStep loose x) (.inl y) (mark k :: ls) fun _ => True)
    (hk : k.kind ≠ .symbol .openBrace) : Chain V loose g y (ps ++ mark k :: ls) := by
  intro b F qs hturns hF
  rw [append_assoc]
  exact h _ _ _ (.more hstep (fun _ _ => trivial) (weight_pos rfl) hturns) fun rest _ => ⟨_, rfl, hk⟩

theorem Chain.apply (h : Chain V loose g x ps)
    (hstep : Reads V (g.postfixStep x) (.inl y) (mark k :: ls) fun _ => True)
    (hk : k.kind ≠ .symbol .openBrace) (hlevel : k.kind.level ≠ 1) : Chain V loose g y (ps ++ mark k :: ls) :=
  h.step (reads_operandStep hstep fun _ _ => ⟨_, rfl, fun _ => hlevel⟩) hk

theorem Chain.reads (h : Chain V loose g x ps) :
    Reads V (g.operand loose) x ps (Ends (if loose then 2 else 1)) := by
  have hstop : Reads V (g.operandStep loose x) (.inr x) [] (Ends (if loose then 2 else 1)) := by
    refine reads_operandStep (reads_stop.mono fun rest h => h.mono ?_) fun rest h => Next.mono (fun k hk => ?_) h
    · split <;> decide
    · rintro rfl
      exact Nat.ne_of_gt hk
  have hreads := h _ _ _ (.last hstop) fun rest hrest => Next.mono (fun k hk => ?_) hrest
  · rwa [append_nil] at hreads
  · rintro rfl
    cases loose <;> exact absurd hk (by decide)

/-- What an operand starts with that has no operator before it. -/
def startsOperand (k : Kind) : Prop :=
  k ≠ .keyword .kAwait ∧ k ≠ .symbol .increment ∧ k ≠ .symbol .decrement ∧ k.isPrefixOp = false

/-- An operand with the operators before and behind it. -/
def unaryLevel (loose : Bool) (g : Grammar) : Parser Node := do
  let t ← current
  if t.kind = .keyword .kAwait then
    advance
    return .await (← g.unary)
  if t.kind = .symbol .increment ∨ t.kind = .symbol .decrement then
    advance
    return .update t.text (← g.unary) true
  if t.kind.isPrefixOp then
    advance
    return .unary t.text (← g.unary)
  let x ← g.operand loose
  let t ← current
  if t.kind = .symbol .increment ∨ t.kind = .symbol .decrement then
    advance
    return .update t.text x false
  return x

theorem unaryLevel_strict : g.unaryLevel false = g.unaryExpr := by
  simp only [unaryLevel, operand_strict, bind_assoc]
  rfl

theorem reads_operand (h : Chain V loose g x ps) (hps : Next startsOperand ps) :
    Reads V (g.unaryLevel loose) x ps (Ends 2) := by
  refine .current_any (K := startsOperand) (fun u hu => ?_) (fun rest _ => hps.append rest)
    fun _ => ⟨nofun, nofun, nofun, rfl⟩
  obtain ⟨hawait, hinc, hdec, hop⟩ := hu
  simp only [hawait, hinc, hdec, hop, or_self, if_false, Bool.false_eq_true]
  refine (h.reads.mono fun rest hrest => hrest.mono (by split <;> decide)).bind_done ?_
  refine .current_any (K := fun k => 2 ≤ k.level) (fun v hv => ?_) (fun rest h => h) id
  rw [if_neg]
  · exact .pure
  · rintro (hk | hk) <;> rw [hk] at hv <;> exact absurd hv (by decide)

theorem text_of_exact {u : Token} (hk : u.kind = .symbol c) (hd : u.data = "") : u.text = c.spelling := by
  simp [Token.text, hk, hd]

/-- More can be applied behind a step up or down, in a loose text. -/
theorem Chain.update (hV : V.Exact) (hc : c = .increment ∨ c = .decrement) (h : Chain V true g x ps) :
    Chain V true g (.update c.spelling x false) (ps ++ [symbol c]) := by
  refine h.step (.current_exact hV fun u hk hd => ?_) (by obtain rfl | rfl := hc <;> nofun)
  simp only [hk, Kind.symbol.injEq, hc, and_self, if_true, text_of_exact hk hd]
  exact .advance .pure

theorem reads_update_behind (hV : V.Exact) (hc : c = .increment ∨ c = .decrement) (h : Chain V loose g x ps)
    (hps : Next startsOperand ps) :
    Reads V (g.unaryLevel loose) (.update c.spelling x false) (ps ++ [symbol c]) (Ends 2) := by
  cases loose with
  | true => exact reads_operand (h.update hV hc) (hps.append _)
  | false =>
    refine .current_any (K := startsOperand) (fun u hu => ?_) (fun rest _ => (hps.append _).append rest)
      fun _ => ⟨nofun, nofun, nofun, rfl⟩
    obtain ⟨hawait, hinc, hdec, hop⟩ := hu
    simp only [hawait, hinc, hdec, hop, or_self, if_false, Bool.false_eq_true]
    refine h.reads.bind (.current_exact hV fun v hk hd => ?_) fun rest _ => ⟨_, rfl, ?_⟩
    · simp only [hk, Kind.symbol.injEq, hc, if_true, text_of_exact hk hd]
      exact .advance .pure
    · obtain rfl | rfl := hc <;> decide

theorem reads_update_before (hV : V.Exact) (hc : c = .increment ∨ c = .decrement)
    (h : Reads V g.unary x ps F) : Reads V (g.unaryLevel loose) (.update c.spelling x true) (symbol c :: ps) F := by
  refine .current_exact hV fun u hk hd => ?_
  have hawait : u.kind ≠ .keyword .kAwait := hk ▸ nofun
  simp only [hawait, if_false, text_of_exact hk hd]
  simp only [hk, Kind.symbol.injEq, hc, if_true]
  exact .advance (h.bind_done .pure)

theorem reads_unary (hV : V.Exact) (hc : c = .bang ∨ c = .minus ∨ c = .plus ∨ c = .tilde)
    (h : Reads V g.unary x ps F) : Reads V (g.unaryLevel loose) (.unary c.spelling x) (symbol c :: ps) F := by
  refine .current_exact hV fun u hk hd => ?_
  have hawait : u.kind ≠ .keyword .kAwait := hk ▸ nofun
  have hstep : ¬ (u.kind = .symbol .increment ∨ u.kind = .symbol .decrement) := by
    rw [hk]
    obtain rfl | rfl | rfl | rfl := hc <;> decide
  have hop : u.kind.isPrefixOp = true := by
    rw [hk]
    obtain rfl | rfl | rfl | rfl := hc <;> rfl
  simp only [hawait, hstep, hop, if_false, if_true, text_of_exact hk hd]
  exact .advance (h.bind_done .pure)

theorem reads_await (h : Reads V g.unary x ps F) :
    Reads V (g.unaryLevel loose) (.await x) (keyword .kAwait :: blank :: ps) F := by
  refine .current fun u hk _ => ?_
  rw [if_pos hk]
  exact .advance (.blank (h.bind_done .pure))

/-! ## Operators -/

/-- One turn of the loop behind an operator. -/
def binaryStep (g : Grammar) (least : Nat) (x : Node) : Parser (Node ⊕ Node) := do
  let op ← current
  if op.kind.isBinaryOp ∧ least ≤ op.kind.precedence then
    advance
    let y ← g.binary (op.kind.precedence + 1)
    return .inl (binaryNode op x y)
  return .inr x

theorem reads_binary_stop {least : Nat} : Reads V (g.binaryStep least x) (.inr x) [] (Ends 3) := by
  refine .current_any (K := fun k => 3 ≤ k.level) (fun u hu => ?_) (fun rest h => h) id
  rw [if_neg (by simp [Kind.isBinaryOp_of_level hu])]
  exact .pure

/-- Operands joined by operators that bind at least as tight as `least`. -/
def binaryLevel (loose : Bool) (g : Grammar) (least : Nat) : Parser Node :=
  g.unaryLevel loose >>= iterate (g.binaryStep least)

def ternaryLevel (loose : Bool) (g : Grammar) : Parser Node := do
  let cond ← g.binaryLevel loose 1
  if ← got Symbol.question then
    let yes ← g.assign
    let _ ← expect Symbol.colon "in conditional expression"
    return .ternary cond yes (← g.ternary)
  return cond

def assignLevel (loose : Bool) (g : Grammar) : Parser Node := do
  let first ← current
  let x ← g.ternaryLevel loose
  let op ← current
  if ¬op.kind.isAssignment then return x
  if ¬isTarget x then throw ⟨first.span.first, .invalidTarget⟩
  advance
  return .assign op.text x (← g.assign)

/-- Expressions with commas between them. -/
def sequenceLevel (loose : Bool) (g : Grammar) : Parser Node := do
  let x ← g.assignLevel loose
  if ← got Symbol.comma then
    return .sequence (x :: (← sepBy .comma g.assign))
  return x

/-- Levels that are not loose are those of the grammar. -/
theorem levels_strict : g.binaryLevel false = g.binaryExpr ∧ g.ternaryLevel false = g.ternaryExpr ∧
    g.assignLevel false = g.assignExpr ∧ g.sequenceLevel false = g.sequenceExpr := by
  have hbinary : g.binaryLevel false = g.binaryExpr := by
    funext least
    rw [binaryLevel, unaryLevel_strict]
    rfl
  have hternary : g.ternaryLevel false = g.ternaryExpr := by
    rw [ternaryLevel, hbinary]
    rfl
  have hassign : g.assignLevel false = g.assignExpr := by
    rw [assignLevel, hternary]
    rfl
  refine ⟨hbinary, hternary, hassign, ?_⟩
  rw [sequenceLevel, hassign]
  rfl

theorem reads_binary_of_unary {least : Nat} (h : Reads V (g.unaryLevel loose) x ps (Ends 2)) :
    Reads V (g.binaryLevel loose least) x ps (Ends 3) := by
  have hstop : Reads V (iterate (g.binaryStep least) x) x [] (Ends 3) := Turns.reads (.last reads_binary_stop)
  exact (h.mono fun _ hrest => hrest.mono (by decide)).bind_done hstop

def infixNode (c : Symbol) (x y : Node) : Node :=
  if c = .ampAmp ∨ c = .barBar then .logical c.spelling x y else .binary c.spelling x y

theorem reads_binary (hV : V.Exact) {least : Nat} (hc : c.precedence ≠ 0) (hleast : least ≤ c.precedence)
    (hx : Reads V (g.unaryLevel loose) x ps (Ends 2)) (hy : Reads V (g.binary (c.precedence + 1)) y qs (Ends 3)) :
    Reads V (g.binaryLevel loose least) (infixNode c x y) (ps ++ blank :: symbol c :: blank :: qs) (Ends 3) := by
  have hturn : Reads V (g.binaryStep least x) (.inl (infixNode c x y))
      (blank :: symbol c :: blank :: qs) (Ends 3) := by
    refine .blank (.current_exact hV fun u hk hd => ?_)
    simp only [hk, Kind.isBinaryOp, Kind.precedence, hc, hleast, bne_iff_ne, ne_eq, not_false_eq_true,
      and_self, if_true]
    refine .advance (.blank (hy.bind_done ?_))
    simp only [binaryNode, hk, Kind.symbol.injEq, text_of_exact hk hd]
    exact .pure
  have hloop : Turns V (g.binaryStep least) (infixNode c x y) (Ends 3) x
      ((blank :: symbol c :: blank :: qs) ++ []) :=
    .more hturn (fun rest h => h) (Nat.succ_pos _) (.last reads_binary_stop)
  rw [append_nil] at hloop
  exact hx.bind hloop.reads fun rest _ => ⟨_, rfl, Nat.le_of_eq (Symbol.level_of_precedence hc).symm⟩

theorem reads_ternary_of_binary (h : Reads V (g.binaryLevel loose 1) x ps (Ends 3)) :
    Reads V (g.ternaryLevel loose) x ps (Ends 4) := by
  refine (h.mono fun rest hrest => hrest.mono (by decide)).bind_done ?_
  refine .not_got .pure (fun rest h => Next.mono (fun k hk => ?_) h) nofun
  rintro rfl
  exact absurd hk (by decide)

theorem reads_ternary (hx : Reads V (g.binaryLevel loose 1) x ps (Ends 3)) (hy : Reads V g.assign y qs (Ends 5))
    (hz : Reads V g.ternary z ls F) : Reads V (g.ternaryLevel loose) (.ternary x y z)
      (ps ++ blank :: symbol .question :: blank :: (qs ++ blank :: symbol .colon :: blank :: ls)) F := by
  refine hx.bind (.blank (.got rfl (.blank (hy.bind (.blank (.expect rfl fun _ => .blank (hz.bind_done .pure)))
    fun rest _ => ?_)))) fun rest _ => ?_
  all_goals exact ⟨_, rfl, by decide⟩

theorem reads_assign_of_ternary (h : Reads V (g.ternaryLevel loose) x ps (Ends 5)) (hps : (nextKind ps).isSome) :
    Reads V (g.assignLevel loose) x ps (Ends 5) := by
  have hsome (rest : List Piece) : Next (fun _ => True) (ps ++ rest) := by
    obtain ⟨k, hk⟩ := Option.isSome_iff_exists.1 hps
    exact ⟨k, nextKind_append hk rest, trivial⟩
  refine .current_any (K := fun _ => True) (fun u _ => ?_) (fun rest _ => hsome rest) id
  refine h.bind_done ?_
  refine .current_any (K := fun k => 5 ≤ k.level) (fun v hv => ?_) (fun rest h => h) id
  rw [if_pos (by simp [Kind.isAssignment_of_level hv])]
  exact .pure

theorem reads_assign (hV : V.Exact) (hc : c.isAssignment = true) (htarget : isTarget x = true)
    (hx : Reads V (g.ternaryLevel loose) x ps (Ends 4)) (hps : (nextKind ps).isSome)
    (hy : Reads V g.assign y qs F) :
    Reads V (g.assignLevel loose) (.assign c.spelling x y) (ps ++ blank :: symbol c :: blank :: qs) F := by
  have hsome (rest : List Piece) : Next (fun _ => True) ((ps ++ blank :: symbol c :: blank :: qs) ++ rest) := by
    obtain ⟨k, hk⟩ := Option.isSome_iff_exists.1 hps
    exact ⟨k, nextKind_append (nextKind_append hk _) rest, trivial⟩
  refine .current_any (K := fun _ => True) (fun u _ => ?_) (fun rest _ => hsome rest) id
  refine hx.bind (.blank (.current_exact hV fun v hk hd => ?_)) fun rest _ =>
    ⟨_, rfl, Nat.le_of_eq (Symbol.level_of_isAssignment hc).symm⟩
  have hassign : v.kind.isAssignment = true := by rwa [hk]
  simp only [hassign, htarget, not_true_eq_false, if_false, text_of_exact hk hd]
  exact .advance (.blank (hy.bind_done .pure))

theorem reads_expr_of_assign (h : Reads V (g.assignLevel loose) x ps (Ends 5)) :
    Reads V (g.sequenceLevel loose) x ps (Ends 6) := by
  refine (h.mono fun rest hrest => hrest.mono (by decide)).bind_done ?_
  refine .not_got .pure (fun rest h => Next.mono (fun k hk => ?_) h) nofun
  rintro rfl
  exact absurd hk (by decide)

theorem reads_sequence (hx : Reads V (g.assignLevel loose) x ps (Ends 5))
    (hxs : Separated (OneOf (.symbol .comma)) (fun y ps => Reads V g.assign y ps (Ends 5)) xs qs) :
    Reads V (g.sequenceLevel loose) (.sequence (x :: xs)) (ps ++ symbol .comma :: blank :: qs) (Ends 6) := by
  refine hx.bind (.got rfl (.blank ((reads_sepBy hxs ?_ ?_ nofun).bind_done .pure))) fun rest _ => ?_
  · rintro rest ⟨k, hk, rfl⟩
    exact ⟨_, hk, by decide⟩
  · refine fun rest hrest => ⟨hrest.mono (by decide), Next.mono (fun k hk => ?_) hrest⟩
    rintro rfl
    exact absurd hk (by decide)
  · exact ⟨_, rfl, by decide⟩

theorem reads_expr_of_unary (h : Reads V (g.unaryLevel loose) x ps (Ends 2)) (hps : (nextKind ps).isSome) :
    Reads V (g.sequenceLevel loose) x ps (Ends 6) := by
  have hternary : Reads V (g.ternaryLevel loose) x ps (Ends 4) := reads_ternary_of_binary (reads_binary_of_unary h)
  exact reads_expr_of_assign (reads_assign_of_ternary (hternary.mono fun _ h => h.mono (by decide)) hps)

/-! ## Primary expressions -/

theorem reads_literal (hV : V.Exact) (h : Literal x) : Reads V literal x (x.pieces false) F := by
  cases h with
  | number | string =>
    refine .current_exact hV fun u hk hd => ?_
    simp only [hk, hd, Terminal.content]
    exact .advance .pure
  | @bool value =>
    refine .current fun u hk _ => ?_
    cases value <;> simp only [hk, if_true, Bool.false_eq_true, if_false] <;> exact .advance .pure

theorem reads_primary_literal (hV : V.Exact) (h : Literal x) : Reads V g.primary x (x.pieces false) F := by
  have hread := reads_literal (F := F) hV h
  cases h with
  | number | string =>
    refine .current fun u hk _ => ?_
    simp only [hk]
    exact hread
  | @bool value =>
    refine .current fun u hk _ => ?_
    cases value <;> simp only [hk, if_true, Bool.false_eq_true, if_false] <;> exact hread

theorem reads_ident : Reads V g.primary (.ident name) [ident name] (Next (· ≠ .symbol .openBrace)) := by
  refine .current fun u hk hd => ?_
  simp only [hk, hd rfl]
  refine .advance (.not_stopped .pure (fun rest h => h) nofun)

theorem reads_structLit (h : Reads V g.objectLit x (symbol .openBrace :: ps) F) :
    Reads V g.primary (.structLit name x) (ident name :: blank :: symbol .openBrace :: ps) F := by
  refine .current fun u hk hd => ?_
  simp only [hk, hd rfl]
  refine .advance (.blank (.kind ?_))
  simp only [if_true]
  exact h.bind_done .pure

theorem reads_parens (h : Reads V g.expr x ps (Ends 6)) :
    Reads V g.primary x (symbol .openParen :: (ps ++ [symbol .closeParen])) F := by
  refine .current fun u hk _ => ?_
  simp only [hk]
  exact .advance (h.bind (.expect rfl fun _ => .pure) fun rest _ => ⟨_, rfl, by decide⟩)

theorem reads_arrayLit (h : Listed (OneOf (.symbol .comma))
      (fun y ps => Reads V g.ternary y ps (Ends 5) ∧ Next (· ≠ .symbol .closeBracket) ps) xs ps) :
    Reads V g.primary (.array xs) (symbol .openBracket :: (ps ++ [symbol .closeBracket])) F := by
  refine .current fun u hk _ => ?_
  simp only [hk]
  refine .expect rfl fun _ => (reads_commaUntil h ?_ nofun nofun nofun).bind (.expect rfl fun _ => .pure) ?_
  · rintro rest ⟨k, hk, rfl | rfl⟩ <;> exact ⟨_, hk, by decide⟩
  · exact fun rest _ => ⟨_, rfl, rfl⟩

theorem reads_property (hV : V.Exact) (h : Reads V g.assign y qs F) :
    Reads V g.property (name, y) (ident name :: symbol .colon :: blank :: qs) F := by
  refine .current_exact hV fun u hk hd => ?_
  simp only [hk, hd, Terminal.content]
  exact .advance (.expect rfl fun _ => .blank (h.bind_done .pure))

/-- Parts up to a closing brace, as they are written behind the opening one. -/
def closedPieces (parts : List (List Piece)) : List Piece :=
  if parts.isEmpty then [symbol .closeBrace] else blank :: commas parts ++ [blank, symbol .closeBrace]

theorem bracedPieces_eq (parts : List (List Piece)) :
    bracedPieces parts = symbol .openBrace :: closedPieces parts := by
  unfold bracedPieces closedPieces
  split <;> rfl

theorem reads_closed {α β : Type} {p : Parser α} {f : α → Parser β} {a : α} {b : β} {context : String}
     (h : Reads V p a (commas parts) (Next (· = .symbol .closeBrace)))
    (hf : Reads V (f a) b [] F) : Reads V (do
      let a ← p
      let _ ← expect Symbol.closeBrace context
      f a) b (closedPieces parts) F := by
  unfold closedPieces
  split
  next hnil =>
    rw [List.isEmpty_iff] at hnil
    subst hnil
    have h : Reads V p a [] (Next (· = .symbol .closeBrace)) := h
    exact h.bind (.expect rfl fun _ => hf) fun _ _ => ⟨_, rfl, rfl⟩
  next =>
    rw [cons_append]
    exact .blank (h.bind (.blank (.expect rfl fun _ => hf)) fun _ _ => ⟨_, rfl, rfl⟩)

theorem reads_objectLit {props : List (String × Node)}
    (h : Listed (OneOf (.symbol .comma)) (fun q ps => Reads V g.property q ps (Ends 5) ∧
      Next (· ≠ .symbol .closeBrace) ps) props (commas parts)) :
    Reads V g.objectLit (.object props) (symbol .openBrace :: closedPieces parts) F := by
  refine .expect rfl fun _ => reads_closed (reads_commaUntil h ?_ nofun nofun nofun) .pure
  rintro rest ⟨k, hk, rfl | rfl⟩ <;> exact ⟨_, hk, by decide⟩

theorem reads_object (h : Reads V g.objectLit x (symbol .openBrace :: ps) F) :
    Reads V g.primary x (symbol .openBrace :: ps) F := by
  refine .current fun u hk _ => ?_
  simp only [hk]
  exact h

theorem reads_arguments_nil : Reads V g.arguments [] [] (Next (· = .symbol .closeParen)) := by
  refine .stopped ?_ nofun
  simpa using Reads.pure

theorem reads_arguments
    (h : Separated (OneOf (.symbol .comma)) (fun y ps => Reads V g.assign y ps (Ends 5)) xs ps)
    (hps : Next (· ≠ .symbol .closeParen) ps) :
    Reads V g.arguments xs ps (Next (· = .symbol .closeParen)) := by
  refine .not_stopped ?_ (fun rest _ => hps.append rest) nofun
  refine reads_sepBy h ?_ ?_ nofun
  · rintro rest ⟨k, hk, rfl⟩
    exact ⟨_, hk, by decide⟩
  · rintro rest ⟨k, hk, rfl⟩
    exact ⟨⟨_, hk, by decide⟩, ⟨_, hk, nofun⟩⟩

end Expressions

end Grammar


/-! ## Types -/

theorem oneOf_comma : OneOf (.symbol .comma) [symbol .comma, blank] := ⟨_, rfl, rfl⟩

variable {α : Type} {R : α → List Piece → Prop} {pieces : α → List Piece} {xs : List α}

/-- Parts with commas between them are read as a list. -/
theorem separated_commas (hne : xs ≠ []) (h : ∀ x ∈ xs, R x (pieces x)) :
    Separated (OneOf (.symbol .comma)) R xs (commas (xs.map pieces)) := by
  simpa [commas] using separated_intercalate oneOf_comma id pieces hne h

theorem listed_commas
    (h : ∀ x ∈ xs, R x (pieces x)) : Listed (OneOf (.symbol .comma)) R xs (commas (xs.map pieces)) := by
  by_cases hne : xs = []
  · subst hne
    exact .inl ⟨rfl, rfl⟩
  · exact .inr (separated_commas hne h)

theorem weight_le_of_sublist {ps qs : List Piece} (h : ps.Sublist qs) : weight ps ≤ weight qs := by
  induction h with
  | slnil => exact Nat.le_refl _
  | cons p _ ih => cases p <;> simp only [weight] <;> omega
  | cons_cons p _ ih => cases p <;> simp only [weight] <;> omega

theorem weight_le_commas {parts : List (List Piece)} {part : List Piece} (h : part ∈ parts) :
    weight part ≤ weight (commas parts) :=
  weight_le_of_sublist (sublist_intercalate h)

namespace Grammar

section Types

variable {V : View} {g : Grammar} {F : List Piece → Prop} {t : TypeExpr}

theorem writesTypeParam_pieces (p : TypeParam) : WritesTypeParam p p.pieces := by
  unfold TypeParam.pieces
  by_cases hb : p.bounds = []
  · exact .inl ⟨hb, by simp [hb]⟩
  · have hplus : OneOf (.symbol .plus) [blank, symbol .plus, blank] := ⟨_, rfl, rfl⟩
    have hbounds := separated_intercalate (R := fun b ps => ps = [ident b]) hplus id (fun b => [ident b]) hb
      fun _ _ => rfl
    rw [map_id] at hbounds
    exact .inr ⟨[blank], _, rfl, hbounds, by simp [hb]⟩

theorem separated_typeParams {ps : List TypeParam} (hne : ps ≠ []) :
    Separated (OneOf (.symbol .comma)) WritesTypeParam ps (commas (ps.map TypeParam.pieces)) := by
  exact separated_commas hne fun p _ => writesTypeParam_pieces p

theorem reads_optTypeParams (ps : List TypeParam) :
    Reads V optTypeParams ps (angledPieces (ps.map TypeParam.pieces)) (Next (· ≠ .symbol .less)) := by
  by_cases hne : ps = []
  · subst hne
    exact .not_got .pure (fun rest h => h) nofun
  · simp only [angledPieces, List.isEmpty_iff, map_eq_nil_iff, hne, if_false]
    refine .got rfl ((reads_typeParams (separated_typeParams hne)).bind (.close .pure) fun _ _ => ?_)
    exact ⟨_, rfl, rfl⟩

theorem bare_pieces (h : t.Written) : Bare t.pieces := by
  cases h with
  | named => exact ⟨_, _, rfl, nofun, nofun, fun _ => .inl rfl⟩
  | array | map | promise => exact ⟨_, _, rfl, nofun, nofun, fun _ => .inr ⟨_, rfl, rfl⟩⟩
  | func | structRef | enumRef => exact ⟨_, _, rfl, nofun, nofun, nofun⟩
  | generic hne =>
    simp only [TypeExpr.pieces, angledPieces, List.isEmpty_iff, map_eq_nil_iff, hne, if_false]
    exact ⟨_, _, rfl, nofun, nofun, nofun⟩

theorem reads_param_plain {name : String} {variadic : Bool} :
    Reads V (g.param false) ⟨name, .missing, variadic⟩ (dots variadic ++ [ident name]) ParamEnd := by
  refine reads_dots (.kind (.peekKind_any fun k => ?_)) ⟨_, rfl, nofun⟩
  simp only [Bool.false_eq_true, false_and, if_false]
  refine .expectIdent (Reads.bind_done (a := .missing) ?_ .pure)
  exact .not_got .pure (fun rest h => Next.mono (fun k hk => hk.2) h.typeEnd) nofun

/-- A parameter whose type, if it has one, can be read. -/
theorem reads_param {a : Param} {inType : Bool} (hbare : a.name = "" → inType = true)
    (hann : a.ann.Written ∨ inType = false ∧ a.ann = .missing)
    (h : a.ann.Written → Reads V g.type a.ann a.ann.pieces TypeEnd) :
    Reads V (g.param inType) a (a.pieces a.ann.pieces) ParamEnd ∧
      Next (· ≠ .symbol .closeParen) (a.pieces a.ann.pieces) := by
  obtain ⟨name, ann, variadic⟩ := a
  have hdots (ks : List Piece) (hks : Next (· ≠ .symbol .closeParen) ks) :
      Next (· ≠ .symbol .closeParen) (dots variadic ++ ks) := by
    cases variadic with
    | true => exact ⟨_, rfl, nofun⟩
    | false => exact hks
  unfold ParamOf.pieces
  obtain hann | ⟨rfl, hmissing⟩ := hann
  · by_cases hname : name = ""
    · obtain rfl := hbare hname
      subst hname
      have hpieces := bare_pieces hann
      refine ⟨reads_param_bare (h hann) hpieces, hdots _ ?_⟩
      obtain ⟨k, ps, heq, -, hk, -⟩ := hpieces
      exact heq ▸ ⟨_, rfl, hk⟩
    · simp only [hname, hann.isMissing, Bool.false_eq_true, if_false]
      exact ⟨reads_param_named (reads_annotated (h hann) (rfl : Blanks [blank])), hdots _ ⟨_, rfl, nofun⟩⟩
  · dsimp only at hmissing hbare
    subst hmissing
    have hname : name ≠ "" := fun hname => by cases hbare hname
    simp only [hname, TypeExpr.isMissing, if_false, if_true]
    exact ⟨reads_param_plain, hdots _ ⟨_, rfl, nofun⟩⟩

theorem reads_params_pieces {ps : List Param} {inType : Bool}
    (h : ∀ a ∈ ps, Reads V (g.param inType) a (a.pieces a.ann.pieces) ParamEnd ∧
      Next (· ≠ .symbol .closeParen) (a.pieces a.ann.pieces)) :
    Reads V (g.params inType) ps (commas (TypeExpr.piecesParams ps)) (Next (· = .symbol .closeParen)) := by
  rw [TypeExpr.piecesParams_eq]
  exact reads_params (listed_commas h)

theorem reads_args {ts : List TypeExpr} (h : ∀ t ∈ ts, Reads V g.type t t.pieces TypeEnd) :
    Reads V g.typeArgs ts (angledPieces (TypeExpr.piecesAll ts)) TypeEnd := by
  by_cases hne : ts = []
  · subst hne
    exact reads_typeArgs_nil
  · simp only [TypeExpr.piecesAll_eq, angledPieces, List.isEmpty_iff, map_eq_nil_iff, hne, if_false]
    exact reads_typeArgs (separated_commas hne h)

theorem weight_le_angled {parts : List (List Piece)} {part : List Piece} (h : part ∈ parts) :
    weight part ≤ weight (angledPieces parts) := by
  have hpart := weight_le_commas h
  simp only [angledPieces, List.isEmpty_iff, ne_nil_of_mem h, if_false, weight, weight_append,
    cons_append]
  omega

theorem weight_closed (parts : List (List Piece)) : weight (closedPieces parts) = weight (commas parts) + 1 := by
  unfold closedPieces
  split
  next hnil =>
    rw [List.isEmpty_iff] at hnil
    subst hnil
    rfl
  next => simp only [cons_append, weight, weight_append]

theorem weight_param_le (a : Param) : weight a.ann.pieces ≤ weight (a.pieces a.ann.pieces) := by
  unfold ParamOf.pieces
  rw [weight_append]
  split
  next => omega
  next =>
    split
    next hmissing =>
      have hann : a.ann.pieces = [] := by cases hann : a.ann <;> simp_all [TypeExpr.isMissing, TypeExpr.pieces]
      simp [hann, weight]
    next => simp only [weight]; omega

theorem weight_params_le {ps : List Param} {a : Param} (h : a ∈ ps) :
    weight a.ann.pieces ≤ weight (commas (TypeExpr.piecesParams ps)) := by
  rw [TypeExpr.piecesParams_eq]
  exact Nat.le_trans (weight_param_le a) (weight_le_commas (mem_map_of_mem h))

/-- A written type is read, by productions as deep as its pieces are many. -/
theorem reads_type (h : t.Written) (n : Nat) (hn : weight t.pieces ≤ n) :
    Reads V (ofDepth n).typeExpr t t.pieces TypeEnd := by
  induction h generalizing n with
  | named => exact reads_named
  | array _ ih =>
    simp only [TypeExpr.pieces, weight, weight_append] at hn
    exact reads_array (reads_type_of_lt ih (by omega))
  | promise _ ih =>
    simp only [TypeExpr.pieces, weight, weight_append] at hn
    exact reads_promise (reads_type_of_lt ih (by omega))
  | map _ _ iht ihu =>
    simp only [TypeExpr.pieces, weight, weight_append] at hn
    exact reads_map (reads_type_of_lt iht (by omega)) oneOf_comma (reads_type_of_lt ihu (by omega))
  | func hnames hps _ ihps ih =>
    simp only [TypeExpr.pieces, weight, weight_append] at hn
    have harrow : OneOf (.symbol .arrow) [blank, symbol .arrow, blank] := ⟨_, rfl, rfl⟩
    refine reads_func (reads_params_pieces fun a ha => ?_) (reads_type_of_lt ih (by omega)) harrow
    have hle := weight_params_le ha
    exact reads_param (fun _ => rfl) (.inl (hps a ha)) fun _ => reads_type_of_lt (ihps a ha) (by omega)
  | structRef h _ ih =>
    simp only [TypeExpr.pieces, weight, weight_append] at hn
    refine reads_structRef (reads_args fun t ht => reads_type_of_lt (ih t ht) ?_) (rfl : Blanks [blank])
    have hle := weight_le_angled (TypeExpr.piecesAll_eq _ ▸ mem_map_of_mem ht)
    omega
  | enumRef h _ ih =>
    simp only [TypeExpr.pieces, weight, weight_append] at hn
    refine reads_enumRef (reads_args fun t ht => reads_type_of_lt (ih t ht) ?_) (rfl : Blanks [blank])
    have hle := weight_le_angled (TypeExpr.piecesAll_eq _ ▸ mem_map_of_mem ht)
    omega
  | generic hne _ _ ih =>
    simp only [TypeExpr.pieces, weight_append] at hn ⊢
    simp only [angledPieces, List.isEmpty_iff, map_eq_nil_iff, hne, if_false] at hn ⊢
    simp only [weight, weight_append, cons_append] at hn
    have hgeneric := reads_generic (separated_typeParams hne) (reads_type_of_lt (n := n) ih (by omega))
    simpa using hgeneric

end Types

end Grammar

/-! ## Functions and blocks -/

/-- A loop may have blanks before its next turn. -/
theorem Turns.blank {β : Type} {V : View} {step : α → Parser (α ⊕ β)} {b : β} {F : List Piece → Prop}
    {a : α} {ps : List Piece} (h : Turns V step b F a ps) : Turns V step b F a (blank :: ps) := by
  cases h with
  | last h => exact .last h.blank
  | more h hG hw hrest => exact .more h.blank hG hw hrest

namespace Grammar

section Statements

variable {V : View} {g : Grammar} {x y z : Node} {ps qs ls ks : List Piece} {F : List Piece → Prop}
  {t : TypeExpr} {name : String}

theorem reads_annotation_pieces (ht : t.Optional) (h : t.Written → Reads V g.type t t.pieces TypeEnd) :
    Reads V g.annotation t t.annotationPieces TypeEnd := by
  obtain rfl | ht := ht
  · exact .not_got .pure (fun rest h => Next.mono (fun k hk => hk.2) h) nofun
  · simp only [TypeExpr.annotationPieces, ht.isMissing, Bool.false_eq_true, if_false]
    exact reads_annotated (h ht) rfl

theorem weight_le_annotation (ht : t.Written) : weight t.pieces ≤ weight t.annotationPieces := by
  simp only [TypeExpr.annotationPieces, ht.isMissing, Bool.false_eq_true, if_false, weight, weight_append]
  omega

variable {sig : Signature} {xs : List Node} {R : Node → List Piece → Prop} {fs : List Field}
  {tps : List TypeParam}

theorem reads_signature (h : sig.Written)
    (htypes : ∀ t, t.Written → weight t.pieces ≤ weight sig.pieces → Reads V g.type t t.pieces TypeEnd) :
    Reads V (g.signature sig.async) sig sig.pieces TypeEnd := by
  obtain ⟨tparams, params, ret, async⟩ := sig
  obtain ⟨-, hparams, hret⟩ := h
  simp only [Signature.pieces, weight, weight_append] at htypes hparams hret ⊢
  refine (reads_optTypeParams tparams).bind (.expect rfl fun _ => ?_) fun _ _ => ⟨_, rfl, by simp⟩
  refine (reads_params_pieces fun a ha => ?_).bind (.expect rfl fun _ => ?_) fun _ _ => ⟨_, rfl, rfl⟩
  · obtain ⟨hname, hann⟩ := hparams a ha
    have hle := weight_params_le ha
    exact reads_param (fun h => (hname.ne_empty h).elim) (hann.symm.imp_right fun h => ⟨rfl, h⟩) fun ht =>
      htypes _ ht (by omega)
  · refine (reads_annotation_pieces hret fun ht => htypes _ ht ?_).bind_done .pure
    have hle := weight_le_annotation ht
    omega

/-- One turn of the loop over the statements of a block. -/
def stmtStep (g : Grammar) (xs : List Node) : Parser (List Node ⊕ List Node) := do
  if (fun k => k = .symbol .closeBrace || k = .eof : Kind → Bool) (← kind) then return .inr xs
  return .inl (xs ++ [← g.stmt])

theorem exists_intercalate_cons {κ : Type} (sep p : List κ) (ps : List (List κ)) :
    ∃ qs, sep.intercalate (p :: ps) = p ++ qs := by
  cases ps with
  | nil => exact ⟨[], by simp⟩
  | cons q ps => exact ⟨_, by rw [intercalate_cons_cons, append_assoc]⟩

theorem reads_stmt_stop : Reads V (g.stmtStep xs) (.inr xs) [] (Next (· = .symbol .closeBrace)) := by
  refine .kind_any (K := (· = .symbol .closeBrace)) (fun k hk => ?_) (fun rest h => h) nofun
  simp only [hk, decide_true, Bool.true_or, if_true]
  exact .pure

/-- The statements of a block, each of which knows what may follow it. -/
theorem turns_stmts (hread : ∀ x ∈ xs, Reads V g.stmt x (x.pieces false) (R x))
    (hstart : ∀ x ∈ xs, Next (fun k => k ≠ .symbol .closeBrace ∧ k ≠ .eof) (x.pieces false))
    (hnext : ∀ x ∈ xs, ∀ y ∈ xs, ∀ rest, R x (blank :: (y.pieces false ++ rest)))
    (hlast : ∀ x ∈ xs, ∀ rest, F rest → R x rest) (hF : ∀ rest, F rest → Next (· = .symbol .closeBrace) rest) :
    Turns V g.stmtStep xs F [] ([blank].intercalate (Node.piecesAll xs)) := by
  suffices h : ∀ ys, ys ⊆ xs → ∀ acc,
      Turns V g.stmtStep (acc ++ ys) F acc ([blank].intercalate (Node.piecesAll ys)) from
    h xs (List.Subset.refl xs) []
  have hturn {x : Node} (hx : x ∈ xs) (acc : List Node) :
      Reads V (g.stmtStep acc) (.inl (acc ++ [x])) (x.pieces false) (R x) := by
    refine .kind_any (fun k hk => ?_) (fun rest _ => (hstart x hx).append rest) fun _ => ⟨nofun, nofun⟩
    simp only [hk, decide_false, Bool.or_self, Bool.false_eq_true, if_false]
    exact (hread x hx).bind_done .pure
  intro ys
  induction ys with
  | nil => exact fun _ acc => by simpa using .last (reads_stmt_stop.mono hF)
  | cons x ys ih =>
    intro hsub acc
    obtain ⟨hx, hys⟩ := cons_subset.1 hsub
    have hw : 0 < weight (x.pieces false) := weight_pos (hstart x hx).isSome
    rw [append_cons]
    cases ys with
    | nil =>
      have hone := Turns.more (hturn hx acc) (hlast x hx) hw (.last (reads_stmt_stop.mono hF))
      simpa [Node.piecesAll] using hone
    | cons y ys =>
      obtain ⟨qs, hqs⟩ := exists_intercalate_cons [blank] (y.pieces false) (Node.piecesAll ys)
      rw [Node.piecesAll, Node.piecesAll, intercalate_cons_cons, append_assoc (x.pieces false)]
      refine .more (hturn hx acc) (fun rest _ => ?_) hw (ih hys _).blank
      rw [append_assoc, hqs, append_assoc]
      exact hnext x hx y (hys mem_cons_self) _

theorem reads_block {o : Bool} (hread : ∀ x ∈ xs, Reads V g.stmt x (x.pieces false) (R x))
    (hstart : ∀ x ∈ xs, Next (fun k => k ≠ .symbol .closeBrace ∧ k ≠ .eof) (x.pieces false))
    (hnext : ∀ x ∈ xs, ∀ y ∈ xs, ∀ rest, R x (blank :: (y.pieces false ++ rest)))
    (hlast : ∀ x ∈ xs, ∀ rest, R x (blank :: symbol .closeBrace :: rest)) :
    Reads V g.block (.block xs) ((Node.block xs).pieces o) F := by
  unfold Node.pieces
  split
  next hnil =>
    rw [List.isEmpty_iff] at hnil
    subst hnil
    have hloop : Reads V (iterate g.stmtStep []) [] [] (Next (· = .symbol .closeBrace)) :=
      Turns.reads (.last reads_stmt_stop)
    exact .expect rfl fun _ => hloop.bind (.expect rfl fun _ => .pure) fun rest _ => ⟨_, rfl, rfl⟩
  next =>
    have hloop := Turns.reads (turns_stmts (F := fun rest => ∃ qs, rest = blank :: symbol .closeBrace :: qs)
      hread hstart hnext (by rintro x hx _ ⟨qs, rfl⟩; exact hlast x hx qs)
      (by rintro _ ⟨qs, rfl⟩; exact ⟨_, rfl, rfl⟩))
    exact .expect rfl fun _ => .blank (hloop.bind (.blank (.expect rfl fun _ => .pure)) fun rest _ => ⟨rest, rfl⟩)

theorem reads_lambda {async : Bool} (hsig : Reads V (g.signature async) sig ps TypeEnd)
    (hbody : Reads V g.block x (symbol .openBrace :: qs) F) :
    Reads V (g.lambda async) (.lambda sig x) (keyword .kFun :: blank :: (ps ++ blank :: symbol .openBrace :: qs))
      F := by
  refine .expect rfl fun _ => .blank (hsig.bind (.blank (hbody.bind_done .pure)) fun _ _ => ?_)
  exact ⟨_, rfl, nofun, nofun⟩

theorem reads_primary_lambda (hsig : Reads V (g.signature sig.async) sig sig.pieces TypeEnd)
    (hbody : Reads V g.block x (symbol .openBrace :: qs) F) : Reads V g.primary (.lambda sig x)
      (sig.headPieces ++ (sig.pieces ++ blank :: symbol .openBrace :: qs)) F := by
  have hlambda := reads_lambda hsig hbody
  unfold Signature.headPieces
  cases hasync : sig.async with
  | true =>
    rw [hasync] at hlambda
    refine .current fun u hk _ => ?_
    simp only [hk]
    exact .advance (.blank hlambda)
  | false =>
    rw [hasync] at hlambda
    refine .current fun u hk _ => ?_
    simp only [hk]
    exact hlambda

/-! ## Statements -/

/-- What an expression starts with that is a statement on its own, with nothing to look at but the first
token. -/
def startsPlain (k : Kind) : Bool :=
  match k with
  | .number | .string | .ident | .keyword .kTrue | .keyword .kFalse | .keyword .kAwait
  | .symbol .openParen | .symbol .openBracket | .symbol .bang | .symbol .minus | .symbol .plus
  | .symbol .tilde | .symbol .increment | .symbol .decrement => true
  | _ => false

theorem reads_exprStmt {p : Parser Node} (h : Reads V p x ps (Ends 6)) :
    Reads V (p >>= exprStmt) (.exprStmt x) (ps ++ [symbol .semicolon]) F :=
  h.bind (.semicolon .pure) fun _ _ => ⟨_, rfl, by decide⟩

theorem statement_plain {s : Stream} (h : startsPlain s.current.kind = true) :
    g.statement s = (g.sequenceExpr >>= exprStmt) s := by
  have hkind (f : Kind → Parser Node) : (kind >>= f) s = f s.current.kind s := rfl
  rw [statement, hkind]
  refine congrFun ?_ s
  split
  iterate 13 next hk =>
    rw [hk] at h
    cases h
  next => rfl

/-- Behind the word that starts a function comes something that is no name. -/
theorem next_signature (sig : Signature) (rest : List Piece) :
    Next (fun k => k = .symbol .less ∨ k = .symbol .openParen) (sig.pieces ++ rest) := by
  unfold Signature.pieces
  by_cases hnil : sig.tparams = []
  · simp only [hnil, map_nil]
    exact ⟨_, rfl, .inr rfl⟩
  · simp only [angledPieces, List.isEmpty_iff, map_eq_nil_iff, hnil, if_false]
    exact ⟨_, rfl, .inl rfl⟩

theorem next_function (sig : Signature) (rest : List Piece) :
    Next (· ≠ .ident) (blank :: (sig.pieces ++ rest)) :=
  Next.mono (by rintro _ (rfl | rfl) <;> nofun) (next_signature sig rest)

theorem reads_stmt_lambda (hsig : Reads V (g.signature sig.async) sig sig.pieces TypeEnd)
    (hbody : ∀ F, Reads V g.block x (symbol .openBrace :: qs) F) :
    Reads V g.statement (.exprStmt (.lambda sig x))
      ((sig.headPieces ++ (sig.pieces ++ blank :: symbol .openBrace :: qs)) ++ [symbol .semicolon]) F := by
  have hlambda := reads_lambda hsig (hbody (Ends 1))
  have hstop : Reads V (iterate g.postfixStep (.lambda sig x)) (.lambda sig x) [] (Ends 1) :=
    Turns.reads (.last reads_stop)
  have hprimary := reads_primary_lambda hsig (hbody (Next (· ≠ .symbol .openBrace)))
  unfold Signature.headPieces at hprimary ⊢
  cases hasync : sig.async with
  | true =>
    rw [hasync] at hlambda
    refine .kind (.peekKind (k := .keyword .kFun) ?_ rfl nofun)
    simp only [if_true]
    refine .advance (.blank (.peekKind_ne (j := .ident) (fun k hk => ?_) (fun rest _ => ?_) nofun))
    · rw [if_neg hk]
      exact hlambda.bind (hstop.bind (.semicolon .pure) fun _ _ => ⟨_, rfl, by decide⟩) fun _ _ =>
        ⟨_, rfl, by decide⟩
    · simpa using next_function sig _
  | false =>
    rw [hasync] at hprimary
    simp only [Bool.false_eq_true, if_false] at hprimary ⊢
    have hread : Reads V (g.sequenceLevel false) (.lambda sig x) _ (Ends 6) :=
      reads_expr_of_unary (reads_operand (chain_of_primary hprimary) ⟨_, rfl, nofun, nofun, nofun, rfl⟩) rfl
    refine .kind (.peekKind_ne (j := .ident) (fun k hk => ?_) (fun rest _ => ?_) nofun)
    · rw [if_neg hk]
      exact reads_exprStmt (levels_strict.2.2.2 ▸ hread)
    · simpa using next_function sig _

theorem reads_stmt_block (h : Reads V g.block x (symbol .openBrace :: ps) F) :
    Reads V g.statement x (symbol .openBrace :: ps) F := .kind h

/-- A word, and a condition behind it. -/
theorem reads_condition {k : Keyword} {word context : String} {f : Node → Parser Node}
    (hx : Reads V g.expr x ps (Ends 6)) (hf : Reads V (f x) y qs F) :
    Reads V (expect k context >>= fun _ => g.condition word >>= f) y
      (keyword k :: blank :: symbol .openParen :: (ps ++ symbol .closeParen :: blank :: qs)) F := by
  have hcond : Reads V (g.condition word) x (symbol .openParen :: (ps ++ [symbol .closeParen])) fun _ => True :=
    .expect rfl fun _ => hx.bind (.expect rfl fun _ => .pure) fun _ _ => ⟨_, rfl, by decide⟩
  rw [append_cons, ← cons_append]
  exact .expect rfl fun _ => .blank (hcond.bind (.blank hf) fun _ _ => trivial)

theorem reads_if (hx : Reads V g.expr x ps (Ends 6)) (hy : Reads V g.stmt y qs F)
    (hF : ∀ rest, F rest → Next (· ≠ .keyword .kElse) rest) : Reads V g.statement (.ifElse x y .missing)
      (keyword .kIf :: blank :: symbol .openParen :: (ps ++ symbol .closeParen :: blank :: qs)) F :=
  .kind (reads_condition hx (hy.bind_done (.not_got .pure hF nofun)))

theorem reads_ifElse {G : List Piece → Prop} (hx : Reads V g.expr x ps (Ends 6)) (hy : Reads V g.stmt y qs G)
    (hz : Reads V g.stmt z ls F) (hG : ∀ rest, G (blank :: keyword .kElse :: blank :: (ls ++ rest))) :
    Reads V g.statement (.ifElse x y z) (keyword .kIf :: blank :: symbol .openParen ::
      (ps ++ symbol .closeParen :: blank :: (qs ++ blank :: keyword .kElse :: blank :: ls))) F := by
  refine .kind (reads_condition hx ?_)
  exact hy.bind (.blank (.got rfl (.blank (hz.bind_done .pure)))) fun rest _ => hG rest

theorem reads_while (hx : Reads V g.expr x ps (Ends 6)) (hy : Reads V g.stmt y qs F) :
    Reads V g.statement (.whileLoop x y)
      (keyword .kWhile :: blank :: symbol .openParen :: (ps ++ symbol .closeParen :: blank :: qs)) F :=
  .kind (reads_condition hx (hy.bind_done .pure))

/-- The clauses of a loop that may be left out. -/
theorem reads_clause {stop : Symbol} (hstop : stop = .semicolon ∨ stop = .closeParen)
    (h : x ≠ .missing → Reads V g.expr x (x.pieces false) (Ends 6) ∧ Next (· ≠ .symbol stop) (x.pieces false)) :
    Reads V (g.clause stop) x (x.pieces false) (Next (· = .symbol stop)) := by
  by_cases hx : x = .missing
  · subst hx
    refine .stopped ?_ (by obtain rfl | rfl := hstop <;> nofun)
    simpa using Reads.pure
  · obtain ⟨hread, hnext⟩ := h hx
    refine .not_stopped (hread.mono ?_) (fun rest _ => hnext.append rest) (by obtain rfl | rfl := hstop <;> nofun)
    rintro rest ⟨k, hk, rfl⟩
    exact ⟨_, hk, by obtain rfl | rfl := hstop <;> decide⟩

theorem reads_firstClause (h : x ≠ .missing → Reads V g.expr x (x.pieces false) (Ends 6) ∧
      Next (fun k => k ≠ .symbol .semicolon ∧ k ≠ .keyword .kLet) (x.pieces false)) :
    Reads V g.firstClause x (x.pieces false) (Next (· = .symbol .semicolon)) := by
  by_cases hx : x = .missing
  · subst hx
    exact .stopped .pure nofun
  · obtain ⟨hread, hnext⟩ := h hx
    refine .kind_any (fun k hk => ?_) (fun rest _ => hnext.append rest) fun _ => ⟨nofun, nofun⟩
    split
    next => exact (hk.1 rfl).elim
    next => exact (hk.2 rfl).elim
    next =>
      refine hread.mono ?_
      rintro rest ⟨k, hk, rfl⟩
      exact ⟨_, hk, by decide⟩

theorem reads_firstClause_let (h : Reads V g.letDecl x (keyword .kLet :: ps) F) :
    Reads V g.firstClause x (keyword .kLet :: ps) F := .kind h

theorem reads_for {init body : Node} (hinit : Reads V g.firstClause init ps (Next (· = .symbol .semicolon)))
    (hx : Reads V (g.clause .semicolon) x (x.pieces false) (Next (· = .symbol .semicolon)))
    (hy : Reads V (g.clause .closeParen) y (y.pieces false) (Next (· = .symbol .closeParen)))
    (hbody : Reads V g.stmt body qs F) :
    Reads V g.statement (.forLoop init x y body) (keyword .kFor :: blank :: symbol .openParen ::
      (ps ++ symbol .semicolon :: blank :: (x.pieces false ++ symbol .semicolon :: blank ::
        (y.pieces false ++ symbol .closeParen :: blank :: qs)))) F := by
  refine .kind ?_
  show Reads V g.forStmt _ _ _
  rw [forStmt_eq]
  refine .expect rfl fun _ => .blank (.expect rfl fun _ => hinit.bind (.expect rfl fun _ => .blank ?_)
    fun _ _ => ⟨_, rfl, rfl⟩)
  refine hx.bind (.expect rfl fun _ => .blank (hy.bind (.expect rfl fun _ => .blank (hbody.bind_done .pure))
    fun _ _ => ⟨_, rfl, rfl⟩)) fun _ _ => ⟨_, rfl, rfl⟩

theorem reads_return (hx : Reads V g.expr x ps (Ends 6))
    (hps : Next (fun k => k ≠ .symbol .semicolon ∧ k ≠ .symbol .closeBrace) ps) :
    Reads V g.statement (.returns x) (keyword .kReturn :: blank :: (ps ++ [symbol .semicolon])) F := by
  refine .kind (.expect rfl fun _ => .blank (.not_got ?_ (fun rest _ => ?_) nofun))
  · simp only [Bool.false_eq_true, if_false]
    refine .not_stopped (hx.bind (.semicolon .pure) fun _ _ => ⟨_, rfl, by decide⟩) (fun rest _ => ?_) nofun
    exact ((hps.append _).append rest).mono fun k hk => hk.2
  · exact ((hps.append _).append rest).mono fun k hk => hk.1

theorem reads_return_missing :
    Reads V g.statement (.returns .missing) [keyword .kReturn, symbol .semicolon] F :=
  .kind (.expect rfl fun _ => .got rfl .pure)

theorem reads_break : Reads V g.statement .breaks [keyword .kBreak, symbol .semicolon] F :=
  .kind (.advance (.semicolon .pure))

theorem reads_continue : Reads V g.statement .continues [keyword .kContinue, symbol .semicolon] F :=
  .kind (.advance (.semicolon .pure))

/-- One of the variables of a declaration. -/
def varDecl (g : Grammar) : Parser Variable := do
  let name ← expectIdent "for variable name"
  let ann ← g.annotation
  let value ← if ← got Symbol.assign then g.assign else pure .missing
  return VariableOf.mk name ann value 0

theorem letDecl_eq : g.letDecl = do
    let _ ← expect Keyword.kLet ""
    return .lets (← sepBy .comma g.varDecl) := rfl

/-- What can stand behind a variable of a declaration. -/
def VariableEnd : List Piece → Prop := Next fun k => k = .symbol .comma ∨ k = .symbol .semicolon

theorem reads_variable {v : Variable} (hv : v.Written)
    (hann : v.ann.Written → Reads V g.type v.ann v.ann.pieces TypeEnd)
    (hvalue : v.value ≠ .missing → Reads V g.assign v.value (v.value.pieces false) (Ends 5)) :
    Reads V g.varDecl v (v.pieces (v.value.pieces false)) VariableEnd := by
  obtain ⟨name, ann, value, slot⟩ := v
  obtain ⟨-, hopt, rfl⟩ := hv
  have hann := reads_annotation_pieces hopt hann
  unfold VariableOf.pieces
  refine .expectIdent ?_
  by_cases hmissing : value = .missing
  · subst hmissing
    simp only [Node.isMissing, if_true, append_nil]
    refine (hann.mono fun rest h => Next.mono ?_ h).bind_done (.not_got .pure (fun rest h => Next.mono ?_ h) (by simp))
    · rintro k (rfl | rfl) <;> exact ⟨(by simp), by simp⟩
    · rintro k (rfl | rfl) <;> simp
  · simp only [Node.isMissing_of_ne hmissing, Bool.false_eq_true, if_false]
    refine hann.bind (.blank (.got rfl (.blank (((hvalue hmissing).mono fun rest h => ?_).bind_done .pure))))
      fun rest _ => ⟨_, rfl, by simp, by simp⟩
    refine Next.mono ?_ h
    rintro k (rfl | rfl) <;> decide

theorem reads_letDecl {vars : List Variable} (hne : vars ≠ [])
    (h : ∀ v ∈ vars, Reads V g.varDecl v (v.pieces (v.value.pieces false)) VariableEnd) :
    Reads V g.letDecl (.lets vars) (keyword .kLet :: blank :: commas (Node.piecesVars vars))
      (Next (· = .symbol .semicolon)) := by
  rw [letDecl_eq, Node.piecesVars_eq]
  refine .expect rfl fun _ => .blank ((reads_sepBy (separated_commas hne h) ?_ ?_ nofun).bind_done .pure)
  · exact fun rest h => h.mono fun k => .inl
  · exact fun rest h => ⟨h.mono fun k => .inr, h.mono fun k hk => hk ▸ nofun⟩

theorem reads_let (h : Reads V g.letDecl x (keyword .kLet :: ps) (Next (· = .symbol .semicolon))) :
    Reads V g.statement x (keyword .kLet :: (ps ++ [symbol .semicolon])) F :=
  .kind (h.bind (.semicolon .pure) fun _ _ => ⟨_, rfl, rfl⟩)

theorem reads_func_stmt (hsig : Reads V (g.signature sig.async) sig sig.pieces TypeEnd)
    (hbody : Reads V g.block x (symbol .openBrace :: qs) F) : Reads V g.statement (.func name sig x)
      (sig.headPieces ++ ident name :: (sig.pieces ++ blank :: symbol .openBrace :: qs)) F := by
  have hdecl : Reads V (g.funcDecl sig.async) (.func name sig x)
      (keyword .kFun :: blank :: ident name :: (sig.pieces ++ blank :: symbol .openBrace :: qs)) F := by
    refine .expect rfl fun _ => .blank (.expectIdent (hsig.bind (.blank (hbody.bind_done .pure)) fun _ _ => ?_))
    exact ⟨_, rfl, nofun, nofun⟩
  unfold Signature.headPieces
  cases hasync : sig.async with
  | true =>
    rw [hasync] at hdecl
    refine .kind (.peekKind (k := .keyword .kFun) ?_ rfl nofun)
    simp only [if_true]
    refine .advance (.blank (.peekKind (k := .ident) ?_ rfl nofun))
    simp only [if_true]
    exact hdecl
  | false =>
    rw [hasync] at hdecl
    refine .kind (.peekKind (k := .ident) ?_ rfl nofun)
    simp only [if_true]
    exact hdecl

/-! ## Structs and enums -/

theorem reads_fields (hfs : ∀ f ∈ fs, f.Written)
    (h : ∀ f ∈ fs, f.ann.Written → Reads V g.type f.ann f.ann.pieces TypeEnd) :
    Reads V g.fields fs (commas (fs.map Field.pieces)) (Next (· = .symbol .closeBrace)) := by
  have hfield : ∀ f ∈ fs, Reads V (do
      let name ← expectIdent "for field name"
      return (⟨name, ← g.annotation⟩ : Field)) f f.pieces TypeEnd ∧ Next (· ≠ .symbol .closeBrace) f.pieces := by
    intro f hf
    refine ⟨.expectIdent ((reads_annotation_pieces (hfs f hf).2 (h f hf)).bind_done .pure), ?_⟩
    exact ⟨_, rfl, nofun⟩
  refine reads_commaUntilStrict (listed_commas hfield) (fun rest h => Next.mono ?_ h) nofun nofun nofun
  rintro k (rfl | rfl) <;> exact ⟨nofun, nofun⟩

theorem reads_struct (hfs : ∀ f ∈ fs, f.Written)
    (h : ∀ f ∈ fs, f.ann.Written → Reads V g.type f.ann f.ann.pieces TypeEnd)
    (hF : ∀ rest, F rest → Next (· ≠ .symbol .semicolon) rest) :
    Reads V g.statement (.structDecl ⟨name, tps, fs⟩) (StructDecl.pieces ⟨name, tps, fs⟩) F := by
  simp only [StructDecl.pieces, bracedPieces_eq]
  refine .kind (.expect rfl fun _ => .blank (.expectIdent ((reads_optTypeParams tps).bind ?_ fun _ _ => ?_)))
  · exact .blank (.expect rfl fun _ => reads_closed (reads_fields hfs h) (.not_got .pure hF (by simp)))
  · exact ⟨_, rfl, by simp⟩

def VariantEnd : List Piece → Prop := Next fun k => k = .symbol .comma ∨ k = .symbol .closeBrace

theorem reads_variant (hV : V.Exact) {v : Variant} (hv : v.Written)
    (htuple : ∀ t ∈ v.tuple, t.Written → Reads V g.type t t.pieces TypeEnd)
    (hfields : ∀ f ∈ v.fields, f.ann.Written → Reads V g.type f.ann f.ann.pieces TypeEnd) :
    Reads V g.variant v (v.pieces (v.value.pieces false)) VariantEnd := by
  have hend {k : Kind} (hk : k ≠ .symbol .comma ∧ k ≠ .symbol .closeBrace) (rest : List Piece)
      (h : VariantEnd rest) : Next (· ≠ k) rest := by
    refine Next.mono ?_ h
    rintro j (rfl | rfl)
    · exact hk.1.symm
    · exact hk.2.symm
  cases hv with
  | unit =>
    exact .expectIdent (.not_got (.not_got (.not_got .pure (hend (by decide)) nofun) (hend (by decide)) nofun)
      (hend (by decide)) nofun)
  | @tuple name ts _ hne hts =>
    simp only [VariantOf.pieces, TypeExpr.piecesAll_eq]
    have hlist : Reads V (sepBy .comma g.type) ts (commas (ts.map TypeExpr.pieces))
        (Next (· = .symbol .closeParen)) := by
      refine reads_sepBy (separated_commas hne fun t ht => htuple t ht (hts t ht))
        (fun rest h => h.mono fun k hk => hk ▸ ⟨nofun, nofun⟩) (fun rest h => ?_) nofun
      exact ⟨h.mono fun k hk => hk ▸ ⟨nofun, nofun⟩, h.mono fun k hk => hk ▸ nofun⟩
    exact .expectIdent (.not_got (.got rfl (hlist.bind (.expect rfl fun _ => .pure) fun _ _ => ⟨_, rfl, rfl⟩))
      (fun _ _ => ⟨_, rfl, nofun⟩) nofun)
  | fields _ hfs =>
    simp only [VariantOf.pieces, bracedPieces_eq]
    exact .expectIdent (.blank (.got rfl (reads_closed (reads_fields hfs hfields) .pure)))
  | constant _ hlit =>
    refine .expectIdent (.not_got (.not_got (.blank (.got rfl (.blank ((reads_literal hV hlit).bind_done .pure)))) ?_
      nofun) ?_ nofun)
    all_goals exact fun _ _ => ⟨_, rfl, nofun⟩

theorem reads_enum {vs : List Variant}
    (h : ∀ v ∈ vs, Reads V g.variant v (v.pieces (v.value.pieces false)) VariantEnd)
    (hF : ∀ rest, F rest → Next (· ≠ .symbol .semicolon) rest) :
    Reads V g.statement (.enumDecl ⟨name, tps, vs⟩) ((Node.enumDecl ⟨name, tps, vs⟩).pieces false) F := by
  simp only [Node.pieces, Node.piecesVariants_eq]
  have hvariants : Reads V (commaUntilStrict .closeBrace "after enum variant" g.variant) vs
      (commas (vs.map fun v => v.pieces (v.value.pieces false))) (Next (· = .symbol .closeBrace)) := by
    exact reads_commaUntilStrict (listed_commas fun v hv => ⟨h v hv, _, rfl, nofun⟩) (fun rest h => h)
      nofun nofun nofun
  refine .kind (.expect rfl fun _ => .blank (.expectIdent ((reads_optTypeParams tps).bind ?_ fun _ _ => ?_)))
  · refine .blank (.expect rfl fun _ => .blank (hvariants.bind (.blank (.expect rfl fun _ => ?_)) fun _ _ => ?_))
    · exact .not_got .pure hF nofun
    · exact ⟨_, rfl, rfl⟩
  · exact ⟨_, rfl, nofun⟩

end Statements

end Grammar

end ScriptTyping
