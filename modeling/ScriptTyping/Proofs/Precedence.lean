import ScriptTyping.Proofs.Productions

/-!
# Precedence

Names and literals with binary operators between them are grouped by how tight the operators bind.
**Theorem (`parseTokens_formula`).** Any such formula, with a semicolon behind it, is read as one
statement. Its tree has the operands and operators of the formula from left to right; the operator on
the left of another binds at least as tight, and the one on the right tighter (`OpTree.Ordered`). No other
tree of the formula is ordered.

*One tree.* In an ordered tree the operator at the root is the last one of those that bind loosest
(`Ordered.tight_of_root`). So the formula tells where to split it (`Ordered.unique`).

*Reading.* The loop over operators joins what it has with the next operator and with all that binds
tighter than this one. Its invariant is `Reach`: the tree is ordered, it holds only operators that
bind tight enough, and the operator that comes next does not bind tighter than its root. When the
operator behind a right side was not taken, it binds no tighter than the one before, so the turn
keeps it up (`Reach.join`).
-/

namespace ScriptTyping

open Parser List

variable {least : Nat} {x : Node}

/-! ## Formulas -/

/-- Whether a token is a name or a literal. -/
def Token.isOperand (t : Token) : Bool :=
  match t.kind with
  | .ident | .number | .string | .keyword .kTrue | .keyword .kFalse => true
  | _ => false

/-- A name or a literal. -/
structure Operand where
  token : Token
  isOperand : token.isOperand = true

def Operand.node (o : Operand) : Node :=
  match o.token.kind with
  | .number => .number o.token.data (o.token.data.toList.contains '.')
  | .string => .string o.token.data
  | .keyword .kTrue => .bool true
  | .keyword .kFalse => .bool false
  | _ => .ident o.token.data

/-- A binary operator. -/
structure Operator where
  token : Token
  isBinaryOp : token.kind.isBinaryOp = true

namespace Operator

def precedence (op : Operator) : Nat := op.token.kind.precedence

/-- The node of an operator. Conjunctions and disjunctions have nodes of their own. -/
def node (op : Operator) (left right : Node) : Node :=
  match op.token.kind with
  | .symbol .ampAmp | .symbol .barBar => .logical op.token.text left right
  | _ => .binary op.token.text left right

theorem precedence_pos (op : Operator) : 0 < op.precedence := by
  have := op.isBinaryOp
  simp only [Kind.isBinaryOp, bne_iff_ne] at this
  exact Nat.pos_of_ne_zero this

theorem binaryNode_eq (op : Operator) (x y : Node) : Grammar.binaryNode op.token x y = op.node x y := by
  unfold Grammar.binaryNode node
  split
  next h =>
    obtain h | h := h <;> simp only [h]
  next h =>
    split
    next hk => exact absurd (.inl hk) h
    next hk => exact absurd (.inr hk) h
    next => rfl

end Operator

/-- An operand, and further ones with operators before them. -/
structure Formula where
  first : Operand
  rest : List (Operator × Operand)

namespace Formula

/-- The tokens of operators and the operands behind them. -/
def tokensOf (rest : List (Operator × Operand)) : List Token :=
  rest.flatMap fun p => [p.1.token, p.2.token]

def tokens (f : Formula) : List Token := f.first.token :: tokensOf f.rest

def append (f : Formula) (rest : List (Operator × Operand)) : Formula := ⟨f.first, f.rest ++ rest⟩

theorem length_tokensOf (rest : List (Operator × Operand)) : (tokensOf rest).length = 2 * rest.length := by
  induction rest with
  | nil => rfl
  | cons p rest ih =>
    simp only [tokensOf, flatMap_cons, length_append, length_cons, length_nil] at ih ⊢
    omega

end Formula

/-! ## Trees -/

/-- Operands joined by operators. -/
inductive OpTree where
  | operand (o : Operand)
  | join (op : Operator) (left right : OpTree)

namespace OpTree

def node : OpTree → Node
  | operand o => o.node
  | join op left right => op.node left.node right.node

/-- The operands and operators of a tree, from left to right. -/
def formula : OpTree → Formula
  | operand o => ⟨o, []⟩
  | join op left right => left.formula.append ((op, right.formula.first) :: right.formula.rest)

/-- How tight the operator at the root binds, if there is one. -/
def precedence? : OpTree → Option Nat
  | operand _ => none
  | join op _ _ => some op.precedence

/-- On the left of an operator stands one that binds at least as tight, if any, and on its right one
that binds tighter. -/
def Ordered : OpTree → Prop
  | operand _ => True
  | join op left right =>
    (∀ p ∈ left.precedence?, op.precedence ≤ p) ∧ (∀ p ∈ right.precedence?, op.precedence < p) ∧
      left.Ordered ∧ right.Ordered

/-- All operators of a tree bind at least as tight as `least`. -/
def Tight (least : Nat) (t : OpTree) : Prop := ∀ q ∈ t.formula.rest, least ≤ q.1.precedence

variable {t u left right : OpTree} {op : Operator} {least : Nat}

theorem tight_join : (join op left right).Tight least ↔
    left.Tight least ∧ least ≤ op.precedence ∧ right.Tight least := by
  simp [Tight, formula, Formula.append, or_imp, forall_and]

theorem Tight.mono {m : Nat} (h : t.Tight least) (hm : m ≤ least) : t.Tight m :=
  fun q hq => Nat.le_trans hm (h q hq)

theorem Tight.root (h : t.Tight least) : ∀ p ∈ t.precedence?, least ≤ p := by
  cases t with
  | operand o => simp [precedence?]
  | join op left right =>
    rintro p ⟨⟩
    exact (tight_join.1 h).2.1

/-- No operator of an ordered tree binds looser than the root. -/
theorem Ordered.tight_of_root (h : t.Ordered) (hroot : ∀ p ∈ t.precedence?, least ≤ p) : t.Tight least := by
  induction t generalizing least with
  | operand o => simp [Tight, formula]
  | join op left right ihl ihr =>
    obtain ⟨hl, hr, hleft, hright⟩ := h
    have hop : least ≤ op.precedence := hroot _ rfl
    refine tight_join.2 ⟨ihl hleft fun p hp => ?_, hop, ihr hright fun p hp => ?_⟩
    · exact Nat.le_trans hop (hl p hp)
    · exact Nat.le_trans hop (Nat.le_of_lt (hr p hp))

/-- What is on the two sides of the root of an ordered tree. -/
theorem Ordered.sides (h : (join op left right).Ordered) :
    left.Tight op.precedence ∧ right.Tight (op.precedence + 1) :=
  ⟨h.2.2.1.tight_of_root h.1, h.2.2.2.tight_of_root h.2.1⟩

/-- Two ordered trees of one formula have their roots at the same place. -/
theorem Ordered.rest_prefix {op' : Operator} {left' right' : OpTree} (h : (join op left right).Ordered)
    (h' : (join op' left' right').Ordered) {more : List (Operator × Operand)}
    (hleft : left'.formula.rest = left.formula.rest ++ more)
    (hright : (op, right.formula.first) :: right.formula.rest =
      more ++ (op', right'.formula.first) :: right'.formula.rest) : more = [] := by
  cases more with
  | nil => rfl
  | cons q more =>
    -- the root of one tree is on the left of the other, whose root is on the right of the first
    obtain ⟨rfl, hrest⟩ := List.cons.inj hright
    have hle : op'.precedence ≤ op.precedence := h'.sides.1 (op, right.formula.first) (by simp [hleft])
    have hlt : op.precedence + 1 ≤ op'.precedence := h.sides.2 (op', right'.formula.first) (by simp [hrest])
    omega

/-- A formula has one ordered tree at most. -/
theorem Ordered.unique (ht : t.Ordered) (hu : u.Ordered) (h : t.formula = u.formula) : t = u := by
  induction t generalizing u with
  | operand o =>
    cases u with
    | operand o' => exact congrArg operand (congrArg Formula.first h)
    | join op left right => simp [formula, Formula.append] at h
  | join op left right ihl ihr =>
    cases u with
    | operand o => simp [formula, Formula.append] at h
    | join op' left' right' =>
      obtain ⟨hfirst, hrest⟩ := (Formula.mk.injEq ..).mp h
      have hsame : left.formula.rest = left'.formula.rest ∧ (op, right.formula.first) ::
          right.formula.rest = (op', right'.formula.first) :: right'.formula.rest := by
        obtain ⟨more, hl, hr⟩ | ⟨more, hl, hr⟩ := append_eq_append_iff.1 hrest
        · obtain rfl := ht.rest_prefix hu hl hr
          exact ⟨by simp [hl], by simpa using hr⟩
        · obtain rfl := hu.rest_prefix ht hl hr
          exact ⟨by simp [hl], by simpa using hr.symm⟩
      obtain ⟨hleft, hright⟩ := hsame
      rw [List.cons.injEq, Prod.mk.injEq] at hright
      obtain ⟨⟨rfl, hnext⟩, hright⟩ := hright
      rw [ihl ht.2.2.1 hu.2.2.1 ((Formula.mk.injEq ..).mpr ⟨hfirst, hleft⟩),
        ihr ht.2.2.2 hu.2.2.2 ((Formula.mk.injEq ..).mpr ⟨hnext, hright⟩)]

end OpTree

/-! ## Operands -/

namespace Operand

/-- The kinds of names and literals. -/
theorem kind_cases (o : Operand) : o.token.kind = .ident ∨ o.token.kind = .number ∨
    o.token.kind = .string ∨ o.token.kind = .keyword .kTrue ∨ o.token.kind = .keyword .kFalse := by
  have h := o.isOperand
  unfold Token.isOperand at h
  split at h <;> simp_all

end Operand

namespace Grammar

variable {g : Grammar} {s : Stream} {o : Operand}

theorem took_literal (hs : s.current = o.token) (hk : o.token.kind ≠ .ident) :
    Took literal s o.node s.next := by
  refine took_bind.2 ⟨_, _, took_current.2 ⟨rfl, rfl⟩, ?_⟩
  obtain h | h | h | h | h := o.kind_cases
  · exact absurd h hk
  all_goals
    simp only [hs, h, Operand.node]
    exact took_bind.2 ⟨(), _, took_advance.2 rfl, took_pure.2 ⟨rfl, rfl⟩⟩

theorem took_primary (hs : s.current = o.token) (hnext : s.next.current.kind ≠ .symbol .openBrace) :
    Took g.primary s o.node s.next := by
  refine took_bind.2 ⟨_, _, took_current.2 ⟨rfl, rfl⟩, ?_⟩
  have hlit := took_literal hs
  obtain h | h | h | h | h := o.kind_cases
  · simp only [hs, h, Operand.node]
    refine took_bind.2 ⟨(), _, took_advance.2 rfl, took_bind.2 ⟨_, _, took_kind.2 ⟨rfl, rfl⟩, ?_⟩⟩
    rw [if_neg hnext]
    exact took_pure.2 ⟨rfl, rfl⟩
  all_goals
    simp only [hs, h]
    exact hlit (by simp [h])

theorem took_postfixStep (hk : 1 ≤ s.current.kind.level) : Took (g.postfixStep x) s (.inr x) s := by
  refine took_bind.2 ⟨_, _, took_kind.2 ⟨rfl, rfl⟩, ?_⟩
  split
  iterate 4 next h => exact absurd (h ▸ hk) (by decide)
  next => exact took_pure.2 ⟨rfl, rfl⟩

/-- An operand is read as its node, if nothing that applies to it comes behind. -/
theorem took_unaryExpr (hs : s.current = o.token) (hnext : 2 ≤ s.next.current.kind.level) :
    Took g.unaryExpr s o.node s.next := by
  have hbrace : s.next.current.kind ≠ .symbol .openBrace := fun h => absurd (h ▸ hnext) (by decide)
  have hstep : ¬(s.next.current.kind = .symbol .increment ∨ s.next.current.kind = .symbol .decrement) := by
    rintro (h | h) <;> exact absurd (h ▸ hnext) (by decide)
  have hpost : Took (g.postfixOps o.node) s.next o.node s.next :=
    took_iterate.2 (took_repeatFor.2 (.inr (took_postfixStep (by omega))))
  have hstart : startsOperand o.token.kind := by
    obtain h | h | h | h | h := o.kind_cases <;> rw [h] <;> simp [startsOperand, Kind.isPrefixOp]
  obtain ⟨hawait, hinc, hdec, hprefix⟩ := hstart
  refine took_bind.2 ⟨_, _, took_current.2 ⟨rfl, rfl⟩, ?_⟩
  simp only [hs, hawait, hinc, hdec, hprefix, or_self, if_false, Bool.false_eq_true]
  refine took_bind.2 ⟨_, _, took_primary hs hbrace, took_bind.2 ⟨_, _, hpost, ?_⟩⟩
  refine took_bind.2 ⟨_, _, took_current.2 ⟨rfl, rfl⟩, ?_⟩
  rw [if_neg hstep]
  exact took_pure.2 ⟨rfl, rfl⟩

end Grammar

/-! ## The loop -/

/-- What stands behind an operand: operators and operands, and then other tokens. -/
def Formula.ahead (rest : List (Operator × Operand)) (stop : Token) (last : List Token) : Stream :=
  match rest with
  | [] => ⟨stop, last⟩
  | (op, o) :: rest => ⟨op.token, o.token :: (tokensOf rest ++ stop :: last)⟩

open Formula

theorem Stream.next_ahead (t : Token) (rest : List (Operator × Operand)) (stop : Token) (last : List Token) :
    (⟨t, tokensOf rest ++ stop :: last⟩ : Stream).next = ahead rest stop last := by
  cases rest <;> rfl

theorem Operator.level_eq (op : Operator) : op.token.kind.level = 2 := by
  have h := op.isBinaryOp
  cases hk : op.token.kind with
  | symbol c =>
    rw [hk] at h
    exact Symbol.level_of_precedence (by simpa [Kind.isBinaryOp, Kind.precedence] using h)
  | _ => simp [hk, Kind.isBinaryOp, Kind.precedence] at h

theorem Token.length_le_weightAll (ts : List Token) : ts.length ≤ Token.weightAll ts := by
  induction ts with
  | nil => exact Nat.le_refl _
  | cons t ts ih =>
    have ht : 0 < t.weight := by unfold Token.weight; split <;> decide
    simp only [length_cons, Token.weightAll]
    omega

theorem Formula.length_le_weight (rest : List (Operator × Operand)) (stop : Token) (last : List Token) :
    rest.length ≤ (ahead rest stop last).weight := by
  cases rest with
  | nil => exact Nat.zero_le _
  | cons p rest =>
    have := Token.length_le_weightAll (p.2.token :: (tokensOf rest ++ stop :: last))
    simp only [length_cons, length_append, length_tokensOf] at this
    simp only [ahead, Stream.weight, length_cons]
    omega

/-- A tree that the loop has built up to some operators. -/
structure Reach (least : Nat) (t : OpTree) (rest : List (Operator × Operand)) : Prop where
  ordered : t.Ordered
  tight : t.Tight least
  next : ∀ q ∈ rest.head?, ∀ p ∈ t.precedence?, q.1.precedence ≤ p

/-- The tree of the first part of a formula, up to an operator that does not bind tight enough. -/
structure Climbed (least : Nat) (f : Formula) (t : OpTree) (rest : List (Operator × Operand)) : Prop where
  ordered : t.Ordered
  tight : t.Tight least
  stops : ∀ q ∈ rest.head?, q.1.precedence < least
  formula : t.formula.append rest = f

theorem reach_operand (least : Nat) (o : Operand) (rest : List (Operator × Operand)) :
    Reach least (.operand o) rest where
  ordered := trivial
  tight := by simp [OpTree.Tight, OpTree.formula]
  next := by simp [OpTree.precedence?]

variable {rest rest' : List (Operator × Operand)}

/-- A turn of the loop keeps the invariant: the operator that ended the right side binds no tighter than
the one before that side. -/
theorem Reach.join {least : Nat} {x y : OpTree} {op : Operator} {o : Operand} {f : Formula}
     (h : Reach least x ((op, o) :: rest))
    (hop : least ≤ op.precedence) (hy : Climbed (op.precedence + 1) f y rest') :
    Reach least (.join op x y) rest' where
  ordered := ⟨h.next _ rfl, hy.tight.root, h.ordered, hy.ordered⟩
  tight := OpTree.tight_join.2 ⟨h.tight, hop, hy.tight.mono (by omega)⟩
  next := by
    rintro q hq p ⟨⟩
    exact Nat.le_of_lt_succ (hy.stops q hq)

/-- A tree that is joined with what was read behind it has all that was ahead of it. -/
theorem Climbed.formula_join {y : OpTree} {o : Operand} (h : Climbed least ⟨o, rest⟩ y rest') (op : Operator)
    (x : OpTree) : (OpTree.join op x y).formula.append rest' = x.formula.append ((op, o) :: rest) := by
  obtain ⟨hfirst, hrest⟩ := (Formula.mk.injEq ..).mp h.formula
  simp [OpTree.formula, Formula.append, hfirst, ← hrest]

theorem Climbed.length_le {f : Formula} {t : OpTree} (h : Climbed least f t rest) :
    rest.length ≤ f.rest.length := by
  rw [← h.formula, Formula.append, length_append]
  exact Nat.le_add_left ..

namespace Grammar

variable {stop : Token} {last : List Token} {least n : Nat} {g : Grammar} {s s' : Stream}

/-- The tokens from a formula on are read up to an operator that does not bind tight enough, by the
productions that nest `n` deep. -/
def Climbs (stop : Token) (last : List Token) (n : Nat) : Prop :=
  ∀ (least : Nat) (f : Formula), f.rest.length ≤ n → ∃ t rest,
    Took ((ofDepth n).binaryExpr least) ⟨f.first.token, tokensOf f.rest ++ stop :: last⟩ t.node
      (ahead rest stop last) ∧ Climbed least f t rest

theorem took_binaryStep_stop (h : ¬(s.current.kind.isBinaryOp = true ∧ least ≤ s.current.kind.precedence)) :
    Took (g.binaryStep least x) s (.inr x) s := by
  refine took_bind.2 ⟨_, _, took_current.2 ⟨rfl, rfl⟩, ?_⟩
  rw [if_neg h]
  exact took_pure.2 ⟨rfl, rfl⟩

theorem took_binaryStep {op : Operator} {y : Node} (hs : s.current = op.token) (hop : least ≤ op.precedence)
    (hy : Took (g.binary (op.precedence + 1)) s.next y s') :
    Took (g.binaryStep least x) s (.inl (op.node x y)) s' := by
  refine took_bind.2 ⟨_, _, took_current.2 ⟨rfl, rfl⟩, ?_⟩
  rw [hs, if_pos ⟨op.isBinaryOp, hop⟩]
  refine took_bind.2 ⟨(), _, took_advance.2 rfl, took_bind.2 ⟨_, _, hy, ?_⟩⟩
  exact took_pure.2 ⟨by rw [op.binaryNode_eq], rfl⟩

/-- The loop goes on from a tree up to an operator that does not bind tight enough. -/
theorem took_loop (hstop : stop.kind.isBinaryOp = false) (hn : ∀ m, n = m + 1 → Climbs stop last m) {turns : Nat}
    {x : OpTree} (hx : Reach least x rest) (hrest : rest.length ≤ n) (hturns : rest.length < turns) : ∃ t rest',
    Took (repeatFor ((ofDepth n).binaryStep least) turns x.node) (ahead rest stop last) t.node
      (ahead rest' stop last) ∧ Climbed least (x.formula.append rest) t rest' := by
  induction turns generalizing x rest with
  | zero => omega
  | succ turns ih =>
    cases rest with
    | nil =>
      refine ⟨x, [], took_repeatFor.2 (.inr (took_binaryStep_stop ?_)), hx.ordered, hx.tight, by simp, rfl⟩
      simp [ahead, hstop]
    | cons p rest =>
      obtain ⟨op, o⟩ := p
      by_cases hop : least ≤ op.precedence
      · obtain ⟨m, rfl⟩ := Nat.exists_eq_succ_of_ne_zero (n := n) (by rintro rfl; simp at hrest)
        obtain ⟨y, rest₁, htook, hy⟩ := hn m rfl (op.precedence + 1) ⟨o, rest⟩ (by simpa using hrest)
        have hlength : rest₁.length ≤ rest.length := hy.length_le
        simp only [length_cons] at hrest hturns
        obtain ⟨t, rest₂, hloop, ht⟩ := ih (hx.join hop hy) (by omega) (by omega)
        have hturn : Took ((ofDepth (m + 1)).binaryStep least x.node) (ahead ((op, o) :: rest) stop last)
            (.inl (OpTree.join op x y).node) (ahead rest₁ stop last) := took_binaryStep rfl hop htook
        refine ⟨t, rest₂, took_repeatFor.2 (.inl ⟨_, _, hturn, hloop⟩), ht.ordered, ht.tight, ht.stops, ?_⟩
        rw [ht.formula, hy.formula_join]
      · refine ⟨x, (op, o) :: rest, took_repeatFor.2 (.inr (took_binaryStep_stop ?_)), hx.ordered, hx.tight,
          ?_, rfl⟩
        · exact fun h => hop h.2
        · rintro q ⟨⟩
          exact Nat.lt_of_not_le hop

/-- Each formula is read up to an operator that does not bind tight enough. The induction is on how deep
the productions nest: what binds tighter is read one level deeper. -/
theorem climbs (last : List Token) (hstop : 3 ≤ stop.kind.level) : Climbs stop last n := by
  induction n using Nat.strongRecOn with
  | ind n ih =>
    intro least f hf
    have hnext := Stream.next_ahead f.first.token f.rest stop last
    have hlevel : 2 ≤ (ahead f.rest stop last).current.kind.level := by
      cases hrest : f.rest with
      | nil => exact Nat.le_of_succ_le hstop
      | cons p rest => exact Nat.le_of_eq p.1.level_eq.symm
    have hfirst := took_unaryExpr (g := ofDepth n) (o := f.first)
      (s := ⟨f.first.token, tokensOf f.rest ++ stop :: last⟩) rfl (hnext ▸ hlevel)
    rw [hnext] at hfirst
    have hloop := took_loop (Kind.isBinaryOp_of_level hstop) (fun m hm => ih m (by omega))
      (reach_operand least f.first f.rest) hf (Nat.lt_succ_of_le (length_le_weight f.rest stop last))
    obtain ⟨t, rest, htook, ht⟩ := hloop
    exact ⟨t, rest, took_bind.2 ⟨_, _, hfirst, took_iterate.2 htook⟩, ht⟩

/-! ## Formulas as statements -/

/-- Where operators end and nothing that joins expressions follows, so does the expression. -/
theorem took_sequenceExpr (h : Took (g.binaryExpr 1) s x s') (hend : 6 ≤ s'.current.kind.level) :
    Took g.sequenceExpr s x s' := by
  have hne (c : Symbol) (hc : c.level < 6) : s'.current.kind ≠ .symbol c := by
    intro hk
    rw [hk] at hend
    exact absurd hc (Nat.not_lt.2 hend)
  have hternary : Took g.ternaryExpr s x s' := took_bind.2 ⟨x, s', h, took_bind.2 ⟨false, s',
    took_got.2 (.inr ⟨hne .question (by decide), rfl, rfl⟩), took_pure.2 ⟨rfl, rfl⟩⟩⟩
  have hassign : Took g.assignExpr s x s' := by
    refine took_bind.2 ⟨_, s, took_current.2 ⟨rfl, rfl⟩, took_bind.2 ⟨x, s', hternary, ?_⟩⟩
    refine took_bind.2 ⟨_, s', took_current.2 ⟨rfl, rfl⟩, ?_⟩
    rw [if_pos (by simp [Kind.isAssignment_of_level (Nat.le_of_succ_le hend)])]
    exact took_pure.2 ⟨rfl, rfl⟩
  exact took_bind.2 ⟨x, s', hassign, took_bind.2 ⟨false, s',
    took_got.2 (.inr ⟨hne .comma (by decide), rfl, rfl⟩), took_pure.2 ⟨rfl, rfl⟩⟩⟩

/-- All operators bind tight enough for a statement. -/
theorem took_statement {semi : Token} (hsemi : semi.kind = .symbol .semicolon) (eof : Token) (f : Formula)
    (hf : f.rest.length ≤ n) : ∃ t : OpTree, t.formula = f ∧ t.Ordered ∧
    Took (ofDepth n).statement ⟨f.first.token, tokensOf f.rest ++ [semi, eof]⟩ (.exprStmt t.node)
      ⟨eof, []⟩ := by
  have hstop : 6 ≤ semi.kind.level := by rw [hsemi]; decide
  obtain ⟨t, rest, htook, ht⟩ := climbs [eof] (Nat.le_trans (by decide) hstop) 1 f hf
  obtain rfl : rest = [] := by
    cases rest with
    | nil => rfl
    | cons p rest => exact absurd (ht.stops p rfl) (Nat.not_lt.2 p.1.precedence_pos)
  have hplain : startsPlain f.first.token.kind = true := by
    obtain h | h | h | h | h := f.first.kind_cases <;> rw [h] <;> rfl
  refine ⟨t, by simpa [Formula.append] using ht.formula, ht.ordered, ?_⟩
  refine (statement_plain (g := ofDepth n) hplain).trans
    (took_bind.2 ⟨_, _, took_sequenceExpr htook hstop, ?_⟩)
  exact took_bind.2 ⟨(), _, took_expectSemi.2 (.inl ⟨hsemi, rfl⟩), took_pure.2 ⟨rfl, rfl⟩⟩

/-- One statement and then the end. -/
theorem readTokens_one {ts : List Token} (hts : Stream.ofTokens ts = s)
    (h : Took (ofDepth s.weight).statement s x s') (hs : s.current.kind ≠ .eof) (hs' : s'.current.kind = .eof) :
    readTokens ts = ([x], none) := by
  have hrun : (ofStream s).stmt.run s = .ok (x, s') := h
  obtain ⟨w, hw⟩ : ∃ w, s.weight = w + 1 := by
    refine Nat.exists_eq_succ_of_ne_zero fun hzero => ?_
    simp only [Stream.weight, Token.weight] at hzero
    split at hzero <;> omega
  show (ofStream (.ofTokens ts)).statements ((Stream.ofTokens ts).weight + 1) (.ofTokens ts) = _
  rw [hts, statements, if_neg hs, hrun]
  simp only [hw, statements, if_pos hs']

end Grammar

/-- A formula with a semicolon behind it is one statement, whose tree is ordered, and the only ordered
tree of the formula. -/
theorem parseTokens_formula (f : Formula) (semi eof : Token) (hsemi : semi.kind = .symbol .semicolon)
    (heof : eof.kind = .eof) : ∃ t : OpTree,
    parseTokens (f.tokens ++ [semi, eof]) = .ok (.program [.exprStmt t.node]) ∧
      t.formula = f ∧ t.Ordered ∧ ∀ u : OpTree, u.formula = f → u.Ordered → u = t := by
  have hstream : Stream.ofTokens (f.tokens ++ [semi, eof]) =
      ⟨f.first.token, tokensOf f.rest ++ [semi, eof]⟩ := by
    have h := @ofTokens_eq (f.tokens ++ [semi]) eof heof
    rw [append_assoc] at h
    exact (Stream.mk.injEq ..).mpr (List.cons.inj h)
  have hlength : f.rest.length ≤ Stream.weight ⟨f.first.token, tokensOf f.rest ++ [semi, eof]⟩ := by
    have h := Token.length_le_weightAll (tokensOf f.rest ++ [semi, eof])
    simp only [length_append, length_tokensOf] at h
    simp only [Stream.weight]
    omega
  obtain ⟨t, rfl, ht, htook⟩ := Grammar.took_statement hsemi eof f hlength
  refine ⟨t, ?_, rfl, ht, fun u hu hordered => hordered.unique ht hu⟩
  have hfirst : t.formula.first.token.kind ≠ .eof := by
    obtain h | h | h | h | h := t.formula.first.kind_cases <;> simp [h]
  rw [parseTokens, Grammar.readTokens_one hstream htook hfirst heof]

namespace Formula

def name (data : String) : Operand := ⟨⟨.ident, .point .start, data⟩, rfl⟩

def op (c : Symbol) (h : (Kind.symbol c).isBinaryOp = true) : Operator := ⟨⟨.symbol c, .point .start, ""⟩, h⟩

/-- The formula `a || b == c - d - e * a`. -/
def mixed : Formula :=
  ⟨name "a", [(op .barBar rfl, name "b"), (op .equal rfl, name "c"), (op .minus rfl, name "d"),
    (op .minus rfl, name "e"), (op .star rfl, name "a")]⟩

/-- The tree of `a || (b == ((c - d) - (e * a)))`. -/
def mixedTree : OpTree :=
  .join (op .barBar rfl) (.operand (name "a")) (.join (op .equal rfl) (.operand (name "b"))
    (.join (op .minus rfl) (.join (op .minus rfl) (.operand (name "c")) (.operand (name "d")))
      (.join (op .star rfl) (.operand (name "e")) (.operand (name "a")))))

end Formula

theorem parseTokens_formula_mixed : parseTokens (Formula.mixed.tokens ++
    [⟨.symbol .semicolon, .point .start, ""⟩, .ending]) =
      .ok (.program [.exprStmt (.logical "||" (.ident "a") (.binary "==" (.ident "b")
        (.binary "-" (.binary "-" (.ident "c") (.ident "d")) (.binary "*" (.ident "e") (.ident "a")))))]) := by
  obtain ⟨t, hparse, -, -, hunique⟩ := parseTokens_formula Formula.mixed
    ⟨.symbol .semicolon, .point .start, ""⟩ .ending rfl rfl
  have hordered : Formula.mixedTree.Ordered := by
    simp [Formula.mixedTree, OpTree.Ordered, OpTree.precedence?, Operator.precedence, Formula.op, Kind.precedence,
      Symbol.precedence]
  rw [hparse, ← hunique Formula.mixedTree rfl hordered]
  rfl

end ScriptTyping
