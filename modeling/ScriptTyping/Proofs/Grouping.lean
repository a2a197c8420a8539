import ScriptTyping.Proofs.Rereading

/-!
# Grouping

The text of a program shows how it is grouped: two programs with the same text are the same. This also holds
where the text is not accepted again, as that of `(c++).d`, which is `c++.d`. It fails where a sign comes before
a sign, and where something is applied to an operator that stands before its operand (`signs_collide`).

Main statement: `eq_of_text_eq`. A text shows its pieces (`spell_injective`): from the left, each piece can be
told by the piece before it and the characters that follow. So the two programs have the same pieces, blanks
included, and these are read by one lenient grammar, which gives both programs. The blanks show whether a brace
at the start of a statement opens an object (`discerns_spaced`).
-/

namespace ScriptTyping

open Piece ScriptTyping.Parser List
open Node hiding ident

variable {b : Bool} {body : List Node} {ps rest : List Piece} {x : Node} {t : Terminal}

/-! ## Texts show their pieces -/

section Injective

variable {loose : Bool} {p q r : Piece} {ps qs : List Piece} {c : Char}

/-- Operators stand behind blanks only, closing brackets never do. -/
theorem Piece.eq_blank_of_fits (h : p.fits loose q) (hclosing : q ≠ closing) (hblank : q ≠ blank)
    (htrails : q.trails = false) (hleads : q.leads = false) : p = blank := by
  have hword : q.isWord = false := by
    cases q with
    | blank | closing => rfl
    | mark t =>
      obtain ⟨k, d⟩ := t
      cases k <;> simp_all [isWord, leads]
  have hparen : q ≠ symbol .openParen := by
    rintro rfl
    simp [trails] at htrails
  have hopening : q ≠ opening := by
    rintro rfl
    simp [trails] at htrails
  cases p with
  | blank => rfl
  | closing => simp [fits, hclosing, htrails, hword] at h
  | mark t =>
    obtain ⟨k, d⟩ := t
    cases k with
    | symbol s => cases s <;> simp_all [fits]
    | _ => simp_all [fits]

/-- A piece that starts with the mark of a symbol is one. -/
theorem Piece.Starts.symbol_of {s : Symbol} (h : p.Starts s.first)
    (hc : p = Piece.closing → s.first ≠ '>') : ∃ u d, p = mark ⟨.symbol u, d⟩ ∧ u.first = s.first := by
  obtain ⟨hblank, hident, hdecimal, hquote, -⟩ :=
    Symbol.chars_not _ (mem_of_mem_head? s.head_spelling)
  generalize s.first = c at h hc hblank hident hdecimal hquote
  cases h with
  | blank => exact absurd hblank (by decide)
  | closing => exact (hc rfl rfl).elim
  | word _ hstart => simp [Text.isIdentContinue_of_isIdentStart hstart] at hident
  | number hdec => simp [hdec] at hdecimal
  | string => exact (hquote rfl).elim
  | symbol => exact ⟨_, _, rfl, rfl⟩

theorem Piece.Starts.isWord_of (h : p.Starts c) (hc : Text.isIdentStart c) : p.isWord := by
  cases h with
  | word hp => exact hp
  | blank | closing | string => exact absurd hc (by decide)
  | number hdec => simp [isIdentStart_of_isDecimal hdec] at hc
  | @symbol s =>
    obtain ⟨-, hident, -⟩ := Symbol.chars_not _ (mem_of_mem_head? s.head_spelling)
    simp [Text.isIdentContinue_of_isIdentStart hc] at hident

end Injective

section First

variable {r p q : Piece} {ps qs : List Piece} {q' : Piece}

theorem eq_blank_of_angle (h : p.Starts '>') (hp : p ≠ Piece.closing) (hr : r.fits true p) : r = Piece.blank := by
  obtain ⟨u, d, rfl, hu⟩ := Piece.Starts.symbol_of (s := .greater) h fun h => (hp h).elim
  refine eq_blank_of_fits hr nofun nofun ?_ ?_ <;>
    cases u <;> simp_all [Symbol.first, Symbol.spelling, trails, leads]

/-- A keyword that is a name stands before a colon, where no keyword stands. -/
theorem ne_keyword {n : String} {k : Keyword} {d : String} (hp : (ident n :: p :: ps).IsChain (Before true))
    (hq : (mark ⟨.keyword k, d⟩ :: q :: qs).IsChain (Before true)) (hn : n.toList = k.spelling.toList)
    (h : spell (p :: ps) = spell (q :: qs)) : False := by
  obtain ⟨hp, hps⟩ := isChain_cons_cons.1 hp
  obtain ⟨hq, hqs⟩ := isChain_cons_cons.1 hq
  obtain hfree | ⟨-, rfl⟩ := hp.key rfl
  · rw [String.toList_inj.1 hn, k.ofSpelling?_spelling] at hfree
    cases hfree
  · have hstarts : q.Starts (Symbol.first .colon) := head_spell hqs hq.valid (by rw [← h]; rfl)
    obtain ⟨htrails, hne⟩ := Bool.and_eq_true_iff.1 hq.fits
    obtain ⟨u, e, rfl, hu⟩ := hstarts.symbol_of fun _ => by decide
    have hvalid := hq.valid
    cases u <;> simp_all [Symbol.first, Symbol.spelling, trails, Piece.Valid]

theorem first_word (hp : p.Valid) (hq : q.Valid) (hpw : p.isWord) (hqw : q.isWord) {p' : Piece}
    (hps : (p :: p' :: ps).IsChain (Before true)) (hqs : (q :: q' :: qs).IsChain (Before true))
    (h : spell (p :: p' :: ps) = spell (q :: q' :: qs)) : p = q := by
  obtain ⟨hp', hps'⟩ := isChain_cons_cons.1 hps
  obtain ⟨hq', hqs'⟩ := isChain_cons_cons.1 hqs
  rw [spell_cons, spell_cons (p := q)] at h
  have hchars : p.chars = q.chars := by
    rw [← takeWhile_word (hp.isWord_chars hpw) (not_isIdentContinue hpw hp' hps'), h,
      takeWhile_word (hq.isWord_chars hqw) (not_isIdentContinue hqw hq' hqs')]
  have hrest : spell (p' :: ps) = spell (q' :: qs) := by
    rwa [hchars, append_cancel_left_eq] at h
  cases p with
  | blank | closing => cases hpw
  | mark t =>
    cases q with
    | blank | closing => cases hqw
    | mark u =>
      obtain ⟨k, d⟩ := t
      obtain ⟨l, e⟩ := u
      cases k with
      | ident =>
        cases l with
        | ident => rw [String.toList_inj.1 (show d.toList = e.toList from hchars)]
        | keyword l => exact (ne_keyword hps hqs hchars hrest).elim
        | _ => cases hqw
      | keyword k =>
        obtain rfl : d = "" := hp
        cases l with
        | ident => exact (ne_keyword hqs hps hchars.symm hrest.symm).elim
        | keyword l =>
          obtain rfl : e = "" := hq
          have hk := k.ofSpelling?_spelling
          rw [String.toList_inj.1 (show k.spelling.toList = l.spelling.toList from hchars),
            l.ofSpelling?_spelling] at hk
          rw [Option.some.inj hk]
        | _ => cases hqw
      | _ => cases hpw

/-- Two opening brackets are not taken for an operator: behind it there is a blank. -/
theorem first_double (hp : (opening :: opening :: p :: ps).IsChain (Before true)) (hqv : q.Valid)
    (hq : (q :: q' :: qs).IsChain (Before true))
    (h : spell (opening :: opening :: p :: ps) = spell (q :: q' :: qs)) : q = opening := by
  obtain ⟨-, hp⟩ := isChain_cons_cons.1 hp
  obtain ⟨hp, hps⟩ := isChain_cons_cons.1 hp
  obtain ⟨hq', -⟩ := isChain_cons_cons.1 hq
  have hstarts : q.Starts (Symbol.first .less) := head_spell hq hqv (by rw [← h]; rfl)
  obtain ⟨u, e, rfl, hu⟩ := hstarts.symbol_of fun _ => by decide
  -- What stands behind two opening brackets starts with a letter or a bracket.
  have hnext (c : Char) (cs : List Char) (hc : spell (p :: ps) = c :: cs) : c ≠ ' ' ∧ c ≠ '=' := by
    have hc := head_spell (c := c) hps hp.valid (by simp [hc])
    have hfits : (p.isWord || p = Piece.symbol .openParen || (true && p = opening)) = true := hp.fits
    simp only [Bool.or_eq_true, Bool.and_eq_true, decide_eq_true_eq] at hfits
    obtain (hw | rfl) | ⟨-, rfl⟩ := hfits
    · have hstart := hc.of_isWord hw
      constructor <;> rintro rfl <;> exact absurd hstart (by decide)
    · cases hc with
      | symbol => decide
      | word hw => cases hw
    · cases hc with
      | symbol => decide
      | word hw => cases hw
  have hblank (hne : mark ⟨.symbol u, e⟩ ≠ opening) : q' = Piece.blank := by
    have hfits := hq'.fits
    cases u <;> simp_all [Symbol.first, Symbol.spelling, Piece.fits, Piece.Valid]
  by_cases hopening : mark ⟨.symbol u, e⟩ = opening
  · exact hopening
  · obtain rfl := hblank hopening
    rw [spell_cons, spell_cons] at h
    generalize spell (p :: ps) = text at h hnext
    cases u <;> simp_all [Symbol.first, Symbol.spelling, Terminal.chars]

/-- Two opening brackets behind each other, and what is behind them. -/
theorem exists_double (ht : (mark t).Valid) (h : (mark t :: (ps ++ [ending])).IsChain (Before true))
    (hk : t.kind = .symbol .less) {qs : List Piece} (hqs : ps ++ [ending] = opening :: qs) :
    mark t = opening ∧ ∃ p rs, ps ++ [ending] = opening :: p :: rs := by
  constructor
  · have hfits := (isChain_cons_cons.1 (hqs ▸ h)).1.fits
    obtain ⟨k, d⟩ := t
    obtain rfl : k = .symbol .less := hk
    obtain rfl | ⟨-, rfl⟩ : d = "" ∨ _ ∧ d = "<" := ht
    · cases hfits
    · rfl
  · cases ps with
    | nil => simp at hqs
    | cons p ps =>
      obtain ⟨rfl, -⟩ := List.cons.inj hqs
      obtain ⟨q, rs, hrs⟩ : ∃ q rs, ps ++ [ending] = q :: rs := exists_cons_of_ne_nil (by simp)
      exact ⟨q, rs, by rw [cons_append, hrs]⟩

theorem eq_blank_of_starts (h : p.Starts ' ') : p = Piece.blank := by
  by_cases hp : p = Piece.blank
  · exact hp
  · exact absurd (h.isBlank hp) (by decide)

/-- Behind the operator there is a blank, behind the bracket there is none. -/
theorem ne_less (hp : Before true opening p) (hps : (p :: ps).IsChain (Before true))
    (hq : Before true (Piece.symbol .less) q) (h : spell (p :: ps) = spell (q :: qs)) : False := by
  obtain rfl : q = Piece.blank := by simpa [Piece.fits] using hq.fits
  obtain rfl := eq_blank_of_starts (head_spell hps hp.valid (by rw [h]; rfl))
  exact absurd hp.fits (by decide)

theorem first_mark {u : Terminal} (ht : (mark t).Valid) (hu : (mark u).Valid) (htw : (mark t).isWord = false)
    (huw : (mark u).isWord = false) (hp : (mark t :: (ps ++ [ending])).IsChain (Before true))
    (hq : (mark u :: (qs ++ [ending])).IsChain (Before true))
    (h : spell (mark t :: (ps ++ [ending])) = spell (mark u :: (qs ++ [ending]))) : t = u := by
  have hnext (rs : List Piece) : ∃ r rs', rs ++ [ending] = r :: rs' := exists_cons_of_ne_nil (by simp)
  have hnot {t : Terminal} (htw : (mark t).isWord = false) : t.kind ≠ .ident := by
    intro hk
    simp [isWord, hk] at htw
  obtain ⟨p', ps', hps⟩ := hnext ps
  obtain ⟨q', qs', hqs⟩ := hnext qs
  by_cases hpd : t.kind = .symbol .less ∧ p' = opening
  · obtain ⟨heq, p'', ps'', hps'⟩ := exists_double ht hp hpd.1 (hpd.2 ▸ hps)
    rw [hps', heq] at hp h
    rw [hqs] at hq h
    exact mark.inj (heq.trans (first_double hp hu hq h).symm)
  by_cases hqd : u.kind = .symbol .less ∧ q' = opening
  · obtain ⟨heq, q'', qs'', hqs'⟩ := exists_double hu hq hqd.1 (hqd.2 ▸ hqs)
    rw [hqs', heq] at hq h
    rw [hps] at hp h
    exact mark.inj ((first_double hq ht hp h.symm).trans heq.symm)
  rw [hps] at hp h
  rw [hqs] at hq h
  obtain ⟨hp', hps'⟩ := isChain_cons_cons.1 hp
  obtain ⟨hq', hqs'⟩ := isChain_cons_cons.1 hq
  have hend {t : Terminal} {p : Piece} (h : Before true (mark t) p) : mark t ≠ ending := by
    intro hend
    rw [hend] at h
    exact absurd h.fits (by simp [Piece.fits])
  have hlt := lexes_mark ht (hend hp') hp' hps' hpd fun hk => (hnot htw hk).elim
  have hlu := lexes_mark hu (hend hq') hq' hqs' hqd fun hk => (hnot huw hk).elim
  rw [show t.chars ++ spell (p' :: ps') = u.chars ++ spell (q' :: qs') from h] at hlt
  obtain ⟨hkind, hcontent, hrest⟩ := hlt.unique hlu
  obtain ⟨k, d⟩ := t
  obtain ⟨l, e⟩ := u
  obtain rfl : k = l := hkind
  cases k with
  | number | string => rw [show d = e from hcontent]
  | symbol s =>
    obtain rfl | ⟨rfl, rfl⟩ : d = "" ∨ s = .less ∧ d = "<" := ht
    · obtain rfl | ⟨rfl, rfl⟩ : e = "" ∨ s = .less ∧ e = "<" := hu
      · rfl
      · exact (ne_less hq' hqs' hp' hrest.symm).elim
    · obtain rfl | ⟨-, rfl⟩ : e = "" ∨ _ ∧ e = "<" := hu
      · exact (ne_less hp' hps' hq' hrest).elim
      · rfl
  | eof => rw [show d = "" from ht, show e = "" from hu]
  | ident | keyword => cases htw
  | illegal | unknown => exact ht.elim

/-- The first piece of a text is shown by the text and by the piece before it. -/
theorem first_eq (hp : (r :: p :: (ps ++ [ending])).IsChain (Before true))
    (hq : (r :: q :: (qs ++ [ending])).IsChain (Before true))
    (h : spell (p :: (ps ++ [ending])) = spell (q :: (qs ++ [ending]))) : p = q := by
  obtain ⟨hrp, hps⟩ := isChain_cons_cons.1 hp
  obtain ⟨hrq, hqs⟩ := isChain_cons_cons.1 hq
  obtain ⟨c, hc, hpc⟩ : ∃ c, c ∈ (spell (p :: (ps ++ [ending]))).head? ∧ p.Starts c := by
    obtain rfl | ⟨c, hc, hstarts⟩ := hrp.valid.starts
    · obtain ⟨p', rs, hrs⟩ : ∃ p' rs, ps ++ [ending] = p' :: rs := exists_cons_of_ne_nil (by simp)
      exact absurd (isChain_cons_cons.1 (hrs ▸ hps)).1.fits nofun
    · exact ⟨c, by simp [hc], hstarts⟩
  have hqc : q.Starts c := head_spell hqs hrq.valid (h ▸ hc)
  have hangle {p : Piece} (hp : p.Starts '>') (hrp : Before true r p) (hr : r.fits true Piece.closing) :
      p = Piece.closing := by
    by_cases hclosing : p = Piece.closing
    · exact hclosing
    · rw [eq_blank_of_angle hp hclosing hrp.fits] at hr
      cases hr
  cases p with
  | blank => exact (eq_blank_of_starts (hpc.eq_blank ▸ hqc)).symm
  | closing =>
    have hc : c = '>' := by
      cases hpc with
      | closing => rfl
      | word hw => cases hw
    exact (hangle (hc ▸ hqc) hrq hrp.fits).symm
  | mark t =>
    cases q with
    | blank => exact eq_blank_of_starts (hqc.eq_blank ▸ hpc)
    | closing =>
      have hc : c = '>' := by
        cases hqc with
        | closing => rfl
        | word hw => cases hw
      exact hangle (hc ▸ hpc) hrp hrq.fits
    | mark u =>
      cases htw : (mark t).isWord with
      | true =>
        have huw := hqc.isWord_of (hpc.of_isWord htw)
        obtain ⟨p', ps', hps'⟩ : ∃ r rs, ps ++ [ending] = r :: rs := exists_cons_of_ne_nil (by simp)
        obtain ⟨q', qs', hqs'⟩ : ∃ r rs, qs ++ [ending] = r :: rs := exists_cons_of_ne_nil (by simp)
        rw [hps'] at hps h
        rw [hqs'] at hqs h
        exact first_word hrp.valid hrq.valid htw huw hps hqs h
      | false =>
        have huw : (mark u).isWord = false := by
          cases huw : (mark u).isWord with
          | false => rfl
          | true => rw [hpc.isWord_of (hqc.of_isWord huw)] at htw; cases htw
        rw [first_mark hrp.valid hrq.valid htw huw hps hqs h]

end First

/-- Pieces that stand beside each other as they may are shown by their text. -/
theorem spell_injective {r : Piece} {qs : List Piece} (hp : (r :: (ps ++ [ending])).IsChain (Before true))
    (hq : (r :: (qs ++ [ending])).IsChain (Before true)) (h : spell ps = spell qs) : ps = qs := by
  -- A text that is not at its end has a first character.
  have hne {r p : Piece} {ps : List Piece} (h : (r :: p :: (ps ++ [ending])).IsChain (Before true)) :
      spell (p :: ps) ≠ [] := by
    obtain ⟨hp, hps⟩ := isChain_cons_cons.1 h
    obtain rfl | ⟨c, hc, -⟩ := hp.valid.starts
    · obtain ⟨q, rs, hrs⟩ : ∃ q rs, ps ++ [ending] = q :: rs := exists_cons_of_ne_nil (by simp)
      exact absurd (isChain_cons_cons.1 (hrs ▸ hps)).1.fits nofun
    · intro hnil
      have hnil := (append_eq_nil_iff.1 hnil).1
      simp [hnil] at hc
  induction ps generalizing r qs with
  | nil =>
    cases qs with
    | nil => rfl
    | cons q qs => exact (hne hq h.symm).elim
  | cons p ps ih =>
    cases qs with
    | nil => exact (hne hp h).elim
    | cons q qs =>
      obtain rfl : p = q := first_eq hp hq (by simpa [Terminal.chars] using h)
      rw [ih (isChain_cons_cons.1 hp).2 (isChain_cons_cons.1 hq).2 (append_cancel_left h)]

/-! ## Tokens with blanks -/

/-- A token, by its position known to have a blank before it or not. -/
def tokenAt (spaced : Bool) (k : Kind) (data : String) : Token := ⟨k, .point ⟨spaced.toInt, 0, 0⟩, data⟩

/-- Whether there is a blank before a token. -/
def Token.spaced (t : Token) : Bool := t.span.first.offset = 1

/-- The tokens that some pieces make, behind a blank or not. -/
def tokensOf : Bool → List Piece → List Token
  | _, [] => []
  | _, blank :: ps => tokensOf true ps
  | b, mark t :: ps => tokenAt b t.kind t.content :: tokensOf false ps
  | b, closing :: ps => tokenAt b (.symbol .greater) "" :: tokensOf false ps

@[simp] theorem spaced_tokenAt {k : Kind} {data : String} : (tokenAt b k data).spaced = b := by
  cases b <;> rfl

theorem weight_le_tokensOf : weight ps ≤ Token.weightAll (tokensOf b ps) := by
  induction ps generalizing b with
  | nil => exact Nat.zero_le _
  | cons p ps ih =>
    have hpos (t : Token) : 1 ≤ t.weight := by
      unfold Token.weight
      split <;> decide
    cases p with
    | blank => exact ih
    | mark | closing =>
      simp only [weight, tokensOf, Token.weightAll]
      rw [Nat.add_comm]
      exact Nat.add_le_add (hpos _) ih

theorem next_tokensOf {s : Stream} (hs : s.rest = tokensOf b ps) (hps : (nextKind ps).isSome) :
    s.next.current :: s.next.rest = tokensOf b ps := by
  unfold Stream.next
  split
  next hnil =>
    have hle := @weight_le_tokensOf b ps
    have hpos := weight_pos hps
    rw [← hs, hnil, Token.weightAll] at hle
    omega
  next hcons => rw [← hs, hcons]

/-- The pieces of which the tokens of a stream are made. -/
def spacedView : View where
  shows s ps := ∃ b, s.current :: s.rest = tokensOf b ps
  skip := fun ⟨_, h⟩ => ⟨true, h⟩
  current := by
    rintro s t ps ⟨b, h⟩
    obtain ⟨hcurrent, -⟩ := List.cons.inj h
    rw [hcurrent]
    exact ⟨rfl, fun hk => by simp [tokenAt, Terminal.content, hk]⟩
  next := fun ⟨_, h⟩ hps => ⟨false, next_tokensOf (List.cons.inj h).2 hps⟩
  angle := fun ⟨_, h⟩ => .inl ((List.cons.inj h).1 ▸ rfl)
  close := fun ⟨_, h⟩ hps => ⟨_, took_expectCloseAngle.2 (.inl ⟨(List.cons.inj h).1 ▸ rfl, rfl⟩), false,
    next_tokensOf (List.cons.inj h).2 hps⟩
  weigh := by
    rintro s ps ⟨b, h⟩
    show _ ≤ Token.weightAll (s.current :: s.rest)
    exact h ▸ weight_le_tokensOf

theorem spacedView_exact : spacedView.Exact := by
  rintro s t ps ⟨b, h⟩
  rw [(List.cons.inj h).1]
  rfl

/-! ## Objects at the start of a statement -/

/-- Whether tokens start with an object and not with a block. Behind an empty object comes what is applied
to it, the end of the statement or an operator with its operand; behind the brace of any other comes a key. -/
def objectAhead : List Token → Bool
  | t :: a :: b :: ts =>
    decide (t.kind = .symbol .openBrace) &&
    if a.kind = .symbol .closeBrace then
      if b.spaced then (b.kind.isBinaryOp || decide (b.kind = .symbol .question)) && ts.head?.any Token.spaced
      else decide (b.kind ≠ .eof)
    else decide (a.kind = .ident) && decide (b.kind = .symbol .colon)
  | _ => false

theorem kind_tokensOf (b : Bool) (ps : List Piece) : (tokensOf b ps).head?.map Token.kind = nextKind ps := by
  induction ps generalizing b with
  | nil => rfl
  | cons p ps ih =>
    cases p with
    | blank => exact ih true
    | mark | closing => rfl

theorem spaced_tokensOf (h : (nextKind ps).isSome) : (tokensOf true ps).head?.any Token.spaced = true := by
  induction ps with
  | nil => cases h
  | cons p ps ih =>
    cases p with
    | blank => exact ih h
    | mark | closing => exact spaced_tokenAt

/-- What can come behind an object with which an expression starts. -/
inductive Follows : List Piece → Prop
  | nil : Follows []
  | glued {t : Terminal} {qs} (h : t.kind ≠ .eof) : Follows (mark t :: qs)
  | spaced {t : Terminal} {qs} (h : t.kind.isBinaryOp ∨ t.kind = .symbol .question) (hqs : (nextKind qs).isSome) :
    Follows (blank :: mark t :: blank :: qs)

theorem Follows.append (h : Follows ps) (hne : ps ≠ []) (qs : List Piece) : Follows (ps ++ qs) := by
  cases h with
  | nil => exact (hne rfl).elim
  | glued h => exact .glued h
  | spaced h hps =>
    obtain ⟨k, hk⟩ := Option.isSome_iff_exists.1 hps
    exact .spaced h (Option.isSome_iff_exists.2 ⟨k, nextKind_append hk qs⟩)

/-- The first token of an expression. If it is a name, no colon comes behind it, and if it is a brace, it
opens an object. -/
structure Node.Front (x : Node) (o : Bool) : Prop where
  name {t : Terminal} {qs rest : List Piece} (h : x.pieces o = mark t :: qs) (ht : t.kind = .ident)
    (hrest : Next (· ≠ .symbol .colon) rest) : Next (· ≠ .symbol .colon) (qs ++ rest)
  brace (h : nextKind (x.pieces o) = some (.symbol .openBrace)) : ∃ props tail,
    x.pieces o = bracedPieces (piecesProps props) ++ tail ∧ Follows tail ∧ (tail = [] → x = .object props)

section Front

variable {x y : Node} {o : Bool} {qs : List Piece}

theorem Node.Front.of_mark {t : Terminal} (hpieces : x.pieces o = mark t :: qs) (hname : t.kind ≠ .ident)
    (hbrace : t.kind ≠ .symbol .openBrace) : x.Front o where
  name h ht := by
    obtain ⟨⟨⟩, -⟩ := List.cons.inj (hpieces.symm.trans h)
    exact (hname ht).elim
  brace h := by
    rw [hpieces] at h
    exact (hbrace (Option.some.inj h)).elim

/-- An expression that starts with another. -/
theorem Node.Front.of_append (hy : y.Front true) (hphrase : Phrase .expr y)
    (hpieces : x.pieces o = y.pieces true ++ qs) (hcolon : Next (· ≠ .symbol .colon) qs)
    (hobject : ∀ props, y = .object props → Follows qs) : x.Front o := by
  obtain ⟨t, rs, hrs, -⟩ := hphrase.starts.operand
  constructor
  · intro u ls rest h hu hrest
    rw [hpieces, hrs, cons_append] at h
    obtain ⟨⟨⟩, rfl⟩ := List.cons.inj h
    rw [append_assoc]
    exact hy.name hrs hu (hcolon.append rest)
  · intro h
    rw [hpieces, hrs] at h
    obtain ⟨props, tail, htail, hfollows, hnil⟩ := hy.brace (by rw [hrs]; exact h)
    refine ⟨props, tail ++ qs, by rw [hpieces, htail, append_assoc], ?_, fun h => ?_⟩
    · by_cases htail : tail = []
      · subst htail
        exact hobject props (hnil rfl)
      · exact hfollows.append htail qs
    · obtain ⟨-, rfl⟩ := append_eq_nil_iff.1 h
      obtain ⟨k, hk, -⟩ := hcolon
      cases hk

theorem Node.Front.of_parens {core : List Piece} (hpieces : ∀ o, x.pieces o = parensPieces o core)
    (h : x.Front false) : x.Front o := by
  cases o with
  | false => exact h
  | true => exact .of_mark (hpieces true) nofun nofun

/-- An operand, an operator and more. -/
theorem Node.Front.of_between {c : Symbol} (hc : c.precedence ≠ 0 ∨ c = .question) (hy : y.Front true)
    (hphrase : Phrase .expr y)
    (hpieces : ∀ o, x.pieces o = parensPieces o (y.pieces true ++ blank :: symbol c :: blank :: qs))
    (hqs : (nextKind qs).isSome) : x.Front o := by
  refine .of_parens hpieces (.of_append hy hphrase (hpieces false) ⟨_, rfl, ?_⟩ fun _ _ => .spaced ?_ hqs)
  · rintro ⟨⟩
    exact absurd hc (by decide)
  · simpa [Kind.isBinaryOp, Kind.precedence] using hc

end Front

theorem Phrase.front (h : Phrase .expr x) (o : Bool) : x.Front o := by
  generalize hc : Category.expr = c at h
  induction h generalizing o with
  | literal h =>
    cases h with
    | number | string => exact .of_mark rfl nofun nofun
    | @bool value => cases value <;> exact .of_mark rfl nofun nofun
  | ident =>
    refine ⟨fun h _ hrest => ?_, nofun⟩
    obtain ⟨-, rfl⟩ := List.cons.inj h
    exact hrest
  | @binary c x y hprec _ _ hx hy ih =>
    refine .of_between (.inl hprec) (ih true hc) hx (fun _ => ?_) hy.starts.operand.next.isSome
    simp only [pieces, operator_spelling]
  | @logical c x y hsym hx hy ih =>
    have hprec : c.precedence ≠ 0 := by obtain rfl | rfl := hsym <;> decide
    refine .of_between (.inl hprec) (ih true hc) hx (fun _ => ?_) hy.starts.operand.next.isSome
    simp only [pieces, operator_spelling]
  | @unary c x hsym hx ih =>
    have hpieces : (Node.unary c.spelling x).pieces o = symbol c :: x.pieces true := by
      simp only [Node.pieces, operator_spelling]
    refine .of_mark hpieces nofun ?_
    obtain rfl | rfl | rfl | rfl := hsym <;> nofun
  | @update c x before hsym hx ih =>
    cases before with
    | true =>
      have hpieces : (Node.update c.spelling x true).pieces o = symbol c :: x.pieces true := by
        simp only [Node.pieces, operator_spelling, if_true]
      refine .of_mark hpieces nofun ?_
      obtain rfl | rfl := hsym <;> nofun
    | false =>
      have hpieces : (Node.update c.spelling x false).pieces o = x.pieces true ++ [symbol c] := by
        simp only [Node.pieces, operator_spelling, Bool.false_eq_true, if_false]
      refine .of_append (ih true hc) hx hpieces ⟨_, rfl, ?_⟩ fun _ _ => .glued nofun
      obtain rfl | rfl := hsym <;> nofun
  | @assign c x y hassign htarget hx _ ih =>
    have hpieces (o : Bool) : (Node.assign c.spelling x y).pieces o =
        parensPieces o (x.pieces true ++ blank :: symbol c :: blank :: y.pieces true) := by
      simp only [Node.pieces, operator_spelling]
    refine .of_parens hpieces (.of_append (ih true hc) hx (hpieces false) ⟨_, rfl, ?_⟩ fun props h => ?_)
    · rintro ⟨⟩
      cases hassign
    · subst h
      cases htarget
  | ternary hx hy _ ih =>
    exact .of_between (.inr rfl) (ih true hc) hx (fun _ => rfl) (hy.starts.operand.append _).next.isSome
  | call hx _ ih | index hx _ ih =>
    exact .of_append (ih true hc) hx rfl ⟨_, rfl, nofun⟩ fun _ _ => .glued nofun
  | @member x name arrow hx _ ih =>
    cases arrow <;> exact .of_append (ih true hc) hx rfl ⟨_, rfl, nofun⟩ fun _ _ => .glued nofun
  | await => exact .of_parens (fun _ => rfl) (.of_mark rfl nofun nofun)
  | sequence | array => exact .of_mark rfl nofun nofun
  | @object ps =>
    refine ⟨fun h ht => ?_, fun _ => ⟨ps, [], (append_nil _).symm, .nil, fun _ => rfl⟩⟩
    obtain ⟨⟨⟩, -⟩ := List.cons.inj ((Grammar.bracedPieces_eq _).symm.trans h)
    cases ht
  | structLit =>
    refine ⟨fun h _ _ => ?_, nofun⟩
    obtain ⟨-, rfl⟩ := List.cons.inj h
    rw [pieces, Grammar.bracedPieces_eq]
    exact ⟨_, rfl, nofun⟩
  | @lambda sig body =>
    have hpieces : (Node.lambda sig (.block body)).pieces false =
        sig.headPieces ++ (sig.pieces ++ blank :: (Node.block body).pieces false) := rfl
    refine .of_parens (fun _ => rfl) ?_
    unfold Signature.headPieces at hpieces
    split at hpieces <;> exact .of_mark hpieces nofun nofun
  | _ => cases hc

/-- A statement that starts with a brace is an expression that starts with an object, or a block. -/
theorem Phrase.object_or_block (h : Phrase .stmt x) (hk : nextKind (x.pieces false) = some (.symbol .openBrace)) :
    x.LeadsObject ∨ ∃ body, x = .block body := by
  have hhead (sig : Signature) (qs : List Piece) :
      nextKind (sig.headPieces ++ qs) ≠ some (.symbol .openBrace) := by
    unfold Signature.headPieces
    split <;> nofun
  cases h with
  | exprStmt hx =>
    obtain ⟨k, hnext, -⟩ := hx.next
    have hsame : nextKind ((Node.exprStmt _).pieces false) = some k := nextKind_append hnext _
    exact .inl (hnext.trans (hsame.symm.trans hk))
  | block => exact .inr ⟨_, rfl⟩
  | func => exact (hhead _ _ hk).elim
  | returns =>
    unfold pieces at hk
    split at hk <;> cases hk
  | forLoop | forLet =>
    rw [pieces_forLoop] at hk
    cases hk
  | _ => cases hk

theorem objectAhead_of_ne (h : nextKind ps ≠ some (.symbol .openBrace)) :
    objectAhead (tokensOf b ps) = false := by
  rw [← kind_tokensOf b] at h
  unfold objectAhead
  split
  next t _ _ _ heq =>
    have hk : t.kind ≠ .symbol .openBrace := by simpa [heq] using h
    simp [hk]
  next => rfl

/-- Behind the brace there is no key. -/
theorem objectAhead_of_second {t a : Token} {ts : List Token} (ha : a.kind ≠ .symbol .closeBrace)
    (hcolon : a.kind = .ident → ts.head?.map Token.kind ≠ some (.symbol .colon)) :
    objectAhead (t :: a :: ts) = false := by
  cases ts with
  | nil => rfl
  | cons b ts =>
    simp only [objectAhead, ha, if_false, Bool.and_eq_false_imp, decide_eq_true_eq, decide_eq_false_iff_not]
    intro _ hname hb
    exact hcolon hname (congrArg some hb)

theorem objectAhead_object {props : List (String × Node)} {tail : List Piece} (h : Follows tail) :
    objectAhead (tokensOf b (bracedPieces (piecesProps props) ++
      (tail ++ symbol .semicolon :: rest))) = true := by
  rw [Grammar.bracedPieces_eq]
  cases props with
  | nil =>
    cases h with
    | nil => rfl
    | @glued t qs hk => exact decide_eq_true hk
    | @spaced t qs hk hqs =>
      have hsome : (nextKind (qs ++ symbol .semicolon :: rest)).isSome := by
        obtain ⟨k, hk⟩ := Option.isSome_iff_exists.1 hqs
        exact Option.isSome_iff_exists.2 ⟨k, nextKind_append hk _⟩
      show ((t.kind.isBinaryOp || decide (t.kind = .symbol .question)) &&
        (tokensOf true (qs ++ symbol .semicolon :: rest)).head?.any Token.spaced) = true
      rw [spaced_tokensOf hsome, Bool.and_true]
      simpa using hk
  | cons q props =>
    obtain ⟨qs, hqs⟩ := Grammar.exists_intercalate_cons [symbol .comma, blank]
      (ident q.1 :: symbol .colon :: blank :: q.2.pieces false) (piecesProps props)
    have hclosed : Grammar.closedPieces (piecesProps (q :: props)) = blank :: ident q.1 :: symbol .colon ::
        (blank :: (q.2.pieces false ++ qs) ++ [blank, symbol .closeBrace]) := by
      show blank :: commas (piecesProps (q :: props)) ++ [blank, symbol .closeBrace] = _
      rw [piecesProps, commas, hqs]
      rfl
    rw [hclosed]
    rfl

/-- A name with which a statement starts is no key. -/
theorem Phrase.not_key (h : Phrase .stmt x) {qs : List Piece} (hx : x.pieces false = mark t :: qs)
    (ht : t.kind = .ident) : Next (· ≠ .symbol .colon) qs := by
  obtain ⟨k, d⟩ := t
  obtain rfl : k = .ident := ht
  cases h with
  | @exprStmt y hy =>
    have hx : y.pieces false ++ [symbol .semicolon] = _ := hx
    cases hpieces : y.pieces false with
    | nil => simp [hpieces] at hx
    | cons p ps =>
      rw [hpieces] at hx
      obtain ⟨rfl, rfl⟩ := List.cons.inj hx
      exact (hy.front false).name hpieces rfl ⟨_, rfl, nofun⟩
  | block =>
    unfold pieces at hx
    split at hx <;> cases hx
  | func =>
    have hx : Signature.headPieces _ ++ _ = _ := hx
    unfold Signature.headPieces at hx
    split at hx <;> cases hx
  | returns =>
    unfold pieces at hx
    split at hx <;> cases hx
  | forLoop | forLet =>
    rw [pieces_forLoop] at hx
    cases hx
  | _ => cases hx

theorem objectAhead_block (hbody : ∀ x ∈ body, Phrase .stmt x) (h : Apart rest) :
    objectAhead (tokensOf b ((block body).pieces false ++ rest)) = false := by
  cases body with
  | nil =>
    obtain rfl | ⟨qs, rfl, t, rs, rfl, hk, hop⟩ := h
    · rfl
    · show ((t.kind.isBinaryOp || decide (t.kind = .symbol .question)) &&
        (tokensOf false rs).head?.any Token.spaced) = false
      cases hbinary : t.kind.isBinaryOp with
      | false => simp [hk]
      | true =>
        obtain ⟨u, us, rfl⟩ := hop hbinary
        exact (Bool.and_eq_false_imp.2 fun _ => spaced_tokenAt)
  | cons y ys =>
    obtain ⟨hy, -⟩ := forall_mem_cons.1 hbody
    obtain ⟨t, qs, hqs, hk, -⟩ := hy.leads
    obtain ⟨rs, hrs⟩ := Grammar.exists_intercalate_cons [blank] (y.pieces false) (piecesAll ys)
    have hpieces : (block (y :: ys)).pieces false = symbol .openBrace :: blank :: mark t ::
        (qs ++ (rs ++ [blank, symbol .closeBrace])) := by
      show symbol .openBrace :: blank :: ([blank].intercalate (piecesAll (y :: ys)) ++
        [blank, symbol .closeBrace]) = _
      rw [piecesAll, hrs, hqs]
      simp
    rw [hpieces]
    refine objectAhead_of_second hk.1 fun ht => ?_
    obtain ⟨k, hnext, hne⟩ := hy.not_key hqs ht
    rw [kind_tokensOf]
    exact fun h => hne (Option.some.inj ((nextKind_append (nextKind_append hnext _) rest).symm.trans h))

/-- The blanks in a text show whether a statement starts with an object. -/
theorem discerns_spaced : Discerns spacedView true fun s => objectAhead (s.current :: s.rest) := by
  rintro x s rest hx - ⟨b, hs⟩ hF
  simp only [hs]
  by_cases hk : nextKind (x.pieces false) = some (.symbol .openBrace)
  · obtain hlead | ⟨body, rfl⟩ := hx.object_or_block hk
    · cases hx with
      | exprStmt hx =>
        obtain ⟨props, tail, htail, hfollows, -⟩ := (hx.front false).brace hlead
        refine iff_of_true ?_ hlead
        simp only [pieces, htail, append_assoc]
        exact objectAhead_object hfollows
      | _ => exact hlead.elim
    · cases hx with
      | block hbody => exact iff_of_false (by simp [objectAhead_block hbody hF.apart]) id
  · obtain ⟨k, hnext, -⟩ := hx.leads.next
    have hne : nextKind (x.pieces false ++ rest) ≠ some (.symbol .openBrace) := by
      rwa [nextKind_append hnext, ← hnext]
    refine iff_of_false (by simp [objectAhead_of_ne hne]) fun hlead => hk ?_
    cases hx with
    | exprStmt => exact nextKind_append hlead _
    | _ => exact hlead.elim

/-! ## Grouping -/

namespace Node

/-- What is asked of each node so that the text of a tree shows how it is grouped: no `+` or `-` stands before
an operator that starts with the same sign, nothing is applied to an operator that stands before its
operand, texts hold only what a quoted text can show, and keys have the shape of names. -/
def Grouped : Node → Prop
  | unary op x => op = "+" ∨ op = "-" → x.sign ≠ op.toList.head?
  | update _ x false | call x _ | member x _ _ | index x _ => x.sign = none
  | string value => ∀ c ∈ value.toList, Readable c
  | object props => ∀ q ∈ props, IsWord q.1.toList
  | _ => True

theorem Grouped.legible (h : x.Grouped) : x.Legible true := by
  cases x with
  | unary | string => exact h
  | update op x before =>
    cases before with
    | true => trivial
    | false => exact ⟨h, fun _ => rfl⟩
  | call | member | index => exact ⟨h, fun _ => rfl⟩
  | object => exact fun q hq => ⟨h q hq, .inr rfl⟩
  | array => exact fun _ _ _ => rfl
  | exprStmt => exact fun _ => rfl
  | type t =>
    cases t with
    | array | map | promise => exact fun _ => rfl
    | structRef name ts | enumRef name ts =>
      cases ts with
      | nil => trivial
      | cons => exact fun _ => rfl
    | _ => trivial
  | _ => trivial

end Node

instance : DecidablePred Node.Grouped
  | .unary op x => inferInstanceAs (Decidable (op = "+" ∨ op = "-" → x.sign ≠ op.toList.head?))
  | .update _ x false | .call x _ | .member x _ _ | .index x _ => inferInstanceAs (Decidable (x.sign = none))
  | .string value => List.decidableBAll Readable value.toList
  | .object props => inferInstanceAs (Decidable (∀ q ∈ props, IsWord q.1.toList))
  | .update _ _ true | .array _ | .exprStmt _ | .type _ | .missing | .program _ | .block _ | .ifElse ..
  | .whileLoop .. | .forLoop .. | .returns _ | .breaks | .continues | .lets _ | .var _ | .func ..
  | .structDecl _ | .enumDecl _ | .number .. | .bool _ | .ident _ | .binary .. | .logical .. | .assign ..
  | .ternary .. | .sequence _ | .await _ | .structLit .. | .lambda .. => isTrue trivial

/-- Programs of which the pieces are the same are the same. -/
theorem eq_of_pieces_eq {body' : List Node} (hbody : ∀ x ∈ body, Phrase .stmt x)
    (hbody' : ∀ x ∈ body', Phrase .stmt x) (hl : (program body).All (Node.Legible true))
    (hl' : (program body').All (Node.Legible true))
    (h : (program body).pieces false = (program body').pieces false) : body = body' := by
  obtain ⟨t, ts, hts⟩ : ∃ t ts, tokensOf false ((program body).pieces false ++ [ending]) = t :: ts := by
    have hkind := kind_tokensOf false ((program body).pieces false ++ [ending])
    obtain ⟨k, hk⟩ := Option.isSome_iff_exists.1
      (@isSome_nextKind ((program body).pieces false) [ending] rfl)
    cases hts : tokensOf false ((program body).pieces false ++ [ending]) with
    | nil =>
      rw [hts, hk] at hkind
      cases hkind
    | cons t ts => exact ⟨t, ts, rfl⟩
  have hread := lenient_statements (s := ⟨t, ts⟩) spacedView_exact discerns_spaced hbody hl ⟨false, hts.symm⟩
  have hread' := lenient_statements (s := ⟨t, ts⟩) spacedView_exact discerns_spaced hbody' hl'
    ⟨false, h ▸ hts.symm⟩
  exact congrArg Prod.fst (hread.symm.trans hread')

/-- Two programs with the same text are the same. -/
theorem eq_of_text_eq {source other : String} {p q : Node} (hp : parseProgram source = .ok p)
    (hq : parseProgram other = .ok q) (hgroup : ∀ n ∈ p.walk fun _ => true, n.Grouped)
    (hgroup' : ∀ n ∈ q.walk fun _ => true, n.Grouped) (htext : p.text = q.text) : p = q := by
  obtain ⟨body, rfl, hbody⟩ := phrases_of_parseProgram hp
  obtain ⟨body', rfl, hbody'⟩ := phrases_of_parseProgram hq
  have hl : (Node.program body).All (Node.Legible true) := fun n hn => (hgroup n hn).legible
  have hl' : (Node.program body').All (Node.Legible true) := fun n hn => (hgroup' n hn).legible
  have hspell : spell ((Node.program body).pieces false) = spell ((Node.program body').pieces false) := by
    rw [← Node.toList_render, ← Node.toList_render]
    exact congrArg String.toList htext
  have hpieces := spell_injective (linked_program hbody hl) (linked_program hbody' hl') hspell
  rw [eq_of_pieces_eq hbody hbody' hl hl' hpieces]

/-- Parentheses that are written in one source and not in another, around a step that has a member. -/
theorem eq_of_text_eq_parens : ∃ p q, parseProgram "let x = (a-b)- (c++).d" = .ok p ∧
    parseProgram "let x=a-b-((c)++).d;" = .ok q ∧ (∀ n ∈ p.walk fun _ => true, n.Grouped) ∧
    (∀ n ∈ q.walk fun _ => true, n.Grouped) ∧ p.text = "let x = (a - b) - c++.d;" ∧ p = q := by
  have hparse : ∀ source ∈ ["let x = (a-b)- (c++).d", "let x=a-b-((c)++).d;"],
      (parseProgram source).toOption.any (fun p =>
        (∀ n ∈ p.walk fun _ => true, n.Grouped) ∧ p.text = "let x = (a - b) - c++.d;") = true := by
    decide +kernel
  obtain ⟨p, hp, hpsame⟩ := exists_of_any (hparse _ (.head _))
  obtain ⟨q, hq, hqsame⟩ := exists_of_any (hparse _ (.tail _ (.head _)))
  obtain ⟨hgroup, htext⟩ := of_decide_eq_true hpsame
  obtain ⟨hgroup', htext'⟩ := of_decide_eq_true hqsame
  exact ⟨p, q, hp, hq, hgroup, hgroup', htext,
    eq_of_text_eq hp hq hgroup hgroup' (htext.trans htext'.symm)⟩

/-- Two sources are read as programs that differ and have the same text. -/
def Collide (source other : String) : Prop :=
  ∃ p q, parseProgram source = .ok p ∧ parseProgram other = .ok q ∧ p.text = q.text ∧ p ≠ q

theorem collide_of_names {source other : String} (h : (parseProgram source).toOption.any (fun p =>
      (parseProgram other).toOption.any fun q => p.text = q.text ∧
        (p.walk fun _ => true).map nodeName ≠ (q.walk fun _ => true).map nodeName) = true) :
    Collide source other := by
  obtain ⟨p, hp, h⟩ := exists_of_any h
  obtain ⟨q, hq, h⟩ := exists_of_any h
  obtain ⟨htext, hnames⟩ := of_decide_eq_true h
  exact ⟨p, q, hp, hq, htext, fun hsame => hnames (hsame ▸ rfl)⟩

/-- Texts do not show everything: two signs look like a step down, and what is applied to an operator before
its operand looks as if it were applied to the operand. -/
theorem signs_collide : Collide "let x = - -a;" "let x = --a;" ∧ Collide "let x = (-a).b;" "let x = -a.b;" ∧
    Collide "let x = (-a)++;" "let x = -a++;" := by
  refine ⟨collide_of_names ?_, collide_of_names ?_, collide_of_names ?_⟩ <;> decide +kernel

end ScriptTyping
