import ScriptTyping.Proofs.Relexing

/-!
# Tokens tile their text

**Theorem (`tokenize_tiles`).** The tokens of a text cover parts of it that follow each other without
overlap, and the last token is the end of the text. Each token but that covers what it is written as.
What no token covers is a blank or stands in a comment that no token meets. Every place that a token
names has the line and the column that the text before it gives.

A text is first taken apart into gaps and lexemes, in the order in which they are read (`Tiles`), with
the places computed along the way. One step of this is the reading of one token (`Cursor.next_tile`), and
`Cursor.tiles_tokenize` is the induction over the steps. All that is said about offsets follows from
the lengths of gaps and lexemes.
-/

namespace ScriptTyping

open List Cursor StringBody

/-! ## Places -/

/-- The last end of a line in a text stands at `i`. In a text of one line, this is taken to be the
place before the first. -/
def IsLastNewline (cs : List Char) (i : Int) : Prop :=
  ('\n' ∉ cs ∧ i = -1) ∨ ∃ before after, cs = before ++ '\n' :: after ∧ '\n' ∉ after ∧ i = before.length

namespace Pos

/-- The place is the one behind a text. -/
structure Behind (cs : List Char) (p : Pos) : Prop where
  offset : p.offset = cs.length
  line : p.line = 1 + (cs.count '\n' : Nat)
  column : ∃ i, IsLastNewline cs i ∧ p.column = p.offset - i

theorem behind_nil : start.Behind [] :=
  ⟨rfl, rfl, -1, .inl ⟨by simp, rfl⟩, rfl⟩

/-- One character further. -/
theorem Behind.after {cs : List Char} {p : Pos} (h : p.Behind cs) (c : Char) :
    (p.after c).Behind (cs ++ [c]) := by
  obtain ⟨hoffset, hline, i, hi, hcolumn⟩ := h
  by_cases hc : c = '\n'
  · subst hc
    refine ⟨by simp [Pos.after, hoffset], by simp [Pos.after, hline, Int.add_assoc], cs.length, ?_, ?_⟩
    · exact .inr ⟨cs, [], rfl, by simp, rfl⟩
    · simp only [Pos.after, if_true, hoffset]
      omega
  · have hcount : (cs ++ [c]).count '\n' = cs.count '\n' := by simp [hc]
    refine ⟨by simp [Pos.after, hc, hoffset], by simp [Pos.after, hc, hline, hcount], i, ?_, ?_⟩
    · rcases hi with ⟨hnone, rfl⟩ | ⟨before, after, rfl, hnone, rfl⟩
      · exact .inl ⟨by simp [hnone, Ne.symm hc], rfl⟩
      · exact .inr ⟨before, after ++ [c], by simp, by simp [hnone, Ne.symm hc], rfl⟩
    · simp only [Pos.after, hc, if_false, hcolumn]
      omega

theorem Behind.afterAll {cs : List Char} {p : Pos} (h : p.Behind cs) (ds : List Char) :
    (p.afterAll ds).Behind (cs ++ ds) := by
  induction ds generalizing cs p with
  | nil => simpa using h
  | cons d ds ih =>
    rw [afterAll_cons, ← singleton_append, ← append_assoc]
    exact ih (h.after d)

theorem behind_afterAll (cs : List Char) : (start.afterAll cs).Behind cs := behind_nil.afterAll cs

/-- A place says how much of the text is before it. -/
theorem Behind.take {cs : List Char} {p : Pos} (h : p.Behind cs) (ds : List Char) :
    p.Behind ((cs ++ ds).take p.offset.toNat) := by
  rw [h.offset, Int.toNat_natCast, take_left]
  exact h

end Pos

/-! ## Gaps -/

namespace Trivia

/-- Something that is skipped, if `rest` follows: a blank, a comment up to the end of its line, or a
comment up to the first mark that closes it. -/
inductive Item (rest : List Char) : List Char → Prop
  | blank {c} (h : Text.isBlank c = true) : Item rest [c]
  | line {body} (h : '\n' ∉ body) (hend : ∀ c ∈ rest.head?, c = '\n') : Item rest ('/' :: '/' :: body)
  | block {body} (h : ¬ ['*', '/'] <:+: body ++ ['*']) : Item rest ('/' :: '*' :: (body ++ ['*', '/']))

/-- What is skipped, if `rest` follows. -/
inductive Gap (rest : List Char) : List Char → Prop
  | nil : Gap rest []
  | cons {item gap} (h : Item (gap ++ rest) item) (hgap : Gap rest gap) : Gap rest (item ++ gap)

/-- What is skipped from within a comment, if `rest` follows: the other part of the comment, and what is
skipped behind it. -/
def GapIn (rest : List Char) : Mode → List Char → Prop
  | .between, cs => Gap rest cs
  | .line, cs => ∃ body gap, cs = body ++ gap ∧ '\n' ∉ body ∧ (∀ c ∈ (gap ++ rest).head?, c = '\n') ∧
      Gap rest gap
  | .block _, cs => ∃ body gap, cs = body ++ '*' :: '/' :: gap ∧ ¬ ['*', '/'] <:+: body ++ ['*'] ∧
      Gap rest gap

theorem isBlank_newline : Text.isBlank '\n' = true := by decide

/-- What was skipped is a gap, and places were counted through it. -/
theorem skip_gap {m : Mode} {p : Pos} {cs : List Char} (h : (skip m p cs).unclosed = none) :
    ∃ gap, cs = gap ++ (skip m p cs).rest ∧ (skip m p cs).pos = p.afterAll gap ∧
      GapIn (skip m p cs).rest m gap := by
  fun_induction skip m p cs
  next p cs ih =>
    obtain ⟨_, hcs, hpos, body, gap, rfl, hbody, hend, hgap⟩ := ih h
    exact ⟨'/' :: '/' :: body ++ gap, by simpa using hcs, by simpa using hpos,
      .cons (.line hbody hend) hgap⟩
  next p cs ih =>
    obtain ⟨_, hcs, hpos, body, gap, rfl, hbody, hgap⟩ := ih h
    refine ⟨'/' :: '*' :: (body ++ ['*', '/']) ++ gap, by simpa using hcs, by simpa using hpos, ?_⟩
    exact .cons (.block hbody) hgap
  next p c cs _ _ hblank ih =>
    obtain ⟨gap, hcs, hpos, hgap⟩ := ih h
    exact ⟨[c] ++ gap, by simpa using hcs, by simpa using hpos, .cons (.blank hblank) hgap⟩
  next => exact ⟨[], rfl, rfl, .nil⟩
  next p cs ih =>
    -- The end of the line is a blank of its own.
    obtain ⟨gap, hcs, hpos, hgap⟩ := ih h
    exact ⟨'\n' :: gap, by simpa using hcs, by simpa using hpos, [], '\n' :: gap, rfl, by simp, by simp,
      .cons (.blank isBlank_newline) hgap⟩
  next p c cs hc ih =>
    obtain ⟨_, hcs, hpos, body, gap, rfl, hbody, hend, hgap⟩ := ih h
    exact ⟨c :: body ++ gap, by simpa using hcs, by simpa using hpos, c :: body, gap, rfl,
      by simp [hbody, Ne.symm hc], hend, hgap⟩
  next p cs _ ih =>
    obtain ⟨gap, hcs, hpos, hgap⟩ := ih h
    exact ⟨'*' :: '/' :: gap, by simpa using hcs, by simpa using hpos, [], gap, rfl,
      by simp [infix_cons_iff], hgap⟩
  next start p c cs hopen ih =>
    obtain ⟨_, hcs, hpos, body, gap, rfl, hbody, hgap⟩ := ih h
    refine ⟨c :: body ++ '*' :: '/' :: gap, by simpa using hcs, by simpa using hpos, c :: body, gap, rfl,
      ?_, hgap⟩
    -- The comment would be closed here.
    rw [cons_append, infix_cons_iff]
    rintro (hhere | hlater)
    · obtain ⟨rfl, hslash⟩ := cons_prefix_cons.1 hhere
      obtain ⟨after, hafter⟩ := hslash
      cases body with
      | nil => simp at hafter
      | cons d body =>
        obtain rfl : '/' = d := (List.cons.inj hafter).1
        exact hopen _ rfl hcs
    · exact hbody hlater
  next => simp at h
  next m p hm =>
    refine ⟨[], rfl, rfl, ?_⟩
    cases m with
    | between => exact .nil
    | line => exact ⟨[], [], rfl, by simp, by simp, .nil⟩
    | block start => exact (hm start rfl).elim

/-- Every character of a gap stands in an item of it. -/
theorem Gap.item {rest gap : List Char} (h : Gap rest gap) {i : Nat} (hi : i < gap.length) :
    ∃ before item after, gap = before ++ item ++ after ∧ Item (after ++ rest) item ∧
      before.length ≤ i ∧ i < before.length + item.length := by
  induction h generalizing i with
  | nil => simp at hi
  | @cons item gap hitem _ ih =>
    by_cases hfirst : i < item.length
    · exact ⟨[], item, gap, rfl, hitem, Nat.zero_le i, by simpa using hfirst⟩
    · rw [length_append] at hi
      obtain ⟨before, found, after, rfl, hfound, hle, hlt⟩ := ih (i := i - item.length) (by omega)
      refine ⟨item ++ before, found, after, by simp, hfound, ?_, ?_⟩ <;> rw [length_append] <;> omega

end Trivia

/-! ## Lexemes -/

/-- What stands between the marks of a string, and what it stands for. -/
inductive Quotes (mark : Char) : List Char → List Char → Prop
  | nil : Quotes mark [] []
  | char {c cs v} (hmark : c ≠ mark) (hline : c ≠ '\n') (hescape : c ≠ '\\') (h : Quotes mark cs v) :
    Quotes mark (c :: cs) (c :: v)
  | escape {e d cs v} (he : escapeValue e = some d) (h : Quotes mark cs v) :
    Quotes mark ('\\' :: e :: cs) (d :: v)

/-- A number as it is written: digits, between which `_` may stand, and a fraction of digits only. -/
def IsNumber (cs data : List Char) : Prop :=
  ∃ c whole fraction, cs = c :: whole ++ fraction ∧ data = c :: whole.filter (· != '_') ++ fraction ∧
    isDecimal c ∧ (∀ d ∈ whole, isDecimal d ∨ d = '_') ∧
    (fraction = [] ∨ ∃ ds, fraction = '.' :: ds ∧ ds ≠ [] ∧ ∀ d ∈ ds, isDecimal d)

/-- What a token is written as. -/
def Token.WrittenAs (t : Token) (cs : List Char) : Prop :=
  match t.kind with
  | .keyword k => cs = k.spelling.toList
  | .symbol s => cs = s.spelling.toList
  | .ident => IsName t.data ∧ cs = t.data.toList
  | .number => IsNumber cs t.data.toList
  | .string => ∃ mark body, (mark = '"' ∨ mark = '\x27') ∧ cs = mark :: (body ++ [mark]) ∧
      Quotes mark body t.data.toList
  | _ => False

/-- A token was read from the front of a text. -/
def Takes (p : Pos) (cs : List Char) (r : Token × Cursor) : Prop :=
  ∃ lexeme rest, cs = lexeme ++ rest ∧ lexeme ≠ [] ∧ r.1.WrittenAs lexeme ∧
    r.1.span = .ofLexeme p lexeme ∧ r.2 = ⟨p.afterAll lexeme, rest⟩

theorem takes_accept {k : Kind} {p : Pos} {l : Lexeme} {cs : List Char} (h : cs = l.chars ++ l.rest)
    (hne : l.chars ≠ []) (hwritten : (accept k p l).1.WrittenAs l.chars) :
    Takes p cs (accept k p l) :=
  ⟨l.chars, l.rest, h, hne, hwritten, rfl, rfl⟩

theorem Keyword.spelling_of_ofSpelling? {w : String} {k : Keyword} (h : ofSpelling? w = some k) :
    k.spelling = w := by
  simpa using List.find?_some h

theorem takes_word {c : Char} (h : Text.isIdentStart c) (p : Pos) (cs : List Char) :
    Takes p (c :: cs) (word p (c :: cs)) := by
  have hne : (c :: cs).takeWhile Text.isIdentContinue ≠ [] := by
    simp [Text.isIdentContinue_of_isIdentStart h]
  have hlexed := lexed_word h p cs
  unfold word at hlexed ⊢
  simp only at hlexed ⊢
  split
  next k hk =>
    refine takes_accept List.takeWhile_append_dropWhile.symm hne ?_
    simp [Token.WrittenAs, accept, Keyword.spelling_of_ofSpelling? hk]
  next hk =>
    rw [hk] at hlexed
    refine takes_accept List.takeWhile_append_dropWhile.symm hne ⟨hlexed, ?_⟩
    simp [accept]

theorem takes_number {c : Char} (h : isDecimal c) (p : Pos) (cs : List Char) :
    Takes p (c :: cs) (accept .number p (scanNumber (c :: cs))) := by
  have hc : c ≠ '_' := by
    rintro rfl
    simp [isDecimal] at h
  have hwhole : ∀ d ∈ cs.takeWhile fun c => isDecimal c || c == '_', isDecimal d ∨ d = '_' := fun d hd => by
    simpa using List.all_eq_true.1 List.all_takeWhile d hd
  have hsplit := (List.takeWhile_append_dropWhile (p := fun c => isDecimal c || c == '_') (l := cs)).symm
  unfold scanNumber
  simp only [List.takeWhile_cons, List.dropWhile_cons, h, Bool.true_or, if_true]
  split
  next d rest hrest =>
    rw [hrest] at hsplit
    split
    next hd =>
      refine takes_accept ?_ (by simp) ⟨c, _, _, rfl, ?_, h, hwhole, .inr ⟨_, rfl, by simp, ?_⟩⟩
      · simpa using hsplit
      · simp [accept, hc]
      · exact List.forall_mem_cons.2 ⟨hd, fun e he => List.all_eq_true.1 List.all_takeWhile e he⟩
    next =>
      refine takes_accept ?_ (by simp) ⟨c, _, [], (List.append_nil _).symm, ?_, h, hwhole, .inl rfl⟩
      · simpa using hsplit
      · simp [accept, hc]
  next =>
    refine takes_accept ?_ (by simp) ⟨c, _, [], (List.append_nil _).symm, ?_, h, hwhole, .inl rfl⟩
    · simp
    · simp [accept, hc]

/-- A string without fault was read up to the mark that closes it. -/
theorem scan_quotes {mark : Char} {cs : List Char} (h : (scan mark cs).fault = none) :
    ∃ body, (scan mark cs).chars = body ++ [mark] ∧
      cs = body ++ [mark] ++ (scan mark cs).rest ∧
      Quotes mark body (scan mark cs).value := by
  fun_induction scan mark cs
  next => simp at h
  next => exact ⟨[], rfl, rfl, .nil⟩
  next => simp at h
  next => simp at h
  next e cs v he _ _ ih =>
    obtain ⟨body, hchars, hcs, hquotes⟩ := ih h
    refine ⟨'\\' :: e :: body, ?_, ?_, .escape he hquotes⟩
    · simp [StringBody.cons, hchars]
    · simpa [StringBody.cons] using hcs
  next => simp at h
  next c cs hmark hline hescape ih =>
    obtain ⟨body, hchars, hcs, hquotes⟩ := ih h
    refine ⟨c :: body, ?_, ?_, .char hmark hline hescape hquotes⟩
    · simp [StringBody.cons, hchars]
    · simpa [StringBody.cons] using hcs

theorem takes_string {c : Char} (hc : c = '"' ∨ c = '\x27') (p : Pos) (cs : List Char)
    (h : (string p c cs).1.kind ≠ .illegal) : Takes p (c :: cs) (string p c cs) := by
  unfold string at h ⊢
  simp only at h ⊢
  split
  next hfault =>
    obtain ⟨body, hchars, hcs, hquotes⟩ := scan_quotes hfault
    refine takes_accept ?_ (by simp) ⟨c, body, hc, ?_, ?_⟩
    · simpa [hchars] using hcs
    · simp [hchars]
    · simpa [accept] using hquotes
  next heq => simp [heq] at h

theorem symbol?_eq_some {cs : List Char} {s : Symbol} (h : symbol? cs = some s) :
    s.spelling.toList <+: cs := by
  have hlength {n : Nat} (hn : symbolOfLength? n cs = some s) : s.spelling.toList <+: cs :=
    symbolOfLength?_eq_some hn ▸ take_prefix n cs
  simp only [symbol?, Option.orElse_eq_orElse, Option.orElse_eq_or, Option.or_eq_some_iff] at h
  rcases h with h | ⟨-, h | ⟨-, h⟩⟩ <;> exact hlength h

theorem takes_symbol (p : Pos) (c : Char) (cs : List Char)
    (h : (symbol p c cs).1.kind ≠ .illegal) : Takes p (c :: cs) (symbol p c cs) := by
  unfold symbol at h ⊢
  split
  next s hs =>
    have htake := prefix_iff_eq_take.1 (symbol?_eq_some hs)
    refine takes_accept (take_append_drop _ _).symm ?_ htake.symm
    rw [← htake]
    exact ne_nil_of_length_pos (Symbol.spelling_length_pos s)
  next heq => simp [heq] at h

/-- A token that is not illegal takes what it is written as, before the end of the text. -/
theorem takes_token {p : Pos} {c : Char} {cs : List Char}
    (h : (token p (c :: cs)).1.kind ≠ .illegal) : Takes p (c :: cs) (token p (c :: cs)) := by
  simp only [token] at h ⊢
  split
  next hc => exact takes_word hc p cs
  next hc =>
    rw [if_neg hc] at h
    split
    next hc => exact takes_number hc p cs
    next hc =>
      rw [if_neg hc] at h
      split
      next hc => exact takes_string (by simpa using hc) p cs (by rwa [if_pos hc] at h)
      next hc => exact takes_symbol p c cs (by rwa [if_neg hc] at h)

theorem Takes.ne_eof {p : Pos} {cs : List Char} {r : Token × Cursor} (h : Takes p cs r) :
    r.1.kind ≠ .eof := by
  obtain ⟨lexeme, rest, -, -, hwritten, -, -⟩ := h
  intro hk
  simp [Token.WrittenAs, hk] at hwritten

/-! ## Tiles -/

/-- A text from `p` on, taken apart into gaps and the lexemes of tokens. -/
inductive Tiles : Pos → List Char → List Token → Prop
  | nil {p gap} (hgap : Trivia.Gap [] gap) : Tiles p gap []
  | cons {p : Pos} {gap lexeme rest} {t : Token} {ts} (hgap : Trivia.Gap (lexeme ++ rest) gap) (hne : lexeme ≠ [])
    (hwritten : t.WrittenAs lexeme) (hspan : t.span = .ofLexeme (p.afterAll gap) lexeme)
    (hrest : Tiles ((p.afterAll gap).afterAll lexeme) rest ts) : Tiles p (gap ++ lexeme ++ rest) (t :: ts)

def Token.endAt (p : Pos) : Token := ⟨.eof, .point p, ""⟩

/-- One step: what is skipped, and then either the end of the text or what a token takes. -/
theorem Cursor.next_tile {c : Cursor} (h : c.next.1.kind ≠ .illegal) :
    ∃ gap rest, c.rest = gap ++ rest ∧ Trivia.Gap rest gap ∧
      (rest = [] ∧ c.next.1 = .endAt (c.pos.afterAll gap) ∨ Takes (c.pos.afterAll gap) rest c.next) := by
  unfold next at h ⊢
  simp only at h ⊢
  split
  next heq => simp [heq] at h
  next heq =>
    rw [heq] at h
    obtain ⟨gap, hcs, hpos, hgap⟩ := Trivia.skip_gap heq
    refine ⟨gap, _, hcs, hgap, ?_⟩
    rw [← hpos]
    cases hrest : (Trivia.skip .between c.pos c.rest).rest with
    | nil => exact .inl ⟨rfl, rfl⟩
    | cons d ds =>
      simp only [hrest] at h
      exact .inr (takes_token h)

/-- The tokens of a text tile it. -/
theorem Cursor.tiles_tokenize {c : Cursor} {ts : List Token} (h : c.tokenize = .ok ts) :
    ∃ front, ts = front ++ [.endAt (c.pos.afterAll c.rest)] ∧ Tiles c.pos c.rest front := by
  fun_induction tokenize c generalizing ts
  next => simp at h
  next c t hlegal heof =>
    obtain rfl := Except.ok.inj h
    obtain ⟨gap, rest, hcs, hgap, ⟨rfl, hend⟩ | htakes⟩ := next_tile hlegal
    · rw [append_nil] at hcs
      exact ⟨[], by rw [hcs]; exact congrArg (fun u => [u]) hend, hcs ▸ .nil hgap⟩
    · exact (htakes.ne_eof heof).elim
  next c t hlegal heof ih =>
    cases hafter : tokenize c.next.2 with
    | error e => simp [hafter, Except.map] at h
    | ok us =>
      rw [hafter] at h
      obtain rfl := Except.ok.inj h
      obtain ⟨front, rfl, htiles⟩ := ih hafter
      obtain ⟨gap, _, hcs, hgap, ⟨-, hend⟩ | ⟨lexeme, rest, rfl, hne, hwritten, hspan, hcursor⟩⟩ :=
        next_tile hlegal
      · exact (heof (congrArg Token.kind hend)).elim
      · rw [hcursor] at htiles ⊢
        refine ⟨t :: front, by simp [hcs], ?_⟩
        rw [hcs, ← append_assoc]
        exact .cons hgap hne hwritten hspan htiles

/-! ## Intervals -/

theorem Pos.offset_afterAll (p : Pos) (cs : List Char) : (p.afterAll cs).offset = p.offset + cs.length := by
  induction cs generalizing p with
  | nil => simp
  | cons c cs ih =>
    have hafter : (p.after c).offset = p.offset + 1 := by unfold Pos.after; split <;> rfl
    rw [afterAll_cons, ih, hafter, length_cons]
    omega

/-- The token covers a place of the text. -/
def Token.Covers (t : Token) (i : Int) : Prop := t.span.first.offset ≤ i ∧ i ≤ t.span.last.offset

/-- A lexeme in its text. -/
structure Lies (p : Pos) (t : Token) (before lexeme : List Char) : Prop where
  ne : lexeme ≠ []
  written : t.WrittenAs lexeme
  span : t.span = .ofLexeme (p.afterAll before) lexeme

section Lies

variable {p : Pos} {t : Token} {before lexeme : List Char}

theorem Lies.first (h : Lies p t before lexeme) : t.span.first.offset = p.offset + before.length := by
  rw [h.span]
  exact Pos.offset_afterAll p before

theorem Lies.last (h : Lies p t before lexeme) :
    t.span.last.offset + 1 = p.offset + before.length + lexeme.length := by
  have hpos := length_pos_iff.2 h.ne
  rw [h.span]
  simp only [Span.ofLexeme, Pos.offset_afterAll, length_dropLast]
  omega

end Lies

namespace Tiles

variable {p : Pos} {cs : List Char} {ts : List Token}

/-- Every token lies somewhere in the text. -/
theorem lies (h : Tiles p cs ts) {t : Token} (ht : t ∈ ts) :
    ∃ before lexeme after, cs = before ++ lexeme ++ after ∧ Lies p t before lexeme := by
  induction h with
  | nil => simp at ht
  | @cons p gap lexeme rest u us _ hne hwritten hspan _ ih =>
    rcases mem_cons.1 ht with rfl | ht
    · exact ⟨gap, lexeme, rest, rfl, hne, hwritten, hspan⟩
    · obtain ⟨before, found, after, rfl, hlies⟩ := ih ht
      refine ⟨gap ++ lexeme ++ before, found, after, by simp, hlies.ne, hlies.written, ?_⟩
      rw [hlies.span]
      simp

theorem first_le (h : Tiles p cs ts) {t : Token} (ht : t ∈ ts) : p.offset ≤ t.span.first.offset := by
  obtain ⟨before, lexeme, after, -, hlies⟩ := h.lies ht
  rw [hlies.first]
  omega

/-- Each token stands behind all those before it. -/
theorem pairwise (h : Tiles p cs ts) : ts.Pairwise fun t u => t.span.last.offset < u.span.first.offset := by
  induction h with
  | nil => exact .nil
  | @cons p gap lexeme rest t ts _ hne hwritten hspan hrest ih =>
    refine .cons (fun u hu => ?_) ih
    have hlast := Lies.last ⟨hne, hwritten, hspan⟩
    have hfirst := hrest.first_le hu
    rw [Pos.offset_afterAll, Pos.offset_afterAll] at hfirst
    omega

/-- What no token covers stands in an item that no token meets. -/
theorem uncovered (h : Tiles p cs ts) {i : Nat} (hi : i < cs.length)
    (hfree : ∀ t ∈ ts, ¬ t.Covers (p.offset + i)) :
    ∃ before item after, cs = before ++ item ++ after ∧ Trivia.Item after item ∧
      before.length ≤ i ∧ i < before.length + item.length ∧
      ∀ t ∈ ts, t.span.last.offset < p.offset + before.length ∨
        p.offset + before.length + item.length ≤ t.span.first.offset := by
  induction h generalizing i with
  | nil hgap =>
    obtain ⟨before, item, after, rfl, hitem, hle, hlt⟩ := hgap.item hi
    exact ⟨before, item, after, rfl, by simpa using hitem, hle, hlt, by simp⟩
  | @cons p gap lexeme rest t ts hgap hne hwritten hspan hrest ih =>
    have hlies : Lies p t gap lexeme := ⟨hne, hwritten, hspan⟩
    have hfirst := hlies.first
    have hlast := hlies.last
    have hbehind : ((p.afterAll gap).afterAll lexeme).offset = p.offset + gap.length + lexeme.length := by
      simp only [Pos.offset_afterAll]
    rw [length_append, length_append] at hi
    obtain hin | hcovered | hout : i < gap.length ∨ (gap.length ≤ i ∧ i < gap.length + lexeme.length) ∨
        gap.length + lexeme.length ≤ i := by omega
    · obtain ⟨before, item, after, rfl, hitem, hle, hlt⟩ := hgap.item hin
      rw [length_append, length_append] at hfirst hbehind
      refine ⟨before, item, after ++ lexeme ++ rest, by simp, by simpa using hitem, hle, hlt, ?_⟩
      refine forall_mem_cons.2 ⟨.inr (by omega), fun u hu => .inr ?_⟩
      have hlater := hrest.first_le hu
      omega
    · refine (hfree t mem_cons_self ⟨?_, ?_⟩).elim <;> omega
    · obtain ⟨k, rfl⟩ := Nat.exists_eq_add_of_le hout
      have hshift : ((p.afterAll gap).afterAll lexeme).offset + k =
          p.offset + (gap.length + lexeme.length + k : Nat) := by
        omega
      obtain ⟨before, item, after, rfl, hitem, hle, hlt, hclear⟩ := ih (i := k) (by omega) fun u hu =>
        hshift ▸ hfree u (mem_cons_of_mem _ hu)
      refine ⟨gap ++ lexeme ++ before, item, after, by simp, hitem, ?_⟩
      simp only [length_append]
      refine ⟨by omega, by omega, forall_mem_cons.2 ⟨.inl (by omega), fun u hu => ?_⟩⟩
      have hu := hclear u hu
      omega

end Tiles

/-! ## Whole texts -/

/-- What stands in a text from the first to the last place of a token. -/
def Token.excerpt (t : Token) (cs : List Char) : List Char :=
  (cs.drop t.span.first.offset.toNat).take (t.span.last.offset + 1 - t.span.first.offset).toNat

section Lies

variable {t : Token} {before lexeme : List Char}

theorem Lies.excerpt (h : Lies .start t before lexeme) (after : List Char) :
    t.excerpt (before ++ lexeme ++ after) = lexeme := by
  have hfirst : t.span.first.offset.toNat = before.length := by simp [h.first, Pos.start]
  have hlength : (t.span.last.offset + 1 - t.span.first.offset).toNat = lexeme.length := by
    rw [h.last, h.first]
    omega
  rw [Token.excerpt, hfirst, hlength, append_assoc, drop_left, take_left]

/-- The places of a token are those behind what precedes them. -/
theorem Lies.behind (h : Lies .start t before lexeme) (after : List Char) :
    ∀ p ∈ [t.span.first, t.span.last], p.Behind ((before ++ lexeme ++ after).take p.offset.toNat) := by
  obtain ⟨front, last, rfl⟩ := (eq_nil_or_concat lexeme).resolve_left h.ne
  simp only [h.span, Span.ofLexeme, forall_mem_cons, ← Pos.afterAll_append]
  refine ⟨?_, ?_, by simp⟩
  · simpa using (Pos.behind_afterAll before).take (front ++ [last] ++ after)
  · simpa using (Pos.behind_afterAll (before ++ front)).take ([last] ++ after)

end Lies

/-- The tokens of a text tile it. Before the end of the text, each covers an interval of it that holds
what the token is written as, and each interval stands behind those of the tokens before. What is left
over are blanks and whole comments. All places have the lines and columns of their offsets. -/
theorem tokenize_tiles {s : String} {ts : List Token} (h : tokenize s = .ok ts) :
    ∃ (front : List Token) (last : Token), ts = front ++ [last] ∧ last.kind = .eof ∧
      last.span.first.offset = s.length ∧ last.span.last.offset = s.length ∧
      (∀ t ∈ front, 0 ≤ t.span.first.offset ∧ t.span.first.offset ≤ t.span.last.offset ∧
        t.span.last.offset < s.length ∧ t.WrittenAs (t.excerpt s.toList)) ∧
      front.Pairwise (fun t u => t.span.last.offset < u.span.first.offset) ∧
      (∀ i < s.length, (∀ t ∈ front, ¬ t.Covers i) →
        ∃ before item after, s.toList = before ++ item ++ after ∧ Trivia.Item after item ∧
          before.length ≤ i ∧ i < before.length + item.length ∧
          ∀ t ∈ front, t.span.last.offset < before.length ∨
            before.length + item.length ≤ t.span.first.offset) ∧
      ∀ t ∈ ts, ∀ p ∈ [t.span.first, t.span.last], p.Behind (s.toList.take p.offset.toNat) := by
  obtain ⟨front, rfl, htiles⟩ := Cursor.tiles_tokenize h
  change Tiles .start s.toList front at htiles
  have hlast : (Pos.start.afterAll s.toList).Behind s.toList := Pos.behind_afterAll s.toList
  refine ⟨front, _, rfl, rfl, hlast.offset, hlast.offset, fun t ht => ?_, htiles.pairwise, fun i hi hfree => ?_,
    fun t ht => ?_⟩
  · obtain ⟨before, lexeme, after, hcs, hlies⟩ := htiles.lies ht
    have hfirst : t.span.first.offset = 0 + before.length := hlies.first
    have hlast : t.span.last.offset + 1 = 0 + before.length + lexeme.length := hlies.last
    have hpos := length_pos_iff.2 hlies.ne
    have hlength : s.length = before.length + lexeme.length + after.length := by
      rw [← String.length_toList, hcs, length_append, length_append]
    refine ⟨by omega, by omega, by omega, ?_⟩
    rw [hcs, hlies.excerpt]
    exact hlies.written
  · have hoffset (j : Int) : Pos.start.offset + j = j := Int.zero_add j
    have huncovered := htiles.uncovered (i := i) (String.length_toList ▸ hi)
    simp only [hoffset] at huncovered
    exact huncovered hfree
  · rcases mem_append.1 ht with ht | ht
    · obtain ⟨before, lexeme, after, hcs, hlies⟩ := htiles.lies ht
      rw [hcs]
      exact hlies.behind after
    · rw [mem_singleton.1 ht]
      have htake := hlast.take []
      rw [append_nil] at htake
      exact forall_mem_cons.2 ⟨htake, forall_mem_singleton.2 htake⟩

/-- Three lines, with a comment of each kind, a string that looks like one, and a name behind a blank
that only some character sets have. -/
def commented : String := "a /* x\n*/ \"//\"// b\n\u00a0cd"

def commentedTokens : List Token :=
  [⟨.ident, ⟨⟨0, 1, 1⟩, ⟨0, 1, 1⟩⟩, "a"⟩, ⟨.string, ⟨⟨10, 2, 4⟩, ⟨13, 2, 7⟩⟩, "//"⟩,
   ⟨.ident, ⟨⟨20, 3, 2⟩, ⟨21, 3, 3⟩⟩, "cd"⟩, ⟨.eof, ⟨⟨22, 3, 4⟩, ⟨22, 3, 4⟩⟩, ""⟩]

/-- The letter in the first comment stands in an item that the three tokens leave out. -/
theorem tokenize_tiles_commented : tokenize commented = .ok commentedTokens ∧
    commentedTokens.dropLast.Pairwise (fun t u => t.span.last.offset < u.span.first.offset) ∧
    ∃ before item after, commented.toList = before ++ item ++ after ∧ Trivia.Item after item ∧
      before.length ≤ 5 ∧ 5 < before.length + item.length ∧
      ∀ t ∈ commentedTokens.dropLast, t.span.last.offset < before.length ∨
        before.length + item.length ≤ t.span.first.offset := by
  have htokens : tokenize commented = .ok commentedTokens := by decide +kernel
  obtain ⟨front, last, hts, -, -, -, -, hpairwise, hfree, -⟩ := tokenize_tiles htokens
  obtain rfl : commentedTokens.dropLast = front := by rw [hts, dropLast_concat]
  refine ⟨htokens, hpairwise, hfree 5 (by decide) ?_⟩
  simp only [Token.Covers]
  decide

end ScriptTyping
