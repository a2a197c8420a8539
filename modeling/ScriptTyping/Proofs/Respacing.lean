import ScriptTyping.Proofs.Tiling

/-!
# Spacing

**Theorem (`tokenize_respaced`).** What the tokens of a text are written as, with a single blank between
each two, is read as these tokens again; what one token is written as is read as that token alone; and
two texts in which the same is written, however much is left out between, have the same tokens.

Each rule of the lexer looks at other characters behind a token, but none goes on over a blank. So what
a token is written as is read as that token wherever a blank or the end of the text follows
(`lexes_written`). The rest is an induction over the lexemes of the text (`tokenize_spaced`).
-/

namespace ScriptTyping

open List Cursor StringBody Token

variable {rs : List (Kind × String)} {cs rest : List Char} {t : Token}

/-! ## Lexemes before a blank -/

/-- The text is at its end, or goes on with a blank. -/
def Loose (rest : List Char) : Prop := ∀ c ∈ rest.head?, c = ' '

theorem Loose.head (h : Loose rest) {P : Char → Prop} (hP : P ' ') : ∀ c ∈ rest.head?, P c := by
  intro c hc
  rw [h c hc]
  exact hP

theorem takeWhile_loose {q : Char → Bool} (hq : q ' ' = false) (h : Loose rest) (hcs : ∀ c ∈ cs, q c = true) :
    (cs ++ rest).takeWhile q = cs ∧ (cs ++ rest).dropWhile q = rest := by
  rw [takeWhile_append_of_pos hcs, dropWhile_append_of_pos hcs]
  cases rest with
  | nil => simp
  | cons c rest =>
    obtain rfl : c = ' ' := h c (by simp)
    simp [hq]

/-- A number ends where its digits do. -/
theorem scanNumber_loose {data : List Char} (h : IsNumber cs data) (hrest : Loose rest) :
    scanNumber (cs ++ rest) = ⟨cs, data, rest⟩ := by
  obtain ⟨c, whole, fraction, rfl, rfl, hc, hwhole, hfraction⟩ := h
  have hmark : c ≠ '_' := by
    intro h
    subst h
    exact absurd hc (by decide)
  have hall : ∀ d ∈ c :: whole, (isDecimal d || d == '_') = true := by
    intro d hd
    cases hd with
    | head => simp [hc]
    | tail _ hd => simpa using hwhole d hd
  have hdigits : (c :: whole).filter (· != '_') = c :: whole.filter (· != '_') := by simp [hmark]
  unfold scanNumber
  obtain rfl | ⟨ds, rfl, hne, hds⟩ := hfraction
  · obtain ⟨htake, hdrop⟩ := takeWhile_loose (q := fun d => isDecimal d || d == '_') (by decide) hrest hall
    simp only [append_nil, htake, hdrop, hdigits]
    split
    next => exact absurd (hrest '.' (by simp)) (by decide)
    next => rfl
  · have htake : (c :: whole ++ '.' :: (ds ++ rest)).takeWhile (fun d => isDecimal d || d == '_') = c :: whole := by
      rw [takeWhile_append_of_pos hall]
      simp [isDecimal]
    have hdrop : (c :: whole ++ '.' :: (ds ++ rest)).dropWhile (fun d => isDecimal d || d == '_') =
        '.' :: (ds ++ rest) := by
      rw [dropWhile_append_of_pos hall]
      simp [isDecimal]
    obtain ⟨d, ds, rfl⟩ := exists_cons_of_ne_nil hne
    obtain ⟨hfraction, hbehind⟩ := takeWhile_loose (q := isDecimal) (by decide) hrest hds
    rw [cons_append] at hfraction hbehind
    simp only [append_assoc, cons_append] at htake hdrop ⊢
    simp only [htake, hdrop, hds d (by simp), if_true, hfraction, hbehind, hdigits]
    simp

/-- A string ends with its mark. -/
theorem scan_quoted {mark : Char} (hmark : mark ≠ '\\') {body v : List Char} (h : Quotes mark body v)
    (rest : List Char) : scan mark (body ++ mark :: rest) = ⟨body ++ [mark], v, none, rest⟩ := by
  induction h with
  | nil =>
    rw [nil_append, scan.eq_def]
    simp
  | char hne hline hescape _ ih =>
    rw [cons_append, StringBody.scan.eq_def]
    simp [hne, hline, hescape, ih, StringBody.cons]
  | escape he _ ih =>
    rw [cons_append, cons_append, StringBody.scan.eq_def]
    simp [hmark.symm, he, ih, StringBody.cons]

theorem Symbol.extends_blank (s : Symbol) : s.extends ' ' = false := by
  cases s <;> decide

/-- What a token is written as is read as that token, if nothing or a blank follows. -/
theorem lexes_written (h : t.WrittenAs cs) (hlexed : t.Lexed) (hrest : Loose rest) :
    Lexes (cs ++ rest) t.kind t.data rest := by
  have hcontinue : ∀ c ∈ rest.head?, Text.isIdentContinue c = false := hrest.head (by decide)
  obtain ⟨k, span, data⟩ := t
  cases k with
  | keyword k =>
    obtain rfl : cs = k.spelling.toList := h
    obtain rfl : data = "" := hlexed
    refine (lexes_word k.isWord_spelling hcontinue).2 k ?_
    rw [String.ofList_toList, Keyword.ofSpelling?_spelling]
  | symbol s =>
    obtain rfl : cs = s.spelling.toList := h
    obtain rfl : data = "" := hlexed
    exact lexes_symbol (hrest.head s.extends_blank)
  | ident =>
    obtain ⟨⟨⟨c, ds, hword, hc, hds⟩, hfree⟩, rfl⟩ := h
    have hident := (lexes_word ⟨c, ds, hword, hc, hds⟩ hcontinue).1
    rw [String.ofList_toList] at hident
    exact hident hfree
  | number =>
    intro p
    have hscan := scanNumber_loose h hrest
    obtain ⟨c, whole, fraction, rfl, -, hc, -⟩ := h
    simp only [cons_append, append_assoc] at hscan ⊢
    simp [token, isIdentStart_of_isDecimal hc, hc, hscan, accept]
  | string =>
    intro p
    obtain ⟨mark, body, hmark, rfl, hquotes⟩ := h
    have hscan : scan mark (body ++ mark :: rest) = ⟨body ++ [mark], data.toList, none, rest⟩ := by
      refine scan_quoted ?_ hquotes rest
      obtain rfl | rfl := hmark <;> decide
    have hstart : Text.isIdentStart mark = false ∧ isDecimal mark = false := by
      obtain rfl | rfl := hmark <;> decide
    simp [token, hstart, hmark, string, hscan, accept]
  | eof => exact h.elim
  | illegal => exact h.elim
  | unknown => exact h.elim

/-- No blank and no comment stands at the beginning of a lexeme. -/
theorem next_written (h : t.WrittenAs cs) (hrest : Loose rest) (p : Pos) :
    Cursor.next ⟨p, cs ++ rest⟩ = token p (cs ++ rest) := by
  have hword (c : Char) (ds : List Char) (hc : Text.isIdentStart c = true) :
      Cursor.next ⟨p, c :: ds⟩ = token p (c :: ds) := by
    refine next_eq_token ?_ ?_ p
    · cases hb : Text.isBlank c with
      | false => rfl
      | true => simp [Text.isIdentStart_of_isBlank hb] at hc
    · intro h
      subst h
      exact absurd hc (by decide)
  obtain ⟨k, span, data⟩ := t
  cases k with
  | keyword k =>
    obtain rfl : cs = k.spelling.toList := h
    obtain ⟨c, ds, hcs, hc, -⟩ := k.isWord_spelling
    rw [hcs]
    exact hword c _ hc
  | ident =>
    obtain ⟨⟨⟨c, ds, hcs, hc, -⟩, -⟩, rfl⟩ := h
    rw [hcs]
    exact hword c _ hc
  | symbol s =>
    obtain rfl : cs = s.spelling.toList := h
    obtain ⟨c, ds, hcs⟩ := exists_cons_of_length_pos s.spelling_length_pos
    have hblank := (Symbol.chars_not c (hcs ▸ mem_cons_self)).1
    rw [hcs]
    refine next_eq_token hblank ?_ p
    intro hc d hd
    subst hc
    -- Only division and its assignment begin like a comment.
    have hds : ds = [] ∨ ds = ['='] := by
      cases s <;> simp_all [Symbol.spelling]
    obtain rfl | rfl := hds
    · rw [hrest d hd]
      decide
    · obtain rfl : '=' = d := by simpa using hd
      decide
  | number =>
    obtain ⟨c, whole, fraction, rfl, -, hc, -⟩ := h
    refine next_eq_token (isBlank_of_isDecimal hc) ?_ p
    intro h
    subst h
    exact absurd hc (by decide)
  | string =>
    obtain ⟨mark, body, hmark, rfl, -⟩ := h
    refine next_eq_token ?_ ?_ p
    · obtain rfl | rfl := hmark <;> decide
    · intro h
      subst h
      exact absurd hmark (by decide)
  | eof => exact h.elim
  | illegal => exact h.elim
  | unknown => exact h.elim

/-! ## Texts of lexemes -/

/-- What a token is, wherever it stands. -/
def Token.reading (t : Token) : Kind × String := (t.kind, t.data)

/-- A token that is written as some characters. -/
def Token.Lexeme (t : Token) (cs : List Char) : Prop := t.WrittenAs cs ∧ t.Lexed

theorem Token.Lexeme.ne (h : t.Lexeme cs) : t.kind ≠ .illegal ∧ t.kind ≠ .eof := by
  constructor <;> intro hk <;> simpa [Token.WrittenAs, hk] using h.1

/-- Tokens of a text, wherever it stands, and its end. -/
def Tokenizes (cs : List Char) (rs : List (Kind × String)) : Prop :=
  ∀ p, ∃ ts, Cursor.tokenize ⟨p, cs⟩ = .ok ts ∧ ts.map Token.reading = rs ++ [(.eof, "")]

theorem tokenizes_nil : Tokenizes [] [] := by
  intro p
  exact ⟨[.endAt p], by rw [Cursor.tokenize]; rfl, rfl⟩

theorem Tokenizes.blank (h : Tokenizes cs rs) : Tokenizes (' ' :: cs) rs := by
  intro p
  obtain ⟨ts, htokens, hts⟩ := h (p.after ' ')
  refine ⟨ts, ?_, hts⟩
  rw [Cursor.tokenize] at htokens ⊢
  exact htokens

/-- A lexeme is read before what follows it. -/
theorem Tokenizes.lexeme {l : List Char} (hl : t.Lexeme l) (hrest : Loose rest) (h : Tokenizes rest rs) :
    Tokenizes (l ++ rest) (t.reading :: rs) := by
  intro p
  obtain ⟨hkind, hdata, hcursor⟩ := lexes_written hl.1 hl.2 hrest p
  rw [← next_written hl.1 hrest] at hkind hdata hcursor
  generalize hc : Cursor.mk p (l ++ rest) = c at hkind hdata hcursor
  obtain ⟨ts, htokens, hts⟩ := h c.next.2.pos
  rw [← hcursor] at htokens
  refine ⟨c.next.1 :: ts, tokenize_of_next (hkind ▸ hl.ne.1) (hkind ▸ hl.ne.2) htokens, ?_⟩
  rw [map_cons, hts, cons_append, reading, reading, hkind, hdata]

/-- Lexemes with a blank between each two are read one after another. -/
theorem tokenizes_spaced {ts : List Token} {spell : Token → List Char} (h : ∀ t ∈ ts, t.Lexeme (spell t)) :
    Tokenizes ([' '].intercalate (ts.map spell)) (ts.map reading) := by
  induction ts with
  | nil => exact tokenizes_nil
  | cons t ts ih =>
    obtain ⟨ht, hts⟩ := forall_mem_cons.1 h
    cases ts with
    | nil => simpa using tokenizes_nil.lexeme ht (by simp [Loose])
    | cons u us => simpa using (ih hts).blank.lexeme ht (by simp [Loose])

/-! ## Whole texts -/

/-- What the tokens of a text before its end are written as. -/
def lexemes (s : String) (ts : List Token) : List (List Char) := ts.dropLast.map fun t => t.excerpt s.toList

/-- The lexemes of a text, with a single blank between each two. -/
def respaced (s : String) (ts : List Token) : String := String.ofList ([' '].intercalate (lexemes s ts))

section Respaced

variable {s : String} {ts : List Token}

theorem lexeme_excerpt (h : tokenize s = .ok ts) (ht : t ∈ ts.dropLast) : t.Lexeme (t.excerpt s.toList) := by
  obtain ⟨front, rfl, htiles⟩ := tiles_tokenize h
  rw [dropLast_concat] at ht
  obtain ⟨before, lexeme, after, hcs, hlies⟩ := Tiles.lies htiles ht
  have hsplit : s.toList = before ++ lexeme ++ after := hcs
  rw [hsplit, hlies.excerpt after]
  exact ⟨hlies.written, (tokenize_lexed h).1 t (mem_append_left _ ht)⟩

/-- The end of a text is read as such. -/
theorem map_reading (h : tokenize s = .ok ts) :
    ts.map reading = ts.dropLast.map reading ++ [(.eof, "")] := by
  obtain ⟨front, rfl, -⟩ := tiles_tokenize h
  rw [dropLast_concat, map_append]
  rfl

/-- A text and its lexemes with single blanks between them have the same tokens. -/
theorem map_reading_respaced (h : tokenize s = .ok ts) :
    ∃ us, tokenize (respaced s ts) = .ok us ∧ us.map Token.reading = ts.map Token.reading := by
  obtain ⟨us, htokens, hus⟩ := tokenizes_spaced (fun t ht => lexeme_excerpt h ht) .start
  refine ⟨us, ?_, hus.trans (map_reading h).symm⟩
  rwa [tokenize, Cursor.ofString, respaced, String.toList_ofList]

end Respaced

/-- The tokens of a text do not depend on its spacing. They are read again where what they are written as
is joined by single blanks, and each of them where it is written alone; and every text that is made of
the same lexemes has the same tokens, whatever blanks and comments stand between. -/
theorem tokenize_respaced {s : String} {ts : List Token} (h : tokenize s = .ok ts) :
    (∃ us, tokenize (respaced s ts) = .ok us ∧ us.map Token.reading = ts.map Token.reading) ∧
    (∀ t ∈ ts.dropLast, ∃ us, tokenize (String.ofList (t.excerpt s.toList)) = .ok us ∧
      us.map Token.reading = [t.reading, (.eof, "")]) ∧
    ∀ s' ts', tokenize s' = .ok ts' → lexemes s' ts' = lexemes s ts →
      ts'.map Token.reading = ts.map Token.reading := by
  obtain ⟨us, hus, hreading⟩ := map_reading_respaced h
  refine ⟨⟨us, hus, hreading⟩, fun t ht => ?_, fun s' ts' h' heq => ?_⟩
  · obtain ⟨us, htokens, hus⟩ := tokenizes_nil.lexeme (lexeme_excerpt h ht) (by simp [Loose]) .start
    refine ⟨us, ?_, hus⟩
    rwa [tokenize, Cursor.ofString, String.toList_ofList, ← append_nil (t.excerpt s.toList)]
  · -- Both texts have the tokens of the one that is made of their lexemes.
    obtain ⟨us', hus', hreading'⟩ := map_reading_respaced h'
    rw [respaced, heq, ← respaced, hus] at hus'
    rw [← hreading, ← hreading', Except.ok.inj hus']

/-- Operators that run into each other, a fraction beside two points, digits with a mark between them, a
comment in the place of a blank, and an escape. -/
def crowded : String := "a+++1_0.5..b/**/>>='\\n'"

theorem tokenize_respaced_crowded :
    (∃ ts, tokenize crowded = .ok ts ∧
      lexemes crowded ts = ["a", "++", "+", "1_0.5", ".", ".", "b", ">>=", "'\\n'"].map String.toList ∧
      ∃ us, tokenize (respaced crowded ts) = .ok us ∧ us.map Token.reading = ts.map Token.reading) := by
  obtain ⟨ts, hts⟩ : ∃ ts, tokenize crowded = .ok ts := by
    cases h : tokenize crowded with
    | ok ts => exact ⟨ts, rfl⟩
    | error e =>
      have hok : (tokenize crowded).isOk = true := by decide +kernel
      rw [h] at hok
      cases hok
  have hlexemes : (tokenize crowded).map (lexemes crowded) =
      .ok (["a", "++", "+", "1_0.5", ".", ".", "b", ">>=", "'\\n'"].map String.toList) := by decide +kernel
  rw [hts] at hlexemes
  exact ⟨ts, hts, Except.ok.inj hlexemes, (tokenize_respaced hts).1⟩

end ScriptTyping
