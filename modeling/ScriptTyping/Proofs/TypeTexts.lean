import ScriptTyping.Proofs.Rereading

/-!
# Types read again

The text of a type is read as the type, or not at all. It is read where no brackets of a type open right
behind those of another (`TypeExpr.Rereadable`); two brackets that close together are told apart, but two
that open together are one token `<<`, and no type is written with it.

Main statement: `parseType_render`. One half is an instance of `relexes` and `reads_type`. The other half
goes by the pieces of the text: a type that cannot be read again has two opening brackets side by side
(`TypeExpr.Written.rereadable`), a text with them has the token `<<` (`doubled`), and no derivation uses it
(`Derives.plain`).
-/

namespace ScriptTyping

open Piece List Cursor TypeExpr

/-! ## Brackets that open together -/

section Pieces

variable {parts : List (List Piece)} {part : List Piece}

theorem infix_commas (h : part ∈ parts) : part <:+: commas parts := by
  unfold commas
  induction parts with
  | nil => cases h
  | cons first parts ih =>
    obtain ⟨qs, hqs⟩ := Grammar.exists_intercalate_cons [symbol .comma, blank] first parts
    obtain rfl | h := mem_cons.1 h
    · rw [hqs]
      exact (prefix_append part qs).isInfix
    · obtain ⟨second, parts, rfl⟩ := exists_cons_of_ne_nil (ne_nil_of_mem h)
      rw [intercalate_cons_cons]
      exact (ih h).trans (suffix_append _ _).isInfix

theorem infix_angledPieces (h : part ∈ parts) : part <:+: angledPieces parts := by
  simp only [angledPieces, List.isEmpty_iff, ne_nil_of_mem h, if_false]
  exact (infix_commas h).trans ⟨[opening], [closing], rfl⟩

theorem infix_param (p : Param) : p.ann.pieces <:+: p.pieces p.ann.pieces := by
  unfold ParamOf.pieces
  refine List.IsInfix.trans ?_ (suffix_append _ _).isInfix
  split
  next => exact infix_rfl
  next =>
    split
    next hmissing =>
      have hann : p.ann.pieces = [] := by cases hann : p.ann <;> simp_all [isMissing, pieces]
      exact hann ▸ nil_infix
    next => exact ⟨[ident p.name, symbol .colon, blank], [], by simp⟩

end Pieces

namespace TypeExpr

variable {t : TypeExpr}

theorem all_of_parts {P : TypeExpr → Prop} (hmissing : t ≠ .missing) (h : Parts P t) : All P t := by
  cases t with
  | missing => exact (hmissing rfl).elim
  | _ =>
    simpa only [Parts, All, walk, if_true, forall_mem_cons, forall_mem_append, all_walkAll,
      all_walkParams, not_mem_nil, false_imp_iff, implies_true, and_true] using h

/-- A type with parameters of its own starts with a bracket. -/
theorem Written.pieces_of_isGeneric (h : t.Written) (ht : t.isGeneric) : ∃ rest, t.pieces = opening :: rest := by
  cases h with
  | generic hne => exact ⟨_, by simp [pieces, angledPieces, hne]; rfl⟩
  | _ => cases ht

/-- Arguments between whose pieces no two brackets open side by side: the first has no parameters of its own,
and there are no such brackets within them. -/
theorem arguments_of_free {us : List TypeExpr} {ps : List Piece} (hus : ∀ u ∈ us, u.Written)
    (hargs : angledPieces (us.map pieces) <:+: ps) (hfree : ¬ [opening, opening] <:+: ps) :
    (∀ u ∈ us.head?, u.isGeneric = false) ∧ ∀ u ∈ us, ¬ [opening, opening] <:+: u.pieces := by
  constructor
  · intro u hu
    obtain ⟨us, rfl⟩ := head?_eq_some_iff.1 hu
    rw [Bool.eq_false_iff]
    intro hgeneric
    obtain ⟨rest, hrest⟩ := (hus u (by simp)).pieces_of_isGeneric hgeneric
    obtain ⟨qs, hqs⟩ := Grammar.exists_intercalate_cons [symbol .comma, blank] u.pieces (us.map pieces)
    rw [hrest] at hqs
    refine hfree (List.IsInfix.trans ⟨[], rest ++ qs ++ [closing], ?_⟩ hargs)
    simp [angledPieces, commas, hrest, hqs]
  · intro u hu hd
    exact hfree (hd.trans ((infix_angledPieces (mem_map_of_mem hu)).trans hargs))

/-- A type in which no two brackets open side by side can be read again. -/
theorem Written.rereadable (h : t.Written) (hfree : ¬ [opening, opening] <:+: t.pieces) :
    t.All Rereadable := by
  induction h with
  | named => exact all_of_parts (by simp) trivial
  | @array u hu ih =>
    have hargs : angledPieces ([u].map pieces) <:+: (TypeExpr.array u).pieces :=
      ⟨[ident "Array"], [], by simp [pieces, angledPieces, commas]⟩
    obtain ⟨hfirst, hparts⟩ := arguments_of_free (by simpa using hu) hargs hfree
    exact all_of_parts (by simp) ⟨hfirst u rfl, ih (hparts u (by simp))⟩
  | @promise u hu ih =>
    have hargs : angledPieces ([u].map pieces) <:+: (TypeExpr.promise u).pieces :=
      ⟨[ident "Promise"], [], by simp [pieces, angledPieces, commas]⟩
    obtain ⟨hfirst, hparts⟩ := arguments_of_free (by simpa using hu) hargs hfree
    exact all_of_parts (by simp) ⟨hfirst u rfl, ih (hparts u (by simp))⟩
  | @map u v hu hv ihu ihv =>
    have hargs : angledPieces ([u, v].map pieces) <:+: (TypeExpr.map u v).pieces :=
      ⟨[ident "Map"], [], by simp [pieces, angledPieces, commas]⟩
    obtain ⟨hfirst, hparts⟩ := arguments_of_free (by simp [hu, hv]) hargs hfree
    exact all_of_parts (by simp) ⟨hfirst u rfl, ihu (hparts u (by simp)), ihv (hparts v (by simp))⟩
  | @func ps u _ hps hu ihps ihu =>
    refine all_of_parts (by simp) ⟨trivial, fun p hp => ihps p hp fun hd => hfree (hd.trans ?_),
      ihu fun hd => hfree (hd.trans ?_)⟩
    · have hmem := infix_commas (mem_map_of_mem (f := fun p : Param => p.pieces p.ann.pieces) hp)
      refine (infix_param p).trans (hmem.trans ?_)
      rw [← piecesParams_eq]
      exact ⟨[symbol .openParen], symbol .closeParen :: ([blank, symbol .arrow, blank] ++ u.pieces), rfl⟩
    · exact ⟨symbol .openParen :: (commas (piecesParams ps) ++ [symbol .closeParen, blank, symbol .arrow, blank]),
        [], by simp [pieces]⟩
  | @structRef name ts _ hts ih =>
    have hargs : angledPieces (ts.map pieces) <:+: (TypeExpr.structRef name ts).pieces :=
      ⟨[keyword .kStruct, blank, ident name], [], by simp [pieces, piecesAll_eq]⟩
    obtain ⟨hfirst, hparts⟩ := arguments_of_free hts hargs hfree
    refine all_of_parts (by simp) ⟨?_, fun u hu => ih u hu (hparts u hu)⟩
    cases ts with
    | nil => trivial
    | cons u ts => exact hfirst u rfl
  | @enumRef name ts _ hts ih =>
    have hargs : angledPieces (ts.map pieces) <:+: (TypeExpr.enumRef name ts).pieces :=
      ⟨[keyword .kEnum, blank, ident name], [], by simp [pieces, piecesAll_eq]⟩
    obtain ⟨hfirst, hparts⟩ := arguments_of_free hts hargs hfree
    refine all_of_parts (by simp) ⟨?_, fun u hu => ih u hu (hparts u hu)⟩
    cases ts with
    | nil => trivial
    | cons u ts => exact hfirst u rfl
  | @generic tps u _ _ _ ih =>
    refine all_of_parts (by simp) ⟨trivial, ih fun hd => hfree (hd.trans ?_)⟩
    exact (suffix_append (angledPieces (tps.map TypeParam.pieces)) u.pieces).isInfix

end TypeExpr

/-! ## The token of two opening brackets -/

/-- Wherever the text stands, if it has tokens then one of them is `<<`. -/
def Doubled (cs : List Char) : Prop :=
  ∀ pos ts, Cursor.tokenize ⟨pos, cs⟩ = .ok ts → ∃ t ∈ ts, t.kind = .symbol .shiftLeft

theorem doubled_cons {cs rest : List Char} {k : Kind} {data : String}
    (hnext : ∀ pos, Cursor.next ⟨pos, cs⟩ = token pos cs) (hlex : Lexes cs k data rest)
    (hend : k ≠ .eof) (h : k = .symbol .shiftLeft ∨ Doubled rest) : Doubled cs := by
  intro pos ts hts
  obtain ⟨hk, -, hrest⟩ := hlex pos
  rw [← hnext] at hk hrest
  rw [Cursor.tokenize] at hts
  split at hts
  next => simp at hts
  next =>
    rw [if_neg (hk ▸ hend)] at hts
    cases hafter : (Cursor.next ⟨pos, cs⟩).2.tokenize with
    | error e => simp [hafter, Except.map] at hts
    | ok us =>
      rw [hafter] at hts
      obtain rfl := Except.ok.inj hts
      obtain rfl | h := h
      · exact ⟨_, mem_cons_self, hk⟩
      · obtain ⟨t, ht, htk⟩ := h (Cursor.next ⟨pos, cs⟩).2.pos us (by rw [← hrest]; exact hafter)
        exact ⟨t, mem_cons_of_mem _ ht, htk⟩

/-- A word may also be a keyword; the text behind it is the same. -/
theorem exists_lexes_mark {q : Piece} {ps : List Piece} {t : Terminal} (hp : (mark t).Valid)
    (hne : mark t ≠ ending) (h : Before true (mark t) q) (hrest : (q :: ps).IsChain (Before true))
    (hdouble : ¬ (t.kind = .symbol .less ∧ q = opening)) :
    ∃ k data, k ≠ .eof ∧ Lexes (spell (mark t :: q :: ps)) k data (spell (q :: ps)) := by
  by_cases hkey : t.kind = .ident ∧ ∃ k, Keyword.ofSpelling? t.data = some k
  · obtain ⟨n, d⟩ := t
    obtain ⟨rfl, k, hk⟩ := hkey
    have hword := (lexes_word (w := d.toList) hp (not_isIdentContinue rfl h hrest)).2 k
    rw [String.ofList_toList] at hword
    exact ⟨_, _, by simp, hword hk⟩
  · refine ⟨_, _, hp.ne_eof hne, lexes_mark hp hne h hrest hdouble fun hk => ?_⟩
    exact Option.eq_none_iff_forall_ne_some.2 fun k hsome => hkey ⟨hk, k, hsome⟩

theorem eq_opening {t : Terminal} (hp : (mark t).Valid) (hk : t.kind = .symbol .less)
    (h : Before true (mark t) opening) : t = ⟨.symbol .less, "<"⟩ := by
  obtain ⟨k, d⟩ := t
  obtain rfl : k = .symbol .less := hk
  obtain rfl | ⟨-, rfl⟩ : d = "" ∨ Symbol.less = .less ∧ d = "<" := hp
  · exact absurd h.fits (by simp [Piece.fits])
  · rfl

theorem lexes_openings {q : Piece} {ps : List Piece} (h : Before true opening q)
    (hrest : (q :: ps).IsChain (Before true)) :
    Lexes (spell (opening :: opening :: q :: ps)) (.symbol .shiftLeft) "" (spell (q :: ps)) := by
  refine lexes_symbol (s := .shiftLeft) fun c hc => ?_
  have hstarts := head_spell hrest h.valid hc
  have hleads : q.leads := by
    have hfits := h.fits
    simp [Piece.fits] at hfits
    obtain (hword | rfl) | rfl := hfits
    · exact leads_of_isWord hword
    · rfl
    · rfl
  have hc : c ≠ '=' := hstarts.ne_of_leads hleads (by decide) (by decide) (by decide)
  simp [Symbol.extends, Symbol.all, Symbol.spelling, List.isPrefixOf, hc]

/-- A text in which two brackets open side by side has the token `<<`. -/
theorem doubled {p : Piece} {ps : List Piece} (h : (p :: (ps ++ [ending])).IsChain (Before true))
    (hd : [opening, opening] <:+: ps) : Doubled (spell (ps ++ [ending])) := by
  refine chain_induction (P := fun qs => [opening, opening] <:+: qs → Doubled (spell qs)) (fun hd => ?_)
    (fun qs ih hd pos ts hts => ?_) (fun r rs h ih hd => ?_) (fun r rs hne h ih hd => ?_)
    (fun t qs r rs hr hp hne h ih hd => ?_) h (hd.trans (prefix_append ..).isInfix)
  · simp [infix_cons_iff, cons_prefix_cons] at hd
  · have hd : [opening, opening] <:+: qs := by simpa [infix_cons_iff, cons_prefix_cons] using hd
    refine ih hd (pos.after ' ') ts ?_
    rw [Cursor.tokenize] at hts ⊢
    exact hts
  · obtain ⟨hr, hrs⟩ := isChain_cons_cons.1 (isChain_cons_cons.1 h).2
    have hd : [opening, opening] <:+: r :: rs :=
      (infix_cons_iff.1 ((infix_cons_iff.1 hd).resolve_left (by simp [cons_prefix_cons]))).resolve_left
        (by simp [cons_prefix_cons])
    exact doubled_cons (next_spell trivial (by simp) (by simp) h) (lexes_closings hr hrs) (by simp) (.inr (ih hd))
  · obtain ⟨hr, hrs⟩ := isChain_cons_cons.1 h
    have hd := (infix_cons_iff.1 hd).resolve_left (by simp [cons_prefix_cons])
    exact doubled_cons (next_spell trivial (by simp) (by simp) h) (lexes_closing hr hrs hne) (by simp) (.inr (ih hd))
  · obtain ⟨hq, hrs⟩ := isChain_cons_cons.1 h
    by_cases hdouble : t.kind = .symbol .less ∧ r = opening
    · obtain ⟨hk, rfl⟩ := hdouble
      obtain rfl : t = ⟨.symbol .less, "<"⟩ := eq_opening hp hk hq
      obtain ⟨us, rfl⟩ := exists_of_append_ending hr (by simp)
      obtain ⟨s, ss, rfl⟩ : ∃ s ss, rs = s :: ss :=
        exists_cons_of_ne_nil (by rw [← (List.cons.inj hr).2]; simp)
      obtain ⟨hs, hss⟩ := isChain_cons_cons.1 hrs
      exact doubled_cons (next_spell hp (by simp) (by simp) h) (lexes_openings hs hss) (by simp) (.inl rfl)
    · have hd : [opening, opening] <:+: r :: rs := by
        refine (infix_cons_iff.1 hd).resolve_left fun hpre => hdouble ?_
        obtain ⟨hfirst, hsecond⟩ := cons_prefix_cons.1 hpre
        exact ⟨congrArg Terminal.kind (Piece.mark.inj hfirst).symm, (cons_prefix_cons.1 hsecond).1.symm⟩
      obtain ⟨k, data, hend, hlex⟩ := exists_lexes_mark hp hne hq hrs hdouble
      exact doubled_cons (next_spell hp (by simp) hne h) hlex hend (.inr (ih hd))

/-! ## Derivations without it -/

/-- Terminals without `<<`. -/
def Plain (ks : List Terminal) : Prop := ∀ k ∈ ks, k.kind ≠ .symbol .shiftLeft

@[simp] theorem plain_nil : Plain [] := by simp [Plain]

@[simp] theorem plain_cons {k : Terminal} {ks : List Terminal} :
    Plain (k :: ks) ↔ k.kind ≠ .symbol .shiftLeft ∧ Plain ks := by simp [Plain]

@[simp] theorem plain_append {ks ls : List Terminal} : Plain (ks ++ ls) ↔ Plain ks ∧ Plain ls := by
  simp only [Plain, forall_mem_append]

theorem plain_intercalate {sep : List Terminal} {ls : List (List Terminal)} (hsep : Plain sep)
    (h : ∀ l ∈ ls, Plain l) : Plain (sep.intercalate ls) := by
  induction ls with
  | nil => simp
  | cons l ls ih =>
    obtain ⟨hl, hls⟩ := forall_mem_cons.1 h
    cases ls with
    | nil => simpa using hl
    | cons k ls =>
      rw [intercalate_cons_cons, plain_append, plain_append]
      exact ⟨⟨hl, hsep⟩, ih hls⟩

theorem TypeParam.plain (ps : List TypeParam) : Plain (terminalsAll ps) := by
  refine plain_intercalate (by simp) (forall_mem_map.2 fun p _ => ?_)
  have hbounds : Plain ([.symbol .plus].intercalate (p.bounds.map fun b => [.name b])) :=
    plain_intercalate (by simp) (forall_mem_map.2 fun b _ => by simp)
  unfold TypeParam.terminals
  split <;> simp [hbounds]

theorem ParamPart.plain {p : ParamPart} (h : Plain p.type) : Plain p.terminals := by
  unfold ParamPart.terminals
  cases p.variadic <;> cases p.name <;> simp [h]

theorem plain_angledTerminals {parts : List (TypeExpr × List Terminal)} (h : ∀ p ∈ parts, Plain p.2) :
    Plain (angledTerminals parts) := by
  have hparts : Plain ([.symbol .comma].intercalate (parts.map Prod.snd)) :=
    plain_intercalate (by simp) (forall_mem_map.2 h)
  unfold angledTerminals
  split <;> simp [hparts]

/-- No type is written with `<<`. -/
theorem Derives.plain {t : TypeExpr} {ks : List Terminal} (h : Derives t ks) : Plain ks := by
  induction h with
  | named => simp
  | array _ ih | promise _ ih => simp [ih]
  | map _ _ iht ihu => simp [iht, ihu]
  | @generic ps _ _ _ _ ih => simp [TypeParam.plain ps, ih]
  | @func parts _ _ _ _ ihparts ih =>
    have hparts : Plain ([.symbol .comma].intercalate (parts.map ParamPart.terminals)) :=
      plain_intercalate (by simp) (forall_mem_map.2 fun p hp => ParamPart.plain (ihparts p hp))
    simp [hparts, ih]
  | structRef _ ih | enumRef _ ih => simp [plain_angledTerminals ih]

/-! ## Texts -/

section Texts

variable {source : String} {t u : TypeExpr} {ts : List Token}

/-- The end of a text is the last of its tokens and no other. -/
theorem Cursor.tokenize_front {c : Cursor} (h : c.tokenize = .ok ts) :
    ∃ front last, ts = front ++ [last] ∧ last.kind = .eof ∧ ∀ t ∈ front, t.kind ≠ .eof := by
  fun_induction tokenize c generalizing ts
  next => simp at h
  next heof =>
    obtain rfl := Except.ok.inj h
    exact ⟨[], _, rfl, heof, by simp⟩
  next c _ _ heof ih =>
    cases hrest : tokenize c.next.2 with
    | error e => simp [hrest, Except.map] at h
    | ok us =>
      rw [hrest] at h
      obtain rfl := Except.ok.inj h
      obtain ⟨front, last, rfl, hlast, hfront⟩ := ih hrest
      exact ⟨c.next.1 :: front, last, rfl, hlast, forall_mem_cons.2 ⟨heof, hfront⟩⟩

theorem parseType_eq_ok : parseType source = .ok t ↔
    ∃ ts, tokenize source = .ok ts ∧ parseTypeTokens ts = .ok t := by
  show ((tokenize source).mapError SourceError.lex >>= fun ts => (parseTypeTokens ts).mapError .parse) = _ ↔ _
  cases tokenize source with
  | error e => exact ⟨nofun, by rintro ⟨_, ⟨⟩, -⟩⟩
  | ok ts =>
    show (parseTypeTokens ts).mapError SourceError.parse = _ ↔ _
    cases hread : parseTypeTokens ts with
    | error e => simp [Except.mapError, hread]
    | ok u => simp [Except.mapError, hread]

/-- The type that is read from a text is written with names. -/
theorem written_of_parseType (h : parseType source = .ok t) : t.Written := by
  obtain ⟨ts, hts, hread⟩ := parseType_eq_ok.1 h
  obtain ⟨hlexed, front, last, rfl, hlast⟩ := tokenize_lexed hts
  obtain ⟨s', htook, -⟩ := parseTypeTokens_eq_ok.1 hread
  have heq := @ofTokens_eq front last hlast
  exact ((Grammar.sound_ofDepth _).type _ ⟨⟨front, last, heq, hlast⟩, by rwa [heq]⟩ htook).2

theorem toList_render_ending (t : TypeExpr) : t.render.toList = spell (t.pieces ++ [ending]) := by
  rw [toList_render]
  simp [Terminal.chars]

theorem ClosesType.ending : ClosesType Piece.ending := .inr ⟨rfl, rfl, nofun⟩

/-- What can be read again is read as it was written. -/
theorem parseType_of_rereadable (h : t.Written) (ht : t.All TypeExpr.Rereadable) :
    parseType t.render = .ok t := by
  have hlegible : t.All (TypeExpr.Legible false) := fun u hu => Node.Rereadable.legible (x := .type u) (ht u hu)
  have hlinked : Linked false blank t.pieces ending := h.linked hlegible (.inl (by simp)) .ending
  obtain ⟨ts, hts, hshown⟩ := relexes hlinked Pos.start
  rw [← toList_render_ending] at hts
  obtain ⟨-, front, last, rfl, hlast⟩ := tokenize_lexed hts
  refine parseType_eq_ok.2 ⟨_, hts, parseTypeTokens_eq_ok.2 ?_⟩
  generalize hs : Stream.ofTokens (front ++ [last]) = s
  have hshows : (tokenView true).shows s (t.pieces ++ [ending]) := by
    show Shown true (s.current :: s.rest) _
    rwa [← hs, ofTokens_eq hlast]
  have hweight : weight t.pieces ≤ s.weight := by
    have hweight := (tokenView true).weigh hshows
    rw [weight_append] at hweight
    omega
  obtain ⟨s', htook, hend⟩ := Grammar.reads_type h s.weight hweight s _ hshows rfl ⟨_, rfl, nofun, nofun⟩
  exact ⟨s', htook, ((tokenView true).current hend).1⟩

/-- A text that is read as some type has no brackets that open together. -/
theorem not_infix_of_parseType (h : t.Written) (hread : parseType t.render = .ok u) :
    ¬ [opening, opening] <:+: t.pieces := by
  intro hd
  obtain ⟨ts, hts, hread⟩ := parseType_eq_ok.1 hread
  obtain ⟨front, last, rfl, hlast, hfront⟩ := tokenize_front hts
  have hplain : Plain (front.flatMap Token.terminals) := (derives_of_parse hlast hfront hread).plain
  have hlegible : t.All (TypeExpr.Legible true) := by
    intro u _
    unfold TypeExpr.Legible
    split <;> simp
  have hlinked : Linked true blank t.pieces ending := h.linked hlegible (.inl (by simp)) .ending
  have hdoubled := doubled hlinked hd
  rw [← toList_render_ending] at hdoubled
  obtain ⟨v, hv, hk⟩ := hdoubled _ _ hts
  obtain hv | rfl : v ∈ front ∨ v = last := by simpa using hv
  · exact hplain ⟨v.kind, ""⟩ (mem_flatMap.2 ⟨v, hv, by simp [Token.terminals, hk]⟩) hk
  · simp [hlast] at hk

/-- **Reading a type again.** The text of a type that was read from some text is read as this type and as no
other; it is read at all exactly if nothing in the type has a first argument with parameters of its own. -/
theorem parseType_render (h : parseType source = .ok t) (u : TypeExpr) :
    parseType t.render = .ok u ↔ u = t ∧ ∀ v ∈ t.walk fun _ => true, v.Rereadable := by
  have hwritten := written_of_parseType h
  constructor
  · intro hread
    have ht : t.All TypeExpr.Rereadable := hwritten.rereadable (not_infix_of_parseType hwritten hread)
    exact ⟨Except.ok.inj (hread.symm.trans (parseType_of_rereadable hwritten ht)), ht⟩
  · rintro ⟨rfl, ht⟩
    exact parseType_of_rereadable hwritten ht

/-- Brackets that close together, a function with a parameter list of its own, and bounds. -/
theorem parseType_render_nested : ∃ t,
    parseType "Map<struct P<Array<Array<a>>>,(x : <T:A+B> T,...b)->enum E>" = .ok t ∧
      t.render = "Map<struct P<Array<Array<a>>>, (x: <T: A + B>T, ...b) -> enum E>" ∧
      parseType t.render = .ok t := by
  have hparse : (parseType "Map<struct P<Array<Array<a>>>,(x : <T:A+B> T,...b)->enum E>").toOption.any (fun t =>
      t.render = "Map<struct P<Array<Array<a>>>, (x: <T: A + B>T, ...b) -> enum E>" ∧
        ∀ v ∈ t.walk fun _ => true, v.Rereadable) = true := by decide +kernel
  obtain ⟨t, ht, hsame⟩ := exists_of_any hparse
  obtain ⟨htext, hparts⟩ := of_decide_eq_true hsame
  exact ⟨t, ht, htext, (parseType_render ht t).2 ⟨rfl, hparts⟩⟩

/-- A type is accepted, and its text is not. -/
theorem parseType_openings : ∃ t, parseType "Array< <T>T>" = .ok t ∧ t.render = "Array<<T>T>" ∧
    ∀ u, parseType t.render ≠ .ok u := by
  have hparse : (parseType "Array< <T>T>").toOption.any (fun t =>
      t.render = "Array<<T>T>" ∧ (parseType t.render).toOption.isNone) = true := by decide +kernel
  obtain ⟨t, ht, hsame⟩ := exists_of_any hparse
  obtain ⟨htext, hnone⟩ := of_decide_eq_true hsame
  refine ⟨t, ht, htext, fun u hu => ?_⟩
  rw [hu] at hnone
  cases hnone

end Texts

end ScriptTyping
