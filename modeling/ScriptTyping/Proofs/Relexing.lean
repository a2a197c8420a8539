import Mathlib.Data.List.Chain
import ScriptTyping.Proofs.Pieces

/-!
# Lexing what is written

A text that is written piece by piece is read as these pieces again, if no two of them run into each
other. `Before loose p q` says that `q` can stand right behind `p`: for each piece there is a class of
pieces that may follow it without a blank (`Piece.fits`).

Main statement: `relexes`. Pieces of which each stands before the next are the tokens of their text; two
closing brackets become one token `>>`. What a token is read as depends on the next character only, and
this on the next piece (`lexes_mark`).
-/

namespace ScriptTyping

open Piece List Cursor Text Piece

variable {k : Kind} {qs : List Piece} {data : String} {t : Terminal}

/-! ## Characters -/

namespace Text

variable {rs : List Range}

theorem exists_of_covers {n : Nat} (h : covers rs n = true) : ∃ r ∈ rs, r.first ≤ n ∧ n ≤ r.last := by
  induction rs with
  | nil => simp at h
  | cons r rs ih =>
    unfold covers at h
    split at h
    next => simp at h
    next hfirst =>
      simp only [Bool.or_eq_true, decide_eq_true_eq] at h
      obtain hlast | h := h
      · exact ⟨r, by simp, by omega, hlast⟩
      · obtain ⟨q, hq, hn⟩ := ih h
        exact ⟨q, mem_cons_of_mem _ hq, hn⟩

/-- Ranges that have nothing in common. -/
theorem not_covers_of_covers {qs : List Range} {n : Nat}
    (hdisjoint : ∀ r ∈ rs, ∀ q ∈ qs, r.last < q.first ∨ q.last < r.first) (h : covers rs n = true) :
    covers qs n = false := by
  cases hq : covers qs n with
  | false => rfl
  | true =>
    obtain ⟨r, hr, hrn⟩ := exists_of_covers h
    obtain ⟨q, hq, hqn⟩ := exists_of_covers hq
    obtain hlt | hlt := hdisjoint r hr q hq <;> omega

theorem isIdentStart_of_isBlank {c : Char} (h : isBlank c = true) : isIdentStart c = false := by
  have hstart : covers startRanges c.toNat = false := not_covers_of_covers (by decide +kernel) h
  have hc : c ≠ '_' ∧ c ≠ '$' := by
    constructor <;> rintro rfl <;> exact absurd h (by decide)
  simp [isIdentStart, hstart, hc]

end Text

theorem covers_of_isDecimal {c : Char} (h : isDecimal c = true) : covers [⟨0x30, 0x39⟩] c.toNat = true := by
  simp only [isDecimal, Bool.and_eq_true, decide_eq_true_eq] at h
  have h1 : '0'.toNat ≤ c.toNat := h.1
  have h2 : c.toNat ≤ '9'.toNat := h.2
  simp [covers]
  exact ⟨h1, h2⟩

theorem isIdentStart_of_isDecimal {c : Char} (h : isDecimal c = true) : isIdentStart c = false := by
  have hstart : covers startRanges c.toNat = false :=
    not_covers_of_covers (by decide +kernel) (covers_of_isDecimal h)
  have hc : c ≠ '_' ∧ c ≠ '$' := by
    constructor <;> rintro rfl <;> exact absurd h (by decide)
  simp [isIdentStart, hstart, hc]

theorem isBlank_of_isDecimal {c : Char} (h : isDecimal c = true) : isBlank c = false :=
  not_covers_of_covers (by decide +kernel) (covers_of_isDecimal h)

variable {cs rest w : List Char} {s u : Symbol}

/-- A property of some characters is looked up character by character. -/
theorem forall_mem_of_all {P : Char → Prop} [DecidablePred P]
    (h : (cs.all fun c => P c) = true) : ∀ c ∈ cs, P c :=
  fun c hc => of_decide_eq_true (all_eq_true.1 h c hc)

theorem Symbol.chars_not : ∀ c ∈ s.spelling.toList, isBlank c = false ∧
    isIdentContinue c = false ∧ isDecimal c = false ∧ c ≠ '"' ∧ c ≠ '\x27' := by
  cases s <;> exact forall_mem_of_all (by decide)

/-! ## Terminals -/

/-- What is read at the front of a text: a token of some kind and data, and the text behind it. -/
def Lexes (cs : List Char) (k : Kind) (data : String) (rest : List Char) : Prop :=
  ∀ p, (token p cs).1.kind = k ∧ (token p cs).1.data = data ∧
    (token p cs).2.rest = rest

theorem Lexes.unique {rest' : List Char} {k' : Kind} {data' : String} (h : Lexes cs k data rest)
    (h' : Lexes cs k' data' rest') : k = k' ∧ data = data' ∧ rest = rest' := by
  obtain ⟨rfl, rfl, rfl⟩ := h .start
  exact h' .start

/-- The letters of an identifier. -/
def IsWord (cs : List Char) : Prop :=
  ∃ c ds, cs = c :: ds ∧ isIdentStart c ∧ ∀ d ∈ ds, isIdentContinue d

theorem takeWhile_word (hw : IsWord w) (hrest : ∀ c ∈ rest.head?, isIdentContinue c = false) :
    (w ++ rest).takeWhile isIdentContinue = w := by
  obtain ⟨c, ds, rfl, hc, hds⟩ := hw
  have hall : ∀ d ∈ c :: ds, isIdentContinue d = true :=
    List.forall_mem_cons.2 ⟨isIdentContinue_of_isIdentStart hc, hds⟩
  rw [List.takeWhile_append_of_pos hall]
  cases rest <;> simp_all

theorem lexes_word (hw : IsWord w) (hrest : ∀ c ∈ rest.head?, isIdentContinue c = false) :
    (Keyword.ofSpelling? (String.ofList w) = none → Lexes (w ++ rest) .ident (String.ofList w) rest) ∧
      ∀ k, Keyword.ofSpelling? (String.ofList w) = some k → Lexes (w ++ rest) (.keyword k) "" rest := by
  have htake := takeWhile_word hw hrest
  have hdrop : (w ++ rest).dropWhile isIdentContinue = rest := by
    have happend := List.takeWhile_append_dropWhile (p := isIdentContinue) (l := w ++ rest)
    rwa [htake, List.append_cancel_left_eq] at happend
  obtain ⟨c, ds, rfl, hc, -⟩ := hw
  constructor
  · intro hfree p
    rw [List.cons_append, token, if_pos hc, ← List.cons_append]
    simp only [word, htake, hdrop, hfree]
    exact ⟨rfl, rfl, rfl⟩
  · intro k hk p
    rw [List.cons_append, token, if_pos hc, ← List.cons_append]
    simp only [word, htake, hdrop, hk]
    exact ⟨rfl, rfl, rfl⟩

theorem scanNumber_append {n : String} (hn : IsNumeral n)
    (hrest : ∀ c ∈ rest.head?, isDecimal c = false ∧ c ≠ '_')
    (hdot : ∀ d ds, rest = '.' :: d :: ds → isDecimal d = false) :
    scanNumber (n.toList ++ rest) = ⟨n.toList, n.toList, rest⟩ := by
  obtain ⟨whole, fraction, hn, -, hwhole, hfraction⟩ := hn
  have hall : ∀ c ∈ whole, (isDecimal c || c == '_') = true := fun c hc => by simp [hwhole c hc]
  -- The whole part ends where the fraction or the text behind the number begins.
  have hstop : ∀ c ∈ (fraction ++ rest).head?, (isDecimal c || c == '_') = false := by
    obtain rfl | ⟨ds, rfl, -, -⟩ := hfraction
    · intro c hc
      simpa using hrest c hc
    · simp only [List.cons_append, List.head?_cons, Option.mem_some_iff]
      rintro c rfl
      decide
  have htake : (n.toList ++ rest).takeWhile (fun c => isDecimal c || c == '_') = whole := by
    rw [hn, List.append_assoc, List.takeWhile_append_of_pos hall]
    cases hfr : fraction ++ rest <;> simp_all
  have hdrop : (n.toList ++ rest).dropWhile (fun c => isDecimal c || c == '_') = fraction ++ rest := by
    rw [hn, List.append_assoc, List.dropWhile_append_of_pos hall]
    cases hfr : fraction ++ rest <;> simp_all
  have hdigits : whole.filter (· != '_') = whole := by
    refine List.filter_eq_self.2 fun c hc => bne_iff_ne.2 ?_
    rintro rfl
    exact absurd (hwhole _ hc) (by decide)
  unfold scanNumber
  simp only [htake, hdrop, hdigits]
  obtain rfl | ⟨ds, rfl, hne, hds⟩ := hfraction
  · rw [List.append_nil] at hn
    rw [hn, List.nil_append]
    split
    next d ds => simp [hdot d ds rfl]
    next => rfl
  · obtain ⟨d, ds, rfl⟩ := List.exists_cons_of_ne_nil hne
    have hstop : ∀ c ∈ rest.head?, isDecimal c = false := fun c hc => (hrest c hc).1
    have htake : (d :: (ds ++ rest)).takeWhile isDecimal = d :: ds := by
      rw [← List.cons_append, List.takeWhile_append_of_pos hds]
      cases rest <;> simp_all
    have hdrop : (d :: (ds ++ rest)).dropWhile isDecimal = rest := by
      rw [← List.cons_append, List.dropWhile_append_of_pos hds]
      cases rest <;> simp_all
    simp only [List.cons_append, hds d (by simp), if_true, htake, hdrop, hn]

theorem lexes_number {n : String} (hn : IsNumeral n) (hrest : ∀ c ∈ rest.head?, isDecimal c = false ∧ c ≠ '_')
    (hdot : ∀ d ds, rest = '.' :: d :: ds → isDecimal d = false) :
    Lexes (n.toList ++ rest) .number n rest := by
  intro p
  have hscan := scanNumber_append hn hrest hdot
  obtain ⟨whole, fraction, heq, hne, hwhole, -⟩ := hn
  obtain ⟨d, ds, rfl⟩ := List.exists_cons_of_ne_nil hne
  have hd := hwhole d (by simp)
  have htoken : token p (n.toList ++ rest) = accept .number p (scanNumber (n.toList ++ rest)) := by
    rw [heq]
    simp only [List.cons_append, token, isIdentStart_of_isDecimal hd, hd, if_true]
    rfl
  rw [htoken, hscan]
  exact ⟨rfl, String.ofList_toList, rfl⟩

/-- A character that a quoted text shows as it is, or by an escape that can be read. -/
def Readable (c : Char) : Prop := isPrintable c ∨ c = '\n' ∨ c = '\t' ∨ c = '\r'

theorem scan_escape {c : Char} (hc : Readable c) (cs : List Char) : ∃ ds,
    StringBody.scan '"' (Text.escape '"' c ++ cs) = (StringBody.scan '"' cs).cons ds c := by
  have hcontrol (e : Char) (h : e = '\n' ∨ e = '\t' ∨ e = '\r') : ∃ ds,
      StringBody.scan '"' (escape '"' e ++ cs) = (StringBody.scan '"' cs).cons ds e := by
    obtain rfl | rfl | rfl := h <;> exact ⟨_, rfl⟩
  obtain hprint | hc := hc
  · by_cases hmark : c = '"'
    · subst hmark
      exact ⟨_, rfl⟩
    by_cases hslash : c = '\\'
    · subst hslash
      exact ⟨_, rfl⟩
    have hline : c ≠ '\n' := by
      rintro rfl
      exact absurd hprint (by decide)
    have hescape : Text.escape '"' c = [c] := by simp [escape, hmark, hslash, hprint]
    refine ⟨[c], ?_⟩
    rw [hescape, List.singleton_append, StringBody.scan.eq_def]
    simp only [hmark, hline, hslash, if_false]
  · exact hcontrol c hc

theorem scan_escapes {v : List Char} (hv : ∀ c ∈ v, Readable c) (rest : List Char) :
    ∃ ds, StringBody.scan '"' (v.flatMap (Text.escape '"') ++ '"' :: rest) = ⟨ds, v, none, rest⟩ := by
  induction v with
  | nil =>
    refine ⟨['"'], ?_⟩
    rw [StringBody.scan.eq_def]
    rfl
  | cons c v ih =>
    obtain ⟨ds, hds⟩ := ih fun d hd => hv d (List.mem_cons_of_mem _ hd)
    obtain ⟨es, hes⟩ := scan_escape (hv c (by simp)) (v.flatMap (escape '"') ++ '"' :: rest)
    refine ⟨es ++ ds, ?_⟩
    rw [List.flatMap_cons, List.append_assoc, hes, hds]
    rfl

theorem lexes_string {v : String} (hv : ∀ c ∈ v.toList, Readable c) (rest : List Char) :
    Lexes ((quote v).toList ++ rest) .string v rest := by
  intro p
  obtain ⟨ds, hds⟩ := scan_escapes hv rest
  rw [quote, String.toList_ofList, List.cons_append, List.cons_append, List.append_assoc,
    List.singleton_append, token, if_neg (by decide), if_neg (by decide), if_pos (by decide)]
  simp only [string, hds, accept, String.ofList_toList, and_self]

/-- Some symbol goes on with a character where another ends. -/
def Symbol.extends (s : Symbol) (c : Char) : Bool :=
  all.any fun u => (s.spelling.toList ++ [c]).isPrefixOf u.spelling.toList

theorem Symbol.mem_all (s : Symbol) : s ∈ all := by cases s <;> decide

theorem Symbol.spelling_injective (h : s.spelling.toList = u.spelling.toList) : s = u := by
  have hs := Symbol.ofChars?_spelling s
  rw [h, Symbol.ofChars?_spelling u] at hs
  exact (Option.some.inj hs).symm

theorem Symbol.length_le_three (s : Symbol) : s.spelling.toList.length ≤ 3 := by cases s <;> decide

/-- A symbol that some text starts with is the longest, or the text goes on with it. -/
theorem Symbol.length_le_of_prefix (hrest : ∀ c ∈ rest.head?, s.extends c = false)
    (hu : u.spelling.toList <+: s.spelling.toList ++ rest) :
    u.spelling.toList.length ≤ s.spelling.toList.length := by
  obtain hle | hle := List.prefix_or_prefix_of_prefix hu (List.prefix_append _ _)
  · exact hle.length_le
  obtain ⟨tail, htail⟩ := hle
  cases tail with
  | nil => simp [← htail]
  | cons c tail =>
    rw [← htail, List.prefix_append_right_inj] at hu
    obtain ⟨rest', rfl⟩ := hu
    have hc := hrest c (by simp)
    simp only [Symbol.extends, List.any_eq_false] at hc
    refine (hc u (Symbol.mem_all u) ?_).elim
    rw [List.isPrefixOf_iff_prefix, ← htail]
    simp

theorem symbolOfLength?_eq_some {n : Nat}
    (h : symbolOfLength? n cs = some u) : u.spelling.toList = cs.take n := by
  simpa using List.find?_some h

theorem symbol?_append (hrest : ∀ c ∈ rest.head?, s.extends c = false) :
    symbol? (s.spelling.toList ++ rest) = some s := by
  have hmax (n : Nat) (hn : s.spelling.toList.length < n) (hpos : n ≤ 3) :
      symbolOfLength? n (s.spelling.toList ++ rest) = none ∨
        symbolOfLength? n (s.spelling.toList ++ rest) = some s := by
    cases hu : symbolOfLength? n (s.spelling.toList ++ rest) with
    | none => exact .inl rfl
    | some u =>
      have htake := symbolOfLength?_eq_some hu
      have hlen := Symbol.length_le_of_prefix hrest (htake ▸ List.take_prefix _ _)
      rw [htake, List.length_take, List.length_append] at hlen
      have hnil : rest = [] := List.eq_nil_of_length_eq_zero (by omega)
      subst hnil
      rw [List.append_nil, List.take_of_length_le (by omega)] at htake
      exact .inr (congrArg some (Symbol.spelling_injective htake))
  have hfound (n : Nat) (hn : s.spelling.toList.length = n) :
      symbolOfLength? n (s.spelling.toList ++ rest) = some s := by
    subst hn
    rw [symbolOfLength?, List.take_left, Symbol.ofChars?_spelling]
  have hpos := Symbol.spelling_length_pos s
  have hle := Symbol.length_le_three s
  unfold symbol?
  obtain h1 | h2 | h3 : s.spelling.toList.length = 1 ∨ s.spelling.toList.length = 2 ∨
    s.spelling.toList.length = 3 := by omega
  · have h2 := hmax 2 (by omega) (by omega)
    have h3 := hmax 3 (by omega) (by omega)
    rw [hfound 1 h1]
    obtain h2 | h2 := h2 <;> obtain h3 | h3 := h3 <;> simp [h2, h3]
  · have h3 := hmax 3 (by omega) (by omega)
    rw [hfound 2 h2]
    obtain h3 | h3 := h3 <;> simp [h3]
  · rw [hfound 3 h3]
    rfl

theorem lexes_symbol (hrest : ∀ c ∈ rest.head?, s.extends c = false) :
    Lexes (s.spelling.toList ++ rest) (.symbol s) "" rest := by
  intro p
  have hsymbol := symbol?_append hrest
  obtain ⟨c, cs, heq⟩ := List.exists_cons_of_length_pos (Symbol.spelling_length_pos s)
  obtain ⟨-, hident, hdecimal, hquote, hmark⟩ := Symbol.chars_not c (heq ▸ List.mem_cons_self)
  have hstart : isIdentStart c = false := by
    cases h : isIdentStart c with
    | false => rfl
    | true => rw [isIdentContinue_of_isIdentStart h] at hident; cases hident
  rw [heq] at hsymbol ⊢
  simp only [List.cons_append] at hsymbol ⊢
  rw [token, if_neg (by simp [hstart]), if_neg (by simp [hdecimal]), if_neg (by simp [hquote, hmark])]
  simp [Cursor.symbol, hsymbol, heq, Cursor.accept]

/-! ## What stands beside what -/

namespace Piece

/-- The end of a text. -/
abbrev ending : Piece := mark ⟨.eof, ""⟩

/-- A piece that can be read where it stands alone. -/
def Valid : Piece → Prop
  | blank | closing => True
  | mark t => match t.kind with
    | .ident => IsWord t.data.toList
    | .number => IsNumeral t.data
    | .string => ∀ c ∈ t.data.toList, Readable c
    | .symbol s => t.data = "" ∨ s = .less ∧ t.data = "<"
    | .keyword _ | .eof => t.data = ""
    | _ => False

/-- A name or a keyword. -/
def isWord : Piece → Bool
  | mark t => match t.kind with
    | .ident | .keyword _ => true
    | _ => false
  | _ => false

/-- What can stand right behind a word, a literal or a closing bracket. -/
def trails : Piece → Bool
  | blank => true
  | closing => false
  | mark t => match t.kind with
    | .symbol .openParen | .symbol .closeParen | .symbol .openBracket | .symbol .closeBracket
    | .symbol .comma | .symbol .semicolon | .symbol .colon | .symbol .dot | .symbol .arrow
    | .symbol .increment | .symbol .decrement | .eof => true
    | .symbol .less => t.data == "<"
    | _ => false

/-- What can stand right behind an operator before its operand or an opening bracket. -/
def leads : Piece → Bool
  | mark t => match t.kind with
    | .ident | .keyword _ | .number | .string | .symbol .openParen | .symbol .openBracket
    | .symbol .openBrace | .symbol .closeBrace | .symbol .bang | .symbol .minus | .symbol .plus
    | .symbol .tilde | .symbol .increment | .symbol .decrement | .symbol .ellipsis => true
    | .symbol .less => t.data == "<"
    | _ => false
  | _ => false

/-- Whether a piece can stand right behind another. In a loose text, two opening brackets can. -/
def fits (loose : Bool) (p q : Piece) : Bool :=
  match p with
  | blank => q ≠ closing
  | closing => q = closing || q.trails || q.isWord
  | mark t => match t.kind with
    | .ident => q = closing || q.trails
    | .keyword _ => q.trails && q ≠ symbol .colon
    | .number | .string => q.trails
    | .symbol .dot => q.isWord
    | .symbol .bang => q = blank || q.leads
    | .symbol .plus => q = blank || (q.leads && q ≠ symbol .plus && q ≠ symbol .increment)
    | .symbol .minus => q = blank || (q.leads && q ≠ symbol .minus && q ≠ symbol .decrement)
    | .symbol .less =>
      if t.data = "" then q = blank else q.isWord || q = symbol .openParen || (loose && q = opening)
    | .symbol .openParen | .symbol .closeParen | .symbol .openBracket | .symbol .closeBracket
    | .symbol .openBrace | .symbol .closeBrace | .symbol .comma | .symbol .semicolon | .symbol .colon
    | .symbol .tilde | .symbol .increment | .symbol .decrement | .symbol .arrow | .symbol .ellipsis =>
      q.trails || q.leads
    | .symbol _ => q = blank
    | _ => false

end Piece

/-- A piece stands right behind another. A keyword is a name only in a loose text, before a colon. -/
structure Before (loose : Bool) (p q : Piece) : Prop where
  valid : q.Valid
  fits : p.fits loose q
  key {n : String} (h : p = ident n) : Keyword.ofSpelling? n = none ∨ loose ∧ q = symbol .colon

theorem head_word (h : IsWord cs) : ∃ c, cs.head? = some c ∧ isIdentStart c := by
  obtain ⟨c, ds, rfl, hc, -⟩ := h
  exact ⟨c, rfl, hc⟩

theorem head_numeral {n : String} (h : IsNumeral n) : ∃ c, n.toList.head? = some c ∧ isDecimal c := by
  obtain ⟨whole, fraction, heq, hne, hwhole, -⟩ := h
  obtain ⟨d, ds, rfl⟩ := List.exists_cons_of_ne_nil hne
  exact ⟨d, by simp [heq], hwhole d (by simp)⟩

theorem Keyword.isWord_spelling (k : Keyword) : IsWord k.spelling.toList := by
  cases k <;> exact ⟨_, _, rfl, by decide, forall_mem_of_all (by decide)⟩

theorem Keyword.ofSpelling?_spelling (k : Keyword) : ofSpelling? k.spelling = some k := by
  cases k <;> decide

/-- The character that a symbol starts with. -/
def Symbol.first (s : Symbol) : Char := s.spelling.toList.headD ' '

theorem Symbol.head_spelling (s : Symbol) : s.spelling.toList.head? = some s.first := by
  cases s <;> rfl

/-- The character that a piece starts with. -/
inductive Piece.Starts : Piece → Char → Prop
  | blank : Starts blank ' '
  | closing : Starts closing '>'
  | word {p : Piece} {c} (hp : p.isWord) (hc : isIdentStart c) : Starts p c
  | number {n c} (hc : isDecimal c) : Starts (mark ⟨.number, n⟩) c
  | string {v} : Starts (mark ⟨.string, v⟩) '"'
  | symbol {s : Symbol} {d} : Starts (mark ⟨.symbol s, d⟩) s.first

section Chains

variable {loose : Bool} {p q : Piece} {ps : List Piece} {c : Char}

theorem Piece.Valid.starts (h : p.Valid) : p = ending ∨ ∃ c, p.chars.head? = some c ∧ p.Starts c := by
  cases p with
  | blank => exact .inr ⟨' ', rfl, .blank⟩
  | closing => exact .inr ⟨'>', rfl, .closing⟩
  | mark t =>
    obtain ⟨k, d⟩ := t
    cases k with
    | ident =>
      obtain ⟨c, hc, hstart⟩ := head_word h
      exact .inr ⟨c, hc, .word rfl hstart⟩
    | keyword k =>
      obtain ⟨c, hc, hstart⟩ := head_word k.isWord_spelling
      exact .inr ⟨c, hc, .word rfl hstart⟩
    | number =>
      obtain ⟨c, hc, hdec⟩ := head_numeral h
      exact .inr ⟨c, hc, .number hdec⟩
    | string => exact .inr ⟨'"', by simp [Terminal.chars, Text.quote], .string⟩
    | symbol s => exact .inr ⟨s.first, s.head_spelling, .symbol⟩
    | eof =>
      obtain rfl : d = "" := h
      exact .inl rfl
    | illegal => exact h.elim
    | unknown => exact h.elim

/-- Characters that end every word and number and extend no closing bracket. -/
def trailChars : List Char := [' ', '(', ')', '[', ']', ',', ';', ':', '.', '-', '+', '<']

theorem Piece.Starts.trailing (h : p.Starts c) (hp : p.trails) : c ∈ trailChars := by
  cases h with
  | blank => decide
  | closing => cases hp
  | word hw =>
    cases p with
    | blank | closing => cases hw
    | mark t =>
      obtain ⟨k, d⟩ := t
      cases k <;> simp_all [isWord, trails]
  | number | string => cases hp
  | @symbol s => cases s <;> simp_all [trails, Symbol.first, Symbol.spelling, trailChars]

/-- Characters that start an operand, if no letter and no digit does. -/
def leadChars : List Char := ['"', '(', '[', '\x7b', '\x7d', '!', '-', '+', '~', '.', '<']

theorem Piece.Starts.leading (h : p.Starts c) (hp : p.leads) :
    isIdentStart c ∨ isDecimal c ∨ c ∈ leadChars := by
  cases h with
  | blank | closing => cases hp
  | word hw hc => exact .inl hc
  | number hc => exact .inr (.inl hc)
  | string => exact .inr (.inr (by decide))
  | @symbol s => cases s <;> simp_all [leads, Symbol.first, Symbol.spelling, leadChars]

/-- The first character of some pieces is that of the first piece. -/
theorem head_spell (h : (p :: ps).IsChain (Before loose)) (hp : p.Valid) (hc : c ∈ (spell (p :: ps)).head?) :
    p.Starts c := by
  obtain rfl | ⟨d, hd, hstarts⟩ := hp.starts
  · cases ps with
    | nil => simp [Terminal.chars] at hc
    | cons q ps => exact absurd (isChain_cons_cons.1 h).1.fits nofun
  · simp only [spell_cons, head?_append, hd, Option.some_or, Option.mem_some_iff] at hc
    exact hc ▸ hstarts

end Chains

section Lexing

variable {loose : Bool} {p q : Piece} {ps : List Piece} {c : Char}

theorem Piece.Starts.eq_blank (h : Piece.blank.Starts c) : c = ' ' := by
  cases h with
  | blank => rfl
  | word hw => cases hw

theorem Piece.Starts.of_isWord (h : p.Starts c) (hp : p.isWord) : isIdentStart c := by
  cases h with
  | word _ hc => exact hc
  | _ => cases hp

theorem Piece.Starts.ne_of_leads (h : p.Starts c) (hp : p.leads) {d : Char}
    (hstart : isIdentStart d = false) (hdec : isDecimal d = false) (hd : d ∉ leadChars) : c ≠ d := by
  rintro rfl
  obtain hc | hc | hc := h.leading hp
  · simp [hc] at hstart
  · simp [hc] at hdec
  · exact hd hc

/-- The operators that an operand with a sign starts with. -/
theorem Piece.Starts.sign (h : p.Starts c) (hp : p.leads) (hv : p.Valid) (hc : c = '+' ∨ c = '-') :
    if c = '+' then p = Piece.symbol .plus ∨ p = Piece.symbol .increment
    else p = Piece.symbol .minus ∨ p = Piece.symbol .decrement := by
  cases h with
  | blank | closing => cases hp
  | word _ hstart => obtain rfl | rfl := hc <;> exact absurd hstart (by decide)
  | number hdec => obtain rfl | rfl := hc <;> exact absurd hdec (by decide)
  | string => simp at hc
  | @symbol s d => cases s <;> simp_all [leads, Symbol.first, Symbol.spelling, Piece.Valid]

theorem Symbol.extends_of_fits {d : String} (h : (mark ⟨.symbol s, d⟩).fits loose q) (hq : q.Starts c)
    (hv : q.Valid) (hdouble : ¬ (s = .less ∧ q = opening)) : s.extends c = false := by
  -- No symbol goes on with a blank, and only those listed by `simp` go on at all.
  have hblank (s : Symbol) (h : q = blank) : s.extends c = false := by
    subst h
    rw [hq.eq_blank]
    cases s <;> decide
  cases s with
  | dot =>
    have hc : c ≠ '.' := by
      rintro rfl
      exact absurd (hq.of_isWord h) (by decide)
    simp [Symbol.extends, Symbol.all, Symbol.spelling, List.isPrefixOf, hc]
  | bang =>
    simp only [fits, Bool.or_eq_true, decide_eq_true_eq] at h
    obtain h | h := h
    · exact hblank _ h
    have hc : c ≠ '=' := hq.ne_of_leads h (by decide) (by decide) (by decide)
    simp [Symbol.extends, Symbol.all, Symbol.spelling, List.isPrefixOf, hc]
  | plus =>
    simp only [fits, Bool.or_eq_true, Bool.and_eq_true, decide_eq_true_eq] at h
    obtain h | ⟨⟨h, hplus⟩, hincrement⟩ := h
    · exact hblank _ h
    have hc : c ≠ '=' := hq.ne_of_leads h (by decide) (by decide) (by decide)
    have hsign : c ≠ '+' := by
      rintro rfl
      exact (hq.sign h hv (.inl rfl)).elim hplus hincrement
    simp [Symbol.extends, Symbol.all, Symbol.spelling, List.isPrefixOf, hc, hsign]
  | minus =>
    simp only [fits, Bool.or_eq_true, Bool.and_eq_true, decide_eq_true_eq] at h
    obtain h | ⟨⟨h, hminus⟩, hdecrement⟩ := h
    · exact hblank _ h
    have hc : c ≠ '=' := hq.ne_of_leads h (by decide) (by decide) (by decide)
    have hangle : c ≠ '>' := hq.ne_of_leads h (by decide) (by decide) (by decide)
    have hsign : c ≠ '-' := by
      rintro rfl
      exact (hq.sign h hv (.inr rfl)).elim hminus hdecrement
    simp [Symbol.extends, Symbol.all, Symbol.spelling, List.isPrefixOf, hc, hangle, hsign]
  | less =>
    simp only [fits] at h
    split at h
    next => exact hblank _ (by simpa using h)
    next =>
      simp only [Bool.or_eq_true, Bool.and_eq_true, decide_eq_true_eq] at h
      obtain (h | rfl) | ⟨-, rfl⟩ := h
      · have hc := hq.of_isWord h
        have heq : c ≠ '=' ∧ c ≠ '<' := by
          constructor <;> rintro rfl <;> exact absurd hc (by decide)
        simp [Symbol.extends, Symbol.all, Symbol.spelling, List.isPrefixOf, heq]
      · cases hq with
        | symbol => decide
        | word hw => cases hw
      · exact (hdouble ⟨rfl, rfl⟩).elim
  | openParen | closeParen | openBracket | closeBracket | openBrace | closeBrace | comma | semicolon
  | colon | tilde | increment | decrement | arrow | ellipsis => rfl
  | _ => exact hblank _ (by simpa [fits] using h)

theorem Piece.Valid.isWord_chars (h : p.Valid) (hp : p.isWord) : IsWord p.chars := by
  cases p with
  | blank | closing => cases hp
  | mark t =>
    obtain ⟨k, d⟩ := t
    cases k with
    | ident => exact h
    | keyword k => exact k.isWord_spelling
    | _ => cases hp

/-- A word ends where the next piece starts. -/
theorem not_isIdentContinue (hp : p.isWord) (h : Before loose p q)
    (hrest : (q :: ps).IsChain (Before loose)) :
    ∀ c ∈ (spell (q :: ps)).head?, isIdentContinue c = false := by
  intro c hc
  have hstarts := head_spell hrest h.valid hc
  have hfits : q = closing ∨ q.trails := by
    have hfits := h.fits
    cases p with
    | blank | closing => cases hp
    | mark t =>
      obtain ⟨k, d⟩ := t
      cases k with
      | ident => simpa [fits] using hfits
      | keyword => exact .inr (Bool.and_eq_true_iff.1 hfits).1
      | _ => cases hp
  obtain rfl | hq := hfits
  · cases hstarts with
    | closing => decide
    | word hw => cases hw
  · have hall : ∀ c ∈ trailChars, isIdentContinue c = false := forall_mem_of_all (by decide)
    exact hall c (hstarts.trailing hq)

theorem Piece.Starts.dot (h : p.Starts '.') (hp : p.trails) : ∃ d, p = mark ⟨.symbol .dot, d⟩ := by
  generalize hc : '.' = c at h
  cases h with
  | blank | closing | string => simp at hc
  | word _ hstart => exact absurd (hc ▸ hstart) (by decide)
  | number hdec => exact absurd (hc ▸ hdec) (by decide)
  | @symbol s d => cases s <;> simp_all [trails, Symbol.first, Symbol.spelling]

/-- A token is read as it was written, where the next piece fits behind it. -/
theorem lexes_mark (hp : (mark t).Valid) (hne : mark t ≠ ending) (h : Before loose (mark t) q)
    (hrest : (q :: ps).IsChain (Before loose)) (hdouble : ¬ (t.kind = .symbol .less ∧ q = opening))
    (hfree : t.kind = .ident → Keyword.ofSpelling? t.data = none) :
    Lexes (t.chars ++ spell (q :: ps)) t.kind t.content (spell (q :: ps)) := by
  have hhead {c : Char} (hc : c ∈ (spell (q :: ps)).head?) : q.Starts c := head_spell hrest h.valid hc
  have hfits := h.fits
  obtain ⟨k, d⟩ := t
  cases k with
  | ident =>
    have hword := (lexes_word (w := d.toList) hp (not_isIdentContinue rfl h hrest)).1
    rw [String.ofList_toList] at hword
    exact hword (hfree rfl)
  | keyword k =>
    have hword := (lexes_word k.isWord_spelling (not_isIdentContinue rfl h hrest)).2 k
    rw [String.ofList_toList] at hword
    exact hword k.ofSpelling?_spelling
  | number =>
    have hc (c : Char) (hc : c ∈ (spell (q :: ps)).head?) : c ∈ trailChars := (hhead hc).trailing hfits
    refine lexes_number hp (fun c h => ?_) fun c ds heq => ?_
    · have hall : ∀ c ∈ trailChars, isDecimal c = false ∧ c ≠ '_' := forall_mem_of_all (by decide)
      exact hall c (hc c h)
    · obtain ⟨e, rfl⟩ := (hhead (by simp [heq])).dot hfits
      obtain ⟨r, ps, rfl⟩ : ∃ r qs, ps = r :: qs := by
        cases ps with
        | nil => simp [Terminal.chars, Symbol.spelling] at heq
        | cons r qs => exact ⟨r, qs, rfl⟩
      obtain ⟨hr, hrest⟩ := isChain_cons_cons.1 hrest
      have hc : c ∈ (spell (r :: ps)).head? := by
        simp [Terminal.chars, Symbol.spelling] at heq
        simp [heq]
      have hstart := (head_spell hrest hr.valid hc).of_isWord hr.fits
      cases hdec : isDecimal c with
      | false => rfl
      | true => simp [isIdentStart_of_isDecimal hdec] at hstart
  | string => exact lexes_string hp _
  | symbol s =>
    refine lexes_symbol fun c hc => Symbol.extends_of_fits hfits (hhead hc) h.valid ?_
    rintro ⟨rfl, hq⟩
    exact hdouble ⟨rfl, hq⟩
  | eof =>
    obtain rfl : d = "" := hp
    exact (hne rfl).elim
  | illegal => exact hp.elim
  | unknown => exact hp.elim

end Lexing

/-! ## Whole texts -/

namespace Cursor

theorem next_blank (p : Pos) (cs : List Char) : next ⟨p, ' ' :: cs⟩ = next ⟨p.after ' ', cs⟩ := rfl

theorem next_eq_token {c : Char} (hc : isBlank c = false)
    (hcomment : c = '/' → ∀ d ∈ cs.head?, d ≠ '/' ∧ d ≠ '*') (p : Pos) :
    next ⟨p, c :: cs⟩ = token p (c :: cs) := by
  have hskip : Trivia.skip .between p (c :: cs) = ⟨none, p, c :: cs⟩ := by
    rw [Trivia.skip.eq_def]
    split <;> simp_all
  simp only [next, hskip]

theorem tokenize_of_next {c : Cursor} {ts : List Token} (hlegal : c.next.1.kind ≠ .illegal)
    (hend : c.next.1.kind ≠ .eof) (h : c.next.2.tokenize = .ok ts) : c.tokenize = .ok (c.next.1 :: ts) := by
  rw [tokenize]
  simp only [if_neg hlegal, if_neg hend, h]
  rfl

end Cursor

section Tokens

variable {loose : Bool} {p q : Piece} {ps : List Piece} {c : Char}

theorem Piece.Starts.isBlank (h : p.Starts c) (hp : p ≠ Piece.blank) : Text.isBlank c = false := by
  cases h with
  | blank => exact (hp rfl).elim
  | closing | string => decide
  | word _ hc =>
    cases hb : Text.isBlank c with
    | false => rfl
    | true => simp [isIdentStart_of_isBlank hb] at hc
  | number hc => exact isBlank_of_isDecimal hc
  | @symbol s => exact (Symbol.chars_not _ (mem_of_mem_head? s.head_spelling)).1

theorem Piece.Starts.slash (h : p.Starts '/') :
    ∃ d, p = mark ⟨.symbol .slash, d⟩ ∨ p = mark ⟨.symbol .slashAssign, d⟩ := by
  generalize hc : '/' = c at h
  cases h with
  | blank | closing | string => simp at hc
  | word _ hstart => exact absurd (hc ▸ hstart) (by decide)
  | number hdec => exact absurd (hc ▸ hdec) (by decide)
  | @symbol s d => cases s <;> simp_all [Symbol.first, Symbol.spelling]

/-- No blank stands before a piece that is none, and no comment starts with one. -/
theorem next_spell (hp : p.Valid) (hblank : p ≠ blank) (hend : p ≠ ending)
    (h : (p :: q :: ps).IsChain (Before loose)) (pos : Pos) :
    Cursor.next ⟨pos, spell (p :: q :: ps)⟩ = token pos (spell (p :: q :: ps)) := by
  obtain hp | ⟨c, hc, hstarts⟩ := hp.starts
  · exact (hend hp).elim
  obtain ⟨hq, hrest⟩ := isChain_cons_cons.1 h
  obtain ⟨cs, hcs⟩ : ∃ cs, p.chars = c :: cs := head?_eq_some_iff.1 hc
  rw [spell_cons, hcs, cons_append]
  refine next_eq_token (hstarts.isBlank hblank) ?_ pos
  rintro rfl d hd
  obtain ⟨e, rfl | rfl⟩ := hstarts.slash
  · obtain rfl : q = blank := by simpa [fits] using hq.fits
    obtain rfl : cs = [] := by simpa [Terminal.chars, Symbol.spelling] using hcs.symm
    obtain rfl : d = ' ' := by simpa using hd.symm
    decide
  · obtain rfl : cs = ['='] := by simpa [Terminal.chars, Symbol.spelling] using hcs.symm
    obtain rfl : d = '=' := by simpa using hd.symm
    decide

/-- A closing bracket is not taken for the front of a comparison. -/
theorem Piece.Starts.ne_assign (h : q.Starts c) (hq : Piece.closing.fits loose q) : c ≠ '=' := by
  simp only [Piece.fits, Bool.or_eq_true, decide_eq_true_eq] at hq
  obtain (rfl | hq) | hq := hq
  · cases h with
    | closing => decide
    | word hw => cases hw
  · have hall : ∀ c ∈ trailChars, c ≠ '=' := forall_mem_of_all (by decide)
    exact hall c (h.trailing hq)
  · rintro rfl
    exact absurd (h.of_isWord hq) (by decide)

theorem Piece.Starts.ne_angle (h : q.Starts c) (hq : Piece.closing.fits loose q) (hne : q ≠ Piece.closing) :
    c ≠ '>' := by
  simp only [Piece.fits, Bool.or_eq_true, decide_eq_true_eq, hne, false_or] at hq
  obtain hq | hq := hq
  · have hall : ∀ c ∈ trailChars, c ≠ '>' := forall_mem_of_all (by decide)
    exact hall c (h.trailing hq)
  · rintro rfl
    exact absurd (h.of_isWord hq) (by decide)

theorem lexes_closing (h : Before loose closing q) (hrest : (q :: ps).IsChain (Before loose))
    (hne : q ≠ closing) :
    Lexes (spell (Piece.closing :: q :: ps)) (.symbol .greater) "" (spell (q :: ps)) := by
  refine lexes_symbol (s := .greater) fun c hc => ?_
  have hstarts := head_spell hrest h.valid hc
  simp [Symbol.extends, Symbol.all, Symbol.spelling, List.isPrefixOf, hstarts.ne_assign h.fits,
    hstarts.ne_angle h.fits hne]

theorem lexes_closings (h : Before loose closing q) (hrest : (q :: ps).IsChain (Before loose)) :
    Lexes (spell (Piece.closing :: Piece.closing :: q :: ps)) (.symbol .shiftRight) "" (spell (q :: ps)) := by
  refine lexes_symbol (s := .shiftRight) fun c hc => ?_
  have hstarts := head_spell hrest h.valid hc
  simp [Symbol.extends, Symbol.all, Symbol.spelling, List.isPrefixOf, hstarts.ne_assign h.fits]

/-- Wherever the text stands, its tokens show some pieces. -/
def Relexes (cs : List Char) (ps : List Piece) : Prop :=
  ∀ pos, ∃ ts, Cursor.tokenize ⟨pos, cs⟩ = .ok ts ∧ Shown true ts ps

theorem relexes_cons (hnext : ∀ pos, Cursor.next ⟨pos, cs⟩ = token pos cs) (hlex : Lexes cs k data rest)
    (hlegal : k ≠ .illegal) (hend : k ≠ .eof) (hrest : Relexes rest qs)
    (hshown : ∀ t ts, t.kind = k → t.data = data → Shown true ts qs → Shown true (t :: ts) ps) :
    Relexes cs ps := by
  intro pos
  obtain ⟨hk, hdata, hcursor⟩ := hlex pos
  rw [← hnext] at hk hdata hcursor
  obtain ⟨ts, hts, hshow⟩ := hrest (Cursor.next ⟨pos, cs⟩).2.pos
  rw [← hcursor] at hts
  exact ⟨_, tokenize_of_next (hk ▸ hlegal) (hk ▸ hend) hts, hshown _ ts hk hdata hshow⟩

theorem not_double (h : Before false (mark t) q) : ¬ (t.kind = .symbol .less ∧ q = opening) := by
  rintro ⟨hk, rfl⟩
  have hfits := h.fits
  simp [fits, hk, isWord] at hfits

theorem Piece.Valid.ne_illegal (h : (mark t).Valid) : t.kind ≠ .illegal := by
  intro hk
  simp [Piece.Valid, hk] at h

theorem Piece.Valid.ne_eof (h : (mark t).Valid) (hne : mark t ≠ ending) : t.kind ≠ .eof := by
  obtain ⟨k, d⟩ := t
  rintro rfl
  obtain rfl : d = "" := h
  exact hne rfl

end Tokens

/-- What stands first before the end of a text. -/
theorem exists_of_append_ending {q : Piece} {rs : List Piece} (h : qs ++ [ending] = q :: rs) (hq : q ≠ ending) :
    ∃ us, qs = q :: us := by
  cases qs with
  | nil => exact (hq (List.cons.inj h).1.symm).elim
  | cons r us => exact ⟨us, by rw [(List.cons.inj h).1]⟩

/-- Pieces that stand beside each other as they may are lexed one by one, and two brackets that close side
by side together. The end of the text is always behind. -/
theorem chain_induction {loose : Bool} {P : List Piece → Prop} (hend : P [ending])
    (hblank : ∀ qs, P qs → P (.blank :: qs))
    (hclosings : ∀ r rs, (.closing :: .closing :: r :: rs).IsChain (Before loose) → P (r :: rs) →
      P (.closing :: .closing :: r :: rs))
    (hclosing : ∀ r rs, r ≠ .closing → (.closing :: r :: rs).IsChain (Before loose) → P (r :: rs) →
      P (.closing :: r :: rs))
    (hmark : ∀ t qs r rs, qs ++ [ending] = r :: rs → (mark t).Valid → mark t ≠ ending →
      (mark t :: r :: rs).IsChain (Before loose) → P (r :: rs) → P (mark t :: r :: rs))
    {p : Piece} {ps : List Piece} (h : (p :: (ps ++ [ending])).IsChain (Before loose)) : P (ps ++ [ending]) := by
  have hrest (qs : List Piece) : ∃ r rs, qs ++ [ending] = r :: rs := exists_cons_of_ne_nil (by simp)
  match ps with
  | [] => exact hend
  | .blank :: qs =>
    exact hblank _ (chain_induction hend hblank hclosings hclosing hmark (isChain_cons_cons.1 h).2)
  | .closing :: qs =>
    obtain ⟨-, hfirst⟩ := isChain_cons_cons.1 h
    by_cases hboth : ∃ rs, qs = .closing :: rs
    · obtain ⟨qs, rfl⟩ := hboth
      have ih := chain_induction hend hblank hclosings hclosing hmark (isChain_cons_cons.1 hfirst).2
      obtain ⟨r, rs, hr⟩ := hrest qs
      simp only [cons_append, append_eq, hr] at hfirst ih ⊢
      exact hclosings r rs hfirst ih
    · have ih := chain_induction hend hblank hclosings hclosing hmark hfirst
      obtain ⟨r, rs, hr⟩ := hrest qs
      have hne : r ≠ .closing := by
        rintro rfl
        exact hboth (exists_of_append_ending hr nofun)
      simp only [cons_append, append_eq, hr] at hfirst ih ⊢
      exact hclosing r rs hne hfirst ih
  | .mark t :: qs =>
    obtain ⟨hp, hfirst⟩ := isChain_cons_cons.1 h
    have ih := chain_induction hend hblank hclosings hclosing hmark hfirst
    obtain ⟨r, rs, hr⟩ := hrest qs
    simp only [cons_append, append_eq, hr] at hfirst ih ⊢
    refine hmark t qs r rs hr hp.valid (fun hend => ?_) hfirst ih
    rw [hend] at hfirst
    exact absurd (isChain_cons_cons.1 hfirst).1.fits nofun
termination_by ps.length

/-- Pieces that stand beside each other as they may are the tokens of their text. -/
theorem relexes {p : Piece} {ps : List Piece} (h : (p :: (ps ++ [ending])).IsChain (Before false)) :
    Relexes (spell (ps ++ [ending])) (ps ++ [ending]) := by
  refine chain_induction (P := fun qs => Relexes (spell qs) qs) (fun pos => ?_) (fun qs ih pos => ?_)
    (fun r rs h ih => ?_) (fun r rs hne h ih => ?_) (fun t qs r rs _ hp hne h ih => ?_) h
  · exact ⟨_, by rw [Cursor.tokenize]; rfl, .mark ⟨rfl, fun _ => rfl⟩ .nil⟩
  · obtain ⟨ts, hts, hshow⟩ := ih (pos.after ' ')
    refine ⟨ts, ?_, .blank hshow⟩
    rw [Cursor.tokenize] at hts ⊢
    exact hts
  · obtain ⟨hr, hrs⟩ := isChain_cons_cons.1 (isChain_cons_cons.1 h).2
    exact relexes_cons (next_spell trivial nofun nofun h) (lexes_closings hr hrs) nofun nofun ih
      fun t ts hk _ hts => .both hk hts
  · obtain ⟨hr, hrs⟩ := isChain_cons_cons.1 h
    exact relexes_cons (next_spell trivial nofun nofun h) (lexes_closing hr hrs hne) nofun nofun ih
      fun t ts hk _ hts => .closing hk hts
  · obtain ⟨hr, hrs⟩ := isChain_cons_cons.1 h
    refine relexes_cons (next_spell hp nofun hne h) (lexes_mark hp hne hr hrs (not_double hr) fun hk => ?_)
      hp.ne_illegal (hp.ne_eof hne) ih fun u ts hk hdata hts => .mark ⟨hk, fun _ => hdata⟩ hts
    obtain ⟨k, d⟩ := t
    obtain rfl : k = .ident := hk
    exact (hr.key rfl).resolve_right nofun

end ScriptTyping
