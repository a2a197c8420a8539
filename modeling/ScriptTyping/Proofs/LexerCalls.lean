import ScriptTyping.Proofs.Tiling

/-!
# Calls of the lexer

**Theorem (`calls_progress`).** However often the lexer is called on a text, also behind illegal tokens,
its place is the one that its offset has in the text. Each call that does not come to the end of the
text goes on by at least one character. So the end comes after at most as many calls as there are
characters, and from then on every call gives the same token.

`Cursor.Reaches` says that one cursor stands behind another, with the places counted through what lies
between them. A call only ever moves its cursor in this way, whatever it finds (`Cursor.reaches_next`):
comments that do not end and strings with a fault are passed like all others.
-/

namespace ScriptTyping

open List StringBody

namespace Cursor

/-! ## What a call takes -/

/-- The second cursor stands behind the first, where the places are counted through what lies between. -/
def Reaches (c d : Cursor) : Prop :=
  ∃ taken, c.rest = taken ++ d.rest ∧ d.pos = c.pos.afterAll taken

theorem Reaches.refl (c : Cursor) : c.Reaches c := ⟨[], rfl, rfl⟩

theorem Reaches.trans {c d e : Cursor} (hcd : c.Reaches d) (hde : d.Reaches e) : c.Reaches e := by
  obtain ⟨taken, hrest, hpos⟩ := hcd
  obtain ⟨more, hrest', hpos'⟩ := hde
  exact ⟨taken ++ more, by rw [hrest, hrest', append_assoc], by rw [hpos', hpos, Pos.afterAll_append]⟩

/-- Over one character. -/
theorem Reaches.cons {p : Pos} {c : Char} {cs : List Char} {d : Cursor} (h : Reaches ⟨p.after c, cs⟩ d) :
    Reaches ⟨p, c :: cs⟩ d := by
  obtain ⟨taken, hrest, hpos⟩ := h
  exact ⟨c :: taken, congrArg (c :: ·) hrest, hpos⟩

theorem reaches_skip (m : Trivia.Mode) (p : Pos) (cs : List Char) :
    Reaches ⟨p, cs⟩ ⟨(Trivia.skip m p cs).pos, (Trivia.skip m p cs).rest⟩ := by
  fun_induction Trivia.skip m p cs
  next ih => exact ih.cons.cons
  next ih => exact ih.cons.cons
  next ih => exact ih.cons
  next => exact .refl _
  next ih => exact ih.cons
  next ih => exact ih.cons
  next ih => exact ih.cons.cons
  next ih => exact ih.cons
  next => exact .refl _
  next => exact .refl _

/-- What was read of a string and what is left make up the text, also where the string has a fault. -/
theorem scan_splits (mark : Char) (cs : List Char) :
    (scan mark cs).chars ++ (scan mark cs).rest = cs := by
  fun_induction scan mark cs
  next => rfl
  next => rfl
  next => rfl
  next => rfl
  next ih => simpa [StringBody.cons] using ih
  next => rfl
  next ih => simpa [StringBody.cons] using ih

theorem reaches_string (p : Pos) (mark : Char) (cs : List Char) :
    Reaches ⟨p, mark :: cs⟩ (string p mark cs).2 := by
  have hsplit := scan_splits mark cs
  simp only [string]
  split
  · exact ⟨_, by simp [accept, hsplit], rfl⟩
  · exact ⟨_, by simp [hsplit], rfl⟩

theorem reaches_symbol (p : Pos) (c : Char) (cs : List Char) : Reaches ⟨p, c :: cs⟩ (symbol p c cs).2 := by
  unfold symbol
  split
  · exact ⟨_, (take_append_drop _ _).symm, rfl⟩
  · exact (Reaches.refl _).cons

theorem reaches_of_takes {p : Pos} {cs : List Char} {r : Token × Cursor} (h : Takes p cs r) :
    Reaches ⟨p, cs⟩ r.2 := by
  obtain ⟨lexeme, rest, hcs, -, -, -, hcursor⟩ := h
  rw [hcursor]
  exact ⟨lexeme, hcs, rfl⟩

theorem reaches_token (p : Pos) (cs : List Char) : Reaches ⟨p, cs⟩ (token p cs).2 := by
  cases cs with
  | nil => exact .refl _
  | cons c cs =>
    simp only [token]
    split
    next hc => exact reaches_of_takes (takes_word hc p cs)
    next =>
      split
      next hc => exact reaches_of_takes (takes_number hc p cs)
      next =>
        split
        next => exact reaches_string p c cs
        next => exact reaches_symbol p c cs

theorem reaches_next (c : Cursor) : c.Reaches c.next.2 := by
  have hskip := reaches_skip .between c.pos c.rest
  unfold next
  simp only
  split
  · exact hskip
  · exact hskip.trans (reaches_token _ _)

theorem Reaches.offset {c d : Cursor} (h : c.Reaches d) :
    d.pos.offset + d.rest.length = c.pos.offset + c.rest.length := by
  obtain ⟨taken, hrest, hpos⟩ := h
  rw [hrest, hpos, Pos.offset_afterAll, length_append]
  omega

/-! ## The end of the text -/

/-- A call that comes to the end of the text leaves nothing, and names the place where it stops. -/
theorem next_of_eof {c : Cursor} (h : c.next.1.kind = .eof) :
    ∃ p, c.next = (Token.endAt p, ⟨p, []⟩) := by
  have hlegal : c.next.1.kind ≠ .illegal := by
    rw [h]
    decide
  unfold next at h hlegal ⊢
  simp only at h hlegal ⊢
  split
  next heq => simp [heq] at h
  next heq =>
    rw [heq] at h hlegal
    cases hrest : (Trivia.skip .between c.pos c.rest).rest with
    | nil => exact ⟨_, rfl⟩
    | cons d ds =>
      rw [hrest] at h hlegal
      exact ((takes_token hlegal).ne_eof h).elim

/-- Behind the end of the text, calls change nothing. -/
theorem next_at_end (p : Pos) : next ⟨p, []⟩ = (Token.endAt p, ⟨p, []⟩) := rfl

theorem tokens_at_end (p : Pos) (n : Nat) : tokens n ⟨p, []⟩ = List.replicate n (Token.endAt p) := by
  induction n with
  | zero => rfl
  | succ n ih => rw [tokens, next_at_end, ih, replicate_succ]

/-- The tokens before the end are at most as many as there are characters. -/
theorem tokens_end (c : Cursor) : ∃ front last, front.length ≤ c.rest.length ∧
    (∀ t ∈ front, t.kind ≠ .eof) ∧ last.kind = .eof ∧
      ∀ n, c.tokens (front.length + n) = front ++ List.replicate n last := by
  by_cases heof : c.next.1.kind = .eof
  · obtain ⟨p, hnext⟩ := next_of_eof heof
    refine ⟨[], .endAt p, Nat.zero_le _, by simp, rfl, fun n => ?_⟩
    cases n with
    | zero => rfl
    | succ n => simp [tokens, hnext, tokens_at_end, replicate_succ]
  · have hlt := next_rest_lt heof
    obtain ⟨front, last, hlength, hfront, hlast, htokens⟩ := tokens_end c.next.2
    refine ⟨c.next.1 :: front, last, ?_, forall_mem_cons.2 ⟨heof, hfront⟩, hlast, fun n => ?_⟩
    · rw [length_cons]
      omega
    · rw [length_cons, Nat.add_right_comm, tokens, htokens, cons_append]
termination_by c.rest.length

/-! ## Any number of calls -/

/-- The cursor behind the first `n` tokens. -/
def afterCalls (c : Cursor) : Nat → Cursor
  | 0 => c
  | n + 1 => (c.afterCalls n).next.2

theorem reaches_afterCalls (c : Cursor) (n : Nat) : c.Reaches (c.afterCalls n) := by
  induction n with
  | zero => exact .refl c
  | succ n ih => exact ih.trans (reaches_next _)

theorem tokens_eq_map (c : Cursor) (n : Nat) :
    c.tokens n = (List.range n).map fun i => (c.afterCalls i).next.1 := by
  have hshift (d : Cursor) (i : Nat) : d.next.2.afterCalls i = d.afterCalls (i + 1) := by
    induction i with
    | zero => rfl
    | succ i ih => exact congrArg (fun e => e.next.2) ih
  induction n generalizing c with
  | zero => rfl
  | succ n ih =>
    rw [tokens, ih, range_succ_eq_map, map_cons, map_map]
    exact congrArg (c.next.1 :: ·) (map_congr_left fun i _ => by simp [hshift])

end Cursor

open Cursor in
/-- Any number of calls on a text. Before each of them the lexer stands at a place of the text, with the
line and the column of its offset and with what follows there still to be read; a call that does not
return the end makes the offset larger. The end is returned within one call more than there are
characters, and by every later call in the same way. -/
theorem calls_progress (s : String) :
    (∀ n, let c := (ofString s).afterCalls n
      c.pos.Behind (s.toList.take c.pos.offset.toNat) ∧ c.rest = s.toList.drop c.pos.offset.toNat ∧
      (c.next.1.kind ≠ .eof → c.pos.offset < c.next.2.pos.offset)) ∧
    (∀ n, (ofString s).tokens n = (List.range n).map fun i => ((ofString s).afterCalls i).next.1) ∧
    ∃ front last, front.length ≤ s.length ∧ (∀ t ∈ front, t.kind ≠ .eof) ∧ last.kind = .eof ∧
      ∀ n, (ofString s).tokens (front.length + n) = front ++ List.replicate n last := by
  refine ⟨fun n => ?_, tokens_eq_map _, ?_⟩
  · obtain ⟨taken, hrest, hpos⟩ := reaches_afterCalls (ofString s) n
    have hbehind : ((ofString s).afterCalls n).pos.Behind taken := hpos ▸ Pos.behind_afterAll taken
    have hoffset : ((ofString s).afterCalls n).pos.offset.toNat = taken.length := by
      rw [hbehind.offset, Int.toNat_natCast]
    have hsplit : s.toList = taken ++ ((ofString s).afterCalls n).rest := hrest
    refine ⟨?_, ?_, fun hne => ?_⟩
    · rw [hoffset, hsplit, take_left]
      exact hbehind
    · rw [hoffset, hsplit, drop_left]
    · have hlt := next_rest_lt hne
      have hsum := (reaches_next ((ofString s).afterCalls n)).offset
      omega
  · have hend := tokens_end (ofString s)
    rwa [ofString, String.length_toList] at hend

end ScriptTyping
