import ScriptTyping.Scheme

/-!
# The order of variables

Generated names are compared by number and come first, the others by text. So the order is total and
transitive over all names (`order_swap`, `order_trans`), and two names are level only if they are the same
or denote the same number, as `T1` and `T01` do. A supply writes a number in one way, so its variables
are in the order in which they were drawn.

Main statement: `order_laws`.
-/

namespace ScriptTyping

open List

namespace Var

/-! ## Numbers of generated variables -/

/-- The name is `T` and decimal digits that denote the number. -/
def Denotes (id : String) (n : Nat) : Prop :=
  ∃ ds, id.toList = 'T' :: ds ∧ ds ≠ [] ∧ (∀ c ∈ ds, c.isDigit = true) ∧ Nat.ofDigitChars 10 ds 0 = n

theorem digitValue?_eq (c : Char) : digitValue? c = if c.isDigit then some (c.toNat - '0'.toNat) else none := by
  unfold digitValue?
  simp only [Char.isDigit, Bool.and_eq_true, decide_eq_true_eq]
  rfl

/-- Characters denote a number if all of them are digits. -/
theorem decimalFrom?_eq_some_iff {m n : Nat} {cs : List Char} :
    decimalFrom? m cs = some n ↔ (∀ c ∈ cs, c.isDigit = true) ∧ Nat.ofDigitChars 10 cs m = n := by
  induction cs generalizing m with
  | nil => simp [decimalFrom?]
  | cons c cs ih =>
    rw [decimalFrom?, digitValue?_eq, Nat.ofDigitChars_cons, forall_mem_cons]
    by_cases hc : c.isDigit = true
    · simp [hc, ih]
    · simp [hc]

theorem generated?_eq_some_iff {id : String} {n : Nat} :
    generated? id = some n ↔ n < numberBound ∧ Denotes id n := by
  unfold generated? Denotes
  split
  next d ds hid =>
    rw [Option.filter_eq_some_iff, decimalFrom?_eq_some_iff]
    simp [hid, and_comm]
  next hother =>
    refine ⟨fun h => (Option.some_ne_none _ h.symm).elim, ?_⟩
    rintro ⟨-, ds, hid, hne, -⟩
    obtain ⟨d, ds, rfl⟩ := exists_cons_of_ne_nil hne
    exact (hother d ds hid).elim

theorem toList_generatedId (n : Nat) : (generatedId n).toList = 'T' :: Nat.toDigits 10 n := by
  show ("T" ++ toString n).toList = _
  rw [String.toList_append]
  show _ ++ (Nat.repr n).toList = _
  rw [Nat.toList_repr]
  rfl

theorem decimalFrom?_toDigits (n : Nat) : decimalFrom? 0 (Nat.toDigits 10 n) = some n :=
  decimalFrom?_eq_some_iff.2 ⟨fun _ hc => Nat.isDigit_of_mem_toDigits (by decide) (by decide) hc,
    Nat.ofDigitChars_ten_toDigits⟩

theorem generated?_generatedId {n : Nat} (h : n < numberBound) : generated? (generatedId n) = some n :=
  generated?_eq_some_iff.2 ⟨h, _, toList_generatedId n, Nat.toDigits_ne_nil,
    decimalFrom?_eq_some_iff.1 (decimalFrom?_toDigits n)⟩

/-- Generated variables are in the order of their numbers. -/
theorem order_generatedId {m n : Nat} (hm : m < numberBound) (hn : n < numberBound) :
    order (generatedId m) (generatedId n) = compare m n := by
  simp only [order, generated?_generatedId hm, generated?_generatedId hn]

/-! ## A total preorder -/

theorem order_swap (x y : String) : order x y = (order y x).swap := by
  unfold order
  cases hx : generated? x with
  | none =>
    cases hy : generated? y with
    | none => exact Std.OrientedOrd.eq_swap
    | some n => rfl
  | some m =>
    cases hy : generated? y with
    | none => rfl
    | some n => exact Std.OrientedOrd.eq_swap

theorem order_trans {x y z : String} (hxy : order x y ≠ .gt) (hyz : order y z ≠ .gt) : order x z ≠ .gt := by
  simp only [ne_eq, ← Ordering.isLE_iff_ne_gt] at hxy hyz ⊢
  unfold order at hxy hyz ⊢
  cases hx : generated? x <;> cases hy : generated? y <;> cases hz : generated? z <;>
    simp only [hx, hy, hz] at hxy hyz ⊢
  · exact Std.TransOrd.isLE_trans hxy hyz
  · cases hyz
  · cases hxy
  · cases hxy
  · rfl
  · cases hyz
  · rfl
  · exact Std.TransOrd.isLE_trans hxy hyz

/-- Names are level if they are the same or have the same number. -/
theorem order_eq_iff {x y : String} :
    order x y = .eq ↔ x = y ∨ ∃ n, generated? x = some n ∧ generated? y = some n := by
  unfold order
  cases hx : generated? x <;> cases hy : generated? y
  · simp
  · simp only [reduceCtorEq, false_and, exists_false, or_false, false_iff]
    rintro rfl
    exact Option.some_ne_none _ (hy.symm.trans hx)
  · simp only [reduceCtorEq, and_false, exists_false, or_false, false_iff]
    rintro rfl
    exact Option.some_ne_none _ (hx.symm.trans hy)
  · simp only [Nat.compare_eq_eq, Option.some.injEq, exists_eq_left']
    refine ⟨fun h => .inr h.symm, fun h => h.elim ?_ Eq.symm⟩
    rintro rfl
    exact Option.some.inj (hx.symm.trans hy)

/-- The order is a total preorder. Two names are level exactly if they are the same, or are both `T` with
digits for the same number of 64 bits. Variables that a supply draws are ordered as they are drawn. -/
theorem order_laws : (∀ x y, order y x = (order x y).swap) ∧
    (∀ x y z, order x y ≠ .gt → order y z ≠ .gt → order x z ≠ .gt) ∧
    (∀ x y, order x y = .eq ↔ x = y ∨ ∃ n < numberBound, Denotes x n ∧ Denotes y n) ∧
    ∀ s s' : Supply, s.count < numberBound → s'.count < numberBound →
      order s.freshVar.1.id s'.freshVar.1.id = compare s.count s'.count ∧
        (order s.freshVar.1.id s'.freshVar.1.id = .eq → s.freshVar.1.id = s'.freshVar.1.id) := by
  refine ⟨fun x y => order_swap y x, fun _ _ _ => order_trans, fun x y => ?_, fun s s' hs hs' => ?_⟩
  · simp only [order_eq_iff, generated?_eq_some_iff]
    refine or_congr_right (exists_congr fun n => ?_)
    constructor
    · rintro ⟨⟨hn, hx⟩, -, hy⟩
      exact ⟨hn, hx, hy⟩
    · rintro ⟨hn, hx, hy⟩
      exact ⟨⟨hn, hx⟩, hn, hy⟩
  · have horder := order_generatedId hs hs'
    refine ⟨horder, fun heq => ?_⟩
    have hcount : s.count = s'.count := Nat.compare_eq_eq.1 (horder.symm.trans heq)
    exact congrArg generatedId hcount

theorem order_laws_drawn : order "T9" "T010" ≠ .gt ∧ order "T010" "x" ≠ .gt ∧
    order "T9" "x" ≠ .gt ∧ Supply.empty.count < numberBound ∧
    order Supply.empty.freshVar.1.id Supply.empty.freshVar.2.freshVar.1.id = .lt := by
  obtain ⟨-, htrans, -, hdrawn⟩ := order_laws
  refine ⟨by decide, by decide, ?_, by decide, ?_⟩
  · exact htrans "T9" "T010" "x" (by decide) (by decide)
  · exact (hdrawn Supply.empty Supply.empty.freshVar.2 (by decide) (by decide)).1

end Var

end ScriptTyping
