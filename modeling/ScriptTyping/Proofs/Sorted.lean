import ScriptTyping.Dict

/-!
# Sorted dictionaries

A dictionary is `Dict.Sorted` when its keys ascend. Insertion keeps it so, and then each key has
one entry: a look-up finds every entry, and to put in the entries of a sorted dictionary is to let
its values win (`Dict.get?_insertAll`).
-/

namespace ScriptTyping

namespace Dict

variable {α β : Type}

def Sorted (d : Dict α) : Prop := (keys d).Pairwise (· < ·)

theorem sorted_nil : Sorted ([] : Dict α) := List.Pairwise.nil

theorem sorted_singleton (key : String) (value : α) : Sorted [(key, value)] :=
  List.pairwise_singleton _ _

theorem sorted_cons {k : String} {v : α} {d : Dict α} :
    Sorted ((k, v) :: d) ↔ (∀ k' ∈ keys d, k < k') ∧ Sorted d :=
  List.pairwise_cons

theorem keys_mapValues (f : α → β) (d : Dict α) : keys (mapValues f d) = keys d := by
  simp [keys, mapValues, List.map_map, Function.comp_def]

/-- Whether a dictionary is sorted depends on its keys only. -/
theorem Sorted.of_keys {d : Dict α} {e : Dict β} (h : Sorted d) (hk : keys e = keys d) : Sorted e := by
  unfold Sorted
  rwa [hk]

theorem Sorted.insert {d : Dict α} (h : Sorted d) (key : String) (value : α) :
    Sorted (insert d key value) := by
  induction d with
  | nil => exact sorted_singleton key value
  | cons e d ih =>
    obtain ⟨k, v⟩ := e
    obtain ⟨hk, hd⟩ := sorted_cons.1 h
    simp only [Dict.insert]
    split
    next hlt =>
      refine sorted_cons.2 ⟨fun k' hk' => ?_, h⟩
      rcases List.mem_cons.1 hk' with rfl | hk'
      · exact hlt
      · exact String.lt_trans hlt (hk k' hk')
    next hnot =>
      split
      next heq =>
        subst heq
        exact sorted_cons.2 ⟨hk, hd⟩
      next hne =>
        refine sorted_cons.2 ⟨fun k' hk' => ?_, ih hd⟩
        rcases mem_keys_insert.1 hk' with rfl | hk'
        · exact Std.lt_of_le_of_ne (String.not_lt.1 hnot) hne
        · exact hk k' hk'

theorem Sorted.insertAll {d : Dict α} (h : Sorted d) (entries : List (String × α)) :
    Sorted (insertAll d entries) := by
  induction entries generalizing d with
  | nil => exact h
  | cons e entries ih => exact ih (h.insert e.1 e.2)

theorem sorted_ofList (entries : List (String × α)) : Sorted (ofList entries) :=
  sorted_nil.insertAll entries

/-- A look-up in a sorted dictionary finds each of its entries. -/
theorem Sorted.get?_of_mem {d : Dict α} (h : Sorted d) {k : String} {v : α} (hmem : (k, v) ∈ d) :
    get? d k = some v := by
  induction d with
  | nil => simp at hmem
  | cons e d ih =>
    obtain ⟨k', v'⟩ := e
    obtain ⟨hk, hd⟩ := sorted_cons.1 h
    rcases List.mem_cons.1 hmem with heq | hmem
    · cases heq
      rw [get?_cons, if_pos rfl]
    · have hlt := hk k (mem_keys_of_mem hmem)
      rw [get?_cons, if_neg (String.ne_of_lt hlt), ih hd hmem]

theorem get?_mapValues (f : α → β) (d : Dict α) (k : String) : get? (mapValues f d) k = (get? d k).map f := by
  induction d with
  | nil => rfl
  | cons e d ih =>
    obtain ⟨k', v'⟩ := e
    show get? ((k', f v') :: mapValues f d) k = _
    rw [get?_cons, get?_cons, ih]
    split <;> rfl

/-- Of the entries of a sorted dictionary that are put in, each wins over what was there. -/
theorem get?_insertAll (d : Dict α) {entries : Dict α} (h : Sorted entries) (k : String) :
    get? (insertAll d entries) k = (get? entries k).or (get? d k) := by
  induction entries generalizing d with
  | nil => rfl
  | cons e entries ih =>
    obtain ⟨k', v'⟩ := e
    obtain ⟨hk, hs⟩ := sorted_cons.1 h
    show get? (insertAll (insert d k' v') entries) k = _
    rw [ih _ hs, get?_insert, get?_cons]
    by_cases heq : k' = k
    · subst heq
      have hnone : get? entries k' = none :=
        get?_eq_none_iff.2 fun hmem => String.lt_irrefl _ (hk k' hmem)
      rw [hnone, if_pos rfl, if_pos rfl]
      rfl
    · rw [if_neg heq, if_neg heq]

end Dict

end ScriptTyping
