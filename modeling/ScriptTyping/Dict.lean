/-!
# Dictionaries

A dictionary is an association list that is kept in ascending order of its keys, so that its
entries are listed in one order however it was built. A look-up takes the first entry of a key.
The laws of look-up hold of every list of entries, sorted or not.
-/

namespace ScriptTyping

/-- Values under names. -/
abbrev Dict (α : Type) := List (String × α)

namespace Dict

variable {α β : Type}

def get? : Dict α → String → Option α
  | [], _ => none
  | (k, v) :: d, key => if k = key then some v else get? d key

/-- Put a value under a key, in place of the one that is there. -/
def insert : Dict α → String → α → Dict α
  | [], key, value => [(key, value)]
  | (k, v) :: d, key, value =>
    if key < k then (key, value) :: (k, v) :: d
    else if k = key then (key, value) :: d
    else (k, v) :: insert d key value

def erase (d : Dict α) (key : String) : Dict α := d.filter fun e => e.1 != key

/-- Put entries in one after another; the last one of a key stays. -/
def insertAll (d : Dict α) (entries : List (String × α)) : Dict α :=
  entries.foldl (fun d e => insert d e.1 e.2) d

def ofList (entries : List (String × α)) : Dict α := insertAll [] entries

/-- The keys, in order. -/
def keys (d : Dict α) : List String := d.map Prod.fst

def mapValues (f : α → β) (d : Dict α) : Dict β := d.map fun e => (e.1, f e.2)

/-! ## Look-up -/

@[simp] theorem get?_nil (key : String) : get? ([] : Dict α) key = none := rfl

theorem get?_cons (k : String) (v : α) (d : Dict α) (key : String) :
    get? ((k, v) :: d) key = if k = key then some v else get? d key := rfl

theorem get?_insert (d : Dict α) (key : String) (value : α) (k : String) :
    get? (insert d key value) k = if key = k then some value else get? d k := by
  induction d with
  | nil => rfl
  | cons e d ih =>
    obtain ⟨k', v'⟩ := e
    simp only [insert]
    split
    · simp [get?_cons]
    · split
      · subst k'
        by_cases h : key = k <;> simp [get?_cons, h]
      next hne =>
        by_cases h : k' = k
        · subst h
          simp [get?_cons, Ne.symm hne]
        · simp [get?_cons, h, ih]

theorem get?_eq_none_iff {d : Dict α} {key : String} : get? d key = none ↔ key ∉ keys d := by
  induction d with
  | nil => simp [keys]
  | cons e d ih =>
    obtain ⟨k, v⟩ := e
    by_cases h : k = key
    · simp [get?_cons, keys, h]
    · simp only [get?_cons, h, if_false, ih, keys, List.map_cons, List.mem_cons]
      simp [Ne.symm h]

theorem mem_of_get?_eq_some {d : Dict α} {key : String} {value : α}
    (h : get? d key = some value) : (key, value) ∈ d := by
  induction d with
  | nil => simp at h
  | cons e d ih =>
    obtain ⟨k, v⟩ := e
    rw [get?_cons] at h
    split at h
    next hk => simp_all
    next => exact List.mem_cons_of_mem _ (ih h)

theorem mem_keys_of_mem {d : Dict α} {e : String × α} (h : e ∈ d) : e.1 ∈ keys d :=
  List.mem_map_of_mem h

/-! ## Membership -/

theorem mem_insert {d : Dict α} {key : String} {value : α} {e : String × α}
    (h : e ∈ insert d key value) : e = (key, value) ∨ e ∈ d := by
  induction d with
  | nil => simp_all [insert]
  | cons x d ih =>
    obtain ⟨k, v⟩ := x
    simp only [insert] at h
    split at h
    · simpa using h
    · split at h
      · rcases List.mem_cons.1 h with h | h
        · exact .inl h
        · exact .inr (List.mem_cons_of_mem _ h)
      · rcases List.mem_cons.1 h with h | h
        · exact .inr (h ▸ List.mem_cons_self)
        · exact (ih h).imp_right (List.mem_cons_of_mem _)

theorem mem_keys_insert {d : Dict α} {key k : String} {value : α} :
    k ∈ keys (insert d key value) ↔ k = key ∨ k ∈ keys d := by
  have h := get?_insert d key value k
  by_cases hk : key = k
  · subst hk
    simp only [if_true] at h
    simp [mem_keys_of_mem (mem_of_get?_eq_some h)]
  · simp only [hk, if_false] at h
    have hiff : k ∉ keys (insert d key value) ↔ k ∉ keys d := by
      rw [← get?_eq_none_iff, ← get?_eq_none_iff, h]
    simp only [Ne.symm hk, false_or]
    exact Decidable.not_iff_not.1 hiff

theorem mem_insertAll {d : Dict α} {entries : List (String × α)} {e : String × α}
    (h : e ∈ insertAll d entries) : e ∈ entries ∨ e ∈ d := by
  induction entries generalizing d with
  | nil => exact .inr h
  | cons x entries ih =>
    rcases ih h with h | h
    · exact .inl (List.mem_cons_of_mem _ h)
    · rcases mem_insert h with h | h
      · exact .inl (h ▸ List.mem_cons_self)
      · exact .inr h

theorem mem_keys_insertAll {d : Dict α} {entries : List (String × α)} {k : String} :
    k ∈ keys (insertAll d entries) ↔ k ∈ keys entries ∨ k ∈ keys d := by
  induction entries generalizing d with
  | nil => simp [insertAll, keys]
  | cons x entries ih =>
    show k ∈ keys (insertAll (insert d x.1 x.2) entries) ↔ _
    rw [ih, mem_keys_insert]
    simp only [keys, List.map_cons, List.mem_cons]
    grind

end Dict

end ScriptTyping
