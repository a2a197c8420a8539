import ScriptTyping.Ty.Basic

/-!
# Variables of a type

`Ty.vars` lists every occurrence from left to right, `Ty.freeVars` each variable once, and
`Ty.occurs` looks for one of them. `Ty.size` counts the nodes.
-/

namespace ScriptTyping

namespace Ty

mutual

/-- All occurrences of variables, from left to right. -/
def vars : Ty → List Var
  | missing => []
  | var v => [v]
  | con _ args _ => varsAll args
  | record _ fields _ => varsFields fields

/-- All occurrences of variables in some types. -/
def varsAll : List Ty → List Var
  | [] => []
  | t :: ts => t.vars ++ varsAll ts

/-- All occurrences of variables in some fields. -/
def varsFields : List (String × Ty) → List Var
  | [] => []
  | (_, t) :: fs => t.vars ++ varsFields fs

end

/-- The names of all occurrences of variables. -/
def ids (t : Ty) : List String := t.vars.map Var.id

mutual

/-- Whether a variable occurs in a type. -/
def occurs (id : String) : Ty → Bool
  | missing => false
  | var v => v.id == id
  | con _ args _ => occursAll id args
  | record _ fields _ => occursFields id fields

/-- Whether a variable occurs in one of some types. -/
def occursAll (id : String) : List Ty → Bool
  | [] => false
  | t :: ts => t.occurs id || occursAll id ts

/-- Whether a variable occurs in one of some fields. -/
def occursFields (id : String) : List (String × Ty) → Bool
  | [] => false
  | (_, t) :: fs => t.occurs id || occursFields id fs

end

mutual

def size : Ty → Nat
  | missing => 1
  | var _ => 1
  | con _ args _ => sizeAll args + 1
  | record _ fields _ => sizeFields fields + 1

def sizeAll : List Ty → Nat
  | [] => 0
  | t :: ts => t.size + sizeAll ts

/-- The number of nodes of some fields. -/
def sizeFields : List (String × Ty) → Nat
  | [] => 0
  | (_, t) :: fs => t.size + sizeFields fs

end

/-! ## Sets of variables -/

end Ty

/-- Variables in the order of their first occurrence, one of each name. -/
abbrev VarSet := List Var

namespace VarSet

/-- Whether a variable of some name is in a set. -/
def has (vs : VarSet) (id : String) : Bool := vs.any fun v => v.id == id

/-- Put a variable behind the others, unless one of its name is there. -/
def push (vs : VarSet) (v : Var) : VarSet := if vs.has v.id then vs else vs ++ [v]

/-- Put in the variables of a type. -/
def collect (vs : VarSet) (t : Ty) : VarSet := t.vars.foldl push vs

end VarSet

namespace Ty

/-- The variables of a type, each once, in the order of their first occurrence. -/
def freeVars (t : Ty) : VarSet := VarSet.collect [] t

/-! ## Lists as unions -/

theorem varsAll_eq_flatMap (ts : List Ty) : varsAll ts = ts.flatMap vars := by
  induction ts with
  | nil => rfl
  | cons t ts ih => simp [varsAll, ih]

theorem varsFields_eq_flatMap (fs : List (String × Ty)) : varsFields fs = fs.flatMap fun f => f.2.vars := by
  induction fs with
  | nil => rfl
  | cons f fs ih => simp [varsFields, ih]

theorem mem_ids {t : Ty} {id : String} : id ∈ t.ids ↔ ∃ v ∈ t.vars, v.id = id := List.mem_map

@[simp] theorem ids_missing : missing.ids = [] := rfl

@[simp] theorem ids_var (v : Var) : (var v).ids = [v.id] := rfl

theorem mem_ids_con {name : String} {args : List Ty} {l : Label} {id : String} :
    id ∈ (con name args l).ids ↔ ∃ t ∈ args, id ∈ t.ids := by
  simp only [ids, vars, varsAll_eq_flatMap, List.mem_map, List.mem_flatMap]
  constructor
  · rintro ⟨v, ⟨t, ht, hv⟩, rfl⟩
    exact ⟨t, ht, v, hv, rfl⟩
  · rintro ⟨t, ht, v, hv, rfl⟩
    exact ⟨v, ⟨t, ht, hv⟩, rfl⟩

theorem mem_ids_record {name : String} {fields : List (String × Ty)} {l : Label} {id : String} :
    id ∈ (record name fields l).ids ↔ ∃ f ∈ fields, id ∈ f.2.ids := by
  simp only [ids, vars, varsFields_eq_flatMap, List.mem_map, List.mem_flatMap]
  constructor
  · rintro ⟨v, ⟨f, hf, hv⟩, rfl⟩
    exact ⟨f, hf, v, hv, rfl⟩
  · rintro ⟨f, hf, v, hv, rfl⟩
    exact ⟨v, ⟨f, hf, hv⟩, rfl⟩

theorem occursAll_eq_any (id : String) (ts : List Ty) : occursAll id ts = ts.any (occurs id) := by
  induction ts with
  | nil => rfl
  | cons t ts ih => simp [occursAll, ih]

theorem occursFields_eq_any (id : String) (fs : List (String × Ty)) :
    occursFields id fs = fs.any fun f => f.2.occurs id := by
  induction fs with
  | nil => rfl
  | cons f fs ih => simp [occursFields, ih]

/-- A variable occurs where one of its name is listed. -/
theorem occurs_iff_mem_ids {id : String} {t : Ty} : t.occurs id = true ↔ id ∈ t.ids := by
  induction t with
  | missing => simp [occurs]
  | var v =>
    simp only [occurs, beq_iff_eq, ids_var, List.mem_singleton]
    exact eq_comm
  | con name args l ih =>
    simp only [occurs, occursAll_eq_any, List.any_eq_true, mem_ids_con]
    exact ⟨fun ⟨t, ht, h⟩ => ⟨t, ht, (ih t ht).1 h⟩, fun ⟨t, ht, h⟩ => ⟨t, ht, (ih t ht).2 h⟩⟩
  | record name fields l ih =>
    simp only [occurs, occursFields_eq_any, List.any_eq_true, mem_ids_record]
    exact ⟨fun ⟨f, hf, h⟩ => ⟨f, hf, (ih f hf).1 h⟩, fun ⟨f, hf, h⟩ => ⟨f, hf, (ih f hf).2 h⟩⟩

/-! ## Sizes -/

theorem size_le_sizeAll {t : Ty} {ts : List Ty} (h : t ∈ ts) : t.size ≤ sizeAll ts := by
  induction ts with
  | nil => simp at h
  | cons u us ih =>
    rcases List.mem_cons.1 h with rfl | h
    · simp [sizeAll]
    · exact Nat.le_trans (ih h) (Nat.le_add_left ..)

theorem size_le_sizeFields {f : String × Ty} {fs : List (String × Ty)} (h : f ∈ fs) :
    f.2.size ≤ sizeFields fs := by
  induction fs with
  | nil => simp at h
  | cons g gs ih =>
    rcases List.mem_cons.1 h with rfl | h
    · simp [sizeFields]
    · exact Nat.le_trans (ih h) (Nat.le_add_left ..)

end Ty

end ScriptTyping
