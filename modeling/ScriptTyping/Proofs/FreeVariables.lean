import ScriptTyping.Unify.Measure

/-!
# Variables of a type, each once

`Ty.freeVars` collects the variables of a type and leaves out those whose name is there already. So their
names are those of all occurrences without repetitions: `Ty.ids_freeVars`.
-/

namespace ScriptTyping

open List

variable {id : String} {t : Ty} {v : Var}

namespace VarSet

variable {vs : VarSet}

theorem has_iff : vs.has id = true ↔ id ∈ vs.map Var.id := by
  simp [has]

/-- The names after some variables were pushed, if those before are the names of some occurrences. -/
theorem ids_foldl_push {seen : List String} (h : vs.map Var.id = seen.eraseDups) (us : List Var) :
    (us.foldl push vs).map Var.id = (seen ++ us.map Var.id).eraseDups := by
  induction us generalizing vs seen with
  | nil => simpa using h
  | cons u us ih =>
    have hhas : vs.has u.id = true ↔ u.id ∈ seen := by rw [has_iff, h, mem_eraseDups]
    have hpush : (vs.push u).map Var.id = (seen ++ [u.id]).eraseDups := by
      rw [eraseDups_append, ← h]
      by_cases hu : u.id ∈ seen <;> simp [push, hhas, removeAll, hu, eraseDups_cons]
    simpa using ih hpush

end VarSet

namespace Ty

/-- The variables of a type are listed in the order in which they first occur, each name once. -/
theorem ids_freeVars (t : Ty) : t.freeVars.map Var.id = t.ids.eraseDups := by
  have hnone : ([] : VarSet).map Var.id = ([] : List String).eraseDups := rfl
  exact VarSet.ids_foldl_push hnone t.vars

theorem nodup_freeVars (t : Ty) : (t.freeVars.map Var.id).Nodup := t.ids_freeVars ▸ nodup_eraseDups _

theorem has_freeVars : t.freeVars.has id = true ↔ id ∈ t.ids := by
  rw [VarSet.has_iff, ids_freeVars, mem_eraseDups]

theorem mem_vars_of_mem_freeVars (h : v ∈ t.freeVars) : v ∈ t.vars := by
  have hall : ∀ w ∈ t.vars.foldl VarSet.push [], w ∈ t.vars := by
    refine foldlRecOn (motive := fun vs => ∀ w ∈ vs, w ∈ t.vars) _ _ (by simp) fun vs hvs u hu w hw => ?_
    unfold VarSet.push at hw
    split at hw
    · exact hvs w hw
    · rcases mem_append.1 hw with hw | hw
      · exact hvs w hw
      · exact mem_singleton.1 hw ▸ hu
  exact hall v h

/-- If variables of one name are the same, a variable of a type is one of those that are listed once. -/
theorem mem_freeVars (h : ∀ u ∈ t.vars, ∀ v ∈ t.vars, u.id = v.id → u = v) : v ∈ t.freeVars ↔ v ∈ t.vars := by
  refine ⟨mem_vars_of_mem_freeVars, fun hv => ?_⟩
  obtain ⟨u, hu, hid⟩ := mem_map.1 (VarSet.has_iff.1 (has_freeVars.2 (mem_map_of_mem hv)))
  exact h u (mem_vars_of_mem_freeVars hu) v hv hid ▸ hu

end Ty

end ScriptTyping
