import ScriptTyping.Ty.Tail
import ScriptTyping.Unify.Measure

/-!
# Unification

`unify` finds bindings of variables that make two types one. Variables that are made one share
their classes from then on: that is written to the attachments at once and stays, also when a later
part fails.

`unifyWithin` is the recursion. It returns its bindings together with the fact that they are
confined to the variables of the two types (`Subst.Within`), from which the next call is smaller.

**Tails.** The two types must be current. On the way, substitutions are applied to their parts, and
that can change the tails of records. What is found does not depend on it, since a substitution of
one unification changes nothing more where an earlier one of it was applied. So the applications are
only listed, and `unifyListing` gives the list.

**Cells.** What is bound is put in place of its variable, and then stands in several places. Who keeps
types and attaches something to them later needs `keep`: then each type gets cells before it is put
anywhere, and stays one type. Nothing else depends on it, and `unify` does without.
-/

namespace ScriptTyping

namespace Unify

/-- Bindings that are confined to the variables of two types. -/
abbrev Bindings (t u : Ty) := { s : Subst // s.Within (t.ids ++ u.ids) }

/-- The attachments after a unification, and what it found. -/
abbrev Outcome (α : Type) := Attachments × Except UnifyError α

/-- The course of a unification: its outcome, and the applications that it made. -/
structure Course (α : Type) where
  attachments : Attachments
  result : Except UnifyError α
  done : List Attachments.Application

theorem within_bindVars {v w : Var} (h : v.id ≠ w.id) :
    (bindVars v w).Within ((Ty.var v).ids ++ (Ty.var w).ids) := by
  unfold bindVars
  split
  · exact Subst.within_single (by simp) (by simp) (by simpa using Ne.symm h)
  · exact Subst.within_single (by simp) (by simp) (by simpa using h)

theorem within_bind {v : Var} {t : Ty} {s : Subst} (h : bind v t = .ok s) :
    s.Within ((Ty.var v).ids ++ t.ids) := by
  have single (hn : v.id ∉ t.ids) : Subst.Within ((Ty.var v).ids ++ t.ids) [(v.id, t)] :=
    Subst.within_single (by simp) (fun _ h => List.mem_append_right _ h) hn
  unfold bind at h
  split at h
  next w =>
    split at h
    · cases h; exact Subst.within_nil _
    next hne => cases h; exact single (by simpa using Ne.symm hne)
  next =>
    split at h
    · cases h
    next hocc => cases h; exact single fun hid => hocc (Ty.occurs_iff_mem_ids.2 hid)

theorem within_bindChecked {reg : Registry} {a : Attachments} {v : Var} {t : Ty} {s : Subst}
    (h : bindChecked reg a v t = .ok s) : s.Within ((Ty.var v).ids ++ t.ids) := by
  unfold bindChecked at h
  split at h
  · exact within_bind h
  · cases h

theorem within_comm {t u : Ty} {s : Subst} (h : s.Within (t.ids ++ u.ids)) : s.Within (u.ids ++ t.ids) :=
  ⟨fun k hk => by simpa [or_comm] using h.keys k hk,
    fun e he v hv => by simpa [or_comm] using h.types e he v hv⟩

/-- What a computation of bindings gives, with a fact about it. -/
def certify {P : Subst → Prop} (r : Except UnifyError Subst) (h : ∀ s, r = .ok s → P s) :
    Except UnifyError { s : Subst // P s } :=
  match r with
  | .ok s => .ok ⟨s, h s rfl⟩
  | .error e => .error e

/-- Unify pairs below two types one after another, each under the bindings found before. -/
def eachWithin (keep : Bool) (t u : Ty)
    (recur : (a : Attachments) → (x y : Ty) → Smaller x y t u → Course (Bindings x y)) :
    (ps : List (Ty × Ty)) → (∀ p ∈ ps, Below p t u) → Attachments → Bindings t u →
      Course (Bindings t u)
  | [], _, a, s => ⟨a, .ok s, []⟩
  | p :: ps, h, a, s =>
    have hp := h p List.mem_cons_self
    match recur a (Subst.apply a s.1 p.1) (Subst.apply a s.1 p.2) (hp.smaller s.2 a) with
    | ⟨a', .error e, done⟩ => ⟨a', .error e, a.applications s.1 [p.1, p.2] ++ done⟩
    | ⟨a', .ok r, done⟩ =>
      let all := a'.extend keep r.1 s.1
      let rest := eachWithin keep t u recur ps (fun q hq => h q (List.mem_cons_of_mem _ hq)) all.2
        ⟨all.1, (s.2.compose (r.2.adoptIf keep)
          (fun w hw => (List.mem_append.1 hw).elim (s.2.ids_apply hp.left w) (s.2.ids_apply hp.right w))
          (fun _ hw hk => (List.mem_append.1 hw).elim (s.2.not_mem_ids_apply hk)
            (s.2.not_mem_ids_apply hk))).adoptIf keep⟩
      { rest with
        done := a.applications s.1 [p.1, p.2] ++ done ++
          a'.applications (a'.adoptIf keep r.1).1 (s.1.map Prod.snd) ++ rest.done }

/-- Unify two types. -/
def unifyWithin (reg : Registry) (keep : Bool) (a : Attachments) (t u : Ty) : Course (Bindings t u) :=
  match t, u with
  | .missing, _ => ⟨a, .ok ⟨[], Subst.within_nil _⟩, []⟩
  | _, .missing => ⟨a, .ok ⟨[], Subst.within_nil _⟩, []⟩
  | .var v, .var w =>
    if h : v.id = w.id then ⟨a, .ok ⟨[], Subst.within_nil _⟩, []⟩
    else ⟨share a v w, .ok ⟨bindVars v w, within_bindVars h⟩, []⟩
  | .var v, u => ⟨a, certify (bindChecked reg a v u) fun _ => within_bindChecked, []⟩
  | t, .var w =>
    ⟨a, certify (bindChecked reg a w t) fun _ h => within_comm (within_bindChecked h), []⟩
  | t, u =>
    let p := parts t u
    match eachWithin keep t u (fun a x y _ => unifyWithin reg keep a x y) p.pairs
      (fun _ => below_parts) a ⟨[], Subst.within_nil _⟩ with
    | ⟨a, .error e, done⟩ => ⟨a, .error e, done⟩
    | ⟨a, .ok s, done⟩ =>
      match p.fault with
      | some e => ⟨a, .error e, done⟩
      | none => ⟨a, .ok s, done⟩
termination_by (distinct (t.ids ++ u.ids), t.size + u.size)
decreasing_by exact Smaller.lex ‹_›

end Unify

open Unify

/-- Unify two types, and list the applications that can change tails. If `keep` is set, what is bound
has cells. -/
def unifyListing (reg : Registry) (keep : Bool) (a : Attachments) (t u : Ty) :
    Outcome Subst × List Attachments.Application :=
  let r := unifyWithin reg keep a t u
  ((r.attachments, r.result.map Subtype.val), r.done)

/-- Unify two types: bindings that make them one, or why there are none. -/
def unify (reg : Registry) (a : Attachments) (t u : Ty) : Outcome Subst :=
  (unifyListing reg false a t u).1

/-- Unify two types that need not be current, and do what this does to tails. What is bound has
cells. -/
def unifyIn (reg : Registry) (a : Attachments) (t u : Ty) : Except UnifyError Subst × Attachments :=
  let ((a', found), done) := unifyListing reg true a (a.current t) (a.current u)
  (found, a'.replay done)

theorem val_certify {P : Subst → Prop} (r : Except UnifyError Subst) (h : ∀ s, r = .ok s → P s) :
    (certify r h).map Subtype.val = r := by
  cases r <;> rfl

end ScriptTyping
