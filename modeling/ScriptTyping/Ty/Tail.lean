import ScriptTyping.Shelf
import ScriptTyping.Ty.Subst

/-!
# Tails of records

The fields of a record stand on a shelf, in pages. If they fill more than one, a substitution that
is applied to the record makes a new first page, and changes the others where they are. These other
pages are the tail. So the new record has the same tail as the old one, and the old one shows what
the substitution did to it, even if the result is not used.

**Reading.** The tree of a type shows a tail as it was at some time. `Attachments.current` brings it up
to date. What is not in a tail is always as the tree shows it.

**Applying.** `Subst.apply` gives the result of a substitution, and `Attachments.revise` what it does to
tails. `Attachments.apply` does both. A computation that only needs results can list the applications
that it makes and have them done later by `Attachments.replay`.

Where there are no tails, all this is the plain application of substitutions: see the laws at the end.
-/

namespace ScriptTyping

/-- The length of the first page of a map. -/
def Shelf.firstLength {α : Type} (s : Shelf α) : Nat → Nat → Nat
  | depth, n =>
    match s.page n, depth with
    | .leaf st, _ => st.length
    | .branch _, 0 => 0
    | .branch st, depth + 1 =>
      match s.linkRows.read st with
      | [] => 0
      | l :: _ => s.firstLength depth l.2

/-- How many of the least keys stand on the first page, if keys are put on a shelf in some order. -/
def Shelf.firstPage (keys : List String) : Nat :=
  let e := (Editing.start .start 0).run (keys.map fun k => (k, ())) []
  ((e.shelf.map e.map).root.map (e.shelf.firstLength e.shelf.depth)).getD 0

namespace Attachments

/-! ## Making records -/

/-- A record whose fields are given one after another. One that needs more than one page has a
tail. -/
def newRecord (a : Attachments) (name : String) (entries : List (String × Ty)) (classes : ClassSet) :
    Ty × Attachments :=
  let fields := Dict.ofList entries
  if fields.length ≤ Shelf.capacity then (.mkRecord name fields classes, a)
  else
    let own := Shelf.firstPage (entries.map Prod.fst)
    (.record (if name = "" then Ty.anonymous else name) fields
        { Label.fixed (ClassSet.adding [] classes) with tail := some ⟨a.tails.length, own⟩ },
      { a with tails := a.tails ++ [fields.drop own] })

/-! ## Reading -/

mutual

/-- A type with the tails that are given for some numbers. -/
def renewWith (tail? : Nat → Option (Dict Ty)) : Ty → Ty
  | .missing => .missing
  | .var v => .var v
  | .con name args l => .con name (renewAll tail? args) l
  | .record name fields l =>
    match l.tail.bind fun t => (tail? t.number).map fun rest => (t.own, rest) with
    | none => .record name (renewFields tail? fields.length fields) l
    | some (own, rest) => .record name (renewFields tail? own fields ++ rest) l

/-- Types with the tails that are given for some numbers. -/
def renewAll (tail? : Nat → Option (Dict Ty)) : List Ty → List Ty
  | [] => []
  | t :: ts => renewWith tail? t :: renewAll tail? ts

/-- The first fields of some, with the tails that are given for some numbers. -/
def renewFields (tail? : Nat → Option (Dict Ty)) : Nat → List (String × Ty) → List (String × Ty)
  | 0, _ => []
  | _, [] => []
  | n + 1, (k, t) :: fs => (k, renewWith tail? t) :: renewFields tail? n fs

end

/-- The tail of some number, brought up to date as far as tails are nested up to some depth. -/
def tailAt? (a : Attachments) : Nat → Nat → Option (Dict Ty)
  | 0, n => a.tails[n]?
  | depth + 1, n => (a.tails[n]?).map (Dict.mapValues (renewWith (a.tailAt? depth)))

/-- A type as it is now. -/
def current (a : Attachments) (t : Ty) : Ty :=
  if a.tails.isEmpty then t else renewWith (a.tailAt? a.tails.length) t

/-- The types of a substitution as they are now. -/
def currentAll (a : Attachments) (s : Subst) : Subst :=
  if a.tails.isEmpty then s else Dict.mapValues a.current s

/-! ## Applying -/

/-- Apply a substitution to a tail where it is. -/
def rewriteTail (a : Attachments) (s : Subst) (number : Nat) : Attachments :=
  { a with tails := a.tails.modify number (Dict.mapValues (Ty.substitute a s)) }

mutual

/-- Change the tails below a type as substitution changes them, given how it is done inside a tail. -/
def reviseWith (inside : Attachments → Ty → Attachments) (s : Subst) (a : Attachments) : Ty → Attachments
  | .missing => a
  | .var _ => a
  | .con _ args _ => reviseAll inside s a args
  | .record _ fields l =>
    match l.tail with
    | none => reviseFields inside s a fields.length fields
    | some t =>
      let a := reviseFields inside s a t.own fields
      let a := ((a.tails[t.number]?).getD []).foldl (fun a f => inside a f.2) a
      a.rewriteTail s t.number

/-- Change the tails below some types. -/
def reviseAll (inside : Attachments → Ty → Attachments) (s : Subst) (a : Attachments) : List Ty → Attachments
  | [] => a
  | t :: ts => reviseAll inside s (reviseWith inside s a t) ts

/-- Change the tails below the first of some fields. -/
def reviseFields (inside : Attachments → Ty → Attachments) (s : Subst) (a : Attachments) :
    Nat → List (String × Ty) → Attachments
  | 0, _ => a
  | _, [] => a
  | n + 1, (_, t) :: fs => reviseFields inside s (reviseWith inside s a t) n fs

end

/-- Change tails as substitution changes them, as far as they are nested up to some depth. -/
def reviseDepth (s : Subst) : Nat → Attachments → Ty → Attachments
  | 0, a, _ => a
  | depth + 1, a, t => reviseWith (reviseDepth s depth) s a t

/-- What the application of a substitution to a type does to tails. -/
def revise (a : Attachments) (s : Subst) (t : Ty) : Attachments :=
  if s.isEmpty || a.tails.isEmpty then a else reviseDepth s (a.tails.length + 1) a t

/-- Apply a substitution to a type. -/
def apply (a : Attachments) (s : Subst) (t : Ty) : Ty × Attachments :=
  let result := Subst.apply a (a.currentAll s) (a.current t)
  let a := a.revise s t
  (a.current result, a)

/-- Make the substitution that applies `r` and then `s`. It applies `s` to the types of `r`. -/
def compose (a : Attachments) (s r : Subst) : Subst × Attachments :=
  let result := Subst.compose a (a.currentAll s) (a.currentAll r)
  let a := r.foldl (fun a e => a.revise s e.2) a
  (a.currentAll result, a)

/-- A substitution and a type to which it is applied. -/
abbrev Application := Subst × Ty

/-- The applications of a substitution to some types that can change tails. -/
def applications (a : Attachments) (s : Subst) (ts : List Ty) : List Application :=
  if s.isEmpty || a.tails.isEmpty then [] else ts.map fun t => (s, t)

/-- What applications do to tails, one after another. -/
def replay (a : Attachments) (done : List Application) : Attachments :=
  done.foldl (fun a d => a.revise d.1 d.2) a

/-! ## Without tails -/

theorem current_of_tails {a : Attachments} (h : a.tails = []) (t : Ty) : a.current t = t := by
  simp [current, h]

end Attachments

end ScriptTyping
