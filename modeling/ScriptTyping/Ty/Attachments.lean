import ScriptTyping.Ty.Basic

/-!
# What is attached to types

`Attachments` holds the classes of all cells. To read the classes of a type one looks into its
cell; to attach classes one writes them there, and every holder of the node sees them. It also
holds the tails of records, of which `Ty/Tail` has more.
-/

namespace ScriptTyping

/-- The classes in each cell that was filled, the latest first, the number of the next new cell, and
the tails in the order of their numbers. -/
structure Attachments where
  sets : List (Cell × ClassSet)
  next : Cell
  tails : List (Dict Ty)
deriving Inhabited

namespace Attachments

def empty : Attachments := ⟨[], 0, []⟩

/-- What a cell holds, if it was filled. -/
def get? (a : Attachments) (c : Cell) : Option ClassSet := a.sets.lookup c

def get (a : Attachments) (c : Cell) : ClassSet := (a.get? c).getD []

def set (a : Attachments) (c : Cell) (classes : ClassSet) : Attachments :=
  { a with sets := (c, classes) :: a.sets }

def fresh (a : Attachments) : Cell × Attachments := (a.next, { a with next := a.next + 1 })

/-- A new variable with classes. -/
def newVar (a : Attachments) (id : String) (classes : ClassSet) : Var × Attachments :=
  let (c, a) := a.fresh
  (⟨id, c⟩, if classes.isEmpty then a else a.set c (ClassSet.adding [] classes))

/-- The classes of a constructor or record with some label. -/
def ofLabel (a : Attachments) (l : Label) : ClassSet :=
  match l.cell with
  | none => l.classes
  | some c => (a.get? c).getD l.classes

/-- The classes attached to a type. -/
def classes (a : Attachments) : Ty → ClassSet
  | .missing => []
  | .var v => a.get v.cell
  | .con _ _ l => a.ofLabel l
  | .record _ _ l => a.ofLabel l

def cell? : Ty → Option Cell
  | .missing => none
  | .var v => some v.cell
  | .con _ _ l => l.cell
  | .record _ _ l => l.cell

/-- Replace the classes attached to a type. A type without a cell keeps its own. -/
def setClasses (a : Attachments) (t : Ty) (cs : ClassSet) : Attachments :=
  match cell? t with
  | some c => a.set c cs
  | none => a

def attach (a : Attachments) (t : Ty) (c : String) : Attachments :=
  a.setClasses t (ClassSet.adding (a.classes t) [c])

/-! ## Cells -/

theorem get?_set (a : Attachments) (c d : Cell) (cs : ClassSet) :
    (a.set c cs).get? d = if c = d then some cs else a.get? d := by
  by_cases h : c = d
  · simp [get?, set, h]
  · have hd : (d == c) = false := by simpa using Ne.symm h
    simp [get?, set, List.lookup_cons, h, hd]

theorem get_set (a : Attachments) (c d : Cell) (cs : ClassSet) :
    (a.set c cs).get d = if c = d then cs else a.get d := by
  unfold get
  rw [get?_set]
  split <;> rfl

/-! ## Cells for whole types -/

/-- A label with a cell. -/
def adoptLabel (a : Attachments) (l : Label) : Label × Attachments :=
  match l.cell with
  | some _ => (l, a)
  | none =>
    let (c, a) := a.fresh
    ({ l with cell := some c }, a)

mutual

/-- A type each of whose constructors and records has a cell. -/
def adopt (a : Attachments) : Ty → Ty × Attachments
  | .missing => (.missing, a)
  | .var v => (.var v, a)
  | .con name args l =>
    let (args, a) := a.adoptAll args
    let (l, a) := a.adoptLabel l
    (.con name args l, a)
  | .record name fields l =>
    let (fields, a) := a.adoptFields fields
    let (l, a) := a.adoptLabel l
    (.record name fields l, a)

/-- Types each of whose constructors and records has a cell. -/
def adoptAll (a : Attachments) : List Ty → List Ty × Attachments
  | [] => ([], a)
  | t :: ts =>
    let (t, a) := a.adopt t
    let (ts, a) := a.adoptAll ts
    (t :: ts, a)

/-- Named types each of whose constructors and records has a cell. -/
def adoptFields (a : Attachments) : List (String × Ty) → List (String × Ty) × Attachments
  | [] => ([], a)
  | (k, t) :: fs =>
    let (t, a) := a.adopt t
    let (fs, a) := a.adoptFields fs
    ((k, t) :: fs, a)

end

/-- Named types, each of whose constructors and records has a cell if `keep` is set. -/
def adoptIf (keep : Bool) (a : Attachments) (fs : List (String × Ty)) : List (String × Ty) × Attachments :=
  if keep then a.adoptFields fs else (fs, a)

/-- Tails each of whose constructors and records has a cell. -/
def adoptTails (a : Attachments) : Attachments :=
  a.tails.zipIdx.foldl (fun a e =>
    let (fields, a) := a.adoptFields e.1
    { a with tails := a.tails.set e.2 fields }) a

end Attachments

/-! ## Names of records -/

namespace Ty

mutual

/-- Give the record with some cell another name, wherever it stands in a type. -/
def renameAt (c : Cell) (name : String) : Ty → Ty
  | missing => missing
  | var v => var v
  | con n args l => con n (renameAtAll c name args) l
  | record n fields l =>
    record (if l.cell = some c then name else n) (renameAtFields c name fields) l

/-- Give the record with some cell another name in some types. -/
def renameAtAll (c : Cell) (name : String) : List Ty → List Ty
  | [] => []
  | t :: ts => t.renameAt c name :: renameAtAll c name ts

/-- Give the record with some cell another name in some fields. -/
def renameAtFields (c : Cell) (name : String) : List (String × Ty) → List (String × Ty)
  | [] => []
  | (k, t) :: fs => (k, t.renameAt c name) :: renameAtFields c name fs

end

end Ty

end ScriptTyping
