import ScriptTyping.Ty.Class

/-!
# Types

A type is a variable, a constructor applied to types, or a record of named types. `Ty.missing`
stands where there is no type: a statement has none, nor has an unknown name.

**Classes.** Classes are attached to the nodes of a type, and more can be attached later. Whoever
holds the same node sees them, so the classes that may still grow are kept apart from the tree, in
`Attachments`, under the number of a cell. A variable always has a cell. A constructor or a
record carries the classes that it was built with; it has a cell only if its classes can still
grow, and then the cell, once filled, counts instead.

**Tails.** A record with many fields has only the first of them for itself. The others are its tail,
which it shares with the records that come from it by substitution. Tails can change, so they too
are kept in `Attachments`, under a number; in the tree stands how the tail was when last looked at.
-/

namespace ScriptTyping

/-- The number of a place where attached classes are kept. -/
abbrev Cell := Nat

/-- The tail of a record: its number, and how many fields stand before it. -/
structure Tail where
  number : Nat
  own : Nat
deriving DecidableEq, Inhabited

/-- The classes that a node was built with, where later ones are kept, and the tail of a record that
has one. -/
structure Label where
  classes : ClassSet
  cell : Option Cell
  tail : Option Tail
deriving DecidableEq, Inhabited

/-- The label of a node with classes that does not get more. -/
def Label.fixed (classes : ClassSet) : Label := ⟨classes, none, none⟩

/-- A node without classes that will not get any. -/
def Label.none : Label := .fixed []

/-- A variable: what it is called, and where its classes are kept. Variables of one name are the
same variable. -/
structure Var where
  id : String
  cell : Cell
deriving DecidableEq, Inhabited

/-- A type. -/
inductive Ty where
  | missing
  | var (v : Var)
  | con (name : String) (args : List Ty) (label : Label)
  | record (name : String) (fields : List (String × Ty)) (label : Label)
deriving Inhabited

namespace Ty

/-- Induction over types: a property holds of a node if it holds of what is below it. -/
@[induction_eliminator]
theorem induction {P : Ty → Prop} (missing : P missing) (var : ∀ v, P (var v))
    (con : ∀ name args label, (∀ t ∈ args, P t) → P (con name args label))
    (record : ∀ name fields label, (∀ f ∈ fields, P f.2) → P (record name fields label)) (t : Ty) : P t :=
  @Ty.rec P (fun ts => ∀ t ∈ ts, P t) (fun fs => ∀ f ∈ fs, P f.2) (fun f => P f.2)
    missing var (fun name args label ih => con name args label ih)
    (fun name fields label ih => record name fields label ih)
    (fun _ h => absurd h List.not_mem_nil)
    (fun _ _ h hs _ ht => (List.mem_cons.1 ht).elim (fun e => e ▸ h) (hs _))
    (fun _ h => absurd h List.not_mem_nil)
    (fun _ _ h hs _ ht => (List.mem_cons.1 ht).elim (fun e => e ▸ h) (hs _))
    (fun _ _ h => h) t

/-! ## Names of constructors -/

def integer : String := "integer"
def float : String := "float"
def boolean : String := "boolean"
def string : String := "string"
def void : String := "void"
def unknown : String := "unknown"
def arrayName : String := "Array"
def mapName : String := "Map"
def promiseName : String := "Promise"

/-- The constructor of function types: its arguments are the parameters and then the result. -/
def arrowName : String := "->"

/-- The name of a record that belongs to no declared struct. -/
def anonymous : String := "map"

/-! ## Building types -/

def app (name : String) (args : List Ty) : Ty := con name args .none

/-- A constructor that is applied to nothing, with classes. -/
def const (name : String) (classes : ClassSet) : Ty := con name [] (.fixed (ClassSet.adding [] classes))

/-- A primitive type with its classes. -/
def primitive (name : String) : Ty := const name (Class.ofPrimitive name)

def arrow (params : List Ty) (ret : Ty) : Ty := app arrowName (params ++ [ret])

/-- A record. One without a name is anonymous. -/
def mkRecord (name : String) (fields : List (String × Ty)) (classes : ClassSet) : Ty :=
  record (if name = "" then anonymous else name) fields (.fixed (ClassSet.adding [] classes))

/-! ## Looking at types -/

def isMissing : Ty → Bool
  | missing => true
  | _ => false

/-- The name of a constructor or record, or of a variable. -/
def shortName : Ty → String
  | missing => unknown
  | var v => v.id
  | con name _ _ => name
  | record name _ _ => name

/-- Parameters and result of a function type. -/
def arrow? : Ty → Option (List Ty × Ty)
  | con name args _ =>
    if name = arrowName then
      match args.getLast? with
      | some ret => some (args.dropLast, ret)
      | none => none
    else none
  | _ => none

/-- Whether a constructor of this name unifies with every field of a record. -/
def isMapName (name : String) : Bool := name = anonymous || name = mapName

def field? : Ty → String → Option Ty
  | record _ fields _, key => Dict.get? fields key
  | _, _ => none

/-- Whether two types are one variable or one node. -/
def same : Ty → Ty → Bool
  | missing, missing => true
  | var v, var w => v.id == w.id
  | con _ _ l, con _ _ m => l.cell.isSome && l.cell == m.cell
  | record _ _ l, record _ _ m => l.cell.isSome && l.cell == m.cell
  | _, _ => false

end Ty

end ScriptTyping
