import ScriptTyping.Dict

/-!
# Type classes

A class is known by its name: two classes of one name are the same class. A `ClassSet` lists
names in the order in which they were first put in.
-/

namespace ScriptTyping

/-- Names of classes, in order. -/
abbrev ClassSet := List String

namespace ClassSet

def has (cs : ClassSet) (name : String) : Bool := cs.contains name

/-- Whether all classes of `required` are in a set. -/
def hasAll (cs required : ClassSet) : Bool := required.all cs.has

/-- The classes of `required` that are not in a set. -/
def lacking (cs required : ClassSet) : ClassSet := required.filter fun c => !cs.has c

/-- Put a class behind the others, unless it is in the set. -/
def push (cs : ClassSet) (c : String) : ClassSet := if cs.has c then cs else cs ++ [c]

/-- The classes of both sets, each once, in the order of their first occurrence. -/
def union (cs ds : ClassSet) : ClassSet := (cs ++ ds).foldl push []

/-- A set with some classes more. To put in none changes nothing. -/
def adding (cs ds : ClassSet) : ClassSet := if ds.isEmpty then cs else union cs ds

def text (cs : ClassSet) : String := ", ".intercalate (cs.map fun c => "'" ++ c ++ "'")

/-! ### Membership -/

@[simp] theorem has_iff {cs : ClassSet} {c : String} : cs.has c = true ↔ c ∈ cs := by
  simp [has]

theorem mem_push {cs : ClassSet} {c d : String} : d ∈ cs.push c ↔ d ∈ cs ∨ d = c := by
  unfold push
  split
  next h =>
    rw [has_iff] at h
    exact ⟨.inl, fun hd => hd.elim id fun e => e ▸ h⟩
  next => simp

theorem mem_foldl_push {cs ds : ClassSet} {d : String} : d ∈ ds.foldl push cs ↔ d ∈ cs ∨ d ∈ ds := by
  induction ds generalizing cs with
  | nil => simp
  | cons c ds ih => simp [ih, mem_push, or_assoc]

/-- The union has the classes of both sets. -/
theorem mem_union {cs ds : ClassSet} {d : String} : d ∈ cs.union ds ↔ d ∈ cs ∨ d ∈ ds := by
  simp [union, mem_foldl_push]

theorem mem_adding {cs ds : ClassSet} {d : String} : d ∈ cs.adding ds ↔ d ∈ cs ∨ d ∈ ds := by
  unfold adding
  split
  next h => simp [List.isEmpty_iff.1 h]
  next => exact mem_union

/-- A set lacks nothing exactly if it has all that is required. -/
theorem lacking_eq_nil_iff {cs required : ClassSet} : cs.lacking required = [] ↔ ∀ c ∈ required, c ∈ cs := by
  simp [lacking, has]

end ClassSet

/-! ## The classes of the language -/

namespace Class

/-- Numbers. -/
def num : String := "Num"

/-- What can be joined to a text. -/
def stringable : String := "Stringable"

/-- What can be compared. -/
def ord : String := "Ord"

/-- What can be tested for equality. -/
def eq : String := "Eq"

/-- What can be shown. -/
def display : String := "Show"

/-- Values of declared structs. -/
def struct : String := "Struct"

/-- The classes that every program knows. -/
def predefined : List String := [num, stringable, ord, eq, display, struct]

/-- The operations of a class. A class that is not predefined has none. -/
def methods : String → List String
  | "Num" => ["+", "-", "*", "/"]
  | "Stringable" => ["+"]
  | "Ord" => ["<", ">", "<=", ">="]
  | "Eq" => ["==", "!="]
  | "Show" => ["str"]
  | _ => []

/-- The classes of the primitive types. -/
def ofPrimitive : String → ClassSet
  | "integer" => [display, num, ord, eq]
  | "float" => [display, num, ord, eq]
  | "string" => [display, stringable, eq]
  | "boolean" => [display, eq]
  | _ => []

end Class

end ScriptTyping
