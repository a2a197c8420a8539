/-!
# What YAML documents say

A document says a scalar, a sequence or a mapping. A value that has a name can be mentioned again
elsewhere, also within itself.
-/

namespace ScriptTyping

namespace Yaml

/-- What a document says. A plain scalar is one without quotes, in a flow of words. -/
inductive Value where
  | scalar (text : String) (plain : Bool)
  | seq (items : List Value)
  | map (entries : List (Value × Value))
  /-- Another mention of a value. -/
  | mention (target : Value)
  /-- The value that is mentioned within itself. -/
  | knot
deriving Inhabited

namespace Value

/-- Nothing, where a value may be left out. -/
def empty : Value := scalar "" true

/-- The value that is meant. -/
def target : Value → Value
  | mention v => v.target
  | v => v

def isNull (v : Value) : Bool :=
  match v.target with
  | scalar text plain => plain && text ∈ ["", "~", "null", "Null", "NULL"]
  | _ => false

/-- The text of a scalar, as it is written. -/
def text? (v : Value) : Option String :=
  match v.target with
  | scalar text _ => some text
  | _ => none

/-- Whether a key asks for the entries of other mappings. -/
def isMerge : Value → Bool
  | scalar text plain => plain && text = "<<"
  | _ => false

end Value

end Yaml

end ScriptTyping
