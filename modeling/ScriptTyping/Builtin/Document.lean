import ScriptTyping.Builtin
import ScriptTyping.Text.Quoted
import ScriptTyping.Yaml

/-!
# Documents that declare builtins

    builtins:
      - name: print
        kind: function
        signature: "<T>(args: T) -> integer"

Keys that are not known are passed over with all that is below them. A key may stand only once in a
mapping. What is left out is empty, and an entry that says nothing is no entry. Of two builtins of
one name, the later counts.

**Merging.** The key `<<` takes over the entries of a mapping, or of a sequence of mappings. The own
entries of a mapping come before those that it takes over, and of these the earlier come first.
-/

namespace ScriptTyping

/-- Why a document declares no builtins. -/
inductive DocumentError where
  /-- The text is no document of this shape. -/
  | malformed
  /-- An entry, counted from 0, has no name. -/
  | noName (index : Nat)
  /-- An entry is of a kind that there is not. -/
  | unknownKind (name kind : String)
deriving DecidableEq

/-- The words for what is wrong with a document. -/
def DocumentError.message : DocumentError → String
  | malformed => "failed to parse builtins"
  | noName index => "builtin " ++ toString index ++ " has no name"
  | unknownKind name kind => "builtin " ++ name ++ " has unknown kind " ++ Text.quote kind

namespace Builtins

/-- The fields of a mapping: values by the text of their keys. Of two for one key the first counts. -/
abbrev Fields := List (String × Yaml.Value)

/-- The entries of a mapping that are its own, if each key is a text and stands once. Keys that say
nothing are left out. -/
def ownFields (entries : List (Yaml.Value × Yaml.Value)) : Option Fields :=
  let keys := entries.map fun e => e.1.text?
  if keys.Nodup ∧ ∀ k ∈ keys, k.isSome then
    some ((entries.filter fun e => !e.1.isNull && !e.1.isMerge).map fun e =>
      (e.1.text?.getD "", e.2))
  else none

mutual

/-- The fields of a mapping: its own, and then those that it merges. -/
def fieldsOf : Yaml.Value → Option Fields
  | .map entries => do return (← ownFields entries) ++ (← mergesOf entries)
  | .mention v => fieldsOf v
  | _ => none

/-- The fields that a mapping merges. -/
def mergesOf : List (Yaml.Value × Yaml.Value) → Option Fields
  | [] => some []
  | (key, v) :: entries => if key.isMerge then mergedOf v else mergesOf entries

/-- The fields of a mapping, or of the mappings in a sequence, that are merged. -/
def mergedOf : Yaml.Value → Option Fields
  | .seq items => mergedAll items
  | v => fieldsOf v

/-- The fields of mappings that are merged, one after another. -/
def mergedAll : List Yaml.Value → Option Fields
  | [] => some []
  | v :: items => do return (← fieldsOf v) ++ (← mergedAll items)

end

/-- The fields of a value that is a mapping, or nothing. -/
def mappingOf (v : Yaml.Value) : Option Fields := if v.isNull then some [] else fieldsOf v

/-- The items of a value that is a sequence, or nothing. -/
def sequenceOf (v : Yaml.Value) : Option (List Yaml.Value) :=
  match v.target with
  | .seq items => some items
  | v => if v.isNull then some [] else none

def textOf (fields : Fields) (key : String) : Option String :=
  match fields.lookup key with
  | none => some ""
  | some v => if v.isNull then some "" else v.text?

/-- An entry as it is written: name, kind and signature. -/
structure Entry where
  name : String
  kind : String
  signature : String

def entryOf (v : Yaml.Value) : Option Entry := do
  let fields ← mappingOf v
  return ⟨← textOf fields "name", ← textOf fields "kind", ← textOf fields "signature"⟩

/-- The entries that a document declares. -/
def entriesOf (v : Yaml.Value) : Option (List Entry) := do
  let fields ← mappingOf v
  let items ← sequenceOf ((fields.lookup "builtins").getD .empty)
  (items.filter fun v => !v.isNull).mapM entryOf

/-- The builtin that an entry declares. -/
def ofEntry (index : Nat) (e : Entry) : Except DocumentError (String × Builtin) :=
  if e.name = "" then .error (.noName index) else
    match BuiltinKind.ofName e.kind with
    | .other kind => .error (.unknownKind e.name kind)
    | kind => .ok (e.name, ⟨kind, e.signature⟩)

/-- The builtins that a document declares. -/
def ofDocument (source : String) : Except DocumentError Builtins :=
  match (Yaml.parse? source).bind entriesOf with
  | none => .error .malformed
  | some entries => do
    return Dict.ofList (← entries.zipIdx.mapM fun e => ofEntry e.2 e.1)

end Builtins

end ScriptTyping
