import ScriptTyping.Dict

/-!
# Builtins

Names that a program finds declared: functions, and variables. A builtin's type is written as an
annotation.
-/

namespace ScriptTyping

/-- What a builtin is. -/
inductive BuiltinKind where
  | function
  | value
  | other (name : String)
deriving DecidableEq

namespace BuiltinKind

def ofName (name : String) : BuiltinKind :=
  if name = "function" then function
  else if name = "variable" then value
  else other name

def name : BuiltinKind → String
  | function => "function"
  | value => "variable"
  | other name => name

end BuiltinKind

/-- A builtin. -/
structure Builtin where
  kind : BuiltinKind
  signature : String
deriving DecidableEq

abbrev Builtins := Dict Builtin

/-- The builtins that a program has unless others are given. -/
def Builtins.standard : Builtins :=
  Dict.ofList
    [("print", ⟨.function, "<T>(args: T) -> integer"⟩),
     ("fetchJS", ⟨.function, "<T, U>(url: string, opts: T) -> U"⟩),
     ("fetch_inbuilt", ⟨.function, "<T, U>(url: string, opts: T) -> Promise<U>"⟩)]

end ScriptTyping
