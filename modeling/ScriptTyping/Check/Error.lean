import ScriptTyping.Syntax.Grammar
import ScriptTyping.Unify.Basic

/-!
# Errors of checking

Why a program has no types. Unification failures are collected, and everything else stops the
check at once.
-/

namespace ScriptTyping

/-- What a name should have been declared as. -/
inductive DeclKind where
  | struct
  | enum
  | variant
deriving DecidableEq

/-- The word for a kind of declaration. -/
def DeclKind.name : DeclKind → String
  | struct => "Struct"
  | enum => "Enum"
  | variant => "Variant"

/-- Why a program has no types. -/
inductive CheckError where
  /-- There is no program. -/
  | emptyProgram
  /-- The text cannot be read. -/
  | source (e : SourceError)
  /-- Some types cannot be made one. -/
  | unsolvable (errors : List UnifyError)
  /-- A type argument is not in a class that its parameter asks for. -/
  | bound (t : Ty) (cls : String)
  /-- An operand is not in the class of its operator. -/
  | operator (op : String) (left right : Ty)
  /-- An annotation names no type. -/
  | unknownType (name : String)
  /-- A name is not declared as what it is used for. -/
  | undeclared (kind : DeclKind) (name : String)
  /-- An operand has no value. -/
  | invalidOperands (op : String)
  /-- A type should have been written. -/
  | untyped
  /-- There is no such operator. -/
  | unsupportedOperator (op : String)
  /-- A struct contains itself. -/
  | recursiveStruct (name : String)
  /-- The constant of a variant refers to itself. -/
  | recursiveConstant
  /-- The signature of a builtin is wrong. -/
  | builtin (name : String) (cause : CheckError)
  /-- Something is wrong in a file. -/
  | file (name : String) (cause : CheckError)

namespace CheckError

/-- Change the types that an error is about. -/
def mapTypes (f : Ty → Ty) : CheckError → CheckError
  | unsolvable errors => unsolvable (errors.map (UnifyError.mapTypes f))
  | bound t cls => bound (f t) cls
  | operator op left right => operator op (f left) (f right)
  | builtin name cause => builtin name (cause.mapTypes f)
  | file name cause => file name (cause.mapTypes f)
  | e => e

/-- What an operator asks of its operands. -/
def operatorDemand (op : String) : String :=
  if op = "+" then "Operator '+' requires either Num or Stringable type class"
  else if op ∈ ["<", ">", "<=", ">="] then "Comparison requires Ord type class"
  else if op ∈ ["==", "!="] then "Equality comparison requires Eq type class"
  else "Operator '" ++ op ++ "' requires Num type class"

def message : CheckError → String
  | emptyProgram => "Empty program"
  | source e => e.message
  | unsolvable errors => UnifyError.report errors
  | bound t cls => (UnifyError.classes t [cls]).message
  | operator op left right =>
    operatorDemand op ++ " for types " ++ left.shortName ++ " and " ++ right.shortName
  | unknownType name => "Couldn't find generic type <" ++ name ++ ">"
  | undeclared kind name => kind.name ++ " " ++ name ++ " not found"
  | invalidOperands op => "Invalid operands for '" ++ op ++ "'"
  | untyped => "Missing type annotation"
  | unsupportedOperator op => "Unsupported operator: " ++ op
  | recursiveStruct name => "Struct " ++ name ++ " contains itself"
  | recursiveConstant => "Constant refers to itself"
  | builtin name cause => "builtin " ++ name ++ ": " ++ cause.message
  | file name cause => name ++ ": " ++ cause.message

end CheckError

end ScriptTyping
