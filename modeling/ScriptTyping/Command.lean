import ScriptTyping.Builtin.Document
import ScriptTyping.Checker

/-!
# The command line

    [-trace] [-classes] [-builtins document] [file ...]

Checks each file and prints the types of its top-level declarations. Without files, the program is
read from standard input. A file that cannot be opened ends the run; a program with errors does not,
but the run has then failed.
-/

namespace ScriptTyping

namespace Command

/-! ## What is printed -/

/-- A piece of output. -/
inductive Output where
  | out (text : String)
  | err (text : String)

/-- A whole run: what it prints, and its exit code. -/
structure Report where
  output : List Output
  code : Nat

namespace Report

def stdout (r : Report) : String :=
  String.join (r.output.map fun
    | .out text => text
    | .err _ => "")

def stderr (r : Report) : String :=
  String.join (r.output.map fun
    | .out _ => ""
    | .err text => text)

end Report

/-- The flags, each with what stands behind it and what it does. -/
def flags : List (String × String) :=
  [("ast", "dump the syntax tree of each program"),
   ("builtins string",
    "YAML file declaring the builtins (defaults to print, fetchJS, fetch_inbuilt)"),
   ("classes", "print the type-classes attached to type-variables"),
   ("trace", "trace constraints and solved bindings to stderr")]

def usage : String :=
  "usage: tinfer [flags] [file ...]\n" ++
    String.join (flags.map fun f => "  -" ++ f.1 ++ "\n    \t" ++ f.2 ++ "\n")

/-! ## Flags -/

/-- What the flags ask for. -/
structure Options where
  trace : Bool
  classes : Bool
  /-- The file that declares the builtins, or nothing for the standard ones. -/
  builtins : String
  files : List String

def Options.plain : Options := ⟨false, false, "", []⟩

/-- Why there is nothing to run. -/
inductive FlagError where
  | help
  | syntactic (arg : String)
  | undefined (name : String)
  | noArgument (name : String)
  | notBoolean (name value : String)
deriving DecidableEq

def FlagError.message : FlagError → Option String
  | help => none
  | syntactic arg => some ("bad flag syntax: " ++ arg)
  | undefined name => some ("flag provided but not defined: -" ++ name)
  | noArgument name => some ("flag needs an argument: -" ++ name)
  | notBoolean name value =>
    some ("invalid boolean value " ++ Text.quote value ++ " for -" ++ name ++ ": parse error")

/-- The truth value that a text denotes. -/
def truthOf? (text : String) : Option Bool :=
  if text ∈ ["1", "t", "T", "true", "TRUE", "True"] then some true
  else if text ∈ ["0", "f", "F", "false", "FALSE", "False"] then some false
  else none

/-- The name of a flag, and its value if one is joined to it. -/
def splitFlag (body : List Char) : String × Option String :=
  match body.span (· ≠ '=') with
  | (name, _ :: value) => (String.ofList name, some (String.ofList value))
  | (name, []) => (String.ofList name, none)

/-- The characters behind the one or two dashes of a flag. None if an argument is no flag. -/
def flagBody? (arg : String) : Option (List Char) :=
  match arg.toList with
  | '-' :: '-' :: body => some body
  | '-' :: c :: body => some (c :: body)
  | _ => none

/-- Set a flag that is on or off. -/
def setSwitch (name : String) (value : Option String) (set : Bool → Options) : Except FlagError Options :=
  match value with
  | none => .ok (set true)
  | some text =>
    match truthOf? text with
    | some b => .ok (set b)
    | none => .error (.notBoolean name text)

/-- Read the flags. They end at the first argument that is none, or behind two dashes. -/
def Options.read (o : Options) : List String → Except FlagError Options
  | [] => .ok o
  | arg :: args =>
    match flagBody? arg with
    | none => .ok { o with files := arg :: args }
    | some [] => .ok { o with files := args }
    | some (c :: body) =>
      if c = '-' || c = '=' then .error (.syntactic arg) else
        match splitFlag (c :: body) with
        | ("ast", value) => do Options.read (← setSwitch "ast" value fun _ => o) args
        | ("trace", value) => do
          Options.read (← setSwitch "trace" value fun b => { o with trace := b }) args
        | ("classes", value) => do
          Options.read (← setSwitch "classes" value fun b => { o with classes := b }) args
        | ("builtins", some value) => Options.read { o with builtins := value } args
        | ("builtins", none) =>
          match args with
          | [] => .error (.noArgument "builtins")
          | value :: args => Options.read { o with builtins := value } args
        | (name, _) => .error (if name = "h" || name = "help" then .help else .undefined name)

/-- What to do, as the arguments say. -/
def Options.ofArgs (args : List String) : Except FlagError Options := Options.read .plain args

/-- The files that a run may open. -/
def Options.opened (o : Options) : List String :=
  if o.builtins = "" then o.files else o.builtins :: o.files

/-! ## Running -/

/-- A line about one declaration. -/
def binding (o : Options) (c : Checker) (name : String) (t : Ty) : Output :=
  .out (name ++ ": " ++
    (if o.classes then t.textWithClasses c.supply.attachments else t.text) ++ "\n")

def statementLines (o : Options) (c : Checker) (typing : Typing) : Node → List Output
  | .lets vars => vars.map fun v => binding o c v.name (c.solved (typing.typeOf v))
  | .func name _ _ => [binding o c name (c.lookup name)]
  | _ => []

def statements : Node → List Node
  | .program body => body
  | _ => []

/-- What is printed after a check. -/
def checkLines (o : Options) (name : String) (r : Outcome) : List Output :=
  (if o.trace then r.log.map fun entry => .err (logLine ("trace: " ++ entry)) else []) ++
    match r.error, r.typing with
    | some e, _ => [.err ("error: " ++ e.message ++ "\n")]
    | none, none => []
    | none, some typing =>
      (if name = "" then [] else [.out (name ++ ":\n")]) ++
        (statements typing.program).flatMap (statementLines o r.checker typing)

/-- That a file cannot be opened. -/
def cannotOpen (name : String) : Output := .err ("open " ++ name ++ ": no such file or directory\n")

def runFiles (o : Options) (builtins : Builtins) (open? : String → Option String) :
    Checker → (failed : Bool) → List String → Report
  | _, failed, [] => ⟨[], if failed then 1 else 0⟩
  | c, failed, name :: names =>
    match open? name with
    | none => ⟨[cannotOpen name], 1⟩
    | some source =>
      let r := c.check name source builtins
      let rest := runFiles o builtins open? r.checker (failed || r.error.isSome) names
      { rest with output := checkLines o name r ++ rest.output }

/-- The builtins of a run, or what is printed if there are none. -/
def loadBuiltins (o : Options) (open? : String → Option String) : Except Output Builtins :=
  if o.builtins = "" then .ok .standard else
    match open? o.builtins with
    | none => .error (cannotOpen o.builtins)
    | some source => (Builtins.ofDocument source).mapError fun e => .err (e.message ++ "\n")

def run (args : List String) (stdin : String) (open? : String → Option String) : Report :=
  match Options.ofArgs args with
  | .error e =>
    ⟨(e.message.map fun text => Output.err (text ++ "\n")).toList ++ [.err usage],
      if e = .help then 0 else 2⟩
  | .ok o =>
    match loadBuiltins o open? with
    | .error line => ⟨[line], 1⟩
    | .ok builtins =>
      let c := Checker.new defaultPrimitives
      if o.files.isEmpty then
        let r := c.check "" stdin builtins
        ⟨checkLines o "" r, if r.error.isSome then 1 else 0⟩
      else runFiles o builtins open? c false o.files

end Command

end ScriptTyping
