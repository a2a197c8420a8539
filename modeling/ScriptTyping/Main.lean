import ScriptTyping.Command

/-!
# The program

Reads the files that the arguments name, runs the command, and prints what it reports.
-/

open ScriptTyping

/-- The text of a file, if it can be read. -/
def readFile? (name : String) : IO (Option String) := do
  try
    return some (← IO.FS.readFile name)
  catch _ => return none

/-- Check the files that the arguments name, or standard input. -/
def main (args : List String) : IO UInt32 := do
  let options := (Command.Options.ofArgs args).toOption
  let names := (options.map Command.Options.opened).getD []
  let files ← names.mapM fun name => return (name, ← readFile? name)
  let needsInput := (options.map fun o => o.files.isEmpty).getD false
  let source ← if needsInput then (← IO.getStdin).readToEnd else pure ""
  let report := Command.run args source fun name => (files.lookup name).join
  for piece in report.output do
    match piece with
    | .out text => IO.print text
    | .err text => IO.eprint text
  return report.code.toUInt32
