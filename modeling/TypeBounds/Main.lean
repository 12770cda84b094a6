import TypeBounds.Command.Report

/-!
# The program

Reads the file, prints the report, and ends with status 1 after a failure.
-/

namespace TypeBounds.Command

/-- What a file holds, if it can be read. -/
def readContent (file : String) : IO (Option String) := do
  try
    return some (← IO.FS.readFile file)
  catch _ =>
    return none

/-- Prints a report. -/
def Report.print (r : Report) : IO UInt32 := do
  IO.print r.out
  match r.failure with
  | none => return 0
  | some f =>
    IO.eprintln ("Error: " ++ f.message)
    return 1

end TypeBounds.Command

open TypeBounds Command in
/-- The first argument is the command. -/
def main (args : List String) : IO UInt32 := do
  match args with
  | [] =>
    IO.eprintln "Error: requires at least 1 arg(s), only received 0"
    return 1
  | word :: args =>
    match Verb.ofWord? word with
    | none =>
      IO.println "Commands: solve file.yaml|file.toml, dump file.yaml|file.toml"
      return 0
    | some v =>
      match Invocation.read v args with
      | .error e => Report.print { failure := some (.usage e) }
      | .ok i => Report.print (i.run (← readContent i.file))
