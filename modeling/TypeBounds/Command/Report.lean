import TypeBounds.Command.Arguments
import TypeBounds.Graph.Description
import TypeBounds.Problem.Load
import TypeBounds.Problem.Solve

/-!
# What the commands print

A report is the text that a command prints and the failure with which it ends, if any. What was
printed before a failure stays printed.
-/

namespace TypeBounds.Command

/-- Why a command failed. -/
inductive Failure where
  | usage (e : UsageError)
  | load (e : Problem.LoadError)
  | solve (file : String) (f : Problem.Failure)

def Failure.message : Failure → String
  | usage e => e.message
  | load e => "could not load problem: " ++ e.message
  | solve file f => "could not solve " ++ file ++ ": " ++ f.message

structure Report where
  out : String := ""
  failure : Option Failure := none

/-- The line of a step: its number, the operation, and what came of it. -/
def stepLine (index : Nat) (step : Operation × Option Effect) : String :=
  let outcome := match step.2 with
    | none => []
    | some e =>
      (if e.changed then ["changed"] else []) ++
        (e.conversion.map fun c => "via " ++ c.provider).toList
  toString index ++ ": " ++ step.1.text ++
    (if outcome.isEmpty then "" else " [" ++ ", ".intercalate outcome ++ "]") ++ "\n"

/-- The lines of all steps. -/
def stepLines (steps : List (Operation × Option Effect)) : String :=
  String.join (steps.zipIdx.map fun (step, index) => stepLine index step)

/-- The text of a graph. -/
def graphText (g : Graph) : String := g.describe.render ++ "\n"

/-- What `solve` prints about a solution. -/
def solutionText (s : Solution) : String :=
  match s.function with
  | some f => f.text s.graph ++ "\n"
  | none => "applied " ++ toString s.steps.length ++ " operations\n"

namespace Invocation

/-- The report on a problem. `dump` prints the graph also after a contradiction, `solve` only its
steps. -/
def reportOn (i : Invocation) (p : Problem) : Report :=
  match p.solve Digraph.components with
  | .error f => { failure := some (.solve i.file f) }
  | .ok (s, failure) =>
    let failure := failure.map (Failure.solve i.file)
    match i.verb with
    | .dump => { out := graphText s.graph, failure }
    | .solve =>
      let steps := if i.options.steps then stepLines s.steps else ""
      if failure.isSome then { out := steps, failure }
      else { out := steps ++ solutionText s ++ if i.options.dump then graphText s.graph else "" }

/-- **Runs a command**, given what its file holds if it can be read. -/
def run (i : Invocation) (content : Option String) : Report :=
  match Problem.load i.file content with
  | .error e => { failure := some (.load e) }
  | .ok p => i.reportOn (if i.options.flavor = "" then p else { p with flavor := i.options.flavor })

end Invocation

/-- Runs a command on its arguments; `read` gives what a file holds. -/
def run (v : Verb) (args : List String) (read : String → Option String) : Report :=
  match Invocation.read v args with
  | .error e => { failure := some (.usage e) }
  | .ok i => i.run (read i.file)

end TypeBounds.Command
