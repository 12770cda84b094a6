import TypeBounds.Problem.OfToml
import TypeBounds.Problem.OfYaml
import TypeBounds.Text.Quoted

/-!
# Loading problems from files

The ending of a file's name says which format it has. A file that cannot be read fails before its
name is looked at.
-/

namespace TypeBounds.Problem

/-- Why a file holds no problem. -/
inductive LoadError where
  | unreadable
  | yaml
  | toml (e : OfToml.Error)
  | unsupported (extension : String)

def LoadError.message : LoadError → String
  | unreadable => "could not read problem file"
  | yaml => "could not parse YAML problem"
  | toml e => e.message
  | unsupported extension =>
    "unsupported problem file extension " ++ Text.quote extension ++
      ", expected .yaml, .yml or .toml"

/-- The part of a file's name from its last dot on, within the last element of the path. -/
def extension (file : String) : String :=
  let fromEnd := (file.toList.reverse.takeWhile (· ≠ '/')).span (· ≠ '.')
  match fromEnd.2 with
  | [] => ""
  | _ => String.ofList ('.' :: fromEnd.1.reverse)

/-- Reads a problem in the format of a file name. Capital letters of the alphabet in the ending make
no difference. -/
def ofText (file text : String) : Except LoadError Problem :=
  let ext := (extension file).toLower
  if ext = ".yaml" || ext = ".yml" then
    match OfYaml.read? text with
    | some p => .ok p
    | none => .error .yaml
  else if ext = ".toml" then (OfToml.read text).mapError .toml
  else .error (.unsupported ext)

/-- **Loads a problem**; `content` is what the file holds, if it can be read. -/
def load (file : String) (content : Option String) : Except LoadError Problem :=
  match content with
  | none => .error .unreadable
  | some text => ofText file text

end TypeBounds.Problem
