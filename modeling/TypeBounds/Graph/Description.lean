import TypeBounds.Graph.Basic

/-!
# Descriptions

A plain view of a graph: names with what they denote in order of entry, and type variables with
their states, bounds and neighbours in natural order. `Description.render` prints it with one field
per line and the values of neighbouring fields aligned.
-/

namespace TypeBounds

/-- What is shown of a type variable. The texts of bounds are empty where there are none. -/
structure TypeVariableView where
  id : VarId
  status : Status
  lower : String
  upper : String
  below : List VarId
  above : List VarId

/-- What is shown of a graph. -/
structure Description where
  policy : Policy
  names : List (String × Reference)
  typeVariables : List TypeVariableView

/-- **The description** of a graph. -/
def Graph.describe (g : Graph) : Description where
  policy := g.policy
  names := g.names.entries
  typeVariables := g.typeVariables.map fun id =>
    { id := id
      status := g.status id
      lower := (g.boundsOf id).lowerName
      upper := (g.boundsOf id).upperName
      below := g.below id
      above := g.above id }

namespace Description

open Text (quote)

/-- A line of the printed form, indented by a number of steps. -/
def line (steps : Nat) (text : String) : String :=
  String.ofList (List.replicate (4 * steps) ' ') ++ text ++ "\n"

/-- The name of a field, padded to a width, and its value. -/
def field (width : Nat) (name value : String) : String :=
  name ++ ":" ++ String.ofList (List.replicate (width - name.length) ' ') ++ value

/-- A list of ids between braces. -/
def idList (ids : List VarId) : String :=
  "\x7b" ++ ", ".intercalate (ids.map quote) ++ "\x7d"

/-- The printed form of a type variable. -/
def renderTypeVariable (v : TypeVariableView) : String :=
  let row := fun name value => line 3 (field 10 name value ++ ",")
  line 2 "\x7b" ++ row "ID" (quote v.id) ++ row "State" (quote v.status.label) ++
    row "Lower" (quote v.lower) ++ row "Upper" (quote v.upper) ++
    row "LowerRefs" (idList v.below) ++ row "UpperRefs" (idList v.above) ++ line 2 "\x7d,"

/-- The printed form of a description. -/
def render (d : Description) : String :=
  let body :=
    if d.names.isEmpty then
      line 1 (field 14 "Policy" (quote d.policy.label) ++ ",") ++
        line 1 (field 14 "Variables" "nil,") ++ line 1 (field 14 "TypeVariables" "nil,")
    else
      line 1 (field 10 "Policy" (quote d.policy.label) ++ ",") ++ line 1 "Variables: \x7b" ++
        String.join (d.names.map fun v =>
          line 2 ("\x7bName:" ++ quote v.1 ++ ", Reference:" ++ quote v.2.label ++ "\x7d,")) ++
        line 1 "\x7d," ++ line 1 "TypeVariables: \x7b" ++
        String.join (d.typeVariables.map renderTypeVariable) ++ line 1 "\x7d,"
  line 0 "problem.Description\x7b" ++ body ++ "\x7d"

end Description

end TypeBounds
