import TypeBounds.Graph.Basic
import TypeBounds.Reachable

/-!
# Signatures

A signature reads `P1 x P2 -> R \ constraints`. Fixed type variables are written as the types they
resolve to, parametric ones as their ids. The constraints are the bounds and edges of all parametric
type variables that are mentioned or connected to mentioned ones.
-/

namespace TypeBounds

namespace Graph

/-- How a type variable is written in a signature. -/
def typeText (g : Graph) (id : VarId) : String :=
  if g.isFrozen id then (g.boundsOf id).resolved.name else id

/-- The parametric type variables that are connected to the given ones through parametric ones, in
natural order. -/
def parametricPart (g : Graph) (mentioned : List VarId) : List VarId :=
  let parametric := g.ids.filter (!g.isFrozen ·)
  Natural.sort <|
    reachable parametric (fun id => (g.boundsOf id).below ++ (g.boundsOf id).above) mentioned

/-- The constraint that the type bounds of a variable put on it, if there are any. -/
def boundConstraint (g : Graph) (id : VarId) : List String :=
  let b := g.boundsOf id
  match b.lower.isEmpty, b.upper.isEmpty with
  | false, false => [b.lowerName ++ " < " ++ id ++ " < " ++ b.upperName]
  | true, false => [id ++ " < " ++ b.upperName]
  | false, true => [b.lowerName ++ " < " ++ id]
  | true, true => []

/-- The constraints of the given parametric variables, the bounds of each followed by its edges to
the others. -/
def constraints (g : Graph) (part : List VarId) : List String :=
  part.flatMap fun id =>
    g.boundConstraint id ++
      ((g.above id).filter fun y => y ≠ id && part.contains y).map fun y => id ++ " < " ++ y

end Graph

namespace FunctionType

/-- **The signature** of a function in the graph it was inferred in. -/
def signature (f : FunctionType) (g : Graph) : Except Misuse String := do
  let parameters ← f.parameters.mapM fun name => (g.reference name).map Reference.id
  let result ← (g.reference f.result).map Reference.id
  let left := if parameters.isEmpty then "void" else " x ".intercalate (parameters.map g.typeText)
  let constraints := g.constraints (g.parametricPart (parameters ++ [result]))
  let right := if constraints.isEmpty then "" else " \\ " ++ ", ".intercalate constraints
  pure (left ++ " -> " ++ g.typeText result ++ right)

/-- A function with its signature, or with what is wrong about it. -/
def text (f : FunctionType) (g : Graph) : String :=
  f.name ++ ": " ++ match f.signature g with
    | .ok s => s
    | .error m => m.message

end FunctionType

end TypeBounds
