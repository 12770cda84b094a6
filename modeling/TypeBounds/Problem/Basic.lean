import TypeBounds.Universe

/-!
# Problems

A problem describes the inference of one function body as data: the declared types and conversions,
the variables, the operations performed on the graph, and the function to generalise at the end.
-/

namespace TypeBounds

/-- A variable and its type variable. No id means a fresh one. -/
structure VariableDecl where
  name : String := ""
  id : String := ""
  fixed : Bool := false
  deriving DecidableEq, Inhabited

/-- What an operation does. Words that are no operation are kept: they fail when it is their
turn. -/
inductive OpKind where
  | lower
  | upper
  | ref
  | fix
  | fixParameter
  | merge
  | other (word : String)
  deriving DecidableEq

namespace OpKind

instance : Inhabited OpKind := ⟨.other ""⟩

/-- The operation that a word names. -/
def ofWord : String → OpKind
  | "lower" => lower
  | "upper" => upper
  | "ref" => ref
  | "fix" => fix
  | "fix-parameter" => fixParameter
  | "merge" => merge
  | w => other w

def word : OpKind → String
  | lower => "lower"
  | upper => "upper"
  | ref => "ref"
  | fix => "fix"
  | fixParameter => "fix-parameter"
  | merge => "merge"
  | other w => w

end OpKind

/-- One operation on the graph.

* `lower`, `upper`: `var` is a type variable, `type` a type expression;
* `ref`: makes `ref` a subtype of `var`, both type variables; `fixed` makes it a fixed reference;
* `fix`: `var` is a variable name;
* `fixParameter`: `var` is a type variable;
* `merge`: merges `var` into `ref`. -/
structure Operation where
  op : OpKind := .other ""
  var : String := ""
  type : String := ""
  ref : String := ""
  fixed : Bool := false
  deriving DecidableEq, Inhabited

/-- How an operation is written. -/
def Operation.text (o : Operation) : String :=
  match o.op with
  | .lower => o.type ++ " <: " ++ o.var
  | .upper => o.var ++ " <: " ++ o.type
  | .ref => o.ref ++ (if o.fixed then "!" else "") ++ " <: " ++ o.var
  | .merge => "merge " ++ o.var ++ " into " ++ o.ref
  | op => op.word ++ " " ++ o.var

/-- The function that a problem generalises, by variable names. -/
structure FunctionDecl where
  name : String := ""
  parameters : List String := []
  result : String := ""
  deriving DecidableEq, Inhabited

/-- A problem. -/
structure Problem where
  flavor : String := ""
  types : List TypeDecl := []
  conversions : List ConversionDecl := []
  vars : List VariableDecl := []
  operations : List Operation := []
  function : Option FunctionDecl := none
  deriving DecidableEq, Inhabited

end TypeBounds
