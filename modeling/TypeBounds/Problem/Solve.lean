import TypeBounds.Graph.Generalize
import TypeBounds.Graph.Signature
import TypeBounds.Problem.Basic
import TypeBounds.TypeExpr.Denote

/-!
# Solving problems

Solving replays the operations of a problem on an empty graph and then generalises its function. A
contradiction stops the replay; the solution then holds what was reached until then, together with
the failure.
-/

namespace TypeBounds

namespace Operation

/-- Why an operation failed. -/
inductive Failure where
  | expression (e : TypeExpr.Error)
  | fault (f : Fault)
  | unknown (word : String)

def Failure.message : Failure → String
  | expression e => e.message
  | fault f => f.message
  | unknown word => "unknown operation " ++ Text.quote word

/-- The result of a bound-adding operation. -/
def ofOutcome (o : Outcome) : Except Failure (Option Effect) × Graph :=
  match o.fault with
  | some f => (.error (.fault f), o.graph)
  | none => (.ok (some o.effect), o.graph)

/-- The result of an operation that adds no bound. -/
def ofChange (g : Graph) : Except Misuse Graph → Except Failure (Option Effect) × Graph
  | .ok g' => (.ok none, g')
  | .error m => (.error (.fault (.misuse m)), g)

/-- **Performs an operation.** The graph is there also after a failure; there is an effect if the
operation adds bounds. -/
def apply (u : Universe) (o : Operation) (g : Graph) : Except Failure (Option Effect) × Graph :=
  let bound := fun (add : VarId → Ty → Outcome) =>
    match TypeExpr.read u g o.type with
    | .error e => (.error (.expression e), g)
    | .ok t => ofOutcome (add o.var t)
  match o.op with
  | .lower => bound g.addLower
  | .upper => bound g.addUpper
  | .ref => ofOutcome (g.addRef o.var (some { id := o.ref, fixed := o.fixed }))
  | .fix => ofChange g (g.fixVariable o.var)
  | .fixParameter => ofChange g (g.fixParameter o.var)
  | .merge =>
    match ofOutcome (g.merge o.var o.ref) with
    | (.ok _, g') => (.ok none, g')
    | failed => failed
  | .other word => (.error (.unknown word), g)

end Operation

namespace Problem

/-- Why a problem could not be solved. -/
inductive Failure where
  | policy (name : String)
  | types (e : Universe.Error)
  | conversions (e : Universe.Error)
  | declaration (m : Misuse)
  | operation (index : Nat) (o : Operation) (cause : Operation.Failure)
  | parameter (m : Misuse)
  | generalization (f : Fault)
  | signature (m : Misuse)

namespace Failure

def message : Failure → String
  | policy name => Policy.unknownMessage name
  | types e => "invalid types: " ++ e.message
  | conversions e => "invalid conversions: " ++ e.message
  | declaration m => m.message
  | operation index o cause =>
    "operation " ++ toString index ++ " (" ++ o.text ++ "): " ++ cause.message
  | parameter m => "function parameter: " ++ m.message
  | generalization f => "could not generalize: " ++ f.message
  | signature m => m.message

/-- The fault of the graph behind a failure, if there is one. -/
def fault? : Failure → Option Fault
  | declaration m => some (.misuse m)
  | operation _ _ (.fault f) => some f
  | parameter m => some (.misuse m)
  | generalization f => some f
  | signature m => some (.misuse m)
  | _ => none

/-- Whether a type expression did not fit the grammar. -/
def isMalformed : Failure → Bool
  | operation _ _ (.expression e) => e.isMalformed
  | _ => false

end Failure

end Problem

/-- What solving a problem leads to: the final graph, the operations performed with their effects,
the function if generalisation came to its end, and its signature. -/
structure Solution where
  graph : Graph
  steps : List (Operation × Option Effect) := []
  function : Option FunctionType := none
  signature : String := ""

namespace Problem

/-- Adds the variable of a declaration to a graph. -/
def declareVariable (g : Graph) (d : VariableDecl) : Except Misuse Graph :=
  let (g, r) := if d.id = "" then g.mint else (g, { id := d.id })
  g.addVariable d.name (some { r with fixed := d.fixed })

/-- The graph of a problem before its first operation, and its universe. -/
def start (p : Problem) : Except Failure (Universe × Graph) := do
  let policy ← match Policy.ofName? p.flavor with
    | some policy => pure policy
    | none => throw (.policy p.flavor)
  let u ← (Universe.ofDecls p.types).mapError .types
  let lattice ← (u.lattice p.conversions).mapError .conversions
  let g ← (p.vars.foldlM declareVariable { tag := 1, lattice, policy }).mapError .declaration
  pure (u, g)

/-- Performs operations in order, the first of them having the given index. -/
def replay (u : Universe) : Nat → List Operation → Solution → Solution × Option Failure
  | _, [], s => (s, none)
  | index, o :: os, s =>
    match o.apply u s.graph with
    | (.error e, g) => ({ s with graph := g }, some (.operation index o e))
    | (.ok effect, g) =>
      replay u (index + 1) os { s with graph := g, steps := s.steps ++ [(o, effect)] }

/-- Generalises the function of a problem. -/
def generalize (search : ComponentSearch) (f : FunctionDecl) (s : Solution) :
    Solution × Option Failure :=
  match f.parameters.mapM fun name => (s.graph.reference name).map Reference.id with
  | .error m => (s, some (.parameter m))
  | .ok params =>
    let outcome := s.graph.generalize search params
    let s := { s with graph := outcome.graph }
    match outcome.fault with
    | some fault => (s, some (.generalization fault))
    | none =>
      let function : FunctionType :=
        { name := f.name, graph := s.graph.tag, parameters := f.parameters, result := f.result }
      let s := { s with function := some function }
      match function.signature s.graph with
      | .error m => (s, some (.signature m))
      | .ok text => ({ s with signature := text }, none)

/-- **Solving.** Fails outright if there is no graph to begin with; otherwise there is a solution,
and possibly a failure that cut it short. -/
def solve (p : Problem) (search : ComponentSearch) :
    Except Failure (Solution × Option Failure) := do
  let (u, g) ← p.start
  match replay u 0 p.operations { graph := g }, p.function with
  | (s, none), some f => pure (generalize search f s)
  | (s, failure), _ => pure (s, failure)

end Problem

end TypeBounds
