import TypeBounds.Components
import TypeBounds.Graph.Fix
import TypeBounds.Graph.Merge

/-!
# Generalisation

At the end of a function body, type variables that no parameter flows into are fixed and the rest
stays parametric. Four phases:

* `pruneSelfEdges`: edges from a variable to itself say nothing;
* `collapse`: every cycle is merged into one representative, preferably a parameter;
* `freezeRounds`: what can be fixed is fixed, until nothing more can. Fixing a variable hands its
  type on and detaches it, so others may become fixable. Each round fixes a variable that was not
  fixed in an earlier one, so there are at most as many rounds as variables;
* `coalesceRounds`: a variable which nothing but an edge tells apart from the parameter right below
  it is merged into that parameter. Each merge removes a variable, so there are at most as many
  merges as variables.
-/

namespace TypeBounds

open Infer

namespace Graph

/-- Removes the edges from variables to themselves. -/
def pruneSelfEdges (g : Graph) : Graph :=
  { g with bounds := g.bounds.mapValues fun id b =>
      if b.below.contains id then { b with below := b.below.erase id, above := b.above.erase id }
      else b }

/-- Whether some other parameter flows into a variable. -/
def reachesParameter (g : Graph) (params : List VarId) (id : VarId) : Bool :=
  (reachable g.ids (fun x => (g.boundsOf x).below) [id]).any fun x => x ≠ id && params.contains x

/-- Whether a variable can be fixed now: it is frozen already, or no other parameter flows into it.
Of the parameters only those are fixed that are bounded from below alone: they are constants. -/
def isFixable (g : Graph) (params : List VarId) (id : VarId) : Bool :=
  let b := g.boundsOf id
  g.isFrozen id || (!g.reachesParameter params id &&
    (!params.contains id || (!b.lower.isEmpty && b.upper.isEmpty)))

/-- The fixable variables that are not done yet, in natural order. -/
def fixable (g : Graph) (params done : List VarId) : List VarId :=
  g.typeVariables.filter fun id => !done.contains id && g.isFixable params id

/-- The variable below `id` that everything else below `id` flows into, if there is one. -/
def nearestBelow (g : Graph) (id : VarId) : Option VarId :=
  let lowers := g.below id
  lowers.find? fun c => lowers.all fun x => x = c || (g.boundsOf c).below.contains x

/-- Whether nothing but an edge tells a variable apart from a parameter below it. -/
def isIndistinguishable (g : Graph) (id param : VarId) : Bool :=
  let b := g.boundsOf id
  let p := g.boundsOf param
  b.lowerName = p.lowerName && (b.upper.isEmpty || b.upperName = p.upperName)

/-- The parameter that a variable can be merged into, if there is one. -/
def coalescesInto? (g : Graph) (params : List VarId) (id : VarId) : Option VarId :=
  if params.contains id || g.isFrozen id then none
  else (g.nearestBelow id).filter fun p => params.contains p && g.isIndistinguishable id p

end Graph

/-! ## Cycles -/

/-- The representative of a cycle: its first parameter, else its first variable. -/
def representative (params component : List VarId) : Option VarId :=
  (component.find? params.contains).or component.head?

/-- Merges variables into a representative, which becomes a parameter in the place of every one that
was. Gives the parameters afterwards. -/
def mergeAll (rep : VarId) : List VarId → List VarId → Infer (List VarId)
  | [], params => pure params
  | id :: ids, params => do
    mergeInto id rep
    mergeAll rep ids (if params.contains id then (params.filter (· ≠ id)).insert rep else params)

/-- **Collapsing.** Merges each of the given components into one variable. Gives the parameters
afterwards. -/
def collapse : List (List VarId) → List VarId → Infer (List VarId)
  | [], params => pure params
  | component :: rest, params => do
    let component := Natural.sort component
    match representative params component with
    | none => collapse rest params
    | some rep => do
      let params ← mergeAll rep (component.filter (· ≠ rep)) params
      collapse rest params

/-! ## Fixing -/

/-- **Freezing.** Fixes a variable to the type it resolves to, hands that type on to everything
above it and detaches it. A bound with several members is handed on as it is at that moment, since a
conversion further up may restrict it meanwhile. -/
def freeze (id : VarId) : Infer Unit := do
  let b := (← graph).boundsOf id
  let resolution := b.resolution
  modify fun g => g.update id fun b =>
    let b' := if b.lower.isEmpty then b.setLower b.resolved else b
    if g.policy = .overload && b.upper.isEmpty then b'.setUpper b.resolved else b'
  (Natural.sort b.above).forM fun y => do
    let g ← graph
    spread .lower y (resolution.type (g.boundsOf id)).copy
  modify fun g => ((g.isolate id).update id fun b => { b with frozen := true }).pin id

/-- Fixes what can be fixed, again and again, for at most the given number of rounds. -/
def freezeRounds (params : List VarId) : Nat → List VarId → Infer Unit
  | 0, _ => pure ()
  | rounds + 1, done => do
    let g ← graph
    match g.fixable params done with
    | [] => pure ()
    | ids => do
      ids.forM freeze
      freezeRounds params rounds (done ++ ids)

/-! ## Coalescing -/

/-- Merges variables into the parameters right below them, at most the given number of times. -/
def coalesceRounds (params : List VarId) : Nat → Infer Unit
  | 0 => pure ()
  | merges + 1 => do
    let g ← graph
    match g.typeVariables.findSome? fun id => (g.coalescesInto? params id).map (id, ·) with
    | none => pure ()
    | some (id, param) => do
      mergeInto id param
      coalesceRounds params merges

/-- All phases in order, with the search that finds the cycles. -/
def generalizeAll (search : ComponentSearch) (params : List VarId) : Infer Unit := do
  modify Graph.pruneSelfEdges
  let g ← graph
  let cycles := (stronglyConnected search g.typeVariables g.above).filter fun c => 2 ≤ c.length
  let params ← collapse cycles params.eraseDups
  freezeRounds params (← graph).ids.length []
  coalesceRounds params (← graph).ids.length

/-- **Generalises** a graph for a function with the given parameters. -/
def Graph.generalize (g : Graph) (search : ComponentSearch) (params : List VarId) : Outcome :=
  match params.forM fun id => (g.require id).map fun _ => () with
  | .error m => g.refuse m
  | .ok () => g.run .contradiction (generalizeAll search params)

end TypeBounds
