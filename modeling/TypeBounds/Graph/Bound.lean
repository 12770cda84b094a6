import TypeBounds.Graph.Spread

/-!
# Adding bounds

The three operations which add a bound: a lower type, an upper type and a lower reference. They
refuse what the graph cannot make sense of before anything happens; after that they may meet a
contradiction, and the graph keeps what was done until then.
-/

namespace TypeBounds

open Infer

/-- Makes `lower` a direct neighbour below `upper`. -/
def Graph.link (g : Graph) (lower upper : VarId) : Graph :=
  (g.update upper fun b => { b with below := b.below.insert lower }).update lower fun b =>
    { b with above := b.above.insert upper }

/-- Removes the edge from `lower` to `upper`. -/
def Graph.unlink (g : Graph) (lower upper : VarId) : Graph :=
  (g.update upper fun b => { b with below := b.below.erase lower }).update lower fun b =>
    { b with above := b.above.erase upper }

/-- Links everything up to `lower` with everything from `upper` on, so that the edges stay
transitively closed. A variable is not linked with itself. -/
def Graph.linkAcross (g : Graph) (lower upper : VarId) : Graph :=
  let lowers := lower :: g.below lower
  let uppers := upper :: g.above upper
  lowers.foldl (fun g x => uppers.foldl (fun g y => if x = y then g else g.link x y) g) g

/-- **A new edge.** Adds `lower <: upper` with its transitive closure, and lets the bounds of both
ends flow across once. -/
def addEdge (lower upper : VarId) : Infer Unit := do
  let g ← graph
  if (g.boundsOf upper).below.contains lower then pure ()
  else do
    modify fun g => g.linkAcross lower upper
    noteChanged
    let ls := (g.boundsOf lower).lower
    if ls.isEmpty then pure () else spread .lower upper (Ty.union ls).copy
    let us := ((← graph).boundsOf upper).upper
    if us.isEmpty then pure () else spread .upper lower (Ty.inter us).copy

namespace Graph

/-- Why a type cannot become a bound of a variable, if it cannot. -/
def checkBound (g : Graph) (id : VarId) (t : Ty) : Except Misuse Unit := do
  let _ ← g.require id
  g.requireOwned t

/-- Adds a type to one of the bounds of a variable and propagates it. A convertible to the variable
itself says nothing and is skipped. -/
def addBound (g : Graph) (side : Side) (id : VarId) (t : Ty) : Outcome :=
  match g.checkBound id t with
  | .error m => g.refuse m
  | .ok () => if g.isSelf id t then { graph := g } else g.run .contradiction (spread side id t)

/-- **Lower bounds.** Joins a type into the lower bound of a variable and of everything above it. -/
def addLower (g : Graph) (id : VarId) (t : Ty) : Outcome := g.addBound .lower id t

/-- **Upper bounds.** Meets a type into the upper bound of a variable and of everything below it. -/
def addUpper (g : Graph) (id : VarId) (t : Ty) : Outcome := g.addBound .upper id t

/-- **Lower references.** Registers `r <: id`. A fixed reference makes no edge: its lower bound is
copied into `id` once. A reference to the variable itself leaves a mark and nothing else. -/
def addRef (g : Graph) (id : VarId) (r : Option Reference) : Outcome :=
  match g.require id, r with
  | .error m, _ => g.refuse m
  | .ok _, none => g.refuse (.noLowerReference id)
  | .ok b, some r =>
    match g.require r.id with
    | .error m => g.refuse m
    | .ok rb =>
      if r.fixed then
        if r.id = id || rb.lower.isEmpty then { graph := g }
        else g.run (.ref id r.id) (spread .lower id (Ty.union rb.lower).copy)
      else if r.id = id then
        if b.below.contains id then { graph := g }
        else { graph := g.link id id, effect := { changed := true } }
      else g.run (.ref id r.id) (addEdge r.id id)

end Graph

end TypeBounds
