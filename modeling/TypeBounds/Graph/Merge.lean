import TypeBounds.Graph.Bound

/-!
# Merging one type variable into another

After `merge old new` the variable `new` stands for everything that `old` stood for: mutable
references, bounds, edges and convertibles are redirected. A fixed reference keeps denoting `old`,
in which case the record of `old` survives.
-/

namespace TypeBounds

open Infer

namespace Graph

/-- Redirects the mutable references to `old`. -/
def redirect (g : Graph) (old new : VarId) : Graph :=
  { g with names := g.names.mapValues fun _ r =>
      if r.id = old && !r.fixed then { r with id := new } else r }

/-- Whether a fixed reference denotes the variable. -/
def isPinned (g : Graph) (id : VarId) : Bool :=
  g.names.entries.any fun e => e.2.id = id && e.2.fixed

/-- The convertible with `new` in the place of the variable `old` of this graph. -/
def renameOpen (g : Graph) (old new : VarId) : Ty → Ty
  | .asVar cell owner var =>
    if g.owns owner && var = old then .asVar none owner new else .asVar cell owner var
  | t => t

/-- Members of a bound of `holder` with convertibles to `old` redirected to `new`. A convertible to
the holder itself would be a tautology and is dropped. -/
def renameMembers (g : Graph) (holder old new : VarId) (ms : Members) : Members :=
  if g.pointsAt ms old then
    let renamed := Members.ofTypes (Ty.mapEach (g.renameOpen old new) ms)
    ((Members.types renamed).filter (g.isSelf holder)).foldl
      (fun ms t => Members.erase ms t.name) renamed
  else ms

/-- Redirects the convertibles to `old` in all bounds. -/
def renameConvertibles (g : Graph) (old new : VarId) : Graph :=
  { g with bounds := g.bounds.mapValues fun id b =>
      let holder := if id = old then new else id
      { b with
        lower := g.renameMembers holder old new b.lower
        upper := g.renameMembers holder old new b.upper } }

/-- Removes all edges of a variable. -/
def isolate (g : Graph) (id : VarId) : Graph :=
  let g' := (g.below id).foldl (fun g x => g.unlink x id) g
  (g.above id).foldl (fun g y => g.unlink id y) g'

end Graph

/-- **Merging** two distinct registered variables. -/
def mergeInto (old new : VarId) : Infer Unit := do
  let g ← graph
  let others := fun (ids : List VarId) => ids.filter fun x => x ≠ old && x ≠ new
  let lowers := others (g.below old)
  let uppers := others (g.above old)
  modify fun g => ((g.redirect old new).isolate old).renameConvertibles old new
  let ls := ((← graph).boundsOf old).lower
  if ls.isEmpty then pure () else spread .lower new (Ty.union ls).copy
  let us := ((← graph).boundsOf old).upper
  if us.isEmpty then pure () else spread .upper new (Ty.inter us).copy
  modify fun g' =>
    if (g'.boundsOf old).frozen then g'.update new fun b => { b with frozen := true } else g'
  lowers.forM fun x => addEdge x new
  uppers.forM fun y => addEdge new y
  if g.isPinned old then pure () else modify fun g => { g with bounds := g.bounds.erase old }

/-- Makes `new` stand for everything that `old` stood for. Merging a variable into itself does
nothing. -/
def Graph.merge (g : Graph) (old new : VarId) : Outcome :=
  match g.require old, g.require new with
  | .error m, _ => g.refuse m
  | _, .error m => g.refuse m
  | .ok _, .ok _ => if old = new then { graph := g } else g.run .contradiction (mergeInto old new)

end TypeBounds
