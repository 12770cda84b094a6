import TypeBounds.Graph.Infer
import TypeBounds.Reachable

/-!
# Propagation of bounds

A new member of a lower bound goes to everything above its variable, a new member of an upper bound
to everything below. Each variable is visited at most once per call, and propagation stops wherever
nothing is new. Layers:

* what a record absorbs, and how a member is put in (`insertLower`, `insertUpper`);
* the checks of a new member against the opposite bound, which may call for a conversion;
* `joinLower` and `meetUpper`, one variable at a time. A conversion narrows the opposite bound, so
  both take the propagation of one level less as a parameter;
* `spread`: propagation from one variable, to a given depth of nesting. Every nested call is
  preceded by a type entering the upper bound of some variable, so the depth needed is limited by
  the number of variables and of types that can enter (`Graph.spreadDepth`).
-/

namespace TypeBounds

namespace Graph

/-! ## Members coming in -/

/-- Whether the lower bound of a variable already covers a type. -/
def lowerAbsorbs (g : Graph) (id : VarId) (m : Ty) : Bool :=
  (g.boundsOf id).lower.any fun e => g.isSubtype m e.2

/-- Whether the upper bound of a variable already implies a type. -/
def upperAbsorbs (g : Graph) (id : VarId) (m : Ty) : Bool :=
  (g.boundsOf id).upper.any fun e => g.isSubtype e.2 m

/-- Puts a type into the lower bound of a variable in the place of what it covers. The members are
looked at one after the other, each with the earlier ones gone. -/
def insertLower (g : Graph) (id : VarId) (m : Ty) : Graph :=
  let drop := fun (g : Graph) (e : Ty) =>
    if g.isSubtype e m then g.update id fun b => { b with lower := Members.erase b.lower e.name }
    else g
  ((Members.types (g.boundsOf id).lower).foldl drop g).update id fun b =>
    { b with lower := Members.add b.lower m.copy }

/-- Whether two types cannot both be members of an intersection. -/
def clashes (a b : Ty) : Bool :=
  a.isFinal || b.isFinal || (!a.isCombinable && !b.isCombinable)

/-- Puts a type into the upper bound of a variable in the place of what it implies, unless one of
the others clashes with it. -/
def insertUpper (g : Graph) (id : VarId) (m : Ty) : Except Contradiction Graph :=
  let present := Members.types (g.boundsOf id).upper
  match present.find? fun e => !g.isSubtype m e && clashes e m with
  | some e => .error (.intersection id m e)
  | none =>
    let implied := present.filter fun e => g.isSubtype m e
    .ok (g.update id fun b =>
      { b with
        upper := Members.add (implied.foldl (fun ms e => Members.erase ms e.name) b.upper) m.copy })

/-- The upper bound of a variable without the convertibles that stand for nothing yet. -/
def checkableUpper (g : Graph) (id : VarId) : Members :=
  Members.ofTypes ((Members.types (g.boundsOf id).upper).filter (!g.isUnresolved ·))

/-- The number of nested propagations that a type can set off. -/
def spreadDepth (g : Graph) (t : Ty) : Nat :=
  2 * (g.ids.length + 2) * (g.lattice.conversions.length + t.size + 2)

end Graph

open Infer

/-! ## Checks against the opposite bound -/

/-- **A new lower member against the upper bound.** Where only an implicit conversion bridges the
two, the upper bound narrows to its target. -/
def checkUpper (narrow : VarId → Ty → Infer Unit) (id : VarId) (m : Ty) : Infer Unit := do
  let g ← graph
  let checkable := g.checkableUpper id
  if g.isUnresolved m || checkable.isEmpty || g.isSubtype m (.inter checkable) then pure ()
  else match g.implicit? m (.inter checkable) with
    | none => fail (.upper id m (Ty.inter (g.boundsOf id).upper).copy)
    | some c => do
      noteConversion c
      narrow id c.target

/-- The conversion that a lower member needs to fit under a new upper member, if it needs one. -/
def bridgeLower (id : VarId) (m l : Ty) : Infer (Option Conversion) := do
  let g ← graph
  if g.isUnresolved l || g.isSubtype l m then pure none
  else match g.implicit? l m with
    | none => fail (.lower id m (Ty.union (g.boundsOf id).lower).copy)
    | some c => do
      noteConversion c
      pure (some c)

/-- **A new upper member against the lower bound.** Gives the sources of the implicit conversions
that it relies on. -/
def checkLower (id : VarId) (m : Ty) : Infer (List Ty) := do
  let g ← graph
  if g.isUnresolved m then pure []
  else
    let found ← (Members.types (g.boundsOf id).lower).mapM (bridgeLower id m)
    pure (found.filterMap fun c => c.map Conversion.source)

/-- Checks one lower member of a variable against its upper bound once more. -/
def recheckMember (id : VarId) (checkable : Members) (l : Ty) : Infer Unit := do
  let g ← graph
  if g.isUnresolved l || g.isSubtype l (.inter checkable) then pure ()
  else match g.implicit? l (.inter checkable) with
    | none => fail (.upper id l.copy (Ty.inter (g.boundsOf id).upper).copy)
    | some c => noteConversion c

/-- **Dependents.** Checks again every variable whose bounds hold a convertible to `id`: it may have
stood for nothing when the bounds around it were checked, or stand for something else now. -/
def recheck (id : VarId) : Infer Unit := do
  let g ← graph
  g.typeVariables.forM fun dependent =>
    let b := g.boundsOf dependent
    let checkable := g.checkableUpper dependent
    if (g.pointsAt b.lower id || g.pointsAt b.upper id) && !checkable.isEmpty then
      (Members.types b.lower).forM (recheckMember dependent checkable)
    else pure ()

/-! ## One variable -/

/-- Puts one member into the lower bound of a variable. Says whether it was new. -/
def joinMember (narrow : VarId → Ty → Infer Unit) (id : VarId) (m : Ty) : Infer Bool := do
  let g ← graph
  if g.lowerAbsorbs id m then pure false
  else do
    checkUpper narrow id m
    modify fun g => g.insertLower id m
    pure true

/-- Puts one member into the upper bound of a variable. The lower bound is restricted to what the
conversions accept, so that the concrete representation stays consistent. -/
def meetMember (widen : VarId → Ty → Infer Unit) (id : VarId) (m : Ty) : Infer Bool := do
  let g ← graph
  if g.upperAbsorbs id m then pure false
  else do
    let sources ← checkLower id m
    let g ← graph
    match g.insertUpper id m with
    | .error e => fail e
    | .ok g' => do
      modify fun _ => g'
      sources.forM fun source => do
        noteConstraint source
        widen id source
      pure true

/-- Handles the given members in order. Says whether any of them was new. -/
def anyNew (each : Ty → Infer Bool) : List Ty → Infer Bool
  | [] => pure false
  | m :: ms => do
    let new ← each m
    let newer ← anyNew each ms
    pure (new || newer)

/-- Joins a type into the lower bound of a variable, but for convertibles to that very variable. -/
def joinLower (narrow : VarId → Ty → Infer Unit) (id : VarId) (t : Ty) : Infer Bool := do
  let g ← graph
  anyNew (joinMember narrow id) (t.unionParts.filter (!g.isSelf id ·))

/-- Meets a type into the upper bound of a variable, but for convertibles to that very variable. -/
def meetUpper (widen : VarId → Ty → Infer Unit) (id : VarId) (t : Ty) : Infer Bool := do
  let g ← graph
  anyNew (meetMember widen id) (t.interParts.filter (!g.isSelf id ·))

/-! ## Propagation -/

/-- The bound that a type goes into. -/
inductive Side where
  | lower
  | upper
  deriving DecidableEq

/-- Takes a type to one variable and says where it has to go next: up from a lower bound, down from
an upper one, and nowhere if nothing was new. -/
def visit (nested : Side → VarId → Ty → Infer Unit) (side : Side) (t : Ty) (id : VarId) :
    Infer (List VarId) := do
  let new ← match side with
    | .lower => joinLower (nested .upper) id t
    | .upper => meetUpper (nested .lower) id t
  if new then do
    noteChanged
    recheck id
    let g ← graph
    match side with
    | .lower => pure (g.above id)
    | .upper => pure (g.below id)
  else pure []

/-- **Propagation** of a type from a variable, with a limit on the depth of nesting. -/
def spreadWithin : Nat → Side → VarId → Ty → Infer Unit
  | 0 => fun _ _ _ => noteCutOff
  | depth + 1 => fun side start t => do
    let g ← graph
    exploreM (visit (spreadWithin depth) side t) g.ids.length g.ids [start]

/-- Propagation as deep as need be. -/
def spread (side : Side) (start : VarId) (t : Ty) : Infer Unit := do
  let g ← graph
  spreadWithin (g.spreadDepth t) side start t

end TypeBounds
