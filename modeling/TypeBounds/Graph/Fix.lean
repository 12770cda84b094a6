import TypeBounds.Graph.Bound

/-!
# Fixing type variables

Fixing freezes a type variable to the type it resolves to. A bound on one side only is copied to the
other, so that both sides hold the resolved type.
-/

namespace TypeBounds

namespace Bounds

/-- Sets the lower bound to the parts of a type. -/
def setLower (b : Bounds) (t : Ty) : Bounds := { b with lower := Members.ofTypes t.copy.unionParts }

/-- Sets the upper bound to the parts of a type. -/
def setUpper (b : Bounds) (t : Ty) : Bounds := { b with upper := Members.ofTypes t.copy.interParts }

/-- Copies the resolved type onto whichever side is empty, as long as the other one is not. -/
def completed (b : Bounds) : Bounds :=
  match b.lower, b.upper with
  | _ :: _, [] => b.setUpper b.resolved
  | [], _ :: _ => b.setLower b.resolved
  | _, _ => b

/-- The record of a fixed variable that had no bound at all. -/
def defaulted (b : Bounds) : Bounds :=
  match b.lower, b.upper with
  | [], [] => { b with lower := Members.ofTypes [.mixed], upper := Members.ofTypes [.mixed] }
  | _, _ => b.completed

end Bounds

namespace Graph

/-- Makes every reference to a variable fixed. -/
def pin (g : Graph) (id : VarId) : Graph :=
  { g with names := g.names.mapValues fun _ r => if r.id = id then { r with fixed := true } else r }

/-- **Fixing by name.** The reference of the name becomes fixed and its variable is frozen. Other
names of the variable keep their references. -/
def fixVariable (g : Graph) (name : String) : Except Misuse Graph :=
  (g.reference name).map fun r =>
    { g with names := g.names.insert name { r with fixed := true } }.update r.id fun b =>
      { b.completed with frozen := true }

/-- **Fixing by id.** All references become fixed; a variable without bounds gets `mixed` on both
sides. -/
def fixParameter (g : Graph) (id : VarId) : Except Misuse Graph :=
  (g.require id).map fun _ => (g.pin id).update id fun b => { b.defaulted with frozen := true }

end Graph

end TypeBounds
