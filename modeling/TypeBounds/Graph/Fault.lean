import TypeBounds.Graph.Basic

/-!
# What can go wrong

A `Contradiction` between bounds means that the candidate under trial cannot apply. A `Fault` is
either that, possibly met while a ref bound was added, or a `Misuse` of the graph, never both.
-/

namespace TypeBounds

/-- Bounds of a type variable that cannot hold together. -/
inductive Contradiction where
  /-- a new upper bound is not above the lower bound -/
  | lower (id : VarId) (newUpper lower : Ty)
  /-- a new lower bound is not below the upper bound -/
  | upper (id : VarId) (newLower upper : Ty)
  /-- a new upper bound cannot stand beside another in an intersection -/
  | intersection (id : VarId) (newUpper conflicting : Ty)

namespace Contradiction

/-- The type variable whose bounds contradict. -/
def id : Contradiction → VarId
  | lower id _ _ => id
  | upper id _ _ => id
  | intersection id _ _ => id

def message : Contradiction → String
  | lower id new old =>
    "(E001) " ++ new.name ++ " cannot be an upper bound of " ++ id ++ ", the lower bound " ++
      old.name ++ " is not a subtype of it"
  | upper id new old =>
    "(E002) " ++ new.name ++ " cannot be a lower bound of " ++ id ++
      ", it is not a subtype of the upper bound " ++ old.name
  | intersection id new conflicting =>
    "(E003) " ++ new.name ++ " cannot be used in an intersection with " ++ conflicting.name ++
      " as upper bound of " ++ id

end Contradiction

/-- Why an operation on a graph failed. -/
inductive Fault where
  | misuse (m : Misuse)
  | contradiction (c : Contradiction)
  /-- making `ref` a subtype of `id` led to a contradiction -/
  | ref (id ref : VarId) (cause : Contradiction)

namespace Fault

def message : Fault → String
  | misuse m => m.message
  | contradiction c => c.message
  | ref id r cause =>
    "(E004) " ++ r ++ " cannot be a lower ref bound of " ++ id ++ ": " ++ cause.message

end Fault

end TypeBounds
