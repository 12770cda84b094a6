/-!
# Stacks

Last in, first out: the order in which a worklist is worked off.
-/

namespace TypeBounds

/-- A stack, the topmost item first. -/
structure Stack (α : Type) where
  items : List α := []

namespace Stack

variable {α : Type}

/-- Puts an item on top. -/
def push (s : Stack α) (a : α) : Stack α := ⟨a :: s.items⟩

/-- Takes the topmost item off, if there is one. -/
def pop? (s : Stack α) : Option (α × Stack α) :=
  match s.items with
  | [] => none
  | a :: rest => some (a, ⟨rest⟩)

def size (s : Stack α) : Nat := s.items.length

end Stack

end TypeBounds
