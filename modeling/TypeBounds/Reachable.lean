/-!
# Searching a finite graph

`reachable nodes next starts` lists the nodes that can be come by from the starts along `next`,
without leaving `nodes`. A node is taken out of the list of nodes when it is visited; the length of
that list is what the recursion counts down, and once it is empty there is nothing left to visit.
-/

namespace TypeBounds

variable {α : Type} [BEq α]

/-- Visits the topmost node of the stack that is still unvisited and stacks its neighbours.
`count` is the number of unvisited nodes. -/
def explore (next : α → List α) : Nat → List α → List α → List α
  | 0, _, _ => []
  | count + 1, unvisited, stack =>
    match stack.dropWhile fun n => !unvisited.contains n with
    | [] => []
    | n :: rest => n :: explore next count (unvisited.erase n) (next n ++ rest)

/-- The nodes that are reachable from the starts, each once, in the order of the search. -/
def reachable (nodes : List α) (next : α → List α) (starts : List α) : List α :=
  explore next nodes.length nodes starts

/-- The same search with an effect at every visit; the visit says where to go on. The neighbours
are stacked in order, so the last one is visited first. -/
def exploreM {m : Type → Type} [Monad m] (visit : String → m (List String)) :
    Nat → List String → List String → m Unit
  | 0, _, _ => pure ()
  | count + 1, unvisited, stack =>
    match stack.dropWhile fun n => !unvisited.contains n with
    | [] => pure ()
    | n :: rest => do
      let found ← visit n
      exploreM visit count (unvisited.erase n) (found.reverse ++ rest)

end TypeBounds
