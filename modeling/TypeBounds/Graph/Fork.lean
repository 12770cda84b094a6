import TypeBounds.Graph.Basic

/-!
# Forking a graph

A fork is an independent graph under a new tag. The convertibles in its bounds are its own and bound
to it, so that what is done to one of the two does not change the other.
-/

namespace TypeBounds.Graph

/-- A convertible of this graph as one of the graph with another tag. The target of a fixed
convertible is taken over as it is. -/
def handOver (g : Graph) (tag : Nat) : Ty → Ty
  | .asVar _ owner var => .asVar none (if g.owns owner then tag else owner) var
  | t => t

/-- **The fork** of a graph under a new tag. The counter for fresh ids goes on from the same
point. -/
def fork (g : Graph) (tag : Nat) : Graph :=
  { g with
    tag := tag
    bounds := g.bounds.mapValues fun _ b =>
      { b with
        lower := Members.ofTypes (Ty.mapEach (g.handOver tag) b.lower)
        upper := Members.ofTypes (Ty.mapEach (g.handOver tag) b.upper) } }

end TypeBounds.Graph
