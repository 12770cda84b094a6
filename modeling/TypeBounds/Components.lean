import TypeBounds.Reachable
import TypeBounds.Sorting

/-!
# Strongly connected components

Two nodes are in one component when each reaches the other. `stronglyConnected` numbers the nodes,
has the components of the graph on numbers found, and gives them back by name. The search on numbers
is a parameter: it is somebody else's, and all that is known of it is that it lists the components
so that what a component leads to comes before it. Components that are not related come in whatever
order the search likes.

`Digraph.components` is one such search, to run the program with. A component reaches strictly more
nodes than any other component it leads to, so it sorts them by how many they reach.
-/

namespace TypeBounds

/-- A directed graph whose nodes are numbers. -/
structure Digraph where
  /-- the nodes -/
  nodes : List Nat
  /-- the edges, each from its first to its second node -/
  edges : List (Nat × Nat)
deriving Repr

/-- A search for the strongly connected components of a graph on numbers. -/
abbrev ComponentSearch := Digraph → List (List Nat)

namespace Digraph

/-- The nodes that edges lead to from a node. -/
def next (d : Digraph) (n : Nat) : List Nat :=
  (d.edges.filter fun e => e.1 == n).map Prod.snd

/-- Numbers the nodes by the place where each is listed first. Edges to nodes that are not listed,
and edges from a node to itself, are left out. -/
def ofNodes (nodes : List String) (next : String → List String) : Digraph where
  nodes := nodes.eraseDups.map nodes.idxOf
  edges := nodes.flatMap fun n =>
    ((next n).filter fun m => nodes.contains m && m != n).map fun m =>
      (nodes.idxOf n, nodes.idxOf m)

/-- The components of a graph, sorted by how many nodes they reach. -/
def components : ComponentSearch := fun d =>
  let reach := d.nodes.map fun n => (n, reachable d.nodes d.next [n])
  let reached := fun n => (reach.lookup n).getD []
  let component := fun n => d.nodes.filter fun m => (reached n).contains m && (reached m).contains n
  let weight := fun (c : List Nat) => (c.head?.map fun n => (reached n).length).getD 0
  sortBy (fun c c' => decide (weight c ≤ weight c')) (d.nodes.map component).eraseDups

end Digraph

/-- **The strongly connected components** of the graph with the given nodes and successors, as the
search lists them. Inside a component nodes keep the order in which they are first listed.
Successors that are not listed do not count. -/
def stronglyConnected (search : ComponentSearch) (nodes : List String)
    (next : String → List String) : List (List String) :=
  (search (.ofNodes nodes next)).map fun component =>
    (sortBy (fun i j => decide (i ≤ j)) component).filterMap (nodes[·]?)

/-- Whether no edge leads from a component to a later one. -/
def successorsFirst (next : String → List String) : List (List String) → Bool
  | [] => true
  | c :: later =>
    (c.all fun n => (next n).all fun m => later.all fun d => !d.contains m) &&
      successorsFirst next later

end TypeBounds
