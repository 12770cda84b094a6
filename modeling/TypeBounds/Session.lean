import TypeBounds.Graph.Fork
import TypeBounds.Graph.Signature
import TypeBounds.Graph.Spread
import TypeBounds.Heap
import TypeBounds.TypeExpr.Denote

/-!
# Sessions

A session works on several graphs at once, under names, and on type symbols under handles. Graphs
are numbered by their tags, and a graph whose name went to another one is still there for the
functions that refer to it. What several hold is one thing, so a change is seen by all of them:

* symbols are shared, see `Heap`. Binding a convertible again changes it in everything that holds
  it, which includes the targets of fixed convertibles inside the bounds of graphs;
* who asks for the bound of a variable gets the container that the graph works on (`View`). Types
  that are added later turn up in it. A merge may put a new container in its place, and leaves the
  old one as it is (`Session.detach`);
* who takes the reference of a variable from a graph and gives it to another one ties the two
  variables together (`Session.share`): both graphs write through it. A variable that is fixed gets
  a reference of its own (`Session.untie`).
-/

namespace TypeBounds

/-- The description of a type symbol to be built. -/
inductive TypeSpec where
  | named (name : String)
  | expression (text : String)
  | union (members : List TypeSpec)
  | inter (members : List TypeSpec)
  | convertibleToVar (id : VarId)
  | convertibleTo (target : TypeSpec)
  | handle (name : String)
  | unbound

instance : Inhabited TypeSpec := ⟨.unbound⟩

/-- A symbol that is the bound on one side of a variable. -/
structure View where
  loc : Loc
  tag : Nat
  id : VarId
  side : Side

/-- A variable of one of several graphs: the tag of the graph and a name. -/
abbrev Holder := Nat × String

/-- Graphs under names and symbols under handles. The graph with tag `n` is the `n`-th one made. -/
structure Session where
  declared : Universe := {}
  lattice : Lattice := {}
  heap : Heap := {}
  graphs : List Graph := []
  names : Table Nat := {}
  handles : Table Loc := {}
  /-- the bounds that were handed out -/
  views : List View := []
  /-- the variables that hold one and the same reference, where there are several -/
  ties : List (List Holder) := []

namespace Session

/-- Why a type symbol could not be built. -/
inductive BuildError where
  | expression (e : TypeExpr.Error)
  | misuse (m : Misuse)

def BuildError.message : BuildError → String
  | expression e => e.message
  | misuse m => m.message

/-! ## Graphs -/

/-- The tag that the next graph gets. -/
def nextTag (s : Session) : Nat := s.graphs.length + 1

/-- The graph with a given tag. -/
def tagged? (s : Session) (tag : Nat) : Option Graph := s.graphs[tag - 1]?

/-- The graph under a name. -/
def graph? (s : Session) (name : String) : Option Graph := (s.names.get? name).bind s.tagged?

/-- Puts a new graph under a name. -/
def put (s : Session) (name : String) (g : Graph) : Session :=
  { s with graphs := s.graphs ++ [g], names := s.names.insert name g.tag }

/-- Makes an empty graph. -/
def newGraph (s : Session) (name : String) (policy : Policy) : Session :=
  s.put name { tag := s.nextTag, lattice := s.lattice, policy }

/-- Forks a graph. -/
def forkGraph (s : Session) (g : Graph) (name : String) : Session := s.put name (g.fork s.nextTag)

/-! ## What is shared -/

/-- What is seen in a bound that was handed out. -/
def bound (s : Session) (v : View) : Ty :=
  let b := ((s.tagged? v.tag).map fun g => g.boundsOf v.id).getD {}
  match v.side with
  | .lower => .union b.lower
  | .upper => .inter b.upper

/-- Shows the bounds that were handed out as they are now. -/
def refresh (s : Session) : Session :=
  { s with
    heap := ⟨s.views.foldl (fun cells v => cells.set v.loc (.constant (s.bound v))) s.heap.cells⟩ }

/-- The graphs no longer work on the containers that were handed out by the graph with the given
tag. -/
def detach (s : Session) (tag : Nat) : Session :=
  { s with views := s.views.filter fun v => v.tag ≠ tag }

/-- The reference that a variable of another graph has in common with the given graph, if there is
one. -/
def tied? (s : Session) (g : Graph) (holder : Holder) : Option Reference := do
  let (_, name) ← (s.ties.filter (·.contains holder)).flatten.find? fun h => h.1 = g.tag
  g.names.get? name

/-- What becomes of another graph when a graph has written to its references. -/
def followed (s : Session) (g other : Graph) : Graph :=
  { other with names := other.names.mapValues fun name r => (s.tied? g (other.tag, name)).getD r }

/-- **Replaces a graph** by what has become of it, for all who see it. -/
def keep (s : Session) (g : Graph) : Session :=
  refresh { s with graphs := (s.graphs.map (s.followed g)).set (g.tag - 1) g }

/-- A variable gets a reference of its own. -/
def untie (s : Session) (holder : Holder) : Session :=
  { s with ties := s.ties.map fun holders => holders.filter (· ≠ holder) }

/-- Gives the reference of a variable to another variable, of the same graph or of another one. -/
def share (s : Session) (g : Graph) (name : String) (g' : Graph) (name' : String) :
    Except Misuse Session := do
  let r ← g.reference name
  let g'' ← g'.addVariable name' (some r)
  let (mine, others) := s.ties.partition (·.contains (g.tag, name))
  pure (keep { s with ties := ((g'.tag, name') :: (g.tag, name) :: mine.flatten) :: others } g'')

/-- The function that was applied at a variable, with the graph it lives in. -/
def overload? (s : Session) (g : Graph) (name : String) : Option (FunctionType × Graph) := do
  let f ← g.overloads.get? name
  let g ← s.tagged? f.graph
  pure (f, g)

/-! ## Symbols -/

/-- Puts a type into the heap. An open convertible gets a cell of its own, the rest cannot
change. -/
def place (h : Heap) : Ty → Heap × Loc
  | .asVar _ owner var => h.alloc (.asVar owner var)
  | t => h.alloc (.constant t)

mutual

/-- **Building a symbol** for a graph. Members are built left to right, and the first failure is the
failure of the whole. -/
def build (s : Session) (g : Graph) (h : Heap) : TypeSpec → Except BuildError (Heap × Loc)
  | .named name => .ok (place h ((s.declared.find? name).getD .mixed))
  | .expression text =>
    match TypeExpr.read s.declared g text with
    | .ok t => .ok (place h t)
    | .error e => .error (.expression e)
  | .union specs => (buildAll s g h specs).map fun (h, locs) => h.newUnion locs
  | .inter specs => (buildAll s g h specs).map fun (h, locs) => h.newInter locs
  | .convertibleToVar id =>
    match g.bind .unbound [id] with
    | .ok t => .ok (place h t)
    | .error m => .error (.misuse m)
  | .convertibleTo spec => (build s g h spec).map fun (h, loc) => h.alloc (.asType loc)
  | .handle name => .ok (h, (s.handles.get? name).getD h.cells.length)
  | .unbound => .ok (h.alloc (.asVar 0 ""))

/-- Builds several symbols in order. -/
def buildAll (s : Session) (g : Graph) (h : Heap) :
    List TypeSpec → Except BuildError (Heap × List Loc)
  | [] => .ok (h, [])
  | spec :: specs => do
    let (h, loc) ← build s g h spec
    let (h, locs) ← buildAll s g h specs
    pure (h, loc :: locs)

end

/-- The type that a description stands for at the moment. What is built on the way has no handle, so
nobody can bind it again. -/
def type (s : Session) (g : Graph) (spec : TypeSpec) : Except BuildError Ty :=
  (s.build g s.heap spec).map fun (h, loc) => (h.read loc).release s.heap.cells.length

/-- Builds a symbol and puts it under a handle. Gives its name. -/
def letHandle (s : Session) (g : Graph) (name : String) (spec : TypeSpec) :
    Except BuildError (Session × String) :=
  (s.build g s.heap spec).map fun (h, loc) =>
    ({ s with heap := h, handles := s.handles.insert name loc }, h.name loc)

/-- Puts the bound on one side of a variable under a handle, unless there is none. -/
def letBound (s : Session) (g : Graph) (name : String) (id : VarId) (side : Side) : Session :=
  let v : View := { loc := s.heap.cells.length, tag := g.tag, id, side }
  let empty := match side with
    | .lower => (g.boundsOf id).lower.isEmpty
    | .upper => (g.boundsOf id).upper.isEmpty
  if empty then s
  else { s with
    heap := (s.heap.alloc (.constant (s.bound v))).1
    handles := s.handles.insert name v.loc
    views := v :: s.views }

/-- The type under a handle at the moment. -/
def handle? (s : Session) (name : String) : Option Ty := (s.handles.get? name).map s.heap.read

/-- **Binds the convertible under a handle** to a variable of a graph, in everything that holds
it. -/
def bindHandle (s : Session) (g : Graph) (name : String) (vars : List VarId) :
    Except Misuse Session :=
  match s.handles.get? name with
  | none => .ok s
  | some loc =>
    match g.bind (s.heap.read loc) vars with
    | .error m => .error m
    | .ok (.asVar _ owner var) =>
      .ok (refresh { s with
        heap := ⟨s.heap.cells.set loc (.asVar owner var)⟩
        graphs := s.graphs.map fun g => g.rebindCell loc owner var })
    | .ok _ => .ok s

end Session

end TypeBounds
