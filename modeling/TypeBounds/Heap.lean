import TypeBounds.Ty.Traverse

/-!
# Shared symbols

Symbols that are handed around can be changed later: members are added to and removed from
containers, convertibles are bound and renamed. Whoever holds the same symbol sees the change. A
`Heap` gives every symbol a location; containers, parents and targets refer to locations.
`Heap.read` gives the type that a location stands for at the moment, and every question about a
symbol is a question about that type. The heap only grows, and locations are never reused.
-/

namespace TypeBounds

/-- Where a symbol lives. -/
abbrev Loc := Nat

/-- What lives at a location. Containers keep each member under the name it had when it was
added. -/
inductive Cell where
  /-- a type in which nothing can change -/
  | constant (t : Ty)
  | nominal (name : String) (kind : Kind) (final : Bool) (parents : List Loc)
  | union (members : List (String × Loc))
  | inter (members : List (String × Loc))
  | asVar (owner : Nat) (var : String)
  | asType (target : Loc)

/-- The symbols by location. -/
structure Heap where
  cells : List Cell := []

namespace Heap

/-- The type at a location, down to a given depth. -/
def readWithin (h : Heap) : Nat → Loc → Ty
  | 0, _ => .mixed
  | depth + 1, loc =>
    match h.cells[loc]? with
    | none => .mixed
    | some (.constant t) => t
    | some (.nominal name kind final parents) =>
      .nominal name kind final (parents.map (h.readWithin depth))
    | some (.union ms) => .union (ms.map fun m => (m.1, h.readWithin depth m.2))
    | some (.inter ms) => .inter (ms.map fun m => (m.1, h.readWithin depth m.2))
    | some (.asVar owner var) => .asVar (some loc) owner var
    | some (.asType target) => .asType (h.readWithin depth target)

/-- **The type at a location.** No chain of locations is longer than the heap, unless a symbol
contains itself. -/
def read (h : Heap) (loc : Loc) : Ty := h.readWithin (h.cells.length + 2) loc

/-- The present name of the symbol at a location. -/
def name (h : Heap) (loc : Loc) : String := (h.read loc).name

/-- **Allocation.** Puts a symbol at a new location. -/
def alloc (h : Heap) (cell : Cell) : Heap × Loc := (⟨h.cells ++ [cell]⟩, h.cells.length)

/-- Adds a member under its present name, unless that key is taken. -/
def addMember (h : Heap) (ms : List (String × Loc)) (loc : Loc) : List (String × Loc) :=
  let key := h.name loc
  if ms.any fun m => m.1 = key then ms else ms ++ [(key, loc)]

/-- A new union of the given symbols. -/
def newUnion (h : Heap) (members : List Loc) : Heap × Loc :=
  h.alloc (.union (members.foldl h.addMember []))

/-- A new intersection of the given symbols. -/
def newInter (h : Heap) (members : List Loc) : Heap × Loc :=
  h.alloc (.inter (members.foldl h.addMember []))

/-- Changes the members of the container at a location. Says whether there are now more or fewer
of them. -/
def changeMembers (h : Heap) (loc : Loc) (f : List (String × Loc) → List (String × Loc)) :
    Heap × Bool :=
  match h.cells[loc]? with
  | some (.union ms) => (⟨h.cells.set loc (.union (f ms))⟩, (f ms).length ≠ ms.length)
  | some (.inter ms) => (⟨h.cells.set loc (.inter (f ms))⟩, (f ms).length ≠ ms.length)
  | _ => (h, false)

/-- Adds a member to a container; `false` if its name was taken. -/
def add (h : Heap) (container member : Loc) : Heap × Bool :=
  h.changeMembers container fun ms => h.addMember ms member

/-- Takes the member with the given key out of a container; `false` if there is none. -/
def remove (h : Heap) (container : Loc) (key : String) : Heap × Bool :=
  h.changeMembers container fun ms => ms.filter fun m => m.1 ≠ key

/-- Binds the convertible at a location. -/
def bind (h : Heap) (loc : Loc) (owner : Nat) (vars : List String) : Except Ty.BindError Heap :=
  match (h.read loc).bind owner vars with
  | .error e => .error e
  | .ok (.asVar _ owner var) => .ok ⟨h.cells.set loc (.asVar owner var)⟩
  | .ok _ => .ok h

/-- Redirects the open convertible at a location if it points at `old`. -/
def rename (h : Heap) (loc : Loc) (old new : String) : Heap × Bool :=
  match h.cells[loc]? with
  | some (.asVar owner var) =>
    if var = old then (⟨h.cells.set loc (.asVar owner new)⟩, true) else (h, false)
  | _ => (h, false)

/-- Another convertible with the binding or the target of the one at a location. The target itself
is shared. -/
def copy (h : Heap) (loc : Loc) : Heap × Loc :=
  match h.cells[loc]? with
  | some cell => h.alloc cell
  | none => (h, loc)

/-- Rebuilds the symbol at a location, down to a given depth, with every convertible replaced by a
copy on which `rename` was tried. Containers are new, everything else is shared. -/
def renamedWithin (old new : String) : Nat → Heap → Loc → Heap × Loc
  | 0, h, loc => (h, loc)
  | depth + 1, h, loc =>
    let members := fun (ms : List (String × Loc)) =>
      ms.foldl (fun (h, found) m =>
        let (h, loc) := renamedWithin old new depth h m.2
        (h, found ++ [loc])) (h, [])
    match h.cells[loc]? with
    | some (.union ms) => let (h, locs) := members ms; h.newUnion locs
    | some (.inter ms) => let (h, locs) := members ms; h.newInter locs
    | some (.asVar ..) => let (h, loc) := h.copy loc; ((h.rename loc old new).1, loc)
    | some (.asType _) => h.copy loc
    | _ => (h, loc)

/-- The symbol at a location with its convertibles renamed. -/
def renamed (h : Heap) (loc : Loc) (old new : String) : Heap × Loc :=
  renamedWithin old new (h.cells.length + 1) h loc

end Heap

end TypeBounds
