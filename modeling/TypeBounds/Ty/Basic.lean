import TypeBounds.Sorting

/-!
# Type symbols

The types that bounds are made of, in three layers:

* `Ty`: nominal types with their declared parents, `mixed` on top, unions, intersections and
  convertibles;
* names: a type is identified by its name (`Ty.name`), and containers keep each member under the
  **key** it had when it was added. The key of a convertible can be out of date, since a convertible
  may be bound to another variable later, so the key is stored and not computed;
* the nominal part of subtyping (`Ty.isNominalSubtype`), which looks at declared parents only. The
  full relation, with resolved convertibles, is in `Lattice`.
-/

namespace TypeBounds

/-- The kind of a nominal type. Declarations know the first three only; a symbol may be given any
number as its kind. -/
inductive Kind where
  | primitive
  | concrete
  | interface
  | other (code : Int)
  deriving DecidableEq, Inhabited

namespace Kind

/-- The kind with a given number. -/
def ofCode : Int → Kind
  | 0 => primitive
  | 1 => concrete
  | 2 => interface
  | n => other n

/-- How a kind is written. -/
def label : Kind → String
  | primitive => "primitive"
  | concrete => "class"
  | interface => "interface"
  | other n => "Kind(" ++ toString n ++ ")"

end Kind

/-- A type symbol.

A convertible stands for anything convertible to its target. An **open** one (`asVar`) points at a
type variable `var` of the graph tagged `owner`; owner `0` and the empty variable mean that it is
not bound yet. `cell` tells where it lives as long as it can be bound again from outside, see
`Heap`. A **fixed** one (`asType`) has a type as its target. -/
inductive Ty where
  | mixed
  | nominal (name : String) (kind : Kind) (final : Bool) (parents : List Ty)
  | union (members : List (String × Ty))
  | inter (members : List (String × Ty))
  | asVar (cell : Option Nat) (owner : Nat) (var : String)
  | asType (target : Ty)

instance : Inhabited Ty := ⟨.mixed⟩

/-- The members of a union or an intersection in order of entry, each under its key. -/
abbrev Members := List (String × Ty)

/-! ## Names -/

/-- The name of a container with the given keys: that of its only member, or all of them sorted and
in parentheses. -/
def joinNames (separator empty : String) : List String → String
  | [] => empty
  | [key] => key
  | keys => "(" ++ separator.intercalate (sortNames keys) ++ ")"

/-- The name that identifies a type. -/
def Ty.name : Ty → String
  | mixed => "mixed"
  | nominal name _ _ _ => name
  | union ms => joinNames " | " "nothing" (ms.map Prod.fst)
  | inter ms => joinNames " & " "mixed" (ms.map Prod.fst)
  | asVar _ _ var => "\x7bas " ++ (if var = "" then "?" else var) ++ "\x7d"
  | asType target => "\x7bas " ++ target.name ++ "\x7d"

namespace Members

/-- The members' types, in order of entry. -/
def types (ms : Members) : List Ty := ms.map Prod.snd

/-- The members' keys, in order of entry. -/
def keys (ms : Members) : List String := ms.map Prod.fst

/-- Whether a key is taken. -/
def holds (ms : Members) (key : String) : Bool := ms.any fun m => m.1 = key

/-- Adds a type under its present name, unless that key is taken. -/
def add (ms : Members) (t : Ty) : Members :=
  if holds ms t.name then ms else ms ++ [(t.name, t)]

/-- Takes the member with the given key out. -/
def erase (ms : Members) (key : String) : Members := ms.filter fun m => m.1 ≠ key

/-- The members of a container built by adding the given types in order. -/
def ofTypes (ts : List Ty) : Members := ts.foldl add []

/-- The sole member of a container, or else the container itself. -/
def collapse (container : Members → Ty) : Members → Ty
  | [(_, t)] => t
  | ms => container ms

end Members

namespace Ty

/-- The union of the given types, added in order. -/
def unionOf (ts : List Ty) : Ty := .union (Members.ofTypes ts)

/-- The intersection of the given types, added in order. -/
def interOf (ts : List Ty) : Ty := .inter (Members.ofTypes ts)

/-- A convertible that is not bound to anything yet. -/
def unbound : Ty := .asVar none 0 ""

/-! ## Shape -/

def isMixed : Ty → Bool
  | mixed => true
  | _ => false

def isConvertible : Ty → Bool
  | asVar .. => true
  | asType _ => true
  | _ => false

/-- The declared parents of a nominal type. -/
def parents : Ty → List Ty
  | nominal _ _ _ ps => ps
  | _ => []

/-- The direct members of a container. -/
def members : Ty → Members
  | union ms => ms
  | inter ms => ms
  | _ => []

mutual

/-- The number of unions, intersections, convertibles and leaves. Parents do not count: no question
about a type descends into them except the ancestor search. -/
def size : Ty → Nat
  | union ms => 1 + sizeAll ms
  | inter ms => 1 + sizeAll ms
  | asType t => 1 + size t
  | _ => 1

/-- The sum of the members' sizes. -/
def sizeAll : Members → Nat
  | [] => 0
  | (_, t) :: ms => size t + sizeAll ms

end

mutual

/-- Whether nothing can be below the type but itself. -/
def isFinal : Ty → Bool
  | nominal _ _ final _ => final
  | inter ms => anyFinal ms
  | _ => false

/-- Whether some member is final. -/
def anyFinal : Members → Bool
  | [] => false
  | (_, t) :: ms => isFinal t || anyFinal ms

end

mutual

/-- Whether an intersection may hold the type beside anything else. Of the types for which this is
false, classes and primitives, an intersection holds at most one. -/
def isCombinable : Ty → Bool
  | nominal _ kind _ _ => kind = .interface
  | inter ms => allCombinable ms
  | _ => true

/-- Whether every member is combinable. -/
def allCombinable : Members → Bool
  | [] => true
  | (_, t) :: ms => isCombinable t && allCombinable ms

end

/-! ## Ancestors -/

mutual

/-- The number of paths upwards from a type, itself included. -/
def lineage : Ty → Nat
  | nominal _ _ _ ps => 1 + lineageAll ps
  | _ => 1

/-- The sum of the lineages. -/
def lineageAll : List Ty → Nat
  | [] => 0
  | t :: ts => lineage t + lineageAll ts

end

/-- Looks for a name among the types in the queue and what is above them, nearest first. A name
that was met before is not followed again. Each step takes one path out of the queue, so as many
steps as there are paths are enough. -/
def searchUpwards (name : String) : Nat → List String → List Ty → Bool
  | 0, _, _ => false
  | _, _, [] => false
  | steps + 1, seen, t :: queue =>
    if t.name = name then true
    else if seen.contains t.name then searchUpwards name steps seen queue
    else searchUpwards name steps (t.name :: seen) (queue ++ t.parents)

/-- Whether a type of that name is the type itself or declared above it. -/
def hasAncestor (t : Ty) (name : String) : Bool :=
  searchUpwards name t.lineage [] [t]

mutual

/-- **Nominal subtyping.** Decided by declared parents alone; convertibles are related to `mixed`
and to what has the same name. -/
def isNominalSubtype : Ty → Ty → Bool
  | mixed, b => b.isMixed
  | nominal name kind final parents, b =>
    match b with
    | mixed => true
    | nominal name' _ _ _ => hasAncestor (.nominal name kind final parents) name'
    | _ => false
  | union ms, b => allNominal ms b
  | inter ms, b => anyNominal ms b
  | asVar cell owner var, b => b.isMixed || (Ty.asVar cell owner var).name = b.name
  | asType t, b => b.isMixed || (Ty.asType t).name = b.name

/-- Whether all members are nominal subtypes of a type. -/
def allNominal : Members → Ty → Bool
  | [], _ => true
  | (_, t) :: ms, b => isNominalSubtype t b && allNominal ms b

/-- Whether some member is a nominal subtype of a type. -/
def anyNominal : Members → Ty → Bool
  | [], _ => false
  | (_, t) :: ms, b => isNominalSubtype t b || anyNominal ms b

end

end Ty

end TypeBounds
