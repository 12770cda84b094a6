import TypeBounds.Lattice
import TypeBounds.Table
import TypeBounds.Text.Natural
import TypeBounds.Text.Quoted

/-!
# The graph of bounds

A graph belongs to one function body. Variable names denote type variables through references; every
type variable has a record with its lower and upper bound and its neighbours along the subtype
edges. A graph is a plain value: operations give a new graph.

* `Bounds`: the record of a type variable, and the type it resolves to;
* `Graph`: names, records and the counter for fresh ids;
* questions: ownership of convertibles, states, neighbours;
* the operations which touch no bound: adding a name, minting an id, binding a convertible.
-/

namespace TypeBounds

/-- The id of a type variable. -/
abbrev VarId := String

/-- The two flavours of generalisation. Both copy a resolved lower bound onto an empty upper bound
when a variable is fixed by name; `overload` also does so when generalisation freezes one. -/
inductive Policy where
  | plain
  | overload
  deriving DecidableEq, Inhabited

namespace Policy

def label : Policy → String
  | plain => "plain"
  | overload => "overload"

/-- The policy with a given number; every number but one means `plain`. -/
def ofCode (n : Int) : Policy := if n = 1 then overload else plain

def code : Policy → Nat
  | plain => 0
  | overload => 1

/-- The policy of a given name. No name at all means `plain`. -/
def ofName? : String → Option Policy
  | "" => some plain
  | "plain" => some plain
  | "overload" => some overload
  | _ => none

/-- What is said of a name that is no policy. -/
def unknownMessage (name : String) : String :=
  "unknown policy " ++ Text.quote name ++ ", expected plain or overload"

end Policy

/-- The state of a type variable. `fixed` is terminal. -/
inductive Status where
  | unconstrained
  | bounded
  | fixed
  deriving DecidableEq, Inhabited

namespace Status

def label : Status → String
  | unconstrained => "unconstrained"
  | bounded => "bounded"
  | fixed => "fixed"

/-- How the state with a given number is written. -/
def labelOfCode : Int → String
  | 0 => unconstrained.label
  | 1 => bounded.label
  | 2 => fixed.label
  | n => "State(" ++ toString n ++ ")"

end Status

/-- What a name denotes. A mutable reference is redirected when its type variable is merged into
another, a fixed one denotes the same type variable for ever. -/
structure Reference where
  id : VarId
  fixed : Bool := false
  deriving DecidableEq, Inhabited

def Reference.label (r : Reference) : String := if r.fixed then r.id ++ "!" else r.id

/-! ## The record of a type variable -/

/-- The bounds of a type variable: the members of the lower bound (a union) and of the upper bound
(an intersection), the variables known to be below and above it, and whether it was fixed. An empty
bound says nothing. -/
structure Bounds where
  lower : Members := []
  upper : Members := []
  below : List VarId := []
  above : List VarId := []
  frozen : Bool := false

instance : Inhabited Bounds := ⟨{}⟩

/-- Where the type that a record resolves to is found. -/
inductive Resolution where
  | lowerBound
  | upperBound
  | exactly (t : Ty)

namespace Bounds

/-- A record resolves to its lower bound, else to its upper bound, else to `mixed`; a bound with one
member to that member. -/
def resolution (b : Bounds) : Resolution :=
  match b.lower, b.upper with
  | [], [] => .exactly .mixed
  | [], [(_, t)] => .exactly t
  | [], _ => .upperBound
  | [(_, t)], _ => .exactly t
  | _, _ => .lowerBound

end Bounds

/-- The resolved type as the bounds are now. -/
def Resolution.type (b : Bounds) : Resolution → Ty
  | lowerBound => .union b.lower
  | upperBound => .inter b.upper
  | exactly t => t

namespace Bounds

/-- The one type that a record stands for once its variable is fixed. -/
def resolved (b : Bounds) : Ty := b.resolution.type b

/-- What a convertible to the variable stands for: its lower bound, else its upper bound, in both
cases without the members that are convertibles themselves. -/
def standsFor? (b : Bounds) : Option Ty :=
  let settled := fun (ms : Members) =>
    Members.ofTypes ((Members.types ms).filter (!·.isConvertible))
  match settled b.lower, settled b.upper with
  | [], [] => none
  | [], us => some (Members.collapse .inter us)
  | ls, _ => some (Members.collapse .union ls)

/-- How the lower bound is written, empty if there is none. -/
def lowerName (b : Bounds) : String := if b.lower.isEmpty then "" else (Ty.union b.lower).name

/-- How the upper bound is written, empty if there is none. -/
def upperName (b : Bounds) : String := if b.upper.isEmpty then "" else (Ty.inter b.upper).name

/-- The total size of both bounds. -/
def size (b : Bounds) : Nat := (Ty.union b.lower).size + (Ty.inter b.upper).size

end Bounds

/-- A generalised function: the tag of the graph it was inferred in and the variable names of its
parameters and its result. -/
structure FunctionType where
  name : String
  graph : Nat
  parameters : List String
  result : String
  deriving DecidableEq, Inhabited

/-- The bounds of one function body. `tag` tells graphs apart and is never `0`; `minted` counts the
fresh ids given out so far. -/
structure Graph where
  tag : Nat
  lattice : Lattice := {}
  policy : Policy := .plain
  minted : Nat := 0
  names : Table Reference := {}
  bounds : Table Bounds := {}
  overloads : Table FunctionType := {}

instance : Inhabited Graph := ⟨{ tag := 1 }⟩

/-- A call that the graph cannot make sense of, such as one with a name it does not know. -/
inductive Misuse where
  | noReference (name : String)
  | alreadyAdded (name : String)
  | unknownVariable (name : String)
  | unknownTypeVariable (id : VarId)
  | notOwned (t : Ty)
  | noLowerReference (id : VarId)
  | unbindable (e : Ty.BindError)

namespace Misuse

/-- What was wrong with the call. -/
def reason : Misuse → String
  | noReference name => "nil type variable reference for " ++ name
  | alreadyAdded name => "variable " ++ name ++ " was already added"
  | unknownVariable name => "unknown variable " ++ name
  | unknownTypeVariable id => "unknown type variable " ++ id
  | notOwned t => t.name ++ " is not bound to this graph"
  | noLowerReference id => "nil lower ref bound for " ++ id
  | unbindable e => e.message

def message (m : Misuse) : String := m.reason ++ ": illegal argument"

end Misuse

namespace Graph

/-! ## Questions -/

/-- The registered type variables, in order of registration. -/
def ids (g : Graph) : List VarId := g.bounds.keys

/-- The registered type variables in natural order. -/
def typeVariables (g : Graph) : List VarId := Natural.sort g.ids

def hasTypeVariable (g : Graph) (id : VarId) : Bool := g.bounds.contains id

/-- The record of a type variable; an empty one if it is not registered. -/
def boundsOf (g : Graph) (id : VarId) : Bounds := (g.bounds.get? id).getD {}

/-- Changes the record of a type variable. -/
def update (g : Graph) (id : VarId) (f : Bounds → Bounds) : Graph :=
  { g with bounds := g.bounds.modify id f }

/-- The variables known to be below `id`, in natural order. -/
def below (g : Graph) (id : VarId) : List VarId := Natural.sort (g.boundsOf id).below

/-- The variables known to be above `id`, in natural order. -/
def above (g : Graph) (id : VarId) : List VarId := Natural.sort (g.boundsOf id).above

/-- Whether an open convertible with the given owner is bound to a variable of this graph. -/
def owns (g : Graph) (owner : Nat) : Bool := owner ≠ 0 && owner = g.tag

/-- What the open convertibles of a graph stand for. -/
def resolver (g : Graph) : Resolver where
  resolve owner var := if g.owns owner then (g.bounds.get? var).bind Bounds.standsFor? else none
  extent := g.bounds.entries.foldr (fun e n => e.2.size + n) 0

/-- Subtyping as the graph sees it at the moment. -/
def isSubtype (g : Graph) (a b : Ty) : Bool := g.lattice.isSubtype g.resolver a b

/-- The implicit conversion between two types as the graph sees it at the moment. -/
def implicit? (g : Graph) (a b : Ty) : Option Conversion := g.lattice.implicit? g.resolver a b

/-- A type variable is frozen once it was fixed, directly or through a fixed reference to it. -/
def isFrozen (g : Graph) (id : VarId) : Bool :=
  (g.boundsOf id).frozen || g.names.entries.any fun e => e.2.id = id && e.2.fixed

/-- The state of a registered type variable. -/
def status (g : Graph) (id : VarId) : Status :=
  let b := g.boundsOf id
  if g.isFrozen id then .fixed
  else if b.lower.isEmpty && b.upper.isEmpty && b.below.isEmpty && b.above.isEmpty then
    .unconstrained
  else .bounded

/-- Fails unless the type variable is registered. -/
def require (g : Graph) (id : VarId) : Except Misuse Bounds :=
  match g.bounds.get? id with
  | some b => .ok b
  | none => .error (.unknownTypeVariable id)

/-- The reference of a name. -/
def reference (g : Graph) (name : String) : Except Misuse Reference :=
  match g.names.get? name with
  | some r => .ok r
  | none => .error (.unknownVariable name)

/-- The type that a type variable resolves to. -/
def resolvedType (g : Graph) (id : VarId) : Except Misuse Ty :=
  (g.require id).map Bounds.resolved

/-- Whether a type is a convertible to the given variable of this graph. -/
def isSelf (g : Graph) (id : VarId) : Ty → Bool
  | .asVar _ owner var => g.owns owner && var = id
  | _ => false

/-- Whether a type is a convertible that stands for nothing yet. It constrains nothing until it
does. -/
def isUnresolved (g : Graph) (t : Ty) : Bool := t.isConvertible && (g.resolver.target? t).isNone

/-- Whether some convertible among the members, at any depth, is bound to the given variable of this
graph. -/
def pointsAt (g : Graph) (ms : Members) (id : VarId) : Bool := (Ty.subtermsAll ms).any (g.isSelf id)

/-- Rejects types with convertibles which are unbound, or bound to another graph or to a variable
that is not registered. -/
def requireOwned (g : Graph) (t : Ty) : Except Misuse Unit :=
  t.convertibles.forM fun
    | .asVar cell owner var =>
      if g.owns owner then (g.require var).map fun _ => ()
      else .error (.notOwned (.asVar cell owner var))
    | _ => .ok ()

/-! ## Names and fresh ids -/

/-- Binds a name to a reference and registers what it denotes. A name can be added once. -/
def addVariable (g : Graph) (name : String) : Option Reference → Except Misuse Graph
  | none => .error (.noReference name)
  | some r =>
    if g.names.contains name then .error (.alreadyAdded name)
    else .ok { g with
      names := g.names.insert name r
      bounds := if g.bounds.contains r.id then g.bounds else g.bounds.insert r.id {} }

/-- Mints a mutable reference to an id with the next number. -/
def mint (g : Graph) : Graph × Reference :=
  ({ g with minted := g.minted + 1 }, { id := "V" ++ toString (g.minted + 1) })

/-- Binds a convertible in place to the type variable it shall point at. -/
def bindTo (g : Graph) (vars : List VarId) : EStateM Misuse Ty Unit := do
  match vars.forM fun id => (g.require id).map fun _ => () with
  | .error m => throw m
  | .ok () => (Ty.bindTo g.tag vars).adaptExcept .unbindable

/-- What becomes of a convertible that is bound. -/
def bind (g : Graph) (t : Ty) (vars : List VarId) : Except Misuse Ty :=
  match g.bindTo vars t with
  | .ok _ t => .ok t
  | .error m _ => .error m

/-- Binds the convertible that lives in a cell in everything the graph holds. -/
def rebindCell (g : Graph) (cell owner : Nat) (var : VarId) : Graph :=
  { g with bounds := g.bounds.mapValues fun _ b =>
      { b with
        lower := Ty.rebindMembers cell owner var b.lower
        upper := Ty.rebindMembers cell owner var b.upper } }

/-- Notes which function was applied at a variable. -/
def setOverload (g : Graph) (name : String) (f : FunctionType) : Except Misuse Graph :=
  if g.names.contains name then .ok { g with overloads := g.overloads.insert name f }
  else .error (.unknownVariable name)

end Graph

end TypeBounds
