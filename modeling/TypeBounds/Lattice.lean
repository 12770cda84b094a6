import TypeBounds.Ty.Traverse

/-!
# Subtyping and conversions

A `Lattice` is a list of conversions; the questions it answers also need a `Resolver`, which says
what an open convertible stands for at the moment. Layers:

* `subtypeStep`: the rules, with the relation on smaller questions as a parameter;
* `subtypeWithin`: the rules unrolled to a given depth. Resolving a convertible can lead to a larger
  type, so the recursion is not on the types themselves;
* `isSubtype`: unrolled as deep as there are pairs of types that a question can come by. A run that
  ends never comes by the same pair twice below itself, so this is deep enough.
-/

namespace TypeBounds

/-- Values of `source` can be converted into values of `target`. The provider names whatever does
it: a cast, a method. -/
structure Conversion where
  source : Ty
  target : Ty
  implicit : Bool
  provider : String

instance : Inhabited Conversion := ⟨⟨.mixed, .mixed, false, ""⟩⟩

/-- How a conversion is written. -/
def Conversion.label (c : Conversion) : String :=
  (if c.implicit then "implicit " else "explicit ") ++ c.source.name ++ " -> " ++ c.target.name ++
    " via " ++ c.provider

/-- What open convertibles stand for: `resolve owner var`, or `none` while that is undetermined.
`extent` bounds the total size of the answers. -/
structure Resolver where
  resolve : Nat → String → Option Ty
  extent : Nat

namespace Resolver

/-- No open convertible stands for anything. -/
def none : Resolver := ⟨fun _ _ => .none, 0⟩

/-- Resolves by the variable alone, whoever owns the convertible. -/
def ofList (types : List (String × Ty)) : Resolver :=
  ⟨fun _ var => types.lookup var, Ty.sizeAll types⟩

/-- What a convertible stands for: a fixed one for its target. Other types stand for nothing. -/
def target? (r : Resolver) : Ty → Option Ty
  | .asVar _ owner var => r.resolve owner var
  | .asType t => some t
  | _ => .none

end Resolver

/-- A table of conversions, in the order in which they became known. -/
structure Lattice where
  conversions : List Conversion := []

namespace Lattice

instance : Inhabited Lattice := ⟨{}⟩

/-- The table which also knows `c`. -/
def add (l : Lattice) (c : Conversion) : Lattice := ⟨l.conversions ++ [c]⟩

/-- The conversions from sources of a given name, in the order in which they became known. -/
def named (l : Lattice) (name : String) : List Conversion :=
  l.conversions.filter fun c => c.source.name = name

/-- The names of all sources, sorted. -/
def sources (l : Lattice) : List String :=
  sortNames (l.conversions.map fun c => c.source.name).eraseDups

/-- **The conversions that accept a type.** First those whose source has the very name of the type,
then the others by the name of their source. -/
def candidates (l : Lattice) (sub : Ty → Ty → Bool) (t : Ty) : List Conversion :=
  l.named t.name ++ (l.sources.filter (· ≠ t.name)).flatMap fun name =>
    (l.named name).filter fun c => sub t c.source

mutual

/-- **The implicit conversion from one type to another.** For a union every member must be a subtype
already or have a conversion of its own; the last one needed is the answer. -/
def bridge? (l : Lattice) (sub : Ty → Ty → Bool) : Ty → Ty → Option Conversion
  | .union ms, b => bridgeMembers? l sub ms b none
  | a, b => (l.candidates sub a).find? fun c => c.implicit && sub c.target b

/-- Bridges the members in order, `last` being the last conversion needed so far. -/
def bridgeMembers? (l : Lattice) (sub : Ty → Ty → Bool) :
    Members → Ty → Option Conversion → Option Conversion
  | [], _, last => last
  | (_, a) :: ms, b, last =>
    if sub a b then bridgeMembers? l sub ms b last
    else match bridge? l sub a b with
      | none => none
      | some c => bridgeMembers? l sub ms b (some c)

end

/-- The explicit conversions that accept a type. -/
def explicits (l : Lattice) (sub : Ty → Ty → Bool) (t : Ty) : List Conversion :=
  (l.candidates sub t).filter fun c => !c.implicit

/-- Whether some conversion, implicit or explicit, leads from one type to another. -/
def isConvertible (l : Lattice) (sub : Ty → Ty → Bool) (a b : Ty) : Bool :=
  (l.bridge? sub a b).isSome || (l.explicits sub a).any fun c => sub c.target b

/-- **The rules of subtyping**, the first that fits decides. `sub` answers the smaller questions.

A convertible on the right accepts what is a subtype of, or convertible to, the type it stands for.
A convertible which stands for nothing yet is related to itself and to `mixed` only. -/
def subtypeStep (l : Lattice) (r : Resolver) (sub : Ty → Ty → Bool) (a b : Ty) : Bool :=
  if a.name = b.name then true
  else match a, b with
    | _, .mixed => true
    | .union ms, b => ms.all fun m => sub m.2 b
    | a, .inter ms => ms.all fun m => sub a m.2
    | .asVar _ owner var, b => (r.resolve owner var).any fun t => sub t b
    | .asType t, b => sub t b
    | a, .union ms => ms.any fun m => sub a m.2
    | a, .asVar _ owner var =>
      (r.resolve owner var).any fun t => sub a t || l.isConvertible sub a t
    | a, .asType t => sub a t || l.isConvertible sub a t
    | .inter ms, b => ms.any fun m => sub m.2 b
    | a, b => a.isNominalSubtype b

/-- The rules unrolled to a given depth; what lies deeper counts as unrelated. -/
def subtypeWithin (l : Lattice) (r : Resolver) : Nat → Ty → Ty → Bool
  | 0 => fun _ _ => false
  | depth + 1 => l.subtypeStep r (l.subtypeWithin r depth)

/-- The total size of the types that conversions mention. -/
def extent (l : Lattice) : Nat :=
  l.conversions.foldr (fun c n => c.source.size + c.target.size + n) 0

/-- The number of pairs that can be met on the way, from the parts of the two types, of what
convertibles stand for and of the conversions. -/
def depth (l : Lattice) (r : Resolver) (a b : Ty) : Nat :=
  Nat.pow (a.size + b.size + r.extent + l.extent) 2 + 1

/-- **Subtyping.** `a` is the same as or a subtype of `b`. -/
def isSubtype (l : Lattice) (r : Resolver) (a b : Ty) : Bool :=
  l.subtypeWithin r (l.depth r a b) a b

/-- Each is a subtype of the other. -/
def isSame (l : Lattice) (r : Resolver) (a b : Ty) : Bool :=
  l.isSubtype r a b && l.isSubtype r b a

/-- The implicit conversion that bridges two types, if there is one. -/
def implicit? (l : Lattice) (r : Resolver) (a b : Ty) : Option Conversion :=
  l.bridge? (l.isSubtype r) a b

/-- The explicit conversions applicable to a type. -/
def explicitFrom (l : Lattice) (r : Resolver) (t : Ty) : List Conversion :=
  l.explicits (l.isSubtype r) t

end Lattice

end TypeBounds
