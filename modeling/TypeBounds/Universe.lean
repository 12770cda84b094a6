import TypeBounds.Lattice
import TypeBounds.Table
import TypeBounds.Text.Quoted

/-!
# Declared types and conversions

A universe holds the named types of a problem; `mixed` is always among them. Parents have to be
declared before their children, so a universe has no cycles. Conversions are declared between named
types.
-/

namespace TypeBounds

/-- The declaration of a type. No kind means a primitive. -/
structure TypeDecl where
  name : String := ""
  kind : String := ""
  final : Bool := false
  parents : List String := []
  deriving DecidableEq, Inhabited

/-- The declaration of a conversion. -/
structure ConversionDecl where
  source : String := ""
  target : String := ""
  implicit : Bool := false
  provider : String := ""
  deriving DecidableEq, Inhabited

/-- The named types of a problem. -/
structure Universe where
  types : Table Ty := ⟨[("mixed", .mixed)]⟩

namespace Universe

instance : Inhabited Universe := ⟨{}⟩

/-- Why declarations were refused. -/
inductive Error where
  | unnamed
  | declaredTwice (name : String)
  | unknownKind (name kind : String)
  | undeclaredParent (parent name : String)
  | unknownSource (name : String)
  | unknownTarget (name : String)
  deriving DecidableEq

def Error.message : Error → String
  | unnamed => "type declaration without a name"
  | declaredTwice name => "type " ++ name ++ " is declared twice"
  | unknownKind name kind => "type " ++ name ++ ": unknown kind " ++ Text.quote kind
  | undeclaredParent parent name =>
    "parent " ++ parent ++ " of " ++ name ++ " must be declared before it"
  | unknownSource name => "conversion from unknown type " ++ name
  | unknownTarget name => "conversion to unknown type " ++ name

/-- The kind that a declaration names. -/
def kindNamed? : String → Option Kind
  | "" => some .primitive
  | "primitive" => some .primitive
  | "class" => some .concrete
  | "interface" => some .interface
  | _ => none

/-- The type of a given name. -/
def find? (u : Universe) (name : String) : Option Ty := u.types.get? name

/-- The universe with one more type. -/
def declare (u : Universe) (d : TypeDecl) : Except Error Universe := do
  if d.name = "" then throw .unnamed
  if u.types.contains d.name then throw (.declaredTwice d.name)
  let kind ← match kindNamed? d.kind with
    | some kind => pure kind
    | none => throw (.unknownKind d.name d.kind)
  let parents ← d.parents.mapM fun p => match u.find? p with
    | some t => pure t
    | none => throw (.undeclaredParent p d.name)
  pure ⟨u.types.insert d.name (.nominal d.name kind d.final parents)⟩

/-- **The universe** with the given types, declared in order. -/
def ofDecls (decls : List TypeDecl) : Except Error Universe := decls.foldlM declare {}

/-- The conversion that a declaration stands for. Without a provider it is named for its two
ends. -/
def conversion (u : Universe) (d : ConversionDecl) : Except Error Conversion :=
  match u.find? d.source, u.find? d.target with
  | none, _ => .error (.unknownSource d.source)
  | _, none => .error (.unknownTarget d.target)
  | some source, some target =>
    let provider := if d.provider = "" then d.source ++ "->" ++ d.target else d.provider
    .ok { source, target, implicit := d.implicit, provider }

/-- **The lattice** with the given conversions. -/
def lattice (u : Universe) (decls : List ConversionDecl) : Except Error Lattice :=
  (decls.mapM u.conversion).map fun cs => ⟨cs⟩

end Universe

end TypeBounds
