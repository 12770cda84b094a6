import TypeBounds.Problem.Basic
import TypeBounds.Toml.Document

/-!
# Problems in TOML

Fields are looked up without regard to case, and every value must have the type of its field. Keys
that are no fields are found in the end, all of them at once.
-/

namespace TypeBounds.Problem.OfToml

open Toml (Value Key Document)

/-- Why a text is no problem. -/
inductive Error where
  | malformed
  | unknownKeys (keys : List Key)

def Error.message : Error → String
  | malformed => "could not parse TOML problem"
  | unknownKeys keys => "unknown TOML keys [" ++ " ".intercalate (keys.map Toml.keyText) ++ "]"

/-- The field that a key names. Besides the capital letters, the long s and the sign for kelvin are
other cases of letters of the alphabet. -/
def fieldName (key : String) : String :=
  String.ofList (key.toList.map fun c =>
    if c.toNat = 0x17F then 's' else if c.toNat = 0x212A then 'k' else c.toLower)

/-! ## Which keys are fields -/

/-- The fields of a problem, with the fields of what they hold. -/
def schema : List (String × List String) :=
  [("flavor", []),
   ("types", ["name", "kind", "final", "parents"]),
   ("conversions", ["from", "to", "implicit", "provider"]),
   ("variables", ["name", "id", "fixed"]),
   ("operations", ["op", "var", "type", "ref", "fixed"]),
   ("function", ["name", "parameters", "return"])]

/-- Whether a key is a field of a problem or of something in it. -/
def isKnown : Key → Bool
  | [k] => (schema.lookup (fieldName k)).isSome
  | [k, field] => (schema.lookup (fieldName k)).any fun fields => fields.contains (fieldName field)
  | _ => false

/-! ## Values of fields -/

def text? : Value → Option String
  | .string s => some s
  | _ => none

def flag? : Value → Option Bool
  | .boolean b => some b
  | _ => none

def items? : Value → Option (List Value)
  | .array vs => some vs
  | .tables ts => some (ts.map .table)
  | _ => none

def texts? (v : Value) : Option (List String) := do (← items? v).mapM text?

/-- Reads a record field by field; `set` knows the fields and leaves other keys alone. -/
def record? {α : Type} [Inhabited α] (set : α → String → Value → Option α) : Value → Option α
  | .table t => t.entries.foldlM (fun r e => set r (fieldName e.1) e.2) default
  | _ => none

def records? {α : Type} [Inhabited α] (set : α → String → Value → Option α) (v : Value) :
    Option (List α) := do
  (← items? v).mapM (record? set)

/-! ## Records -/

def typeDecl (d : TypeDecl) (field : String) (v : Value) : Option TypeDecl :=
  match field with
  | "name" => (text? v).map fun t => { d with name := t }
  | "kind" => (text? v).map fun t => { d with kind := t }
  | "final" => (flag? v).map fun b => { d with final := b }
  | "parents" => (texts? v).map fun ts => { d with parents := ts }
  | _ => some d

def conversionDecl (d : ConversionDecl) (field : String) (v : Value) : Option ConversionDecl :=
  match field with
  | "from" => (text? v).map fun t => { d with source := t }
  | "to" => (text? v).map fun t => { d with target := t }
  | "implicit" => (flag? v).map fun b => { d with implicit := b }
  | "provider" => (text? v).map fun t => { d with provider := t }
  | _ => some d

def variableDecl (d : VariableDecl) (field : String) (v : Value) : Option VariableDecl :=
  match field with
  | "name" => (text? v).map fun t => { d with name := t }
  | "id" => (text? v).map fun t => { d with id := t }
  | "fixed" => (flag? v).map fun b => { d with fixed := b }
  | _ => some d

def operation (o : Operation) (field : String) (v : Value) : Option Operation :=
  match field with
  | "op" => (text? v).map fun t => { o with op := .ofWord t }
  | "var" => (text? v).map fun t => { o with var := t }
  | "type" => (text? v).map fun t => { o with type := t }
  | "ref" => (text? v).map fun t => { o with ref := t }
  | "fixed" => (flag? v).map fun b => { o with fixed := b }
  | _ => some o

def functionDecl (f : FunctionDecl) (field : String) (v : Value) : Option FunctionDecl :=
  match field with
  | "name" => (text? v).map fun t => { f with name := t }
  | "parameters" => (texts? v).map fun ts => { f with parameters := ts }
  | "return" => (text? v).map fun t => { f with result := t }
  | _ => some f

def problem (p : Problem) (field : String) (v : Value) : Option Problem :=
  match field with
  | "flavor" => (text? v).map fun t => { p with flavor := t }
  | "types" => (records? typeDecl v).map fun ds => { p with types := ds }
  | "conversions" => (records? conversionDecl v).map fun ds => { p with conversions := ds }
  | "variables" => (records? variableDecl v).map fun ds => { p with vars := ds }
  | "operations" => (records? operation v).map fun os => { p with operations := os }
  | "function" => (record? functionDecl v).map fun f => { p with function := some f }
  | _ => some p

/-- **Reads a problem.** A malformed text or a value of the wrong type comes before unknown keys. -/
def read (text : String) : Except Error Problem :=
  match Document.read? text with
  | none => .error .malformed
  | some d =>
    match record? problem (.table d.root), d.keys.filter fun key => !isKnown key with
    | none, _ => .error .malformed
    | some p, [] => .ok p
    | some _, unknown => .error (.unknownKeys unknown)

end TypeBounds.Problem.OfToml
