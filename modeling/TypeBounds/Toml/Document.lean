import TypeBounds.Table
import TypeBounds.Toml.Statement

/-!
# Documents of TOML

The statements of a text are carried out one after the other on a tree of tables. A key can be given
a value once. Tables that came into being only as parents of others are *implicit*: a header or a
value of their own makes them explicit, once. A key whose value is an array can be given another
value, which replaces it.
-/

namespace TypeBounds.Toml

inductive Value where
  | string (text : String)
  | integer (value : Int)
  | float (digits : String)
  | boolean (value : Bool)
  | array (items : List Value)
  | table (entries : Table Value)
  /-- an array of tables under construction: its newest table takes the entries -/
  | tables (items : List (Table Value))

instance : Inhabited Value := ⟨.table {}⟩

/-- A document under construction. -/
structure Document where
  root : Table Value := {}
  /-- all keys with values and all headers, with their full paths, in the order of the text -/
  keys : List Key := []
  /-- the tables that came into being as parents only -/
  implicit : List Key := []
  /-- the keys whose values are arrays -/
  arrays : List Key := []

/-- Changes the table at a place. Of an array of tables the newest one is meant. -/
def update? (f : Table Value → Option (Table Value)) : Key → Table Value → Option (Table Value)
  | [], t => f t
  | k :: ks, t =>
    match t.get? k with
    | some (.table u) => (update? f ks u).map fun u => t.insert k (.table u)
    | some (.tables us) =>
      match us.getLast? with
      | some u => (update? f ks u).map fun u => t.insert k (.tables (us.dropLast ++ [u]))
      | none => none
    | _ => none

/-- The table at a place. -/
def tableAt? : Key → Table Value → Option (Table Value)
  | [], t => some t
  | k :: ks, t =>
    match t.get? k with
    | some (.table u) => tableAt? ks u
    | some (.tables us) => us.getLast?.bind (tableAt? ks)
    | _ => none

namespace Document

def markImplicit (d : Document) (path : Key) : Document :=
  { d with implicit := path :: d.implicit }

def unmarkImplicit (d : Document) (path : Key) : Document :=
  { d with implicit := d.implicit.filter (· ≠ path) }

/-- Notes whether the value of a key is an array. -/
def markArray (d : Document) (path : Key) (isArray : Bool) : Document :=
  let others := d.arrays.filter (· ≠ path)
  { d with arrays := if isArray then path :: others else others }

/-- Notes a key of the text. -/
def note (d : Document) (path : Key) : Document := { d with keys := d.keys ++ [path] }

/-- Puts a value into the table at a place. -/
def put? (d : Document) (place : Key) (key : String) (value : Value) : Option Document :=
  (update? (fun t => some (t.insert key value)) place d.root).map fun root => { d with root }

/-- **Gives a key its value.** A table that is there implicitly stays and becomes explicit. -/
def assign? (d : Document) (place : Key) (key : String) (value : Value) : Option Document := do
  let path := place ++ [key]
  let t ← tableAt? place d.root
  if !t.contains key then d.put? place key value
  else if d.arrays.contains path then (d.unmarkImplicit path).put? place key value
  else if d.implicit.contains path then some (d.unmarkImplicit path)
  else none

/-- Makes sure that there are tables at all places on a path below a place. -/
def openPath? (d : Document) (place : Key) : Key → Option Document
  | [] => some d
  | k :: ks => do
    let t ← tableAt? place d.root
    let d ←
      if t.contains k then some d
      else (d.markImplicit (place ++ [k])).put? place k (.table {})
    let _ ← tableAt? (place ++ [k]) d.root
    d.openPath? (place ++ [k]) ks

/-- Opens the table at a path: one more table of an array, or the table itself. -/
def openTable? (d : Document) (path : Key) (isItem : Bool) : Option Document := do
  let place := path.dropLast
  let key := path.getLast?.getD ""
  let d ← d.openPath? [] place
  let t ← tableAt? place d.root
  if !isItem then d.assign? place key (.table {})
  else match t.get? key with
    | none => d.put? place key (.tables [default])
    | some (.tables us) => d.put? place key (.tables (us ++ [default]))
    | some _ => none

/-- Opens the tables that the dots of a key mean, and gives the place of the last of them. -/
def openDotted? (d : Document) (place : Key) : Key → Option (Document × Key)
  | [] => some (d, place)
  | k :: ks => do
    let path := place ++ [k]
    let d ← (d.markImplicit path).openTable? path false
    d.openDotted? path ks

end Document

/-! ## Values -/

/-- Puts a value at the end of a path through tables of its own. -/
def insertAt? (value : Value) : Key → Table Value → Option (Table Value)
  | [], t => some t
  | [k], t => some (t.insert k value)
  | k :: ks, t =>
    match t.get? k with
    | none => (insertAt? value ks {}).map fun u => t.insert k (.table u)
    | some (.table u) => (insertAt? value ks u).map fun u => t.insert k (.table u)
    | some _ => none

mutual

/-- The value of what is written for the key at a path. The entries of inline tables are carried out
on the document too, as if each had a statement of its own, so that repeated keys are found. -/
def evaluate? (d : Document) (path : Key) (inArray : Bool) : Literal → Option (Document × Value)
  | .string s => some (d, .string s)
  | .integer n => some (d, .integer n)
  | .float s => some (d, .float s)
  | .boolean b => some (d, .boolean b)
  | .array items => do
    let (d, vs) ← evaluateItems? (d.markArray path true) path items
    pure (d, .array vs)
  | .inlineTable entries => do
    let d ← (d.markImplicit path).openTable? path inArray
    let (d, t) ← evaluateEntries? d path {} entries
    pure (d, .table t)

def evaluateItems? (d : Document) (path : Key) : List Literal → Option (Document × List Value)
  | [] => some (d, [])
  | item :: items => do
    let (d, v) ← evaluate? d path true item
    let (d, vs) ← evaluateItems? d path items
    pure (d, v :: vs)

def evaluateEntries? (d : Document) (path : Key) (t : Table Value) :
    List (Key × Literal) → Option (Document × Table Value)
  | [] => some (d, t)
  | (key, value) :: entries => do
    let last := key.getLast?.getD ""
    let (d, place) ← d.openDotted? path key.dropLast
    let (d, v) ← evaluate? (d.note (place ++ [last])) (place ++ [last]) false value
    let d ← d.assign? place last v
    let t ← insertAt? v key t
    evaluateEntries? (d.markArray (place ++ [last]) (value matches .array _)) path t entries

end

/-! ## Statements -/

/-- Carries out statements; keys are below the table that the last header opened. -/
def carryOut? (d : Document) (place : Key) : List Statement → Option Document
  | [] => some d
  | .table path :: rest => do
    let d ← (d.note path).openTable? path false
    carryOut? (d.markArray path false) path rest
  | .tableItem path :: rest => do
    let d ← (d.note path).openTable? path true
    carryOut? (d.markArray path false) path rest
  | .assign key value :: rest => do
    let last := key.getLast?.getD ""
    let (d, inner) ← d.openDotted? place key.dropLast
    let (d, v) ← evaluate? (d.note (inner ++ [last])) (inner ++ [last]) false value
    let d ← d.assign? inner last v
    carryOut? (d.markArray (inner ++ [last]) (value matches .array _)) place rest

/-- **Reads a document.** -/
def Document.read? (text : String) : Option Document := do carryOut? {} [] (← statements? text)

/-! ## Writing keys -/

/-- How a character stands in a quoted part of a key. -/
def escapeKeyChar (c : Char) : List Char :=
  match c with
  | '"' => ['\\', '"']
  | '\\' => ['\\', '\\']
  | '\x08' => ['\\', 'b']
  | '\t' => ['\\', 't']
  | '\n' => ['\\', 'n']
  | '\x0c' => ['\\', 'f']
  | '\r' => ['\\', 'r']
  | c => if c.toNat < 0x20 || c.toNat = 0x7F then '\\' :: 'u' :: Text.hex 4 c.toNat else [c]

/-- How a part of a key is written: in quotes unless it can be bare. -/
def partText (part : String) : String :=
  if !part.isEmpty && part.toList.all isBare then part
  else "\"" ++ String.ofList (part.toList.flatMap escapeKeyChar) ++ "\""

/-- How a key is written. -/
def keyText (key : Key) : String := ".".intercalate (key.map partText)

end TypeBounds.Toml
