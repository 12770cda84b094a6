import TypeBounds.Problem.Basic
import TypeBounds.Yaml.Node

/-!
# Problems in YAML

Fields are looked up by their exact names, and an unknown or repeated field is an error. A string
takes the text of any scalar as it is written. A value that means nothing leaves its field unset,
and is left out of a list.
-/

namespace TypeBounds.Problem.OfYaml

open Yaml (Node)

/-- The text of a scalar, `none` inside for a value that means nothing. -/
def text? (n : Node) : Option (Option String) :=
  match n with
  | .scalar text _ => some (if n.isNull then none else some text)
  | _ => none

/-- The words for a truth value. The short ones are understood also between quotes. -/
def truth? (text : String) (quoted : Bool) : Option Bool :=
  if ["y", "Y", "yes", "on"].contains text then some true
  else if ["n", "N", "no", "off"].contains text then some false
  else if quoted then none
  else if ["true", "True", "TRUE"].contains text then some true
  else if ["false", "False", "FALSE"].contains text then some false
  else none

/-- The truth value of a scalar, `none` inside for a value that means nothing. -/
def flag? (n : Node) : Option (Option Bool) :=
  match n with
  | .scalar text quoted => if n.isNull then some none else (truth? text quoted).map some
  | _ => none

/-- The items of a list. -/
def items? (n : Node) : Option (List Node) :=
  match n with
  | .sequence items => some (items.filter (!·.isNull))
  | _ => if n.isNull then some [] else none

/-- The texts of a list. -/
def texts? (n : Node) : Option (List String) := do
  (← items? n).mapM fun item => (text? item).bind id

/-- The fields of a mapping in order. Fields without a name are ignored. -/
def fields? (n : Node) : Option (List (String × Node)) :=
  match n with
  | .mapping entries => do
    let named ← entries.mapM fun e => (text? e.1).map fun name => (name, e.2)
    let words := entries.filterMap fun e => match e.1 with
      | .scalar text _ => some text
      | _ => none
    if words.eraseDups.length = words.length then
      some (named.filterMap fun e => e.1.map fun name => (name, e.2))
    else none
  | _ => none

/-- Reads a record field by field; `set` knows the fields. -/
def record? {α : Type} [Inhabited α] (set : α → String → Node → Option α) (n : Node) :
    Option α := do
  (← fields? n).foldlM (fun r e => set r e.1 e.2) default

/-- Sets a field to the text of a value, if it means something. -/
def setText {α : Type} (r : α) (n : Node) (set : String → α) : Option α :=
  (text? n).map fun t => (t.map set).getD r

/-- Sets a field to the truth value of a value, if it means something. -/
def setFlag {α : Type} (r : α) (n : Node) (set : Bool → α) : Option α :=
  (flag? n).map fun t => (t.map set).getD r

def typeDecl (d : TypeDecl) (field : String) (n : Node) : Option TypeDecl :=
  match field with
  | "name" => setText d n fun t => { d with name := t }
  | "kind" => setText d n fun t => { d with kind := t }
  | "final" => setFlag d n fun b => { d with final := b }
  | "parents" => (texts? n).map fun ts => { d with parents := ts }
  | _ => none

def conversionDecl (d : ConversionDecl) (field : String) (n : Node) : Option ConversionDecl :=
  match field with
  | "from" => setText d n fun t => { d with source := t }
  | "to" => setText d n fun t => { d with target := t }
  | "implicit" => setFlag d n fun b => { d with implicit := b }
  | "provider" => setText d n fun t => { d with provider := t }
  | _ => none

def variableDecl (d : VariableDecl) (field : String) (n : Node) : Option VariableDecl :=
  match field with
  | "name" => setText d n fun t => { d with name := t }
  | "id" => setText d n fun t => { d with id := t }
  | "fixed" => setFlag d n fun b => { d with fixed := b }
  | _ => none

def operation (o : Operation) (field : String) (n : Node) : Option Operation :=
  match field with
  | "op" => setText o n fun t => { o with op := .ofWord t }
  | "var" => setText o n fun t => { o with var := t }
  | "type" => setText o n fun t => { o with type := t }
  | "ref" => setText o n fun t => { o with ref := t }
  | "fixed" => setFlag o n fun b => { o with fixed := b }
  | _ => none

def functionDecl (f : FunctionDecl) (field : String) (n : Node) : Option FunctionDecl :=
  match field with
  | "name" => setText f n fun t => { f with name := t }
  | "parameters" => (texts? n).map fun ts => { f with parameters := ts }
  | "return" => setText f n fun t => { f with result := t }
  | _ => none

/-- Reads a list of records. -/
def records? {α : Type} [Inhabited α] (set : α → String → Node → Option α) (n : Node) :
    Option (List α) := do
  (← items? n).mapM (record? set)

def problem (p : Problem) (field : String) (n : Node) : Option Problem :=
  match field with
  | "flavor" => setText p n fun t => { p with flavor := t }
  | "types" => (records? typeDecl n).map fun ds => { p with types := ds }
  | "conversions" => (records? conversionDecl n).map fun ds => { p with conversions := ds }
  | "variables" => (records? variableDecl n).map fun ds => { p with vars := ds }
  | "operations" => (records? operation n).map fun os => { p with operations := os }
  | "function" =>
    if n.isNull then some { p with function := none }
    else (record? functionDecl n).map fun f => { p with function := some f }
  | _ => none

/-- **Reads a problem** from the first document of a text. A document that means nothing is the
empty problem; without any document there is none. -/
def read? (text : String) : Option Problem := do
  let n ← Node.read? text
  if n.isNull then pure {} else record? problem n

end TypeBounds.Problem.OfYaml
