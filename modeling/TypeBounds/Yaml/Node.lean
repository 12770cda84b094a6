import TypeBounds.Yaml.Token

/-!
# The values of YAML

The first document of a text as a tree. Where a value is missing it is the plain empty scalar, which
means nothing at all (`Node.isNull`).
-/

namespace TypeBounds.Yaml

/-- A YAML value. -/
inductive Node where
  | scalar (text : String) (quoted : Bool)
  | sequence (items : List Node)
  | mapping (entries : List (Node × Node))

namespace Node

/-- The value that stands where nothing was written. -/
def missing : Node := .scalar "" false

instance : Inhabited Node := ⟨missing⟩

/-- Whether a value means nothing. -/
def isNull : Node → Bool
  | scalar text false => ["", "~", "null", "Null", "NULL"].contains text
  | _ => false

/-! ## Reading tokens

Each reader takes one step of its budget; every step below another has at least one token less
before it, or is the one for a value inside its container. -/

/-- A value is missing if one of the given tokens comes instead. -/
def isMissing (stops : List Token) : List Token → Bool
  | [] => true
  | t :: _ => stops.contains t

mutual

/-- Reads a value. A sequence may stand without a block of its own where `indentless` says so. -/
def readNode (indentless : Bool) : Nat → List Token → Option (Node × List Token)
  | 0, _ => none
  | budget + 1, ts =>
    match ts with
    | .scalar text quoted :: ts => some (.scalar text quoted, ts)
    | .blockSequenceStart :: ts => do
      let (items, ts) ← readItems budget ts
      pure (.sequence items, ts)
    | .blockMappingStart :: ts => do
      let (entries, ts) ← readEntries budget ts
      pure (.mapping entries, ts)
    | .sequenceStart :: ts => do
      let (items, ts) ← readFlowItems true budget ts
      pure (.sequence items, ts)
    | .mappingStart :: ts => do
      let (entries, ts) ← readFlowEntries true budget ts
      pure (.mapping entries, ts)
    | .blockEntry :: ts =>
      if indentless then do
        let (items, ts) ← readIndentless budget (.blockEntry :: ts)
        pure (.sequence items, ts)
      else none
    | _ => none

/-- Reads a value that may be missing. -/
def readOptional (indentless : Bool) (stops : List Token) :
    Nat → List Token → Option (Node × List Token)
  | 0, _ => none
  | budget + 1, ts =>
    if isMissing stops ts then some (missing, ts) else readNode indentless budget ts

/-- Reads the items of a block sequence up to its end. -/
def readItems : Nat → List Token → Option (List Node × List Token)
  | 0, _ => none
  | budget + 1, ts =>
    match ts with
    | .blockEntry :: ts => do
      let (item, ts) ← readOptional false [.blockEntry, .blockEnd] budget ts
      let (items, ts) ← readItems budget ts
      pure (item :: items, ts)
    | .blockEnd :: ts => some ([], ts)
    | _ => none

/-- Reads the items of a sequence that is indented like the key it belongs to. -/
def readIndentless : Nat → List Token → Option (List Node × List Token)
  | 0, _ => none
  | budget + 1, ts =>
    match ts with
    | .blockEntry :: ts => do
      let (item, ts) ← readOptional false [.blockEntry, .key, .value, .blockEnd] budget ts
      let (items, ts) ← readIndentless budget ts
      pure (item :: items, ts)
    | ts => some ([], ts)

/-- Reads the entries of a block mapping up to its end. -/
def readEntries : Nat → List Token → Option (List (Node × Node) × List Token)
  | 0, _ => none
  | budget + 1, ts =>
    match ts with
    | .key :: ts => do
      let (key, ts) ← readOptional true [.key, .value, .blockEnd] budget ts
      let (value, ts) ← readValue true [.key, .value, .blockEnd] budget ts
      let (entries, ts) ← readEntries budget ts
      pure ((key, value) :: entries, ts)
    | .blockEnd :: ts => some ([], ts)
    | _ => none

/-- Reads the value after a key, if there is a colon. -/
def readValue (indentless : Bool) (stops : List Token) :
    Nat → List Token → Option (Node × List Token)
  | 0, _ => none
  | budget + 1, ts =>
    match ts with
    | .value :: ts => readOptional indentless stops budget ts
    | ts => some (missing, ts)

/-- Reads the items between brackets; all but the first come after a comma. -/
def readFlowItems (first : Bool) : Nat → List Token → Option (List Node × List Token)
  | 0, _ => none
  | budget + 1, ts =>
    match ts, first with
    | .sequenceEnd :: ts, _ => some ([], ts)
    | .flowEntry :: .sequenceEnd :: ts, false => some ([], ts)
    | .flowEntry :: ts, false => do
      let (item, ts) ← readFlowItem budget ts
      let (items, ts) ← readFlowItems false budget ts
      pure (item :: items, ts)
    | _, false => none
    | ts, true => do
      let (item, ts) ← readFlowItem budget ts
      let (items, ts) ← readFlowItems false budget ts
      pure (item :: items, ts)

/-- Reads an item between brackets. A key makes it a mapping with one entry. -/
def readFlowItem : Nat → List Token → Option (Node × List Token)
  | 0, _ => none
  | budget + 1, ts =>
    match ts with
    | .key :: ts => do
      let (key, ts) ← readOptional false [.value, .flowEntry, .sequenceEnd] budget ts
      let (value, ts) ← readValue false [.flowEntry, .sequenceEnd] budget ts
      pure (.mapping [(key, value)], ts)
    | ts => readNode false budget ts

/-- Reads the entries between braces; all but the first come after a comma. -/
def readFlowEntries (first : Bool) : Nat → List Token → Option (List (Node × Node) × List Token)
  | 0, _ => none
  | budget + 1, ts =>
    match ts, first with
    | .mappingEnd :: ts, _ => some ([], ts)
    | .flowEntry :: .mappingEnd :: ts, false => some ([], ts)
    | .flowEntry :: ts, false => do
      let (entry, ts) ← readFlowPair budget ts
      let (entries, ts) ← readFlowEntries false budget ts
      pure (entry :: entries, ts)
    | _, false => none
    | ts, true => do
      let (entry, ts) ← readFlowPair budget ts
      let (entries, ts) ← readFlowEntries false budget ts
      pure (entry :: entries, ts)

/-- Reads an entry between braces. Without a colon its value is missing. -/
def readFlowPair : Nat → List Token → Option ((Node × Node) × List Token)
  | 0, _ => none
  | budget + 1, ts =>
    match ts with
    | .key :: ts => do
      let (key, ts) ← readOptional false [.value, .flowEntry, .mappingEnd] budget ts
      let (value, ts) ← readValue false [.flowEntry, .mappingEnd] budget ts
      pure ((key, value), ts)
    | ts => do
      let (key, ts) ← readNode false budget ts
      pure ((key, missing), ts)

end

/-- The value of the document that the tokens start with, if they start with one. What comes after
it is not looked at, apart from the very next token. -/
def ofTokens? (ts : List Token) : Option Node :=
  let budget := 4 * ts.length + 4
  let checked := fun (r : Option (Node × List Token)) => r.bind fun (n, rest) =>
    if rest.head? = some .invalid then none else some n
  match ts.dropWhile (· = .documentEnd) with
  | [] => none
  | .documentStart :: ts =>
    checked (readOptional false [.documentStart, .documentEnd] budget ts)
  | ts => checked (readNode false budget ts)

/-- **The first document** of a text. -/
def read? (text : String) : Option Node := ofTokens? (tokens text)

end Node

end TypeBounds.Yaml
