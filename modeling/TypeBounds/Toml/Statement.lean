import TypeBounds.Text.Digits

/-!
# The statements of TOML

A text is a list of statements: keys with values, and headers of tables. Reading fails as a whole
where the text does not follow the grammar; dates are not supported and count as such a place.
-/

namespace TypeBounds.Toml

/-- A key with its parts between dots. -/
abbrev Key := List String

/-- A value as it is written. -/
inductive Literal where
  | string (text : String)
  | integer (value : Int)
  | float (digits : String)
  | boolean (value : Bool)
  | array (items : List Literal)
  | inlineTable (entries : List (Key × Literal))

instance : Inhabited Literal := ⟨.boolean false⟩

inductive Statement where
  | assign (key : Key) (value : Literal)
  | table (key : Key)
  /-- one more element of an array of tables -/
  | tableItem (key : Key)

/-! ## Characters -/

def isSpace (c : Char) : Bool := c = ' ' || c = '\t'

def isNewline (c : Char) : Bool := c = '\n' || c = '\r'

def isBare (c : Char) : Bool := c.isAlphanum || c = '_' || c = '-'

/-- Whether a text holds no control characters but tabs and line breaks. -/
def isClean : List Char → Bool
  | [] => true
  | '\r' :: cs => cs.head? = some '\n' && isClean cs
  | c :: cs => ((0x20 ≤ c.toNat && c.toNat ≠ 0x7F) || c = '\t' || c = '\n') && isClean cs

def skipSpace (cs : List Char) : List Char := cs.dropWhile isSpace

/-- Skips a comment up to the end of its line. -/
def skipComment (cs : List Char) : List Char :=
  match cs with
  | '#' :: _ => cs.dropWhile fun c => !isNewline c
  | _ => cs

/-- Skips spaces, line breaks and comments. -/
def skipLines (inComment : Bool) : List Char → List Char
  | [] => []
  | c :: cs =>
    if isNewline c then skipLines false cs
    else if inComment || c = '#' then skipLines true cs
    else if isSpace c then skipLines false cs
    else c :: cs

/-! ## Strings -/

def shortEscape? : Char → Option Char
  | 'b' => some '\x08'
  | 't' => some '\t'
  | 'n' => some '\n'
  | 'f' => some '\x0c'
  | 'r' => some '\r'
  | '"' => some '"'
  | '\\' => some '\\'
  | _ => none

/-- How many digits follow an escape by number. -/
def escapeWidth? : Char → Option Nat
  | 'u' => some 4
  | 'U' => some 8
  | _ => none

/-- Reads a string in double quotes after the opening ones. `long` strings have three quotes and may
go over several lines. `digits` is an escape by number under way: how many digits are still missing
and the ones read so far. `trimming` says that white space is skipped, after a backslash at the end
of a line. -/
def readBasic (long trimming : Bool) (text : List Char) (digits : Option (Nat × List Char)) :
    List Char → Option (List Char × List Char)
  | [] => none
  | c :: cs =>
    match digits with
    | some (missing, read) =>
      if missing ≤ 1 then
        match Text.charOfHex? (read ++ [c]) with
        | some d => readBasic long false (text ++ [d]) none cs
        | none => none
      else readBasic long false text (some (missing - 1, read ++ [c])) cs
    | none =>
      if trimming && (isSpace c || isNewline c) then readBasic long true text none cs
      else if c = '"' then
        if !long then some (text, cs)
        else match cs with
          | '"' :: '"' :: '"' :: '"' :: '"' :: _ => none
          | '"' :: '"' :: '"' :: '"' :: cs => some (text ++ ['"', '"'], cs)
          | '"' :: '"' :: '"' :: cs => some (text ++ ['"'], cs)
          | '"' :: '"' :: cs => some (text, cs)
          | cs => readBasic long false (text ++ ['"']) none cs
      else if isNewline c && !long then none
      else if c ≠ '\\' then readBasic long false (text ++ [c]) none cs
      else match cs with
        | [] => none
        | e :: cs =>
          match shortEscape? e, escapeWidth? e with
          | some d, _ => readBasic long false (text ++ [d]) none cs
          | none, some width => readBasic long false text (some (width, [])) cs
          | none, none =>
            if long && isNewline e then readBasic long true text none cs
            else if long && isSpace e && (skipSpace cs).head?.any isNewline then
              readBasic long true text none cs
            else none

/-- Reads a string in single quotes after the opening ones. Nothing is escaped. -/
def readRaw (long : Bool) (text : List Char) : List Char → Option (List Char × List Char)
  | [] => none
  | c :: cs =>
    if c = '\'' then
      if !long then some (text, cs)
      else match cs with
        | '\'' :: '\'' :: '\'' :: '\'' :: '\'' :: _ => none
        | '\'' :: '\'' :: '\'' :: '\'' :: cs => some (text ++ ['\'', '\''], cs)
        | '\'' :: '\'' :: '\'' :: cs => some (text ++ ['\''], cs)
        | '\'' :: '\'' :: cs => some (text, cs)
        | cs => readRaw long (text ++ ['\'']) cs
    else if isNewline c && !long then none
    else readRaw long (text ++ [c]) cs

/-- Drops a line break right after the opening quotes of a long string. -/
def dropNewline : List Char → List Char
  | '\r' :: '\n' :: cs => cs
  | '\n' :: cs => cs
  | cs => cs

/-- Reads a string of any kind. -/
def readString : List Char → Option (String × List Char)
  | '"' :: '"' :: '"' :: cs =>
    (readBasic true false [] none (dropNewline cs)).map fun r => (String.ofList r.1, r.2)
  | '"' :: cs => (readBasic false false [] none cs).map fun r => (String.ofList r.1, r.2)
  | '\'' :: '\'' :: '\'' :: cs =>
    (readRaw true [] (dropNewline cs)).map fun r => (String.ofList r.1, r.2)
  | '\'' :: cs => (readRaw false [] cs).map fun r => (String.ofList r.1, r.2)
  | _ => none

/-! ## Keys -/

/-- Reads one part of a key. -/
def readPart (cs : List Char) : Option (String × List Char) :=
  match cs with
  | c :: _ =>
    if c = '"' || c = '\'' then readString cs
    else if isBare c then some (String.ofList (cs.takeWhile isBare), cs.dropWhile isBare)
    else none
  | [] => none

/-- Reads a key with the spaces around its parts. -/
def readKey : Nat → List Char → Option (Key × List Char)
  | 0, _ => none
  | budget + 1, cs => do
    let (part, cs) ← readPart (skipSpace cs)
    match skipSpace cs with
    | '.' :: cs => do
      let (parts, cs) ← readKey budget cs
      pure (part :: parts, cs)
    | cs => pure ([part], cs)

/-! ## Numbers -/

/-- The digits of a number, which may be divided by underscores. -/
def plainDigits? (cs : List Char) : Option (List Char) :=
  if Text.underscoresFit false cs then some (cs.filter (· ≠ '_')) else none

/-- A decimal number without superfluous zeros in front. -/
def decimal? (cs : List Char) : Option Nat := do
  let ds ← plainDigits? cs
  if 1 < ds.length && ds.head? = some '0' then none else Text.digits? 10 ds

/-- A whole number of 64 bits. -/
def inRange? (n : Int) : Option Int :=
  if -0x8000000000000000 ≤ n && n < 0x8000000000000000 then some n else none

def integer? (cs : List Char) : Option Int :=
  match cs with
  | '0' :: 'x' :: ds =>
    (plainDigits? ds).bind fun ds => (Text.digits? 16 ds).bind fun n => inRange? n
  | '0' :: 'o' :: ds =>
    (plainDigits? ds).bind fun ds => (Text.digits? 8 ds).bind fun n => inRange? n
  | '0' :: 'b' :: ds =>
    (plainDigits? ds).bind fun ds => (Text.digits? 2 ds).bind fun n => inRange? n
  | '-' :: ds => (decimal? ds).bind fun n => inRange? (-n)
  | '+' :: ds => (decimal? ds).bind fun n => inRange? n
  | ds => (decimal? ds).bind fun n => inRange? n

/-- Whether a word is a number with a fraction or an exponent. -/
def isFloat (cs : List Char) : Bool :=
  let cs := match cs with
    | '-' :: cs => cs
    | '+' :: cs => cs
    | cs => cs
  let isDigits := fun (ds : List Char) => (plainDigits? ds).any fun ds => ds.all Char.isDigit
  let isE := fun c => c = 'e' || c = 'E'
  let mantissa := cs.takeWhile fun c => !isE c
  let exponent := match cs.dropWhile fun c => !isE c with
    | [] => none
    | _ :: '-' :: ds => some ds
    | _ :: '+' :: ds => some ds
    | _ :: ds => some ds
  let whole := mantissa.takeWhile (· ≠ '.')
  let fraction := match mantissa.dropWhile (· ≠ '.') with
    | [] => none
    | _ :: ds => some ds
  cs = ['i', 'n', 'f'] || cs = ['n', 'a', 'n'] ||
    ((exponent.isSome || fraction.isSome) && (decimal? whole).isSome && exponent.all isDigits &&
      fraction.all isDigits)

/-- Characters of numbers and of the words for truth values. -/
def isWordChar (c : Char) : Bool := c.isAlphanum || ['_', '+', '-', '.', ':'].contains c

/-- The value of a word. -/
def word? (cs : List Char) : Option Literal :=
  if cs = ['t', 'r', 'u', 'e'] then some (.boolean true)
  else if cs = ['f', 'a', 'l', 's', 'e'] then some (.boolean false)
  else match integer? cs with
    | some n => some (.integer n)
    | none => if isFloat cs then some (.float (String.ofList cs)) else none

/-! ## Values -/

mutual

/-- Reads a value. -/
def readValue : Nat → List Char → Option (Literal × List Char)
  | 0, _ => none
  | budget + 1, cs =>
    match cs with
    | [] => none
    | '[' :: cs => do
      let (items, cs) ← readItems true budget cs
      pure (.array items, cs)
    | '\x7b' :: cs =>
      match skipSpace cs with
      | '\x7d' :: cs => some (.inlineTable [], cs)
      | cs => do
        let (entries, cs) ← readEntries budget cs
        pure (.inlineTable entries, cs)
    | c :: rest =>
      if c = '"' || c = '\'' then (readString (c :: rest)).map fun r => (.string r.1, r.2)
      else
        (word? ((c :: rest).takeWhile isWordChar)).map fun w =>
          (w, (c :: rest).dropWhile isWordChar)

/-- Reads the items of an array up to its end; all but the first come after a comma, and a comma may
stand after the last. -/
def readItems (first : Bool) : Nat → List Char → Option (List Literal × List Char)
  | 0, _ => none
  | budget + 1, cs =>
    let next := fun (cs : List Char) => do
      let (item, cs) ← readValue budget cs
      let (items, cs) ← readItems false budget cs
      pure (item :: items, cs)
    match skipLines false cs with
    | ']' :: cs => some ([], cs)
    | ',' :: cs =>
      if first then none
      else match skipLines false cs with
        | ']' :: cs => some ([], cs)
        | cs => next cs
    | cs => if first then next cs else none

/-- Reads the entries of an inline table up to its end. -/
def readEntries : Nat → List Char → Option (List (Key × Literal) × List Char)
  | 0, _ => none
  | budget + 1, cs => do
    let (key, cs) ← readKey (cs.length + 1) cs
    match cs with
    | '=' :: cs => do
      let (value, cs) ← readValue budget (skipSpace cs)
      match skipSpace cs with
      | ',' :: cs => do
        let (entries, cs) ← readEntries budget cs
        pure ((key, value) :: entries, cs)
      | '\x7d' :: cs => pure ([(key, value)], cs)
      | _ => none
    | _ => none

end

/-! ## Statements -/

/-- Reads one statement. -/
def readStatement (cs : List Char) : Option (Statement × List Char) :=
  let budget := cs.length + 1
  match cs with
  | '[' :: '[' :: cs => do
    let (key, cs) ← readKey budget cs
    match cs with
    | ']' :: ']' :: cs => pure (.tableItem key, cs)
    | _ => none
  | '[' :: cs => do
    let (key, cs) ← readKey budget cs
    match cs with
    | ']' :: cs => pure (.table key, cs)
    | _ => none
  | cs => do
    let (key, cs) ← readKey budget cs
    match cs with
    | '=' :: cs => do
      let (value, cs) ← readValue (2 * budget) (skipSpace cs)
      pure (.assign key value, cs)
    | _ => none

/-- Reads all statements, each on lines of its own. -/
def readStatements : Nat → List Char → Option (List Statement)
  | 0, _ => none
  | budget + 1, cs =>
    match skipLines false cs with
    | [] => some []
    | cs => do
      let (statement, cs) ← readStatement cs
      let cs := skipComment (skipSpace cs)
      if cs.head?.all isNewline then do
        let statements ← readStatements budget cs
        pure (statement :: statements)
      else none

/-- **The statements** of a text. -/
def statements? (text : String) : Option (List Statement) :=
  let cs := match text.toList with
    | c :: cs => if c.toNat = 0xFEFF then cs else c :: cs
    | [] => []
  if isClean cs then readStatements (cs.length + 1) cs else none

end TypeBounds.Toml
