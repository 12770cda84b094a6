import TypeBounds.Text.Digits

/-!
# The tokens of YAML

Block structure is expressed by indentation and an implicit key only shows when the colon after it
is reached. The scanner therefore keeps the columns of the open blocks, and remembers where a key
might have begun so that it can put in the missing tokens. Two things fail late on purpose: the
token list ends in `invalid` where the text cannot be read on, and a reader that stops before is not
affected.

Anchors, tags, directives and block scalars are not supported and count as invalid.
-/

namespace TypeBounds.Yaml

inductive Token where
  | documentStart
  | documentEnd
  | blockSequenceStart
  | blockMappingStart
  | blockEnd
  | blockEntry
  | sequenceStart
  | sequenceEnd
  | mappingStart
  | mappingEnd
  | flowEntry
  | key
  | value
  /-- a scalar; quoted ones are always text -/
  | scalar (text : String) (quoted : Bool)
  | invalid
  deriving DecidableEq, Inhabited

/-! ## Characters -/

def isBreak (c : Char) : Bool := c = '\n' || c.toNat = 0x2028 || c.toNat = 0x2029

def isBlank (c : Char) : Bool := c = ' ' || c = '\t'

/-- Whether white space or the end of the text comes next. -/
def gapFollows : List Char → Bool
  | [] => true
  | c :: _ => isBlank c || isBreak c

/-- Characters that may occur in a text at all. -/
def isAllowed (c : Char) : Bool :=
  let n := c.toNat
  n = 9 || n = 10 || n = 13 || (0x20 ≤ n && n ≤ 0x7E) || n = 0x85 || (0xA0 ≤ n && n ≤ 0xFFFD) ||
    0x10000 ≤ n

/-- Line breaks in their one form. -/
def normalize : List Char → List Char
  | '\r' :: '\n' :: cs => '\n' :: normalize cs
  | '\r' :: cs => '\n' :: normalize cs
  | c :: cs => (if c.toNat = 0x85 then '\n' else c) :: normalize cs
  | [] => []

/-- Whether a line starts with `---` or `...` on its own. -/
def documentMark : List Char → Option Token
  | '-' :: '-' :: '-' :: cs => if gapFollows cs then some .documentStart else none
  | '.' :: '.' :: '.' :: cs => if gapFollows cs then some .documentEnd else none
  | _ => none

/-! ## Places and gaps -/

/-- The text not yet read, with the line and the column that it starts at. -/
structure Place where
  rest : List Char
  line : Nat := 0
  column : Nat := 0

/-- Moves on by one character on the same line. -/
def Place.next (p : Place) : Place := { p with rest := p.rest.tail, column := p.column + 1 }

/-- Moves on by several characters on the same line. -/
def Place.skip (p : Place) (n : Nat) : Place :=
  { p with rest := p.rest.drop n, column := p.column + n }

/-- Skips spaces, comments and line breaks. Tabs are skipped where `tabs` allows it, that is not
where indentation counts; `lines` says that a line break makes indentation count again. Gives the
new place and whether a line break was passed. -/
def skipGap (tabs lines inComment crossed : Bool) (line column : Nat) : List Char → Place × Bool
  | [] => (⟨[], line, column⟩, crossed)
  | c :: cs =>
    if isBreak c then skipGap (tabs && !lines) lines false true (line + 1) 0 cs
    else if inComment then skipGap tabs lines true crossed line (column + 1) cs
    else if c = '#' then skipGap tabs lines true crossed line (column + 1) cs
    else if c = ' ' || (c = '\t' && tabs) || (c.toNat = 0xFEFF && column = 0) then
      skipGap tabs lines false crossed line (column + 1) cs
    else (⟨c :: cs, line, column⟩, crossed)

/-! ## Scalars -/

/-- A scalar over several lines: one line break becomes a space, of more the first is dropped. -/
def fold (first : Char) (more : List Char) : List Char :=
  if first = '\n' then (if more.isEmpty then [' '] else more) else first :: more

/-- The white space read since the last character of a scalar: blanks on the line, or the first line
break and the following ones. -/
inductive Gap where
  | blanks (cs : List Char)
  | breaks (first : Char) (more : List Char)
  /-- after a line break that was escaped: what follows is no space -/
  | escaped (more : List Char)

namespace Gap

def none : Gap := blanks []

def isNone : Gap → Bool
  | blanks [] => true
  | _ => false

def crossesLine : Gap → Bool
  | blanks _ => false
  | _ => true

def add (c : Char) : Gap → Gap
  | blanks cs => if isBreak c then breaks c [] else blanks (cs ++ [c])
  | breaks first more => if isBreak c then breaks first (more ++ [c]) else breaks first more
  | escaped more => if isBreak c then escaped (more ++ [c]) else escaped more

/-- What the white space stands for between two characters of a scalar. -/
def text : Gap → List Char
  | blanks cs => cs
  | breaks first more => fold first more
  | escaped more => more

end Gap

/-- Whether a plain scalar ends before a character. -/
def endsPlain (flow : Bool) (c : Char) (cs : List Char) : Bool :=
  (c = ':' && gapFollows cs) || (flow && [',', '?', '[', ']', '\x7b', '\x7d'].contains c)

/-- Reads a plain scalar. `least` is the column below which a further line does not belong to it;
`text` is what was read before and `gap` the white space after that. Gives the scalar, the place
after it and whether a line break was passed. -/
def readPlain (flow : Bool) (least : Nat) (text : List Char) (gap : Gap) (line column : Nat) :
    List Char → Option (List Char × Place × Bool)
  | [] => some (text, ⟨[], line, column⟩, gap.crossesLine)
  | c :: cs =>
    if isBreak c then readPlain flow least text (gap.add c) (line + 1) 0 cs
    else if isBlank c then
      if c = '\t' && gap.crossesLine && column < least then none
      else readPlain flow least text (gap.add c) line (column + 1) cs
    else if ((text.isEmpty || !gap.isNone) &&
          (c = '#' || (column = 0 && (documentMark (c :: cs)).isSome))) ||
        (gap.crossesLine && !flow && column < least) || endsPlain flow c cs then
      some (text, ⟨c :: cs, line, column⟩, gap.crossesLine)
    else readPlain flow least (text ++ gap.text ++ [c]) Gap.none line (column + 1) cs

/-- Reads a scalar in single quotes, after the opening one. -/
def readSingle (text : List Char) (gap : Gap) (line column : Nat) :
    List Char → Option (List Char × Place)
  | [] => none
  | '\'' :: '\'' :: cs => readSingle (text ++ gap.text ++ ['\'']) Gap.none line (column + 2) cs
  | '\'' :: cs => some (text ++ gap.text, ⟨cs, line, column + 1⟩)
  | c :: cs =>
    if isBreak c then readSingle text (gap.add c) (line + 1) 0 cs
    else if isBlank c then readSingle text (gap.add c) line (column + 1) cs
    else if column = 0 && (documentMark (c :: cs)).isSome then none
    else readSingle (text ++ gap.text ++ [c]) Gap.none line (column + 1) cs

/-- The characters that have short escapes. -/
def shortEscapes : List (Char × Char) := [
  ('0', '\x00'), ('a', '\x07'), ('b', '\x08'), ('t', '\t'), ('\t', '\t'), ('n', '\n'),
  ('v', '\x0b'),
  ('f', '\x0c'), ('r', '\r'), ('e', '\x1b'), (' ', ' '), ('"', '"'), ('\'', '\''), ('/', '/'),
  ('\\', '\\'), ('N', '\u0085'), ('_', '\u00a0'), ('L', '\u2028'), ('P', '\u2029')]

/-- How many digits follow an escape by number. -/
def escapeWidth? : Char → Option Nat
  | 'x' => some 2
  | 'u' => some 4
  | 'U' => some 8
  | _ => none

/-- Reads a scalar in double quotes, after the opening one. `digits` is an escape by number under
way: how many digits are still missing and the ones read so far. -/
def readDouble (text : List Char) (gap : Gap) (digits : Option (Nat × List Char))
    (line column : Nat) : List Char → Option (List Char × Place)
  | [] => none
  | c :: cs =>
    match digits with
    | some (missing, read) =>
      if missing ≤ 1 then
        match Text.charOfHex? (read ++ [c]) with
        | some d => readDouble (text ++ [d]) Gap.none none line (column + 1) cs
        | none => none
      else readDouble text Gap.none (some (missing - 1, read ++ [c])) line (column + 1) cs
    | none =>
      if c = '"' then some (text ++ gap.text, ⟨cs, line, column + 1⟩)
      else if isBreak c then readDouble text (gap.add c) none (line + 1) 0 cs
      else if isBlank c then readDouble text (gap.add c) none line (column + 1) cs
      else if column = 0 && (documentMark (c :: cs)).isSome then none
      else if c ≠ '\\' then readDouble (text ++ gap.text ++ [c]) Gap.none none line (column + 1) cs
      else
        match cs with
        | [] => none
        | e :: cs =>
          if isBreak e then readDouble (text ++ gap.text) (.escaped []) none (line + 1) 0 cs
          else match shortEscapes.lookup e, escapeWidth? e with
            | some d, _ => readDouble (text ++ gap.text ++ [d]) Gap.none none line (column + 2) cs
            | none, some width =>
              readDouble (text ++ gap.text) Gap.none (some (width, [])) line (column + 2) cs
            | none, none => none

/-! ## The scanner -/

/-- Where an implicit key may have begun: the number of tokens before it and its place. A key is
`needed` where nothing else can stand. -/
structure KeyMark where
  index : Nat
  line : Nat
  column : Nat
  needed : Bool

/-- The state of the scanner: the columns of the open blocks, innermost first, the possible key on
every level of brackets, and whether a key can begin here. -/
structure Scanner where
  place : Place
  blocks : List Nat := []
  keys : List (Option KeyMark) := [none]
  keyAllowed : Bool := true
  tokens : List Token := []

namespace Scanner

/-- Whether the scanner is inside brackets. -/
def inFlow (s : Scanner) : Bool := 1 < s.keys.length

def emit (s : Scanner) (t : Token) : Scanner := { s with tokens := s.tokens ++ [t] }

/-- Puts a token in before the one with the given number. -/
def emitAt (s : Scanner) (index : Nat) (t : Token) : Scanner :=
  { s with tokens := s.tokens.take index ++ t :: s.tokens.drop index }

/-- Whether a possible key has been left behind: an implicit key ends on its line. -/
def isStale (s : Scanner) (k : KeyMark) : Bool := k.line < s.place.line

/-- Forgets the possible key on the present level. Fails if a key was needed there. -/
def dropKey (s : Scanner) : Option Scanner :=
  match s.keys with
  | some k :: keys => if k.needed then none else some { s with keys := none :: keys }
  | _ => some s

/-- Forgets possible keys that were left behind. -/
def dropStale (s : Scanner) : Option Scanner :=
  if s.keys.any fun k => k.any fun k => s.isStale k && k.needed then none
  else some { s with keys := s.keys.map fun k => k.filter fun k => !s.isStale k }

/-- Notes that a key may begin here. -/
def markKey (s : Scanner) : Option Scanner :=
  if s.keyAllowed then
    s.dropKey.map fun s =>
      let mark : KeyMark :=
        { index := s.tokens.length, line := s.place.line, column := s.place.column
          needed := !s.inFlow && s.blocks.head? = some s.place.column }
      { s with keys := some mark :: s.keys.tail }
  else some s

/-- Opens a block at a column, if it is further in than the present one. The token goes before the
one with the given number. -/
def openBlock (s : Scanner) (column index : Nat) (t : Token) : Scanner :=
  if !s.inFlow && s.blocks.head?.all (· < column) then
    { s.emitAt index t with blocks := column :: s.blocks }
  else s

/-- Closes the blocks that are further in than a column, for the given columns of open blocks. -/
def closeBlocks (s : Scanner) (column : Option Nat) : List Nat → Scanner
  | [] => { s with blocks := [] }
  | b :: bs =>
    if column.all (· < b) then (s.emit .blockEnd).closeBlocks column bs
    else { s with blocks := b :: bs }

/-- Closes blocks where the text is indented less than they are. -/
def unindent (s : Scanner) (column : Option Nat) : Scanner :=
  if s.inFlow then s else s.closeBlocks column s.blocks

/-- `---` or `...`. -/
def scanDocumentMark (s : Scanner) (t : Token) : Option Scanner :=
  (s.unindent none).dropKey.map fun s =>
    { s.emit t with keyAllowed := false, place := s.place.skip 3 }

/-- `[` or an opening brace. -/
def scanOpening (s : Scanner) (t : Token) : Option Scanner :=
  s.markKey.map fun s =>
    { s.emit t with keys := none :: s.keys, keyAllowed := true, place := s.place.next }

/-- `]` or a closing brace. -/
def scanClosing (s : Scanner) (t : Token) : Option Scanner :=
  s.dropKey.map fun s =>
    { s.emit t with
      keys := if s.inFlow then s.keys.tail else s.keys
      keyAllowed := false
      place := s.place.next }

/-- A comma. -/
def scanComma (s : Scanner) : Option Scanner :=
  s.dropKey.map fun s => { s.emit .flowEntry with keyAllowed := true, place := s.place.next }

/-- A dash before white space. -/
def scanDash (s : Scanner) : Option Scanner :=
  if !s.inFlow && !s.keyAllowed then none
  else
    (s.openBlock s.place.column s.tokens.length .blockSequenceStart).dropKey.map fun s =>
      { s.emit .blockEntry with keyAllowed := true, place := s.place.next }

/-- A question mark before white space: an explicit key. -/
def scanQuestion (s : Scanner) : Option Scanner :=
  if !s.inFlow && !s.keyAllowed then none
  else
    (s.openBlock s.place.column s.tokens.length .blockMappingStart).dropKey.map fun s =>
      { s.emit .key with keyAllowed := !s.inFlow, place := s.place.next }

/-- A colon: what was marked as a possible key is one. -/
def scanColon (s : Scanner) : Option Scanner :=
  match s.keys with
  | some k :: keys =>
    let s := (s.emitAt k.index .key).openBlock k.column k.index .blockMappingStart
    some { s.emit .value with keys := none :: keys, keyAllowed := false, place := s.place.next }
  | _ =>
    if !s.inFlow && !s.keyAllowed then none
    else
      let s := s.openBlock s.place.column s.tokens.length .blockMappingStart
      some { s.emit .value with keyAllowed := !s.inFlow, place := s.place.next }

/-- A scalar in quotes. -/
def scanQuoted (s : Scanner) (double : Bool) : Option Scanner := do
  let s ← s.markKey
  let p := s.place.next
  let (text, place) ← if double then readDouble [] Gap.none none p.line p.column p.rest
    else readSingle [] Gap.none p.line p.column p.rest
  pure { s.emit (.scalar (String.ofList text) true) with keyAllowed := false, place }

/-- A scalar without quotes. -/
def scanPlain (s : Scanner) : Option Scanner := do
  let s ← s.markKey
  let p := s.place
  let least := (s.blocks.head?.map (· + 1)).getD 0
  let (text, place, crossed) ← readPlain s.inFlow least [] Gap.none p.line p.column p.rest
  pure { s.emit (.scalar (String.ofList text) false) with keyAllowed := crossed, place }

/-- Characters that a plain scalar cannot start with, whatever follows. -/
def reserved : List Char :=
  [',', '[', ']', '\x7b', '\x7d', '#', '&', '*', '!', '|', '>', '\'', '"', '%', '@', '\x60']

/-- Scans the token that starts with the next character. -/
def scanToken (s : Scanner) (c : Char) (cs : List Char) : Option Scanner :=
  let mark := if s.place.column = 0 then documentMark (c :: cs) else none
  match mark with
  | some t => s.scanDocumentMark t
  | none =>
    if s.place.column = 0 && c = '%' then none
    else if c = '[' then s.scanOpening .sequenceStart
    else if c = '\x7b' then s.scanOpening .mappingStart
    else if c = ']' then s.scanClosing .sequenceEnd
    else if c = '\x7d' then s.scanClosing .mappingEnd
    else if c = ',' then s.scanComma
    else if c = '-' && gapFollows cs then s.scanDash
    else if c = '?' && (s.inFlow || gapFollows cs) then s.scanQuestion
    else if c = ':' && (s.inFlow || gapFollows cs) then s.scanColon
    else if c = '"' then s.scanQuoted true
    else if c = '\'' then s.scanQuoted false
    else if reserved.contains c || isBlank c then none
    else s.scanPlain

/-- The token list of a text that cannot be read on: tokens from a possible key on are not certain
yet and are given up too. -/
def giveUp (s : Scanner) : List Token :=
  let pending := s.keys.filterMap fun k => (k.filter fun k => !s.isStale k).map KeyMark.index
  s.tokens.take (pending.foldl min s.tokens.length) ++ [.invalid]

/-- Scans token after token. Every token takes at least one character, so as many steps as there are
characters are enough. -/
def scanAll : Nat → Scanner → List Token
  | 0, s => s.giveUp
  | steps + 1, s =>
    let tabs := s.inFlow || !s.keyAllowed
    let (place, crossed) :=
      skipGap tabs (!s.inFlow) false false s.place.line s.place.column s.place.rest
    let s := { s with place, keyAllowed := s.keyAllowed || (crossed && !s.inFlow) }
    match s.dropStale with
    | none => s.giveUp
    | some s =>
      match s.place.rest with
      | [] =>
        match (s.unindent none).dropKey with
        | none => s.giveUp
        | some s => s.tokens
      | c :: cs =>
        let s := s.unindent (some s.place.column)
        match s.scanToken c cs with
        | none => s.giveUp
        | some s => scanAll steps s

end Scanner

/-- **The tokens** of a text. -/
def tokens (text : String) : List Token :=
  let cs := match text.toList with
    | c :: cs => if c.toNat = 0xFEFF then cs else c :: cs
    | [] => []
  if cs.all isAllowed then
    let cs := normalize cs
    Scanner.scanAll (cs.length + 1) { place := ⟨cs, 0, 0⟩ }
  else [.invalid]

end TypeBounds.Yaml
