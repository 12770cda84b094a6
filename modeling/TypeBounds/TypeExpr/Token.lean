import TypeBounds.Text.Blank

/-!
# The tokens of type expressions

Identifiers and the four signs `|`, `&`, `(` and `)`, with gaps between them. Any other character
makes the whole text unreadable.
-/

namespace TypeBounds.TypeExpr

inductive Token where
  | word (name : String)
  | bar
  | amp
  | opening
  | closing
  deriving DecidableEq, Inhabited

namespace Token

/-- Characters an identifier can start with. -/
def startsWord (c : Char) : Bool := c.isAlpha || c = '_' || c = '$'

/-- Characters an identifier can go on with. -/
def continuesWord (c : Char) : Bool := startsWord c || c.isDigit

/-- The token that a sign stands for. -/
def ofSign? : Char → Option Token
  | '|' => some bar
  | '&' => some amp
  | '(' => some opening
  | ')' => some closing
  | _ => none

/-- The token of the identifier read so far, if there is one. -/
def ofWord (letters : List Char) : List Token :=
  if letters.isEmpty then [] else [word (String.ofList letters)]

/-- Reads the characters one by one; `letters` is the identifier read so far. -/
def scanFrom (letters : List Char) : List Char → Option (List Token)
  | [] => some (ofWord letters)
  | c :: cs =>
    if startsWord c || (continuesWord c && !letters.isEmpty) then scanFrom (letters ++ [c]) cs
    else if Text.isGap c then (scanFrom [] cs).map (ofWord letters ++ ·)
    else match ofSign? c with
      | none => none
      | some sign => (scanFrom [] cs).map (ofWord letters ++ sign :: ·)

/-- **The tokens** of a text, or `none` if some character belongs to no token. -/
def scan (cs : List Char) : Option (List Token) := scanFrom [] cs

end Token

end TypeBounds.TypeExpr
