/-!
# Digits, numbers in a base, and characters by number
-/

namespace TypeBounds.Text

/-- A number in hexadecimal, with leading zeros up to the given width. -/
def hex (width n : Nat) : List Char :=
  let digits := Nat.toDigits 16 n
  List.replicate (width - digits.length) '0' ++ digits

/-- The value of a hexadecimal digit. -/
def hexDigit? (c : Char) : Option Nat :=
  if c.isDigit then some (c.toNat - '0'.toNat)
  else if 'a' ≤ c && c ≤ 'f' then some (c.toNat - 'a'.toNat + 10)
  else if 'A' ≤ c && c ≤ 'F' then some (c.toNat - 'A'.toNat + 10)
  else none

/-- The value of digits in a base up to sixteen. -/
def digits? (base : Nat) (cs : List Char) : Option Nat :=
  cs.foldlM (fun n c => ((hexDigit? c).filter (· < base)).map (base * n + ·)) 0

/-- Whether underscores stand between digits only; `after` says whether a digit comes right
before. -/
def underscoresFit (after : Bool) : List Char → Bool
  | [] => after
  | c :: cs => (c ≠ '_' || after) && underscoresFit (c ≠ '_') cs

/-- The character with a given number, if there is one. -/
def charOf? (n : Nat) : Option Char :=
  if n < 0xD800 || (0xE000 ≤ n && n < 0x110000) then some (Char.ofNat n) else none

/-- The character with a number in hexadecimal, if there is one. -/
def charOfHex? (cs : List Char) : Option Char := (digits? 16 cs).bind charOf?

end TypeBounds.Text
