import TypeBounds.Text.Digits
import TypeBounds.Text.Printable

/-!
# Quoted texts

A text in messages stands between double quotes. Quotes, backslashes and the usual control
characters have short escapes; other characters that are not printable are written by number, with
two, four or eight hexadecimal digits.
-/

namespace TypeBounds.Text

/-- How one character is written between quotes. -/
def escape (c : Char) : List Char :=
  if c = '"' then ['\\', '"']
  else if c = '\\' then ['\\', '\\']
  else if isPrintable c then [c]
  else if c = '\n' then ['\\', 'n']
  else if c = '\t' then ['\\', 't']
  else if c = '\r' then ['\\', 'r']
  else if c = '\x07' then ['\\', 'a']
  else if c = '\x08' then ['\\', 'b']
  else if c = '\x0c' then ['\\', 'f']
  else if c = '\x0b' then ['\\', 'v']
  else if c.toNat < 0x80 then '\\' :: 'x' :: hex 2 c.toNat
  else if c.toNat < 0x10000 then '\\' :: 'u' :: hex 4 c.toNat
  else '\\' :: 'U' :: hex 8 c.toNat

/-- **Quoting.** -/
def quote (s : String) : String :=
  "\"" ++ String.ofList (s.toList.flatMap escape) ++ "\""

/-- A character alone stands between single quotes, and those are escaped in place of the double
ones. -/
def quoteChar (c : Char) : String :=
  let inner := if c = '\'' then ['\\', '\''] else if c = '"' then [c] else escape c
  "'" ++ String.ofList inner ++ "'"

end TypeBounds.Text
