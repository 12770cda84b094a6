import TypeBounds.Text.Digits

/-!
# Whole numbers as they are written in programs

A sign, then digits. `0x`, `0o` and `0b` or just a leading zero choose the base, underscores may
divide the digits, and the value must fit into 64 bits.
-/

namespace TypeBounds.Text

/-- Why a text is no number. -/
inductive NumberFault where
  | malformed
  | outOfRange
  deriving DecidableEq

def NumberFault.message : NumberFault → String
  | malformed => "invalid syntax"
  | outOfRange => "value out of range"

/-- The base that the first characters of a number choose, whether they are a mark of their own, and
what follows them. -/
def baseMark (cs : List Char) : Nat × Bool × List Char :=
  match cs with
  | '0' :: mark :: c :: cs =>
    match mark.toLower with
    | 'x' => (16, true, c :: cs)
    | 'o' => (8, true, c :: cs)
    | 'b' => (2, true, c :: cs)
    | _ => (8, false, '0' :: mark :: c :: cs)
  | '0' :: cs => (8, false, '0' :: cs)
  | cs => (10, false, cs)

/-- The value of digits, from a value of the digits before them. It stops where the number gets too
large, whatever follows. -/
def magnitude (base n : Nat) : List Char → Except NumberFault Nat
  | [] => .ok n
  | '_' :: cs => magnitude base n cs
  | c :: cs =>
    match (hexDigit? c).filter (· < base) with
    | none => .error .malformed
    | some d =>
      if 0x10000000000000000 ≤ base * n + d then .error .outOfRange
      else magnitude base (base * n + d) cs

/-- A number without a sign. -/
def natural (cs : List Char) : Except NumberFault Nat := do
  let (base, marked, ds) := baseMark cs
  let n ← magnitude base 0 ds
  if ds.isEmpty || (ds.contains '_' && !underscoresFit marked ds) then .error .malformed else .ok n

/-- **The value of a number.** -/
def integer (text : String) : Except NumberFault Int :=
  let (negative, cs) := match text.toList with
    | '-' :: cs => (true, cs)
    | '+' :: cs => (false, cs)
    | cs => (false, cs)
  match natural cs with
  | .error e => .error e
  | .ok n =>
    if negative then if 0x8000000000000000 < n then .error .outOfRange else .ok (-n)
    else if 0x8000000000000000 ≤ n then .error .outOfRange else .ok n

end TypeBounds.Text
