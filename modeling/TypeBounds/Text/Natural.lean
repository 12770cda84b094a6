import TypeBounds.Sorting

/-!
# The natural order of ids

Ids that end in a number and agree before it are ordered by that number, so `V2` comes before
`V10`. Everything else falls back on the order of strings. A number too large for 64 bits does not
count as one.
-/

namespace TypeBounds.Natural

/-- The value of a run of decimal digits. -/
def decimal (digits : List Char) : Nat :=
  digits.foldl (fun n d => 10 * n + (d.toNat - '0'.toNat)) 0

/-- **The stem and the number of an id.** `none` when the id does not end in a digit, or when the
number does not fit into 64 bits. -/
def split? (id : String) : Option (String × Nat) :=
  let backwards := id.toList.reverse
  let digits := (backwards.takeWhile Char.isDigit).reverse
  let number := decimal digits
  if digits.isEmpty || 0x10000000000000000 ≤ number then none
  else some (String.ofList (backwards.dropWhile Char.isDigit).reverse, number)

/-- Compares by number where the stems agree, and as strings otherwise; equal numbers (`V1` and
`V01`) are told apart as strings too. -/
def compare (a b : String) : Ordering :=
  match split? a, split? b with
  | some (stem, m), some (stem', n) =>
    if stem = stem' then (Ord.compare m n).then (Ord.compare a b) else Ord.compare a b
  | _, _ => Ord.compare a b

/-- A list of ids in natural order. -/
def sort : List String → List String :=
  sortBy fun a b => (compare a b).isLE

@[simp] theorem mem_sort {x : String} {xs : List String} : x ∈ sort xs ↔ x ∈ xs :=
  mem_sortBy

/-- The distinct elements of a list in natural order. -/
def sortedSet (xs : List String) : List String :=
  sort xs.eraseDups

end TypeBounds.Natural
