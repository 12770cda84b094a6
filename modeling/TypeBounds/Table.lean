/-!
# Tables keyed by name

A table keeps its entries in the order in which their keys were first entered, because that is the
order in which variables and handles are listed. Look-up is by key, and the laws that the rest of
the library uses are the `get?` lemmas.
-/

namespace TypeBounds

/-- Values under names, in order of entry. -/
structure Table (α : Type) where
  entries : List (String × α) := []

namespace Table

variable {α : Type}

instance : Inhabited (Table α) := ⟨{}⟩

/-- The names in order of entry. -/
def keys (t : Table α) : List String := t.entries.map Prod.fst

/-- The value under a name. -/
def get? (t : Table α) (key : String) : Option α := t.entries.lookup key

/-- Whether something is entered under a name. -/
def contains (t : Table α) (key : String) : Bool := (t.get? key).isSome

/-- Changes the value under a name, if there is one. -/
def modify (t : Table α) (key : String) (f : α → α) : Table α :=
  ⟨t.entries.map fun e => if e.1 = key then (e.1, f e.2) else e⟩

/-- Enters a value: in the place of the one already under that name, or else at the end. -/
def insert (t : Table α) (key : String) (value : α) : Table α :=
  if t.contains key then t.modify key fun _ => value else ⟨t.entries ++ [(key, value)]⟩

/-- Takes a name out. -/
def erase (t : Table α) (key : String) : Table α :=
  ⟨t.entries.filter fun e => e.1 ≠ key⟩

/-- Changes every value, given its name. -/
def mapValues (t : Table α) (f : String → α → α) : Table α :=
  ⟨t.entries.map fun e => (e.1, f e.1 e.2)⟩

theorem lookup_cons_ite (k k' : String) (v : α) (es : List (String × α)) :
    List.lookup k ((k', v) :: es) = if k = k' then some v else List.lookup k es := by
  by_cases h : k = k'
  · simp [h]
  · simp [List.lookup_cons, h, beq_eq_false_iff_ne.2 h]

theorem get?_modify (t : Table α) (key k : String) (f : α → α) :
    (t.modify key f).get? k = if k = key then (t.get? k).map f else t.get? k := by
  obtain ⟨es⟩ := t
  simp only [get?, modify]
  induction es with
  | nil => simp
  | cons e es ih =>
    obtain ⟨k', v⟩ := e
    simp only [List.map_cons]
    split <;> simp only [lookup_cons_ite, ih] <;> split <;> simp_all

theorem get?_insert (t : Table α) (key k : String) (value : α) :
    (t.insert key value).get? k = if k = key then some value else t.get? k := by
  unfold insert
  split
  · rename_i h
    obtain ⟨v, hv⟩ := Option.isSome_iff_exists.1 h
    rw [get?_modify]
    split <;> simp_all
  · rename_i h
    have h : t.entries.lookup key = none := Option.not_isSome_iff_eq_none.1 h
    simp only [get?, List.lookup_append, lookup_cons_ite, List.lookup_nil]
    split
    · rename_i hk
      rw [hk, h]
      rfl
    · simp

theorem get?_erase (t : Table α) (key k : String) :
    (t.erase key).get? k = if k = key then none else t.get? k := by
  obtain ⟨es⟩ := t
  simp only [get?, erase]
  induction es with
  | nil => simp
  | cons e es ih =>
    obtain ⟨k', v⟩ := e
    by_cases h : k' = key
    · simp only [h, ne_eq, not_true_eq_false, decide_false, List.filter_cons_of_neg,
        Bool.false_eq_true, not_false_eq_true, ih, lookup_cons_ite]
      split <;> simp_all
    · rw [List.filter_cons_of_pos (by simpa using h), lookup_cons_ite, lookup_cons_ite, ih]
      split <;> simp_all

theorem get?_mapValues (t : Table α) (k : String) (f : String → α → α) :
    (t.mapValues f).get? k = (t.get? k).map (f k) := by
  obtain ⟨es⟩ := t
  simp only [get?, mapValues]
  induction es with
  | nil => simp
  | cons e es ih =>
    obtain ⟨k', v⟩ := e
    simp only [List.map_cons, lookup_cons_ite, ih]
    split <;> simp_all

end Table

end TypeBounds
