import TypeBounds.Proofs.Rounds

/-!
# How far the natural order is an order

Any two ids can be compared, and only equal ones compare as equal. But ids with the same stem go by
their numbers and all others as strings, and the two do not always fit together: `V2` comes before
`V10` by its number, and `V1a` comes after `V10` and before `V2` as a string.

* `Parts`: an id stands, as a string, between two that the numbers put the other way round. Then the
  three of them go round in a circle (`Parts.circle`), and there are no other circles
  (`parts_of_circle`);
* `orders_iff_unparted`: so this is all that keeps ids from being in an order;
* `orders_of_pairwise`, `sort_eq_of_perm`: ids that have an order can be arranged in one way only,
  and ids without one in no way at all.

Main statement: `total_unless_parted`.
-/

namespace TypeBounds.Natural

variable {a b c x y z stem : String} {m n : Nat} {ids ids' : List String}

theorem isLE_of_lt (h : compare x y = .lt) : (compare x y).isLE := by
  rw [h]
  rfl

theorem not_isLE_of_lt (h : compare y x = .lt) : ¬(compare x y).isLE := by
  rw [Std.OrientedCmp.gt_of_lt h]
  exact Bool.false_ne_true

theorem lt_of_not_isLE (h : ¬(compare x y).isLE) : compare y x = .lt := by
  refine Std.OrientedCmp.lt_of_gt ?_
  simpa using h

theorem lt_of_isLE_of_ne (h : (compare x y).isLE) (hne : x ≠ y) : compare x y = .lt :=
  (Ordering.isLE_iff_eq_lt_or_eq_eq.1 h).resolve_right fun heq =>
    hne (Std.LawfulEqCmp.eq_of_compare heq)

/-! ## By number and as strings -/

theorem compare_of_stem (hx : split? x = some (stem, m)) (hy : split? y = some (stem, n)) :
    compare x y = (Ord.compare m n).then (Ord.compare x y) := by
  simp [compare, hx, hy]

theorem compare_of_other_stem (hx : split? x = some (stem, m))
    (hz : ∀ k, split? z ≠ some (stem, k)) :
    compare x z = Ord.compare x z ∧ compare z x = Ord.compare z x := by
  unfold compare
  rw [hx]
  cases hsplit : split? z with
  | none => exact ⟨rfl, rfl⟩
  | some found =>
    obtain ⟨stem', k⟩ := found
    have hne : stem ≠ stem' := by
      rintro rfl
      exact hz k hsplit
    exact ⟨if_neg hne, if_neg hne.symm⟩

/-- Only numbers can put two ids the other way round. -/
theorem numbers_of_compare_lt (h : compare x y = .lt) (hxy : ¬x < y) :
    ∃ stem m n, split? x = some (stem, m) ∧ split? y = some (stem, n) ∧ m < n := by
  have hstrings : Ord.compare x y ≠ .lt := fun hlt => hxy (compareOfLessAndEq_eq_lt.1 hlt)
  cases hx : split? x with
  | none =>
    rw [compare, hx] at h
    exact absurd h hstrings
  | some found =>
    obtain ⟨stem, m⟩ := found
    by_cases hy : ∃ n, split? y = some (stem, n)
    · obtain ⟨n, hy⟩ := hy
      rw [compare_of_stem hx hy, Ordering.then_eq_lt] at h
      have hmn : Ord.compare m n = .lt := h.resolve_right fun heq => hstrings heq.2
      exact ⟨stem, m, n, rfl, hy, Nat.compare_eq_lt.1 hmn⟩
    · rw [(compare_of_other_stem hx fun n hn => hy ⟨n, hn⟩).1] at h
      exact absurd h hstrings

/-- **Ids with one stem** are in order. -/
theorem isLE_trans_of_stem {k : Nat} (ha : split? a = some (stem, m))
    (hb : split? b = some (stem, n)) (hc : split? c = some (stem, k)) (hab : (compare a b).isLE)
    (hbc : (compare b c).isLE) : (compare a c).isLE := by
  rw [compare_of_stem ha hb, Ordering.isLE_then_iff_or] at hab
  rw [compare_of_stem hb hc, Ordering.isLE_then_iff_or] at hbc
  rw [compare_of_stem ha hc, Ordering.isLE_then_iff_or]
  simp only [Nat.compare_eq_lt, Nat.compare_eq_eq] at hab hbc ⊢
  rcases hab with hmn | ⟨hmn, hab⟩ <;> rcases hbc with hnk | ⟨hnk, hbc⟩
  · exact .inl (hmn.trans hnk)
  · exact .inl (hnk ▸ hmn)
  · exact .inl (hmn ▸ hnk)
  · exact .inr ⟨hmn.trans hnk, Std.TransCmp.isLE_trans hab hbc⟩

/-! ## Circles -/

/-- **`z` parts `x` and `y`**: by their numbers `x` comes before `y`, but as strings `z` comes after
`y` and before `x`, and `z` does not have their stem. -/
def Parts (z x y : String) : Prop :=
  ∃ stem m n, split? x = some (stem, m) ∧ split? y = some (stem, n) ∧ m < n ∧ y < z ∧ z < x ∧
    ∀ k, split? z ≠ some (stem, k)

theorem Parts.circle (h : Parts z x y) :
    compare x y = .lt ∧ compare y z = .lt ∧ compare z x = .lt := by
  obtain ⟨stem, m, n, hx, hy, hmn, hyz, hzx, hz⟩ := h
  refine ⟨?_, ?_, ?_⟩
  · rw [compare_of_stem hx hy, Nat.compare_eq_lt.2 hmn]
    rfl
  · rw [(compare_of_other_stem hy hz).1]
    exact compareOfLessAndEq_eq_lt.2 hyz
  · rw [(compare_of_other_stem hx hz).2]
    exact compareOfLessAndEq_eq_lt.2 hzx

/-- In a circle, ids that strings would put the other way round are parted by the third. -/
theorem parts_of_not_lt (hxy : compare x y = .lt) (hyz : compare y z = .lt)
    (hzx : compare z x = .lt) (h : ¬x < y) : Parts z x y := by
  obtain ⟨stem, m, n, hx, hy, hmn⟩ := numbers_of_compare_lt hxy h
  have hz : ∀ k, split? z ≠ some (stem, k) := by
    intro k hz
    exact not_isLE_of_lt hzx (isLE_trans_of_stem hx hy hz (isLE_of_lt hxy) (isLE_of_lt hyz))
  rw [(compare_of_other_stem hy hz).1] at hyz
  rw [(compare_of_other_stem hx hz).2] at hzx
  exact ⟨stem, m, n, hx, hy, hmn, compareOfLessAndEq_eq_lt.1 hyz,
    compareOfLessAndEq_eq_lt.1 hzx, hz⟩

/-- **In every circle** one of the ids parts the other two, since strings alone do not go round. -/
theorem parts_of_circle (hab : compare a b = .lt) (hbc : compare b c = .lt)
    (hca : compare c a = .lt) : Parts c a b ∨ Parts a b c ∨ Parts b c a := by
  by_cases hab' : a < b
  · by_cases hbc' : b < c
    · by_cases hca' : c < a
      · exact absurd (String.lt_trans (String.lt_trans hab' hbc') hca') (String.lt_irrefl a)
      · exact .inr (.inr (parts_of_not_lt hca hab hbc hca'))
    · exact .inr (.inl (parts_of_not_lt hbc hca hab hbc'))
  · exact .inl (parts_of_not_lt hab hbc hca hab')

/-- **Nothing else is in the way** of an order. -/
theorem orders_iff_unparted : Orders ids ↔ ∀ x ∈ ids, ∀ y ∈ ids, ∀ z ∈ ids, ¬Parts z x y := by
  constructor
  · intro h x hx y hy z hz hparts
    obtain ⟨hxy, hyz, hzx⟩ := hparts.circle
    exact not_isLE_of_lt hzx (h x hx y hy z hz (isLE_of_lt hxy) (isLE_of_lt hyz))
  · intro h a ha b hb c hc hab hbc
    by_contra hac
    -- were two of them equal, `a` and `c` would be in order
    have hab' := lt_of_isLE_of_ne hab fun heq => hac (heq ▸ hbc)
    have hbc' := lt_of_isLE_of_ne hbc fun heq => hac (heq ▸ hab)
    rcases parts_of_circle hab' hbc' (lt_of_not_isLE hac) with hparts | hparts | hparts
    · exact h a ha b hb c hc hparts
    · exact h b hb c hc a ha hparts
    · exact h c hc a ha b hb hparts

/-! ## Arrangements -/

/-- **Ids that can be arranged have an order**: of two that the order puts one way and their places
the other way, both ways are open, so they are equal. -/
theorem orders_of_pairwise (h : ids.Pairwise fun a b => (compare a b).isLE) : Orders ids := by
  intro a ha b hb c hc hab hbc
  obtain ⟨i, hi, rfl⟩ := List.getElem_of_mem ha
  obtain ⟨j, hj, rfl⟩ := List.getElem_of_mem hb
  obtain ⟨k, hk, rfl⟩ := List.getElem_of_mem hc
  have hplaces {i j : Nat} (hi : i < ids.length) (hj : j < ids.length) (hij : i ≤ j) :
      (compare ids[i] ids[j]).isLE := by
    rcases Nat.lt_or_eq_of_le hij with hij | rfl
    · exact List.pairwise_iff_getElem.1 h i j hi hj hij
    · have hself : compare ids[i] ids[i] = .eq := Std.ReflCmp.compare_self
      rw [hself]
      rfl
  rcases Nat.le_total i k with hik | hki
  · exact hplaces hi hk hik
  · rcases Nat.le_total j i with hji | hij
    · rw [← eq_of_isLE (hplaces hj hi hji) hab]
      exact hbc
    · rw [eq_of_isLE (hplaces hk hj (hki.trans hij)) hbc]
      exact hab

theorem Orders.of_perm (h : Orders ids) (hperm : ids'.Perm ids) : Orders ids' :=
  fun a ha b hb c hc => h a (hperm.subset ha) b (hperm.subset hb) c (hperm.subset hc)

theorem Orders.pairwise_sort (h : Orders ids) : (sort ids).Pairwise fun a b => (compare a b).isLE :=
  sortBy_pairwise isLE_total h

/-- **Sorted once and for all**, in whatever order the ids came. -/
theorem sort_eq_of_perm (h : Orders ids) (hperm : ids'.Perm ids) : sort ids' = sort ids := by
  have hsorted : (sort ids').Perm (sort ids) :=
    (sortBy_perm _ _).trans (hperm.trans (sortBy_perm _ _).symm)
  exact hsorted.eq_of_pairwise (fun _ _ _ _ => eq_of_isLE) (h.of_perm hperm).pairwise_sort
    h.pairwise_sort

/-- **The natural order is an order unless ids are parted.** Any two ids can be compared, in both
directions alike, and only equal ones compare as equal. Ids are in an order if and only if none of
them parts two others. Then sorting puts them into it, in whatever order they come; otherwise they
cannot be put into order at all. -/
theorem total_unless_parted (ids : List String) :
    (∀ a b, compare a b = .eq ↔ a = b) ∧ (∀ a b, compare b a = (compare a b).swap) ∧
      (Orders ids ↔ ∀ x ∈ ids, ∀ y ∈ ids, ∀ z ∈ ids, ¬Parts z x y) ∧
      (Orders ids → ∀ ids' : List String, ids'.Perm ids →
        sort ids' = sort ids ∧ (sort ids').Pairwise fun a b => (compare a b).isLE) ∧
      (¬Orders ids → ∀ ids' : List String, ids'.Perm ids →
        ¬ids'.Pairwise fun a b => (compare a b).isLE) := by
  refine ⟨fun a b => Std.LawfulEqCmp.compare_eq_iff_eq, fun a b => Std.OrientedCmp.eq_swap,
    orders_iff_unparted, fun h ids' hperm => ?_, fun h ids' hperm hpairwise => h ?_⟩
  · exact ⟨sort_eq_of_perm h hperm, (h.of_perm hperm).pairwise_sort⟩
  · exact (orders_of_pairwise hpairwise).of_perm hperm.symm

/-- Three ids that go round in a circle. What sorting makes of them depends on the order in which
they come. -/
theorem circle_of_V2 :
    (compare "V2" "V10").isLE ∧ (compare "V10" "V1a").isLE ∧ ¬(compare "V2" "V1a").isLE ∧
      sort ["V2", "V10", "V1a"] ≠ sort ["V10", "V1a", "V2"] := by
  decide

end TypeBounds.Natural
