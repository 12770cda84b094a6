/-!
# Sorting by insertion

Names and ids are shown in sorted order everywhere, and the lists are short. Insertion sort is
structural, so a sorted list can be computed inside a proof. Main statements:

* `sortBy_perm`: sorting only rearranges;
* `mem_sortBy`, `length_sortBy`: the consequences used most;
* `sortBy_pairwise`: for a comparison that is total, and transitive on the list, the result is in
  order.
-/

namespace TypeBounds

variable {α : Type}

/-- Puts `x` before the first element that it may precede. -/
def insertBy (le : α → α → Bool) (x : α) : List α → List α
  | [] => [x]
  | y :: ys => if le x y then x :: y :: ys else y :: insertBy le x ys

/-- Sorts by inserting each head into the sorted tail. -/
def sortBy (le : α → α → Bool) : List α → List α
  | [] => []
  | x :: xs => insertBy le x (sortBy le xs)

/-- Strings in the order of their code points, which is the order of their UTF-8 bytes. -/
def sortNames : List String → List String :=
  sortBy fun a b => (compare a b).isLE

theorem insertBy_perm (le : α → α → Bool) (x : α) (xs : List α) :
    (insertBy le x xs).Perm (x :: xs) := by
  induction xs with
  | nil => exact List.Perm.refl _
  | cons y ys ih =>
    simp only [insertBy]
    split
    · exact List.Perm.refl _
    · exact (ih.cons y).trans (List.Perm.swap x y ys)

theorem sortBy_perm (le : α → α → Bool) (xs : List α) : (sortBy le xs).Perm xs := by
  induction xs with
  | nil => exact List.Perm.refl _
  | cons x xs ih => exact (insertBy_perm le x _).trans (ih.cons x)

@[simp] theorem mem_sortBy {le : α → α → Bool} {x : α} {xs : List α} :
    x ∈ sortBy le xs ↔ x ∈ xs :=
  (sortBy_perm le xs).mem_iff

@[simp] theorem length_sortBy (le : α → α → Bool) (xs : List α) :
    (sortBy le xs).length = xs.length :=
  (sortBy_perm le xs).length_eq

/-- The comparison goes on from element to element of the list. -/
def TransOn (le : α → α → Bool) (xs : List α) : Prop :=
  ∀ a ∈ xs, ∀ b ∈ xs, ∀ c ∈ xs, le a b → le b c → le a c

/-- Inserting keeps a list in order, as long as the comparison is total and transitive there. -/
theorem insertBy_pairwise {le : α → α → Bool} (total : ∀ a b, le a b || le b a) {x : α}
    {xs : List α} (trans : TransOn le (x :: xs)) (h : xs.Pairwise fun a b => le a b) :
    (insertBy le x xs).Pairwise fun a b => le a b := by
  induction xs with
  | nil => simp [insertBy]
  | cons y ys ih =>
    obtain ⟨hy, hys⟩ := List.pairwise_cons.1 h
    simp only [insertBy]
    split
    · rename_i hxy
      refine List.pairwise_cons.2 ⟨fun z hz => ?_, h⟩
      rcases List.mem_cons.1 hz with rfl | hz
      · exact hxy
      · exact trans x (by simp) y (by simp) z (by simp [hz]) hxy (hy z hz)
    · rename_i hxy
      have trans' : TransOn le (x :: ys) := by
        have hsub : ∀ z ∈ x :: ys, z ∈ x :: y :: ys := by
          intro z hz
          rcases List.mem_cons.1 hz with rfl | hz <;> simp [*]
        exact fun a ha b hb c hc => trans a (hsub a ha) b (hsub b hb) c (hsub c hc)
      refine List.pairwise_cons.2 ⟨fun z hz => ?_, ih trans' hys⟩
      rcases List.mem_cons.1 ((insertBy_perm le x ys).mem_iff.1 hz) with rfl | hz
      · have := total z y
        simp_all
      · exact hy z hz

theorem sortBy_pairwise {le : α → α → Bool} (total : ∀ a b, le a b || le b a) {xs : List α}
    (trans : TransOn le xs) : (sortBy le xs).Pairwise fun a b => le a b := by
  induction xs with
  | nil => exact List.Pairwise.nil
  | cons x xs ih =>
    have hmem : ∀ z ∈ x :: sortBy le xs, z ∈ x :: xs := by simp
    refine insertBy_pairwise total (fun a ha b hb c hc => ?_) (ih fun a ha b hb c hc => ?_)
    · exact trans a (hmem a ha) b (hmem b hb) c (hmem c hc)
    · exact trans a (List.mem_cons_of_mem _ ha) b (List.mem_cons_of_mem _ hb)
        c (List.mem_cons_of_mem _ hc)

end TypeBounds
