import TypeBounds.Proofs.Insertion
import TypeBounds.Proofs.Merging

/-!
# What a record resolves to

Where a record finds its type (`Bounds.resolution_cases`), and how fixing fills in the sides of a
record that are empty: with the parts of that type, or not at all (`Bounds.Fills`;
`Bounds.side_settled`, `Bounds.side_completed`, `Bounds.side_defaulted`).
-/

namespace TypeBounds

/-- Where a record finds its type: the lower bound goes before the upper bound. -/
theorem Bounds.resolution_cases (b : Bounds) :
    b.lower = [] ∧ (b.upper = [] ∧ b.resolution = .exactly .mixed ∨
      (∃ m ∈ b.upper, b.resolution = .exactly m.2) ∨ b.upper ≠ [] ∧ b.resolution = .upperBound) ∨
    b.lower ≠ [] ∧
      ((∃ m, b.lower = [m] ∧ b.resolution = .exactly m.2) ∨ b.resolution = .lowerBound) := by
  obtain ⟨lower, upper, below, above, frozen⟩ := b
  match lower, upper with
  | [], [] => exact .inl ⟨rfl, .inl ⟨rfl, rfl⟩⟩
  | [], [m] => exact .inl ⟨rfl, .inr (.inl ⟨m, List.mem_singleton_self m, rfl⟩)⟩
  | [], m :: m' :: upper => exact .inl ⟨rfl, .inr (.inr ⟨List.cons_ne_nil _ _, rfl⟩)⟩
  | [m], _ => exact .inr ⟨List.cons_ne_nil _ _, .inl ⟨m, rfl, rfl⟩⟩
  | m :: m' :: lower, _ => exact .inr ⟨List.cons_ne_nil _ _, .inr rfl⟩

/-- An upper bound that a record resolves to as a whole has several members. -/
theorem Bounds.length_of_resolution {b : Bounds} (h : b.resolution = .upperBound) :
    2 ≤ b.upper.length := by
  obtain ⟨lower, upper, below, above, frozen⟩ := b
  match lower, upper with
  | [], [] => cases h
  | [], [_] => cases h
  | [], _ :: _ :: _ => exact Nat.le_add_left 2 _
  | [_], _ => cases h
  | _ :: _ :: _, _ => cases h

/-- **What a record resolves to**, also if it is read off a later one: `mixed`, one of its members,
or a bound as a whole which had several. -/
theorem Bounds.type_of_sides {P : Ty → Prop} {b b' : Bounds} (hmixed : P .mixed)
    (hmember : ∀ side : Side, ∀ m ∈ b.side side, P m.2)
    (hbound : ∀ side : Side, 2 ≤ (b.side side).length → P (side.container (b'.side side))) :
    P (b.resolution.type b') := by
  obtain ⟨lower, upper, below, above, frozen⟩ := b
  match lower, upper with
  | [], [] => exact hmixed
  | [], [m] => exact hmember .upper m (List.mem_singleton_self m)
  | [], _ :: _ :: _ => exact hbound .upper (Nat.le_add_left 2 _)
  | [m], _ => exact hmember .lower m (List.mem_singleton_self m)
  | _ :: _ :: _, _ => exact hbound .lower (Nat.le_add_left 2 _)

theorem Bounds.resolved_congr {b b' : Bounds} (hlower : b'.lower = b.lower)
    (hupper : b'.upper = b.upper) : b'.resolved = b.resolved := by
  unfold Bounds.resolved Bounds.resolution
  rw [hlower, hupper]
  split <;> simp only [Resolution.type, hlower, hupper]

theorem Bounds.lower_settled (policy : Policy) (b : Bounds) : (b.settled policy).lower =
    if b.lower = [] then Members.ofTypes b.resolved.copy.unionParts else b.lower := by
  unfold Bounds.settled
  cases hlower : b.lower with
  | nil =>
    simp only [List.isEmpty_nil, if_true]
    split <;> rfl
  | cons m ms =>
    simp only [List.isEmpty_cons, Bool.false_eq_true, if_false, List.cons_ne_nil]
    split
    · exact hlower
    · exact hlower

theorem Bounds.upper_settled (policy : Policy) (b : Bounds) : (b.settled policy).upper =
    if policy = .overload ∧
      b.upper = [] then Members.ofTypes b.resolved.copy.interParts else b.upper := by
  unfold Bounds.settled
  cases hupper : b.upper with
  | nil =>
    simp only [List.isEmpty_nil, Bool.and_true, decide_eq_true_eq, and_true]
    split
    · rfl
    · split <;> exact hupper
  | cons m ms =>
    simp only [List.isEmpty_cons, Bool.and_false, Bool.false_eq_true, if_false,
      List.cons_ne_nil, and_false]
    split <;> exact hupper

/-- Only a side that was empty is filled in, with the parts of the type that the record resolves
to. -/
theorem Bounds.side_settled (policy : Policy) (b : Bounds) (side : Side) :
    (b.settled policy).side side = b.side side ∨
      b.side side = [] ∧
      (b.settled policy).side side = Members.ofTypes (side.parts b.resolved.copy) := by
  cases side with
  | lower =>
    simp only [Bounds.side, Bounds.lower_settled]
    split
    · rename_i hlower
      exact .inr ⟨hlower, rfl⟩
    · exact .inl rfl
  | upper =>
    simp only [Bounds.side, Bounds.upper_settled]
    split
    · rename_i hupper
      exact .inr ⟨hupper.2, rfl⟩
    · exact .inl rfl

/-- What is handed on is what the record resolved to before it was settled. -/
theorem Bounds.type_settled {policy : Policy} {b : Bounds} :
    b.resolution.type (b.settled policy) = b.resolved := by
  unfold Bounds.resolved
  rcases b.resolution_cases with
    ⟨-, ⟨-, hres⟩ | ⟨m, -, hres⟩ | ⟨hupper, hres⟩⟩ | ⟨hlower, ⟨m, -, hres⟩ | hres⟩ <;> rw [hres]
  · rfl
  · rfl
  · exact congrArg Ty.inter ((Bounds.upper_settled policy b).trans (if_neg fun h => hupper h.2))
  · rfl
  · exact congrArg Ty.union ((Bounds.lower_settled policy b).trans (if_neg hlower))

/-- The same where a variable is fixed from outside. -/
theorem Bounds.side_completed (b : Bounds) (side : Side) : b.completed.side side = b.side side ∨
    b.side side = [] ∧ b.completed.side side = Members.ofTypes (side.parts b.resolved.copy) := by
  unfold Bounds.completed
  split
  · rename_i hupper
    cases side with
    | lower => exact .inl rfl
    | upper => exact .inr ⟨hupper, rfl⟩
  · rename_i hlower _
    cases side with
    | lower => exact .inr ⟨hlower, rfl⟩
    | upper => exact .inl rfl
  · exact .inl rfl

theorem Bounds.side_defaulted (b : Bounds) (side : Side) : b.defaulted.side side = b.side side ∨
    b.side side = [] ∧ b.defaulted.side side = Members.ofTypes (side.parts b.resolved.copy) := by
  unfold Bounds.defaulted
  split
  · rename_i hlower hupper
    have hres : b.resolved = .mixed := by
      simp [Bounds.resolved, Bounds.resolution, hlower, hupper, Resolution.type]
    rw [hres]
    cases side with
    | lower => exact .inr ⟨hlower, rfl⟩
    | upper => exact .inr ⟨hupper, rfl⟩
  · exact b.side_completed side

/-- **Filling in**: a side of a record stays as it is, or it was empty and gets the parts of what
the record resolves to. -/
def Bounds.Fills (f : Bounds → Bounds) : Prop :=
  ∀ (b : Bounds) (side : Side), (f b).side side = b.side side ∨
    b.side side = [] ∧ (f b).side side = Members.ofTypes (side.parts b.resolved.copy)

/-- A record was filled in, and references may be others. -/
def Graph.FilledIn (g g' : Graph) : Prop :=
  ∃ names x f, Bounds.Fills f ∧ g' = ({ g with names } : Graph).update x f

theorem Graph.filledIn_of_fixVariable {g g' : Graph} {name : String}
    (hg : g.fixVariable name = .ok g') : g.FilledIn g' := by
  obtain ⟨r, -, rfl⟩ := fixVariable_eq_ok.1 hg
  refine ⟨_, _, _, fun b side => ?_, rfl⟩
  cases side with
  | lower => exact b.side_completed .lower
  | upper => exact b.side_completed .upper

theorem Graph.filledIn_of_fixParameter {g g' : Graph} {id : VarId}
    (hg : g.fixParameter id = .ok g') : g.FilledIn g' := by
  obtain ⟨-, rfl⟩ := fixParameter_eq_ok.1 hg
  refine ⟨_, _, _, fun b side => ?_, rfl⟩
  cases side with
  | lower => exact b.side_defaulted .lower
  | upper => exact b.side_defaulted .upper

end TypeBounds
