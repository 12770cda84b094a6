import TypeBounds.Proofs.Along

/-!
# Loops that nothing limits

As long as something is left to do it is done, and then one looks again: `Iterates` is such a loop,
with the rounds that it makes, and there is one way only that it can go (`Iterates.unique`). It ends
if a number gets smaller in each round (`Variant.iterates`, `Iterates.length_le`). A loop that is
defined with a limit on its rounds leaves the same, if that limit is not below their number
(`Limits.eq`).
-/

namespace TypeBounds

open Infer

/-- How a computation came out, and what it left. -/
abbrev Ending := Except Contradiction Unit × Progress

/-- A round of a loop: where it started, what was to be done, and how that ended. -/
structure Round (ι : Type) where
  before : Progress
  work : ι
  ending : Ending

section

variable {α ι : Type} {next : α → Graph → Option (ι × α)} {body : ι → Infer Unit}

/-- **A loop.** As long as `next` finds work, the body does it, and the loop goes on with what the
body leaves and `next` has noted. It ends where no work is found, or where the body fails. -/
inductive Iterates (next : α → Graph → Option (ι × α)) (body : ι → Infer Unit) :
    α → Progress → List (Round ι) → Ending → Prop where
  | done {a : α} {s : Progress} (hnext : next a s.graph = none) :
      Iterates next body a s [] (.ok (), s)
  | fails {a a' : α} {s s' : Progress} {i : ι} {e : Contradiction}
      (hnext : next a s.graph = some (i, a')) (hbody : body i s = (.error e, s')) :
      Iterates next body a s [⟨s, i, (.error e, s')⟩] (.error e, s')
  | goesOn {a a' : α} {s s₁ : Progress} {i : ι} {rounds : List (Round ι)} {r : Ending}
      (hnext : next a s.graph = some (i, a')) (hbody : body i s = (.ok (), s₁))
      (hrest : Iterates next body a' s₁ rounds r) :
      Iterates next body a s (⟨s, i, (.ok (), s₁)⟩ :: rounds) r

variable {a a' : α} {s s' : Progress} {i : ι} {rounds rounds' : List (Round ι)} {r r' : Ending}

/-- A loop goes one way only. -/
theorem Iterates.unique (h : Iterates next body a s rounds r)
    (h' : Iterates next body a s rounds' r') : rounds' = rounds ∧ r' = r := by
  induction h generalizing rounds' with
  | done hnext => cases h' <;> simp_all
  | fails hnext hbody => cases h' <;> simp_all
  | goesOn hnext hbody _ ih =>
    cases h' with
    | goesOn hnext' hbody' hrest' =>
      cases hnext.symm.trans hnext'
      cases hbody.symm.trans hbody'
      obtain ⟨hrounds, hr⟩ := ih hrest'
      exact ⟨congrArg _ hrounds, hr⟩
    | _ => simp_all

/-- The first round starts where the loop does. -/
theorem Iterates.before_head (h : Iterates next body a s rounds r) :
    ∀ m ∈ rounds.head?, m.before = s := by
  cases h <;> simp

/-- **A variant.** As long as `I` holds, work is found only if the number is not zero, and the
number is smaller once that work is done. -/
structure Variant (next : α → Graph → Option (ι × α)) (body : ι → Infer Unit) (I : α → Graph → Prop)
    (μ : α → Graph → Nat) : Prop where
  pos : ∀ {a g i a'}, I a g → next a g = some (i, a') → 0 < μ a g
  step : ∀ {a s i a' s'}, I a s.graph → next a s.graph = some (i, a') → body i s = (.ok (), s') →
    I a' s'.graph ∧ μ a' s'.graph < μ a s.graph

variable {I : α → Graph → Prop} {μ : α → Graph → Nat}

/-- **A loop with a variant ends.** -/
theorem Variant.iterates (hv : Variant next body I μ) (h : I a s.graph) :
    ∃ rounds r, Iterates next body a s rounds r := by
  induction hn : μ a s.graph using Nat.strongRecOn generalizing a s with
  | ind n ih =>
    cases hnext : next a s.graph with
    | none => exact ⟨[], _, .done hnext⟩
    | some found =>
      obtain ⟨i, a'⟩ := found
      rcases hbody : body i s with ⟨e | u, s₁⟩
      · exact ⟨_, _, .fails hnext hbody⟩
      · obtain ⟨h₁, hless⟩ := hv.step h hnext hbody
        obtain ⟨rounds, r, hrest⟩ := ih _ (hn ▸ hless) h₁ rfl
        exact ⟨_, r, .goesOn hnext hbody hrest⟩

/-- It makes no more rounds than the number says. -/
theorem Iterates.length_le (hv : Variant next body I μ) (hrun : Iterates next body a s rounds r)
    (h : I a s.graph) : rounds.length ≤ μ a s.graph := by
  induction hrun with
  | done => exact Nat.zero_le _
  | fails hnext => exact hv.pos h hnext
  | goesOn hnext hbody _ ih =>
    obtain ⟨h₁, hless⟩ := hv.step h hnext hbody
    exact Nat.le_trans (Nat.succ_le_succ (ih h₁)) hless

/-- In every round `I` holds at the start, and what is found there is done. -/
theorem Iterates.forall_rounds (hv : Variant next body I μ) (hrun : Iterates next body a s rounds r)
    (h : I a s.graph) :
    ∀ m ∈ rounds, ∃ a a', I a m.before.graph ∧ next a m.before.graph = some (m.work, a') ∧
      body m.work m.before = m.ending := by
  induction hrun with
  | done => exact fun m hm => (List.not_mem_nil hm).elim
  | fails hnext hbody =>
    intro m hm
    obtain rfl := List.mem_singleton.1 hm
    exact ⟨_, _, h, hnext, hbody⟩
  | goesOn hnext hbody _ ih =>
    intro m hm
    rcases List.mem_cons.1 hm with rfl | hm
    · exact ⟨_, _, h, hnext, hbody⟩
    · exact ih (hv.step h hnext hbody).1 m hm

/-- A loop that came to its end has left nothing to do. -/
theorem Iterates.end_of_ok (hv : Variant next body I μ)
    (hrun : Iterates next body a s rounds (.ok (), s')) (h : I a s.graph) :
    ∃ a', I a' s'.graph ∧ next a' s'.graph = none := by
  generalize hr : (Except.ok (), s') = r at hrun
  induction hrun with
  | done hnext =>
    cases hr
    exact ⟨_, h, hnext⟩
  | fails => cases hr
  | goesOn hnext hbody _ ih => exact ih (hv.step h hnext hbody).1 hr

/-- **A loop with a limit** on its rounds. -/
structure Limits (limited : Nat → α → Infer Unit) (next : α → Graph → Option (ι × α))
    (body : ι → Infer Unit) : Prop where
  zero : ∀ a s, limited 0 a s = (.ok (), s)
  none : ∀ n {a s}, next a s.graph = none → limited (n + 1) a s = (.ok (), s)
  some : ∀ n {a s i a'}, next a s.graph = some (i, a') →
    limited (n + 1) a s = (body i >>= fun _ => limited n a') s

/-- A limit that is not below the number of rounds is not felt. -/
theorem Limits.eq {limited : Nat → α → Infer Unit} (hl : Limits limited next body)
    (hrun : Iterates next body a s rounds r) {limit : Nat} (hlimit : rounds.length ≤ limit) :
    limited limit a s = r := by
  induction hrun generalizing limit with
  | done hnext =>
    cases limit with
    | zero => exact hl.zero _ _
    | succ n => exact hl.none n hnext
  | fails hnext hbody =>
    obtain ⟨n, rfl⟩ := Nat.exists_eq_add_one.2 hlimit
    rw [hl.some n hnext, bind_apply, hbody]
  | goesOn hnext hbody _ ih =>
    obtain ⟨n, rfl⟩ := Nat.exists_eq_add_one.2 (Nat.zero_lt_of_lt hlimit)
    rw [hl.some n hnext, bind_apply, hbody]
    exact ih (Nat.le_of_succ_le_succ hlimit)

end

end TypeBounds
