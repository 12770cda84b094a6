import Mathlib.Data.List.Dedup
import Mathlib.Data.List.Nodup
import Mathlib.Data.List.TakeWhile
import Mathlib.Logic.Relation
import TypeBounds.Reachable

/-!
# What the search finds

`reachable nodes next starts` is meant to list what paths inside `nodes` lead to. This module proves
it (`mem_reachable`):

* `avoiding`: a path that does not end at `n` either never meets `n`, or its last part starts right
  behind `n` and does not meet it again. This is what lets the search forget a node once visited;
* `mem_explore`, `mem_reachable`: the search finds exactly the ends of paths.

Nodes may be listed more than once; `nodup_eraseDups` and `eraseDups_of_nodup` are about dropping
repetitions.
-/

namespace TypeBounds

open Relation

variable {α : Type}

/-- One step of a path that stays inside `nodes`. -/
def Hop (nodes : List α) (next : α → List α) (a b : α) : Prop :=
  b ∈ next a ∧ b ∈ nodes

/-- A path inside `nodes`. -/
abbrev Path (nodes : List α) (next : α → List α) : α → α → Prop :=
  ReflTransGen (Hop nodes next)

variable {nodes stack : List α} {next : α → List α} {a b n x : α}

theorem Path.mono {nodes' : List α} (h : nodes ⊆ nodes') (hp : Path nodes next a b) :
    Path nodes' next a b :=
  hp.lift id fun _ _ hop => ⟨hop.1, h hop.2⟩

theorem Path.mem (hp : Path nodes next a b) (ha : a ∈ nodes) : b ∈ nodes := by
  induction hp with
  | refl => exact ha
  | tail _ hop _ => exact hop.2

variable [BEq α] [LawfulBEq α]

/-- **Avoiding a node.** What follows the last visit of `n` is a path that avoids it. -/
theorem Path.avoiding (hn : nodes.Nodup) (hp : Path nodes next a x) (hx : x ≠ n) :
    a ≠ n ∧ Path (nodes.erase n) next a x ∨
      ∃ y ∈ next n, y ∈ nodes.erase n ∧ Path (nodes.erase n) next y x := by
  induction hp with
  | refl => exact .inl ⟨hx, .refl⟩
  | @tail b c _ hop ih =>
    have hc : c ∈ nodes.erase n := (hn.mem_erase_iff).2 ⟨hx, hop.2⟩
    by_cases hb : b = n
    · exact .inr ⟨c, hb ▸ hop.1, hc, .refl⟩
    · rcases ih hb with ⟨ha, hp⟩ | ⟨y, hy, hyn, hp⟩
      · exact .inl ⟨ha, hp.tail ⟨hop.1, hc⟩⟩
      · exact .inr ⟨y, hy, hyn, hp.tail ⟨hop.1, hc⟩⟩

theorem dropWhile_unvisited {rest : List α}
    (h : (stack.dropWhile fun n => !nodes.contains n) = n :: rest) :
    n ∈ nodes ∧ n ∈ stack ∧ (∀ y ∈ rest, y ∈ stack) ∧ ∀ y ∈ stack, y ∈ nodes → y = n ∨
      y ∈ rest := by
  induction stack with
  | nil => cases h
  | cons z stack ih =>
    by_cases hz : z ∈ nodes
    · rw [List.dropWhile_cons_of_neg (by simpa using hz)] at h
      cases h
      exact ⟨hz, by simp, by simp +contextual, by simp +contextual⟩
    · rw [List.dropWhile_cons_of_pos (by simpa using hz)] at h
      obtain ⟨hn, hs, hr, hcover⟩ := ih h
      refine ⟨hn, List.mem_cons_of_mem _ hs, fun y hy => List.mem_cons_of_mem _ (hr y hy), ?_⟩
      rintro y (_ | ⟨_, hy⟩) hyn
      · exact absurd hyn hz
      · exact hcover y hy hyn

theorem dropWhile_unvisited_nil (h : (stack.dropWhile fun n => !nodes.contains n) = []) :
    ∀ y ∈ stack, y ∉ nodes := by
  intro y hy
  simpa using List.dropWhile_eq_nil_iff.1 h y hy

/-- **The search** finds what paths lead to from the stack, as long as there are enough visits left
for all unvisited nodes. -/
theorem mem_explore {count : Nat} (hn : nodes.Nodup) (hc : nodes.length ≤ count) :
    x ∈ explore next count nodes stack ↔ ∃ a ∈ stack, a ∈ nodes ∧ Path nodes next a x := by
  induction count generalizing nodes stack with
  | zero =>
    obtain rfl : nodes = [] := List.length_eq_zero_iff.1 (by omega)
    simp [explore]
  | succ count ih =>
    rw [explore]
    split
    · rename_i hnil
      have hnone := dropWhile_unvisited_nil hnil
      simp only [List.not_mem_nil, false_iff]
      rintro ⟨a, ha, han, -⟩
      exact hnone a ha han
    · rename_i n rest hcons
      obtain ⟨hmem, hstack, hrest, hcover⟩ := dropWhile_unvisited hcons
      have hlen : (nodes.erase n).length ≤ count := by
        rw [List.length_erase_of_mem hmem]
        omega
      rw [List.mem_cons, ih (hn.erase n) hlen]
      constructor
      · rintro (rfl | ⟨a, ha, han, hp⟩)
        · exact ⟨x, hstack, hmem, .refl⟩
        · have hp : Path nodes next a x := hp.mono List.erase_subset
          rcases List.mem_append.1 ha with ha | ha
          · exact ⟨n, hstack, hmem, .head ⟨ha, List.mem_of_mem_erase han⟩ hp⟩
          · exact ⟨a, hrest a ha, List.mem_of_mem_erase han, hp⟩
      · rintro ⟨a, ha, han, hp⟩
        by_cases hx : x = n
        · exact .inl hx
        · refine .inr ?_
          rcases hp.avoiding hn hx with ⟨hne, hp⟩ | ⟨y, hy, hyn, hp⟩
          · refine ⟨a, List.mem_append_right _ ?_, hn.mem_erase_iff.2 ⟨hne, han⟩, hp⟩
            exact (hcover a ha han).resolve_left hne
          · exact ⟨y, List.mem_append_left _ hy, hyn, hp⟩

/-- The search lists no node twice: a node is taken off the unvisited ones when it is visited. -/
theorem nodup_explore {count : Nat} (hn : nodes.Nodup) (hc : nodes.length ≤ count) :
    (explore next count nodes stack).Nodup := by
  induction count generalizing nodes stack with
  | zero => exact List.nodup_nil
  | succ count ih =>
    rw [explore]
    split
    · exact List.nodup_nil
    · rename_i n rest hcons
      obtain ⟨hmem, -⟩ := dropWhile_unvisited hcons
      have hlen : (nodes.erase n).length ≤ count := by
        rw [List.length_erase_of_mem hmem]
        omega
      refine List.nodup_cons.2 ⟨fun hmem => ?_, ih (hn.erase n) hlen⟩
      obtain ⟨a, -, ha, hp⟩ := (mem_explore (hn.erase n) hlen).1 hmem
      exact hn.not_mem_erase (hp.mem ha)

theorem mem_reachable (hn : nodes.Nodup) {starts : List α} :
    x ∈ reachable nodes next starts ↔ ∃ a ∈ starts, a ∈ nodes ∧ Path nodes next a x :=
  mem_explore hn (Nat.le_refl _)

/-! ## Repetitions -/

theorem nodup_eraseDups (xs : List α) : xs.eraseDups.Nodup := by
  induction h : xs.length using Nat.strongRecOn generalizing xs with
  | _ _ ih =>
    cases xs with
    | nil => simp
    | cons x xs =>
      rw [List.eraseDups_cons, List.nodup_cons]
      have hlen : (xs.filter fun y => !y == x).length < (x :: xs).length :=
        Nat.lt_succ_of_le (List.length_filter_le _ _)
      exact ⟨by simp [List.mem_eraseDups], ih _ (h ▸ hlen) _ rfl⟩

theorem eraseDups_of_nodup {xs : List α} (h : xs.Nodup) : xs.eraseDups = xs := by
  induction xs with
  | nil => rfl
  | cons x xs ih =>
    obtain ⟨hx, hxs⟩ := List.nodup_cons.1 h
    rw [List.eraseDups_cons, List.filter_eq_self.2, ih hxs]
    intro y hy
    have hne : y ≠ x := fun hyx => hx (hyx ▸ hy)
    simpa using hne

end TypeBounds
