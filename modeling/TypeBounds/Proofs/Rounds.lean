import TypeBounds.Proofs.Freezing
import TypeBounds.Proofs.Generalized

/-!
# The order of fixing

What can be fixed is fixed in rounds, and within a round in natural order. For one edge, from `low`
up to `high`, a run of fixings is in one of two states:

* `Graph.Linked`: the edge is still there, and neither end was fixed;
* `Graph.Handed`: `low` was fixed, and `high` covers what it resolves to.

If `high` can be fixed then so can `low`, and as long as the natural order puts `low` first, `high`
is never fixed before it (`forM_freeze_ok`, `freezeRounds_ok`).
-/

namespace TypeBounds

open Infer Relation

/-! ## The natural order -/

namespace Natural

instance : Std.OrientedCmp compare where
  eq_swap {a b} := by
    have hstrings : Ord.compare a b = (Ord.compare b a).swap := Std.OrientedCmp.eq_swap
    unfold compare
    rcases split? a with _ | ⟨stem, m⟩ <;> rcases split? b with _ | ⟨stem',
      n⟩ <;> try exact hstrings
    by_cases hstem : stem = stem'
    · have hnumbers : Ord.compare m n = (Ord.compare n m).swap := Std.OrientedCmp.eq_swap
      simp only [hstem, if_true, Ordering.swap_then, hstrings, hnumbers]
    · simp only [hstem, Ne.symm hstem, if_false, hstrings]

instance : Std.LawfulEqCmp compare where
  eq_of_compare {a b} h := by
    have hstrings (h : Ord.compare a b = .eq) : a = b := Std.LawfulEqCmp.eq_of_compare h
    unfold compare at h
    split at h
    · split at h
      · exact hstrings (Ordering.then_eq_eq.1 h).2
      · exact hstrings h
    · exact hstrings h

theorem isLE_total (a b : String) : (compare a b).isLE || (compare b a).isLE := by
  have hswap : compare b a = (compare a b).swap := Std.OrientedCmp.eq_swap
  rw [hswap]
  cases compare a b <;> rfl

theorem eq_of_isLE {a b : String} (hab : (compare a b).isLE) (hba : (compare b a).isLE) : a = b :=
  Std.LawfulEqCmp.eq_of_compare (Std.OrientedCmp.isLE_antisymm hab hba)

/-- The natural order is an order on the given ids. -/
def Orders (ids : List String) : Prop := TransOn (fun a b => (compare a b).isLE) ids

instance (ids : List String) : Decidable (Orders ids) :=
  inferInstanceAs (Decidable (∀ a ∈ ids, ∀ b ∈ ids, ∀ c ∈ ids,
    (compare a b).isLE → (compare b c).isLE → (compare a c).isLE))

end Natural

namespace Graph

variable {u : Universe} {F : VarId → VarId → Prop} {g g' : Graph} {id low high x y : VarId}
  {params done : List VarId}

/-! ## Before and after -/

/-- **Before `low` is fixed**: the edge is there, neither end was fixed, and all edges are within
`F`. -/
structure Linked (F : VarId → VarId → Prop) (low high : VarId) (g : Graph) : Prop where
  edge : low ∈ (g.boundsOf high).below
  within : ∀ x y, x ∈ (g.boundsOf y).below → F x y
  low_open : g.isFrozen low = false
  high_open : g.isFrozen high = false

/-- **After `low` was fixed**: it is alone, and `high` covers what it resolves to. -/
structure Handed (u : Universe) (low high : VarId) (g : Graph) : Prop where
  secluded : g.Secluded low
  entails : ∀ p ∈ (g.boundsOf low).resolved.unionParts, g.Entails (Settled u) .lower high p

/-- Only the references to one variable are fixed with it. -/
theorem isPinned_of_names_pin (hnames : g'.names = (g.pin id).names) (hx : x ≠ id) :
    g'.isPinned x = g.isPinned x := by
  unfold isPinned
  rw [hnames, pin, Table.mapValues, List.any_map]
  refine List.any_congr rfl fun e => ?_
  by_cases he : e.2.id = id
  · simp [he, Ne.symm hx]
  · simp [he]

theorem Frozen.isFrozen (h : Frozen u id g g') (hx : x ≠ id) : g'.isFrozen x = g.isFrozen x := by
  rw [isFrozen_eq, isFrozen_eq, h.frozen x hx, isPinned_of_names_pin h.names hx]

/-- Fixing another variable leaves the edge alone. -/
theorem Linked.frozen (h : g.Linked F low high) (hfrozen : Frozen u id g g') (hlow : low ≠ id)
    (hhigh : high ≠ id) : g'.Linked F low high where
  edge := (hfrozen.edges low high).2 ⟨h.edge, hlow, hhigh⟩
  within x y hxy := h.within x y ((hfrozen.edges x y).1 hxy).1
  low_open := (hfrozen.isFrozen hlow).trans h.low_open
  high_open := (hfrozen.isFrozen hhigh).trans h.high_open

/-- Fixing `low` hands its type on. -/
theorem Linked.handed (h : g.Linked F low high) (hwf : g.WellFormed) (hfrozen : Frozen u low g g') :
    g'.Handed u low high where
  secluded := hfrozen.standing.wellFormed.secluded fun x =>
    ⟨fun hx => ((hfrozen.edges x low).1 hx).2.2 rfl, fun hx => ((hfrozen.edges low x).1 hx).2.1 rfl⟩
  entails := hfrozen.handed high ((hwf.mirrored low high).1 h.edge)

/-- What was handed on stays, whatever else is fixed. -/
theorem Handed.frozen (h : g.Handed u low high) (hwf : g.WellFormed) (hfrozen : Frozen u id g g')
    (hlow : low ≠ id) : g'.Handed u low high where
  secluded := by
    have hnone := hwf.not_mem_of_secluded h.secluded
    exact hfrozen.standing.wellFormed.secluded fun x =>
      ⟨fun hx => (hnone x).1 ((hfrozen.edges x low).1 hx).1,
        fun hx => (hnone x).2 ((hfrozen.edges low x).1 hx).1⟩
  entails p hp := by
    have hsame := hfrozen.secluded low hlow h.secluded
    rw [Bounds.resolved_congr (hsame .lower) (hsame .upper)] at hp
    exact hfrozen.entails high p (h.entails p hp)

/-! ## What can be fixed -/

/-- A path downwards is within every preorder that the edges are within. -/
theorem flow_of_path [IsPreorder VarId F] (hF : ∀ x y, x ∈ (g.boundsOf y).below → F x y)
    (h : Path g.ids (fun x => (g.boundsOf x).below) x y) : F y x := by
  induction h with
  | refl => exact refl_of F x
  | tail _ hop ih => exact trans_of F (hF _ _ hop.1) ih

/-- **If `high` can be fixed then so can `low`**, as long as nothing flows back: what flows into
`low` flows into `high`. -/
theorem Linked.isFixable [IsPreorder VarId F] (h : g.Linked F low high) (hwf : g.WellFormed)
    (hback : ¬F high low) (hhigh : g.isFixable params high) : g.isFixable params low := by
  have hlow : low ∈ g.ids := hwf.mem_ids_of_mem_below h.edge
  have hids : high ∈ g.ids := mem_ids_of_mem_below_of h.edge
  have hne : low ≠ high := by
    rintro rfl
    exact hback (refl_of F low)
  have hnone : ¬g.reachesParameter params high := by
    intro hreaches
    simp [Graph.isFixable, h.high_open, hreaches] at hhigh
  rw [reachesParameter_iff hwf hids] at hnone
  have hhop : Path g.ids (fun x => (g.boundsOf x).below) high low := .single ⟨h.edge, hlow⟩
  have hparam : low ∉ params := fun hmem => hnone ⟨low, hmem, hne, hhop⟩
  have hclear : ¬g.reachesParameter params low := by
    rw [reachesParameter_iff hwf hlow]
    rintro ⟨x, hx, -, hpath⟩
    by_cases hxhigh : x = high
    · rw [hxhigh] at hpath
      exact hback (flow_of_path h.within hpath)
    · exact hnone ⟨x, hx, hxhigh, hhop.trans hpath⟩
  simp [Graph.isFixable, hparam, hclear]

theorem pairwise_fixable (h : Natural.Orders g.ids) :
    (g.fixable params done).Pairwise fun a b => (Natural.compare a b).isLE :=
  (sortBy_pairwise Natural.isLE_total h).filter _

end Graph

/-! ## Rounds -/

section

open TypeBounds.Graph

variable {u : Universe} {F : VarId → VarId → Prop} {low high : VarId} {xs params done : List VarId}
  {s s' : Progress}

/-- **One round**, or the rest of it: what was handed on stays; and if `low` comes before `high`,
the edge stays or its type is handed on. -/
theorem forM_freeze_ok (hu : u.Legible) (hle : (Natural.compare low high).isLE) (hne : low ≠ high)
    (h : s.graph.Standing u) (hids : ∀ x ∈ xs, x ∈ s.graph.ids) (hnodup : xs.Nodup)
    (hsorted : xs.Pairwise fun a b => (Natural.compare a b).isLE)
    (hrun : xs.forM freeze s = (.ok (), s')) : s'.graph.Standing u ∧ s'.graph.ids = s.graph.ids ∧
      (s.graph.Handed u low high → low ∉ xs → s'.graph.Handed u low high) ∧
      (s.graph.Linked F low high → (high ∈ xs → low ∈ xs) →
        s'.graph.Linked F low high ∧ low ∉ xs ∨ s'.graph.Handed u low high ∧ low ∈ xs) := by
  induction xs generalizing s with
  | nil =>
    obtain ⟨-, rfl⟩ := pure_eq_ok.1 hrun
    exact ⟨h, rfl, fun hhanded _ => hhanded, fun hlinked _ => .inl ⟨hlinked, List.not_mem_nil⟩⟩
  | cons x xs ih =>
    replace hrun : (freeze x >>= fun _ => xs.forM freeze) s = (.ok (), s') := hrun
    obtain ⟨_, s₁, hfirst, hrun⟩ := bind_eq_ok.1 hrun
    have hfrozen := freeze_ok hu h (hids x (List.mem_cons_self ..)) hfirst
    obtain ⟨hx, hnodup⟩ := List.nodup_cons.1 hnodup
    obtain ⟨hbefore, hsorted⟩ := List.pairwise_cons.1 hsorted
    have hrest : ∀ y ∈ xs, y ∈ s₁.graph.ids := by
      intro y hy
      rw [hfrozen.ids]
      exact hids y (List.mem_cons_of_mem _ hy)
    obtain ⟨hstanding, hsame, hkept, hlater⟩ := ih hfrozen.standing hrest hnodup hsorted hrun
    refine ⟨hstanding, hsame.trans hfrozen.ids, fun hhanded hlow => ?_, fun hlinked hboth => ?_⟩
    · rw [List.mem_cons, not_or] at hlow
      obtain ⟨hlowx, hlow⟩ := hlow
      exact hkept (hhanded.frozen h.wellFormed hfrozen hlowx) hlow
    · by_cases hlowx : low = x
      · subst hlowx
        exact .inr ⟨hkept (hlinked.handed h.wellFormed hfrozen) hx, List.mem_cons_self ..⟩
      · have hhighx : high ≠ x := by
          rintro rfl
          have hlow : low ∈ xs :=
            (List.mem_cons.1 (hboth (List.mem_cons_self ..))).resolve_left hlowx
          exact hne (Natural.eq_of_isLE hle (hbefore low hlow))
        have hboth : high ∈ xs → low ∈ xs := fun hhigh =>
          (List.mem_cons.1 (hboth (List.mem_cons_of_mem _ hhigh))).resolve_left hlowx
        rcases hlater (hlinked.frozen hfrozen hlowx hhighx) hboth with ⟨hend, hlow⟩ | ⟨hend, hlow⟩
        · exact .inl ⟨hend, fun hmem => (List.mem_cons.1 hmem).elim hlowx hlow⟩
        · exact .inr ⟨hend, List.mem_cons_of_mem _ hlow⟩

/-- **All rounds.** -/
theorem freezeRounds_ok [IsPreorder VarId F] (hu : u.Legible)
    (hle : (Natural.compare low high).isLE) (hne : low ≠ high) (hback : ¬F high low) {rounds : Nat}
    (h : s.graph.Standing u) (horder : Natural.Orders s.graph.ids)
    (hrun : freezeRounds params rounds done s = (.ok (), s')) :
    s'.graph.Standing u ∧ s'.graph.ids = s.graph.ids ∧
      (s.graph.Linked F low high ∧ low ∉ done ∨ s.graph.Handed u low high ∧ low ∈ done →
        s'.graph.Linked F low high ∨ s'.graph.Handed u low high) := by
  induction rounds generalizing s done with
  | zero =>
    obtain ⟨-, rfl⟩ := pure_eq_ok.1 hrun
    exact ⟨h, rfl, Or.imp And.left And.left⟩
  | succ rounds ih =>
    rw [freezeRounds, graph_bind_apply] at hrun
    cases hxs : s.graph.fixable params done with
    | nil =>
      rw [hxs] at hrun
      obtain ⟨-, rfl⟩ := pure_eq_ok.1 hrun
      exact ⟨h, rfl, Or.imp And.left And.left⟩
    | cons x xs =>
      rw [hxs] at hrun
      obtain ⟨_, s₁, hround, hrun⟩ := bind_eq_ok.1 hrun
      rw [← hxs] at hround hrun
      obtain ⟨hstanding, hids, hkept, hmoved⟩ := forM_freeze_ok (F := F) hu hle hne h
        (fun y hy => (mem_fixable.1 hy).1) h.wellFormed.nodup_fixable
        (pairwise_fixable horder) hround
      obtain ⟨hstanding', hids', hrest⟩ := ih hstanding (hids ▸ horder) hrun
      refine ⟨hstanding', hids'.trans hids, fun hstate => hrest ?_⟩
      simp only [List.mem_append]
      rcases hstate with ⟨hlinked, hlow⟩ | ⟨hhanded, hlow⟩
      · have hboth : high ∈ s.graph.fixable params done → low ∈ s.graph.fixable params done := by
          intro hhigh
          have hfixable := hlinked.isFixable h.wellFormed hback (mem_fixable.1 hhigh).2.2
          exact mem_fixable.2 ⟨h.wellFormed.mem_ids_of_mem_below hlinked.edge, hlow, hfixable⟩
        rcases hmoved hlinked hboth with ⟨hend, hlow'⟩ | ⟨hend, hlow'⟩
        · exact .inl ⟨hend, fun hmem => hmem.elim hlow hlow'⟩
        · exact .inr ⟨hend, .inr hlow'⟩
      · exact .inr ⟨hkept hhanded fun hmem => (mem_fixable.1 hmem).2.1 hlow, .inl hlow⟩

end

end TypeBounds
