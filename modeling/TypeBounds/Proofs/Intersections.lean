import TypeBounds.Proofs.Coherence
import TypeBounds.Proofs.Stock

/-!
# Upper bounds are intersections

The members of an upper bound are the members of an intersection, so they have to be such as may
stand there together: none is below another, none is final, and of two of them one at least can be
combined with anything. `insertUpper` looks for all that in one pass, and what it looks at is what
the checks before it have left. A conversion that narrows the same bound comes before or after the
insertion, never in between.

* `Ty.Combines`: two types that may be members of one intersection, which does not depend on the
  graph;
* `Graph.Intersected`: any two members of an upper bound may. `upholds_intersected` says that this
  is an invariant of the insertions, and so of all calls.
-/

namespace TypeBounds

/-- **Members of one intersection.** Neither type is below the other in any graph, and they do not
clash. -/
structure Ty.Combines (a b : Ty) : Prop where
  not_below : ∀ g : Graph, ¬g.isSubtype a b
  not_above : ∀ g : Graph, ¬g.isSubtype b a
  fits : Graph.clashes a b = false

theorem Graph.clashes_eq_false {a b : Ty} :
    clashes a b = false ↔ a.isFinal = false ∧ b.isFinal = false ∧
      (a.isCombinable ∨ b.isCombinable) := by
  simp [clashes, and_assoc, or_iff_not_imp_left]

theorem Ty.Combines.symm {a b : Ty} (h : a.Combines b) : b.Combines a where
  not_below := h.not_above
  not_above := h.not_below
  fits := (Graph.clashes_comm b a).trans h.fits

namespace Graph

variable {u : Universe} {g g' : Graph} {id : VarId} {m : Ty}

/-- Bounds hold types without convertibles, and any two members of an upper bound combine. -/
structure Intersected (u : Universe) (g : Graph) : Prop extends Stocked u (Settled u) g where
  combine : ∀ x, ∀ a ∈ g.has .upper x, ∀ b ∈ g.has .upper x, a ≠ b → a.Combines b

theorem Intersected.of_sides (h : g.Intersected u) (hlattice : g'.lattice = g.lattice)
    (hsides : ∀ side x, (g'.boundsOf x).side side = (g.boundsOf x).side side) :
    g'.Intersected u := by
  refine ⟨h.toStocked.of_sides hlattice hsides, fun x => ?_⟩
  rw [has, hsides]
  exact h.combine x

theorem Intersected.unregister (h : g.Intersected u) (y : VarId) :
    (g.unregister y).Intersected u := by
  refine ⟨⟨h.converts, h.tidy.unregister y⟩, fun x => ?_⟩
  rw [has, boundsOf_unregister]
  split
  · exact fun a ha => (List.not_mem_nil ha).elim
  · exact h.combine x

/-- A lower member changes no upper bound. -/
theorem Intersected.insertedLower (h : g.Intersected u) (hm : Settled u .lower m) (id : VarId) :
    (g.inserted .lower id m).Intersected u := by
  refine ⟨h.toStocked.inserted hm id, fun x => ?_⟩
  rw [has_inserted_ne (.inl (by decide))]
  exact h.combine x

/-- An upper member is let in beside those that it is not below and does not clash with. -/
theorem clashes_of_insertUpper (hg : g.insertUpper id m = .ok g') {e : Ty}
    (he : e ∈ g.has .upper id) (hsub : ¬g.isSubtype m e) : clashes e m = false := by
  unfold insertUpper at hg
  dsimp only at hg
  split at hg
  · cases hg
  · rename_i hnone
    have := List.find?_eq_none.1 hnone e he
    simpa [hsub] using this

/-- **An upper member** that the bound did not imply combines with everything it leaves there. -/
theorem Intersected.insertUpper (hu : u.Sound) (h : g.Intersected u) (hm : Settled u .upper m)
    (hnew : ¬g.upperAbsorbs id m) (hg : g.insertUpper id m = .ok g') : g'.Intersected u := by
  have hinserted := insertUpper_eq_inserted hu hm.convertibleFree hg
  refine ⟨hinserted ▸ h.toStocked.inserted hm id, fun x a ha b hb hne => ?_⟩
  -- what was there and stays is not below the new member, which would be implied otherwise
  have hbeside {e : Ty} (he : e ∈ g.has .upper id) (hsub : ¬g.isSubtype m e) : e.Combines m := by
    have hbare : e.Bare := (h.tidy.admissible .upper id e he).convertibleFree.bare hu
    have hbare' : m.Bare := hm.convertibleFree.bare hu
    refine ⟨fun g₁ hbelow => hnew ?_, fun g₁ habove => hsub ?_, clashes_of_insertUpper hg he hsub⟩
    · have hsame : g₁.isSubtype e m = g.isSubtype e m := isSubtype_eq hbare hbare'
      have habsorbs : g.absorbs .upper id m := by
        rw [absorbs_eq, List.any_eq_true]
        exact ⟨e, he, hsame.symm.trans hbelow⟩
      exact habsorbs
    · have hsame : g₁.isSubtype m e = g.isSubtype m e := isSubtype_eq hbare' hbare
      exact hsame ▸ habove
  rw [hinserted] at ha hb
  rcases h.mem_or_eq ha with ⟨hold, hstays⟩ | ⟨-, hx, rfl⟩
  · rcases h.mem_or_eq hb with ⟨hold', -⟩ | ⟨-, hx, rfl⟩
    · exact h.combine x a hold b hold' hne
    · exact hbeside (hx ▸ hold) (hstays rfl hx)
  · obtain ⟨hold, hstays⟩ := (h.mem_or_eq hb).resolve_right fun hb => hne hb.2.2.symm
    exact (hbeside (hx ▸ hold) (hstays rfl hx)).symm

theorem upholds_intersected (hu : u.Sound) : Upholds u (Settled u) (Intersected u) where
  stocks := stocks_settled hu
  stocked _ h := h.toStocked
  insertLower _ hm _ id _ _ _ _ _ h := h.insertedLower hm id
  insertUpper _ hm _ _ _ h hnew hg := h.insertUpper hu hm hnew hg
  sides _ _ hlattice hsides h := h.of_sides hlattice hsides
  unregister _ x h := h.unregister x

end Graph

/-- **Upper bounds are legal intersections.** In a graph that variables, types without convertibles
and references were added to and whose variables were merged, successfully or not, with any
conversions between declared types: of two members of an upper bound none is below the other, none
is final, and one at least is combinable. -/
theorem upper_members_combine {decls : List TypeDecl} {u : Universe}
    (hu : Universe.ofDecls decls = .ok u) {conversions : List ConversionDecl} {lattice : Lattice}
    (hl : u.lattice conversions = .ok lattice) (tag : Nat) (policy : Policy) {calls : List Call}
    (hcalls : ∀ c ∈ calls, c.BuildsOrMerges (ConvertibleFree u)) (x : VarId) :
    let g := Graph.after { tag, lattice, policy } calls
    (Members.types (g.boundsOf x).upper).Pairwise fun a b => ¬g.isSubtype a b ∧ ¬g.isSubtype b a ∧
      a.isFinal = false ∧ b.isFinal = false ∧ (a.isCombinable ∨ b.isCombinable) := by
  intro g
  have hsound := Universe.sound_of_ofDecls hu
  have hempty : Graph.Intersected u { tag, lattice, policy } :=
    ⟨.empty tag policy (hsound.converts hl), fun _ _ ha => (List.not_mem_nil ha).elim⟩
  have h : g.Intersected u := by
    refine (Graph.upholds_intersected hsound).after hempty (fun t ht side p hp => ?_) hcalls
    exact ht.settled hsound hp
  refine (h.tidy.keyed .upper x).nodup_types.imp_of_mem fun ha hb hne => ?_
  have hcombines := h.combine x _ ha _ hb hne
  exact ⟨hcombines.not_below g, hcombines.not_above g, Graph.clashes_eq_false.1 hcombines.fits⟩

/-- A variable for countable numbers takes over another one for what is printable. The last call
fails: what is printable is not countable. -/
def mergedFacets : List Call :=
  [.addVariable "$x" (some { id := "T1" }), .addVariable "$y" (some { id := "T2" }),
    .addLower "T1" number, .addUpper "T1" countable, .addUpper "T2" printable, .merge "T2" "T1",
    .addLower "T1" printable]

theorem upper_members_combine_mergedFacets :
    let g := Graph.after { tag := 1, lattice := facetLattice } mergedFacets
    Graph.accepts { tag := 1, lattice := facetLattice } mergedFacets = false ∧
      Members.keys (g.boundsOf "T1").upper = ["Countable", "Printable"] ∧
      (Members.types (g.boundsOf "T1").upper).Pairwise fun a b => ¬g.isSubtype a b ∧
      ¬g.isSubtype b a ∧
        a.isFinal = false ∧ b.isFinal = false ∧ (a.isCombinable ∨ b.isCombinable) := by
  have hu : Universe.ofDecls facetDecls = .ok facets := rfl
  have hl : facets.lattice toPrintable = .ok facetLattice := rfl
  have hnumber : ConvertibleFree facets number := .declared rfl
  have hcountable : ConvertibleFree facets countable := .declared rfl
  have hprintable : ConvertibleFree facets printable := .declared rfl
  have hcalls : ∀ c ∈ mergedFacets, c.BuildsOrMerges (ConvertibleFree facets) := by
    simp [mergedFacets, Call.BuildsOrMerges, Call.Builds, hnumber, hcountable, hprintable]
  exact ⟨by decide +kernel, by decide +kernel, upper_members_combine hu hl 1 .plain hcalls "T1"⟩

end TypeBounds
