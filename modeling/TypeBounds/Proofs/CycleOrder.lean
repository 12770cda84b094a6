import TypeBounds.Proofs.Idempotence
import TypeBounds.Proofs.Solution

/-!
# The order in which cycles are collapsed

Where nothing is converted, everything flows along the edges of a graph. The bounds of two variables
on one cycle have flowed into each other, so merging them brings nothing new to either of them, nor
to anything else: a merge along a cycle takes a variable out and leaves the bounds of all others
**as they are**. So it does not matter which cycle is collapsed first.

* `Graph.AtRest`: closed edges along which everything has flowed. A graph that was built up by
  accepted calls is at rest, without implicit conversions;
* `mergeInto_atRest`, `collapse_cycles_atRest`: merges along cycles and collapsing come to their end
  and leave what is left of the records unchanged;
* `collapse_order_irrelevant`: the result. Where a class is named like an intersection, types are
  mistaken for each other and the order does matter (`collapse_order_doubles`).
-/

namespace TypeBounds

open Infer Relation

namespace Graph

variable {u : Universe} {g g' g'' : Graph} {side : Side} {x y : VarId}
  {heir : VarId → VarId} {t : Ty}

/-! ## Graphs at rest -/

/-- **At rest**: edges are closed, along each of them everything has flowed, and nothing is
frozen. -/
structure AtRest (u : Universe) (g : Graph) : Prop where
  wellFormed : g.WellFormed
  closed : g.Closed
  tidy : g.Tidy (PlainMember u)
  flowed : ∀ side, g.FlowsOn (PlainMember u) side
  unfrozen : g.Unfrozen

theorem AtRest.covers (hu : u.Legible) (h : g.AtRest u) (hy : y ∈ g.onward side x)
    (ht : t ∈ g.has side x) : g.Covers side y t := by
  obtain ⟨e, he, hte⟩ := h.flowed side x y hy t ht
  exact ⟨e, he, hte.covered (admits_plainMember hu) (chains_plainMember hu side)
    (h.tidy.admissible side x t ht)⟩

/-- Some of the variables are gone, and the bounds of the others are as they were. -/
def Thins (g g' : Graph) : Prop :=
  ∀ x ∈ g'.ids, x ∈ g.ids ∧ ∀ side, (g'.boundsOf x).side side = (g.boundsOf x).side side

theorem Thins.refl (g : Graph) : g.Thins g := fun _ hx => ⟨hx, fun _ => rfl⟩

theorem Thins.trans (h : g.Thins g') (h' : g'.Thins g'') : g.Thins g'' := by
  intro x hx
  obtain ⟨hx', hsides'⟩ := h' x hx
  obtain ⟨hx, hsides⟩ := h x hx'
  exact ⟨hx, fun side => (hsides' side).trans (hsides side)⟩

/-- What is gone has no bounds, so all bounds are as they were or empty. -/
theorem Thins.side_cases (h : g.Thins g') (side : Side) (x : VarId) :
    (g'.boundsOf x).side side = (g.boundsOf x).side side ∨ (g'.boundsOf x).side side = [] := by
  by_cases hx : x ∈ g'.ids
  · exact .inl ((h x hx).2 side)
  · rw [boundsOf_of_not_mem hx]
    exact .inr (by cases side <;> rfl)

/-- **Taking variables and edges out** does not disturb what is at rest. -/
theorem AtRest.of_thins (h : g.AtRest u) (hthins : g.Thins g') (hwf : g'.WellFormed)
    (hclosed : g'.Closed) (hedges : ∀ x y, x ∈ (g'.boundsOf y).below → x ∈ (g.boundsOf y).below)
    (hunfrozen : g'.Unfrozen) : g'.AtRest u := by
  refine ⟨hwf, hclosed, ⟨fun side x => ?_, fun side x t ht => ?_⟩,
    fun side x y hxy t ht => ?_, hunfrozen⟩
  · rcases hthins.side_cases side x with hside | hside <;> rw [hside]
    · exact h.tidy.keyed side x
    · exact .nil
  · rw [has] at ht
    rcases hthins.side_cases side x with hside | hside <;> rw [hside] at ht
    · exact h.tidy.admissible side x t ht
    · cases ht
  · have hstep : y ∈ g.onward side x := by
      cases side with
      | lower => exact h.wellFormed.mem_onward_lower.2 (hedges x y (hwf.mem_onward_lower.1 hxy))
      | upper => exact mem_onward_upper.2 (hedges y x (mem_onward_upper.1 hxy))
    have hy := hthins y (hwf.mem_ids_of_mem_onward hxy)
    rw [has] at ht
    rw [Entails, has, hy.2 side]
    rcases hthins.side_cases side x with hside | hside <;> rw [hside] at ht
    · exact h.flowed side x y hstep t ht
    · cases ht

theorem AtRest.of_collapsed (h : g.AtRest u) (hcol : Collapsed heir g g') (hthins : g.Thins g') :
    g'.AtRest u :=
  h.of_thins hthins hcol.wellFormed (hcol.closed h.closed)
    (fun x y hxy => ((hcol.edges x y).1 hxy).1) (hcol.frozen h.unfrozen)

/-- Edges from a variable to itself are of no use. -/
theorem AtRest.pruneSelfEdges (h : g.AtRest u) : g.pruneSelfEdges.AtRest u := by
  have hsame : SameTypes g g.pruneSelfEdges := sameTypes_pruneSelfEdges
  obtain ⟨hwf, hedges⟩ := h.wellFormed.pruneSelfEdges
  refine h.of_thins
    (fun x hx => ⟨hsame.ids ▸ hx, fun side => side_boundsOf_of_sameTypes hsame side x⟩) hwf
    (h.closed.pruneSelfEdges h.wellFormed) (fun x y hxy => ((hedges x y).1 hxy).1) fun x => ?_
  rw [hsame.frozen]
  exact h.unfrozen x

/-- **Accepted calls** leave a graph at rest. -/
theorem atRest_after (hu : u.Legible) (tag : Nat) {lattice : Lattice} (policy : Policy)
    (hq : lattice.Quiet) {calls : List Call}
    (hcalls : ∀ c ∈ calls, c.Builds (Plain u) ∧ c.IsMutable)
    (hacc : Graph.accepts { tag, lattice, policy } calls) :
    (Graph.after { tag, lattice, policy } calls).AtRest u := by
  have hexact : ExactFor u ([] ++ calls) (Graph.after { tag, lattice, policy } calls) :=
    (ExactFor.empty tag policy hq (by simp [AddsEdge]) (by simp [AddsBound])).after hu hcalls hacc
  have hbuilds : ∀ c ∈ calls, c.Builds (ConvertibleFree u) := by
    intro c hc
    have hplain := (hcalls c hc).1
    cases c with
    | addLower id t => exact Plain.convertibleFree hplain
    | addUpper id t => exact Plain.convertibleFree hplain
    | _ => exact hplain
  have hwf := WellFormed.empty tag lattice policy
  have hstanding := (Standing.empty (u := u) tag policy hq).after hu (fun _ => rfl) hbuilds hacc
  exact ⟨hexact.wellFormed, Closed.after hwf (Closed.empty tag lattice policy) calls, hexact.tidy,
    fun side => (hexact.supplied side).flows, hstanding.2⟩

end Graph

/-! ## Merges along cycles -/

section

open TypeBounds.Graph

variable {search : Search} {u : Universe} {side : Side} {old new rep x : VarId} {ms : Members}
  {merged c : List VarId} {cs cs' : List (List VarId)} {s s₁ s₂ : Progress}

/-- A bound that is covered where it is handed on to goes nowhere. -/
theorem handOn_eq_of_covers (hu : u.Legible) (h : s.graph.Tidy (PlainMember u))
    (hid : new ∈ s.graph.ids) (hkeyed : ms.Keyed)
    (hms : ∀ t ∈ Members.types ms, PlainMember u side t)
    (hcovers : ∀ t ∈ Members.types ms, s.graph.Covers side new t) :
    handOn side new ms s = (.ok (), s) := by
  have hcf : ConvertibleFree u (side.container ms) := by
    refine .container side hkeyed.key hkeyed.nodup fun m hm => ?_
    exact (hms m.2 (Members.mem_types.2 ⟨m, hm, rfl⟩)).1.convertibleFree
  unfold handOn
  split
  · rfl
  · refine spread_eq_of_absorbs hid fun m hm => ?_
    rw [hcf.copy_eq hu.toSound, Side.parts_container fun t ht => (hms t ht).2.ne_container] at hm
    exact (h.absorbs_iff (admits_plainMember hu) (hms m hm).1.convertibleFree).2 (hcovers m hm)

/-- Where the bounds are covered, nothing is frozen and all edges are known, taking over changes
nothing. -/
theorem takeOver_idle {lowers uppers : List VarId}
    (hhand : ∀ side, handOn side new ((s.graph.boundsOf old).side side) s = (.ok (), s))
    (hfrozen : (s.graph.boundsOf old).frozen = false)
    (hlowers : ∀ x ∈ lowers, x ∈ (s.graph.boundsOf new).below)
    (huppers : ∀ y ∈ uppers, new ∈ (s.graph.boundsOf y).below) :
    takeOver old new lowers uppers s = (.ok (), s) := by
  have hsame : inheritFrozen old new s.graph = s.graph := by
    unfold inheritFrozen
    rw [hfrozen]
    rfl
  unfold takeOver
  rw [graph_bind_apply]
  refine bind_eq_ok.2 ⟨(), s, hhand .lower, ?_⟩
  rw [graph_bind_apply]
  refine bind_eq_ok.2 ⟨(), s, hhand .upper, ?_⟩
  rw [modify_bind_apply, hsame]
  refine bind_eq_ok.2 ⟨(), s, forM_pure fun x hx => addEdge_known (hlowers x hx), ?_⟩
  exact forM_pure fun y hy => addEdge_known (huppers y hy)

/-- **A merge that has nothing to hand on** comes to its end: the old variable is cut off and goes,
unless a fixed reference denotes it. -/
theorem mergeInto_idle (hwf : s.graph.WellFormed) (hne : old ≠ new) (hnew : new ∈ s.graph.ids)
    (hhand : ∀ side, handOn side new (((s.graph.cutOff old new).boundsOf old).side side)
      { s with graph := s.graph.cutOff old new } =
      (.ok (), { s with graph := s.graph.cutOff old new }))
    (hfrozen : (s.graph.boundsOf old).frozen = false)
    (hbelow : ∀ x ∈ (s.graph.boundsOf old).below, x ≠ old → x ≠ new →
      x ∈ (s.graph.boundsOf new).below)
    (habove : ∀ y, old ∈ (s.graph.boundsOf y).below → y ≠ old → y ≠ new →
      new ∈ (s.graph.boundsOf y).below) :
    mergeInto old new s = (.ok (), { s with
      graph := if s.graph.isPinned old then s.graph.cutOff old new
        else (s.graph.cutOff old new).unregister old }) := by
  set s₁ : Progress := { s with graph := s.graph.cutOff old new }
  have htake :
      takeOver old new (others old new (s.graph.below old)) (others old new (s.graph.above old))
      s₁ = (.ok (), s₁) := by
    refine takeOver_idle hhand ((sameFrame_cutOff.frozen old).trans hfrozen) (fun x hx => ?_)
      fun y hy => ?_
    · obtain ⟨hx, hxold, hxnew⟩ := mem_others_below.1 hx
      exact (hwf.mem_below_cutOff hnew).2 ⟨hbelow x hx hxold hxnew, hxold, hne.symm⟩
    · obtain ⟨hy, hyold, hynew⟩ := mem_others_above.1 hy
      exact (hwf.mem_below_cutOff hnew).2 ⟨habove y ((hwf.mirrored old y).2 hy) hyold hynew,
        hne.symm, hyold⟩
  rw [mergeInto_eq, graph_bind_apply, modify_bind_apply]
  refine bind_eq_ok.2 ⟨(), s₁, htake, ?_⟩
  by_cases hpin : s.graph.isPinned old
  · rw [if_pos hpin, if_pos hpin]
    rfl
  · rw [if_neg hpin, if_neg hpin]
    rfl

/-- **A merge along a cycle** comes to its end, and the other bounds are as they were: what the old
variable holds has flowed to the new one, and all its edges are known. -/
theorem mergeInto_atRest (hu : u.Legible) (h : s.graph.AtRest u) (hne : old ≠ new)
    (holdnew : old ∈ (s.graph.boundsOf new).below) (hnewold : new ∈ (s.graph.boundsOf old).below) :
    ∃ s', mergeInto old new s = (.ok (), s') ∧ s.graph.Thins s'.graph := by
  have hwf := h.wellFormed
  have hnew : new ∈ s.graph.ids := hwf.mem_ids_of_mem_below hnewold
  have hids : (s.graph.cutOff old new).ids = s.graph.ids := (hwf.cutOff hnew).ids_eq
  have hsides (x : VarId) (side : Side) :
      ((s.graph.cutOff old new).boundsOf x).side side = (s.graph.boundsOf x).side side :=
    h.tidy.sameBounds_cutOff (admits_plainMember hu) old new x side
  set s₁ : Progress := { s with graph := s.graph.cutOff old new }
  have htidy : s₁.graph.Tidy (PlainMember u) := h.tidy.of_sides fun side x => hsides x side
  have hhand (side : Side) : handOn side new ((s₁.graph.boundsOf old).side side) s₁ =
      (.ok (), s₁) := by
    refine handOn_eq_of_covers hu htidy (hids ▸ hnew) (htidy.keyed side old)
      (htidy.admissible side old) ?_
    intro t ht
    have hstep : new ∈ s.graph.onward side old := by
      cases side with
      | lower => exact hwf.mem_onward_lower.2 holdnew
      | upper => exact mem_onward_upper.2 hnewold
    rw [hsides] at ht
    obtain ⟨e, he, hte⟩ := h.covers hu hstep ht
    refine ⟨e, ?_, hte⟩
    rw [has, hsides]
    exact he
  have hthins : s.graph.Thins s₁.graph := fun x hx => ⟨hids ▸ hx, hsides x⟩
  refine ⟨_, mergeInto_idle hwf hne hnew hhand (h.unfrozen old)
    (fun x hx _ hxnew => h.closed x old new hx holdnew hxnew)
    fun y hy _ hynew => h.closed new old y hnewold hy hynew.symm, ?_⟩
  split
  · exact hthins
  · refine hthins.trans fun x hx => ?_
    rw [ids_unregister, List.mem_filter, decide_eq_true_eq] at hx
    refine ⟨hx.1, fun side => ?_⟩
    rw [boundsOf_unregister, if_neg hx.2]

/-! ## Collapsing -/

/-- **Merges along cycles** come to their end and leave the bounds of the survivors as they were. -/
theorem cyclesKeep_atRest (hu : u.Legible) (g : Graph) :
    CyclesKeep (fun g' => g.Thins g' ∧ g'.AtRest u) fun _ _ => False := by
  intro old new s hne holdnew hnewold hwf h
  obtain ⟨hthins, h⟩ := h
  obtain ⟨s', hmerge, hthins'⟩ := mergeInto_atRest hu h hne holdnew hnewold
  have hcol := mergeInto_cycle hwf h.closed hne holdnew hnewold hmerge
  constructor
  · intro _ s₁ hrun
    cases hmerge.symm.trans hrun
    exact ⟨hthins.trans hthins', h.of_collapsed hcol hthins'⟩
  · intro e s₁ hrun
    cases hmerge.symm.trans hrun

/-- Two graphs that are left of the same one, with the same variables, have the same bounds. -/
theorem Graph.Thins.side_eq {g g₁ g₂ : Graph} (h₁ : g.Thins g₁) (h₂ : g.Thins g₂)
    (hids : ∀ x, x ∈ g₁.ids ↔ x ∈ g₂.ids) (side : Side) (x : VarId) :
    (g₁.boundsOf x).side side = (g₂.boundsOf x).side side := by
  by_cases hx : x ∈ g₁.ids
  · rw [(h₁ x hx).2, (h₂ x ((hids x).1 hx)).2]
  · rw [boundsOf_of_not_mem hx, boundsOf_of_not_mem fun hx₂ => hx ((hids x).2 hx₂)]

/-- **The cycles of a graph at rest**, in any order. What comes out is said by the heirs alone. -/
theorem collapse_cycles_atRest (hu : u.Legible) (h : s.graph.AtRest u)
    (hcs : cs.Perm (s.graph.cycles search)) (params : List VarId) :
    ∃ params' s', collapse cs params s = (.ok params', s') ∧ s.graph.Thins s'.graph ∧
      Collapsed (heirIn (s.graph.cycles search) params) s.graph s'.graph ∧
      ∀ p, p ∈ params' ↔ ∃ q ∈ params, heirIn (s.graph.cycles search) params q = p := by
  obtain ⟨hdisjoint, hnodup, hcycle⟩ := h.wellFormed.cycles_ok search h.closed
  have hdisjoint' : cs.Pairwise List.Disjoint := hcs.symm.pairwise hdisjoint fun hcd => hcd.symm
  have hnodup' : ∀ c ∈ cs, c.Nodup := fun c hc => hnodup c (hcs.mem_iff.1 hc)
  have hcycle' : ∀ c ∈ cs, ∀ x ∈ c, ∀ y ∈ c, x ≠ y → x ∈ (s.graph.boundsOf y).below :=
    fun c hc => hcycle c (hcs.mem_iff.1 hc)
  have hends := collapse_ends (cyclesKeep_atRest hu s.graph) h.wellFormed h.closed hdisjoint'
    hnodup' hcycle' ⟨.refl _, h⟩ params
  obtain ⟨params', s', hrun⟩ := hends.exists_ok
  obtain ⟨hcol, hparams, hthins, -⟩ := hends.ok params' s' hrun
  rw [heirIn_perm hdisjoint' hcs] at hcol hparams
  exact ⟨params', s', hrun, hthins, hcol, hparams⟩

end

/-- **The order of cycles does not matter.** Take a graph that was built up by accepted calls with
plain types and mutable references, without implicit conversions, and its cycles in any two orders.
For all parameters, collapsing comes to its end in both orders, and leaves the same variables,
references, edges, parameters and bounds. -/
theorem collapse_order_irrelevant {decls : List TypeDecl} {u : Universe}
    (hu : Universe.ofDecls decls = .ok u)
    (hnames : ∀ name ∈ u.types.keys, IsIdentifier name ∧ name ≠ "nothing") (tag : Nat)
    {lattice : Lattice} (policy : Policy) (hq : lattice.Quiet) {calls : List Call}
    (hcalls : ∀ c ∈ calls, c.Builds (Plain u) ∧ c.IsMutable)
    (hacc : Graph.accepts { tag, lattice, policy } calls) {s : Progress}
    (hs : s.graph = Graph.after { tag, lattice, policy } calls ∨
      s.graph = (Graph.after { tag, lattice, policy } calls).pruneSelfEdges)
    (params : List VarId) {search : Search} {cs cs' : List (List VarId)}
    (hcs : cs.Perm (s.graph.cycles search)) (hcs' : cs'.Perm (s.graph.cycles search)) :
    ∃ params₁ s₁ params₂ s₂, collapse cs params s = (.ok params₁, s₁) ∧
      collapse cs' params s = (.ok params₂, s₂) ∧
      (∀ x, x ∈ s₁.graph.ids ↔ x ∈ s₂.graph.ids) ∧ s₁.graph.names = s₂.graph.names ∧
      (∀ x y, x ∈ (s₁.graph.boundsOf y).below ↔ x ∈ (s₂.graph.boundsOf y).below) ∧
      (∀ x y, x ∈ (s₁.graph.boundsOf y).above ↔ x ∈ (s₂.graph.boundsOf y).above) ∧
      (∀ p, p ∈ params₁ ↔ p ∈ params₂) ∧
      ∀ x, (s₁.graph.boundsOf x).lower = (s₂.graph.boundsOf x).lower ∧
        (s₁.graph.boundsOf x).upper = (s₂.graph.boundsOf x).upper := by
  have hlegible := Universe.legible_of_ofDecls hu hnames
  have hrest : s.graph.AtRest u := by
    have hbuilt := Graph.atRest_after hlegible tag policy hq hcalls hacc
    rcases hs with hs | hs
    · exact hs ▸ hbuilt
    · exact hs ▸ hbuilt.pruneSelfEdges
  obtain ⟨params₁, s₁, hrun₁, hthins₁, hcol₁, hparams₁⟩ :=
    collapse_cycles_atRest hlegible hrest hcs params
  obtain ⟨params₂, s₂, hrun₂, hthins₂, hcol₂, hparams₂⟩ :=
    collapse_cycles_atRest hlegible hrest hcs' params
  have hids (x : VarId) : x ∈ s₁.graph.ids ↔ x ∈ s₂.graph.ids := by
    rw [hcol₁.mem_ids, hcol₂.mem_ids]
  have hbelow (x y : VarId) : x ∈ (s₁.graph.boundsOf y).below ↔
      x ∈ (s₂.graph.boundsOf y).below := by
    rw [hcol₁.edges, hcol₂.edges]
  have habove (x y : VarId) : x ∈ (s₁.graph.boundsOf y).above ↔
      x ∈ (s₂.graph.boundsOf y).above := by
    rw [← hcol₁.wellFormed.mirrored, ← hcol₂.wellFormed.mirrored, hbelow]
  refine ⟨params₁, s₁, params₂, s₂, hrun₁, hrun₂, hids, hcol₁.names.trans hcol₂.names.symm, hbelow,
    habove, fun p => (hparams₁ p).trans (hparams₂ p).symm, fun x => ⟨?_, ?_⟩⟩
  · exact hthins₁.side_eq hthins₂ hids .lower x
  · exact hthins₁.side_eq hthins₂ hids .upper x

/-- Two cycles below one variable, with bounds on either side of the edges. -/
def pairedCycles : List Call :=
  [.addVariable "$a" (some { id := "A1" }), .addVariable "$b" (some { id := "A2" }),
    .addVariable "$c" (some { id := "B1" }), .addVariable "$d" (some { id := "B2" }),
    .addVariable "$e" (some { id := "C1" }), .addLower "A1" circle, .addUpper "C1" shape,
    .addRef "A2" (some { id := "A1" }), .addRef "A1" (some { id := "A2" }),
    .addRef "B2" (some { id := "B1" }), .addRef "B1" (some { id := "B2" }),
    .addRef "C1" (some { id := "A2" }), .addRef "C1" (some { id := "B1" }), .addLower "B2" shape]

theorem collapse_order_irrelevant_pairedCycles :
    let s : Progress := { graph := (Graph.after { tag := 1 } pairedCycles).pruneSelfEdges }
    s.graph.cycles .standard = [["A1", "A2"], ["B1", "B2"]] ∧
      ∃ params₁ s₁ params₂ s₂, collapse [["A1", "A2"], ["B1", "B2"]] ["A2"] s = (.ok params₁, s₁) ∧
        collapse [["B1", "B2"], ["A1", "A2"]] ["A2"] s = (.ok params₂, s₂) ∧
        (∀ x, x ∈ s₁.graph.ids ↔ x ∈ s₂.graph.ids) ∧ s₁.graph.names = s₂.graph.names ∧
        (∀ x y, x ∈ (s₁.graph.boundsOf y).below ↔ x ∈ (s₂.graph.boundsOf y).below) ∧
        (∀ x y, x ∈ (s₁.graph.boundsOf y).above ↔ x ∈ (s₂.graph.boundsOf y).above) ∧
        (∀ p, p ∈ params₁ ↔ p ∈ params₂) ∧
        ∀ x, (s₁.graph.boundsOf x).lower = (s₂.graph.boundsOf x).lower ∧
          (s₁.graph.boundsOf x).upper = (s₂.graph.boundsOf x).upper := by
  intro s
  have hcalls : ∀ c ∈ pairedCycles, c.Builds (Plain shapes) ∧ c.IsMutable := by
    simp [pairedCycles, Call.Builds, Call.IsMutable, plain_circle, plain_shape]
  obtain ⟨hacc, hcycles⟩ : Graph.accepts { tag := 1 } pairedCycles ∧
      s.graph.cycles .standard = [["A1", "A2"], ["B1", "B2"]] := by decide +kernel
  have hperm : [["A1", "A2"], ["B1", "B2"]].Perm (s.graph.cycles .standard) := by rw [hcycles]
  have hperm' : [["B1", "B2"], ["A1", "A2"]].Perm (s.graph.cycles .standard) :=
    (List.Perm.swap ..).trans hperm
  have hpruned : s.graph = (Graph.after { tag := 1 } pairedCycles).pruneSelfEdges := rfl
  refine ⟨hcycles, ?_⟩
  exact collapse_order_irrelevant ofDecls_shapes (by decide) 1 .plain .empty hcalls hacc
    (.inr hpruned) ["A2"] hperm hperm'

/-! ## Where classes are named like intersections -/

def ifaceC : Ty := .nominal "C" .interface false []

def ifaceD : Ty := .nominal "D" .interface false []

def ifaceQ : Ty := .nominal "Q" .interface false []

/-- Two interfaces have the names of intersections of others. -/
def doubleDecls : List TypeDecl :=
  [{ name := "A", kind := "interface" }, { name := "B", kind := "interface" },
    { name := "C", kind := "interface" }, { name := "D", kind := "interface" },
    { name := "Q", kind := "interface" },
    { name := "(A & B)", kind := "interface", parents := ["C", "D"] },
    { name := "(C & D)", kind := "interface", parents := ["Q"] }]

def doubleAB : Ty := .nominal "(A & B)" .interface false [ifaceC, ifaceD]

def doubleCD : Ty := .nominal "(C & D)" .interface false [ifaceQ]

def doubles : Universe :=
  ⟨⟨[("mixed", .mixed), ("A", ifaceA), ("B", ifaceB), ("C", ifaceC), ("D", ifaceD), ("Q", ifaceQ),
    ("(A & B)", doubleAB), ("(C & D)", doubleCD)]⟩⟩

def bothCD : Ty := Ty.interOf [ifaceC, ifaceD]

/-- Two cycles below one variable. On each of them an intersection is absorbed by the interface of
its name, which gives way later to something that is not above the intersection. -/
def doubledCycles : List Call :=
  [.addVariable "$a" (some { id := "A1" }), .addVariable "$b" (some { id := "A2" }),
    .addVariable "$c" (some { id := "B1" }), .addVariable "$d" (some { id := "B2" }),
    .addVariable "$e" (some { id := "C1" }), .addLower "C1" doubleCD, .addLower "C1" doubleAB,
    .addLower "A1" doubleAB, .addLower "A2" bothAB, .addRef "A1" (some { id := "A2" }),
    .addRef "C1" (some { id := "A1" }), .addLower "A1" bothCD, .addRef "A2" (some { id := "A1" }),
    .addLower "B1" doubleCD, .addLower "B2" bothCD, .addRef "B1" (some { id := "B2" }),
    .addRef "C1" (some { id := "B1" }), .addLower "B1" ifaceQ, .addRef "B2" (some { id := "B1" })]

/-- **Names have to tell types apart.** Where they do not, one order of the two cycles brings an
intersection to the variable above them that is below nothing there in the other order. -/
theorem collapse_order_doubles :
    let g := Graph.after { tag := 1 } doubledCycles
    let first := collapse [["A1", "A2"], ["B1", "B2"]] [] { graph := g }
    let second := collapse [["B1", "B2"], ["A1", "A2"]] [] { graph := g }
    Universe.ofDecls doubleDecls = .ok doubles ∧
      (∀ c ∈ doubledCycles, c.Builds (Plain doubles) ∧ c.IsMutable) ∧
      Graph.accepts { tag := 1 } doubledCycles ∧ g.cycles .standard = [["A1", "A2"], ["B1", "B2"]] ∧
      first.1.isOk ∧ second.1.isOk ∧
      ∃ t ∈ second.2.graph.has .lower "C1", ∀ e ∈ first.2.graph.has .lower "C1",
        ¬first.2.graph.isSubtype t e := by
  intro g first second
  have haccepted : Universe.ofDecls doubleDecls = .ok doubles := rfl
  have hu : doubles.Sound := Universe.sound_of_ofDecls haccepted
  have hAB : Plain doubles doubleAB := hu.plain rfl
  have hCD : Plain doubles doubleCD := hu.plain rfl
  have hQ : Plain doubles ifaceQ := hu.plain rfl
  have hbothAB : Plain doubles bothAB := hu.plain_interOf rfl rfl (by decide)
  have hbothCD : Plain doubles bothCD := hu.plain_interOf rfl rfl (by decide)
  have hcalls : ∀ c ∈ doubledCycles, c.Builds (Plain doubles) ∧ c.IsMutable := by
    simp [doubledCycles, Call.Builds, Call.IsMutable, hAB, hCD, hQ, hbothAB, hbothCD]
  obtain ⟨hacc, hcycles, hfirst, hsecond, hdiffer⟩ : Graph.accepts { tag := 1 } doubledCycles ∧
      g.cycles .standard = [["A1", "A2"], ["B1", "B2"]] ∧ first.1.isOk ∧ second.1.isOk ∧
      (second.2.graph.has .lower "C1").any fun t =>
        (first.2.graph.has .lower "C1").all fun e => !first.2.graph.isSubtype t e := by
          decide +kernel
  obtain ⟨t, ht, hall⟩ := List.any_eq_true.1 hdiffer
  refine ⟨haccepted, hcalls, hacc, hcycles, hfirst, hsecond, t, ht, fun e he => ?_⟩
  simpa using List.all_eq_true.1 hall e he

end TypeBounds
