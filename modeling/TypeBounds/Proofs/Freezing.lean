import TypeBounds.Proofs.Growth
import TypeBounds.Proofs.Resolved

/-!
# What fixing hands on

Fixing a variable settles its record, hands the type it resolves to on to every variable above it
and takes it out of the graph. Where nothing is converted, two things carry the argument about it:

* while the type is handed on, the lower bound of the variable itself holds nothing but parts of
  that type (`Graph.Passing`), whatever comes back to it along cycles;
* so in the end each variable above covers all that the fixed one resolves to (`Graph.Frozen`).
-/

namespace TypeBounds

open Infer Relation

/-! ## Members of types -/

namespace Members

variable {ms : Members} {t : Ty} {ts : List Ty}

/-- Adding types in turn keeps members keyed, takes none out and puts nothing in but the types. -/
theorem Keyed.foldl_add (h : Keyed ms) (ts : List Ty) : Keyed (ts.foldl Members.add ms) ∧
    (∀ t ∈ types ms, t ∈ types (ts.foldl Members.add ms)) ∧
    ∀ t ∈ types (ts.foldl Members.add ms), t ∈ types ms ∨ t ∈ ts := by
  induction ts generalizing ms with
  | nil => exact ⟨h, fun t ht => ht, fun t ht => .inl ht⟩
  | cons t ts ih =>
    rw [List.foldl_cons]
    by_cases hheld : holds ms t.name
    · have hadd : Members.add ms t = ms := if_pos hheld
      rw [hadd]
      obtain ⟨hkeyed, hkept, hmem⟩ := ih h
      exact ⟨hkeyed, hkept, fun t' ht' => (hmem t' ht').imp_right (List.mem_cons_of_mem _)⟩
    · have hnew : ∀ t' ∈ types ms, t'.name ≠ t.name := by
        intro t' ht' hname
        exact hheld (List.any_eq_true.2 ⟨_, h.mem ht', decide_eq_true hname⟩)
      obtain ⟨hkeyed, hadded⟩ := h.add hnew
      obtain ⟨hkeyed, hkept, hmem⟩ := ih hkeyed
      refine ⟨hkeyed, fun t' ht' => hkept t' ((hadded t').2 (.inl ht')), fun t' ht' => ?_⟩
      rcases hmem t' ht' with ht' | ht'
      · rcases (hadded t').1 ht' with ht' | rfl
        · exact .inl ht'
        · exact .inr (List.mem_cons_self ..)
      · exact .inr (List.mem_cons_of_mem _ ht')

theorem keyed_ofTypes (ts : List Ty) : Keyed (ofTypes ts) := (Keyed.nil.foldl_add ts).1

/-- Each of the types is there, or another one of its name. -/
theorem Keyed.exists_of_mem_foldl (h : Keyed ms) (ht : t ∈ ts) :
    ∃ t' ∈ types (ts.foldl Members.add ms), t'.name = t.name := by
  induction ts generalizing ms with
  | nil => cases ht
  | cons t₀ ts ih =>
    rw [List.foldl_cons]
    rcases List.mem_cons.1 ht with rfl | ht
    · by_cases hheld : holds ms t.name
      · have hadd : Members.add ms t = ms := if_pos hheld
        obtain ⟨m, hm, hname⟩ := List.any_eq_true.1 hheld
        rw [hadd]
        refine ⟨m.2, (h.foldl_add ts).2.1 m.2 (mem_types.2 ⟨m, hm, rfl⟩), ?_⟩
        rw [← h.key m hm, of_decide_eq_true hname]
      · obtain ⟨hkeyed, hadded⟩ := h.add (t := t) fun t' ht' hname =>
          hheld (List.any_eq_true.2 ⟨_, h.mem ht', decide_eq_true hname⟩)
        exact ⟨t, (hkeyed.foldl_add ts).2.1 t ((hadded t).2 (.inr rfl)), rfl⟩
    · have hkeyed : Keyed (Members.add ms t₀) := (h.foldl_add [t₀]).1
      exact ih hkeyed ht

theorem exists_mem_types_ofTypes (ht : t ∈ ts) : ∃ t' ∈ types (ofTypes ts), t'.name = t.name :=
  Keyed.nil.exists_of_mem_foldl ht

theorem mem_of_mem_types_ofTypes (ht : t ∈ types (ofTypes ts)) : t ∈ ts :=
  ((Keyed.nil.foldl_add ts).2.2 t ht).resolve_left List.not_mem_nil

end Members

/-! ## What a variable resolves to -/

namespace Graph

variable {u : Universe} {g g' : Graph} {side : Side} {id x y z : VarId} {res : Resolution} {p : Ty}

theorem Tidy.convertibleFree_container (h : g.Tidy (Settled u)) (side : Side) (x : VarId) :
    ConvertibleFree u (side.container ((g.boundsOf x).side side)) := by
  have hkeyed := h.keyed side x
  refine .container side hkeyed.key hkeyed.nodup fun m hm => ?_
  exact (h.admissible side x m.2 (Members.mem_types.2 ⟨m, hm, rfl⟩)).convertibleFree

/-- What a record resolves to has no convertibles, also if it is read off a later record. -/
theorem Tidy.convertibleFree_type (hu : u.Legible) (h : g.Tidy (Settled u))
    (h' : g'.Tidy (Settled u)) (x : VarId) :
    ConvertibleFree u ((g.boundsOf x).resolution.type (g'.boundsOf x)) := by
  refine Bounds.type_of_sides (.declared hu.mixed) (fun side m hm => ?_) fun side _ =>
    h'.convertibleFree_container side x
  exact (h.admissible side x m.2 (Members.mem_types.2 ⟨m, hm, rfl⟩)).convertibleFree

theorem Tidy.convertibleFree_resolved (hu : u.Legible) (h : g.Tidy (Settled u)) (x : VarId) :
    ConvertibleFree u (g.boundsOf x).resolved :=
  h.convertibleFree_type hu h x

/-- A lower bound is what a variable resolves to. -/
theorem Tidy.unionParts_resolved (h : g.Tidy (Settled u)) (hlower : (g.boundsOf x).lower ≠ []) :
    (g.boundsOf x).resolved.unionParts = g.has .lower x := by
  unfold Bounds.resolved
  rcases (g.boundsOf x).resolution_cases with ⟨hnil, -⟩ | ⟨-, ⟨m, hm, hres⟩ | hres⟩
  · exact absurd hnil hlower
  · have hhas : g.has .lower x = [m.2] := by rw [has, Bounds.side, hm]; rfl
    have hsettled := h.admissible .lower x m.2 (hhas ▸ List.mem_singleton_self _)
    rw [hres, hhas]
    exact unionParts_eq hsettled.ne_container
  · rw [hres]
    exact Side.parts_container fun t ht => (h.admissible .lower x t ht).ne_container

/-- Without one, the upper bound is. -/
theorem Tidy.interParts_resolved (h : g.Tidy (Settled u)) (hlower : (g.boundsOf x).lower = [])
    (hupper : (g.boundsOf x).upper ≠ []) : (g.boundsOf x).resolved.interParts = g.has .upper x := by
  have hmembers := h.admissible .upper x
  unfold Bounds.resolved Bounds.resolution
  rw [has, Bounds.side] at hmembers ⊢
  rw [hlower]
  cases hb : (g.boundsOf x).upper with
  | nil => exact absurd hb hupper
  | cons m ms =>
    cases ms with
    | nil =>
      have hsettled := hmembers m.2 (hb ▸ List.mem_singleton_self m.2)
      exact interParts_eq hsettled.ne_container
    | cons m' ms =>
      rw [Resolution.type, ← hb]
      exact Side.parts_container fun t ht => (hmembers t ht).ne_container

/-- A record may be filled in with what it resolves to, as long as that has the parts that bounds
are made of. -/
theorem Tidy.fillWith {P : Side → Ty → Prop} (h : g.Tidy P)
    (hres : ∀ (side : Side) (x : VarId), ∀ p ∈ side.parts (g.boundsOf x).resolved.copy, P side p)
    {f : Bounds → Bounds} (hf : Bounds.Fills f) : (g.update id f).Tidy P := by
  have hsides (side : Side) (x : VarId) :
      ((g.update id f).boundsOf x).side side = (g.boundsOf x).side side ∨
        ((g.update id f).boundsOf x).side side =
        Members.ofTypes (side.parts (g.boundsOf x).resolved.copy) := by
    rw [boundsOf_update]
    split
    · exact (hf (g.boundsOf x) side).imp_right And.right
    · exact .inl rfl
  refine ⟨fun side x => ?_, fun side x t ht => ?_⟩
  · rcases hsides side x with hside | hside
    · exact hside ▸ h.keyed side x
    · exact hside ▸ Members.keyed_ofTypes _
  · rw [has] at ht
    rcases hsides side x with hside | hside
    · rw [hside] at ht
      exact h.admissible side x t ht
    · rw [hside] at ht
      exact hres side x t (Members.mem_of_mem_types_ofTypes ht)

theorem Tidy.fill (hu : u.Legible) (h : g.Tidy (Settled u)) {f : Bounds → Bounds}
    (hf : Bounds.Fills f) : (g.update id f).Tidy (Settled u) := by
  refine h.fillWith (fun side x p hp => ?_) hf
  have hcf := h.convertibleFree_resolved hu x
  rw [hcf.copy_eq hu.toSound] at hp
  exact hcf.settled hu.toSound hp

/-- Settling fills in nothing but what bounds may hold. -/
theorem Standing.settle (hu : u.Legible) (h : g.Standing u) (id : VarId) :
    (settle id g).Standing u :=
  ⟨h.wellFormed.of_sameShape sameShape_settle, h.quiet,
    h.tidy.fill hu (Bounds.side_settled g.policy)⟩

/-- What a lower bound entails is not changed by settling. -/
theorem Entails.settle (h : g.Entails (Settled u) .lower x p) (id : VarId) :
    (settle id g).Entails (Settled u) .lower x p := by
  obtain ⟨e, he, hpe⟩ := h
  refine ⟨e, ?_, hpe⟩
  rw [has, Graph.settle, boundsOf_update]
  split
  · have hne : (g.boundsOf x).lower ≠ [] := by
      intro hnil
      rw [has, Bounds.side, hnil] at he
      cases he
    rw [Bounds.side, Bounds.lower_settled, if_neg hne]
    exact he
  · exact he

/-! ## Handing a type on -/

/-- **While a type is handed on**: what the variable itself has below it are parts of that type. -/
structure Passing (u : Universe) (id : VarId) (res : Resolution) (g : Graph) : Prop where
  standing : g.Standing u
  convertibleFree : ConvertibleFree u (res.type (g.boundsOf id))
  held : ∀ p ∈ g.has .lower id, p ∈ (res.type (g.boundsOf id)).unionParts
  silent : (g.boundsOf id).lower = [] → (g.boundsOf id).resolved.unionParts = []

theorem Standing.passing (hu : u.Legible) (h : g.Standing u) (hid : id ∈ g.ids) :
    Passing u id (g.boundsOf id).resolution (Graph.settle id g) := by
  have hcf := h.tidy.convertibleFree_resolved hu id
  have hbounds : (Graph.settle id g).boundsOf id = (g.boundsOf id).settled g.policy :=
    boundsOf_update_self hid _
  have htype : (g.boundsOf id).resolution.type ((Graph.settle id g).boundsOf id) =
      (g.boundsOf id).resolved := by
    rw [hbounds, Bounds.type_settled]
  have hlower := (g.boundsOf id).lower_settled g.policy
  rw [← hbounds, hcf.copy_eq hu.toSound] at hlower
  refine ⟨h.settle hu id, htype ▸ hcf, fun p hp => ?_, fun hnil => ?_⟩
  · rw [htype]
    rw [has, Bounds.side, hlower] at hp
    split at hp
    · exact Members.mem_of_mem_types_ofTypes hp
    · rename_i hne
      rw [h.tidy.unionParts_resolved hne]
      exact hp
  · rw [hnil] at hlower
    split at hlower
    · rename_i hempty
      have hparts : (g.boundsOf id).resolved.unionParts = [] :=
        Members.eq_nil_of_ofTypes hlower.symm
      -- something is above the variable, since `mixed` has a part
      have hupper : (g.boundsOf id).upper ≠ [] := by
        intro hupper
        have hmixed : (g.boundsOf id).resolved = .mixed := by
          unfold Bounds.resolved Bounds.resolution
          rw [hempty, hupper]
          rfl
        rw [hmixed] at hparts
        cases hparts
      have hsame : ((Graph.settle id g).boundsOf id).upper = (g.boundsOf id).upper := by
        rw [hbounds, Bounds.upper_settled, if_neg fun h => hupper h.2]
      rw [Bounds.resolved_congr (hnil.trans hempty.symm) hsame]
      exact hparts
    · rename_i hne
      exact absurd hlower.symm hne

/-- **One more variable** has got the type. -/
theorem Passing.arrived (h : Passing u id res g)
    (harr : Arrived (Settled u) .lower (res.type (g.boundsOf id)).unionParts y g g') :
    Passing u id res g' ∧
      ∀ p ∈ (res.type (g'.boundsOf id)).unionParts, p ∈ (res.type (g.boundsOf id)).unionParts := by
  have hgrow : Growth u (fun _ _ => True) (fun _ => False) g g' :=
    harr.growth h.standing fun hid => hid
  have hupper : (g'.boundsOf id).upper = (g.boundsOf id).upper := harr.other id
  have hback : ∀ p ∈ g'.has .lower id, p ∈ (res.type (g.boundsOf id)).unionParts := by
    intro p hp
    rcases harr.origin id p hp with hp | hp
    · exact h.held p hp
    · exact hp
  have hsilent : (g'.boundsOf id).lower = [] → (g'.boundsOf id).resolved.unionParts = [] := by
    intro hnil
    have hlower : (g.boundsOf id).lower = [] := by
      by_contra hne
      obtain ⟨m, hm⟩ := List.exists_mem_of_ne_nil _ hne
      obtain ⟨e, he, -⟩ := harr.entails id m.2 (Members.mem_types.2 ⟨m, hm, rfl⟩)
      rw [has, Bounds.side, hnil] at he
      cases he
    rw [Bounds.resolved_congr (hnil.trans hlower.symm) hupper]
    exact h.silent hlower
  cases res with
  | exactly t => exact ⟨⟨hgrow.standing, h.convertibleFree, hback, hsilent⟩, fun p hp => hp⟩
  | upperBound =>
    have htype :
        Resolution.type (g'.boundsOf id) .upperBound =
        Resolution.type (g.boundsOf id) .upperBound :=
      congrArg Ty.inter hupper
    rw [htype]
    exact ⟨⟨hgrow.standing, htype ▸ h.convertibleFree, htype ▸ hback, hsilent⟩, fun p hp => hp⟩
  | lowerBound =>
    have hparts : (Resolution.type (g'.boundsOf id) .lowerBound).unionParts = g'.has .lower id :=
      Side.parts_container fun t ht => (harr.tidy.admissible .lower id t ht).ne_container
    rw [hparts]
    refine ⟨⟨hgrow.standing, harr.tidy.convertibleFree_container .lower id, ?_, hsilent⟩, hback⟩
    rw [hparts]
    exact fun p hp => hp

end Graph

section

open TypeBounds.Graph

variable {u : Universe} {F : VarId → VarId → Prop} {Z : VarId → Prop} {id : VarId}
  {res : Resolution} {ys : List VarId} {s s' : Progress}

/-- **Everything above has got the type**: whatever of it is still to be handed on, each of them
covers. -/
theorem passOn_ok (hu : u.Legible) (h : Passing u id res s.graph)
    (hys : ∀ y ∈ ys, y ∈ s.graph.ids ∧ ¬Z y) (hrun : passOn id res ys s = (.ok (), s')) :
    Passing u id res s'.graph ∧ Growth u F Z s.graph s'.graph ∧ SameShape s.graph s'.graph ∧
      (∀ p ∈ (res.type (s'.graph.boundsOf id)).unionParts, p ∈
        (res.type (s.graph.boundsOf id)).unionParts) ∧
      ∀ y ∈ ys, ∀ p ∈ (res.type (s'.graph.boundsOf id)).unionParts,
        s'.graph.Entails (Settled u) .lower y p := by
  induction ys generalizing s with
  | nil =>
    obtain ⟨-, rfl⟩ := pure_eq_ok.1 hrun
    exact ⟨h, .refl h.standing, refl_of SameShape s.graph, fun p hp => hp,
      fun y hy => (List.not_mem_nil hy).elim⟩
  | cons y ys ih =>
    replace hrun : ((do
        let g ← graph
        spread .lower y (res.type (g.boundsOf id)).copy) >>= fun _ => passOn id res ys) s =
          (.ok (), s') := hrun
    obtain ⟨_, s₁, hfirst, hrun⟩ := bind_eq_ok.1 hrun
    rw [graph_bind_apply, h.convertibleFree.copy_eq hu.toSound] at hfirst
    obtain ⟨hy, hyZ⟩ := hys y (List.mem_cons_self ..)
    have harr := spread_ok (admits_settled hu) h.standing.quiet h.standing.tidy
      h.standing.wellFormed hy (fun m hm => h.convertibleFree.settled hu.toSound hm) hfirst
    obtain ⟨h₁, hparts₁⟩ := h.arrived harr
    have hgrow₁ : Growth u F Z s.graph s₁.graph := harr.growth h.standing hyZ
    have hrest : ∀ y' ∈ ys, y' ∈ s₁.graph.ids ∧ ¬Z y' := by
      intro y' hy'
      rw [hgrow₁.frame.ids]
      exact hys y' (List.mem_cons_of_mem _ hy')
    obtain ⟨h₂, hgrow₂, hshape₂, hparts₂, hcovered⟩ := ih h₁ hrest hrun
    refine ⟨h₂, hgrow₁.trans hgrow₂, trans_of SameShape harr.shape hshape₂,
      fun p hp => hparts₁ p (hparts₂ p hp), fun y' hy' p hp => ?_⟩
    rcases List.mem_cons.1 hy' with rfl | hy'
    · exact hgrow₂.entails y' p (harr.absorbed p (hparts₁ p (hparts₂ p hp)))
    · exact hcovered y' hy' p hp

end

/-! ## Fixing one variable -/

namespace Graph

variable {u : Universe} {g g' : Graph} {id x z : VarId}

/-- **What fixing a variable does**: it has no edges any more, its references are fixed, and
everything that was above it covers what it resolves to. Nothing else is lost. -/
structure Frozen (u : Universe) (id : VarId) (g g' : Graph) : Prop where
  standing : g'.Standing u
  ids : g'.ids = g.ids
  names : g'.names = (g.pin id).names
  frozen : ∀ x, x ≠ id → (g'.boundsOf x).frozen = (g.boundsOf x).frozen
  edges : ∀ x y, x ∈ (g'.boundsOf y).below ↔ x ∈ (g.boundsOf y).below ∧ x ≠ id ∧ y ≠ id
  secluded : ∀ z, z ≠ id → g.Secluded z → SameBounds z g g'
  entails : ∀ x p, g.Entails (Settled u) .lower x p → g'.Entails (Settled u) .lower x p
  handed : ∀ y ∈ (g.boundsOf id).above, ∀ p ∈ (g'.boundsOf id).resolved.unionParts,
    g'.Entails (Settled u) .lower y p

theorem names_pin (h : g'.names = g.names) : (g'.pin id).names = (g.pin id).names := by
  unfold pin
  rw [h]

/-- Taking a variable out of the graph changes edges, names and the mark on it. -/
theorem Standing.detach (h : g.Standing u) (id : VarId) : (detach id g).Standing u ∧
    (detach id g).ids = g.ids ∧ (detach id g).names = (g.pin id).names ∧
    (∀ x side, ((detach id g).boundsOf x).side side = (g.boundsOf x).side side) ∧
    (∀ x, x ≠ id → ((detach id g).boundsOf x).frozen = (g.boundsOf x).frozen) ∧
    ∀ x y, x ∈ ((detach id g).boundsOf y).below ↔ x ∈ (g.boundsOf y).below ∧ x ≠ id ∧ y ≠ id := by
  have hsame : SameTypes g (g.isolate id) := sameTypes_isolate
  set g₁ := (g.isolate id).update id fun b => { b with frozen := true }
  have hfield {α : Type} (f : Bounds → α) (hf : ∀ b : Bounds, f { b with frozen := true } = f b)
    (x : VarId) :
      f (g₁.boundsOf x) = f ((g.isolate id).boundsOf x) := field_update f hf
  have hsides (x : VarId) (side : Side) : (g₁.boundsOf x).side side = (g.boundsOf x).side side := by
    rw [← side_boundsOf_of_sameTypes hsame side x]
    refine hfield (Bounds.side · side) (fun b => ?_) x
    cases side <;> rfl
  refine ⟨⟨h.wellFormed.detach id, hsame.lattice ▸ h.quiet, fun side x => ?_,
    fun side x t ht => ?_⟩, ?_, ?_, hsides, fun x hx => ?_, fun x y => ?_⟩
  · exact hsides x side ▸ h.tidy.keyed side x
  · have ht : t ∈ Members.types ((g₁.boundsOf x).side side) := ht
    rw [hsides] at ht
    exact h.tidy.admissible side x t ht
  · exact (ids_update _).trans hsame.ids
  · have hnames : g₁.names = g.names := hsame.names
    exact names_pin hnames
  · have hbounds : g₁.boundsOf x = (g.isolate id).boundsOf x := boundsOf_update_ne hx _
    exact (congrArg Bounds.frozen hbounds).trans (hsame.frozen x)
  · rw [← (h.wellFormed.isolate id).2 x y, ← hfield Bounds.below (fun _ => rfl) y]
    rfl

end Graph

section

open TypeBounds.Graph

variable {u : Universe} {id : VarId} {s s' : Progress}

/-- **Fixing** that came to its end. -/
theorem freeze_ok (hu : u.Legible) (h : s.graph.Standing u) (hid : id ∈ s.graph.ids)
    (hrun : freeze id s = (.ok (), s')) : Frozen u id s.graph s'.graph := by
  obtain ⟨s₁, hpass, rfl⟩ := freeze_cases hrun
  have hsettle : SameShape s.graph (settle id s.graph) := sameShape_settle
  have habove : ∀ y ∈ Natural.sort (s.graph.boundsOf id).above,
      y ∈ (settle id s.graph).ids ∧ ¬(settle id s.graph).Secluded y := by
    intro y hy
    have hy : id ∈ (s.graph.boundsOf y).below :=
      (h.wellFormed.mirrored id y).2 (Natural.mem_sort.1 hy)
    refine ⟨hsettle.ids ▸ mem_ids_of_mem_below_of hy, fun hsecl => ?_⟩
    have hnone := hsecl.below
    rw [hsettle.below] at hnone
    rw [hnone] at hy
    cases hy
  obtain ⟨hpassing, hgrow, hshape, -, hcovered⟩ :=
    passOn_ok (F := fun _ _ => True) (s := { s with graph := settle id s.graph }) hu
      (h.passing hu hid) habove hpass
  have hall : SameShape s.graph s₁.graph := trans_of SameShape hsettle hshape
  obtain ⟨hstanding, hids, hnames, hsides, hfrozen, hedges⟩ := hpassing.standing.detach id
  have hhas (side : Side) (x : VarId) : (detach id s₁.graph).has side x = s₁.graph.has side x :=
    congrArg Members.types (hsides x side)
  have hresolved : ((detach id s₁.graph).boundsOf id).resolved = (s₁.graph.boundsOf id).resolved :=
    Bounds.resolved_congr (hsides id .lower) (hsides id .upper)
  refine ⟨hstanding, hids.trans hall.ids, hnames.trans ?_,
    fun x hx => (hfrozen x hx).trans (hall.frozen x), fun x y => ?_, fun z hz hsecl side => ?_,
    fun x p hp => ?_, fun y hy p hp => ?_⟩
  · exact names_pin hall.names
  · rw [hedges, hall.below]
  · have hsame : (settle id s.graph).boundsOf z = s.graph.boundsOf z := boundsOf_update_ne hz _
    have hsecl : (settle id s.graph).Secluded z := hsecl.of_sameEdges hsettle.sameEdges
    rw [hsides, ← hsame]
    exact (hgrow.secluded z hsecl hsecl).2 side
  · rw [Entails, hhas]
    exact hgrow.entails x p (hp.settle id)
  · rw [Entails, hhas]
    rw [hresolved] at hp
    refine hcovered y (Natural.mem_sort.2 hy) p ?_
    by_cases hlower : (s₁.graph.boundsOf id).lower = []
    · rw [hpassing.silent hlower] at hp
      cases hp
    · rw [hpassing.standing.tidy.unionParts_resolved hlower] at hp
      exact hpassing.held p hp

end

end TypeBounds
