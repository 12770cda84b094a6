import TypeBounds.Proofs.Flow

/-!
# What merging leaves standing

Without implicit conversions and convertibles, whatever generalisation does between two fixings can
only add to a graph. `Graph.Growth` says what survives an addition:

* edges stay, and new ones are within any preorder that the old ones and the added ones are within;
* a variable without neighbours that nothing is added to keeps its bounds;
* what a lower bound entailed it still entails.

Handing on a bound and adding an edge are additions (`handOn_growth`, `addEdge_growth`). A merge
cuts one variable off, adds, and removes that variable (`mergeInto_ok`).
-/

namespace TypeBounds

open Infer Relation

/-- The members that bounds have wherever types have no convertibles. -/
theorem admits_settled {u : Universe} (hu : u.Legible) : Admits u (Settled u) :=
  ⟨hu, fun _ _ h => h⟩

namespace Graph

variable {u : Universe} {F : VarId → VarId → Prop} {Z : VarId → Prop}
  {g g' g'' : Graph} {side : Side} {id old new x y z : VarId} {ms : List Ty}

/-- A well-formed graph without implicit conversions and without convertibles in its bounds. -/
structure Standing (u : Universe) (g : Graph) : Prop where
  wellFormed : g.WellFormed
  quiet : g.lattice.Quiet
  tidy : g.Tidy (Settled u)

/-- Both bounds of the variable are the same in the two graphs. -/
def SameBounds (z : VarId) (g g' : Graph) : Prop :=
  ∀ side, (g'.boundsOf z).side side = (g.boundsOf z).side side

/-- **What an addition leaves standing**, if edges are added within `F` and nothing is added to a
variable of `Z`. -/
structure Growth (u : Universe) (F : VarId → VarId → Prop) (Z : VarId → Prop) (g g' : Graph) :
    Prop where
  standing : g'.Standing u
  frame : SameFrame g g'
  edges : ∀ x y, x ∈ (g.boundsOf y).below → x ∈ (g'.boundsOf y).below
  within : (∀ x y, x ∈ (g.boundsOf y).below → F x y) → ∀ x y, x ∈ (g'.boundsOf y).below → F x y
  secluded : ∀ z, Z z → g.Secluded z → g'.Secluded z ∧ SameBounds z g g'
  entails : ∀ x p, g.Entails (Settled u) .lower x p → g'.Entails (Settled u) .lower x p

theorem Growth.refl (h : g.Standing u) : Growth u F Z g g where
  standing := h
  frame := .rfl
  edges _ _ := id
  within := id
  secluded _ _ hz := ⟨hz, fun _ => rfl⟩
  entails _ _ := id

theorem Growth.trans (h : Growth u F Z g g') (h' : Growth u F Z g' g'') : Growth u F Z g g'' where
  standing := h'.standing
  frame := h.frame.trans h'.frame
  edges x y hxy := h'.edges x y (h.edges x y hxy)
  within hF := h'.within (h.within hF)
  secluded z hZ hz := by
    obtain ⟨hz', hsame⟩ := h.secluded z hZ hz
    obtain ⟨hz'', hsame'⟩ := h'.secluded z hZ hz'
    exact ⟨hz'', fun side => (hsame' side).trans (hsame side)⟩
  entails x p hp := h'.entails x p (h.entails x p hp)

/-- Nothing leads to a variable without neighbours. -/
theorem Standing.not_leads (h : g.Standing u) (hz : g.Secluded z) (hne : x ≠ z) :
    ¬ReflTransGen (fun x y => y ∈ g.onward side x) x z := by
  intro hpath
  rcases hpath.cases_tail with rfl | ⟨w, -, hw⟩
  · exact hne rfl
  · have hnone := h.wellFormed.not_mem_of_secluded hz w
    cases side with
    | lower => exact hnone.1 ((h.wellFormed.mirrored w z).2 (Natural.mem_sort.1 hw))
    | upper => exact hnone.2 (Natural.mem_sort.1 hw)

/-- A type that was propagated is an addition. -/
theorem Arrived.growth (h : g.Standing u) (hid : ¬Z id)
    (harr : Arrived (Settled u) side ms id g g') : Growth u F Z g g' := by
  have hshape := harr.shape
  refine ⟨⟨h.wellFormed.of_sameShape hshape, hshape.lattice ▸ h.quiet, harr.tidy⟩,
    hshape.toSameFrame, fun x y hxy => ?_, fun hF x y hxy => ?_, fun z hZ hz => ?_,
    fun x p hp => ?_⟩
  · rw [hshape.below]
    exact hxy
  · rw [hshape.below] at hxy
    exact hF x y hxy
  · have hne : id ≠ z := fun heq => hid (heq ▸ hZ)
    refine ⟨hz.of_sameEdges hshape.sameEdges, fun side' => ?_⟩
    rcases side.eq_or_eq_other side' with rfl | rfl
    · exact harr.untouched z (h.not_leads hz hne)
    · exact harr.other z
  · cases side with
    | lower => exact harr.entails_of_entails hp
    | upper =>
      have hhas : g'.has .lower x = g.has .lower x := congrArg Members.types (harr.other x)
      rw [Entails, hhas]
      exact hp

/-- A new edge with its closure is an addition. -/
theorem Standing.growth_linkAcross [IsPreorder VarId F] (h : g.Standing u) (hx : x ∈ g.ids)
    (hy : y ∈ g.ids) (hxZ : ¬Z x) (hyZ : ¬Z y) (hxy : F x y) :
    Growth u F Z g (g.linkAcross x y) := by
  have hsame : SameTypes g (g.linkAcross x y) := sameTypes_linkAcross
  obtain ⟨hwf, hedge⟩ := h.wellFormed.linkAcross hx hy
  refine ⟨⟨hwf, hsame.lattice ▸ h.quiet, h.tidy.of_sameTypes hsame⟩, hsame.toSameFrame,
    fun a b hab => (hedge a b).2 (.inl hab), fun hF a b hab => ?_, fun z hZ hz => ?_,
    fun a p hp => ?_⟩
  · rcases (hedge a b).1 hab with hab | ⟨ha, hb, -⟩
    · exact hF a b hab
    · have hax : F a x := by
        rcases ha with rfl | ha
        · exact refl_of F a
        · exact hF a x ha
      have hyb : F y b := by
        rcases hb with rfl | hb
        · exact refl_of F b
        · exact hF y b ((h.wellFormed.mirrored y b).2 hb)
      exact trans_of F hax (trans_of F hxy hyb)
  · refine ⟨hz.linkAcross h.wellFormed hx hy ?_ ?_,
      fun side => side_boundsOf_of_sameTypes hsame side z⟩
    · exact fun heq => hxZ (heq ▸ hZ)
    · exact fun heq => hyZ (heq ▸ hZ)
  · rw [Entails, has_of_sameTypes hsame]
    exact hp

end Graph

section

open TypeBounds.Graph

variable {u : Universe} {F : VarId → VarId → Prop} {Z : VarId → Prop} {side : Side}
  {id old new : VarId} {s s' : Progress}

theorem handOn_growth (hu : u.Legible) (h : s.graph.Standing u) (side : Side)
    (hid : id ∈ s.graph.ids) (hidZ : ¬Z id) {ms : Members} (hkeyed : ms.Keyed)
    (hms : ∀ t ∈ Members.types ms, Settled u side t) (hrun : handOn side id ms s = (.ok (), s')) :
    Growth u F Z s.graph s'.graph :=
  (handOn_ok (admits_settled hu) h.quiet h.tidy h.wellFormed hid hkeyed hms hrun).growth h hidZ

/-- A bound of one variable is handed on to another one. -/
theorem handOn_growth_of (hu : u.Legible) (h : s.graph.Standing u) (side : Side)
    (hid : id ∈ s.graph.ids) (hidZ : ¬Z id)
    (hrun : handOn side id ((s.graph.boundsOf old).side side) s = (.ok (), s')) :
    Growth u F Z s.graph s'.graph :=
  handOn_growth hu h side hid hidZ (h.tidy.keyed side old) (h.tidy.admissible side old) hrun

theorem addEdge_growth [IsPreorder VarId F] (hu : u.Legible) (h : s.graph.Standing u) {x y : VarId}
    (hx : x ∈ s.graph.ids) (hy : y ∈ s.graph.ids) (hxZ : ¬Z x) (hyZ : ¬Z y) (hxy : F x y)
    (hrun : addEdge x y s = (.ok (), s')) : Growth u F Z s.graph s'.graph := by
  rcases addEdge_cases hrun with ⟨-, rfl⟩ | ⟨-, s₁, s₂, hs₁, hlower, hupper⟩
  · exact .refl h
  · have hlink : Growth u F Z s.graph s₁.graph := hs₁ ▸ h.growth_linkAcross hx hy hxZ hyZ hxy
    have hfirst : Growth u F Z s₁.graph s₂.graph := by
      refine handOn_growth hu hlink.standing .lower (hlink.frame.ids ▸ hy) hyZ ?_ ?_ hlower
      · exact h.tidy.keyed .lower x
      · exact h.tidy.admissible .lower x
    have hsecond : Growth u F Z s₂.graph s'.graph :=
      handOn_growth_of hu hfirst.standing .upper
        (hfirst.frame.ids ▸ hlink.frame.ids ▸ hx) hxZ hupper
    exact (hlink.trans hfirst).trans hsecond

/-- A loop of additions. -/
theorem forM_growth {α : Type} {f : α → Infer PUnit} {xs : List α} (h : s.graph.Standing u)
    (hf : ∀ a ∈ xs, ∀ s₁ s₂, s₁.graph.Standing u → s₁.graph.ids = s.graph.ids →
      f a s₁ = (.ok (), s₂) →
      Growth u F Z s₁.graph s₂.graph)
    (hrun : xs.forM f s = (.ok (), s')) : Growth u F Z s.graph s'.graph := by
  induction xs generalizing s with
  | nil =>
    obtain ⟨-, rfl⟩ := pure_eq_ok.1 hrun
    exact .refl h
  | cons a xs ih =>
    replace hrun : (f a >>= fun _ => xs.forM f) s = (.ok (), s') := hrun
    obtain ⟨_, s₁, hfirst, hrun⟩ := bind_eq_ok.1 hrun
    have hgrow := hf a (List.mem_cons_self ..) s s₁ h rfl hfirst
    refine hgrow.trans (ih hgrow.standing (fun b hb s₂ s₃ hs₂ hids => ?_) hrun)
    exact hf b (List.mem_cons_of_mem _ hb) s₂ s₃ hs₂ (hids.trans hgrow.frame.ids)

/-- **Taking over** the bounds and the neighbours of a variable that is not frozen. -/
theorem takeOver_growth [IsPreorder VarId F] (hu : u.Legible) (h : s.graph.Standing u)
    (hfrozen : (s.graph.boundsOf old).frozen = false) (hnew : new ∈ s.graph.ids) (hnewZ : ¬Z new)
    {lowers uppers : List VarId} (hlowers : ∀ x ∈ lowers, x ∈ s.graph.ids ∧ ¬Z x ∧ F x new)
    (huppers : ∀ y ∈ uppers, y ∈ s.graph.ids ∧ ¬Z y ∧ F new y)
    (hrun : takeOver old new lowers uppers s = (.ok (), s')) : Growth u F Z s.graph s'.graph := by
  obtain ⟨s₁, s₂, s₃, hlower, hupper, hbelow, habove⟩ := takeOver_cases hrun
  have h₁ : Growth u F Z s.graph s₁.graph := handOn_growth_of hu h .lower hnew hnewZ hlower
  have h₂ : Growth u F Z s₁.graph s₂.graph :=
    handOn_growth_of hu h₁.standing .upper (h₁.frame.ids ▸ hnew) hnewZ hupper
  have h₂ := h₁.trans h₂
  have hsame : inheritFrozen old new s₂.graph = s₂.graph := by
    rw [inheritFrozen, h₂.frame.frozen, hfrozen, if_neg Bool.false_ne_true]
  rw [hsame] at hbelow
  have h₃ : Growth u F Z s₂.graph s₃.graph := by
    refine forM_growth h₂.standing (fun x hx s₄ s₅ hs₄ hids hedge => ?_) hbelow
    obtain ⟨hx, hxZ, hxF⟩ := hlowers x hx
    have hids : s₄.graph.ids = s.graph.ids := hids.trans h₂.frame.ids
    exact addEdge_growth hu hs₄ (hids ▸ hx) (hids ▸ hnew) hxZ hnewZ hxF hedge
  have h₃ := h₂.trans h₃
  refine h₃.trans (forM_growth h₃.standing (fun y hy s₄ s₅ hs₄ hids hedge => ?_) habove)
  obtain ⟨hy, hyZ, hyF⟩ := huppers y hy
  have hids : s₄.graph.ids = s.graph.ids := hids.trans h₃.frame.ids
  exact addEdge_growth hu hs₄ (hids ▸ hnew) (hids ▸ hy) hnewZ hyZ hyF hedge

end

/-! ## Merging -/

namespace Graph

variable {u : Universe} {F : VarId → VarId → Prop} {Z : VarId → Prop} {g g' : Graph}
  {old new x : VarId}

/-- Where there are no convertibles, cutting a variable off changes edges and names only. -/
theorem Tidy.boundsOf_cutOff {P : Side → Ty → Prop} (hP : Admits u P) (h : g.Tidy P)
    (old new x : VarId) :
    (g.cutOff old new).boundsOf x = ((g.redirect old new).isolate old).boundsOf x := by
  have htidy : ((g.redirect old new).isolate old).Tidy P :=
    Tidy.of_sameTypes (g := g.redirect old new) ⟨h.keyed, h.admissible⟩ sameTypes_isolate
  have hpoints (side : Side) (x : VarId) : ((g.redirect old new).isolate old).pointsAt
      ((((g.redirect old new).isolate old).boundsOf x).side side) old = false :=
    pointsAt_eq hP.legible.toSound fun t ht => htidy.convertibleFree hP ht
  exact boundsOf_renameConvertibles (hpoints .lower x) (hpoints .upper x)

theorem Tidy.sameBounds_cutOff {P : Side → Ty → Prop} (hP : Admits u P) (h : g.Tidy P)
    (old new x : VarId) : SameBounds x g (g.cutOff old new) := by
  intro side
  rw [h.boundsOf_cutOff hP]
  exact side_boundsOf_of_sameTypes (g := g.redirect old new) sameTypes_isolate side x

theorem Tidy.unregister {P : Side → Ty → Prop} (h : g.Tidy P) (x : VarId) :
    (g.unregister x).Tidy P := by
  refine ⟨fun side y => ?_, fun side y => ?_⟩
  · rw [boundsOf_unregister]
    split
    · cases side <;> exact .nil
    · exact h.keyed side y
  · rw [has, boundsOf_unregister]
    split
    · cases side <;> exact fun t ht => (List.not_mem_nil ht).elim
    · exact h.admissible side y

theorem Standing.cutOff (hu : u.Legible) (h : g.Standing u) (old : VarId) (hnew : new ∈ g.ids) :
    (g.cutOff old new).Standing u ∧ (∀ x, SameBounds x g (g.cutOff old new)) ∧
      (∀ x, ((g.cutOff old new).boundsOf x).frozen = (g.boundsOf x).frozen) ∧
      ∀ x y, x ∈ ((g.cutOff old new).boundsOf y).below ↔ x ∈ (g.boundsOf y).below ∧
        x ≠ old ∧ y ≠ old := by
  have hbounds (x : VarId) := h.tidy.boundsOf_cutOff (admits_settled hu) old new x
  have hsides (x : VarId) := h.tidy.sameBounds_cutOff (admits_settled hu) old new x
  have hlattice : (g.cutOff old new).lattice = g.lattice := sameFrame_cutOff.lattice
  refine ⟨⟨(h.wellFormed.cutOff hnew).wellFormed, hlattice ▸ h.quiet, ?_⟩, hsides,
    sameFrame_cutOff.frozen, fun x y => ?_⟩
  · exact h.tidy.of_sides fun side x => hsides x side
  · rw [hbounds]
    exact ((h.wellFormed.redirect hnew).isolate old).2 x y

/-- **What a merge leaves standing**, if it is within `F` and not of `Z`. -/
structure Merged (u : Universe) (F : VarId → VarId → Prop) (Z : VarId → Prop) (old new : VarId)
    (g g' : Graph) : Prop where
  standing : g'.Standing u
  ids : g'.ids = if g.isPinned old then g.ids else g.ids.filter (· ≠ old)
  names : g'.names = (g.redirect old new).names
  frozen : ∀ x, (g'.boundsOf x).frozen = (g.boundsOf x).frozen
  edges : ∀ x y, x ≠ old → y ≠ old → x ∈ (g.boundsOf y).below → x ∈ (g'.boundsOf y).below
  within : ∀ x y, x ∈ (g'.boundsOf y).below → F x y
  secluded : ∀ z, z ≠ old → Z z → g'.Secluded z ∧ SameBounds z g g'
  entails : ∀ x p, x ≠ old → g.Entails (Settled u) .lower x p → g'.Entails (Settled u) .lower x p

/-- The record of a variable without neighbours that no name denotes is removed. -/
theorem Standing.unregister (h : g.Standing u) (hwf : (g.unregister old).WellFormed) :
    (g.unregister old).Standing u :=
  ⟨hwf, h.quiet, h.tidy.unregister old⟩

end Graph

section

open TypeBounds.Graph

variable {u : Universe} {F : VarId → VarId → Prop} [IsPreorder VarId F] {Z : VarId → Prop}
  {old new : VarId} {s s' : Progress}

section

variable (hu : u.Legible) (h : s.graph.Standing u) (hne : old ≠ new) (hnew : new ∈ s.graph.ids)
  (hfrozen : (s.graph.boundsOf old).frozen = false)
  (hF : ∀ x y, x ∈ (s.graph.boundsOf y).below → F x y) (holdF : F old new) (hnewF : F new old)
  (hZ : ∀ z, Z z → s.graph.Secluded z ∧ z ≠ new)

include hu h hne hnew hfrozen hF holdF hnewF hZ

/-- **A merge up to the removal**: the old variable is cut off, and all it had is taken over. -/
theorem takeOver_ok
    (hrun : takeOver old new (others old new (s.graph.below old))
      (others old new (s.graph.above old))
      { s with graph := s.graph.cutOff old new } = (.ok (), s')) :
    Growth u F (fun z => Z z ∨ z = old) (s.graph.cutOff old new) s'.graph := by
  obtain ⟨hcut, -, hcutFrozen, -⟩ := h.cutOff hu old hnew
  have hids : (s.graph.cutOff old new).ids = s.graph.ids := (h.wellFormed.cutOff hnew).ids_eq
  -- a neighbour of the old variable has a neighbour
  have hneighbour {x : VarId} (hx : x ≠ old)
      (hedge : x ∈ (s.graph.boundsOf old).below ∨ old ∈ (s.graph.boundsOf x).below) :
      ¬(Z x ∨ x = old) := by
    rintro (hZx | hxold)
    · have hnone := h.wellFormed.not_mem_of_secluded (hZ x hZx).1 old
      exact hedge.elim hnone.2 hnone.1
    · exact hx hxold
  refine takeOver_growth (s := { s with graph := s.graph.cutOff old new }) hu hcut ?_
    (hids ▸ hnew) ?_ ?_ ?_ hrun
  · exact (hcutFrozen old).trans hfrozen
  · rintro (hZnew | hnewold)
    · exact (hZ new hZnew).2 rfl
    · exact hne hnewold.symm
  · intro x hx
    simp only [others, Graph.below, List.mem_filter, Natural.mem_sort, Bool.and_eq_true,
      decide_eq_true_eq] at hx
    obtain ⟨hx, hxold, -⟩ := hx
    refine ⟨hids ▸ h.wellFormed.mem_ids_of_mem_below hx, hneighbour hxold (.inl hx), ?_⟩
    exact trans_of F (hF x old hx) holdF
  · intro y hy
    simp only [others, Graph.above, List.mem_filter, Natural.mem_sort, Bool.and_eq_true,
      decide_eq_true_eq] at hy
    obtain ⟨hy, hyold, -⟩ := hy
    have hbelow := (h.wellFormed.mirrored old y).2 hy
    refine ⟨hids ▸ h.wellFormed.mem_ids_of_mem_above hy, hneighbour hyold (.inr hbelow), ?_⟩
    exact trans_of F hnewF (hF old y hbelow)

/-- **A merge** that came to its end. -/
theorem mergeInto_ok
    (hrun : mergeInto old new s = (.ok (), s')) : Merged u F Z old new s.graph s'.graph := by
  rw [mergeInto_eq, graph_bind_apply, modify_bind_apply] at hrun
  obtain ⟨_, s₁, htake, hrun⟩ := bind_eq_ok.1 hrun
  obtain ⟨hcut, hsides, hcutFrozen, hedge⟩ := h.cutOff hu old hnew
  have hstart : Merging s.graph.ids (s.graph.redirect old new).names old (s.graph.cutOff old new) :=
    h.wellFormed.cutOff hnew
  have hgrow := takeOver_ok hu h hne hnew hfrozen hF holdF hnewF hZ htake
  have hmerging : Merging s.graph.ids (s.graph.redirect old new).names old s₁.graph :=
    ⟨hgrow.standing.wellFormed, hgrow.frame.ids.trans hstart.ids_eq,
      hgrow.frame.names.trans hstart.names_eq, (hgrow.secluded old (.inr rfl) hstart.secluded).1⟩
  obtain ⟨hwf', hids, hnames, hsecluded, hend, hbounds⟩ := hmerging.finish hne hrun
  have hstanding : s'.graph.Standing u := by
    rcases hend with hend | hend
    · exact hend ▸ hgrow.standing
    · exact hend ▸ hgrow.standing.unregister (hend ▸ hwf')
  refine ⟨hstanding, hids, hnames, fun x => ?_, fun x y hx hy hxy => ?_,
    fun x y hxy => ?_, fun z hz hZz => ?_, fun x p hx hp => ?_⟩
  · have hkept : (s₁.graph.boundsOf x).frozen = (s.graph.boundsOf x).frozen := by
      rw [hgrow.frame.frozen, hcutFrozen]
    rcases hend with hend | hend
    · rw [hend, hkept]
    · rw [hend, boundsOf_unregister]
      split
      · rename_i hx
        rw [hx, hfrozen]
      · exact hkept
  · rw [hbounds y hy]
    exact hgrow.edges x y ((hedge x y).2 ⟨hxy, hx, hy⟩)
  · by_cases hy : y = old
    · rw [hy, hsecluded.below] at hxy
      cases hxy
    · rw [hbounds y hy] at hxy
      exact hgrow.within (fun x y hxy => hF x y ((hedge x y).1 hxy).1) x y hxy
  · have hcutz : (s.graph.cutOff old new).Secluded z := by
      refine hcut.wellFormed.secluded fun x => ?_
      have hnone := h.wellFormed.not_mem_of_secluded (hZ z hZz).1 x
      exact ⟨fun hx => hnone.1 ((hedge x z).1 hx).1, fun hx => hnone.2 ((hedge z x).1 hx).1⟩
    obtain ⟨hsecl, hsame⟩ := hgrow.secluded z (.inl hZz) hcutz
    refine ⟨⟨?_, ?_⟩, fun side => ?_⟩
    · rw [hbounds z hz]
      exact hsecl.below
    · rw [hbounds z hz]
      exact hsecl.above
    · rw [hbounds z hz, hsame side, hsides z side]
  · have hcutp : (s.graph.cutOff old new).Entails (Settled u) .lower x p := by
      rw [Entails, has, hsides x .lower]
      exact hp
    rw [Entails, has, hbounds x hx]
    exact hgrow.entails x p hcutp

end

end

end TypeBounds
