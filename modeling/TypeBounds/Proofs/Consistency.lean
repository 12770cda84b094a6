import TypeBounds.Proofs.Accepted
import TypeBounds.Proofs.Bridges
import TypeBounds.Proofs.Flow

/-!
# Accepted bounds and implicit conversions

Every new member of a bound is checked against the opposite bound, and where only an implicit
conversion bridges the two, the bounds follow: the upper bound narrows to the target, and the lower
bound widens to the source. A check looks at one new member at a time and is not made again, though.
So what is certain is that a lower member is bridged to every upper member that it met, one at a
time; that it is bridged to the upper bound as a whole is certain only if conversions are coherent.

* `Graph.Paired`: what accepted calls keep, and `Nested`, the same for a propagation at any depth;
* `Lattice.MeetCoherent`, `Lattice.TargetCoherent`: what conversions have to satisfy;
* `nested_spreadWithin`: propagation keeps bounds paired.
-/

namespace TypeBounds

open Infer

section

variable {u : Universe} {l : Lattice} {g g' g'' : Graph} {side : Side} {id x : VarId} {a m t v : Ty}
  {ms : List Ty} {s s' : Progress} {A A' : Ty → Prop} {nested : Side → VarId → Ty → Infer Unit}

/-! ## Coherent conversions -/

namespace Lattice

/-- **Meets are coherent**: what fits under types that can stand together, under each on its own, is
bridged to all of them at once. What fits under a single type is for `R` to say. -/
def MeetCoherent (u : Universe) (l : Lattice) (R : Ty → Ty → Prop) : Prop :=
  ∀ a us, u.Declares a → (∀ v ∈ us, u.Declares v) →
    us.Pairwise (fun v w => ¬Sub v w ∧ ¬Sub w v ∧ ¬Graph.clashes v w) →
    (∀ v ∈ us, R a v) → l.Bridges a us

/-- A source that a lower bound can be raised to: something below it needs the conversion and has
none of its own. -/
def Raised (u : Universe) (l : Lattice) (b : Ty) : Prop :=
  ∃ c ∈ l.conversions, c.implicit ∧ c.source = b ∧
    ∃ a v, u.Declares a ∧ u.Declares v ∧ Sub a b ∧ Sub c.target v ∧ ¬l.Serves a v

/-- A conversion that a raised lower bound can come to need. -/
def Deep (u : Universe) (l : Lattice) (d : Conversion) : Prop :=
  d ∈ l.conversions ∧ d.implicit ∧ ∃ b, l.Raised u b ∧ Sub b d.source

/-- **Targets are coherent**: where the target of a deep conversion can come to stand together with
something below the target of another one, the source of that one is bridged to it. -/
def TargetCoherent (u : Universe) (l : Lattice) : Prop :=
  ∀ c ∈ l.conversions, c.implicit → ∀ d, l.Deep u d → ∀ w, u.Declares w → Sub w c.target →
    (w = d.target ∨ ¬Graph.clashes w d.target) → l.Bridges c.source [d.target]

end Lattice

/-! ## The checks -/

/-- **A lower member that was let through** is below the whole upper bound, or a conversion bridges
the two and the upper bound was narrowed to its target. -/
theorem checkUpper_cases (hu : u.Legible) (hl : u.Converts s.graph.lattice)
    (h : s.graph.Tidy (Named u)) (hm : u.Declares m) {narrow : VarId → Ty → Infer Unit}
    (hrun : checkUpper narrow id m s = (.ok (), s')) :
    s' = s ∧ (∀ v ∈ s.graph.has .upper id, Sub m v) ∨
      ∃ c ∈ s.graph.lattice.conversions, c.implicit ∧ Sub m c.source ∧
        (∀ v ∈ s.graph.has .upper id, Sub c.target v) ∧
        ∃ s₁, s₁.graph = s.graph ∧ narrow id c.target s₁ = (.ok (), s') := by
  have hkeyed := h.keyed .upper id
  have hnamed := h.admissible .upper id
  unfold checkUpper at hrun
  rw [graph_bind_apply] at hrun
  simp only [h.checkableUpper_eq (admits_named hu)] at hrun
  split at hrun
  · rename_i hfits
    obtain ⟨-, rfl⟩ := pure_eq_ok.1 hrun
    refine .inl ⟨rfl, ?_⟩
    rw [ConvertibleFree.isUnresolved_eq hu.toSound (.declared hm), Bool.false_or,
      Bool.or_eq_true] at hfits
    rcases hfits with hempty | hsub
    · intro v hv
      have hnil : (s.graph.boundsOf id).side .upper = [] := List.isEmpty_iff.1 hempty
      rw [Graph.has, hnil] at hv
      cases hv
    · exact (isSubtype_inter_iff hu hm hkeyed hnamed).1 hsub
  · cases himplicit : s.graph.implicit? m (.inter (s.graph.boundsOf id).upper) with
    | none =>
      rw [himplicit] at hrun
      cases hrun
    | some c =>
      rw [himplicit] at hrun
      obtain ⟨_, s₁, hnote, hnarrow⟩ := bind_eq_ok.1 hrun
      obtain ⟨hc, hcimplicit, hsource, htarget⟩ :=
        implicit?_eq_some hu hl (hu.toSound.settled hm .lower) himplicit
      refine .inr ⟨c, hc, hcimplicit, hsource, ?_, s₁, ?_, hnarrow⟩
      · exact (isSubtype_inter_iff hu (hl c hc).2 hkeyed hnamed).1 htarget
      · cases hnote
        rfl

/-- **An upper member that was let through** is bridged from every lower member on its own, and what
the lower bound has to cover because of that is a member already or raised. -/
theorem checkLower_cases (hu : u.Legible) (hl : u.Converts s.graph.lattice)
    (h : s.graph.Tidy (Named u)) (hm : u.Declares m) {sources : List Ty}
    (hrun : checkLower id m s = (.ok sources, s')) :
    s'.graph = s.graph ∧ (∀ a ∈ s.graph.has .lower id, s.graph.lattice.Bridges a [m]) ∧
      ∀ b ∈ sources, u.Declares b ∧ (b ∈ s.graph.has .lower id ∨ s.graph.lattice.Raised u b) := by
  have hiff {b : Ty} (hb : u.Declares b) : s.graph.isSubtype b m ↔ Sub b m :=
    isSubtype_iff hu (.declared hb) (.declared hm)
  have hconverted {a : Ty} (ha : a ∈ s.graph.has .lower id) {c : Conversion}
      (hc : s.graph.implicit? a m = some c) :
      c ∈ s.graph.lattice.conversions ∧ c.implicit ∧ Sub a c.source ∧ Sub c.target m := by
    have ha := h.admissible .lower id a ha
    obtain ⟨hc, himplicit, hsource, htarget⟩ :=
      implicit?_eq_some hu hl (hu.toSound.settled ha .lower) hc
    exact ⟨hc, himplicit, hsource, (hiff (hl c hc).2).1 htarget⟩
  obtain ⟨hs', hpassed, hsources⟩ := checkLower_passed hrun
  have hresolved {b : Ty} (hb : u.Declares b) : ¬s.graph.isUnresolved b := by
    rw [ConvertibleFree.isUnresolved_eq hu.toSound (.declared hb)]
    exact Bool.false_ne_true
  refine ⟨hs', fun a ha => ?_, fun b hb => ?_⟩
  · have hdeclared := h.admissible .lower id a ha
    rcases (hpassed.resolve_left (hresolved hm) a ha).resolve_left
      (hresolved hdeclared) with hsub | hsome
    · exact .inl fun v hv => List.mem_singleton.1 hv ▸ (hiff hdeclared).1 hsub
    · obtain ⟨c, hc⟩ := Option.isSome_iff_exists.1 hsome
      obtain ⟨hc, himplicit, hsource, htarget⟩ := hconverted ha hc
      exact .of_conversion hc himplicit hsource htarget
  · obtain ⟨a, ha, hsub, c, himplicit?, rfl⟩ := hsources b hb
    have hdeclared := h.admissible .lower id a ha
    obtain ⟨hc, himplicit, hsource, htarget⟩ := hconverted ha himplicit?
    refine ⟨(hl c hc).1, ?_⟩
    -- the check had to choose, and conversions of `a` itself come first
    by_cases hserves : s.graph.lattice.Serves a m
    · refine .inl ?_
      have hown := hserves.resolve_left fun h => hsub ((hiff hdeclared).2 h)
      rw [source_of_implicit? hl hu hdeclared hm himplicit? hown]
      exact ha
    · exact .inr ⟨c, hc, himplicit, rfl, a, m, hdeclared, hm, hsource, htarget, hserves⟩

/-! ## Pairs of members -/

namespace Graph

/-- **What accepted calls keep**: the members of an upper bound can stand together, and every member
of a lower bound is bridged to each of them. -/
structure Paired (u : Universe) (l : Lattice) (g : Graph) : Prop where
  lattice : g.lattice = l
  tidy : g.Tidy (Named u)
  antichain : g.Antichain .upper
  apart : ∀ x, ∀ v ∈ g.has .upper x, ∀ w ∈ g.has .upper x, v ≠ w → ¬clashes v w
  bridged : ∀ x, ∀ a ∈ g.has .lower x, ∀ v ∈ g.has .upper x, l.Bridges a [v]

/-- The bounds grew: what they said is still said, and every new member of an upper bound is as `A`
says. -/
structure Grown (A : Ty → Prop) (g g' : Graph) : Prop where
  shape : SameShape g g'
  fresh : ∀ x, ∀ w ∈ g'.has .upper x, w ∈ g.has .upper x ∨ A w
  covers : ∀ side x, ∀ t ∈ g.has side x, g'.Covers side x t

theorem chains_named (hu : u.Legible) (side : Side) : side.Chains (Named u) := by
  intro a b c ha hb hc hab hbc
  cases side with
  | lower => exact hu.sub_trans ha hb hc hab hbc
  | upper => exact hu.sub_trans hc hb ha hbc hab

theorem Covers.of_mem (hu : u.Legible) (h : g.Tidy (Named u)) (ht : t ∈ g.has side x) :
    g.Covers side x t :=
  ⟨t, ht, side.covered_refl hu.toSound (h.convertibleFree (admits_named hu) ht)⟩

theorem Grown.refl (hu : u.Legible) (h : g.Tidy (Named u)) : Grown A g g :=
  ⟨refl_of SameShape g, fun _ _ => .inl, fun _ _ _ => .of_mem hu h⟩

theorem Grown.mono (h : Grown A g g') (hA : ∀ w, A w → A' w) : Grown A' g g' :=
  ⟨h.shape, fun x w hw => (h.fresh x w hw).imp id (hA w), h.covers⟩

theorem Grown.covers_of_covers (hu : u.Legible) (h : Grown A g g') (hg : g.Tidy (Named u))
    (hg' : g'.Tidy (Named u)) (ht : u.Declares t) (hcov : g.Covers side x t) :
    g'.Covers side x t := by
  obtain ⟨e, he, hte⟩ := hcov
  obtain ⟨e', he', hee'⟩ := h.covers side x e he
  refine ⟨e', he', chains_named hu side t e e' ht ?_ ?_ hte hee'⟩
  · exact hg.admissible side x e he
  · exact hg'.admissible side x e' he'

theorem Grown.trans (hu : u.Legible) (hg : g.Tidy (Named u)) (hg' : g'.Tidy (Named u))
    (hg'' : g''.Tidy (Named u)) (h : Grown A g g') (h' : Grown A g' g'') : Grown A g g'' where
  shape := trans_of SameShape h.shape h'.shape
  fresh x w hw := by
    rcases h'.fresh x w hw with hw | hw
    · exact h.fresh x w hw
    · exact .inr hw
  covers side x t ht :=
    h'.covers_of_covers hu hg' hg'' (hg.admissible side x t ht) (h.covers side x t ht)

end Graph

open TypeBounds.Graph

/-- What comes into upper bounds while the parts `ms` are taken to bounds of one side: the parts
themselves, or the targets of conversions that they need, and the targets of deep conversions. -/
def Arising (u : Universe) (l : Lattice) (side : Side) (ms : List Ty) (w : Ty) : Prop :=
  (∃ d, l.Deep u d ∧ w = d.target) ∨ match side with
    | .lower => ∃ c ∈ l.conversions, c.implicit ∧ w = c.target ∧ ∃ m ∈ ms, Sub m c.source
    | .upper => w ∈ ms

/-- **What a propagation keeps and achieves**, for the parts `ms` of a type and a start. -/
structure Keeping (u : Universe) (l : Lattice) (side : Side) (ms : List Ty) (id : VarId)
    (g g' : Graph) : Prop where
  paired : g'.Paired u l
  grown : Grown (Arising u l side ms) g g'
  idle : (∀ m ∈ ms, g.Covers side id m) → g' = g

/-! ## Insertions -/

namespace Graph

theorem grown_inserted (hu : u.Legible) (h : g.Tidy (Named u)) (hm : u.Declares m)
    (hid : id ∈ g.ids) (hA : side = .upper → A m) : Grown A g (g.inserted side id m) := by
  have hP := admits_named hu
  have hm' : Named u side m := hm
  obtain ⟨-, hmem⟩ := h.mem_inserted hP side (.declared hm) hid
  refine ⟨sameShape_inserted, fun x w hw => ?_, fun side' x t ht => ?_⟩
  · by_cases hx : Side.upper = side ∧ x = id
    · obtain ⟨rfl, rfl⟩ := hx
      rcases (hmem w).1 hw with ⟨hw, -⟩ | rfl
      · exact .inl hw
      · exact .inr (hA rfl)
    · rw [has_inserted_ne (not_and_or.1 hx)] at hw
      exact .inl hw
  · by_cases hx : side' = side ∧ x = id
    · obtain ⟨rfl, rfl⟩ := hx
      by_cases hcov : side'.Covered t m
      · exact ⟨m, (hmem m).2 (.inr rfl), hcov⟩
      · exact .of_mem hu (h.inserted hP hm' hid) ((hmem t).2 (.inl ⟨ht, hcov⟩))
    · refine .of_mem hu (h.inserted hP hm' hid) ?_
      rw [has_inserted_ne (not_and_or.1 hx)]
      exact ht

theorem Paired.insertedLower (hu : u.Legible) (h : g.Paired u l) (hm : u.Declares m)
    (hid : id ∈ g.ids) (hbridged : ∀ v ∈ g.has .upper id, l.Bridges m [v]) :
    (g.inserted .lower id m).Paired u l := by
  have hP := admits_named hu
  have hupper (x : VarId) : (g.inserted .lower id m).has .upper x = g.has .upper x :=
    has_inserted_ne (.inl fun h => by cases h)
  refine ⟨sameShape_inserted.lattice.trans h.lattice, h.tidy.inserted hP hm hid,
    fun x t ht e he => ?_, fun x v hv w hw => ?_, fun x a ha v hv => ?_⟩
  · rw [hupper] at ht he
    exact h.antichain x t ht e he
  · rw [hupper] at hv hw
    exact h.apart x v hv w hw
  · rw [hupper] at hv
    by_cases hx : x = id
    · subst hx
      rcases ((h.tidy.mem_inserted hP .lower (.declared hm) hid).2 a).1 ha with ⟨ha, -⟩ | rfl
      · exact h.bridged x a ha v hv
      · exact hbridged v hv
    · rw [has_inserted_ne (.inr hx)] at ha
      exact h.bridged x a ha v hv

theorem clashes_comm (v w : Ty) : clashes v w = clashes w v := by
  unfold clashes
  rw [Bool.or_comm v.isFinal, Bool.and_comm (!v.isCombinable)]

theorem Paired.insertedUpper (hu : u.Legible) (h : g.Paired u l) (hm : u.Declares m)
    (hid : id ∈ g.ids) (hnew : ¬g.Covers .upper id m)
    (hapart : ∀ e ∈ g.has .upper id, ¬Sub m e → ¬clashes e m)
    (hbridged : ∀ a ∈ g.has .lower id, l.Bridges a [m]) : (g.inserted .upper id m).Paired u l := by
  have hP := admits_named hu
  have hmem := (h.tidy.mem_inserted hP .upper (.declared hm) hid).2
  have hlower (x : VarId) : (g.inserted .upper id m).has .lower x = g.has .lower x :=
    has_inserted_ne (.inl fun h => by cases h)
  refine ⟨sameShape_inserted.lattice.trans h.lattice, h.tidy.inserted hP hm hid,
    h.antichain.inserted hP h.tidy hm hid hnew, fun x v hv w hw hne => ?_, fun x a ha v hv => ?_⟩
  · by_cases hx : x = id
    · subst hx
      rcases (hmem v).1 hv with ⟨hold, hvm⟩ | rfl
      · rcases (hmem w).1 hw with ⟨hold', -⟩ | rfl
        · exact h.apart x v hold w hold' hne
        · exact hapart v hold hvm
      · rcases (hmem w).1 hw with ⟨hold', hwm⟩ | rfl
        · rw [clashes_comm]
          exact hapart w hold' hwm
        · exact absurd rfl hne
    · rw [has_inserted_ne (.inr hx)] at hv hw
      exact h.apart x v hv w hw hne
  · rw [hlower] at ha
    by_cases hx : x = id
    · subst hx
      rcases (hmem v).1 hv with ⟨hv, -⟩ | rfl
      · exact h.bridged x a ha v hv
      · exact hbridged a ha
    · rw [has_inserted_ne (.inr hx)] at hv
      exact h.bridged x a ha v hv

/-- Whatever stays beside a new upper member can stand together with it. -/
theorem not_clashes_of_insertUpper (hu : u.Legible) (h : g.Tidy (Named u)) (hm : u.Declares m)
    (hinsert : g.insertUpper id m = .ok g') : ∀ e ∈ g.has .upper id, ¬Sub m e → ¬clashes e m := by
  intro e he hsub hclash
  unfold insertUpper at hinsert
  dsimp only at hinsert
  split at hinsert
  · cases hinsert
  · rename_i hnone
    have hsub' : ¬g.isSubtype m e := fun hsub' => hsub <|
      (isSubtype_iff hu (.declared hm) (h.convertibleFree (admits_named hu) he)).1 hsub'
    refine List.find?_eq_none.1 hnone e he ?_
    rw [hclash, Bool.and_true, Bool.not_eq_true']
    exact Bool.eq_false_iff.2 hsub'

end Graph

/-! ## One member -/

/-- What propagation relies on: legible names, and declared conversions with coherent targets. -/
structure Orderly (u : Universe) (l : Lattice) : Prop where
  legible : u.Legible
  converts : u.Converts l
  targets : l.TargetCoherent u

/-- **A propagation of one level less**: it keeps bounds paired, and unless it was cut off at once
the type arrived at its start. -/
def Nested (u : Universe) (l : Lattice) (nested : Side → VarId → Ty → Infer Unit) : Prop :=
  ∀ side id t s s', s.graph.Paired u l → id ∈ s.graph.ids → (∀ m ∈ side.parts t, u.Declares m) →
    nested side id t s = (.ok (), s') →
    Keeping u l side (side.parts t) id s.graph s'.graph ∧
      (s'.graph = s.graph ∨ ∀ m ∈ side.parts t, s'.graph.Covers side id m)

theorem Keeping.refl (hu : u.Legible) (h : g.Paired u l) : Keeping u l side ms id g g :=
  ⟨h, .refl hu h.tidy, fun _ => rfl⟩

theorem Keeping.trans (hu : u.Legible) (hg : g.Paired u l) (h : Keeping u l side ms id g g')
    (h' : Keeping u l side ms id g' g'') : Keeping u l side ms id g g'' where
  paired := h'.paired
  grown := h.grown.trans hu hg.tidy h.paired.tidy h'.paired.tidy h'.grown
  idle hcov := by
    obtain rfl := h.idle hcov
    exact h'.idle hcov

theorem Side.parts_declared (hu : u.Sound) (ht : u.Declares t) (side : Side) : side.parts t = [t] :=
  side.parts_eq (hu.ne_container ht side)

/-- Narrowing an upper bound to the target of a conversion can bring in targets of deep conversions
as well. What is below the source is bridged to those, too, by coherence. -/
theorem bridged_of_narrowed (h : Orderly u l) (hm : u.Declares m) {c : Conversion}
    (hc : c ∈ l.conversions) (himplicit : c.implicit) (hsource : Sub m c.source)
    (htarget : ∀ v ∈ g.has .upper id, Sub c.target v)
    (hkeep : Keeping u l .upper [c.target] id g g')
    (harrived : g' = g ∨ g'.Covers .upper id c.target) :
    ∀ v ∈ g'.has .upper id, l.Bridges m [v] := by
  intro v hv
  obtain ⟨hcsource, hctarget⟩ := h.converts c hc
  rcases harrived with rfl | ⟨w, hw, hwc⟩
  · exact .of_conversion hc himplicit hsource (htarget v hv)
  rcases hkeep.grown.fresh id v hv with hold | ⟨d, hd, rfl⟩ | hnew
  · exact .of_conversion hc himplicit hsource (htarget v hold)
  · -- `w` is what the upper bound has below the target, and it stands together with the target of
    -- `d`
    have htogether : w = d.target ∨ ¬clashes w d.target :=
      or_iff_not_imp_left.2 fun hne => hkeep.paired.apart id w hw d.target hv hne
    have hbridged :=
      h.targets c hc himplicit d hd w (hkeep.paired.tidy.admissible .upper id w hw) hwc htogether
    refine .of_sub h.legible h.converts (fun v hv => ?_) hm hcsource hsource hbridged
    rw [List.mem_singleton.1 hv]
    exact (h.converts d hd.1).2
  · rw [List.mem_singleton.1 hnew]
    exact .of_conversion hc himplicit hsource (h.legible.toSound.sub_refl hctarget)

theorem Keeping.insertLower (hu : u.Legible) (hg : g.Paired u l) (hg' : g'.Paired u l)
    (hgrown : Grown (Arising u l .lower [m]) g g') (hid : id ∈ g.ids) (hm : u.Declares m)
    (hnew : ¬g.Covers .lower id m) (hbridged : ∀ v ∈ g'.has .upper id, l.Bridges m [v]) :
    Keeping u l .lower [m] id g (g'.insertLower id m) ∧
      (g'.insertLower id m).Covers .lower id m := by
  have hid' : id ∈ g'.ids := hgrown.shape.ids ▸ hid
  rw [insertLower_eq_inserted (admits_named hu) hg'.tidy (.declared hm)]
  have hpaired := hg'.insertedLower hu hm hid' hbridged
  refine ⟨⟨hpaired, ?_, fun hall => ?_⟩, hg'.tidy.covers_inserted (admits_named hu) hm hid'⟩
  · refine hgrown.trans hu hg.tidy hg'.tidy hpaired.tidy ?_
    exact grown_inserted hu hg'.tidy hm hid' fun hside => by cases hside
  · exact absurd (hall m (List.mem_singleton_self m)) hnew

/-- **A new lower member** is bridged to what the upper bound has become when it is put in. -/
theorem joinMember_keeping (h : Orderly u l) (hnested : Nested u l nested) (hg : s.graph.Paired u l)
    (hid : id ∈ s.graph.ids) (hm : u.Declares m) {new : Bool}
    (hrun : joinMember (nested .upper) id m s = (.ok new, s')) :
    Keeping u l .lower [m] id s.graph s'.graph ∧ s'.graph.Covers .lower id m ∧
      (new = false ↔ s.graph.Covers .lower id m) := by
  have hu := h.legible
  have habs : s.graph.absorbs .lower id m ↔ s.graph.Covers .lower id m :=
    hg.tidy.absorbs_iff (admits_named hu) (.declared hm)
  rcases joinMember_ok hrun with ⟨hcov, rfl, rfl⟩ | ⟨hcov, rfl, s₁, hcheck, hs'⟩
  · rw [habs] at hcov
    exact ⟨.refl hu hg, hcov, fun _ => hcov, fun _ => rfl⟩
  · rw [habs] at hcov
    rw [hs', ← and_assoc]
    refine ⟨?_, ⟨fun hnew => (by cases hnew), fun hc => absurd hc hcov⟩⟩
    have hl : u.Converts s.graph.lattice := hg.lattice ▸ h.converts
    rcases checkUpper_cases hu hl hg.tidy hm hcheck with
      ⟨rfl, hbelow⟩ | ⟨c, hc, himplicit, hsource, htarget, s₂, hs₂, hnarrow⟩
    · refine Keeping.insertLower hu hg hg (.refl hu hg.tidy) hid hm hcov fun v hv =>
        .inl fun w hw => ?_
      rw [List.mem_singleton.1 hw]
      exact hbelow v hv
    · rw [hg.lattice] at hc
      have hparts := Side.parts_declared hu.toSound (h.converts c hc).2 .upper
      obtain ⟨hkeep, harrived⟩ := hnested .upper id c.target s₂ s₁ (hs₂ ▸ hg) (hs₂ ▸ hid)
        (by rw [hparts]; exact fun m hm => List.mem_singleton.1 hm ▸ (h.converts c hc).2) hnarrow
      rw [hparts, hs₂] at hkeep harrived
      refine Keeping.insertLower hu hg hkeep.paired (hkeep.grown.mono fun w hw => ?_) hid hm hcov
        (bridged_of_narrowed h hm hc himplicit hsource htarget hkeep ?_)
      · rcases hw with hdeep | hw
        · exact .inl hdeep
        · exact .inr ⟨c, hc, himplicit, List.mem_singleton.1 hw, m,
            List.mem_singleton_self m, hsource⟩
      · exact harrived.imp_right fun hall => hall c.target (List.mem_singleton_self _)

/-- **Widening to the sources** of the conversions that a new upper member relies on. Nothing
happens if a source is covered; otherwise it is raised, and all conversions that it needs are
deep. -/
theorem forM_widen_keeping (h : Orderly u l) (hnested : Nested u l nested) {sources : List Ty}
    (hg : s.graph.Paired u l) (hid : id ∈ s.graph.ids)
    (hsources : ∀ b ∈ sources, u.Declares b ∧ (s.graph.Covers .lower id b ∨ l.Raised u b))
    (hrun : (sources.forM fun source =>
      noteConstraint source >>= fun _ => nested .lower id source) s = (.ok (), s')) :
    s'.graph.Paired u l ∧ Grown (Arising u l .upper ms) s.graph s'.graph := by
  have hu := h.legible
  induction sources generalizing s with
  | nil =>
    obtain ⟨-, rfl⟩ := pure_eq_ok.1 hrun
    exact ⟨hg, .refl hu hg.tidy⟩
  | cons b sources ih =>
    replace hrun :
        ((noteConstraint b >>= fun _ => nested .lower id b) >>= fun _ => sources.forM _) s =
      (.ok (), s') := hrun
    obtain ⟨_, s₁, hfirst, hrun⟩ := bind_eq_ok.1 hrun
    obtain ⟨_, s₀, hnote, hfirst⟩ := bind_eq_ok.1 hfirst
    have hs₀ : s₀.graph = s.graph := by
      cases hnote
      rfl
    obtain ⟨hb, hcase⟩ := hsources b (List.mem_cons_self ..)
    have hparts := Side.parts_declared hu.toSound hb .lower
    obtain ⟨hkeep, -⟩ := hnested .lower id b s₀ s₁ (hs₀ ▸ hg) (hs₀ ▸ hid)
      (by rw [hparts]; exact fun m hm => List.mem_singleton.1 hm ▸ hb) hfirst
    rw [hparts, hs₀] at hkeep
    have hgrown : Grown (Arising u l .upper ms) s.graph s₁.graph := by
      rcases hcase with hcov | hraised
      · rw [hkeep.idle fun m hm => List.mem_singleton.1 hm ▸ hcov]
        exact .refl hu hg.tidy
      · refine hkeep.grown.mono fun w hw => .inl ?_
        rcases hw with hdeep | ⟨c, hc, himplicit, rfl, m, hm, hbc⟩
        · exact hdeep
        · rw [List.mem_singleton.1 hm] at hbc
          exact ⟨c, ⟨hc, himplicit, b, hraised, hbc⟩, rfl⟩
    have hrest : ∀ b ∈ sources, u.Declares b ∧ (s₁.graph.Covers .lower id b ∨ l.Raised u b) := by
      intro b hb
      obtain ⟨hb, hcase⟩ := hsources b (List.mem_cons_of_mem _ hb)
      exact ⟨hb, hcase.imp_left (hgrown.covers_of_covers hu hg.tidy hkeep.paired.tidy hb)⟩
    obtain ⟨hpaired, hgrown'⟩ := ih hkeep.paired (hgrown.shape.ids ▸ hid) hrest hrun
    exact ⟨hpaired, hgrown.trans hu hg.tidy hkeep.paired.tidy hpaired.tidy hgrown'⟩

/-- **A new upper member** has every lower member bridged to it when it is put in, and stays so
while the lower bound is widened. -/
theorem meetMember_keeping (h : Orderly u l) (hnested : Nested u l nested) (hg : s.graph.Paired u l)
    (hid : id ∈ s.graph.ids) (hm : u.Declares m) {new : Bool}
    (hrun : meetMember (nested .lower) id m s = (.ok new, s')) :
    Keeping u l .upper [m] id s.graph s'.graph ∧ s'.graph.Covers .upper id m ∧
      (new = false ↔ s.graph.Covers .upper id m) := by
  have hu := h.legible
  have habs : s.graph.absorbs .upper id m ↔ s.graph.Covers .upper id m :=
    hg.tidy.absorbs_iff (admits_named hu) (.declared hm)
  rcases meetMember_ok hrun with ⟨hcov, rfl, rfl⟩ | ⟨hcov, rfl, sources, s₁, g', hcheck,
    hinsert, hwiden⟩
  · rw [habs] at hcov
    exact ⟨.refl hu hg, hcov, fun _ => hcov, fun _ => rfl⟩
  · rw [habs] at hcov
    have hl : u.Converts s.graph.lattice := hg.lattice ▸ h.converts
    obtain ⟨hs₁, hbridged, hsources⟩ := checkLower_cases hu hl hg.tidy hm hcheck
    rw [hs₁] at hinsert
    rw [hg.lattice] at hbridged hsources
    have happart := not_clashes_of_insertUpper hu hg.tidy hm hinsert
    obtain rfl := insertUpper_eq_inserted hu.toSound (.declared hm) hinsert
    have hinserted := hg.insertedUpper hu hm hid hcov happart hbridged
    have hgrown : Grown (Arising u l .upper [m]) s.graph (s.graph.inserted .upper id m) :=
      grown_inserted hu hg.tidy hm hid fun _ => .inr (List.mem_singleton_self m)
    have hcases : ∀ b ∈ sources, u.Declares b ∧
        ((s.graph.inserted .upper id m).Covers .lower id b ∨ l.Raised u b) := by
      intro b hb
      obtain ⟨hb, hcase⟩ := hsources b hb
      exact ⟨hb, hcase.imp_left (hgrown.covers .lower id b)⟩
    obtain ⟨hpaired, hgrown'⟩ := forM_widen_keeping (s := ⟨_, s₁.effect⟩) h hnested hinserted
      (hgrown.shape.ids ▸ hid) hcases hwiden
    refine ⟨⟨hpaired, ?_, fun hall => ?_⟩, ?_, fun hnew => (by cases hnew),
      fun hc => absurd hc hcov⟩
    · exact hgrown.trans hu hg.tidy hinserted.tidy hpaired.tidy hgrown'
    · exact absurd (hall m (List.mem_singleton_self m)) hcov
    · exact hgrown'.covers_of_covers hu hinserted.tidy hpaired.tidy hm
        (hg.tidy.covers_inserted (admits_named hu) hm hid)

/-! ## One variable -/

theorem Arising.mono {ms' : List Ty} (hms : ∀ m ∈ ms, m ∈ ms') {w : Ty}
    (h : Arising u l side ms w) : Arising u l side ms' w := by
  refine h.imp_right fun h => ?_
  cases side with
  | lower =>
    obtain ⟨c, hc, himplicit, rfl, m, hm, hmc⟩ := h
    exact ⟨c, hc, himplicit, rfl, m, hms m hm, hmc⟩
  | upper => exact hms w h

theorem Keeping.mono {ms' : List Ty} (hms : ∀ m ∈ ms, m ∈ ms') (h : Keeping u l side ms id g g') :
    Keeping u l side ms' id g g' :=
  ⟨h.paired, h.grown.mono fun _ => Arising.mono hms,
    fun hcov => h.idle fun m hm => hcov m (hms m hm)⟩

section

variable (h : Orderly u l) (hnested : Nested u l nested) (hg : s.graph.Paired u l)
  (hid : id ∈ s.graph.ids)

include h hnested hg hid

theorem member_keeping (hm : u.Declares m) {new : Bool}
    (hrun : member nested side id m s = (.ok new, s')) :
    Keeping u l side [m] id s.graph s'.graph ∧ s'.graph.Covers side id m ∧
      (new = false ↔ s.graph.Covers side id m) := by
  cases side with
  | lower => exact joinMember_keeping h hnested hg hid hm hrun
  | upper => exact meetMember_keeping h hnested hg hid hm hrun

theorem anyNew_keeping {todo : List Ty} (htodo : ∀ m ∈ todo, u.Declares m ∧ m ∈ ms) {new : Bool}
    (hrun : anyNew (member nested side id) todo s = (.ok new, s')) :
    Keeping u l side ms id s.graph s'.graph ∧ (∀ m ∈ todo, s'.graph.Covers side id m) ∧
      (new = false → s'.graph = s.graph) ∧
      ((∀ m ∈ todo, s.graph.Covers side id m) → new = false) := by
  have hu := h.legible
  induction todo generalizing s new with
  | nil =>
    obtain ⟨rfl, rfl⟩ := pure_eq_ok.1 hrun
    exact ⟨.refl hu hg, fun m hm => (List.not_mem_nil hm).elim, fun _ => rfl, fun _ => rfl⟩
  | cons m todo ih =>
    obtain ⟨n₁, s₁, hfirst, hrun⟩ := bind_eq_ok.1 hrun
    obtain ⟨n₂, s₂, hrest, hrun⟩ := bind_eq_ok.1 hrun
    obtain ⟨rfl, rfl⟩ := pure_eq_ok.1 hrun
    obtain ⟨hm, hms⟩ := htodo m (List.mem_cons_self ..)
    obtain ⟨hkeep, hcov, hnew⟩ := member_keeping h hnested hg hid hm hfirst
    have hsame : n₁ = false → s₁.graph = s.graph :=
      fun hn => hkeep.idle fun m' hm' => List.mem_singleton.1 hm' ▸ hnew.1 hn
    obtain ⟨hkeep', hcov', hsame', hnew'⟩ := ih hkeep.paired (hkeep.grown.shape.ids ▸ hid)
      (fun m hm => htodo m (List.mem_cons_of_mem _ hm)) hrest
    have hkeep := hkeep.mono fun m' hm' => List.mem_singleton.1 hm' ▸ hms
    refine ⟨hkeep.trans hu hg hkeep', ?_, fun hn => ?_, fun hall => ?_⟩
    · have hkept := hkeep'.grown.covers_of_covers hu hkeep.paired.tidy hkeep'.paired.tidy hm hcov
      exact List.forall_mem_cons.2 ⟨hkept, hcov'⟩
    · rw [Bool.or_eq_false_iff] at hn
      exact (hsame' hn.2).trans (hsame hn.1)
    · have hn₁ : n₁ = false := hnew.2 (hall m (List.mem_cons_self ..))
      rw [hsame hn₁] at hnew'
      rw [hn₁, hnew' fun m hm => hall m (List.mem_cons_of_mem _ hm)]
      rfl

/-- **One visit** keeps bounds paired, leaves all parts of the type covered, and goes nowhere if
they were covered before. -/
theorem visit_keeping (ht : ∀ m ∈ side.parts t, u.Declares m) {found : List VarId}
    (hrun : visit nested side t id s = (.ok found, s')) :
    Keeping u l side (side.parts t) id s.graph s'.graph ∧
      (∀ m ∈ side.parts t, s'.graph.Covers side id m) ∧
      ((∀ m ∈ side.parts t, s.graph.Covers side id m) → found = []) := by
  have hu := h.legible
  obtain ⟨new, s₁, hany, hs', rfl⟩ := visit_cases (admits_named hu) ht hrun
  obtain ⟨hkeep, hcov, -, hnew⟩ := anyNew_keeping h hnested hg hid (fun m hm => ⟨ht m hm, hm⟩) hany
  rw [hs' hkeep.paired.tidy]
  exact ⟨hkeep, hcov, fun hall => if_neg (by rw [hnew hall]; exact Bool.false_ne_true)⟩

end

/-! ## Propagation -/

theorem exploreM_keeping (h : Orderly u l) (hnested : Nested u l nested)
    (ht : ∀ m ∈ side.parts t, u.Declares m) {count : Nat} {unvisited stack : List VarId}
    (hg : s.graph.Paired u l) (hsub : ∀ x ∈ unvisited, x ∈ s.graph.ids)
    (hrun : exploreM (visit nested side t) count unvisited stack s = (.ok (), s')) :
    s'.graph.Paired u l ∧ Grown (Arising u l side (side.parts t)) s.graph s'.graph := by
  have hu := h.legible
  let J (g : Graph) := g.Paired u l ∧ Grown (Arising u l side (side.parts t)) s.graph g
  refine (exploreM_ends (J := J) (R := fun _ => True) (E := fun _ _ => True)
    (fun n s₁ _ hn hJ => ?_) hsub (fun _ _ => trivial) ⟨hg, .refl hu hg.tidy⟩).ok () s' hrun
  refine ⟨fun found s₂ hvisit => ?_, fun _ _ _ => trivial⟩
  obtain ⟨hpaired, hgrown⟩ := hJ
  obtain ⟨hkeep, -⟩ := visit_keeping h hnested hpaired (hgrown.shape.ids ▸ hn) ht hvisit
  have hgrown₂ := hgrown.trans hu hg.tidy hpaired.tidy hkeep.paired.tidy hkeep.grown
  exact ⟨⟨hkeep.paired, hgrown₂⟩, fun _ _ => trivial⟩

/-- **A search from one variable**: the first visit is to that variable, and there is no other one
if nothing is new there. -/
theorem exploreM_start_keeping (h : Orderly u l) (hnested : Nested u l nested)
    (ht : ∀ m ∈ side.parts t, u.Declares m) (hg : s.graph.Paired u l) (hid : id ∈ s.graph.ids)
    (hrun : exploreM (visit nested side t) s.graph.ids.length s.graph.ids [id] s = (.ok (), s')) :
    Keeping u l side (side.parts t) id s.graph s'.graph ∧
      ∀ m ∈ side.parts t, s'.graph.Covers side id m := by
  have hu := h.legible
  rw [exploreM_start hid] at hrun
  obtain ⟨found, s₁, hvisit, hrun⟩ := bind_eq_ok.1 hrun
  obtain ⟨hkeep, hcov, hstop⟩ := visit_keeping h hnested hg hid ht hvisit
  have hsub : ∀ x ∈ s.graph.ids.erase id, x ∈ s₁.graph.ids := fun x hx =>
    hkeep.grown.shape.ids ▸ List.mem_of_mem_erase hx
  obtain ⟨hpaired, hgrown⟩ := exploreM_keeping h hnested ht hkeep.paired hsub hrun
  refine ⟨⟨hpaired, hkeep.grown.trans hu hg.tidy hkeep.paired.tidy hpaired.tidy hgrown,
    fun hall => ?_⟩, fun m hm => ?_⟩
  · rw [hstop hall, List.reverse_nil, List.nil_append, exploreM_nil] at hrun
    exact (pure_eq_ok.1 hrun).2 ▸ hkeep.idle hall
  · exact hgrown.covers_of_covers hu hkeep.paired.tidy hpaired.tidy (ht m hm) (hcov m hm)

/-- **Propagation keeps bounds paired**, to any depth of nesting. -/
theorem nested_spreadWithin (h : Orderly u l) (depth : Nat) : Nested u l (spreadWithin depth) := by
  induction depth with
  | zero =>
    intro side id t s s' hg hid ht hrun
    have hs' : s'.graph = s.graph := by
      cases hrun
      rfl
    rw [hs']
    exact ⟨.refl h.legible hg, .inl rfl⟩
  | succ depth ih =>
    intro side id t s s' hg hid ht hrun
    obtain ⟨hkeep, hcov⟩ := exploreM_start_keeping h ih ht hg hid hrun
    exact ⟨hkeep, .inr hcov⟩

theorem spread_paired (h : Orderly u l) (hg : s.graph.Paired u l) (hid : id ∈ s.graph.ids)
    (ht : ∀ m ∈ side.parts t, u.Declares m) (hrun : spread side id t s = (.ok (), s')) :
    s'.graph.Paired u l ∧ SameShape s.graph s'.graph := by
  unfold spread at hrun
  rw [graph_bind_apply] at hrun
  obtain ⟨hkeep, -⟩ := nested_spreadWithin h _ side id t s s' hg hid ht hrun
  exact ⟨hkeep.paired, hkeep.grown.shape⟩

/-! ## Accepted calls -/

theorem handOn_paired (h : Orderly u l) (hg : s.graph.Paired u l) (hid : id ∈ s.graph.ids)
    {ms : Members} (hkeyed : ms.Keyed) (hms : ∀ t ∈ Members.types ms, u.Declares t)
    (hrun : handOn side id ms s = (.ok (), s')) :
    s'.graph.Paired u l ∧ SameShape s.graph s'.graph := by
  rcases handOn_cases (admits_named h.legible) hkeyed hms hrun with ⟨-, rfl⟩ | ⟨t, hparts, hspread⟩
  · exact ⟨hg, refl_of SameShape s'.graph⟩
  · rw [← hparts] at hms
    exact spread_paired h hg hid hms hspread

namespace Graph

theorem Paired.of_side_eq (h : g.Paired u l) (hlattice : g'.lattice = g.lattice)
    (hb : ∀ side x, (g'.boundsOf x).side side = (g.boundsOf x).side side) : g'.Paired u l := by
  have hhas (side : Side) (x : VarId) : g'.has side x = g.has side x := by rw [has, hb, has]
  refine ⟨hlattice.trans h.lattice,
    ⟨fun side x => hb side x ▸ h.tidy.keyed side x, fun side x => ?_⟩, fun x => ?_,
    fun x => ?_, fun x => ?_⟩
  · rw [hhas]
    exact h.tidy.admissible side x
  · rw [hhas]
    exact h.antichain x
  · rw [hhas]
    exact h.apart x
  · rw [hhas, hhas]
    exact h.bridged x

theorem Paired.of_sameTypes (h : g.Paired u l) (hsame : SameTypes g g') : g'.Paired u l :=
  h.of_side_eq hsame.lattice (side_boundsOf_of_sameTypes hsame)

theorem Paired.addEdge (h : Orderly u l) (hg : s.graph.Paired u l) {lower upper : VarId}
    (hlower : lower ∈ s.graph.ids) (hupper : upper ∈ s.graph.ids)
    (hrun : TypeBounds.addEdge lower upper s = (.ok (), s')) : s'.graph.Paired u l := by
  rcases addEdge_cases hrun with ⟨-, rfl⟩ | ⟨-, s₁, s₂, hs₁, hfirst, hsecond⟩
  · exact hg
  · have hsame : SameTypes s.graph s₁.graph := hs₁ ▸ sameTypes_linkAcross
    have hg₁ := hg.of_sameTypes hsame
    obtain ⟨hg₂, hshape⟩ := handOn_paired h hg₁ (hsame.ids ▸ hupper) (hg.tidy.keyed .lower lower)
      (hg.tidy.admissible .lower lower) hfirst
    exact (handOn_paired h hg₂ (hshape.ids ▸ hsame.ids ▸ hlower) (hg₂.tidy.keyed .upper upper)
      (hg₂.tidy.admissible .upper upper) hsecond).1

/-- **One accepted call** keeps bounds paired. -/
theorem Paired.outcome (h : Orderly u l) (hg : g.Paired u l) {c : Call} (hc : c.Builds u.Declares)
    (hacc : (c.outcome g).fault = none) : (c.outcome g).graph.Paired u l := by
  have hbound (side : Side) {id : VarId} {t : Ty} (ht : u.Declares t)
      (hacc : (g.addBound side id t).fault = none) : (g.addBound side id t).graph.Paired u l := by
    have hself : g.isSelf id t = false := ConvertibleFree.isSelf_eq h.legible.toSound (.declared ht)
    obtain ⟨hid, s, hspread, hgraph⟩ := addBound_accepted hself hacc
    have hparts : ∀ m ∈ side.parts t, u.Declares m := by
      rw [Side.parts_declared h.legible.toSound ht side]
      exact fun m hm => List.mem_singleton.1 hm ▸ ht
    rw [hgraph]
    exact (spread_paired h hg hid hparts hspread).1
  cases c with
  | addVariable name r =>
    obtain ⟨r', rfl, hgraph⟩ := addVariable_accepted hacc
    rw [hgraph]
    exact hg.of_side_eq rfl fun side x => congrArg (Bounds.side · side) boundsOf_register
  | addLower id t => exact hbound .lower hc hacc
  | addUpper id t => exact hbound .upper hc hacc
  | addRef id r =>
    obtain ⟨r, rfl, hid, hr, ⟨-, hgraph | hgraph⟩ | ⟨-, s, hgraph, hrun⟩⟩ := addRef_accepted hacc
    · exact (congrArg (Paired u l) hgraph).mpr hg
    · exact (congrArg (Paired u l) hgraph).mpr (hg.of_sameTypes sameTypes_link)
    · refine (congrArg (Paired u l) hgraph).mpr ?_
      split at hrun
      · exact (handOn_paired h hg hid (hg.tidy.keyed .lower r.id)
          (hg.tidy.admissible .lower r.id) hrun).1
      · exact Paired.addEdge h hg hr hid hrun
  | _ => exact hc.elim

/-- **All accepted calls** keep bounds paired. -/
theorem Paired.after (h : Orderly u l) (hg : g.Paired u l) {calls : List Call}
    (hcalls : ∀ c ∈ calls, c.Builds u.Declares) (hacc : g.accepts calls) :
    (g.after calls).Paired u l := by
  induction calls generalizing g with
  | nil => exact hg
  | cons c calls ih =>
    obtain ⟨hfirst, hrest⟩ := accepts_cons.1 hacc
    exact ih (hg.outcome h (hcalls c (List.mem_cons_self ..)) hfirst)
      (fun c hc => hcalls c (List.mem_cons_of_mem _ hc)) hrest

theorem Paired.empty (tag : Nat) (policy : Policy) : Paired u l { tag, lattice := l, policy } := by
  refine ⟨rfl, ⟨fun side _ => ?_, fun side _ t ht => ?_⟩, fun _ t ht => ?_, fun _ v hv => ?_,
    fun _ a ha => ?_⟩
  · cases side <;> exact .nil
  · cases side <;> cases ht
  · cases ht
  · cases hv
  · cases ha

/-- **Paired bounds are bridged as a whole** where meets are coherent. -/
theorem Paired.bridges (hg : g.Paired u l) (hcoherent : l.MeetCoherent u fun a v => l.Bridges a [v])
    (ha : a ∈ g.has .lower x) :
    l.Bridges a (g.has .upper x) := by
  refine hcoherent a _ (hg.tidy.admissible .lower x a ha) (hg.tidy.admissible .upper x) ?_
    (hg.bridged x a ha)
  refine (hg.tidy.keyed .upper x).nodup_types.pairwise_of_forall_ne fun v hv w hw hne => ?_
  refine ⟨fun hvw => ?_, fun hwv => ?_, hg.apart x v hv w hw hne⟩
  · exact hne (hg.antichain x w hw v hv hvw).symm
  · exact hne (hg.antichain x v hv w hw hwv)

end Graph

end

end TypeBounds
