import TypeBounds.Proofs.Execution
import TypeBounds.Proofs.Stock

/-!
# A variable on its own

The bounds of a variable without neighbours are followed step by step. Nothing is handed on to other
variables, so what a call does to such a variable is what the checks of its two bounds let in.

* `Graph.Lone`: a variable without neighbours, and the members of its bounds;
* `Graph.Lone.join_yields`, `Graph.Lone.meet_yields`: a new member comes in after its check;
* `Graph.Lone.addLower`, `Graph.Lone.addUpper`: the first lower bound, and upper bounds after it.
-/

namespace TypeBounds

open Infer

theorem Universe.Sound.implicit?_eq {u : Universe} {l : Lattice} {r r' : Resolver} {a v : Ty}
    (hu : u.Sound) (hl : u.Converts l) (ha : u.Declares a) (hv : u.Declares v) :
    l.implicit? r a v = l.implicit? r' a v :=
  Lattice.implicit?_eq_of_bare (hl.plain hu) (ha.bare hu) (hv.bare hu)

theorem Universe.Sound.supersedes_iff {u : Universe} (hu : u.Sound) {g : Graph}
    {side : Side} {e m : Ty} (hm : u.Declares m) (he : u.Declares e) :
    g.supersedes side m e ↔ side.Covered e m := by
  cases side with
  | lower => exact hu.isSubtype_iff he hm
  | upper => exact hu.isSubtype_iff hm he

namespace Graph

variable {u : Universe} {g : Graph} {id : VarId} {v : Ty}

theorem Stocked.checkableUpper_eq (hu : u.Sound) (h : g.Stocked u (Named u)) (x : VarId) :
    g.checkableUpper x = (g.boundsOf x).upper := by
  unfold checkableUpper
  rw [List.filter_eq_self.2 fun e he => ?_]
  · exact (h.tidy.keyed .upper x).ofTypes_types
  · rw [isUnresolved_of_bare ((h.bare (stocks_named hu)).mem_types .upper he)]
    rfl

theorem insertUpper_eq_ok (hu : u.Sound) (hv : u.Declares v)
    (hapart : ∀ w ∈ g.has .upper id, ¬g.isSubtype v w → ¬clashes w v) :
    g.insertUpper id v = .ok (g.inserted .upper id v) := by
  cases hinsert : g.insertUpper id v with
  | ok g' => rw [insertUpper_eq_inserted hu (.declared hv) hinsert]
  | error e =>
    unfold insertUpper at hinsert
    dsimp only at hinsert
    split at hinsert
    · rename_i w hw
      have hclash := List.find?_some hw
      rw [Bool.and_eq_true, Bool.not_eq_true', Bool.eq_false_iff] at hclash
      exact absurd hclash.2 (hapart w (List.mem_of_find?_eq_some hw) hclash.1)
    · cases hinsert

/-- A variable without neighbours, with the given members in its bounds. -/
structure Lone (u : Universe) (l : Lattice) (id : VarId) (lows tops : List Ty) (g : Graph) :
    Prop extends
    Stocked u (Named u) g where
  lattice : g.lattice = l
  registered : id ∈ g.ids
  alone : ∀ side, g.onward side id = []
  holds : ∀ side t, t ∈ g.has side id ↔ t ∈ side.either lows tops

namespace Lone

variable {u : Universe} {l : Lattice} {id : VarId} {lows lows' tops tops' : List Ty}
  {g g₁ : Graph} {side : Side} {a m v : Ty} {c : Conversion} {depth : Nat} {s : Progress}

theorem declares (h : Lone u l id lows tops g) (side : Side) (hm : m ∈ side.either lows tops) :
    u.Declares m :=
  h.tidy.admissible side id m ((h.holds side m).2 hm)

theorem blank (hl : u.Converts l) (hlattice : g.lattice = l) (hid : id ∈ g.ids)
    (hblank : ∀ x, g.boundsOf x = {}) : Lone u l id [] [] g where
  toStocked := by
    refine (Stocked.empty g.tag g.policy hl).of_sides hlattice fun side x => ?_
    exact congrArg (Bounds.side · side) (hblank x)
  lattice := hlattice
  registered := hid
  alone := onward_of_blank (hblank id)
  holds side t := by
    rw [has, hblank]
    cases side <;> rfl

theorem inserted (hu : u.Sound) (h : Lone u l id lows tops g) (hm : u.Declares m)
    (hside : ∀ t, t ∈ side.either lows' tops' ↔ t ∈ side.either lows tops ∧
      ¬side.Covered t m ∨ t = m)
    (hother : side.other.either lows' tops' = side.other.either lows tops) :
    Lone u l id lows' tops' (g.inserted side id m) := by
  have hshape : SameShape g (g.inserted side id m) := sameShape_inserted
  refine ⟨h.toStocked.inserted hm id, hshape.lattice.trans h.lattice, ?_, fun side' => ?_,
    fun side' t => ?_⟩
  · rw [hshape.ids]
    exact h.registered
  · rw [onward_eq_of_sameShape hshape]
    exact h.alone side'
  · rcases side.eq_or_eq_other side' with rfl | rfl
    · rw [h.mem_inserted h.registered, hside, h.holds]
      refine or_congr_left (and_congr_right fun ht => not_congr ?_)
      exact hu.supersedes_iff hm (h.declares side' ht)
    · rw [has_inserted_ne (.inl side.other_ne), hother]
      exact h.holds side.other t

theorem absorbs_iff (hu : u.Sound) (h : Lone u l id lows tops g) (hm : u.Declares m) :
    g.absorbs side id m ↔ ∃ e ∈ side.either lows tops, side.Covered m e := by
  rw [absorbs_eq, List.any_eq_true]
  refine exists_congr fun e => ?_
  rw [h.holds]
  exact and_congr_right fun he => hu.supersedes_iff (h.declares side he) hm

/-- A type that is covered changes nothing, at any depth. -/
theorem spreadWithin_yields_of_covered (hu : u.Sound) (h : Lone u l id lows tops s.graph)
    (hm : u.Declares m) (side : Side) (hcov : ∃ e ∈ side.either lows tops, side.Covered m e)
    (depth : Nat) : Yields (spreadWithin depth side id m) s () s.graph := by
  refine spreadWithin_yields_of_absorbs h.registered (fun p hp => ?_) depth
  rw [Side.parts_declared hu hm, List.mem_singleton] at hp
  rw [hp, h.absorbs_iff hu hm]
  exact hcov

/-- **A visit** and nothing else: the member comes in, and there is nowhere to go on to. -/
theorem spreadWithin_yields (hu : u.Sound) (hid : id ∈ s.graph.ids) (hm : u.Declares m)
    (hmember : Yields (member (spreadWithin depth) side id m) s true g₁)
    (h₁ : Lone u l id lows tops g₁) : Yields (spreadWithin (depth + 1) side id m) s () g₁ := by
  refine Yields.graph_bind (exploreM_yields hid ?_)
  refine visit_yields_of_recheck (Side.parts_declared hu hm side) ?_ hmember (fun s₁ hs₁ => ?_)
    (h₁.alone side)
  · exact (ConvertibleFree.declared hm).isSelf_eq hu
  · exact recheck_of_bare (hs₁ ▸ h₁.bare (stocks_named hu)) id

/-- **A lower member** that is not covered, after its check. -/
theorem join_yields (hu : u.Sound) (h : Lone u l id lows tops s.graph) (hm : u.Declares m)
    (hnew : ∀ e ∈ lows, ¬Sub m e)
    (hcheck : Yields (checkUpper (spreadWithin depth .upper) id m) s () g₁)
    (h₁ : Lone u l id lows' tops' g₁) :
    Yields (member (spreadWithin depth) .lower id m) s true (g₁.inserted .lower id m) := by
  have habs : ¬s.graph.lowerAbsorbs id m := by
    intro habs
    obtain ⟨e, he, hme⟩ := (h.absorbs_iff hu hm).1 (show s.graph.absorbs .lower id m from habs)
    exact hnew e he hme
  refine Yields.graph_bind ?_
  rw [if_neg habs]
  refine hcheck.bind fun s₁ hs₁ => ?_
  refine Yields.bind (.modify rfl) fun s₂ hs₂ => .pure ?_
  rw [hs₂, hs₁, h₁.insertLower_eq (stocks_named hu) hm]

/-- **An upper member** that can stand with the others, after its check and before what is widened
for it. -/
theorem meet_yields (hu : u.Sound) (h : Lone u l id lows tops s.graph) (hm : u.Declares m)
    (hnew : ∀ e ∈ tops, ¬Sub e m) (hapart : ∀ e ∈ tops, Sub m e ∨ ¬clashes e m) {sources : List Ty}
    (hcheck : Yields (checkLower id m) s sources s.graph)
    (hwiden : ∀ s₁ : Progress, s₁.graph = s.graph.inserted .upper id m → Yields
      (sources.forM fun source => noteConstraint source >>= fun _ =>
        spreadWithin depth .lower id source) s₁ () g₁) :
    Yields (member (spreadWithin depth) .upper id m) s true g₁ := by
  have habs : ¬s.graph.upperAbsorbs id m := by
    intro habs
    obtain ⟨e, he, hem⟩ := (h.absorbs_iff hu hm).1 (show s.graph.absorbs .upper id m from habs)
    exact hnew e he hem
  have hinsert : s.graph.insertUpper id m = .ok (s.graph.inserted .upper id m) := by
    refine insertUpper_eq_ok hu hm fun e he hsub => ?_
    have he' := (h.holds .upper e).1 he
    exact (hapart e he').resolve_left fun hme =>
      hsub ((hu.isSubtype_iff hm (h.declares .upper he')).2 hme)
  refine Yields.graph_bind ?_
  rw [if_neg habs]
  refine hcheck.bind fun s₁ hs₁ => Yields.graph_bind ?_
  rw [hs₁, hinsert]
  refine Yields.bind (.modify rfl) fun s₂ hs₂ => ?_
  exact (hwiden s₂ hs₂).bind fun s₃ hs₃ => .pure hs₃

/-- The one member of a bound. -/
theorem side_eq (h : Lone u l id lows tops g) (side : Side) (hone : side.either lows tops = [v]) :
    (g.boundsOf id).side side = [(v.name, v)] := by
  have hkeyed := h.tidy.keyed side id
  have htypes : Members.types ((g.boundsOf id).side side) = [v] := by
    have hnodup := List.perm_ext_iff_of_nodup hkeyed.nodup_types (List.nodup_singleton v)
    refine List.perm_singleton.1 (hnodup.2 fun t => ?_)
    rw [← hone]
    exact h.holds side t
  rw [← hkeyed.ofTypes_types, htypes]
  rfl

/-- **No upper bound**, no check. -/
theorem checkUpper_yields (hu : u.Sound) (h : Lone u l id lows [] s.graph)
    (narrow : VarId → Ty → Infer Unit) (m : Ty) : Yields (checkUpper narrow id m) s () s.graph := by
  have hempty : (s.graph.boundsOf id).upper = [] := by
    have hnone : s.graph.has .upper id = [] :=
      List.eq_nil_iff_forall_not_mem.2 fun t ht => List.not_mem_nil ((h.holds .upper t).1 ht)
    exact List.map_eq_nil_iff.1 hnone
  refine Yields.graph_bind ?_
  dsimp only
  rw [h.checkableUpper_eq hu, hempty, if_pos (by simp)]
  exact .pure rfl

/-- **The check of an upper member** against the one lower member, which fits or needs a
conversion. -/
theorem checkLower_yields (hu : u.Sound) (h : Lone u l id [a] tops s.graph) (hm : u.Declares m)
    (r : Option Conversion)
    (hr : r = none ∧ Sub a m ∨ r.isSome ∧ ¬Sub a m ∧ l.implicit? .none a m = r) :
    Yields (checkLower id m) s (r.map Conversion.source).toList s.graph := by
  have ha : u.Declares a := h.declares .lower (List.mem_singleton_self a)
  have hlower : (s.graph.boundsOf id).lower = [(a.name, a)] := h.side_eq .lower rfl
  have hbridge : Yields (bridgeLower id m a) s r s.graph := by
    refine Yields.graph_bind ?_
    rw [isUnresolved_of_bare (ha.bare hu), Bool.false_or]
    have hsub : s.graph.isSubtype a m ↔ Sub a m := hu.isSubtype_iff ha hm
    rcases hr with ⟨rfl, hfits⟩ | ⟨hsome, hunfit, hc⟩
    · rw [if_pos (hsub.2 hfits)]
      exact .pure rfl
    · obtain ⟨d, rfl⟩ := Option.isSome_iff_exists.1 hsome
      have hfound : s.graph.implicit? a m = some d := by
        rw [implicit?, h.lattice, ← hc]
        exact hu.implicit?_eq (h.lattice ▸ h.converts) ha hm
      rw [if_neg (hsub.not.2 hunfit), hfound]
      exact Yields.bind (.note rfl _) fun s₁ hs₁ => .pure hs₁
  refine Yields.graph_bind ?_
  rw [isUnresolved_of_bare (hm.bare hu), if_neg Bool.false_ne_true, hlower]
  have hmap : Yields ([a].mapM (bridgeLower id m)) s [r] s.graph := by
    rw [List.mapM_cons, List.mapM_nil]
    refine hbridge.bind fun s₁ hs₁ => ?_
    exact Yields.bind (.pure hs₁) fun s₂ hs₂ => .pure hs₂
  refine hmap.bind fun s₁ hs₁ => ?_
  cases r <;> exact .pure hs₁

theorem addBound_yields (hu : u.Sound) (h : Lone u l id lows tops g)
    (hm : u.Declares m) (side : Side)
    (hrun : ∀ depth, Yields (spreadWithin (depth + 4) side id m) { graph := g } () g₁) :
    (g.addBound side id m).fault = none ∧ (g.addBound side id m).graph = g₁ :=
  Graph.addBound_yields hu (.declared hm) h.registered (spread_yields_of_depth hrun)

/-- **The first lower member.** -/
theorem addLower (hu : u.Sound) (h : Lone u l id [] [] g) (hm : u.Declares m) :
    ((Call.addLower id m).outcome g).fault = none ∧
      Lone u l id [m] [] ((Call.addLower id m).outcome g).graph := by
  have hafter : Lone u l id [m] [] (g.inserted .lower id m) :=
    h.inserted hu hm (by simp [Side.either]) rfl
  obtain ⟨hfault, hgraph⟩ := h.addBound_yields hu hm .lower fun depth => by
    refine spreadWithin_yields (s := { graph := g }) hu h.registered hm ?_ hafter
    exact join_yields (s := { graph := g }) hu h hm (by simp) (h.checkUpper_yields hu _ m) h
  exact ⟨hfault, hgraph ▸ hafter⟩

/-- **One more upper member**, which the lower one fits under as it is or by a conversion of its
own. -/
theorem addUpper (hu : u.Sound) (h : Lone u l id [a] tops g) (hm : u.Declares m)
    (r : Option Conversion)
    (hr : r = none ∧ Sub a m ∨ r.isSome ∧ ¬Sub a m ∧ l.implicit? .none a m = r)
    (hsource : ∀ c ∈ r, c.source = a) (hnew : ∀ e ∈ tops, ¬Sub e m ∧ ¬Sub m e ∧ ¬clashes e m) :
    ((Call.addUpper id m).outcome g).fault = none ∧
      Lone u l id [a] (tops ++ [m]) ((Call.addUpper id m).outcome g).graph := by
  have hafter : Lone u l id [a] (tops ++ [m]) (g.inserted .upper id m) := by
    refine h.inserted hu hm (fun t => ?_) rfl
    rw [Side.either, List.mem_append, List.mem_singleton]
    exact or_congr_left ⟨fun ht => ⟨ht, (hnew t ht).2.1⟩, And.left⟩
  obtain ⟨hfault, hgraph⟩ := h.addBound_yields hu hm .upper fun depth => by
    refine spreadWithin_yields (s := { graph := g }) hu h.registered hm ?_ hafter
    refine meet_yields (s := { graph := g }) hu h hm (fun e he => (hnew e he).1)
      (fun e he => .inr (hnew e he).2.2) (checkLower_yields hu h hm r hr)
      (Yields.forM fun b hb s hs => ?_)
    refine Yields.bind (.note hs _) fun s' hs' => ?_
    -- whatever the lower bound is to be widened to, it covers that already
    obtain ⟨c, hc, rfl⟩ := Option.map_eq_some_iff.1 (Option.mem_toList.1 hb)
    have ha : u.Declares a := h.declares .lower (List.mem_singleton_self a)
    rw [hsource c hc]
    rw [← hs'] at hafter ⊢
    exact hafter.spreadWithin_yields_of_covered hu ha .lower ⟨a, List.mem_singleton_self a,
      hu.sub_refl ha⟩ _
  exact ⟨hfault, hgraph ▸ hafter⟩

end Lone

end Graph

end TypeBounds
