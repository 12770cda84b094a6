import TypeBounds.Proofs.Harmless
import TypeBounds.Proofs.Locked
import TypeBounds.Proofs.Verdicts

/-!
# When a resolved type is final

A fixed variable goes on taking in types, so what it resolves to is final only if its bounds are
`Shut`: nothing fits between them, as it is or after an implicit conversion, and no later upper
bound makes room for anything. Unions are the difficulty: a type below two upper bounds may be
written as their intersection, and that has another name than the union it comes from.

* `Graph.Shut.exists_lock`: shut bounds are locked;
* `Graph.Filled.shut`: fixing shuts the bounds of a variable that had at most one, unless unions are
  nested;
* `Graph.Tidy.overtake`: bounds that do not meet can be overtaken.

Main statement: `resolvedType_final_of_shut`.
-/

namespace TypeBounds

open Infer TypeBounds.Graph

/-! ## Names -/

namespace Bounds

variable {b : Bounds}

/-- A record has the name of its lower bound, if it has one. -/
theorem name_resolved (hkeyed : b.lower.Keyed) (hlower : b.lower ≠ []) :
    b.resolved.name = (Ty.union b.lower).name := by
  unfold Bounds.resolved
  rcases b.resolution_cases with ⟨hnil, -⟩ | ⟨-, ⟨m, hm, hres⟩ | hres⟩
  · exact absurd hnil hlower
  · rw [hres, hm]
    have hkey : m.1 = m.2.name := hkeyed.key m (hm ▸ List.mem_singleton_self m)
    exact hkey.symm.trans (name_container_one .lower m.1 m.2).symm
  · rw [hres]
    rfl

end Bounds

theorem Graph.resolvedType_eq {g : Graph} {id : VarId} (hid : id ∈ g.ids) :
    g.resolvedType id = .ok (g.boundsOf id).resolved := by
  obtain ⟨b, hb⟩ := Table.exists_get? hid
  rw [resolvedType, require_eq_ok.2 hb, boundsOf_eq hb]
  rfl

/-! ## Shut bounds -/

/-- **Nothing fits between the bounds of the variable.** The upper bound is below the lower one, and
whatever an implicit conversion brings below the upper bound was below the lower bound before. No
union stands in the upper bound, or else it stands there alone, its members are below members of the
lower bound, and no implicit conversion takes those. -/
structure Graph.Shut (g : Graph) (id : VarId) : Prop where
  lower_ne : (g.boundsOf id).lower ≠ []
  upper_ne : (g.boundsOf id).upper ≠ []
  meets : g.isSubtype (.inter (g.boundsOf id).upper) (.union (g.boundsOf id).lower)
  into : ∀ c ∈ g.lattice.conversions, c.implicit →
    g.isSubtype c.target (.inter (g.boundsOf id).upper) →
    g.isSubtype c.source (.union (g.boundsOf id).lower)
  firm : (∀ v ∈ g.has .upper id, ∀ ms, v ≠ .union ms) ∨ ∃ v, g.has .upper id = [v] ∧
    (∀ p ∈ v.unionParts, ∃ e ∈ g.has .lower id, g.isSubtype p e) ∧
    ∀ c ∈ g.lattice.conversions, c.implicit → ∀ e ∈ g.has .lower id, ¬g.isSubtype e c.source

theorem Settled.exists_nominal {u : Universe} (hu : u.Sound) {t : Ty} (ht : Settled u .upper t)
    (hmixed : t ≠ .mixed) (hunion : ∀ ms, t ≠ .union ms) :
    ∃ name kind final parents, t = .nominal name kind final parents :=
  ht.convertibleFree.nominal_of_ne hu hmixed hunion ht.ne_container

namespace Lock

variable {u : Universe} {l : Lattice} {ls us : Members} {v : Ty}

/-- The lock on an upper bound without unions. Its members are declared types, and a narrower bound
is nominally below each of them. -/
def ofDeclared (hu : u.Legible) (hls : ls.Held u .lower) (hus : us.Held u .upper)
    (hdeclared : ∀ v ∈ Members.types us, ∀ ms, v ≠ .union ms)
    (hmeets : Under (.inter us) (.union ls))
    (hinto : ∀ c ∈ l.conversions, c.implicit → Under c.target (.inter us) →
      Under c.source (.union ls)) : Lock u l where
  upper := .inter us
  lower := .union ls
  guard _ us' := ∀ e ∈ Members.types us, e ≠ .mixed → (Ty.inter us').isNominalSubtype e
  convertibleFree_upper := hus.convertibleFree
  convertibleFree_lower := hls.convertibleFree
  meets := hmeets
  into := hinto
  narrow ls' us' hguard hus' p hp hunder := by
    refine .inter fun m hm => ?_
    have hmem : m.2 ∈ Members.types us := Members.mem_types.2 ⟨m, hm, rfl⟩
    by_cases hmixed : m.2 = .mixed
    · rw [hmixed]
      exact .mixed
    · have hnominal := hguard m.2 hmem hmixed
      obtain ⟨name, kind, final, parents, heq⟩ :=
        (hus.settled m.2 hmem).exists_nominal hu.toSound hmixed (hdeclared m.2 hmem)
      rw [heq] at hnominal ⊢
      exact .nominal (hunder.isNominalSubtype hu hp hus'.convertibleFree hnominal)
  join _ _ _ hguard _ _ _ _ := hguard
  meet ls' us' us'' m hguard _ hus' hm _ _ hmem e he hmixed := by
    obtain ⟨t, ht, hsub⟩ := isNominalSubtype_inter.1 (hguard e he hmixed)
    have htmem : t.2 ∈ Members.types us' := Members.mem_types.2 ⟨t, ht, rfl⟩
    -- what made the bound narrow enough is still there, or the new member has taken its place
    by_cases hmt : Sub m t.2
    · obtain ⟨n, hn, hnm⟩ := Members.mem_types.1 ((hmem m).2 (.inr rfl))
      refine isNominalSubtype_inter.2 ⟨n, hn, ?_⟩
      rw [hnm, hm.convertibleFree.isNominalSubtype_iff_parts hu.toSound]
      intro p hp
      obtain ⟨name, kind, final, parents, rfl⟩ :=
        (hus.settled e he).exists_nominal hu.toSound hmixed (hdeclared e he)
      have hpcf := (hm.convertibleFree.of_mem_unionParts hu.toSound hp).1
      exact (hmt p hp).isNominalSubtype hu hpcf (hus'.settled t.2 htmem).convertibleFree hsub
    · obtain ⟨n, hn, hnt⟩ := Members.mem_types.1 ((hmem t.2).2 (.inl ⟨htmem, hmt⟩))
      exact isNominalSubtype_inter.2 ⟨n, hn, hnt ▸ hsub⟩

/-- The lock on a single union. The upper bound never changes: whatever is above all members of the
lower bound is above the union too. -/
def ofUnion (hu : u.Legible) (hl : u.Converts l) (hls : ls.Held u .lower) (hus : us.Held u .upper)
    (hv : Members.types us = [v]) (hmeets : Under (.inter us) (.union ls))
    (hinto : ∀ c ∈ l.conversions, c.implicit → Under c.target (.inter us) →
      Under c.source (.union ls)) : Lock u l where
  upper := .inter us
  lower := .union ls
  guard ls' us' := us' = us ∧ (∀ p ∈ v.unionParts, ∃ e ∈ Members.types ls', Under p e) ∧
    ∀ c ∈ l.conversions, c.implicit → ∀ e ∈ Members.types ls', ¬Under e c.source
  convertibleFree_upper := hus.convertibleFree
  convertibleFree_lower := hls.convertibleFree
  meets := hmeets
  into := hinto
  narrow ls' us' hguard _ p _ hunder := hguard.1 ▸ hunder
  join ls' us' m hguard hne hls' hm hunder := by
    obtain ⟨hus', hparts, hsources⟩ := hguard
    have hvcf := (hus.settled v (hv ▸ List.mem_singleton_self v)).convertibleFree
    refine ⟨hus', fun p hp => ?_, fun c hc himplicit e he hec => ?_⟩
    · obtain ⟨e, he, hpe⟩ := hparts p hp
      have hpcf := (hvcf.of_mem_unionParts hu.toSound hp).1
      refine ⟨m, List.mem_singleton_self m, ?_⟩
      exact hpe.trans hu hpcf (hls'.settled e he).convertibleFree hm.convertibleFree (hunder e he)
    · obtain rfl := List.mem_singleton.1 he
      obtain ⟨n, hn⟩ := List.exists_mem_of_ne_nil ls' hne
      have hnmem : n.2 ∈ Members.types ls' := Members.mem_types.2 ⟨n, hn, rfl⟩
      refine hsources c hc himplicit n.2 hnmem ?_
      have hncf := (hls'.settled n.2 hnmem).convertibleFree
      exact (hunder n.2 hnmem).trans hu hncf hm.convertibleFree (.declared (hl c hc).1) hec
  meet ls' us' us'' m hguard hls' _ hm hpass hnew _ := by
    obtain ⟨rfl, hparts, hsources⟩ := hguard
    have hvcf := (hus.settled v (hv ▸ List.mem_singleton_self v)).convertibleFree
    refine absurd ⟨v, hv ▸ List.mem_singleton_self v, fun p hp => ?_⟩ hnew
    obtain ⟨e, he, hpe⟩ := hparts p hp
    have hesettled := hls'.settled e he
    have hpcf := (hvcf.of_mem_unionParts hu.toSound hp).1
    rcases hpass e he with hsub | ⟨c, hc, himplicit, hsource, -⟩
    · have hem : Under e m :=
        (sub_iff_under hesettled.ne_container).1 (hsub m (List.mem_singleton_self m))
      exact hpe.trans hu hpcf hesettled.convertibleFree hm.convertibleFree hem
    · exact absurd ((sub_iff_under hesettled.ne_container).1 hsource) (hsources c hc himplicit e he)

end Lock

namespace Graph

variable {u : Universe} {l : Lattice} {k : Lock u l} {g g' : Graph} {id : VarId} {t p : Ty}

theorem mem_ids_of_lower_ne (h : (g.boundsOf id).lower ≠ []) : id ∈ g.ids := by
  by_contra hid
  rw [boundsOf_of_not_mem hid] at h
  exact h rfl

/-- **Shut bounds are locked.** -/
theorem Shut.exists_lock (hu : u.Legible) (hl : u.Converts g.lattice) (htidy : g.Tidy (Settled u))
    (h : g.Shut id) : ∃ k : Lock u g.lattice, g.Locked (some k) id := by
  have hls := htidy.held .lower id
  have hus := htidy.held .upper id
  -- the checks between declared types and bounds, as relations
  have hmeets : Under (.inter (g.boundsOf id).upper) (.union (g.boundsOf id).lower) := by
    have hsub := (isSubtype_iff hu hus.convertibleFree hls.convertibleFree).1 h.meets
    exact (sub_iff_under fun ms h => by cases h).1 hsub
  have hinto : ∀ c ∈ g.lattice.conversions, c.implicit →
      Under c.target (.inter (g.boundsOf id).upper) →
      Under c.source (.union (g.boundsOf id).lower) := by
    intro c hc himplicit htarget
    obtain ⟨hsource, htarget'⟩ := hl c hc
    have hne {t : Ty} (ht : u.Declares t) := hu.toSound.ne_container ht .lower
    have hsub := h.into c hc himplicit
      ((isSubtype_iff hu (.declared htarget') hus.convertibleFree).2
        ((sub_iff_under (hne htarget')).2 htarget))
    exact (sub_iff_under (hne hsource)).1
      ((isSubtype_iff hu (.declared hsource) hls.convertibleFree).1 hsub)
  have hlocked (k : Lock u g.lattice) (hlower : k.lower = .union (g.boundsOf id).lower)
      (hguard : k.guard (g.boundsOf id).lower (g.boundsOf id).upper) : g.Locked (some k) id := by
    refine ⟨rfl, htidy, fun k' hk' _ => ?_⟩
    obtain rfl : k = k' := Option.some.inj hk'
    exact ⟨h.lower_ne, h.upper_ne, congrArg Ty.name hlower.symm, hguard⟩
  rcases h.firm with hdeclared | ⟨v, hv, hparts, hsources⟩
  · let k : Lock u g.lattice := .ofDeclared hu hls hus hdeclared hmeets hinto
    refine ⟨k, hlocked k rfl fun e he hmixed => ?_⟩
    obtain ⟨m, hm, rfl⟩ := Members.mem_types.1 he
    have hsettled := hus.settled m.2 he
    refine isNominalSubtype_inter.2 ⟨m, hm, ?_⟩
    obtain ⟨name, kind, final, parents, heq⟩ :=
      hsettled.exists_nominal hu.toSound hmixed (hdeclared m.2 he)
    have hcf := hsettled.convertibleFree
    rw [heq] at hcf ⊢
    exact isNominalSubtype_refl hu.toSound hcf.declares_nominal
  · let k : Lock u g.lattice := .ofUnion hu hl hls hus hv hmeets hinto
    have hvmem : v ∈ g.has .upper id := hv ▸ List.mem_singleton_self v
    have hvcf := (hus.settled v hvmem).convertibleFree
    refine ⟨k, hlocked k rfl ⟨rfl, fun p hp => ?_, fun c hc himplicit e he hunder => ?_⟩⟩
    · obtain ⟨e, he, hsub⟩ := hparts p hp
      obtain ⟨hpcf, hne, -⟩ := hvcf.of_mem_unionParts hu.toSound hp
      have hecf := (hls.settled e he).convertibleFree
      exact ⟨e, he, (sub_iff_under hne).1 ((isSubtype_iff hu hpcf hecf).1 hsub)⟩
    · have hsettled := hls.settled e he
      refine hsources c hc himplicit e he ?_
      refine (isSubtype_iff hu hsettled.convertibleFree (.declared (hl c hc).1)).2 ?_
      exact (sub_iff_under hsettled.ne_container).2 hunder

theorem Locked.name_resolved (h : g.Locked (some k) id) (hid : id ∈ g.ids) :
    (g.boundsOf id).resolved.name = k.lower.name := by
  have hholds := h.holds k rfl hid
  exact (Bounds.name_resolved (h.tidy.keyed .lower id) hholds.lower_ne).trans hholds.name

end Graph

/-! ## Fixing shuts bounds -/

/-- A union may be the whole type, but stands in no container. -/
def Ty.Unnested (t : Ty) : Prop :=
  ∀ (side : Side) (ms : Members), t = side.container ms → ∀ m ∈ ms, UnionFree m.2

section

variable {u : Universe} {t p : Ty}

theorem Ty.Unnested.ne_union (hu : u.Sound) (ht : ConvertibleFree u t) (h : t.Unnested)
    (hne : ∀ ms, t ≠ .union ms) (hp : p ∈ t.interParts) (ms : Members) : p ≠ .union ms := by
  by_cases hinter : ∃ ms, t = .inter ms
  · obtain ⟨ms', rfl⟩ := hinter
    obtain ⟨m, hm, hp⟩ := mem_interParts_inter.1 hp
    obtain ⟨-, -, hms'⟩ := ConvertibleFree.of_container hu .upper ht
    exact h .upper ms' rfl m hm p (mem_subterms_of_mem_parts .upper hp) ms
  · rw [interParts_eq fun ms h => hinter ⟨ms, h⟩, List.mem_singleton] at hp
    exact hp ▸ hne ms

/-- The lower bound that it is taken apart into has its name. -/
theorem Ty.Unnested.name_union (hu : u.Sound) (ht : ConvertibleFree u t) (h : t.Unnested) :
    (Ty.union (Members.ofTypes t.unionParts)).name = t.name := by
  by_cases hunion : ∃ ms, t = .union ms
  · obtain ⟨ms, rfl⟩ := hunion
    obtain ⟨hkeys, hnodup, -⟩ := ConvertibleFree.of_container hu .lower ht
    have hne : ∀ x ∈ Members.types ms, ∀ ms', x ≠ Side.lower.container ms' := by
      intro x hx
      obtain ⟨m, hm, rfl⟩ := Members.mem_types.1 hx
      exact h .lower ms rfl m hm m.2 (mem_subterms_self m.2)
    have hparts : (Ty.union ms).unionParts = Members.types ms := Side.parts_container hne
    rw [hparts, Members.Keyed.ofTypes_types ⟨hkeys, hnodup⟩]
  · rw [unionParts_eq fun ms h => hunion ⟨ms, h⟩]
    exact name_container_one .lower t.name t

/-- The upper bound that it is taken apart into is below it. -/
theorem Ty.Unnested.under (hu : u.Legible) (ht : ConvertibleFree u t) (h : t.Unnested) :
    Under (.inter (Members.ofTypes t.interParts)) t := by
  by_cases hinter : ∃ ms, t = .inter ms
  · obtain ⟨ms, rfl⟩ := hinter
    refine (sub_iff_under fun ms h => by cases h).1 (sub_of_interParts hu.toSound ht fun p hp => ?_)
    refine (sub_iff_under fun ms h => by cases h).2 ?_
    obtain ⟨hpcf, hpinter⟩ := ht.of_mem_interParts hu.toSound hp
    have hpunion := h.ne_union hu.toSound ht (fun ms h => by cases h) hp
    by_cases hmixed : p = .mixed
    · rw [hmixed]
      exact .mixed
    · obtain ⟨p', hp', hname⟩ := Members.exists_mem_types_ofTypes hp
      obtain ⟨m, hm, rfl⟩ := Members.mem_types.1 hp'
      have hmcf := (ht.of_mem_interParts hu.toSound (Members.mem_of_mem_types_ofTypes hp')).1
      obtain ⟨name, kind, final, parents, rfl⟩ :=
        hpcf.nominal_of_ne hu.toSound hmixed hpunion hpinter
      refine .nominal (isNominalSubtype_inter.2 ⟨m, hm, ?_⟩)
      exact (under_nominal_iff hu hmcf hpcf.declares_nominal).1 (.same hname)
  · rw [interParts_eq fun ms h => hinter ⟨ms, h⟩]
    exact .same (name_container_one .upper t.name t)

end

namespace Graph

variable {u : Universe} {g g' : Graph} {id : VarId} {b : Bounds} {t : Ty}

/-- **Bounds that one type was taken apart into** are shut, where nothing is converted. -/
theorem shut_of_parts (hu : u.Legible) (htidy : g.Tidy (Settled u)) (hq : g.lattice.Quiet)
    (ht : ConvertibleFree u t) (hunnested : t.Unnested)
    (hsides : ∀ side, (g.boundsOf id).side side = Members.ofTypes (side.parts t))
    (hne : ∀ side, (g.boundsOf id).side side ≠ []) : g.Shut id := by
  have hlower : (g.boundsOf id).lower = Members.ofTypes t.unionParts := hsides .lower
  have hupper : (g.boundsOf id).upper = Members.ofTypes t.interParts := hsides .upper
  have hlcf := htidy.convertibleFree_container .lower id
  have hucf := htidy.convertibleFree_container .upper id
  have hquiet {c : Conversion} (hc : c ∈ g.lattice.conversions) : ¬c.implicit := by
    rw [hq c hc]
    exact Bool.false_ne_true
  refine ⟨hne .lower, hne .upper, ?_, fun c hc himplicit => absurd himplicit (hquiet hc), ?_⟩
  · refine (isSubtype_iff hu hucf hlcf).2 ((sub_iff_under fun ms h => by cases h).2 ?_)
    have hname : t.name = (Ty.union (g.boundsOf id).lower).name := by
      rw [hlower]
      exact (hunnested.name_union hu.toSound ht).symm
    have hunder : Under (.inter (g.boundsOf id).upper) t := by
      rw [hupper]
      exact hunnested.under hu ht
    exact hunder.of_name_eq hu ht hlcf hname
  · -- a union is the only part of itself, as far as upper bounds are concerned
    by_cases hunion : ∃ ms, t = .union ms
    · right
      obtain ⟨ms, rfl⟩ := hunion
      refine ⟨.union ms, ?_, fun p hp => ?_, fun c hc himplicit => absurd himplicit (hquiet hc)⟩
      · rw [has, Bounds.side, hupper, interParts_eq fun ms' h => by cases h]
        rfl
      · obtain ⟨e, he, hname⟩ := Members.exists_mem_types_ofTypes hp
        refine ⟨e, ?_, Lattice.isSubtype_of_name_eq _ _ hname.symm⟩
        rwa [has, Bounds.side, hlower]
    · left
      intro v hv
      rw [has, Bounds.side, hupper] at hv
      exact hunnested.ne_union hu.toSound ht (fun ms h => hunion ⟨ms, h⟩)
        (Members.mem_of_mem_types_ofTypes hv)

/-- **Fixing shuts bounds**, if one of them was missing and none is afterwards. -/
theorem Filled.shut (hu : u.Legible) (htidy : g.Tidy (Settled u)) (htidy' : g'.Tidy (Settled u))
    (h : Filled id b g g') (hq : g'.lattice.Quiet)
    (hone : (g.boundsOf id).lower = [] ∨ (g.boundsOf id).upper = [])
    (hne : ∀ side, (g'.boundsOf id).side side ≠ [])
    (hunnested : (g.boundsOf id).resolved.Unnested) : g'.Shut id := by
  have hcf := htidy.convertibleFree_resolved hu id
  refine shut_of_parts hu htidy' hq hcf hunnested (fun side => ?_) hne
  rw [h.here]
  rcases h.filled side with hkept | ⟨-, hfilled⟩
  · -- a bound that was kept is what the record resolved to, as the other one was missing
    have hside := hne side
    rw [h.here, hkept] at hside
    rw [hkept]
    cases side with
    | lower =>
      have hparts : Side.lower.parts (g.boundsOf id).resolved = _ := htidy.unionParts_resolved hside
      rw [hparts, has, (htidy.keyed .lower id).ofTypes_types]
    | upper =>
      have hparts : Side.upper.parts (g.boundsOf id).resolved = _ :=
        htidy.interParts_resolved (hone.resolve_right hside) hside
      rw [hparts, has, (htidy.keyed .upper id).ofTypes_types]
  · rw [hfilled, hcf.copy_eq hu.toSound]

/-! ## Overtaking a lower bound -/

/-- **A lower bound is overtaken** by the upper one, if that is not below it and there is nothing
further up to say against it. -/
theorem Tidy.overtake (hu : u.Legible) (htidy : g.Tidy (Settled u))
    (hlower : (g.boundsOf id).lower ≠ []) (habove : (g.boundsOf id).above = [])
    (hgap : ¬g.isSubtype (.inter (g.boundsOf id).upper) (.union (g.boundsOf id).lower)) :
    let o := (Call.addLower id (.inter (g.boundsOf id).upper)).outcome g
    o.fault = none ∧ id ∈ o.graph.ids ∧
      (o.graph.boundsOf id).resolved.name ≠ (g.boundsOf id).resolved.name := by
  intro o
  have hne (ms : Members) : Ty.inter (g.boundsOf id).upper ≠ .union ms := fun h => by cases h
  set t : Ty := .inter (g.boundsOf id).upper
  have hP := admits_settled hu
  have hid := mem_ids_of_lower_ne hlower
  have hlcf := htidy.convertibleFree_container .lower id
  have ht : Settled u .lower t := ⟨htidy.convertibleFree_container .upper id, hne⟩
  have hnot : ¬Under t (.union (g.boundsOf id).lower) := fun hunder =>
    hgap ((isSubtype_iff hu ht.convertibleFree hlcf).2 ((sub_iff_under ht.ne_container).2 hunder))
  have hnew : ¬g.Covers .lower id t := by
    rintro ⟨e, he, hsub⟩
    obtain ⟨m, hm, rfl⟩ := Members.mem_types.1 he
    exact hnot (.union hm ((sub_iff_under ht.ne_container).1 hsub))
  have hspread : Yields (spread .lower id t) { graph := g } () (g.inserted .lower id t) := by
    refine spread_yields hid fun depth => ?_
    refine visit_yields hP (unionParts_eq ht.ne_container) ht.convertibleFree
      (joinMember_yields hP htidy ht.convertibleFree hnew ?_) (htidy.inserted hP ht hid) ?_
    · exact .inr (Lattice.isSubtype_of_name_eq _ _ rfl)
    · rw [onward_eq_of_sameShape sameShape_inserted, onward, above, habove]
      rfl
  obtain ⟨hfault, hgraph⟩ := addBound_yields hu.toSound ht.convertibleFree hid hspread
  have htidy' := htidy.inserted hP ht hid
  have hins := htidy.mem_inserted hP .lower ht.convertibleFree hid
  obtain ⟨m, hm, hmt⟩ := Members.mem_types.1 ((hins.mem t).2 (.inr rfl))
  have hgraph' : o.graph = g.inserted .lower id t := hgraph
  refine ⟨hfault, ?_, fun hname => ?_⟩
  · rw [hgraph', sameShape_inserted.ids]
    exact hid
  · -- the new member would be below a bound of the old name
    rw [hgraph', Bounds.name_resolved (htidy'.keyed .lower id) (List.ne_nil_of_mem hm),
      Bounds.name_resolved (htidy.keyed .lower id) hlower] at hname
    have hunder : Under t (.union ((g.inserted .lower id t).boundsOf id).lower) :=
      .union hm (hmt ▸ .refl _)
    exact hnot (hunder.of_name_eq hu (htidy'.convertibleFree_container .lower id) hlcf hname)

end Graph

/-! ## Runs -/

/-- **When a resolved type is final.** Let calls be made whose types have no convertibles, and take
the graph they lead to.

If the bounds of a variable are shut, then it resolves to a type of the same name after any further
calls of that kind, accepted or not, as long as it is registered. A call that fixes the variable
shuts its bounds, if there are no implicit conversions, one of the bounds was missing before the
call and none is afterwards, and unions are not nested in the type that it resolves to. And a lower
bound that the upper bound is not below, with nothing above the variable, is not final: there is a
call of that kind which is accepted and changes the name. -/
theorem resolvedType_final_of_shut {decls : List TypeDecl} {u : Universe}
    (hu : Universe.ofDecls decls = .ok u)
    (hnames : ∀ name ∈ u.types.keys, IsIdentifier name ∧ name ≠ "nothing") (tag : Nat)
    {lattice : Lattice} (hl : u.Converts lattice) (policy : Policy) {calls : List Call}
    (hcalls : ∀ c ∈ calls, c.DealsIn (ConvertibleFree u)) (id : VarId) :
    let g := Graph.after { tag, lattice, policy } calls
    (g.Shut id → ∀ later : List Call, (∀ c ∈ later, c.DealsIn (ConvertibleFree u)) →
      (∀ n, (g.after (later.take n)).hasTypeVariable id) →
      ∃ name, (g.resolvedType id).map Ty.name = .ok name ∧
        ((g.after later).resolvedType id).map Ty.name = .ok name) ∧
    (lattice.Quiet → ∀ c b, g.fixing? c = some (id, b) → (c.outcome g).fault = none →
      (g.boundsOf id).lower = [] ∨ (g.boundsOf id).upper = [] →
      (∀ side, ((c.outcome g).graph.boundsOf id).side side ≠ []) →
      (g.boundsOf id).resolved.Unnested →
      (c.outcome g).graph.Shut id) ∧
    ((g.boundsOf id).lower ≠ [] → (g.boundsOf id).above = [] →
      ¬g.isSubtype (.inter (g.boundsOf id).upper) (.union (g.boundsOf id).lower) →
      ∃ c : Call, c.DealsIn (ConvertibleFree u) ∧ (c.outcome g).fault = none ∧
        ∃ name name', (g.resolvedType id).map Ty.name = .ok name ∧
          ((c.outcome g).graph.resolvedType id).map Ty.name = .ok name' ∧ name' ≠ name) := by
  intro g
  have hlegible := Universe.legible_of_ofDecls hu hnames
  have hstart := WellFormed.empty tag lattice policy
  have hwf : g.WellFormed := hstart.after calls
  -- without a lock, all that is said is that bounds hold no convertibles
  have hopen : g.Locked (none : Option (Lock u lattice)) id :=
    (Locked.empty tag policy id).after hlegible hl hstart hcalls fun k hk => by cases hk
  have hname {g : Graph} (hid : id ∈ g.ids) :
      (g.resolvedType id).map Ty.name = .ok (g.boundsOf id).resolved.name := by
    rw [resolvedType_eq hid]
    rfl
  refine ⟨fun hshut later hlater hstays => ?_, fun hq c b hfixing hacc hone hne hunnested => ?_,
    fun hlower habove hgap => ?_⟩
  · have hl' : u.Converts g.lattice := hopen.lattice ▸ hl
    obtain ⟨k, hlocked⟩ := hshut.exists_lock hlegible hl' hopen.tidy
    have hids (n : Nat) : id ∈ (g.after (later.take n)).ids := mem_ids.2 (hstays n)
    have hlocked' := hlocked.after hlegible hl' hwf hlater fun _ _ n => hids n
    have hid' : id ∈ (g.after later).ids := by
      have hid := hids later.length
      rwa [List.take_length] at hid
    have hid : id ∈ g.ids := hids 0
    refine ⟨k.lower.name, ?_, ?_⟩
    · rw [hname hid, hlocked.name_resolved hid]
    · rw [hname hid', hlocked'.name_resolved hid']
  · have hcall : c.Fixes ∧ c.DealsIn (ConvertibleFree u) := by
      cases c with
      | fixVariable | fixParameter => exact ⟨trivial, trivial⟩
      | _ => cases hfixing
    obtain ⟨x, b', hfixing', hlattice, hfilled⟩ := Call.filled_outcome hwf hcall.1 hacc
    obtain ⟨rfl, rfl⟩ := Prod.mk.inj (Option.some.inj (hfixing.symm.trans hfixing'))
    have hopen' := hopen.outcome hlegible hl hwf (fun k hk => by cases hk) hcall.2
    have hq' : (c.outcome g).graph.lattice.Quiet := hopen'.lattice ▸ hq
    exact hfilled.shut hlegible hopen.tidy hopen'.tidy hq' hone hne hunnested
  · obtain ⟨hacc, hid', hne⟩ := hopen.tidy.overtake hlegible hlower habove hgap
    refine ⟨_, ?_, hacc, _, _, hname (mem_ids_of_lower_ne hlower), hname hid', hne⟩
    exact hopen.tidy.convertibleFree_container .upper id

/-- Two interfaces, and classes that implement one of them or none. -/
def figureDecls : List TypeDecl :=
  [{ name := "Shape", kind := "interface" }, { name := "Label", kind := "interface" },
    { name := "Circle", kind := "class", parents := ["Shape"] },
    { name := "Square", kind := "class", parents := ["Shape"] },
    { name := "Badge", kind := "class", parents := ["Label"] }, { name := "Dot", kind := "class" }]

def label : Ty := .nominal "Label" .interface false []

def square : Ty := .nominal "Square" .concrete false [shape]

def badge : Ty := .nominal "Badge" .concrete false [label]

def dot : Ty := .nominal "Dot" .concrete false []

def figures : Universe :=
  ⟨⟨[("mixed", .mixed), ("Shape", shape), ("Label", label), ("Circle", circle), ("Square", square),
    ("Badge", badge), ("Dot", dot)]⟩⟩

/-- A variable with these bounds. -/
def bounded (bounds : List Call) : List Call := .addVariable "$x" (some { id := "T1" }) :: bounds

/-- The same, once it is fixed. -/
def pinned (bounds : List Call) : List Call := bounded bounds ++ [.fixVariable "$x"]

/-- What may happen to a fixed variable: an upper bound above it, a lower bound that is refused, and
a variable that is merged with it. -/
def unsettling : List Call :=
  [.addUpper "T1" shape, .addLower "T1" square, .addVariable "$y" (some { id := "T2" }),
    .addLower "T2" circle, .addRef "T1" (some { id := "T2" }), .merge "T2" "T1"]

theorem resolvedType_final_of_shut_circle :
    let run := Graph.after { tag := 1 }
    let g := run (pinned [.addLower "T1" circle])
    let g' := run (pinned [.addLower "T1" circle, .addUpper "T1" shape])
    (g.Shut "T1" ∧ ∃ name, (g.resolvedType "T1").map Ty.name = .ok name ∧
      ((g.after unsettling).resolvedType "T1").map Ty.name = .ok name) ∧
    ∃ c : Call, c.DealsIn (ConvertibleFree figures) ∧ (c.outcome g').fault = none ∧
      ∃ name name', (g'.resolvedType "T1").map Ty.name = .ok name ∧
        ((c.outcome g').graph.resolvedType "T1").map Ty.name = .ok name' ∧ name' ≠ name := by
  intro run g g'
  have hu : Universe.ofDecls figureDecls = .ok figures := rfl
  have hl : figures.Converts {} := fun c hc => (List.not_mem_nil hc).elim
  have hcircle : ConvertibleFree figures circle := .declared rfl
  have hshape : ConvertibleFree figures shape := .declared rfl
  have hsquare : ConvertibleFree figures square := .declared rfl
  have hcalls : ∀ c ∈ bounded [.addLower "T1" circle], c.DealsIn (ConvertibleFree figures) := by
    simp [bounded, Call.DealsIn, hcircle]
  have hpinned : ∀ c ∈ pinned [.addLower "T1" circle], c.DealsIn (ConvertibleFree figures) := by
    simp [pinned, bounded, Call.DealsIn, hcircle]
  have hwide : ∀ c ∈ pinned [.addLower "T1" circle, .addUpper "T1" shape],
      c.DealsIn (ConvertibleFree figures) := by
    simp [pinned, bounded, Call.DealsIn, hcircle, hshape]
  obtain ⟨-, hfix, -⟩ := resolvedType_final_of_shut hu (by decide) 1 hl .plain hcalls "T1"
  obtain ⟨hfinal, -, -⟩ := resolvedType_final_of_shut hu (by decide) 1 hl .plain hpinned "T1"
  obtain ⟨-, -, hovertaken⟩ := resolvedType_final_of_shut hu (by decide) 1 hl .plain hwide "T1"
  have hshut : g.Shut "T1" := by
    refine hfix (fun c hc => (List.not_mem_nil hc).elim) (.fixVariable "$x") _ rfl rfl (.inr rfl)
      (fun side => ?_) ?_
    · cases side <;> exact List.cons_ne_nil _ _
    · intro side ms h
      cases side <;> cases h
  have hstays : ∀ n < 7, (g.after (unsettling.take n)).hasTypeVariable "T1" := by decide +kernel
  refine ⟨⟨hshut, hfinal hshut unsettling ?_ fun n => ?_⟩, ?_⟩
  · simp [unsettling, Call.DealsIn, hcircle, hshape, hsquare]
  · rw [List.take_eq_take_min]
    exact hstays _ (Nat.lt_succ_of_le (Nat.min_le_right _ _))
  · exact hovertaken (List.cons_ne_nil _ _) rfl (by decide +kernel)

/-- **A fixed variable is overturned.** All calls are accepted, the variable is fixed by the time
the first ones are made, and after the others, whose types have no convertibles, it resolves to a
type of another name. -/
structure Overturned (u : Universe) (start : Graph) (calls later : List Call) (id : VarId) :
    Prop where
  dealsIn : ∀ c ∈ later, c.DealsIn (ConvertibleFree u)
  accepted : start.accepts (calls ++ later)
  fixed : (start.after calls).status id = .fixed
  changed : ∃ t t', (start.after calls).resolvedType id = .ok t ∧
    (start.after (calls ++ later)).resolvedType id = .ok t' ∧ t'.name ≠ t.name

/-- All but the kind of the types can be computed. -/
theorem Overturned.of_checks {u : Universe} {start : Graph} {calls later : List Call} {id : VarId}
    (hdeals : ∀ c ∈ later, c.DealsIn (ConvertibleFree u))
    (h : start.accepts (calls ++ later) ∧ (start.after calls).status id = .fixed ∧
      id ∈ (start.after calls).ids ∧ id ∈ (start.after (calls ++ later)).ids ∧
      ((start.after (calls ++ later)).boundsOf id).resolved.name ≠
      ((start.after calls).boundsOf id).resolved.name) :
    Overturned u start calls later id := by
  obtain ⟨hacc, hfixed, hid, hid', hne⟩ := h
  exact ⟨hdeals, hacc, hfixed, _, _, resolvedType_eq hid, resolvedType_eq hid', hne⟩

def circleOrSquare : Ty := .union [("Circle", circle), ("Square", square)]

def badgeOrCircle : Ty := .union [("Badge", badge), ("Circle", circle)]

/-- A union in a union. -/
def nestedUnion : Ty := .union [(circleOrSquare.name, circleOrSquare), ("Label", label)]

/-- An intersection in a union. -/
def dotOrBoth : Ty :=
  .union [("Dot", dot), ("(Label & Shape)", .inter [("Label", label), ("Shape", shape)])]

/-- **Fixed is not final.** There was no upper bound, there was one above the lower bound, there
were no bounds at all, or a conversion leads into the upper bound. A convertible flows in that was
there before. Or a union in the upper bound has a union in it, has another member beside it, or gets
one because its members are converted. -/
theorem overturned_figures :
    Overturned figures { tag := 1 } (bounded [.addLower "T1" circle, .generalize .standard []])
      [.addLower "T1" square] "T1" ∧
    Overturned figures { tag := 1 } (pinned [.addLower "T1" circle, .addUpper "T1" shape])
      [.addLower "T1" square] "T1" ∧
    Overturned figures { tag := 1 } (pinned []) [.addLower "T1" square] "T1" ∧
    Overturned figures { tag := 1, lattice := ⟨[⟨square, circle, true, "cut"⟩]⟩ }
      (pinned [.addLower "T1" circle])
      [.addLower "T1" square] "T1" ∧
    Overturned figures { tag := 1 }
      (pinned [.addLower "T1" circle, .addVariable "$y" (some { id := "T2" }),
        .addVariable "$z" (some { id := "T3" }), .addLower "T2" (.asVar none 1 "T3")])
        [.addRef "T1" (some { id := "T2" })] "T1" ∧
    Overturned figures { tag := 1 } (pinned [.addUpper "T1" nestedUnion])
      [.addLower "T1" (.inter [(nestedUnion.name, nestedUnion)])] "T1" ∧
    Overturned figures { tag := 1 }
      (pinned [.addUpper "T1" (.inter [(circleOrSquare.name, circleOrSquare), ("Label", label)])])
      [.addUpper "T1" dotOrBoth,
        .addLower "T1" (.inter [(circleOrSquare.name, circleOrSquare), ("Label", label),
        (dotOrBoth.name, dotOrBoth)])] "T1" ∧
    Overturned figures { tag := 1, lattice := ⟨[⟨circle, label, true, "print"⟩]⟩ }
      (pinned [.addLower "T1" circle, .addLower "T1" badge])
      [.addUpper "T1" label,
        .addLower "T1" (.inter [(badgeOrCircle.name, badgeOrCircle), ("Label", label)])] "T1" := by
  have hcircle : ConvertibleFree figures circle := .declared rfl
  have hsquare : ConvertibleFree figures square := .declared rfl
  have hlabel : ConvertibleFree figures label := .declared rfl
  have hshape : ConvertibleFree figures shape := .declared rfl
  have hbadge : ConvertibleFree figures badge := .declared rfl
  have hdot : ConvertibleFree figures dot := .declared rfl
  have hcontainer (side : Side) (ms : Members) (hms : (∀ m ∈ ms, m.1 = m.2.name) ∧
      (Members.keys ms).Nodup) (h : ∀ m ∈ ms, ConvertibleFree figures m.2) :
        ConvertibleFree figures (side.container ms) :=
    .container side hms.1 hms.2 h
  have hcircleOrSquare : ConvertibleFree figures circleOrSquare :=
    hcontainer .lower _ (by decide) (by simp [hcircle, hsquare])
  have hbadgeOrCircle : ConvertibleFree figures badgeOrCircle :=
    hcontainer .lower _ (by decide) (by simp [hbadge, hcircle])
  have hnested : ConvertibleFree figures nestedUnion :=
    hcontainer .lower _ (by decide) (by simp [hcircleOrSquare, hlabel])
  have hboth : ConvertibleFree figures (.inter [("Label", label), ("Shape", shape)]) :=
    hcontainer .upper _ (by decide) (by simp [hlabel, hshape])
  have hdotOrBoth : ConvertibleFree figures dotOrBoth :=
    hcontainer .lower _ (by decide) (by simp [hdot, hboth])
  have hwrapped : ConvertibleFree figures (.inter [(nestedUnion.name, nestedUnion)]) :=
    hcontainer .upper _ (by decide) (by simp [hnested])
  have hthree :
      ConvertibleFree figures (.inter [(circleOrSquare.name, circleOrSquare), ("Label", label),
      (dotOrBoth.name, dotOrBoth)]) :=
    hcontainer .upper _ (by decide) (by simp [hcircleOrSquare, hlabel, hdotOrBoth])
  have htwo :
      ConvertibleFree figures (.inter [(badgeOrCircle.name, badgeOrCircle), ("Label", label)]) :=
    hcontainer .upper _ (by decide) (by simp [hbadgeOrCircle, hlabel])
  have hlower : ∀ c ∈ [Call.addLower "T1" square], c.DealsIn (ConvertibleFree figures) :=
    List.forall_mem_singleton.2 hsquare
  refine ⟨.of_checks hlower (by decide +kernel), .of_checks hlower (by decide +kernel),
    .of_checks hlower (by decide +kernel), .of_checks hlower (by decide +kernel),
    .of_checks ?_ (by decide +kernel), .of_checks ?_ (by decide +kernel),
    .of_checks ?_ (by decide +kernel), .of_checks ?_ (by decide +kernel)⟩
  · exact List.forall_mem_singleton.2 trivial
  · exact List.forall_mem_singleton.2 hwrapped
  · exact List.forall_mem_cons.2 ⟨hdotOrBoth, List.forall_mem_singleton.2 hthree⟩
  · exact List.forall_mem_cons.2 ⟨hlabel, List.forall_mem_singleton.2 htwo⟩

/-- **Names have to tell types apart.** The interface is taken for the upper bound, whose name it
has, and so it comes in although the bounds are shut. -/
theorem overturned_namesake :
    let calls :=
      pinned [.addLower "T1" (Ty.interOf [ifaceA, ifaceB, .mixed]), .addUpper "T1" bothAB]
    let g := Graph.after { tag := 1 } calls
    (∀ c ∈ calls, c.DealsIn (ConvertibleFree namesakes)) ∧ g.Shut "T1" ∧
      Overturned namesakes { tag := 1 } calls [.addLower "T1" namesake] "T1" := by
  intro calls g
  have haccepted : Universe.ofDecls namesakeDecls = .ok namesakes := rfl
  have hu : namesakes.Sound := Universe.sound_of_ofDecls haccepted
  have hboth : Plain namesakes bothAB := hu.plain_interOf rfl rfl (by decide)
  have hthree : ConvertibleFree namesakes (Ty.interOf [ifaceA, ifaceB, .mixed]) := by
    refine .container .upper (by decide) (by decide) ?_
    rintro m (_ | ⟨_, _ | ⟨_, _ | ⟨_, ⟨⟩⟩⟩⟩) <;> exact .declared rfl
  have hupper : g.has .upper "T1" = [ifaceA, ifaceB] := rfl
  refine ⟨by simp [calls, pinned, bounded, Call.DealsIn, hboth.convertibleFree, hthree], ?_, ?_⟩
  · refine ⟨by decide +kernel, by decide +kernel, by decide +kernel,
      fun c hc => (List.not_mem_nil hc).elim, .inl ?_⟩
    simp [hupper, ifaceA, ifaceB]
  · exact .of_checks (List.forall_mem_singleton.2 (.declared rfl)) (by decide +kernel)

end TypeBounds
