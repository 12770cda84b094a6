import TypeBounds.Proofs.Bridges
import TypeBounds.Proofs.Freezing
import TypeBounds.Proofs.Intake

/-!
# Bounds that nothing can come between

No propagation asks whether a variable is fixed, so the bounds of a fixed variable stay as they are
only if nothing fits between them. A `Lock` says why nothing does: what the upper bound lets
through, as it is or after an implicit conversion, is under a type that the lower bound has the name
of. Such a type is covered by the lower bound, or it has that very name and takes the place of all
members. Further members of the upper bound are the business of the guard of the lock.

* `Lock.Holds.name_of_bridges`, `Lock.Holds.replace`: what comes into the lower bound after all;
* `Graph.Locked`: a graph in which one variable, as long as it is registered, has locked bounds.
  `handles_locked` is about the insertions, `handsOn_locked` about what is handed on;
* `Graph.Locked.outcome`, `Graph.Locked.after`: calls, **failed or not**.
-/

namespace TypeBounds

open Infer

/-! ## Locks -/

/-- The members of a bound where types have no convertibles. -/
structure Members.Held (u : Universe) (side : Side) (ms : Members) : Prop where
  keyed : ms.Keyed
  settled : ∀ t ∈ Members.types ms, Settled u side t

theorem Members.Held.of_mem {u : Universe} {side : Side} {ms : Members} (h : ms.Held u side)
    {m : String × Ty} (hm : m ∈ ms) : ConvertibleFree u m.2 :=
  (h.settled m.2 (Members.mem_types.2 ⟨m, hm, rfl⟩)).convertibleFree

theorem Members.Held.convertibleFree {u : Universe} {side : Side} {ms : Members}
    (h : ms.Held u side) : ConvertibleFree u (side.container ms) :=
  .container side h.keyed.key h.keyed.nodup fun _ hm => h.of_mem hm

/-- **A lock** on a pair of bounds. The lower bound keeps the name of `lower`, and what is under the
upper bound is under `upper`. The guard is what is kept besides, whatever becomes of the two. -/
structure Lock (u : Universe) (l : Lattice) where
  upper : Ty
  lower : Ty
  guard : Members → Members → Prop
  convertibleFree_upper : ConvertibleFree u upper
  convertibleFree_lower : ConvertibleFree u lower
  meets : Under upper lower
  into : ∀ c ∈ l.conversions, c.implicit → Under c.target upper → Under c.source lower
  narrow : ∀ ls us, guard ls us → us.Held u .upper → ∀ p, ConvertibleFree u p →
    Under p (.inter us) → Under p upper
  join : ∀ ls us m, guard ls us → ls ≠ [] → ls.Held u .lower → Settled u .lower m →
    (∀ e ∈ Members.types ls, Under e m) → guard [(m.name, m)] us
  meet : ∀ ls us us' m, guard ls us → ls.Held u .lower → us.Held u .upper → Settled u .upper m →
    (∀ e ∈ Members.types ls, l.Bridges e [m]) → (¬∃ e ∈ Members.types us, Sub e m) →
    (∀ t, t ∈ Members.types us' ↔ t ∈ Members.types us ∧ ¬Sub m t ∨ t = m) → guard ls us'

/-- The lock is on these bounds. -/
structure Lock.Holds {u : Universe} {l : Lattice} (k : Lock u l) (ls us : Members) : Prop where
  lower_ne : ls ≠ []
  upper_ne : us ≠ []
  name : (Ty.union ls).name = k.lower.name
  guard : k.guard ls us

namespace Lock

variable {u : Universe} {l : Lattice} {k : Lock u l} {ls us : Members} {m : Ty}

/-- What the upper bound lets through is under the type that the lower bound has the name of. -/
theorem Holds.under_of_bridges (hu : u.Legible) (hl : u.Converts l) (h : k.Holds ls us)
    (hus : us.Held u .upper) (hm : Settled u .lower m) (hbridges : l.Bridges m [.inter us]) :
    Under m k.lower := by
  have hmcf := hm.convertibleFree
  -- it is below the upper bound itself, or a conversion takes it there
  rcases hbridges with hsub | ⟨c, hc, himplicit, hsource, htarget⟩
  · have hunder : Under m (.inter us) :=
      (sub_iff_under hm.ne_container).1 (hsub _ (List.mem_singleton_self _))
    have hupper := k.narrow ls us h.guard hus m hmcf hunder
    exact hupper.trans hu hmcf k.convertibleFree_upper k.convertibleFree_lower k.meets
  · have hcf := hl c hc
    have hne := hu.toSound.ne_container hcf.2 .lower
    have hunder : Under c.target (.inter us) :=
      (sub_iff_under hne).1 (htarget _ (List.mem_singleton_self _))
    have hupper := k.narrow ls us h.guard hus c.target (.declared hcf.2) hunder
    have hlower := k.into c hc himplicit hupper
    exact ((sub_iff_under hm.ne_container).1 hsource).trans hu hmcf
      (.declared hcf.1) k.convertibleFree_lower hlower

/-- **What is new to the lower bound has its name.** -/
theorem Holds.name_of_bridges (hu : u.Legible) (hl : u.Converts l) (h : k.Holds ls us)
    (hls : ls.Held u .lower) (hus : us.Held u .upper) (hm : Settled u .lower m)
    (hbridges : l.Bridges m [.inter us]) (hnew : ¬∃ e ∈ Members.types ls, Sub m e) :
    m.name = k.lower.name := by
  have hunder : Under m (.union ls) :=
    (h.under_of_bridges hu hl hus hm hbridges).of_name_eq hu k.convertibleFree_lower
      hls.convertibleFree h.name.symm
  cases hunder with
  | same hname => exact hname.trans h.name
  | @union _ e he hme =>
    exact absurd ⟨e.2, Members.mem_types.2 ⟨e, he, rfl⟩, (sub_iff_under hm.ne_container).2 hme⟩ hnew

/-- **It takes the place of all members**, and the lock is still on. -/
theorem Holds.replace (hu : u.Legible) (h : k.Holds ls us) (hls : ls.Held u .lower)
    (hm : Settled u .lower m) (hname : m.name = k.lower.name) :
    (∀ e ∈ Members.types ls, Under e m) ∧ k.Holds [(m.name, m)] us := by
  have hunder : ∀ e ∈ Members.types ls, Under e m := by
    intro e he
    obtain ⟨e, hmem, rfl⟩ := Members.mem_types.1 he
    have hself : Under e.2 (.union ls) := .union hmem (.refl _)
    exact hself.of_name_eq hu hls.convertibleFree hm.convertibleFree (h.name.trans hname.symm)
  refine ⟨hunder, List.cons_ne_nil _ _, h.upper_ne, ?_,
    k.join ls us m h.guard h.lower_ne hls hm hunder⟩
  exact (name_container_one .lower m.name m).trans hname

end Lock

/-! ## Checks that were passed -/

section

variable {u : Universe} {id : VarId} {a b m : Ty} {s s' : Progress}

theorem bridges_of_fits (hu : u.Legible) {g : Graph} (hl : u.Converts g.lattice)
    (ha : Settled u .lower a) (hb : ConvertibleFree u b)
    (h : g.isSubtype a b ∨ (g.implicit? a b).isSome) : g.lattice.Bridges a [b] := by
  rcases h with hsub | hsome
  · refine .inl fun v hv => ?_
    rw [List.mem_singleton.1 hv]
    exact (isSubtype_iff hu ha.convertibleFree hb).1 hsub
  · obtain ⟨c, hc⟩ := Option.isSome_iff_exists.1 hsome
    obtain ⟨hmem, himplicit, hsource, htarget⟩ := implicit?_eq_some hu hl ha hc
    exact .of_conversion hmem himplicit hsource
      ((isSubtype_iff hu (.declared (hl c hmem).2) hb).1 htarget)

/-- A new lower member that was let through is bridged to the upper bound, if there is one. -/
theorem bridges_of_checkUpper (hu : u.Legible) (hl : u.Converts s.graph.lattice)
    (htidy : s.graph.Tidy (Settled u)) (hm : Settled u .lower m)
    (hne : (s.graph.boundsOf id).upper ≠ []) {narrow : VarId → Ty → Infer Unit}
    (hrun : checkUpper narrow id m s = (.ok (), s')) :
    s.graph.lattice.Bridges m [.inter (s.graph.boundsOf id).upper] := by
  refine bridges_of_fits hu hl hm (htidy.convertibleFree_container .upper id) ?_
  rw [checkUpper, graph_bind_apply, htidy.checkableUpper_eq (admits_settled hu)] at hrun
  split at hrun
  · rename_i hfits
    rw [hm.convertibleFree.isUnresolved_eq hu.toSound, Bool.false_or, Bool.or_eq_true] at hfits
    exact .inl (hfits.resolve_left fun hempty => hne (List.isEmpty_iff.1 hempty))
  · right
    cases himplicit : s.graph.implicit? m (.inter (s.graph.boundsOf id).upper) with
    | none =>
      rw [himplicit] at hrun
      cases hrun
    | some c => rfl

/-- A new upper member that was let through is bridged from all lower members. -/
theorem bridges_of_checkLower (hu : u.Legible) (hl : u.Converts s.graph.lattice)
    (htidy : s.graph.Tidy (Settled u)) (hm : ConvertibleFree u m) {sources : List Ty}
    (hrun : checkLower id m s = (.ok sources, s')) :
    s'.graph = s.graph ∧ ∀ a ∈ s.graph.has .lower id, s.graph.lattice.Bridges a [m] := by
  obtain ⟨hs', hpassed, -⟩ := checkLower_passed hrun
  have hresolved {t : Ty} (ht : ConvertibleFree u t) : ¬s.graph.isUnresolved t := by
    rw [ht.isUnresolved_eq hu.toSound]
    exact Bool.false_ne_true
  refine ⟨hs', fun a ha => ?_⟩
  have hsettled := htidy.admissible .lower id a ha
  refine bridges_of_fits hu hl hsettled hm ?_
  exact (hpassed.resolve_left (hresolved hm) a ha).resolve_left (hresolved hsettled.convertibleFree)

end

/-! ## Locked graphs -/

namespace Graph

variable {u : Universe} {l : Lattice} {lock : Option (Lock u l)} {g g' : Graph}
  {id x : VarId} {m t : Ty}

/-- **The bounds of the variable are locked**, if there is a lock and the variable is still
registered. In any case no bound has convertibles in it. -/
structure Locked (lock : Option (Lock u l)) (id : VarId) (g : Graph) : Prop where
  lattice : g.lattice = l
  tidy : g.Tidy (Settled u)
  holds : ∀ k ∈ lock, id ∈ g.ids → k.Holds (g.boundsOf id).lower (g.boundsOf id).upper

theorem Tidy.held (h : g.Tidy (Settled u)) (side : Side) (x : VarId) :
    ((g.boundsOf x).side side).Held u side :=
  ⟨h.keyed side x, h.admissible side x⟩

theorem Locked.of_sides (h : g.Locked lock id) (hlattice : g'.lattice = g.lattice)
    (hids : ∀ k ∈ lock, id ∈ g'.ids → id ∈ g.ids)
    (hsides : ∀ side x, (g'.boundsOf x).side side = (g.boundsOf x).side side) :
    g'.Locked lock id := by
  refine ⟨hlattice.trans h.lattice, h.tidy.of_sides hsides, fun k hk hid => ?_⟩
  have hlower : (g'.boundsOf id).lower = (g.boundsOf id).lower := hsides .lower id
  have hupper : (g'.boundsOf id).upper = (g.boundsOf id).upper := hsides .upper id
  rw [hlower, hupper]
  exact h.holds k hk (hids k hk hid)

theorem Locked.of_sameMembers (h : g.Locked lock id) (hsame : g.SameMembers g') :
    g'.Locked lock id :=
  h.of_sides hsame.lattice (fun _ _ hid => hsame.ids ▸ hid) hsame.sides

/-! ### Insertions -/

/-- An insertion matters where the variable itself is concerned. -/
theorem Locked.inserted (hu : u.Legible) (h : g.Locked lock id) {side : Side}
    (hm : Settled u side m)
    (hself : ∀ k ∈ lock, x = id → id ∈ g.ids → k.Holds ((g.inserted side x m).boundsOf id).lower
      ((g.inserted side x m).boundsOf id).upper) : (g.inserted side x m).Locked lock id := by
  have hshape : SameShape g (g.inserted side x m) := sameShape_inserted
  by_cases hx : x ∈ g.ids
  · refine ⟨hshape.lattice.trans h.lattice, h.tidy.inserted (admits_settled hu) hm hx,
      fun k hk hid => ?_⟩
    rw [hshape.ids] at hid
    by_cases hxid : x = id
    · exact hself k hk hxid hid
    · have hsides (side' : Side) :
          ((g.inserted side x m).boundsOf id).side side' = (g.boundsOf id).side side' :=
        side_boundsOf_inserted (.inr (Ne.symm hxid))
      have hlower : ((g.inserted side x m).boundsOf id).lower = (g.boundsOf id).lower :=
        hsides .lower
      have hupper : ((g.inserted side x m).boundsOf id).upper = (g.boundsOf id).upper :=
        hsides .upper
      rw [hlower, hupper]
      exact h.holds k hk hid
  · refine h.of_sides hshape.lattice (fun _ _ hid => hshape.ids ▸ hid) fun side' y => ?_
    rw [boundsOf_inserted_of_not_mem hx]

theorem Locked.insertLower (hu : u.Legible) (h : g.Locked lock id) (hm : Settled u .lower m)
    (hname : ∀ k ∈ lock, x = id → id ∈ g.ids → m.name = k.lower.name) :
    (g.insertLower x m).Locked lock id := by
  have hP := admits_settled hu
  rw [insertLower_eq_inserted hP h.tidy hm.convertibleFree]
  refine h.inserted hu hm fun k hk hx hid => ?_
  subst hx
  obtain ⟨hunder, hholds⟩ :=
    (h.holds k hk hid).replace hu (h.tidy.held .lower x) hm (hname k hk rfl hid)
  have hins := h.tidy.mem_inserted hP .lower hm.convertibleFree hid
  -- the new member covers all that was there, so it is the only one left
  have hmem (t : Ty) : t ∈ (g.inserted .lower x m).has .lower x ↔ t = m := by
    rw [hins.mem, or_iff_right]
    rintro ⟨ht, hnot⟩
    have hne := (h.tidy.admissible .lower x t ht).ne_container
    exact hnot ((sub_iff_under hne).2 (hunder t ht))
  have htypes : (g.inserted .lower x m).has .lower x = [m] := by
    refine List.perm_singleton.1
      ((List.perm_ext_iff_of_nodup hins.keyed.nodup_types (List.nodup_singleton m)).2 ?_)
    exact fun t => (hmem t).trans List.mem_singleton.symm
  have hlower : ((g.inserted .lower x m).boundsOf x).lower = [(m.name, m)] :=
    hins.keyed.ofTypes_types.symm.trans (congrArg Members.ofTypes htypes)
  have hupper : ((g.inserted .lower x m).boundsOf x).side .upper = (g.boundsOf x).side .upper :=
    side_boundsOf_inserted (.inl fun h => by cases h)
  rw [hlower, show ((g.inserted .lower x m).boundsOf x).upper = _ from hupper]
  exact hholds

theorem Locked.insertUpper (hu : u.Legible) (h : g.Locked lock id) (hm : Settled u .upper m)
    (hpass : ∀ a ∈ g.has .lower x, l.Bridges a [m]) (hnew : ¬g.Covers .upper x m)
    (hg : g.insertUpper x m = .ok g') : g'.Locked lock id := by
  rw [insertUpper_eq_inserted hu.toSound hm.convertibleFree hg]
  refine h.inserted hu hm fun k hk hx hid => ?_
  subst hx
  have hholds := h.holds k hk hid
  have hins := h.tidy.mem_inserted (admits_settled hu) .upper hm.convertibleFree hid
  have hlower : ((g.inserted .upper x m).boundsOf x).side .lower = (g.boundsOf x).side .lower :=
    side_boundsOf_inserted (.inl fun h => by cases h)
  rw [show ((g.inserted .upper x m).boundsOf x).lower = _ from hlower]
  refine ⟨hholds.lower_ne, fun hnil => ?_, hholds.name, ?_⟩
  · have hmem : m ∈ (g.inserted .upper x m).has .upper x := (hins.mem m).2 (.inr rfl)
    rw [has, Bounds.side, hnil] at hmem
    cases hmem
  · exact k.meet _ _ _ m hholds.guard (h.tidy.held .lower x) (h.tidy.held .upper x) hm
      hpass hnew hins.mem

end Graph

open TypeBounds.Graph

section

variable {u : Universe} {l : Lattice} {lock : Option (Lock u l)} {g : Graph} {side : Side}
  {id x : VarId} {t : Ty} {s : Progress}

/-- **The insertions keep bounds locked**, given that the members passed their checks. -/
theorem handles_locked (hu : u.Legible) (hl : u.Converts l) (lock : Option (Lock u l)) (id : VarId)
    (ids : List VarId) :
    Handles (fun _ => ConvertibleFree u) fun g => g.Locked lock id ∧ g.ids = ids where
  conversion g h c hc _ := by
    have hdeclared := hl c (h.1.lattice ▸ hc)
    exact ⟨.declared hdeclared.1, .declared hdeclared.2⟩
  insertLower t ht m hm _ x _ _ _ s s' h habs hcheck h' := by
    have hsettled : Settled u .lower m := ht.settled hu.toSound hm
    have hshape : SameShape s'.graph (s'.graph.insertLower x m) := sameShape_insertLower m
    -- the variable is registered after the check, so it was before: its bounds were locked when it
    -- was made
    refine ⟨h'.1.insertLower hu hsettled fun k hk hx hid => ?_, hshape.ids.trans h'.2⟩
    subst hx
    have hlocked := h.1
    have hnew : ¬s.graph.Covers .lower x m := fun hcov =>
      habs ((hlocked.tidy.absorbs_iff (admits_settled hu) hsettled.convertibleFree).2 hcov)
    have hholds := hlocked.holds k hk (by rw [h.2, ← h'.2]; exact hid)
    have hbridges :=
      bridges_of_checkUpper hu (hlocked.lattice ▸ hl) hlocked.tidy hsettled hholds.upper_ne hcheck
    rw [hlocked.lattice] at hbridges
    exact hholds.name_of_bridges hu hl (hlocked.tidy.held .lower x) (hlocked.tidy.held .upper x)
      hsettled hbridges hnew
  insertUpper t ht m hm x _ _ _ s sources s' g' h habs hcheck hg' h' := by
    have hsettled : Settled u .upper m := ht.settled hu.toSound hm
    have hlocked := h.1
    have hnew : ¬s.graph.Covers .upper x m := fun hcov =>
      habs ((hlocked.tidy.absorbs_iff (admits_settled hu) hsettled.convertibleFree).2 hcov)
    obtain ⟨hs', hpass⟩ :=
      bridges_of_checkLower hu (hlocked.lattice ▸ hl) hlocked.tidy hsettled.convertibleFree hcheck
    rw [hlocked.lattice] at hpass
    rw [hs'] at hg'
    exact ⟨hlocked.insertUpper hu hsettled hpass hnew hg',
      (sameShape_insertUpper hg').ids.trans h.2⟩

/-- **Propagation** keeps bounds locked. -/
theorem spread_locked (hu : u.Legible) (hl : u.Converts l) (ht : ConvertibleFree u t)
    (side : Side) (x : VarId) (s : Progress) : Along (Keeps (Locked lock id)) (spread side x t) s :=
  fun h => ((handles_locked hu hl lock id s.graph.ids).spread ht x s ⟨h, rfl⟩).1

/-! ## Merging and fixing -/

/-- Only an empty side is filled in, and a locked one is not empty. -/
theorem Graph.Locked.fill (hu : u.Legible) (h : g.Locked lock id) {f : Bounds → Bounds}
    (hf : Bounds.Fills f) : (g.update x f).Locked lock id := by
  refine ⟨h.lattice, h.tidy.fill hu hf, fun k hk hid => ?_⟩
  have hholds := h.holds k hk (ids_update f ▸ hid)
  have hsides : ((g.update x f).boundsOf id).lower = (g.boundsOf id).lower ∧
      ((g.update x f).boundsOf id).upper = (g.boundsOf id).upper := by
    rw [boundsOf_update]
    split
    · have hlower := (hf (g.boundsOf id) .lower).resolve_right fun h => hholds.lower_ne h.1
      have hupper := (hf (g.boundsOf id) .upper).resolve_right fun h => hholds.upper_ne h.1
      exact ⟨hlower, hupper⟩
    · exact ⟨rfl, rfl⟩
  rw [hsides.1, hsides.2]
  exact hholds

theorem Graph.Locked.unregister (h : g.Locked lock id) (x : VarId) :
    (g.unregister x).Locked lock id := by
  refine ⟨h.lattice, h.tidy.unregister x, fun k hk hid => ?_⟩
  rw [ids_unregister] at hid
  have hne : id ≠ x := by simpa using List.of_mem_filter hid
  rw [boundsOf_unregister, if_neg hne]
  exact h.holds k hk (List.mem_of_mem_filter hid)

theorem Graph.Locked.cutOff (hu : u.Legible) (h : g.Locked lock id) (old new : VarId) :
    (g.cutOff old new).Locked lock id := by
  have hids : (g.cutOff old new).ids = g.ids := sameFrame_cutOff.ids
  refine h.of_sides sameFrame_cutOff.lattice (fun _ _ hid => hids ▸ hid) fun side x => ?_
  exact h.tidy.sameBounds_cutOff (admits_settled hu) old new x side

/-- **What is handed on** has no convertibles. -/
theorem handsOn_locked (hu : u.Legible) (hl : u.Converts l) (lock : Option (Lock u l))
    (id : VarId) : HandsOn (fun _ => ConvertibleFree u) (Locked lock id) where
  spread side _ ht := spread_locked hu hl ht side
  bound g h side x := by
    have hcf := h.tidy.convertibleFree_container side x
    rwa [hcf.copy_eq hu.toSound]
  same _ _ hsame h := h.of_sameMembers hsame
  unregister _ x h := h.unregister x

theorem freezes_locked (hu : u.Legible) (hl : u.Converts l) (lock : Option (Lock u l))
    (id : VarId) : Freezes (fun _ => ConvertibleFree u) (Locked lock id) where
  toHandsOn := handsOn_locked hu hl lock id
  resolved g g' h h' x := by
    have hcf := h.tidy.convertibleFree_type hu h'.tidy x
    rwa [hcf.copy_eq hu.toSound]
  settle g _ h := h.fill hu (Bounds.side_settled g.policy)

end

/-! ## Calls -/

/-- A call whose type, if it adds one, is of the kind `T`. -/
def Call.DealsIn (T : Ty → Prop) : Call → Prop
  | addLower _ t => T t
  | addUpper _ t => T t
  | _ => True

mutual

/-- There is no cell in a declared type, nor in its ancestors. -/
theorem Universe.Sound.rebind_eq {u : Universe} (hu : u.Sound) (cell owner : Nat) (var : String) :
    (t : Ty) → u.Declares t → t.rebind cell owner var = t
  | .mixed, _ => rfl
  | .nominal name kind final parents, ht => by
    rw [Ty.rebind, hu.rebindParents_eq cell owner var parents fun p hp => hu.declares_parent ht hp]
  | .union ms, ht => absurd rfl (hu.ne_container ht .lower ms)
  | .inter ms, ht => absurd rfl (hu.ne_container ht .upper ms)
  | .asVar _ _ _, ht => (not_convertibleFree_asVar hu (.declared ht)).elim
  | .asType _, ht => (not_convertibleFree_asType hu (.declared ht)).elim

theorem Universe.Sound.rebindParents_eq {u : Universe} (hu : u.Sound) (cell owner : Nat)
    (var : String) :
    (ts : List Ty) → (∀ t ∈ ts, u.Declares t) → Ty.rebindParents cell owner var ts = ts
  | [], _ => rfl
  | t :: ts, hts => by
    obtain ⟨ht, hts⟩ := List.forall_mem_cons.1 hts
    rw [Ty.rebindParents, hu.rebind_eq cell owner var t ht,
      hu.rebindParents_eq cell owner var ts hts]

end

theorem ConvertibleFree.rebind_eq {u : Universe} (hu : u.Sound) {t : Ty} (ht : ConvertibleFree u t)
    (cell owner : Nat) (var : String) : t.rebind cell owner var = t := by
  induction ht with
  | declared h => exact hu.rebind_eq cell owner var _ h
  | @container side ms _ _ _ ih =>
    rw [Ty.rebind_container]
    refine congrArg side.container ((List.map_congr_left fun m hm => ?_).trans ms.map_id)
    rw [ih m hm]
    rfl

namespace Graph

variable {u : Universe} {l : Lattice} {lock : Option (Lock u l)} {g g' : Graph} {id : VarId}
  {calls : List Call}

/-- There is nothing in the bounds that binding or handing over would change. -/
theorem Locked.mapMembers (h : g.Locked lock id) (hlattice : g'.lattice = g.lattice)
    (f : Members → Members)
    (hb : g'.bounds = g.bounds.mapValues fun _ b =>
      { b with lower := f b.lower, upper := f b.upper })
    (hf : ∀ (side : Side) (ms : Members), ms.Held u side → f ms = ms) : g'.Locked lock id := by
  have hids := ids_mapValues hb
  refine h.of_sides hlattice (fun _ _ hid => hids ▸ hid) fun side x => ?_
  by_cases hx : x ∈ g.ids
  · rw [boundsOf_mapValues hb hx]
    cases side with
    | lower => exact hf .lower _ (h.tidy.held .lower x)
    | upper => exact hf .upper _ (h.tidy.held .upper x)
  · rw [boundsOf_of_not_mem hx, boundsOf_of_not_mem (hids ▸ hx)]

theorem Locked.rebindCell (hu : u.Legible) (h : g.Locked lock id) (cell owner : Nat) (var : VarId) :
    (g.rebindCell cell owner var).Locked lock id := by
  refine h.mapMembers rfl (Ty.rebindMembers cell owner var) rfl fun side ms hms => ?_
  rw [Ty.rebindMembers_eq]
  refine (List.map_congr_left fun m hm => ?_).trans ms.map_id
  rw [(hms.of_mem hm).rebind_eq hu.toSound]
  rfl

theorem Locked.fork (hu : u.Legible) (h : g.Locked lock id) (tag : Nat) :
    (g.fork tag).Locked lock id := by
  refine h.mapMembers rfl (fun ms => Members.ofTypes (Ty.mapEach (g.handOver tag) ms)) rfl
    fun side ms hms => ?_
  have hsame : Ty.mapEach (g.handOver tag) ms = Members.types ms := by
    rw [mapEach_eq]
    exact List.map_congr_left fun m hm => (hms.of_mem hm).mapConvertibles_eq hu.toSound _
  rw [hsame, hms.keyed.ofTypes_types]

theorem Locked.addVariable (h : g.Locked lock id) (hid : ∀ k ∈ lock, id ∈ g.ids) {name : String}
    {r : Option Reference} (hg : g.addVariable name r = .ok g') : g'.Locked lock id := by
  obtain ⟨r, -, -, rfl⟩ := addVariable_eq_ok.1 hg
  refine h.of_sides rfl (fun k hk _ => hid k hk) fun side x => ?_
  exact congrArg (Bounds.side · side) boundsOf_register

theorem Locked.filledIn (hu : u.Legible) (h : g.Locked lock id) (hg : g.FilledIn g') :
    g'.Locked lock id := by
  obtain ⟨names, x, f, hf, rfl⟩ := hg
  have hnamed : Locked lock id { g with names } :=
    h.of_sides rfl (fun _ _ hid => hid) fun _ _ => rfl
  exact hnamed.fill hu hf

/-- **One call**, successful or not, with types that have no convertibles. -/
theorem Locked.outcome (hu : u.Legible) (hl : u.Converts l) (hwf : g.WellFormed)
    (h : g.Locked lock id) (hid : ∀ k ∈ lock, id ∈ g.ids) {c : Call}
    (hc : c.DealsIn (ConvertibleFree u)) : (c.outcome g).graph.Locked lock id := by
  have hhands := handsOn_locked hu hl lock id
  cases c with
  | addVariable name r => exact attempt_keeps h fun _ hg => h.addVariable hid hg
  | mint => exact h.of_sides rfl (fun _ _ hid => hid) fun _ _ => rfl
  | addLower x t => exact hhands.addBound h hc x
  | addUpper x t => exact hhands.addBound h hc x
  | addRef x r => exact hhands.addRef h x r
  | fixVariable name => exact attempt_keeps h fun _ hg => h.filledIn hu (filledIn_of_fixVariable hg)
  | fixParameter x => exact attempt_keeps h fun _ hg => h.filledIn hu (filledIn_of_fixParameter hg)
  | merge old new => exact hhands.merge (fun _ old new h => h.cutOff hu old new) h old new
  | generalize search params =>
    exact hhands.generalize (fun _ old new h => h.cutOff hu old new)
      (freezes_locked hu hl lock id).freeze hwf h params
  | setOverload name f =>
    exact setOverload_keeps h fun _ => h.of_sides rfl (fun _ _ hid => hid) fun _ _ => rfl
  | bind t vars => exact bind_keeps h (h.rebindCell hu)
  | rebind cell owner var => exact h.rebindCell hu cell owner var
  | fork tag => exact h.fork hu tag

theorem Locked.empty (tag : Nat) (policy : Policy) (id : VarId) :
    Locked (none : Option (Lock u l)) id { tag, lattice := l, policy } where
  lattice := rfl
  tidy := .empty ..
  holds k hk := by cases hk

/-- **All calls**, as long as the variable is there. -/
theorem Locked.after (hu : u.Legible) (hl : u.Converts l) (hwf : g.WellFormed)
    (h : g.Locked lock id) (hcalls : ∀ c ∈ calls, c.DealsIn (ConvertibleFree u))
    (hstays : ∀ k ∈ lock, ∀ n, id ∈ (g.after (calls.take n)).ids) :
    (g.after calls).Locked lock id := by
  induction calls generalizing g with
  | nil => exact h
  | cons c calls ih =>
    obtain ⟨hc, hcalls⟩ := List.forall_mem_cons.1 hcalls
    refine ih (c.wellFormed_outcome hwf) (h.outcome hu hl hwf (fun k hk => hstays k hk 0) hc) hcalls
      fun k hk n => ?_
    exact hstays k hk (n + 1)

end Graph

end TypeBounds
