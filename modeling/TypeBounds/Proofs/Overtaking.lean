import TypeBounds.Proofs.Solitude

/-!
# Members that are overtaken

A lower member is put in after its check, and the check may narrow the upper bound. What was in the
lower bound before may not fit any more, and is widened to the source of a conversion. That source
can be above the member that is still on its way, and then the member comes in beside a type that
covers it.

* `Lattice.Overtakes`: the types and conversions that this takes;
* `Graph.Lone.overtaken`: the bounds of a variable without neighbours, from the innermost
  propagation outwards;
* `Graph.Lone.run`: four accepted calls.
-/

namespace TypeBounds

open Infer

/-- **A member is overtaken.** The type `late` does not fit under `top` as it is, and its conversion
`c` narrows the bound so far that `first`, which fitted, is widened to the source of `d`: and `late`
is below that. The source needs a conversion `e` of its own, which narrows no further. -/
structure Lattice.Overtakes (l : Lattice) (first late top : Ty) (c d e : Conversion) : Prop where
  fits : l.isSubtype .none first top
  unfit : ¬l.isSubtype .none late top
  narrows : l.implicit? .none late top = some c
  shut : ¬l.isSubtype .none first c.target
  widens : l.implicit? .none first c.target = some d
  below : l.isSubtype .none late d.source
  proper : ¬l.isSubtype .none d.source late
  apart : ¬l.isSubtype .none late first
  settles : l.implicit? .none d.source c.target = some e
  level : l.isSubtype .none c.target e.target

section

variable {u : Universe} {l : Lattice} {r : Resolver} {a v : Ty}

/-- An intersection of one type is as good as the type. -/
theorem Universe.Sound.isSubtype_inter_one (hu : u.Sound) (ha : u.Declares a) (hv : u.Declares v) :
    l.isSubtype r a (.inter [(v.name, v)]) = l.isSubtype r a v := by
  have hname : (Ty.inter [(v.name, v)]).name = v.name := name_container_one .upper v.name v
  have hbare : ∀ m ∈ [(v.name, v)], m.2.Bare := List.forall_mem_singleton.2 (hv.bare hu)
  rw [Bool.eq_iff_iff,
    Lattice.isSubtype_inter_iff_of_bare (ha.bare hu) (hu.ne_container ha .lower) hbare, hname,
    List.forall_mem_singleton, or_iff_right_iff_imp]
  exact Lattice.isSubtype_of_name_eq l r

theorem Universe.Sound.implicit?_inter_one (hu : u.Sound) (hl : u.Converts l) (ha : u.Declares a)
    (hv : u.Declares v) :
    l.implicit? r a (.inter [(v.name, v)]) = l.implicit? r a v := by
  have hne := hu.ne_container ha .lower
  rw [Lattice.implicit?, Lattice.implicit?, Lattice.bridge?_eq_find? hne,
    Lattice.bridge?_eq_find? hne]
  refine List.find?_congr fun c hc => ?_
  rw [hu.isSubtype_inter_one (hl c (Lattice.mem_conversions_of_mem_candidates hc)).2 hv]

end

namespace Graph.Lone

variable {u : Universe} {l : Lattice} {id : VarId} {lows : List Ty} {g g₁ : Graph} {a m v : Ty}
  {c : Conversion} {s : Progress}

/-- **A lower member that needs a conversion** narrows the upper bound first. -/
theorem checkUpper_yields_of_implicit (hu : u.Sound) (h : Lone u l id lows [v] s.graph)
    (hm : u.Declares m) (hunfit : ¬Sub m v) (hc : l.implicit? .none m v = some c)
    {narrow : VarId → Ty → Infer Unit}
    (hnarrow : ∀ s₁ : Progress, s₁.graph = s.graph → Yields (narrow id c.target) s₁ () g₁) :
    Yields (checkUpper narrow id m) s () g₁ := by
  have hv : u.Declares v := h.declares .upper (List.mem_singleton_self v)
  have hupper : (s.graph.boundsOf id).upper = [(v.name, v)] := h.side_eq .upper rfl
  have hneeded : ¬(s.graph.isUnresolved m || List.isEmpty [(v.name, v)] ||
      s.graph.isSubtype m (.inter [(v.name, v)])) := by
    have hsub : ¬s.graph.lattice.isSubtype s.graph.resolver m v :=
      (hu.isSubtype_iff hm hv).not.2 hunfit
    rw [isUnresolved_of_bare (hm.bare hu), isSubtype, hu.isSubtype_inter_one hm hv]
    simpa using hsub
  have hfound : s.graph.implicit? m (.inter [(v.name, v)]) = some c := by
    rw [implicit?, hu.implicit?_inter_one h.converts hm hv, h.lattice, ← hc]
    exact hu.implicit?_eq (h.lattice ▸ h.converts) hm hv
  refine Yields.graph_bind ?_
  dsimp only
  rw [h.checkableUpper_eq hu, hupper, if_neg hneeded, hfound]
  exact Yields.bind (.note rfl _) hnarrow

/-! ### Nested propagations -/

/-- **The innermost propagation** puts a lower member in the place of the one that is below it. The
conversion that it needs leaves the upper bound as it is. -/
theorem widen_yields (hu : u.Sound) (h : Lone u l id [a] [v] s.graph) (hm : u.Declares m)
    (ham : Sub a m) (hma : ¬Sub m a) (hav : ¬Sub a v) (hc : l.implicit? .none m v = some c)
    (hlevel : Sub v c.target) (depth : Nat) :
    Yields (spreadWithin (depth + 1) .lower id m) s () (s.graph.inserted .lower id m) ∧
      Lone u l id [m] [v] (s.graph.inserted .lower id m) := by
  have hafter : Lone u l id [m] [v] (s.graph.inserted .lower id m) :=
    h.inserted hu hm (by simp [Side.either, Side.Covered, ham]) rfl
  have ha : u.Declares a := h.declares .lower (List.mem_singleton_self a)
  have hv : u.Declares v := h.declares .upper (List.mem_singleton_self v)
  have hmv : ¬Sub m v := fun hmv => hav (hu.sub_trans ha hm hv ham hmv)
  obtain ⟨hmem, -⟩ := Lattice.implicit?_eq_some (hu.ne_container hm .lower) hc
  have htarget : u.Declares c.target := (h.converts c (h.lattice ▸ hmem)).2
  have hcheck : Yields (checkUpper (spreadWithin depth .upper) id m) s () s.graph := by
    refine h.checkUpper_yields_of_implicit hu hm hmv hc fun s₁ hs₁ => ?_
    rw [← hs₁] at h ⊢
    exact h.spreadWithin_yields_of_covered hu htarget .upper ⟨v,
      List.mem_singleton_self v, hlevel⟩ depth
  have hnew : ∀ e ∈ [a], ¬Sub m e := List.forall_mem_singleton.2 hma
  exact ⟨spreadWithin_yields hu h.registered hm (h.join_yields hu hm hnew hcheck h) hafter, hafter⟩

/-- **The propagation around it** narrows the upper bound to a member that the lower one does not
fit under. -/
theorem narrow_yields (hu : u.Sound) (h : Lone u l id [a] [v] s.graph) (hm : u.Declares m)
    (hmv : Sub m v) (hav : Sub a v) (ham : ¬Sub a m) {d e : Conversion}
    (hd : l.implicit? .none a m = some d) (hda : ¬Sub d.source a)
    (he : l.implicit? .none d.source m = some e) (hlevel : Sub m e.target) (depth : Nat) :
    let g₁ := (s.graph.inserted .upper id m).inserted .lower id d.source
    Yields (spreadWithin (depth + 2) .upper id m) s () g₁ ∧ Lone u l id [d.source] [m] g₁ := by
  intro g₁
  have ha : u.Declares a := h.declares .lower (List.mem_singleton_self a)
  have hv : u.Declares v := h.declares .upper (List.mem_singleton_self v)
  have hvm : ¬Sub v m := fun hvm => ham (hu.sub_trans ha hv hm hav hvm)
  obtain ⟨hmem, -, had, -⟩ := Lattice.implicit?_eq_some (hu.ne_container ha .lower) hd
  have hsource : u.Declares d.source := (h.converts d (h.lattice ▸ hmem)).1
  rw [hu.isSubtype_iff ha hsource] at had
  have hnarrowed : Lone u l id [a] [m] (s.graph.inserted .upper id m) :=
    h.inserted hu hm (by simp [Side.either, Side.Covered, hmv]) rfl
  have hwiden (s₁ : Progress) (hs₁ : s₁.graph = s.graph.inserted .upper id m) :
      Yields (spreadWithin (depth + 1) .lower id d.source) s₁ () g₁ ∧
      Lone u l id [d.source] [m] g₁ := by
    rw [← hs₁] at hnarrowed
    have := hnarrowed.widen_yields hu hsource had hda ham he hlevel depth
    rwa [hs₁] at this
  have hcheck := h.checkLower_yields hu hm (some d) (.inr ⟨rfl, ham, hd⟩)
  have hnew : ∀ e ∈ [v], ¬Sub e m := List.forall_mem_singleton.2 hvm
  have hbelow : ∀ e ∈ [v], Sub m e ∨ ¬clashes e m := List.forall_mem_singleton.2 (.inl hmv)
  have hafter := (hwiden { graph := s.graph.inserted .upper id m } rfl).2
  refine ⟨spreadWithin_yields hu h.registered hm ?_ hafter, hafter⟩
  refine h.meet_yields hu hm hnew hbelow hcheck fun s₁ hs₁ => ?_
  have hconstraint :
      Yields (noteConstraint d.source >>= fun _ => spreadWithin (depth + 1) .lower id d.source) s₁
      () g₁ :=
    Yields.bind (.note hs₁ _) fun s₂ hs₂ => (hwiden s₂ hs₂).1
  exact hconstraint.bind fun s₂ hs₂ => .pure hs₂

/-! ### Calls -/

/-- **A lower member that is overtaken** is accepted, and comes in beside what it is below. -/
theorem overtaken (hu : u.Sound) {first late top : Ty} {d e : Conversion}
    (h : Lone u l id [first] [top] g) (hlate : u.Declares late)
    (ho : l.Overtakes first late top c d e) : ((Call.addLower id late).outcome g).fault = none ∧
      Lone u l id [d.source, late] [c.target] ((Call.addLower id late).outcome g).graph := by
  have hfirst : u.Declares first := h.declares .lower (List.mem_singleton_self first)
  have htop : u.Declares top := h.declares .upper (List.mem_singleton_self top)
  obtain ⟨hc, -, -, hctop⟩ := Lattice.implicit?_eq_some (hu.ne_container hlate .lower) ho.narrows
  obtain ⟨hd, -, -, -⟩ := Lattice.implicit?_eq_some (hu.ne_container hfirst .lower) ho.widens
  have hc : u.Declares c.target := (h.converts c (h.lattice ▸ hc)).2
  have hd : u.Declares d.source := (h.converts d (h.lattice ▸ hd)).1
  obtain ⟨he, -, -, -⟩ := Lattice.implicit?_eq_some (hu.ne_container hd .lower) ho.settles
  have he : u.Declares e.target := (h.converts e (h.lattice ▸ he)).2
  have hbelow : Sub late d.source := (hu.isSubtype_iff hlate hd).1 ho.below
  have hproper : ¬Sub d.source late := (hu.isSubtype_iff hd hlate).not.1 ho.proper
  have hapart : ¬Sub late first := (hu.isSubtype_iff hlate hfirst).not.1 ho.apart
  set g₁ := (g.inserted .upper id c.target).inserted .lower id d.source with hg₁
  have hnarrow (depth : Nat) (s : Progress) (hs : s.graph = g) :
      Yields (spreadWithin (depth + 2) .upper id c.target) s () g₁ ∧
      Lone u l id [d.source] [c.target] g₁ := by
    rw [hg₁, ← hs]
    rw [← hs] at h
    refine h.narrow_yields hu hc ((hu.isSubtype_iff hc htop).1 hctop)
      ((hu.isSubtype_iff hfirst htop).1 ho.fits) ((hu.isSubtype_iff hfirst hc).not.1 ho.shut)
      ho.widens (fun hda => hapart ?_) ho.settles
      ((hu.isSubtype_iff hc he).1 ho.level) depth
    exact hu.sub_trans hlate hd hfirst hbelow hda
  have hnarrowed := (hnarrow 0 { graph := g } rfl).2
  have hafter : Lone u l id [d.source, late] [c.target] (g₁.inserted .lower id late) := by
    have hstays (t : Ty) : t = d.source ∧ ¬Sub t late ↔ t = d.source :=
      and_iff_left_of_imp fun ht => ht ▸ hproper
    exact hnarrowed.inserted hu hlate (by simp [Side.either, Side.Covered, hstays]) rfl
  obtain ⟨hfault, hgraph⟩ := h.addBound_yields hu hlate .lower fun depth => by
    refine spreadWithin_yields (s := { graph := g }) hu h.registered hlate ?_ hafter
    refine join_yields (s := { graph := g }) hu h hlate
      (List.forall_mem_singleton.2 hapart) ?_ hnarrowed
    have hunfit := (hu.isSubtype_iff hlate htop).not.1 ho.unfit
    exact checkUpper_yields_of_implicit (s := { graph := g }) hu h hlate hunfit ho.narrows
      fun s hs =>
      (hnarrow (depth + 1) s hs).1
  exact ⟨hfault, hgraph ▸ hafter⟩

/-- **Four calls** and a member that is overtaken. -/
theorem run (hu : u.Sound) (hl : u.Converts l) (tag : Nat) (policy : Policy)
    (name : String) (id : VarId) {first late top : Ty} {d e : Conversion}
    (hfirst : u.Declares first) (hlate : u.Declares late) (htop : u.Declares top)
    (ho : l.Overtakes first late top c d e) :
    let calls :=
      [.addVariable name (some { id }), .addLower id first, .addUpper id top, .addLower id late]
    Graph.accepts { tag, lattice := l, policy } calls ∧
      Lone u l id [d.source, late] [c.target]
      (Graph.after { tag, lattice := l, policy } calls) := by
  obtain ⟨hvariable, hlattice, hid, hblank⟩ := addVariable_first tag l policy name id
  set g := ((Call.addVariable name (some { id })).outcome { tag, lattice := l, policy }).graph
  have h : Lone u l id [] [] g := .blank hl hlattice hid hblank
  obtain ⟨hfirst', h⟩ := h.addLower hu hfirst
  have hfits : Sub first top := (hu.isSubtype_iff hfirst htop).1 ho.fits
  obtain ⟨htop', h⟩ := h.addUpper hu htop none (.inl ⟨rfl, hfits⟩) (by simp) (by simp)
  obtain ⟨hlate', h⟩ := h.overtaken hu hlate ho
  refine ⟨?_, h⟩
  exact accepts_cons.2 ⟨hvariable,
    accepts_cons.2 ⟨hfirst', accepts_cons.2 ⟨htop', accepts_cons.2 ⟨hlate', rfl⟩⟩⟩⟩

end Graph.Lone

end TypeBounds
