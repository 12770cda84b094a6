import TypeBounds.Proofs.Candour
import TypeBounds.Proofs.CycleOrder

/-!
# What coalescing takes out

The last phase of generalisation merges variables into parameters right below them whose bounds have
the same names. If bounds are candid, equal names are a good reason: the parameter has all members
that the variable has, and all its edges. So the merge has nothing to hand on, and nothing but the
variable itself goes.

* `untilCoalescing`: the phases before the last one, and `untilCoalescing_ok`, what they leave;
* `Graph.Without`: some variables are gone, and among the others nothing has changed;
* `Graph.Absorbed`: what one merge leaves, and `mergeInto_absorbs`, that it comes to its end;
* `Coalesces`: a whole run. Main statement: `coalescing_loses_nothing`.

Where bounds are not candid, equal names may be those of different members
(`coalescing_replaces_members`).
-/

namespace TypeBounds

open Infer

/-! ## The phases of a generalisation -/

/-- All phases but the last one. Gives the parameters afterwards. -/
def untilCoalescing (search : Search) (params : List VarId) : Infer (List VarId) := do
  modify Graph.pruneSelfEdges
  let g ← graph
  let params ← collapse (g.cycles search) params.eraseDups
  let g ← graph
  freezeRounds params g.ids.length []
  pure params

section

variable {search : Search} {params params' : List VarId} {s s' s'' : Progress}

theorem untilCoalescing_eq_ok : untilCoalescing search params s = (.ok params', s') ↔
    ∃ s₁, collapse (s.graph.pruneSelfEdges.cycles search) params.eraseDups
        { s with graph := s.graph.pruneSelfEdges } = (.ok params', s₁) ∧
      freezeRounds params' s₁.graph.ids.length [] s₁ = (.ok (), s') := by
  rw [untilCoalescing, modify_bind_apply, graph_bind_apply, bind_eq_ok]
  constructor
  · rintro ⟨ps, s₁, hcollapse, hrun⟩
    rw [graph_bind_apply] at hrun
    obtain ⟨_, s₂, hrounds, hpure⟩ := bind_eq_ok.1 hrun
    cases hpure
    exact ⟨s₁, hcollapse, hrounds⟩
  · rintro ⟨s₁, hcollapse, hrounds⟩
    refine ⟨params', s₁, hcollapse, ?_⟩
    rw [graph_bind_apply]
    exact bind_eq_ok.2 ⟨(), s', hrounds, rfl⟩

/-- The last phase follows. -/
theorem generalizeAll_of_untilCoalescing
    (hrun : untilCoalescing search params s = (.ok params', s'))
    (hlast : coalesceRounds params' s'.graph.ids.length s' = (.ok (), s'')) :
    generalizeAll search.find params s = (.ok (), s'') := by
  obtain ⟨s₁, hcollapse, hrounds⟩ := untilCoalescing_eq_ok.1 hrun
  rw [generalizeAll_eq, modify_bind_apply, graph_bind_apply]
  refine bind_eq_ok.2 ⟨params', s₁, hcollapse, ?_⟩
  rw [graph_bind_apply]
  exact bind_eq_ok.2 ⟨(), s', hrounds, hlast⟩

end

theorem Infer.eq_of_toOption_eq_some {α : Type} {m : Infer α} {s : Progress} {a : α}
    (h : (m s).1.toOption = some a) : m s = (.ok a, (m s).2) := by
  cases hfst : (m s).1 with
  | error e =>
    rw [hfst] at h
    cases h
  | ok b =>
    rw [hfst] at h
    cases h
    exact Prod.ext hfst rfl

namespace Graph

variable {g g' g'' : Graph} {xs ys params : List VarId} {side : Side} {id param : VarId} {m : Ty}

theorem generalize_eq_run {search : Search} (h : ∀ p ∈ params, p ∈ g.ids) :
    g.generalize search.find params = g.run .contradiction (generalizeAll search.find params) := by
  have hchecks (ps : List VarId) (hps : ∀ p ∈ ps, p ∈ g.ids) :
      (ps.forM fun id => (g.require id).map fun _ => ()) = .ok () := by
    induction ps with
    | nil => rfl
    | cons p ps ih =>
      obtain ⟨hp, hps⟩ := List.forall_mem_cons.1 hps
      obtain ⟨b, hb⟩ := Table.exists_get? hp
      have hrequire : g.require p = .ok b := by
        rw [require, hb]
      change
        (do (g.require p).map fun _ => (); ps.forM fun id => (g.require id).map fun _ => ()) = _
      rw [hrequire]
      exact ih hps
  rw [generalize, hchecks params h]

/-! ## Variables that are gone -/

/-- **These variables are gone**, and bounds and edges of the others are as they were. -/
structure Without (gone : List VarId) (g g' : Graph) : Prop where
  ids : g'.ids = g.ids.filter (· ∉ gone)
  sides : ∀ x, x ∉ gone → ∀ side, (g'.boundsOf x).side side = (g.boundsOf x).side side
  below : ∀ x y, x ∉ gone → y ∉ gone → (x ∈ (g'.boundsOf y).below ↔ x ∈ (g.boundsOf y).below)
  above : ∀ x y, x ∉ gone → y ∉ gone → (x ∈ (g'.boundsOf y).above ↔ x ∈ (g.boundsOf y).above)

theorem Without.refl (g : Graph) : Without [] g g where
  ids := by simp
  sides _ _ _ := rfl
  below _ _ _ _ := Iff.rfl
  above _ _ _ _ := Iff.rfl

theorem Without.trans (h : Without xs g g') (h' : Without ys g' g'') :
    Without (xs ++ ys) g g'' where
  ids := by
    rw [h'.ids, h.ids, List.filter_filter]
    simp [Bool.and_comm]
  sides x hx side := by
    obtain ⟨hxs, hys⟩ := not_or.1 (List.mem_append.not.1 hx)
    exact (h'.sides x hys side).trans (h.sides x hxs side)
  below x y hx hy := by
    obtain ⟨hx, hx'⟩ := not_or.1 (List.mem_append.not.1 hx)
    obtain ⟨hy, hy'⟩ := not_or.1 (List.mem_append.not.1 hy)
    exact (h'.below x y hx' hy').trans (h.below x y hx hy)
  above x y hx hy := by
    obtain ⟨hx, hx'⟩ := not_or.1 (List.mem_append.not.1 hx)
    obtain ⟨hy, hy'⟩ := not_or.1 (List.mem_append.not.1 hy)
    exact (h'.above x y hx' hy').trans (h.above x y hx hy)

/-- **A variable was absorbed** by a parameter. It is gone, nothing else has changed, and the bounds
of the parameter already implied its bounds. -/
structure Absorbed (id param : VarId) (g g' : Graph) : Prop extends Without [id] g g' where
  registered : id ∈ g.ids
  survives : param ∈ g'.ids
  implied : ∀ side, ∀ m ∈ g.has side id, ∃ e ∈ g.has side param, g.supersedes side e m

/-! ## What can be coalesced -/

theorem isIndistinguishable_of_coalescesInto? (h : g.coalescesInto? params id = some param) :
    g.isIndistinguishable id param := by
  unfold coalescesInto? at h
  split at h
  · cases h
  · have hfilter := (Option.filter_eq_some_iff.1 h).2
    exact (Bool.and_eq_true_iff.1 hfilter).2

/-- A bound of a variable, if there is one, is written like that of the parameter it is not told
apart from. -/
theorem name_eq_of_isIndistinguishable (h : g.isIndistinguishable id param)
    (hne : (g.boundsOf id).side side ≠ []) :
    (side.container ((g.boundsOf id).side side)).name = "" ∨ (g.boundsOf param).side side ≠ [] ∧
      (side.container ((g.boundsOf id).side side)).name =
      (side.container ((g.boundsOf param).side side)).name := by
  obtain ⟨hlower, hupper⟩ := Bool.and_eq_true_iff.1 h
  cases side with
  | lower =>
    have hne : (g.boundsOf id).lower ≠ [] := hne
    by_cases hparam : (g.boundsOf param).lower = []
    · exact .inl
        (by simpa [Bounds.lowerName, Bounds.side, Side.container, hne, hparam] using hlower)
    · exact .inr
        ⟨hparam, by simpa [Bounds.lowerName, Bounds.side, Side.container, hne, hparam] using hlower⟩
  | upper =>
    have hne : (g.boundsOf id).upper ≠ [] := hne
    by_cases hparam : (g.boundsOf param).upper = []
    · exact .inl
        (by simpa [Bounds.upperName, Bounds.side, Side.container, hne, hparam] using hupper)
    · exact .inr
        ⟨hparam, by simpa [Bounds.upperName, Bounds.side, Side.container, hne, hparam] using hupper⟩

/-- **What is indistinguishable** has members of the same names. -/
theorem Candid.exists_namesake (h : g.Candid) (hind : g.isIndistinguishable id param)
    (hm : m ∈ g.has side id) : ∃ e ∈ g.has side param, m.name = e.name := by
  obtain ⟨m, hmem, rfl⟩ := Members.mem_types.1 hm
  have hkeyed := h.tidy.keyed side id
  have hkeyed' := h.tidy.keyed side param
  have hne : (g.boundsOf id).side side ≠ [] := List.ne_nil_of_mem hmem
  rcases name_eq_of_isIndistinguishable hind hne with hempty | ⟨hne', hname⟩
  · exact absurd hempty (Ty.name_container_ne_empty side hkeyed fun _ he =>
      (h.candidIn side he).candid.name_ne_empty)
  · have hperm := Members.keys_perm_of_name_eq hkeyed hkeyed' (fun _ he => h.candidIn side he)
      (fun _ he => h.candidIn side he) hne hne' hname
    obtain ⟨e, he, hkey⟩ := List.mem_map.1 (hperm.mem_iff.1 (List.mem_map_of_mem hmem))
    refine ⟨e.2, Members.mem_types.2 ⟨e, he, rfl⟩, ?_⟩
    rw [← hkeyed.key m hmem, ← hkeyed'.key e he, hkey]

end Graph

open TypeBounds.Graph

section

variable {params : List VarId} {id param : VarId} {side : Side} {s s₁ s' : Progress}
  {merges : List (VarId × VarId)} {fuel : Nat}

/-! ## One merge -/

/-- A bound goes nowhere where every member of it has a namesake. -/
theorem handOn_eq_of_namesakes (h : s.graph.Candid) (hparam : param ∈ s.graph.ids)
    (hnamesake : ∀ m ∈ s.graph.has side id, ∃ e ∈ s.graph.has side param, m.name = e.name) :
    handOn side param ((s.graph.boundsOf id).side side) s = (.ok (), s) := by
  unfold handOn
  split
  · rfl
  · refine spread_eq_of_absorbs hparam fun m hm => ?_
    rw [h.copy_container, h.parts_container] at hm
    obtain ⟨e, he, hname⟩ := hnamesake m hm
    rw [absorbs_eq, List.any_eq_true]
    exact ⟨e, he, supersedes_of_name_eq hname⟩

/-- A variable that was cut off and is not registered any more is all that is gone. -/
theorem Graph.Candid.without_cutOff {g : Graph} (h : g.Candid) (hwf : g.WellFormed)
    (hparam : param ∈ g.ids) (hwf' : ((g.cutOff id param).unregister id).WellFormed) :
    Without [id] g ((g.cutOff id param).unregister id) := by
  have hbounds {x : VarId} (hx : x ∉ [id]) :
      ((g.cutOff id param).unregister id).boundsOf x = (g.cutOff id param).boundsOf x := by
    rw [boundsOf_unregister, if_neg (List.mem_singleton.not.1 hx)]
  have hbelow (x y : VarId) (hx : x ∉ [id]) (hy : y ∉ [id]) :
      x ∈ (((g.cutOff id param).unregister id).boundsOf y).below ↔ x ∈ (g.boundsOf y).below := by
    rw [hbounds hy, hwf.mem_below_cutOff hparam]
    exact and_iff_left ⟨List.mem_singleton.not.1 hx, List.mem_singleton.not.1 hy⟩
  refine ⟨?_, fun x hx side => ?_, hbelow, fun x y hx hy => ?_⟩
  · rw [ids_unregister, (hwf.cutOff hparam).ids_eq]
    simp
  · rw [hbounds hx, h.bare.side_cutOff]
  · rw [← hwf'.mirrored, ← hwf.mirrored]
    exact hbelow y x hy hx

/-- **A coalescing merge** comes to its end, and takes out nothing but the variable. -/
theorem mergeInto_absorbs (hgen : s.graph.Generalized params) (h : s.graph.Candid)
    (hid : id ∈ s.graph.ids) (hco : s.graph.coalescesInto? params id = some param) :
    ∃ s', mergeInto id param s = (.ok (), s') ∧ Absorbed id param s.graph s'.graph := by
  obtain ⟨hidp, hopen, hparam, hbelow⟩ := coalescesInto?_eq_some hco
  have hwf := hgen.wellFormed
  have hne : id ≠ param := fun heq => hidp (heq ▸ hparam)
  have hpids : param ∈ s.graph.ids := hwf.mem_ids_of_mem_below hbelow
  rw [isFrozen_eq, Bool.or_eq_false_iff] at hopen
  have hnamesake (side : Side) (m : Ty) (hm : m ∈ s.graph.has side id) :
      ∃ e ∈ s.graph.has side param, m.name = e.name :=
    h.exists_namesake (isIndistinguishable_of_coalescesInto? hco) hm
  -- cutting the variable off changes no bounds, so the parameter still has all the names
  set s₁ : Progress := { s with graph := s.graph.cutOff id param }
  have hhand (side : Side) : handOn side param ((s₁.graph.boundsOf id).side side) s₁ =
      (.ok (), s₁) := by
    have hcut : s₁.graph.Candid := h.cutOff id param
    have hids : s₁.graph.ids = s.graph.ids := (hwf.cutOff hpids).ids_eq
    have hhas (x : VarId) : s₁.graph.has side x = s.graph.has side x :=
      congrArg Members.types (h.bare.side_cutOff id param side x)
    refine handOn_eq_of_namesakes hcut (hids ▸ hpids) fun m hm => ?_
    rw [hhas] at hm ⊢
    exact hnamesake side m hm
  have hrun := mergeInto_idle hwf hne hpids hhand hopen.1
    (fun x hx _ hxparam => (coalescesInto?_nearest hco x hx).resolve_left hxparam)
    fun y hy _ hyparam => hgen.closed param id y hbelow hy hyparam.symm
  rw [if_neg (by rw [hopen.2]; exact Bool.false_ne_true)] at hrun
  have hwithout := h.without_cutOff hwf hpids (mergeInto_coalesced hgen hco hrun).1.wellFormed
  refine ⟨_, hrun, hwithout, hid, ?_, fun side m hm => ?_⟩
  · rw [hwithout.ids]
    simp [hpids, hne.symm]
  · obtain ⟨e, he, hname⟩ := hnamesake side m hm
    exact ⟨e, he, supersedes_of_name_eq hname⟩

/-! ## All merges -/

/-- **A run of coalescing merges** to its end. Each of them is the next one to make, comes to its
end, and takes out nothing but one variable. -/
inductive Coalesces (params : List VarId) : Progress → List (VarId × VarId) → Progress → Prop where
  | done {s : Progress} (hnext : s.graph.nextMerge? params = none) : Coalesces params s [] s
  | merge {s s₁ s' : Progress} {id param : VarId} {merges : List (VarId × VarId)}
      (hnext : s.graph.nextMerge? params = some (id, param))
      (hrun : mergeInto id param s = (.ok (), s₁))
      (habsorbed : Absorbed id param s.graph s₁.graph) (hrest : Coalesces params s₁ merges s') :
      Coalesces params s ((id, param) :: merges) s'

theorem Coalesces.without (h : Coalesces params s merges s') :
    Without (merges.map Prod.fst) s.graph s'.graph := by
  induction h with
  | done => exact .refl _
  | merge _ _ habsorbed _ ih => exact habsorbed.toWithout.trans ih

/-- **The last phase** is such a run, and it has enough rounds: each one takes a variable out. -/
theorem coalesceRounds_coalesces (hgen : s.graph.Generalized params) (h : s.graph.Candid)
    (hfuel : s.graph.ids.length ≤ fuel) :
    ∃ merges s', Coalesces params s merges s' ∧ coalesceRounds params fuel s = (.ok (), s') := by
  induction fuel generalizing s with
  | zero =>
    have hnone : s.graph.nextMerge? params = none := by
      rw [nextMerge?, typeVariables, List.eq_nil_of_length_eq_zero (Nat.le_zero.1 hfuel)]
      rfl
    exact ⟨[], s, .done hnone, rfl⟩
  | succ fuel ih =>
    cases hnext : s.graph.nextMerge? params with
    | none => exact ⟨[], s, .done hnext, coalesceRounds_of_none hnext⟩
    | some found =>
      obtain ⟨id, param⟩ := found
      obtain ⟨hid, hco⟩ := coalescesInto?_of_nextMerge? hnext
      obtain ⟨s₁, hrun, habsorbed⟩ := mergeInto_absorbs hgen h hid hco
      have hfewer : s₁.graph.ids.length < s.graph.ids.length := by
        rw [habsorbed.ids]
        exact List.length_filter_lt_length_iff_exists.2 ⟨id, hid, by simp⟩
      have hgen₁ := (mergeInto_coalesced hgen hco hrun).1
      obtain ⟨merges, s', hrest, hrounds⟩ := ih hgen₁ (h.of_mergeInto hrun) (by omega)
      refine ⟨(id, param) :: merges, s', .merge hnext hrun habsorbed hrest, ?_⟩
      rw [coalesceRounds_of_some hnext]
      exact bind_eq_ok.2 ⟨(), s₁, hrun, hrounds⟩

/-- **What the phases before leave.** -/
theorem untilCoalescing_ok {params' : List VarId} (hwf : s.graph.WellFormed)
    (hclosed : s.graph.Closed) (h : s.graph.Candid)
    (hrun : untilCoalescing search params s = (.ok params', s')) :
    s'.graph.Generalized params' ∧ s'.graph.Candid := by
  obtain ⟨s₁, hcollapse, hrounds⟩ := untilCoalescing_eq_ok.1 hrun
  have hkeep : MergesKeep Candid := fun _ _ _ _ _ _ hs hmerge => hs.of_mergeInto hmerge
  obtain ⟨hcol, hclosed₁, hacyclic, -, hcandid⟩ := collapse_cycles_ok hkeep hwf hclosed hcollapse
  obtain ⟨xs, hdetached, hend⟩ := freezeRounds_detached hcol.wellFormed hrounds
  have hfrozen : Keeps Candid s₁.graph s'.graph :=
    (along_freezeRounds freeze_candid params' _ [] s₁).of_eq hrounds
  exact ⟨hdetached.generalized hclosed₁ hacyclic hend,
    hfrozen (hcandid (h.of_sameMembers sameTypes_pruneSelfEdges.sameMembers))⟩

end

/-- **Coalescing loses nothing.** If conversions and all types that came in are candid, then the
phases before leave a graph in which every merge to make comes to its end. It takes out one variable
whose bounds were implied already, and changes no bounds and edges of others. So generalisation
succeeds, with what the merges leave, in whatever order the cycles were found. -/
theorem coalescing_loses_nothing (tag : Nat) {lattice : Lattice} (policy : Policy)
    (hl : lattice.Candid) {calls : List Call} (hcalls : ∀ c ∈ calls, c.DealsIn Ty.Candid)
    {search : Search} {params params' : List VarId} {s : Progress}
    (hparams : ∀ p ∈ params, p ∈ (Graph.after { tag, lattice, policy } calls).ids)
    (hrun : untilCoalescing search params { graph := Graph.after { tag, lattice, policy } calls } =
      (.ok params', s)) :
    ∃ merges s', Coalesces params' s merges s' ∧ Without (merges.map Prod.fst) s.graph s'.graph ∧
      coalesceRounds params' s.graph.ids.length s = (.ok (), s') ∧
      ((Graph.after { tag, lattice, policy } calls).generalize search.find params).fault = none ∧
      ((Graph.after { tag, lattice, policy } calls).generalize search.find params).graph =
      s'.graph := by
  have hempty := WellFormed.empty tag lattice policy
  have hclosed := Closed.after hempty (.empty tag lattice policy) calls
  have hcandid := (Graph.Candid.empty tag policy hl).after hempty hcalls
  obtain ⟨hgen, hcandid⟩ := untilCoalescing_ok (hempty.after calls) hclosed hcandid hrun
  obtain ⟨merges, s', hmerges, hrounds⟩ := coalesceRounds_coalesces hgen hcandid (Nat.le_refl _)
  have hall := generalizeAll_of_untilCoalescing hrun hrounds
  refine ⟨merges, s', hmerges, hmerges.without, hrounds, ?_⟩
  rw [generalize_eq_run hparams, run, hall]
  exact ⟨rfl, rfl⟩

def classK : Ty := .nominal "K" .concrete false [ifaceA, ifaceB, ifaceD]

/-- A parameter and a variable above it have the same members, in different orders. -/
def shuffledUppers : List Call :=
  [.addVariable "$p" (some { id := "T1" }), .addVariable "$q" (some { id := "T2" }),
    .addUpper "T1" ifaceB, .addRef "T2" (some { id := "T1" }), .addUpper "T2" bothAB,
    .addLower "T1" classK]

theorem coalescing_loses_nothing_shuffledUppers :
    let lattice : Lattice := { conversions := [⟨ifaceD, ifaceA, true, "p"⟩] }
    let g := Graph.after { tag := 1, lattice } shuffledUppers
    ∃ s, untilCoalescing .standard ["T1"] { graph := g } = (.ok ["T1"], s) ∧
      s.graph.nextMerge? ["T1"] = some ("T2", "T1") ∧
      ∃ merges s', Coalesces ["T1"] s merges s' ∧ Without (merges.map Prod.fst) s.graph s'.graph ∧
        coalesceRounds ["T1"] s.graph.ids.length s = (.ok (), s') ∧
        (g.generalize Search.standard.find ["T1"]).fault = none ∧
        (g.generalize Search.standard.find ["T1"]).graph = s'.graph := by
  intro lattice g
  have hl : lattice.Candid := by
    rintro c (_ | ⟨_, ⟨⟩⟩)
    exact ⟨.leaf (by decide), Ty.IsClass.candidTarget (by decide)⟩
  have hboth : bothAB.Candid := by
    refine Ty.candid_container_of_length_ne_one .upper ⟨by decide, by decide⟩ ?_ (by decide)
    rintro m (_ | ⟨_, _ | ⟨_, ⟨⟩⟩⟩) <;> exact .leaf (by decide)
  have hB : ifaceB.Candid := .leaf (by decide)
  have hK : classK.Candid := .leaf (by decide)
  have hcalls : ∀ c ∈ shuffledUppers, c.DealsIn Ty.Candid := by
    simp [shuffledUppers, Call.DealsIn, hboth, hB, hK]
  have hparams : ∀ p ∈ ["T1"], p ∈ g.ids := by decide +kernel
  obtain ⟨s, hrun, hnext⟩ : ∃ s, untilCoalescing .standard ["T1"] { graph := g } = (.ok ["T1"], s) ∧
      s.graph.nextMerge? ["T1"] = some ("T2", "T1") :=
    ⟨_, eq_of_toOption_eq_some (by decide +kernel), by decide +kernel⟩
  exact ⟨s, hrun, hnext, coalescing_loses_nothing 1 .plain hl hcalls hparams hrun⟩

/-! ## Where a union is written like an intersection -/

def meetDecls : List TypeDecl :=
  [{ name := "A", kind := "interface" }, { name := "B", kind := "interface" },
    { name := "D", kind := "interface" },
    { name := "K", kind := "class", parents := ["A", "B", "D"] }]

def meets : Universe :=
  ⟨⟨[("mixed", .mixed), ("A", ifaceA), ("B", ifaceB), ("D", ifaceD), ("K", classK)]⟩⟩

/-- A union around one intersection. -/
def loneAB : Ty := Ty.unionOf [bothAB]

/-- The upper bound of `T2` has two members, and that of `T4` has one that is written like both of
them. Since `T3` was fixed, upper bounds do not come down from `T4` to `T2`. -/
def maskedMeet : List Call :=
  [.addVariable "$r" (some { id := "T1" }), .addVariable "$s" (some { id := "T2" }),
    .addVariable "$f" (some { id := "T3" }), .addVariable "$t" (some { id := "T4" }),
    .addRef "T2" (some { id := "T1" }), .addRef "T3" (some { id := "T2" }), .addUpper "T2" ifaceA,
    .addUpper "T2" ifaceB, .addUpper "T1" ifaceD, .addLower "T3" classK, .fixVariable "$f",
    .addUpper "T4" loneAB, .addRef "T4" (some { id := "T3" }), .addLower "T2" classK]

/-- **Bounds have to be candid.** Otherwise a merge may put a union around an intersection in the
place of the members of that intersection, in the parameter and in the variables below it. -/
theorem coalescing_replaces_members :
    let g := Graph.after { tag := 1 } maskedMeet
    let before := untilCoalescing .standard ["T1", "T2"] { graph := g }
    let merged := mergeInto "T4" "T2" before.2
    Universe.ofDecls meetDecls = .ok meets ∧
      (∀ name ∈ meets.types.keys, IsIdentifier name ∧ name ≠ "nothing") ∧
      (∀ c ∈ maskedMeet, c.DealsIn (Plain meets)) ∧ Graph.accepts { tag := 1 } maskedMeet ∧
      before.1.toOption = some ["T1", "T2"] ∧ before.2.graph.nextMerge? ["T1", "T2"] =
      some ("T4", "T2") ∧
      merged.1.isOk ∧ Members.keys (before.2.graph.boundsOf "T1").upper = ["A", "B", "D"] ∧
      Members.keys (merged.2.graph.boundsOf "T1").upper = ["D", "(A & B)"] := by
  intro g before merged
  have hdecls : Universe.ofDecls meetDecls = .ok meets := rfl
  have hu : meets.Sound := Universe.sound_of_ofDecls hdecls
  have hA : Plain meets ifaceA := hu.plain rfl
  have hB : Plain meets ifaceB := hu.plain rfl
  have hD : Plain meets ifaceD := hu.plain rfl
  have hK : Plain meets classK := hu.plain rfl
  have hboth : Plain meets bothAB := hu.plain_interOf rfl rfl (by decide)
  have hlone : Plain meets loneAB := by
    refine .union (by decide) (by decide) ?_
    rintro m (_ | ⟨_, ⟨⟩⟩)
    exact hboth
  have hcalls : ∀ c ∈ maskedMeet, c.DealsIn (Plain meets) := by
    simp [maskedMeet, Call.DealsIn, hA, hB, hD, hK, hlone]
  exact ⟨hdecls, by decide, hcalls, by decide +kernel⟩

end TypeBounds
