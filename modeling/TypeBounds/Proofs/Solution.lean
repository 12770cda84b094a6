import TypeBounds.Proofs.Exactness
import TypeBounds.Proofs.Rounds

/-!
# When the fixed types solve the edges

A generalisation that succeeds gives every variable it fixes a type. For an edge from `low` up to
`high` that type should be an answer: what `low` is fixed to should be a subtype of what `high` is
fixed to. Fixing hands types on upwards only and takes the variable out, so **everything depends on
which end is fixed first**:

* `resolved_subtype_of_generalize`: if the natural order puts `low` first, and no fixed reference
  interferes, then the edge is solved;
* `not_resolved_subtype_late`: if it puts `high` first, the edge need not be solved. A variable `T2`
  below `T1` with nothing below it is fixed to `mixed` after `T1` was fixed to `int`.

Types are without convertibles and there are no implicit conversions.
-/

namespace TypeBounds

open Infer Relation

/-! ## Graphs that were built up -/

namespace Graph

variable {u : Universe} {g g' : Graph} {id : VarId} {t : Ty}

/-- Edges go wherever they go. -/
def Anywhere (_ _ : VarId) : Prop := True

instance : IsPreorder VarId Anywhere where
  refl _ := trivial
  trans _ _ _ _ _ := trivial

/-- Nothing was fixed yet, but for what fixed references pin. -/
def Unfrozen (g : Graph) : Prop := ∀ x, (g.boundsOf x).frozen = false

theorem Unfrozen.of_sameFrame (h : g.Unfrozen) (hsame : SameFrame g g') : g'.Unfrozen := by
  intro x
  rw [hsame.frozen]
  exact h x

/-- An addition keeps what a graph was built up to. -/
theorem Growth.built {F : VarId → VarId → Prop} {Z : VarId → Prop} (h : Growth u F Z g g')
    (hopen : g.Unfrozen) : g'.Standing u ∧ g'.Unfrozen :=
  ⟨h.standing, hopen.of_sameFrame h.frame⟩

theorem Standing.of_sameTypes (h : g.Standing u) (hsame : SameTypes g g') (hwf : g'.WellFormed) :
    g'.Standing u :=
  ⟨hwf, hsame.lattice ▸ h.quiet, h.tidy.of_sameTypes hsame⟩

theorem Standing.addBound (hu : u.Legible) (h : g.Standing u) (hopen : g.Unfrozen) (side : Side)
    (ht : ConvertibleFree u t) (hacc : (g.addBound side id t).fault = none) :
    (g.addBound side id t).graph.Standing u ∧ (g.addBound side id t).graph.Unfrozen := by
  obtain ⟨hid, s, hspread, hgraph⟩ := addBound_accepted (ht.isSelf_eq hu.toSound) hacc
  have harr := spread_ok (admits_settled hu) h.quiet h.tidy h.wellFormed hid
    (fun m hm => ht.settled hu.toSound hm) hspread
  have hgrow : Growth u Anywhere (fun _ => False) g s.graph := harr.growth h fun hid => hid
  rw [hgraph]
  exact hgrow.built hopen

theorem Standing.addRef (hu : u.Legible) (h : g.Standing u) (hopen : g.Unfrozen)
    {r : Option Reference} (hacc : (g.addRef id r).fault = none) :
    (g.addRef id r).graph.Standing u ∧ (g.addRef id r).graph.Unfrozen := by
  obtain ⟨r, rfl, hid, hr, ⟨-, hgraph | hgraph⟩ | ⟨-, s, hgraph, hrun⟩⟩ := addRef_accepted hacc
  · rw [hgraph]
    exact ⟨h, hopen⟩
  · have hsame : SameTypes g (g.link id id) := sameTypes_link
    rw [hgraph]
    exact ⟨h.of_sameTypes hsame (h.wellFormed.link hid hid), hopen.of_sameFrame hsame.toSameFrame⟩
  · rw [hgraph]
    split at hrun
    · have hgrow : Growth u Anywhere (fun _ => False) g s.graph :=
        handOn_growth_of (s := { graph := g }) hu h .lower hid (fun hid => hid) hrun
      exact hgrow.built hopen
    · have hgrow : Growth u Anywhere (fun _ => False) g s.graph :=
        addEdge_growth (s := { graph := g }) hu h hr hid (fun hid => hid)
          (fun hid => hid) trivial hrun
      exact hgrow.built hopen

end Graph

open TypeBounds.Graph

variable {u : Universe}

/-- **One accepted call** that builds a graph up. -/
theorem Call.standing_outcome (hu : u.Legible) {c : Call}
    (hc : c.Builds (ConvertibleFree u)) {g : Graph} (h : g.Standing u) (hopen : g.Unfrozen)
    (hacc : (c.outcome g).fault = none) :
    (c.outcome g).graph.Standing u ∧ (c.outcome g).graph.Unfrozen := by
  cases c with
  | addVariable name r =>
    have hwf := (Call.addVariable name r).wellFormed_outcome h.wellFormed
    obtain ⟨r', -, hgraph⟩ := addVariable_accepted hacc
    rw [hgraph] at hwf ⊢
    have hbounds (x : VarId) :
        Graph.boundsOf { g.register r'.id with names := g.names.insert name r' } x = g.boundsOf x :=
      boundsOf_register
    refine ⟨⟨hwf, h.quiet, fun side x => ?_, fun side x t ht => ?_⟩, fun x => ?_⟩
    · rw [hbounds]
      exact h.tidy.keyed side x
    · rw [has, hbounds] at ht
      exact h.tidy.admissible side x t ht
    · rw [hbounds]
      exact hopen x
  | addLower id t => exact h.addBound hu hopen .lower hc hacc
  | addUpper id t => exact h.addBound hu hopen .upper hc hacc
  | addRef id r => exact h.addRef hu hopen hacc
  | _ => exact hc.elim

/-- **All accepted calls.** -/
theorem Graph.Standing.after (hu : u.Legible) {g : Graph} (h : g.Standing u) (hopen : g.Unfrozen)
    {calls : List Call} (hcalls : ∀ c ∈ calls, c.Builds (ConvertibleFree u))
    (hacc : g.accepts calls) : (g.after calls).Standing u ∧ (g.after calls).Unfrozen := by
  induction calls generalizing g with
  | nil => exact ⟨h, hopen⟩
  | cons c calls ih =>
    obtain ⟨hfirst, hrest⟩ := accepts_cons.1 hacc
    obtain ⟨h₁, hopen₁⟩ :=
      Call.standing_outcome hu (hcalls c (List.mem_cons_self ..)) h hopen hfirst
    exact ih h₁ hopen₁ (fun c hc => hcalls c (List.mem_cons_of_mem _ hc)) hrest

theorem Graph.Standing.empty (tag : Nat) {lattice : Lattice} (policy : Policy)
    (hq : lattice.Quiet) : Standing u { tag, lattice, policy } where
  wellFormed := .empty tag lattice policy
  quiet := hq
  tidy := .empty ..

/-! ## The phases -/

section

variable {search : Search} {low high : VarId} {params : List VarId} {s s' : Progress}

/-- Merges of variables that were not fixed keep what the graph was built up to. -/
theorem mergesKeep_standing (hu : u.Legible) : MergesKeep fun g => g.Standing u ∧ g.Unfrozen := by
  rintro old new s s' hne hnew ⟨h, hopen⟩ hrun
  have hmerged : Merged u Anywhere (fun _ => False) old new s.graph s'.graph :=
    mergeInto_ok hu h hne hnew (hopen old) (fun _ _ _ => trivial) trivial trivial
      (fun _ hz => hz.elim) hrun
  refine ⟨hmerged.standing, fun x => ?_⟩
  rw [hmerged.frozen]
  exact hopen x

/-- **An edge between two survivors** is still there after the first two phases, and nothing flows
back. -/
theorem Graph.Collapsed.linked {heir : VarId → VarId} {g g' : Graph} (h : Collapsed heir g g')
    (hedge : low ∈ (g.boundsOf high).below) (hlow : heir low = low) (hhigh : heir high = high)
    (hopen : g'.Unfrozen) (hlowPin : g.isPinned low = false) (hhighPin : g.isPinned high = false) :
    g'.Linked (ReflTransGen fun a b => a ∈ (g'.boundsOf b).below) low high where
  edge := (h.edges low high).2 ⟨hedge, hlow, hhigh⟩
  within _ _ hxy := .single hxy
  low_open := by rw [isFrozen_eq, hopen, isPinned_follow h.names, hlowPin, Bool.or_false]
  high_open := by rw [isFrozen_eq, hopen, isPinned_follow h.names, hhighPin, Bool.or_false]

/-- What was handed on stays, whatever else is merged. -/
theorem Graph.Handed.merged {g g' : Graph} {old new : VarId} (h : g.Handed u low high)
    (hmerged : Merged u Anywhere (· = low) old new g g') (hlow : low ≠ old) (hhigh : high ≠ old) :
    g'.Handed u low high where
  secluded := (hmerged.secluded low hlow rfl).1
  entails p hp := by
    have hsame := (hmerged.secluded low hlow rfl).2
    rw [Bounds.resolved_congr (hsame .lower) (hsame .upper)] at hp
    exact hmerged.entails high p hhigh (h.entails p hp)

/-- **One coalescing merge** fixes nothing, and what was handed on stays. -/
theorem mergeInto_handed (hu : u.Legible) (h : s.graph.Standing u) {id param : VarId}
    (hco : s.graph.coalescesInto? params id = some param)
    (hstate : s.graph.isFrozen low = false ∨ s.graph.Handed u low high) (hlow : low ≠ id)
    (hhigh : high ≠ id) (hrun : mergeInto id param s = (.ok (), s')) :
    s'.graph.Standing u ∧ (s'.graph.isFrozen low = false ∨ s'.graph.Handed u low high) := by
  obtain ⟨hid, hopen, hparam, hbelow⟩ := coalescesInto?_eq_some hco
  have hne : id ≠ param := fun heq => hid (heq ▸ hparam)
  have hids : param ∈ s.graph.ids := h.wellFormed.mem_ids_of_mem_below hbelow
  rw [isFrozen_eq, Bool.or_eq_false_iff] at hopen
  have hmerge {Z : VarId → Prop} (hZ : ∀ z, Z z → s.graph.Secluded z ∧ z ≠ param) :
      Merged u Anywhere Z id param s.graph s'.graph :=
    mergeInto_ok hu h hne hids hopen.1 (fun _ _ _ => trivial) trivial trivial hZ hrun
  rcases hstate with hstate | hstate
  · have hmerged := hmerge (Z := fun _ => False) fun _ hz => hz.elim
    refine ⟨hmerged.standing, .inl ?_⟩
    rw [isFrozen_eq, hmerged.frozen, isPinned_follow (hmerged.names.trans names_redirect)]
    exact hstate
  · have hmerged := hmerge (Z := (· = low)) fun z hz => by
      subst hz
      refine ⟨hstate.secluded, ?_⟩
      rintro rfl
      exact (h.wellFormed.not_mem_of_secluded hstate.secluded id).2 hbelow
    exact ⟨hmerged.standing, .inr (hstate.merged hmerged hlow hhigh)⟩

/-- **Coalescing** fixes nothing, and what was handed on stays. -/
theorem coalesceRounds_handed (hu : u.Legible) {merges : Nat} (h : s.graph.Standing u)
    (hgen : s.graph.Generalized params)
    (hstate : s.graph.isFrozen low = false ∨ s.graph.Handed u low high)
    (hlow : low ∈ s'.graph.ids) (hhigh : high ∈ s'.graph.ids)
    (hrun : coalesceRounds params merges s = (.ok (), s')) :
    s'.graph.Standing u ∧ (s'.graph.isFrozen low = false ∨ s'.graph.Handed u low high) := by
  induction merges generalizing s with
  | zero =>
    obtain ⟨-, rfl⟩ := pure_eq_ok.1 hrun
    exact ⟨h, hstate⟩
  | succ merges ih =>
    rcases hnext : s.graph.nextMerge? params with _ | ⟨id, param⟩
    · rw [coalesceRounds_of_none hnext] at hrun
      cases hrun
      exact ⟨h, hstate⟩
    · rw [coalesceRounds_of_some hnext] at hrun
      obtain ⟨_, s₁, hmerge, hrun⟩ := bind_eq_ok.1 hrun
      obtain ⟨-, hco⟩ := coalescesInto?_of_nextMerge? hnext
      obtain ⟨hgen₁, hids₁, -⟩ := mergeInto_coalesced hgen hco hmerge
      -- both ends are there in the end, so neither is merged away
      have hids₂ := (coalesceRounds_ok hgen₁ hrun).2.1
      obtain ⟨h₁, hstate₁⟩ := mergeInto_handed hu h hco hstate (hids₁ low (hids₂ low hlow)).2
        (hids₁ high (hids₂ high hhigh)).2 hmerge
      exact ih h₁ hgen₁ hstate₁ hrun

/-- **All phases**: an edge between two survivors is handed on, or `low` is not fixed. -/
theorem generalizeAll_handed (hu : u.Legible) (h : s.graph.Standing u) (hopen : s.graph.Unfrozen)
    (hclosed : s.graph.Closed) (horder : Natural.Orders s.graph.ids)
    (hle : (Natural.compare low high).isLE) (hne : low ≠ high)
    (hedge : low ∈ (s.graph.boundsOf high).below) (hlowPin : s.graph.isPinned low = false)
    (hhighPin : s.graph.isPinned high = false) (hlow : low ∈ s'.graph.ids)
    (hhigh : high ∈ s'.graph.ids) (hrun : generalizeAll search.find params s = (.ok (), s')) :
    s'.graph.Standing u ∧ (s'.graph.isFrozen low = false ∨ s'.graph.Handed u low high) := by
  have hheir := (generalizeAll_ok h.wellFormed hclosed hrun).2.1
  have hsurvives {x : VarId} (hx : x ∈ s'.graph.ids) (hpin : s.graph.isPinned x = false) :
      s.graph.heir params x = x := (hheir x hx).resolve_right (by simp [hpin])
  obtain ⟨params', s₁, s₂, hcollapse, hrounds, hcoalesce⟩ := generalizeAll_cases hrun
  obtain ⟨hwf₀, hprune⟩ := h.wellFormed.pruneSelfEdges
  have hsame : SameTypes s.graph s.graph.pruneSelfEdges := sameTypes_pruneSelfEdges
  obtain ⟨hcol, hclosed₁, hacyclic, -, hkept⟩ :=
    collapse_cycles_ok (mergesKeep_standing hu) h.wellFormed hclosed hcollapse
  obtain ⟨h₁, hopen₁⟩ := hkept ⟨h.of_sameTypes hsame hwf₀, hopen.of_sameFrame hsame.toSameFrame⟩
  have hlinked := hcol.linked ((hprune low high).2 ⟨hedge, hne⟩) (hsurvives hlow hlowPin)
    (hsurvives hhigh hhighPin) hopen₁ hlowPin hhighPin
  have hback : ¬ReflTransGen (fun a b => a ∈ (s₁.graph.boundsOf b).below) high low := by
    intro hflow
    rcases hclosed₁.mem_below_of_flow hflow with heq | hmem
    · exact hne heq.symm
    · exact hacyclic high low hmem hlinked.edge
  have hids₁ (x : VarId) (hx : x ∈ s₁.graph.ids) : x ∈ s.graph.ids :=
    hsame.ids ▸ ((hcol.mem_ids x).1 hx).1
  have horder₁ : Natural.Orders s₁.graph.ids := fun a ha b hb c hc =>
    horder a (hids₁ a ha) b (hids₁ b hb) c (hids₁ c hc)
  obtain ⟨h₂, -, hrest⟩ := freezeRounds_ok hu hle hne hback h₁ horder₁ hrounds
  obtain ⟨xs, hdetached, hend⟩ := freezeRounds_detached hcol.wellFormed hrounds
  have hgen := hdetached.generalized hclosed₁ hacyclic hend
  have hstate := (hrest (.inl ⟨hlinked, List.not_mem_nil⟩)).imp_left Linked.low_open
  exact coalesceRounds_handed hu h₂ hgen hstate hlow hhigh hcoalesce

end

/-- Among types that are no unions, being covered from above is transitive. -/
theorem chains_settled (hu : u.Legible) : Side.lower.Chains (Settled u) := by
  intro a b c ha hb hc hab hbc
  have hab : Under a b := (sub_iff_under ha.ne_container).1 hab
  have hbc : Under b c := (sub_iff_under hb.ne_container).1 hbc
  exact (sub_iff_under ha.ne_container).2
    (hab.trans hu ha.convertibleFree hb.convertibleFree hc.convertibleFree hbc)

theorem Graph.isSubtype_self {g : Graph} {t : Ty} : g.isSubtype t t :=
  g.lattice.isSubtype_of_name_eq g.resolver rfl

/-- What was handed on is a subtype. -/
theorem Graph.Handed.isSubtype (hu : u.Legible) {g : Graph} {low high : VarId} (h : g.Standing u)
    (hhanded : g.Handed u low high) :
    g.isSubtype (g.boundsOf low).resolved (g.boundsOf high).resolved := by
  have hcf := h.tidy.convertibleFree_resolved hu
  refine (isSubtype_iff hu (hcf low) (hcf high)).2 fun p hp => ?_
  obtain ⟨e, he, hpe⟩ := hhanded.entails p hp
  have hpart : p ∈ Side.lower.parts (g.boundsOf low).resolved := hp
  have hp : Settled u .lower p := (hcf low).settled hu.toSound hpart
  have hsub : Sub p e := hpe.covered (admits_settled hu) (chains_settled hu) hp
  have hlower : (g.boundsOf high).lower ≠ [] := by
    intro hnil
    rw [has, Bounds.side, hnil] at he
    cases he
  have he : e ∈ (g.boundsOf high).resolved.unionParts := h.tidy.unionParts_resolved hlower ▸ he
  obtain ⟨hecf, -, hunder⟩ := (hcf high).of_mem_unionParts hu.toSound he
  exact ((sub_iff_under hp.ne_container).1 hsub).trans hu hp.convertibleFree hecf (hcf high) hunder

/-! ## The result -/

/-- **An edge whose lower end comes first is solved.** Whatever calls with types without
convertibles were accepted, without implicit conversions, whatever parameters the graph is
generalised for and in whatever order its cycles are found: let `low` be below `high` and not after
it in the natural order, with no fixed reference to either of them. If both were fixed in the end,
then the type of `low` is a subtype of the type of `high`. -/
theorem resolved_subtype_of_generalize {decls : List TypeDecl} {u : Universe}
    (hu : Universe.ofDecls decls = .ok u)
    (hnames : ∀ name ∈ u.types.keys, IsIdentifier name ∧ name ≠ "nothing")
    (tag : Nat) {lattice : Lattice} (policy : Policy) (hq : lattice.Quiet) {calls : List Call}
    (hcalls : ∀ c ∈ calls, c.Builds (ConvertibleFree u))
    (hacc : Graph.accepts { tag, lattice, policy } calls) (search : Search) (params : List VarId)
    (hok : ((Graph.after { tag, lattice, policy } calls).generalize search.find params).fault =
      none) :
    let g := Graph.after { tag, lattice, policy } calls
    let g' := (g.generalize search.find params).graph
    Natural.Orders g.ids → ∀ low high, low ∈ (g.boundsOf high).below →
      (Natural.compare low high).isLE →
      g.isPinned low = false → g.isPinned high = false → g'.hasTypeVariable low →
      g'.hasTypeVariable high →
      g'.status low = .fixed → g'.status high = .fixed →
      g'.isSubtype (g'.boundsOf low).resolved (g'.boundsOf high).resolved := by
  intro g g' horder low high hedge hle hlowPin hhighPin hlow hhigh hlowFixed _
  have hlegible := Universe.legible_of_ofDecls hu hnames
  have hclosed : g.Closed :=
    (Graph.Closed.empty tag lattice policy).after (.empty tag lattice policy) calls
  obtain ⟨h, hopen⟩ :=
    (Graph.Standing.empty tag policy hq).after hlegible (fun _ => rfl) hcalls hacc
  obtain ⟨s, hrun, hgraph⟩ := Graph.generalize_accepted hok
  replace hgraph : g' = s.graph := hgraph
  rw [hgraph] at hlow hhigh hlowFixed ⊢
  by_cases hne : low = high
  · subst hne
    exact Graph.isSubtype_self
  · obtain ⟨h', hstate⟩ := generalizeAll_handed (s := { graph := g }) hlegible h hopen hclosed
      horder hle hne hedge hlowPin hhighPin (Graph.mem_ids.2 hlow) (Graph.mem_ids.2 hhigh) hrun
    rcases hstate with hstate | hstate
    · rw [Graph.status_eq_fixed, hstate] at hlowFixed
      cases hlowFixed
    · exact hstate.isSubtype hlegible h'

/-- An edge from `low` up to `high`, and a type below `high`. -/
def oneEdge (low high : VarId) : List Call :=
  [.addVariable "$x" (some { id := low }), .addVariable "$y" (some { id := high }),
    .addRef high (some { id := low }), .addLower high circle]

theorem resolved_subtype_of_generalize_oneEdge :
    let g' :=
      ((Graph.after { tag := 1 } (oneEdge "T1" "T2")).generalize Search.standard.find []).graph
    g'.status "T1" = .fixed ∧ g'.status "T2" = .fixed ∧
      g'.isSubtype (g'.boundsOf "T1").resolved (g'.boundsOf "T2").resolved := by
  have hcalls : ∀ c ∈ oneEdge "T1" "T2", c.Builds (ConvertibleFree shapes) := by
    simp [oneEdge, Call.Builds, plain_circle.convertibleFree]
  have hok :
      ((Graph.after { tag := 1 } (oneEdge "T1" "T2")).generalize Search.standard.find []).fault =
      none :=
    Option.isNone_iff_eq_none.1 (by decide +kernel)
  refine ⟨by decide +kernel, by decide +kernel, ?_⟩
  refine resolved_subtype_of_generalize ofDecls_shapes (by decide) 1 .plain .empty hcalls
    (by decide +kernel) .standard [] hok ?_ "T1" "T2" ?_ ?_ ?_ ?_ ?_ ?_ ?_ ?_ <;> decide +kernel

/-- **An edge whose upper end comes first need not be solved**: `T1` is fixed to what was added
below it before `T2`, which has nothing below it, is fixed to `mixed`. -/
theorem not_resolved_subtype_late :
    let g := Graph.after { tag := 1 } (oneEdge "T2" "T1")
    let g' := (g.generalize Search.standard.find []).graph
    Graph.accepts { tag := 1 } (oneEdge "T2" "T1") ∧
      (g.generalize Search.standard.find []).fault.isNone ∧
      "T2" ∈ (g.boundsOf "T1").below ∧ g'.status "T1" = .fixed ∧ g'.status "T2" = .fixed ∧
      g'.isSubtype (g'.boundsOf "T2").resolved (g'.boundsOf "T1").resolved = false := by
  decide +kernel

end TypeBounds
