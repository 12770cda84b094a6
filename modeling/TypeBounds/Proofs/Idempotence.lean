import TypeBounds.Proofs.Coherence
import TypeBounds.Proofs.Collapse
import TypeBounds.Proofs.Honesty
import TypeBounds.Proofs.Stock
import TypeBounds.Proofs.Verdicts

/-!
# Adding the same twice

A type that was added may be gone from the bound at once: another part of it took its place, or the
source of a conversion, or what a nested propagation brought. It is covered all the same, because
whatever takes the place of a member covers it, and among plain types being covered is transitive.
So the same call, made again, finds all parts absorbed where it starts and goes nowhere.

* `Graph.Covering`: all bounds are of plain types, and certain types are covered. No insertion puts
  an end to that (`handles_covering`);
* `spread_covering`: after a propagation all parts are covered where it started;
* `Graph.addBound_again`, `Graph.addRef_again`: the second call.
-/

namespace TypeBounds

open Infer

namespace Graph

variable {u : Universe} {g : Graph} {side side' : Side} {id x : VarId} {m t : Ty} {ms : List Ty}

theorem stocks_plainMember (hu : u.Sound) : Stocks u (PlainMember u) where
  sound := hu
  settled _ _ h := h.2
  declared side _ ht := ⟨hu.plain ht, .declared ht, hu.ne_container ht side⟩

/-- What is covered stays covered: what a new member takes the place of, it covers. -/
theorem Covers.inserted (hu : u.Legible) (h : g.Tidy (PlainMember u)) (hm : PlainMember u side m)
    (hid : id ∈ g.ids) (ht : PlainMember u side' t) (hcov : g.Covers side' x t) :
    (g.inserted side id m).Covers side' x t := by
  obtain ⟨e, he, hte⟩ := hcov
  by_cases hx : side' = side ∧ x = id
  · obtain ⟨rfl, rfl⟩ := hx
    have hins := h.mem_inserted (admits_plainMember hu) side' hm.1.convertibleFree hid
    by_cases hem : side'.Covered e m
    · refine ⟨m, (hins.mem m).2 (.inr rfl), ?_⟩
      exact chains_plainMember hu side' t e m ht (h.admissible side' x e he) hm hte hem
    · exact ⟨e, (hins.mem e).2 (.inl ⟨he, hem⟩), hte⟩
  · refine ⟨e, ?_, hte⟩
    rw [has_inserted_ne (not_and_or.1 hx)]
    exact he

/-- All members of bounds are plain, and the types `ms` are covered by one bound of one variable. -/
structure Covering (u : Universe) (side : Side) (id : VarId) (ms : List Ty) (g : Graph) :
    Prop extends
    Stocked u (PlainMember u) g where
  covers : ∀ m ∈ ms, g.Covers side id m

theorem Covering.inserted (hu : u.Legible) (hms : ∀ m ∈ ms, PlainMember u side m)
    (h : g.Covering u side id ms) (hm : PlainMember u side' m) (x : VarId) :
    (g.inserted side' x m).Covering u side id ms := by
  refine ⟨h.toStocked.inserted hm x, fun t ht => ?_⟩
  by_cases hx : x ∈ g.ids
  · exact (h.covers t ht).inserted hu h.tidy hm hx (hms t ht)
  · obtain ⟨e, he, hte⟩ := h.covers t ht
    refine ⟨e, ?_, hte⟩
    rw [has, boundsOf_inserted_of_not_mem hx]
    exact he

/-- **The insertions keep covered what is covered.** -/
theorem handles_covering (hu : u.Legible) (hms : ∀ m ∈ ms, PlainMember u side m) (id : VarId) :
    Handles (PartsOf (PlainMember u)) (Covering u side id ms) where
  conversion g h c hc _ := by
    have hdeclared := h.converts c hc
    have hstocks := stocks_plainMember hu.toSound
    exact ⟨hstocks.partsOf_declared hdeclared.1 .lower, hstocks.partsOf_declared hdeclared.2 .upper⟩
  insertLower t ht m hm _ x _ _ _ _ s' _ _ _ h' := by
    have hplain : PlainMember u .lower m := ht m hm
    rw [insertLower_eq_inserted (admits_plainMember hu) h'.tidy hplain.1.convertibleFree]
    exact h'.inserted hu hms hplain x
  insertUpper t ht m hm x _ _ _ _ _ s' g' _ _ _ hg' h' := by
    have hplain : PlainMember u .upper m := ht m hm
    rw [insertUpper_eq_inserted hu.toSound hplain.1.convertibleFree hg']
    exact h'.inserted hu hms hplain x

end Graph

/-! ## The parts of a type in the end -/

section

open TypeBounds.Graph

variable {u : Universe} {g : Graph} {side : Side} {id x y : VarId} {m t : Ty}
  {todo done : List Ty} {depth : Nat} {s s' : Progress}

/-- **One member** is covered after its turn. -/
theorem member_covers (hu : u.Legible) (h : s.graph.Stocked u (PlainMember u))
    (hid : id ∈ s.graph.ids) (hm : PlainMember u side m) {new : Bool}
    (hrun : member (spreadWithin depth) side id m s = (.ok new, s')) :
    s'.graph.Covers side id m := by
  have hP := admits_plainMember hu
  have hcf := hm.1.convertibleFree
  cases side with
  | lower =>
    rcases joinMember_ok hrun with ⟨habs, -, rfl⟩ | ⟨-, -, s₁, hcheck, hs'⟩
    · exact (h.tidy.absorbs_iff hP hcf).1 habs
    · -- the check may have narrowed upper bounds on the way, but the bounds are still plain
      have hhandles : Handles (PartsOf (PlainMember u)) (Covering u .lower id []) :=
        handles_covering hu (fun m hm => (List.not_mem_nil hm).elim) id
      have hcheckUpper := hhandles.checkUpper (hhandles.spreadWithin depth .upper) id m s
      have h₁ := hcheckUpper.of_eq hcheck ⟨h, fun m hm => (List.not_mem_nil hm).elim⟩
      have hshape : SameShape s.graph s₁.graph :=
        (along_checkUpper (sameShape_spreadWithin depth .upper) id m s).of_eq hcheck
      rw [hs', insertLower_eq_inserted hP h₁.tidy hcf]
      exact h₁.tidy.covers_inserted hP hm (hshape.ids ▸ hid)
  | upper =>
    rcases meetMember_ok hrun with ⟨habs, -, rfl⟩ | ⟨-, -, sources, s₁, g', hcheck, hg', hwiden⟩
    · exact (h.tidy.absorbs_iff hP hcf).1 habs
    · obtain ⟨hs₁, -, -⟩ := checkLower_passed hcheck
      rw [hs₁] at hg'
      have hinserted := insertUpper_eq_inserted hu.toSound hcf hg'
      -- what comes into lower bounds after that leaves it covered
      have hcovering : g'.Covering u .upper id [m] := by
        rw [hinserted]
        refine ⟨h.inserted hm id, fun p hp => ?_⟩
        rw [List.mem_singleton.1 hp]
        exact h.tidy.covers_inserted hP hm hid
      have hhandles : Handles (PartsOf (PlainMember u)) (Covering u .upper id [m]) :=
        handles_covering hu (fun p hp => List.mem_singleton.1 hp ▸ hm) id
      have hkeeps : Along (Keeps (Covering u .upper id [m]))
          (sources.forM fun source => noteConstraint source >>= fun _ =>
            spreadWithin depth .lower id source)
          { s₁ with graph := g' } := by
        refine Along.composes.forM (fun source hsource s => Along.note_bind fun s' _ => ?_) _
        obtain ⟨c, hc, -, rfl⟩ := mem_of_checkLower hcheck source hsource
        exact hhandles.spreadWithin depth .lower id _
          ((stocks_plainMember hu.toSound).partsOf_declared (h.converts c hc).1 .lower) s'
      exact (hkeeps.of_eq hwiden hcovering).covers m (List.mem_singleton_self m)

/-- **All members**, one after the other: what had its turn stays covered. -/
theorem anyNew_covering (hu : u.Legible) (ht : PartsOf (PlainMember u) side t)
    (hid : id ∈ s.graph.ids) (htodo : ∀ m ∈ todo, m ∈ side.parts t)
    (hdone : ∀ m ∈ done, m ∈ side.parts t) (h : s.graph.Covering u side id done) {new : Bool}
    (hrun : anyNew (member (spreadWithin depth) side id) todo s = (.ok new, s')) :
    s'.graph.Stocked u (PlainMember u) ∧ ∀ m, m ∈ todo ∨ m ∈ done → s'.graph.Covers side id m := by
  induction todo generalizing done s new with
  | nil =>
    obtain ⟨-, rfl⟩ := pure_eq_ok.1 hrun
    exact ⟨h.toStocked, fun m hm => h.covers m (hm.resolve_left List.not_mem_nil)⟩
  | cons m todo ih =>
    obtain ⟨_, s₁, hfirst, hrun⟩ := bind_eq_ok.1 hrun
    obtain ⟨_, s₂, hrest, hrun⟩ := bind_eq_ok.1 hrun
    obtain ⟨-, rfl⟩ := pure_eq_ok.1 hrun
    obtain ⟨hm, htodo⟩ := List.forall_mem_cons.1 htodo
    have hplain := ht m hm
    have hhandles : Handles (PartsOf (PlainMember u)) (Covering u side id done) :=
      handles_covering hu (fun p hp => ht p (hdone p hp)) id
    have hself : ¬s.graph.isSelf id m := by
      rw [hplain.1.convertibleFree.isSelf_eq hu.toSound]
      exact Bool.false_ne_true
    have hkept := (hhandles.member (hhandles.spreadWithin depth) ht hm h hself s).of_eq hfirst h
    have hcovers := member_covers hu h.toStocked hid hplain hfirst
    have h₁ : s₁.graph.Covering u side id (m :: done) :=
      ⟨hkept.toStocked, List.forall_mem_cons.2 ⟨hcovers, hkept.covers⟩⟩
    have hshape : SameShape s.graph s₁.graph :=
      (sameShape_member (sameShape_spreadWithin depth) side id m s).of_eq hfirst
    obtain ⟨hstocked, hall⟩ :=
      ih (hshape.ids ▸ hid) htodo (List.forall_mem_cons.2 ⟨hm, hdone⟩) h₁ hrest
    refine ⟨hstocked, fun p hp => hall p ?_⟩
    rw [List.mem_cons] at hp ⊢
    tauto

/-- **A whole propagation**: all parts of the type are covered where it started. -/
theorem spread_covering (hu : u.Legible) (h : s.graph.Stocked u (PlainMember u))
    (hid : id ∈ s.graph.ids) (ht : PartsOf (PlainMember u) side t)
    (hrun : spread side id t s = (.ok (), s')) : s'.graph.Covering u side id (side.parts t) := by
  obtain ⟨depth, hspread⟩ := exists_spread_eq side id t s
  rw [hspread, exploreM_start hid] at hrun
  obtain ⟨found, s₁, hvisit, hrun⟩ := bind_eq_ok.1 hrun
  obtain ⟨new, s₂, hnew, hs₁, -⟩ := visit_cases (admits_plainMember hu) ht hvisit
  have hstart : s.graph.Covering u side id [] := ⟨h, fun m hm => (List.not_mem_nil hm).elim⟩
  obtain ⟨hstocked, hall⟩ :=
    anyNew_covering hu ht hid (fun _ hm => hm) (fun m hm => (List.not_mem_nil hm).elim) hstart hnew
  have h₁ : s₁.graph.Covering u side id (side.parts t) := by
    rw [hs₁ hstocked.tidy]
    exact ⟨hstocked, fun m hm => hall m (.inl hm)⟩
  -- the rest of the search goes to other variables, and whatever it brings leaves the parts covered
  have hhandles := handles_covering hu ht id
  exact (Along.composes.exploreM (hhandles.visit (hhandles.spreadWithin depth) side ht) _ _ _
    s₁).of_eq hrun h₁

/-! ## The same again -/

theorem spread_eq_of_covering (hu : u.Legible) (hid : id ∈ s.graph.ids)
    (ht : PartsOf (PlainMember u) side t) (h : s.graph.Covering u side id (side.parts t)) :
    spread side id t s = (.ok (), s) := by
  refine spread_eq_of_absorbs hid fun m hm => ?_
  exact (h.tidy.absorbs_iff (admits_plainMember hu) (ht m hm).1.convertibleFree).2 (h.covers m hm)

/-- An edge that was added is there. -/
theorem mem_below_of_addEdge (hwf : s.graph.WellFormed) (hx : x ∈ s.graph.ids)
    (hy : y ∈ s.graph.ids) (hne : x ≠ y) (hrun : addEdge x y s = (.ok (), s')) :
    x ∈ (s'.graph.boundsOf y).below := by
  by_cases hknown : x ∈ (s.graph.boundsOf y).below
  · rw [addEdge_known hknown] at hrun
    cases hrun
    exact hknown
  · have hadded : x ∈ ((s.graph.linkAcross x y).boundsOf y).below :=
      ((hwf.linkAcross hx hy).2 x y).2 (.inr ⟨.inl rfl, .inl rfl, hne⟩)
    rw [addEdge_eq, graph_bind_apply, if_neg fun h => hknown (List.contains_iff_mem.1 h),
      modify_bind_apply] at hrun
    obtain ⟨_, s₁, hnote, hrun⟩ := bind_eq_ok.1 hrun
    cases hnote
    obtain ⟨_, s₂, hlower, hupper⟩ := bind_eq_ok.1 hrun
    rw [graph_bind_apply] at hupper
    have hfirst : SameShape (s.graph.linkAcross x y) s₂.graph :=
      (along_handOn sameShape_spread ..).of_eq hlower
    have hsecond : SameShape s₂.graph s'.graph := (along_handOn sameShape_spread ..).of_eq hupper
    rw [(trans_of SameShape hfirst hsecond).below]
    exact hadded

namespace Graph

/-- **A type**, once more. -/
theorem addBound_again (hu : u.Legible) (h : g.Stocked u (PlainMember u)) (ht : Plain u t)
    (hacc : (g.addBound side id t).fault = none) :
    (g.addBound side id t).graph.addBound side id t =
      { graph := (g.addBound side id t).graph } := by
  have hcf := ht.convertibleFree
  have hparts : PartsOf (PlainMember u) side t := fun _ hp => ht.member_of_mem_parts hu.toSound hp
  obtain ⟨hid, s, hspread, hgraph⟩ := addBound_accepted (hcf.isSelf_eq hu.toSound) hacc
  have hshape : SameShape g s.graph := (sameShape_spread side id t { graph := g }).of_eq hspread
  have hid' : id ∈ s.graph.ids := hshape.ids ▸ hid
  have hcovering : s.graph.Covering u side id (side.parts t) :=
    spread_covering (s := { graph := g }) hu h hid hparts hspread
  rw [hgraph, addBound_eq_run (hcf.isSelf_eq hu.toSound)
    (checkBound_iff.2 ⟨hid', requireOwned_eq_ok hu.toSound hcf⟩)]
  exact run_eq_of_idle (spread_eq_of_covering (s := { graph := s.graph }) hu hid' hparts hcovering)

variable {r : Reference}

/-- A mutable reference between registered variables: an edge, or a mark where the two are the
same. -/
theorem addRef_eq_of_mutable (hid : id ∈ g.ids) (hr : r.id ∈ g.ids) (hfixed : r.fixed = false) :
    g.addRef id (some r) = if r.id = id then
      if id ∈ (g.boundsOf id).below then { graph := g }
      else { graph := g.link id id, effect := { changed := true } }
    else g.run (.ref id r.id) (addEdge r.id id) := by
  obtain ⟨b, hb⟩ := Table.exists_get? hid
  obtain ⟨rb, hrb⟩ := Table.exists_get? hr
  unfold addRef
  simp only [require_eq_ok.2 hb, require_eq_ok.2 hrb, hfixed, boundsOf_eq hb, List.contains_iff_mem,
    Bool.false_eq_true, if_false]

/-- **A reference**, once more. -/
theorem addRef_again (hwf : g.WellFormed) (hfixed : r.fixed = false)
    (hacc : (g.addRef id (some r)).fault = none) :
    (g.addRef id (some r)).graph.addRef id (some r) =
      { graph := (g.addRef id (some r)).graph } := by
  obtain ⟨r', hr', hid, hr, -⟩ := addRef_accepted hacc
  cases hr'
  have hids : (g.addRef id (some r)).graph.ids = g.ids :=
    along_addRef (R := SameIds) sameIds_spread (fun _ => sameTypes_link.ids)
      (fun _ _ => sameTypes_linkAcross.ids) id _
  rw [addRef_eq_of_mutable (hids ▸ hid) (hids ▸ hr) hfixed]
  rw [addRef_eq_of_mutable hid hr hfixed] at hacc ⊢
  by_cases hself : r.id = id
  · simp only [if_pos hself]
    refine if_pos ?_
    split
    · assumption
    · exact (mem_below_link hid).2 (.inr ⟨rfl, rfl⟩)
  · simp only [if_neg hself] at hacc ⊢
    obtain ⟨s, hedge, hgraph⟩ := run_ok hacc
    have hmem := mem_below_of_addEdge (s := { graph := g }) hwf hr hid hself hedge
    rw [hgraph]
    exact run_eq_of_idle (addEdge_known (s := { graph := s.graph }) hmem)

end Graph

end

/-- **The same call again** is idle. -/
theorem Call.outcome_again {u : Universe} (hu : u.Legible) {g : Graph} (hwf : g.WellFormed)
    (h : g.Stocked u (PlainMember u)) {c : Call} (hadds : c.Adds) (hbuilds : c.Builds (Plain u))
    (hmutable : c.IsMutable) (hacc : (c.outcome g).fault = none) :
    c.outcome (c.outcome g).graph = { graph := (c.outcome g).graph } := by
  cases c with
  | addLower id t => exact Graph.addBound_again hu h hbuilds hacc
  | addUpper id t => exact Graph.addBound_again hu h hbuilds hacc
  | addRef id r =>
    obtain ⟨r, rfl, -⟩ := Graph.addRef_accepted hacc
    exact Graph.addRef_again hwf hmutable hacc
  | _ => exact hadds.elim

/-- **Adding is honest and idempotent.** Whatever the graph, a call that adds to bounds, succeeds
and reports no change has left the graph as it was. And take a graph that variables, plain types and
references were added to and whose variables were merged, successfully or not, with any conversions
between named types. If a plain type or a mutable reference is accepted there, adding it again at
once succeeds as well, reports neither a change nor a conversion nor a constraint, and leaves the
graph as it is. -/
theorem adding_honest_and_idempotent {decls : List TypeDecl} {u : Universe}
    (hu : Universe.ofDecls decls = .ok u)
    (hnames : ∀ name ∈ u.types.keys, IsIdentifier name ∧ name ≠ "nothing")
    {conversions : List ConversionDecl} {lattice : Lattice}
    (hl : u.lattice conversions = .ok lattice) :
    (∀ (g : Graph) (c : Call), c.Adds → (c.outcome g).fault = none →
      (c.outcome g).effect.changed = false →
      (c.outcome g).graph = g) ∧
    ∀ (tag : Nat) (policy : Policy) (calls : List Call), (∀ c ∈ calls, c.BuildsOrMerges (Plain u)) →
      ∀ c : Call, c.Adds → c.Builds (Plain u) → c.IsMutable →
        let first := c.outcome (Graph.after { tag, lattice, policy } calls)
        let again := c.outcome first.graph
        first.fault = none → again.fault = none ∧ again.effect.changed = false ∧
        again.effect.conversion = none ∧
          again.effect.constraints = [] ∧ again.graph = first.graph := by
  have hlegible := Universe.legible_of_ofDecls hu hnames
  refine ⟨fun g c hc => c.honest_outcome hc g, ?_⟩
  intro tag policy calls hcalls c hadds hbuilds hmutable first again hacc
  have hwf : (Graph.after { tag, lattice, policy } calls).WellFormed :=
    (Graph.WellFormed.empty tag lattice policy).after calls
  have hstocked : (Graph.after { tag, lattice, policy } calls).Stocked u (PlainMember u) :=
    (Graph.upholds_stocked (Graph.stocks_plainMember hlegible.toSound)).after
      (.empty tag policy (hlegible.toSound.converts hl))
      (fun _ ht _ _ hp => ht.member_of_mem_parts hlegible.toSound hp) hcalls
  have hagain : again = { graph := first.graph } :=
    Call.outcome_again hlegible hwf hstocked hadds hbuilds hmutable hacc
  rw [hagain]
  exact ⟨rfl, rfl, rfl, rfl, rfl⟩

/-- A number gets to a variable by a merge, and another number to no variable at all. -/
def mergedNumber : List Call :=
  [.addVariable "$x" (some { id := "T1" }), .addVariable "$y" (some { id := "T2" }),
    .addLower "T1" number, .addLower "T3" number, .merge "T1" "T2"]

/-- That the variable be printable takes a conversion and restricts its lower bound, but only for
the first time. -/
theorem adding_honest_and_idempotent_mergedNumber :
    let first :=
      (Graph.after { tag := 1, lattice := facetLattice } mergedNumber).addUpper "T2" printable
    let again := first.graph.addUpper "T2" printable
    first.fault = none ∧ first.effect.changed ∧ first.effect.conversion.isSome ∧
      first.effect.constraints ≠ [] ∧
      again.fault = none ∧ again.effect.changed = false ∧ again.effect.conversion = none ∧
      again.effect.constraints = [] ∧ again.graph = first.graph := by
  intro first again
  have hu : Universe.ofDecls facetDecls = .ok facets := rfl
  have hsound := Universe.sound_of_ofDecls hu
  have hnumber : Plain facets number := hsound.plain rfl
  have hprintable : Plain facets printable := hsound.plain rfl
  have hcalls : ∀ c ∈ mergedNumber, c.BuildsOrMerges (Plain facets) := by
    simp [mergedNumber, Call.BuildsOrMerges, Call.Builds, hnumber]
  have hl : facets.lattice toPrintable = .ok facetLattice := rfl
  have hadding := adding_honest_and_idempotent hu (by decide) hl
  have haccepted : first.fault = none := Option.isNone_iff_eq_none.1 (by decide +kernel)
  have hagain :=
    hadding.2 1 .plain mergedNumber hcalls (.addUpper "T2" printable) trivial hprintable
      trivial haccepted
  exact ⟨haccepted, by decide +kernel, by decide +kernel, by decide +kernel, hagain⟩

/-! ## Where a class is named like an intersection -/

def bothOrP : Ty := Ty.unionOf [Ty.interOf [ifaceA, ifaceB], ifaceP]

theorem plain_bothOrP : Plain namesakes bothOrP := by
  have haccepted : Universe.ofDecls namesakeDecls = .ok namesakes := rfl
  have hu : namesakes.Sound := Universe.sound_of_ofDecls haccepted
  have hinter : Plain namesakes bothAB := hu.plain_interOf rfl rfl (by decide)
  refine .union (by decide) (by decide) ?_
  rintro m (_ | ⟨_, _ | ⟨_, ⟨⟩⟩⟩)
  · exact hinter
  · exact hu.plain rfl

/-- **Names have to tell types apart.** The intersection counts as covered by the interface of that
name. Then the interface gives way to its parent, and when the call is repeated the intersection is
new. -/
theorem not_idempotent_namesake :
    let g :=
      Graph.after { tag := 1 } [.addVariable "$t" (some { id := "T" }), .addLower "T" namesake]
    let first := g.addLower "T" bothOrP
    let again := first.graph.addLower "T" bothOrP
    Universe.ofDecls namesakeDecls = .ok namesakes ∧ Plain namesakes namesake ∧
      Plain namesakes bothOrP ∧
      first.fault = none ∧ again.fault = none ∧ again.effect.changed = true := by
  have haccepted : Universe.ofDecls namesakeDecls = .ok namesakes := rfl
  refine ⟨haccepted, (Universe.sound_of_ofDecls haccepted).plain rfl, plain_bothOrP, ?_,
    ?_, by decide +kernel⟩
  · exact Option.isNone_iff_eq_none.1 (by decide +kernel)
  · exact Option.isNone_iff_eq_none.1 (by decide +kernel)

end TypeBounds
