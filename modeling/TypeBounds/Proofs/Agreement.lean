import TypeBounds.Proofs.Consistency
import TypeBounds.Proofs.Weighing

/-!
# Propagation of steady bounds

Where the calls are steady, nothing that was accepted has to be given up later, and nothing is
refused that would fit in the end:

* `Graph.Fitted`: all that a graph holds fits together. Whatever succeeds keeps that: a member
  (`member_fitted`), a visit (`visit_fitted`), a propagation (`spread_fitted`) and a new edge
  (`addEdge_fitted`);
* `Consistent`: all that is given fits together. Then a visit, a propagation and a new edge succeed
  (`Consistent.visit_runs`, `Consistent.spread_runs`, `Consistent.addEdge_runs`).
-/

namespace TypeBounds

open Infer Relation TypeBounds.Graph

section

variable {u : Universe} {l : Lattice} {tag : Nat} {calls : List Call} {g g' : Graph} {side : Side}
  {id x y : VarId} {e m p q t : Ty} {s s' : Progress} {nested : Side → VarId → Ty → Infer Unit}
  {V V' : String → Ty → Prop}

/-! ## What fits together -/

/-- The type is a convertible to the variable. -/
def Ty.PointsTo (t : Ty) (var : VarId) : Prop := ∃ cell owner, t = .asVar cell owner var

theorem standsFor_congr (hV : ∀ var, p.PointsTo var → V var = V' var) :
    StandsFor V p = StandsFor V' p := by
  cases p with
  | asVar cell owner var => exact hV var ⟨cell, owner, rfl⟩
  | _ => rfl

theorem Lattice.fits_congr (hV : ∀ var, p.PointsTo var ∨ q.PointsTo var → V var = V' var) :
    l.Fits V p q ↔ l.Fits V' p q := by
  rw [Lattice.Fits, Lattice.Fits, standsFor_congr fun var hp => hV var (.inl hp),
    standsFor_congr fun var hq => hV var (.inr hq)]

/-- **All that is there fits together**: lower members under upper ones, and upper members beside
each other. Members that point at an excused variable are still to be looked at. -/
structure Graph.Fitted (l : Lattice) (tag : Nat) (calls : List Call)
    (excused : VarId → Prop) (g : Graph) : Prop extends Within l tag calls g where
  fits : ∀ x, ∀ p ∈ g.has .lower x, ∀ q ∈ g.has .upper x,
    (∀ var, p.PointsTo var ∨ q.PointsTo var → ¬excused var) → l.Fits g.Settles p q
  apart : ∀ x, ∀ q ∈ g.has .upper x, ∀ q' ∈ g.has .upper x, clashes q q' → q = q'

section

variable (hs : Regular u l tag calls)

include hs

namespace Graph.Fitted

variable {excused excused' : VarId → Prop}

omit hs in
theorem mono (hex : ∀ var, excused var → excused' var) (h : g.Fitted l tag calls excused) :
    g.Fitted l tag calls excused' :=
  ⟨h.toWithin, fun x p hp q hq hoff => h.fits x p hp q hq fun var hvar hex' => hoff var hvar
    (hex var hex'), h.apart⟩

/-- **An insertion** where all agree: what does not point at the variable still fits. -/
theorem inserted (h : g.Fitted l tag calls (· = id)) (hid : id ∈ g.ids)
    (hm : Given calls side id m) (hagrees : g.Agrees l side id m) :
    (g.inserted side id m.copy).Fitted l tag calls (· = id) := by
  have hu := hs.legible.toSound
  have hmem := (h.inserts hs hid hm).mem
  refine ⟨h.toWithin.inserted hs hid hm, fun x p hp q hq hoff => ?_, fun x q hq q' hq' hclash => ?_⟩
  · have hsettles : ∀ var, p.PointsTo var ∨ q.PointsTo var →
        (g.inserted side id m.copy).Settles var = g.Settles var := by
      intro var hvar
      funext e
      simp only [Settles, has_inserted_ne (.inr (hoff var hvar))]
    rw [Lattice.fits_congr hsettles]
    by_cases hx : x = id
    · subst hx
      cases side with
      | lower =>
        rw [has_inserted_ne (.inl fun h => by cases h)] at hq
        rcases (hmem p).1 hp with ⟨hp, -⟩ | rfl
        · exact h.fits x p hp q hq hoff
        · exact (hs.fits_copy_left hu hm).2 (hagrees q hq)
      | upper =>
        rw [has_inserted_ne (.inl fun h => by cases h)] at hp
        rcases (hmem q).1 hq with ⟨hq, -⟩ | rfl
        · exact h.fits x p hp q hq hoff
        · exact (hs.fits_copy_right hu hm).2 (hagrees.1 p hp)
    · rw [has_inserted_ne (.inr hx)] at hp hq
      exact h.fits x p hp q hq hoff
  · by_cases hx : Side.upper = side ∧ x = id
    · obtain ⟨rfl, rfl⟩ := hx
      -- what clashes with the new member is above it, and it has gone
      have hgone {e : Ty} (he : e ∈ g.has .upper x) (hcov : ¬Side.upper.Covered e m.copy)
          (hclash : clashes e m.copy) : False := by
        rw [hs.clashes_copy hu hm] at hclash
        exact hcov
          ((hs.covered_copy_iff hu hm (h.given .upper x e he).1).1.2 (hagrees.2 e he hclash))
      rcases (hmem q).1 hq with ⟨hq, hcov⟩ | rfl
      · rcases (hmem q').1 hq' with ⟨hq', -⟩ | rfl
        · exact h.apart x q hq q' hq' hclash
        · exact (hgone hq hcov hclash).elim
      · rcases (hmem q').1 hq' with ⟨hq', hcov⟩ | rfl
        · rw [clashes_comm] at hclash
          exact (hgone hq' hcov hclash).elim
        · rfl
    · rw [has_inserted_ne (not_and_or.1 hx)] at hq hq'
      exact h.apart x q hq q' hq' hclash

/-- What points at a variable is found by the second look. -/
theorem dependsOn (h : g.Within l tag calls) (he : e ∈ g.has side x)
    (hpoints : e.PointsTo id) : g.DependsOn x id := by
  obtain ⟨cell, owner, rfl⟩ := hpoints
  have howns : g.isSelf id (.asVar cell owner id) := by
    rcases hs.plain_or_asVar (h.given side x _ he).1 with hplain | ⟨cell', var', -, hvar⟩
    · exact absurd hplain.convertibleFree (not_convertibleFree_asVar hs.legible.toSound)
    · obtain ⟨-, rfl, -⟩ := Ty.asVar.inj hvar
      rw [Graph.isSelf, Graph.owns, h.tag]
      simp [hs.tag_ne]
  have hpoint : g.pointsAt ((g.boundsOf x).side side) id := by
    obtain ⟨m, hm, hmem⟩ := Members.mem_types.1 he
    refine List.any_eq_true.2 ⟨_, mem_subtermsAll.2 ⟨m, hm, ?_⟩, howns⟩
    rw [hmem]
    exact mem_subterms_self _
  cases side with
  | lower => exact .inl hpoint
  | upper => exact .inr hpoint

/-- After the second look nothing is excused any more. -/
theorem of_recheck (h : g.Fitted l tag calls (· = id))
    (hdep : ∀ x ∈ g.ids, g.DependsOn x id → g.FitsAt l x) :
    g.Fitted l tag calls fun _ => False := by
  refine ⟨h.toWithin, fun x p hp q hq _ => ?_, h.apart⟩
  by_cases hpoints : p.PointsTo id ∨ q.PointsTo id
  · have hx : x ∈ g.ids := by
      by_contra hx
      rw [has, boundsOf_of_not_mem hx] at hp
      exact List.not_mem_nil hp
    refine hdep x hx ?_ p hp q hq
    rcases hpoints with hpoints | hpoints
    · exact dependsOn hs h.toWithin hp hpoints
    · exact dependsOn hs h.toWithin hq hpoints
  · refine h.fits x p hp q hq ?_
    rintro var hvar rfl
    exact hpoints hvar

end Graph.Fitted

/-! ## Visits and propagation -/

/-- **One member** that is taken in keeps what does not point at the variable fitting together. -/
theorem member_fitted (h : s.graph.Fitted l tag calls (· = id))
    (hid : id ∈ s.graph.ids) (hm : Given calls side id m) {ms : List Ty}
    (hms : m.copy ∈ ms) {new : Bool} (hrun : member nested side id m s = (.ok new, s')) :
    s'.graph.Fitted l tag calls (· = id) ∧ Entered (Part u tag) side ms id s.graph s'.graph ∧
      s'.graph.Entails (Part u tag) side id m.copy ∧ (new = false → s'.graph = s.graph) := by
  have hu := hs.legible.toSound
  have htidy := h.tidy hs
  have hpart := hs.part hu (hs.given_copy hu hm) (hs.copy_copy hu hm)
  rcases member_inv hs h.toWithin hm hrun with ⟨hcov, -, hs'⟩ | ⟨hcov, rfl, hagrees, hs'⟩
  · rw [hs']
    exact ⟨h, .refl htidy, .of_covers htidy hpart hcov, fun _ => rfl⟩
  · have hins := h.inserts hs hid hm
    rw [hs']
    exact ⟨h.inserted hs hid hm hagrees, hins.entered htidy hpart hcov hms, hins.entails,
      fun hn => by cases hn⟩

/-- **A visit** keeps all that is there fitting together. -/
theorem visit_fitted (h : s.graph.Fitted l tag calls fun _ => False)
    (hid : id ∈ s.graph.ids) (hgiven : ∀ p ∈ side.parts t, Given calls side id p)
    {found : List VarId} (hvisit : visit nested side t id s = (.ok found, s')) :
    (s'.graph.Fitted l tag calls fun _ => False) ∧
      Visited (Part u tag) side ((side.parts t).map Ty.copy) id found s.graph s'.graph := by
  have hu := hs.legible.toSound
  obtain ⟨new, s₁, hnew, hrest⟩ :=
    visit_inv (fun p hp => hs.isSelf_eq hu (hgiven p hp) s.graph) hvisit
  obtain ⟨hfitted, hent, hcov, heq⟩ : s₁.graph.Fitted l tag calls (· = id) ∧
      Entered (Part u tag) side ((side.parts t).map Ty.copy) id s.graph s₁.graph ∧
      (∀ m ∈ side.parts t, s₁.graph.Entails (Part u tag) side id m.copy) ∧
      (new = false → s₁.graph = s.graph) := by
    -- until the second look, members that point at the variable are excused
    refine entered_of_anyNew Ty.copy (J := (·.Fitted l tag calls (· = id))) (h.tidy hs)
      (h.mono fun _ => False.elim) (fun m hm s₂ s₃ new hshape _ hfitted hmember => ?_) hnew
    exact member_fitted hs hfitted (hshape.ids ▸ hid) (hgiven m hm) (List.mem_map_of_mem hm) hmember
  have habsorbed : ∀ m ∈ (side.parts t).map Ty.copy, s₁.graph.Entails (Part u tag) side id m := by
    intro m hm
    obtain ⟨p, hp, rfl⟩ := List.mem_map.1 hm
    exact hcov p hp
  rcases hrest with ⟨rfl, rfl, rfl⟩ | ⟨-, rfl, s₂, hs₂, hrecheck⟩
  · exact ⟨heq rfl ▸ h, hent, habsorbed, .inr ⟨rfl, heq rfl⟩⟩
  · rw [← hs₂] at hfitted hent habsorbed
    obtain ⟨rfl, hdep⟩ := (recheck_iff hs hfitted.toWithin).1 hrecheck
    exact ⟨hfitted.of_recheck hs hdep, hent, habsorbed, .inl rfl⟩

/-- **A propagation** keeps all that is there fitting together, if what it carries is given wherever
it gets to. -/
theorem spread_fitted (h : s.graph.Fitted l tag calls fun _ => False)
    (hwf : s.graph.WellFormed) (hid : id ∈ s.graph.ids)
    (hgiven : ∀ x, ReflTransGen (fun x y => y ∈ s.graph.onward side x) id x →
      ∀ p ∈ side.parts t, Given calls side x p)
    (hrun : spread side id t s = (.ok (), s')) :
    (s'.graph.Fitted l tag calls fun _ => False) ∧
      Arrived (Part u tag) side ((side.parts t).map Ty.copy) id s.graph s'.graph := by
  obtain ⟨depth, hspread⟩ := exists_spread_eq side id t s
  rw [hspread] at hrun
  refine arrived_of_exploreM (J := (·.Fitted l tag calls fun _ => False))
    (h.tidy hs) hwf hid ?_ h hrun
  intro x found s₁ s₂ hx hxid hshape hfitted hvisit
  exact visit_fitted hs hfitted (hshape.ids ▸ hxid) (hgiven x hx) hvisit

end

/-! ## What goes through -/

/-- A search comes to its end if its visits do, wherever they are. -/
theorem exploreM_runs {visit : VarId → Infer (List VarId)} {J : Graph → Prop} {R : VarId → Prop}
    (hvisit : ∀ n s, R n → n ∈ g.ids → J s.graph → ∃ found s', visit n s = (.ok found, s') ∧
      J s'.graph ∧ ∀ y ∈ found, R y) {count : Nat} {unvisited stack : List VarId}
    (hunvisited : ∀ n ∈ unvisited, n ∈ g.ids) (hstack : ∀ n ∈ stack, R n) (hJ : J s.graph) :
    ∃ s', exploreM visit count unvisited stack s = (.ok (), s') := by
  have hends : Ends (exploreM visit count unvisited stack) s (fun _ s' => J s'.graph)
      fun _ _ => False := by
    refine exploreM_ends (fun n s hR hn hJ => ?_) hunvisited hstack hJ
    obtain ⟨found, s', hrun, hJ', hfound⟩ := hvisit n s hR hn hJ
    refine ⟨fun found' s₁ h => ?_, fun e s₁ h => ?_⟩
    · cases hrun.symm.trans h
      exact ⟨hJ', hfound⟩
    · cases hrun.symm.trans h
  obtain ⟨_, s', hrun⟩ := hends.exists_ok
  exact ⟨s', hrun⟩

/-- **What is given is consistent**: at every variable, all that is given below fits under all that
is given above, and types above that clash are in order. -/
structure Consistent (l : Lattice) (calls : List Call) : Prop where
  fits : ∀ x p q, Given calls .lower x p → Given calls .upper x q → l.Fits (GivenPlain calls) p q
  apart : ∀ x q q', Given calls .upper x q → Given calls .upper x q' → Compatible q q'

namespace Consistent

/-- Whatever a graph holds by then fits together. -/
theorem fitsAt (hc : Consistent l calls) (h : g.Within l tag calls) (hp : Given calls .lower x p)
    (hq : Given calls .upper x q) : l.Fits g.Settles p q :=
  (hc.fits x p q hp hq).anti fun _ _ => h.givenPlain

variable (hs : Regular u l tag calls) (hc : Consistent l calls)

include hs hc

/-- What is not covered is agreed with. -/
theorem agrees (h : g.Within l tag calls)
    (hm : Given calls side id m) (hcov : ¬g.Covers side id m.copy) : g.Agrees l side id m := by
  have hu := hs.legible.toSound
  cases side with
  | lower => exact fun q hq => hc.fitsAt h hm (h.given .upper id q hq).1
  | upper =>
    refine ⟨fun p hp => hc.fitsAt h (h.given .lower id p hp).1 hm, fun e he hclash => ?_⟩
    have hgiven := (h.given .upper id e he).1
    refine (hc.apart id e m hgiven hm hclash).resolve_left fun hsub => hcov ⟨e, he, ?_⟩
    exact (hs.covered_copy_iff hu hm hgiven).2.2 hsub

theorem anyNew_runs (nested : Side → VarId → Ty → Infer Unit) (h : s.graph.Within l tag calls)
    (hid : id ∈ s.graph.ids) {todo : List Ty} (htodo : ∀ m ∈ todo, Given calls side id m) :
    ∃ new s', anyNew (member nested side id) todo s = (.ok new, s') ∧ s'.graph.Within l tag calls ∧
      SameShape s.graph s'.graph := by
  induction todo generalizing s with
  | nil => exact ⟨false, s, rfl, h, refl_of SameShape s.graph⟩
  | cons m todo ih =>
    have hm := htodo m (List.mem_cons_self ..)
    obtain ⟨new, s₁, hmember⟩ := member_runs hs nested h hm (hc.agrees hs h hm)
    have hfirst : s₁.graph.Within l tag calls ∧ SameShape s.graph s₁.graph := by
      rcases member_inv hs h hm hmember with ⟨-, -, hs₁⟩ | ⟨-, -, -, hs₁⟩
      · rw [hs₁]
        exact ⟨h, refl_of SameShape s.graph⟩
      · rw [hs₁]
        exact ⟨h.inserted hs hid hm, sameShape_inserted⟩
    obtain ⟨hwithin, hshape⟩ := hfirst
    obtain ⟨newer, s₂, hrest, hwithin', hshape'⟩ :=
      ih hwithin (hshape.ids ▸ hid) fun m hm => htodo m (List.mem_cons_of_mem _ hm)
    refine ⟨new || newer, s₂, ?_, hwithin', trans_of SameShape hshape hshape'⟩
    exact bind_eq_ok.2 ⟨new, s₁, hmember, bind_eq_ok.2 ⟨newer, s₂, hrest, rfl⟩⟩

/-- **A visit** comes to its end. -/
theorem visit_runs (nested : Side → VarId → Ty → Infer Unit) (h : s.graph.Within l tag calls)
    (hid : id ∈ s.graph.ids) (hgiven : ∀ p ∈ side.parts t, Given calls side id p) :
    ∃ found s', visit nested side t id s = (.ok found, s') ∧ s'.graph.Within l tag calls ∧
      SameShape s.graph s'.graph ∧ ∀ y ∈ found, y ∈ s.graph.onward side id := by
  have hparts : (side.parts t).filter (!s.graph.isSelf id ·) = side.parts t := by
    refine List.filter_eq_self.2 fun m hm => ?_
    rw [hs.isSelf_eq hs.legible.toSound (hgiven m hm) s.graph]
    rfl
  obtain ⟨new, s₁, hnew, hwithin, hshape⟩ := hc.anyNew_runs hs nested h hid hgiven
  have henter : enter nested side t id s = (.ok new, s₁) := by
    rw [enter_eq, graph_bind_apply, hparts]
    exact hnew
  rw [visit_eq]
  cases new with
  | false =>
    exact ⟨[], s₁, bind_eq_ok.2 ⟨false, s₁, henter, rfl⟩, hwithin, hshape,
      fun y hy => (List.not_mem_nil hy).elim⟩
  | true =>
    set s₂ : Progress := { s₁ with effect := { s₁.effect with changed := true } }
    have hrecheck : recheck id s₂ = (.ok (), s₂) := by
      refine (recheck_iff (s := s₂) hs hwithin).2 ⟨rfl, fun x _ _ p hp q hq => ?_⟩
      exact hc.fitsAt hwithin (hwithin.given .lower x p hp).1 (hwithin.given .upper x q hq).1
    refine ⟨s₁.graph.onward side id, s₂, ?_, hwithin, hshape, fun y hy => ?_⟩
    · exact bind_eq_ok.2 ⟨true, s₁, henter,
        bind_eq_ok.2 ⟨(), s₂, rfl, bind_eq_ok.2 ⟨(), s₂, hrecheck, rfl⟩⟩⟩
    · rw [onward_eq_of_sameShape hshape] at hy
      exact hy

/-- **A propagation** comes to its end. -/
theorem spread_runs (h : s.graph.Within l tag calls)
    (hgiven : ∀ x, ReflTransGen (fun x y => y ∈ s.graph.onward side x) id x →
      ∀ p ∈ side.parts t, Given calls side x p) :
    ∃ s', spread side id t s = (.ok (), s') := by
  obtain ⟨depth, hspread⟩ := exists_spread_eq side id t s
  rw [hspread]
  refine exploreM_runs (g := s.graph) (J := fun g => g.Within l tag calls ∧ SameShape s.graph g)
    (R := ReflTransGen (fun x y => y ∈ s.graph.onward side x) id) ?_ (fun _ hn => hn)
    (fun n hn => ?_)
    ⟨h, refl_of SameShape s.graph⟩
  · rintro n s₁ hn hids ⟨hwithin, hshape⟩
    obtain ⟨found, s₂, hrun, hwithin', hshape', hfound⟩ :=
      hc.visit_runs hs (spreadWithin depth) hwithin (hshape.ids ▸ hids) (hgiven n hn)
    refine ⟨found, s₂, hrun, ⟨hwithin', trans_of SameShape hshape hshape'⟩, fun y hy => hn.tail ?_⟩
    rw [← onward_eq_of_sameShape hshape]
    exact hfound y hy
  · rw [List.mem_singleton.1 hn]

end Consistent

/-! ## Whole bounds and edges -/

namespace Graph.Within

theorem map_copy_has (h : g.Within l tag calls) (side : Side) (x : VarId) :
    (g.has side x).map Ty.copy = g.has side x := by
  refine (List.map_congr_left fun e he => ?_).trans (List.map_id _)
  exact (h.given side x e he).2

/-- A bound is handed on as it is. -/
theorem copy_container (h : g.Within l tag calls) (side : Side) (x : VarId) :
    (side.container ((g.boundsOf x).side side)).copy =
      side.container ((g.boundsOf x).side side) := by
  have hmap : ((g.boundsOf x).side side).map (fun m => m.2.copy) = (g.has side x).map Ty.copy := by
    rw [has, Members.types, List.map_map]
    rfl
  refine (Ty.mapConvertibles_container Ty.detach).trans (congrArg side.container ?_)
  refine (congrArg Members.ofTypes hmap).trans ?_
  rw [h.map_copy_has]
  exact (h.keyed side x).ofTypes_types

end Graph.Within

namespace Graph

theorem Within.of_sameTypes (h : g.Within l tag calls) (hsame : SameTypes g g') :
    g'.Within l tag calls where
  lattice := hsame.lattice.trans h.lattice
  tag := hsame.tag.trans h.tag
  keyed side x := side_boundsOf_of_sameTypes hsame side x ▸ h.keyed side x
  given side x := has_of_sameTypes hsame side x ▸ h.given side x

theorem Fitted.of_sameTypes {excused : VarId → Prop} (h : g.Fitted l tag calls excused)
    (hsame : SameTypes g g') : g'.Fitted l tag calls excused := by
  have hsettles : g'.Settles = g.Settles := by
    funext x e
    simp only [Settles, has_of_sameTypes hsame]
  refine ⟨h.toWithin.of_sameTypes hsame, ?_, ?_⟩
  · simp only [has_of_sameTypes hsame, hsettles]
    exact h.fits
  · simp only [has_of_sameTypes hsame]
    exact h.apart

end Graph

variable {a b : VarId}

/-- What is given to the lower end of an edge is given wherever the edge leads. -/
theorem given_of_linkAcross (hab : AddsEdge calls a b)
    (hstep : ∀ side x y, y ∈ (g.linkAcross a b).onward side x → side.Leads (AddsEdge calls) x y)
    (hshape : SameShape (g.linkAcross a b) g') : ∀ y,
      (ReflTransGen (fun x y => y ∈ g'.onward .lower x) b y → Given calls .lower a m →
        Given calls .lower y m) ∧
      (ReflTransGen (fun x y => y ∈ g'.onward .upper x) a y → Given calls .upper b m →
        Given calls .upper y m) := by
  intro y
  have hleads {side : Side} {x : VarId} (hxy : ReflTransGen (fun x y => y ∈ g'.onward side x) x y) :
      side.Leads (AddsEdge calls) x y := by
    refine leads_of_reflTransGen (fun x y hxy => hstep side x y ?_) hxy
    rw [← onward_eq_of_sameShape hshape]
    exact hxy
  have hup : Side.lower.Leads (AddsEdge calls) a b := ReflTransGen.single hab
  have hdown : Side.upper.Leads (AddsEdge calls) b a := ReflTransGen.single hab
  exact ⟨fun hby hm => hm.of_leads (hup.trans (hleads hby)),
    fun hay hm => hm.of_leads (hdown.trans (hleads hay))⟩

variable (hs : Regular u l tag calls)

include hs

theorem Graph.Within.parts_container (h : g.Within l tag calls) (side : Side) (x : VarId) :
    side.parts (side.container ((g.boundsOf x).side side)) = g.has side x :=
  Side.parts_container fun e he => hs.ne_container hs.legible.toSound (h.given side x e he).1

theorem handOn_fitted (side : Side) (h : s.graph.Fitted l tag calls fun _ => False)
    (hwf : s.graph.WellFormed) (hid : id ∈ s.graph.ids) (hg : g.Within l tag calls)
    (hgiven : ∀ y, ReflTransGen (fun x y => y ∈ s.graph.onward side x) id y →
      ∀ p ∈ g.has side x, Given calls side y p)
    (hrun : handOn side id ((g.boundsOf x).side side) s = (.ok (), s')) :
    (s'.graph.Fitted l tag calls fun _ => False) ∧
      Arrived (Part u tag) side (g.has side x) id s.graph s'.graph := by
  rw [handOn, hg.copy_container] at hrun
  split at hrun
  · rename_i hempty
    obtain ⟨-, rfl⟩ := pure_eq_ok.1 hrun
    refine ⟨h, .refl (h.tidy hs), fun m hm => ?_, fun _ _ => rfl, fun _ _ hE => hE⟩
    rw [has, List.isEmpty_iff.1 hempty] at hm
    exact (List.not_mem_nil hm).elim
  · have hparts := hg.parts_container hs side x
    have hspread := spread_fitted hs h hwf hid (hparts ▸ hgiven) hrun
    rw [hparts, hg.map_copy_has] at hspread
    exact hspread

theorem Consistent.handOn_runs (side : Side) (hc : Consistent l calls)
    (h : s.graph.Within l tag calls) (hg : g.Within l tag calls)
    (hgiven : ∀ y, ReflTransGen (fun x y => y ∈ s.graph.onward side x) id y →
      ∀ p ∈ g.has side x, Given calls side y p) :
    ∃ s', handOn side id ((g.boundsOf x).side side) s = (.ok (), s') := by
  rw [handOn, hg.copy_container]
  split
  · exact ⟨s, rfl⟩
  · exact hc.spread_runs hs h (hg.parts_container hs side x ▸ hgiven)

/-- **A new edge** keeps all that is there fitting together. -/
theorem addEdge_fitted (h : s.graph.Fitted l tag calls fun _ => False)
    (hwf : s.graph.WellFormed) (ha : a ∈ s.graph.ids) (hb : b ∈ s.graph.ids)
    (hab : AddsEdge calls a b)
    (hstep : ∀ side x y, y ∈ (s.graph.linkAcross a b).onward side x →
      side.Leads (AddsEdge calls) x y) (hrun : addEdge a b s = (.ok (), s')) :
    (s'.graph.Fitted l tag calls fun _ => False) ∧
      (a ∈ (s.graph.boundsOf b).below ∧ s'.graph = s.graph ∨
      a ∉ (s.graph.boundsOf b).below ∧ ∃ g₁,
        Arrived (Part u tag) .lower (s.graph.has .lower a) b (s.graph.linkAcross a b) g₁ ∧
        Arrived (Part u tag) .upper (g₁.has .upper b) a g₁ s'.graph) := by
  rcases addEdge_cases hrun with ⟨hedge, rfl⟩ | ⟨hedge, s₁, s₂, hs₁, hlower, hupper⟩
  · exact ⟨h, .inl ⟨hedge, rfl⟩⟩
  · have hsame : SameTypes s.graph s₁.graph := hs₁ ▸ sameTypes_linkAcross
    have hwf₁ : s₁.graph.WellFormed := hs₁ ▸ (hwf.linkAcross ha hb).1
    have hgiven (g' : Graph) (hshape : SameShape s₁.graph g') (m : Ty) :=
      given_of_linkAcross (m := m) hab hstep (hs₁ ▸ hshape)
    obtain ⟨h₂, harr⟩ := handOn_fitted (x := a) hs .lower (h.of_sameTypes hsame) hwf₁
      (hsame.ids ▸ hb) h.toWithin
      (fun y hy p hp => (hgiven _ (refl_of SameShape _) p y).1 hy (h.given .lower a p hp).1) hlower
    -- what goes down is the upper bound as the way up has left it
    have hshape := harr.shape
    obtain ⟨h₃, harr'⟩ := handOn_fitted (x := b) hs .upper h₂ (hwf₁.of_sameShape hshape)
      (hshape.ids ▸ hsame.ids ▸ ha) h₂.toWithin
      (fun y hy p hp => (hgiven _ hshape p y).2 hy (h₂.given .upper b p hp).1) hupper
    exact ⟨h₃, .inr ⟨hedge, s₂.graph, hs₁ ▸ harr, harr'⟩⟩

/-- **A new edge** comes to its end. -/
theorem Consistent.addEdge_runs (hc : Consistent l calls)
    (h : s.graph.Fitted l tag calls fun _ => False) (hwf : s.graph.WellFormed)
    (ha : a ∈ s.graph.ids) (hb : b ∈ s.graph.ids) (hab : AddsEdge calls a b)
    (hstep : ∀ side x y, y ∈ (s.graph.linkAcross a b).onward side x →
      side.Leads (AddsEdge calls) x y) :
    ∃ s', addEdge a b s = (.ok (), s') := by
  rw [addEdge_eq, graph_bind_apply]
  split
  · exact ⟨s, rfl⟩
  · set s₁ : Progress := ⟨s.graph.linkAcross a b, { s.effect with changed := true }⟩
    have hsame : SameTypes s.graph s₁.graph := sameTypes_linkAcross
    have hwf₁ : s₁.graph.WellFormed := (hwf.linkAcross ha hb).1
    have h₁ := h.of_sameTypes hsame
    have hgiven (g' : Graph) (hshape : SameShape s₁.graph g') (m : Ty) :=
      given_of_linkAcross (m := m) hab hstep hshape
    have hlow : ∀ y, ReflTransGen (fun x y => y ∈ s₁.graph.onward .lower x) b y →
        ∀ p ∈ s.graph.has .lower a, Given calls .lower y p := fun y hy p hp =>
      (hgiven _ (refl_of SameShape _) p y).1 hy (h.given .lower a p hp).1
    obtain ⟨s₂, hlower⟩ := hc.handOn_runs (x := a) hs .lower h₁.toWithin h.toWithin hlow
    obtain ⟨h₂, harr⟩ :=
      handOn_fitted (x := a) hs .lower h₁ hwf₁ (hsame.ids ▸ hb) h.toWithin hlow hlower
    obtain ⟨s₃, hupper⟩ :=
      hc.handOn_runs (x := b) hs .upper h₂.toWithin h₂.toWithin fun y hy p hp =>
      (hgiven _ harr.shape p y).2 hy (h₂.given .upper b p hp).1
    refine ⟨s₃, bind_eq_ok.2 ⟨(), { s with graph := s₁.graph }, rfl, ?_⟩⟩
    exact bind_eq_ok.2 ⟨(), s₁, rfl, bind_eq_ok.2 ⟨(), s₂, hlower, hupper⟩⟩

end

end TypeBounds
