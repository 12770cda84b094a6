import TypeBounds.Proofs.Exactness
import TypeBounds.Proofs.Execution
import TypeBounds.Proofs.Meets

/-!
# Where a bound is refused

Plain types without implicit conversions: whether a bound is accepted is decided at the variable
itself. The bounds have flowed along the edges before, so whatever passes the opposite bound of the
variable passes all opposite bounds further on.

* `Graph.Passes`: nothing in the opposite bound speaks against a member, and `Graph.Fit`: lower
  bounds are below upper ones. What is accepted keeps a graph fit (`Graph.Fit.after`);
* `member_ends`, `anyNew_ends`, `visit_ends`: how a member, several of them and a visit can end;
* `Graph.Passes.of_reaches`: what passes at one variable passes wherever it gets to;
* `spread_ends`: a propagation is refused at its start, or else by a member beside it in an upper
  bound;
* `bound_decided_at_variable`: the result.
-/

namespace TypeBounds

open Infer Relation

section

variable {u : Universe} {g g' : Graph} {side : Side} {id x y : VarId} {e m o p q t : Ty}
  {s s' : Progress} {nested : Side → VarId → Ty → Infer Unit}

/-! ## Fit graphs -/

/-- Coverage on one side, and then on the other. -/
theorem Side.Covered.trans_other (hu : u.Legible) (hm : Plain u m) (he : Plain u e) (ho : Plain u o)
    (hme : side.Covered m e) (hoe : side.other.Covered o e) : side.Covered m o := by
  cases side with
  | lower => exact Sub.trans hu hm he.convertibleFree ho.convertibleFree hme hoe
  | upper => exact Sub.trans hu ho he.convertibleFree hm.convertibleFree hoe hme

namespace Graph

/-- **Nothing in the opposite bound speaks against the member.** -/
def Passes (g : Graph) (side : Side) (id : VarId) (m : Ty) : Prop :=
  ∀ o ∈ g.has side.other id, side.Covered m o

/-- **Lower bounds are below upper ones.** -/
def Fit (g : Graph) : Prop := ∀ x, ∀ p ∈ g.has .lower x, ∀ q ∈ g.has .upper x, Sub p q

theorem Fit.passes (h : g.Fit) (hm : m ∈ g.has side id) : g.Passes side id m := by
  cases side with
  | lower => exact fun q hq => h id m hm q hq
  | upper => exact fun p hp => h id p hp m hm

theorem fit_of_passes (side : Side) (h : ∀ x, ∀ m ∈ g.has side x, g.Passes side x m) : g.Fit := by
  intro x p hp q hq
  cases side with
  | lower => exact h x p hp q hq
  | upper => exact h x q hq p hp

/-- What is covered by a member of the bound passes if the member does. -/
theorem Fit.passes_of_covers (hu : u.Legible) (htidy : g.Tidy (PlainMember u)) (h : g.Fit)
    (hm : Plain u m) (hcov : g.Covers side id m) : g.Passes side id m := by
  obtain ⟨e, he, hme⟩ := hcov
  intro o ho
  have heo : side.Covered e o := h.passes he o ho
  have hplain {side : Side} {e : Ty} (he : e ∈ g.has side id) : Plain u e :=
    (htidy.admissible side id e he).1
  cases side with
  | lower => exact Sub.trans hu hm (hplain he).convertibleFree (hplain ho).convertibleFree hme heo
  | upper => exact Sub.trans hu (hplain ho) (hplain he).convertibleFree hm.convertibleFree heo hme

/-- It only matters what the opposite bound holds. -/
theorem passes_congr (h : g'.has side.other id = g.has side.other id) :
    g'.Passes side id m ↔ g.Passes side id m := by
  rw [Passes, h, Passes]

end Graph

/-! ## One member -/

open TypeBounds.Graph

/-- How a member is refused: by the opposite bound, or by a member beside it in an upper bound. -/
inductive Refusal (g : Graph) (id : VarId) : Side → Ty → Contradiction → Prop where
  | upper {m b : Ty} (h : ¬g.Passes .lower id m) : Refusal g id .lower m (.upper id m b)
  | lower {m b : Ty} (h : ¬g.Passes .upper id m) : Refusal g id .upper m (.lower id m b)
  | intersection {m b : Ty} : Refusal g id .upper m (.intersection id m b)

theorem Refusal.congr {c : Contradiction} (hhas : g'.has side.other id = g.has side.other id)
    (h : Refusal g' id side m c) : Refusal g id side m c := by
  cases h with
  | upper h => exact .upper fun hpass => h ((passes_congr hhas).2 hpass)
  | lower h => exact .lower fun hpass => h ((passes_congr hhas).2 hpass)
  | intersection => exact .intersection

/-- What passes the opposite bound is refused by members beside it only. -/
theorem Refusal.of_passes {c : Contradiction} (h : Refusal g id side m c)
    (hpass : g.Passes side id m) : side = .upper ∧ ∃ b, c = .intersection id m b := by
  cases h with
  | upper h => exact absurd hpass h
  | lower h => exact absurd hpass h
  | intersection => exact ⟨rfl, _, rfl⟩

/-- **The check against an upper bound** asks of a plain type to be below every member. -/
theorem isSubtype_upper_iff (hu : u.Legible) (htidy : g.Tidy (PlainMember u)) (hm : Plain u m) :
    g.isSubtype m (.inter (g.boundsOf id).upper) ↔ g.Passes .lower id m := by
  have hkeyed := htidy.keyed .upper id
  have hcf : ConvertibleFree u (.inter (g.boundsOf id).upper) := by
    refine .container .upper hkeyed.key hkeyed.nodup fun e he => ?_
    exact (htidy.admissible .upper id e.2 (Members.mem_types.2 ⟨e, he, rfl⟩)).1.convertibleFree
  rw [show g.isSubtype m _ ↔ _ from isSubtype_iff hu hm.convertibleFree hcf,
    sub_inter_iff hu hm hcf]
  constructor
  · intro h o ho
    obtain ⟨e, he, rfl⟩ := Members.mem_types.1 ho
    exact h e he
  · exact fun h e he => h e.2 (Members.mem_types.2 ⟨e, he, rfl⟩)

theorem passes_of_upper_eq_nil (h : (g.boundsOf id).upper = []) : g.Passes .lower id m := by
  intro o ho
  have hnil : (g.boundsOf id).side .upper = [] := h
  rw [Side.other, Graph.has, hnil] at ho
  cases ho

theorem checkUpper_ends (hu : u.Legible) (hq : s.graph.lattice.Quiet)
    (htidy : s.graph.Tidy (PlainMember u)) (hm : PlainMember u .lower m)
    (narrow : VarId → Ty → Infer Unit) :
    Ends (checkUpper narrow id m) s (fun _ _ => s.graph.Passes .lower id m) fun c s' =>
      s' = s ∧ Refusal s.graph id .lower m c := by
  refine .graph_bind ?_
  rw [htidy.checkableUpper_eq (admits_plainMember hu)]
  dsimp only
  rw [hm.1.convertibleFree.isUnresolved_eq hu.toSound, Bool.false_or]
  split
  · rename_i hfits
    refine .pure ?_
    rcases (Bool.or_eq_true_iff ..).1 hfits with hempty | hsub
    · exact passes_of_upper_eq_nil (List.isEmpty_iff.1 hempty)
    · exact (isSubtype_upper_iff hu htidy hm.1).1 hsub
  · rename_i hfits
    rw [implicit?_eq_none hq hm.2.ne_container]
    refine .fail ⟨rfl, .upper fun hpass => hfits ?_⟩
    rw [(isSubtype_upper_iff hu htidy hm.1).2 hpass, Bool.or_true]

theorem checkLower_ends (hu : u.Legible) (hq : s.graph.lattice.Quiet)
    (htidy : s.graph.Tidy (PlainMember u)) (hm : PlainMember u .upper m) :
    Ends (checkLower id m) s (fun sources s' => sources = [] ∧ s' = s ∧
      s.graph.Passes .upper id m) fun c s' =>
      s' = s ∧ Refusal s.graph id .upper m c := by
  have hcf := hm.1.convertibleFree
  have hpasses :
      ((s.graph.has .lower id).all fun l => s.graph.isUnresolved l || s.graph.isSubtype l m) ↔
      s.graph.Passes .upper id m := by
    rw [List.all_eq_true]
    refine forall₂_congr fun l hl => ?_
    have hl := (htidy.admissible .lower id l hl).1.convertibleFree
    rw [hl.isUnresolved_eq hu.toSound, Bool.false_or]
    exact isSubtype_iff hu hl hcf
  have hcheck := checkLower_eq (hcf.isUnresolved_eq hu.toSound) fun l hl _ =>
    implicit?_eq_none hq (htidy.admissible .lower id l hl).2.ne_container
  constructor <;> intro r s' hrun <;> rw [hcheck] at hrun <;> split at hrun <;> cases hrun
  · rename_i hall
    exact ⟨rfl, rfl, hpasses.1 hall⟩
  · rename_i hall
    exact ⟨rfl, .lower (hpasses.not.1 hall)⟩

/-- **One member** is covered, or it passes and is taken in, or it is refused and nothing
happens. -/
theorem member_ends (nested : Side → VarId → Ty → Infer Unit) (id : VarId) (hu : u.Legible)
    (hq : s.graph.lattice.Quiet) (htidy : s.graph.Tidy (PlainMember u))
    (hm : PlainMember u side m) :
    Ends (member nested side id m) s (fun _ _ => s.graph.Covers side id m ∨
      s.graph.Passes side id m)
      fun c s' => s' = s ∧ Refusal s.graph id side m c := by
  have habs : s.graph.absorbs side id m ↔ s.graph.Covers side id m :=
    htidy.absorbs_iff (admits_plainMember hu) hm.1.convertibleFree
  cases side with
  | lower =>
    refine .graph_bind ?_
    split
    · rename_i h
      exact .pure (.inl (habs.1 h))
    · refine (checkUpper_ends hu hq htidy hm _).bind fun _ s₁ hpass => ?_
      exact ⟨fun _ _ _ => .inr hpass, fun c s' hrun => by cases hrun⟩
  | upper =>
    refine .graph_bind ?_
    split
    · rename_i h
      exact .pure (.inl (habs.1 h))
    · -- without conversions there are no sources, so once the check is over the insertion decides
      refine (checkLower_ends hu hq htidy hm).bind fun sources s₁ ⟨hsources, hs₁, hpass⟩ =>
        .graph_bind ?_
      subst hsources hs₁
      cases hins : s₁.graph.insertUpper id m with
      | ok g' => exact ⟨fun _ _ _ => .inr hpass, fun c s' hrun => by cases hrun⟩
      | error c =>
        unfold insertUpper at hins
        dsimp only at hins
        split at hins
        · cases hins
          exact .fail ⟨rfl, .intersection⟩
        · cases hins

/-! ## One variable -/

/-- **What passes keeps a graph fit.** -/
theorem Entered.fit {P : Side → Ty → Prop} {ms : List Ty} (h : Entered P side ms id g g')
    (hfit : g.Fit) (hpass : ∀ m ∈ ms, g.Passes side id m) : g'.Fit := by
  refine fit_of_passes side fun x m hm => ?_
  have hother : g'.has side.other x = g.has side.other x := by
    rw [Graph.has, h.other, Graph.has]
  rw [passes_congr hother]
  by_cases hx : x = id
  · subst hx
    rcases h.origin x m hm with hm | hm
    · exact hfit.passes hm
    · exact hpass m hm
  · rw [Graph.has, h.elsewhere x hx] at hm
    exact hfit.passes hm

/-- The refusal of one of the members, after which at most one variable has changed. -/
def RefusedAt (g : Graph) (id : VarId) (side : Side) (ms : List Ty) (c : Contradiction)
    (s' : Progress) : Prop :=
  (∃ m ∈ ms, Refusal g id side m c) ∧ ∃ f, s'.graph = g.update id f

/-- **One member of several**: after it the graph is fit again, and the opposite bound is as it
was. -/
theorem member_step {ms : List Ty} (hu : u.Legible) (hq : s.graph.lattice.Quiet)
    (htidy : s.graph.Tidy (PlainMember u)) (hfit : s.graph.Fit) (hid : id ∈ s.graph.ids)
    (hm : PlainMember u side m) (hms : m ∈ ms) :
    Ends (member nested side id m) s (fun _ s' => s.graph.Passes side id m ∧ s'.graph.Fit ∧
        s'.graph.Tidy (PlainMember u) ∧ s'.graph.has side.other id = s.graph.has side.other id ∧
        ∃ f, s'.graph = s.graph.update id f)
      (RefusedAt s.graph id side ms) := by
  have hP := admits_plainMember hu
  have hmember := member_ends nested id hu hq htidy hm
  refine ⟨fun new s' hrun => ?_, fun c s' hrun => ?_⟩
  · have hpass : s.graph.Passes side id m :=
      (hmember.ok new s' hrun).elim (hfit.passes_of_covers hu htidy hm.1) fun hpass => hpass
    refine ⟨hpass, ?_⟩
    rcases member_ok hP hq htidy hm hrun with ⟨-, -, hs'⟩ | ⟨hcov, -, hs'⟩
    · rw [hs']
      exact ⟨hfit, htidy, rfl, fun b => b, (update_same fun _ => rfl).symm⟩
    · have hent := (htidy.mem_inserted hP side hm.1.convertibleFree hid).entered htidy hm hcov
        (List.mem_singleton_self m)
      rw [hs']
      refine ⟨hent.fit hfit fun m' hm' => ?_, hent.tidy, has_inserted_ne (.inl side.other_ne), _,
        rfl⟩
      rw [List.mem_singleton.1 hm']
      exact hpass
  · obtain ⟨rfl, href⟩ := hmember.error c s' hrun
    exact ⟨⟨m, hms, href⟩, fun b => b, (update_same fun _ => rfl).symm⟩

section

variable (nested) (hu : u.Legible) (hq : s.graph.lattice.Quiet)
  (htidy : s.graph.Tidy (PlainMember u)) (hfit : s.graph.Fit) (hid : id ∈ s.graph.ids)

include hu hq htidy hfit hid

/-- **Members one after the other**: all of them pass, or one is refused. -/
theorem anyNew_ends
    {todo : List Ty} (htodo : ∀ m ∈ todo, PlainMember u side m) :
    Ends (anyNew (member nested side id) todo) s (fun _ _ => ∀ m ∈ todo, s.graph.Passes side id m)
      (RefusedAt s.graph id side todo) := by
  induction todo generalizing s with
  | nil => exact .pure fun m hm => (List.not_mem_nil hm).elim
  | cons m todo ih =>
    refine (member_step hu hq htidy hfit hid (htodo m (List.mem_cons_self ..))
      (List.mem_cons_self ..)).bind fun new s₁ ⟨hpass, hfit₁, htidy₁, hhas, f, hs₁⟩ => ?_
    have hlattice : s₁.graph.lattice = s.graph.lattice := by rw [hs₁]; rfl
    have hids : s₁.graph.ids = s.graph.ids := by rw [hs₁]; exact ids_update f
    have hrest :=
      ih (hlattice ▸ hq) htidy₁ hfit₁ (hids ▸ hid) fun m hm => htodo m (List.mem_cons_of_mem _ hm)
    refine Ends.bind ⟨hrest.ok, fun c s₂ hrun => ?_⟩ fun newer s₂ hall => .pure ?_
    · obtain ⟨⟨m', hm', href⟩, f', hs₂⟩ := hrest.error c s₂ hrun
      refine ⟨⟨m', List.mem_cons_of_mem _ hm', href.congr hhas⟩, fun b => f' (f b), ?_⟩
      rw [hs₂, hs₁, update_update]
    · exact List.forall_mem_cons.2 ⟨hpass, fun m' hm' => (passes_congr hhas).1 (hall m' hm')⟩

/-- **One visit**: all parts of the type pass, and it goes on as it did before, or one is
refused. -/
theorem visit_ends
    (ht : ∀ m ∈ side.parts t, PlainMember u side m) :
    Ends (visit nested side t id) s
      (fun found s' => (∀ m ∈ side.parts t, s.graph.Passes side id m) ∧
        Visited (PlainMember u) side (side.parts t) id found s.graph s'.graph)
      (RefusedAt s.graph id side (side.parts t)) := by
  have hP := admits_plainMember hu
  have hparts : (side.parts t).filter (!s.graph.isSelf id ·) = side.parts t := by
    refine List.filter_eq_self.2 fun m hm => ?_
    rw [(ht m hm).1.convertibleFree.isSelf_eq hu.toSound]
    rfl
  have hall := anyNew_ends nested hu hq htidy hfit hid ht
  suffices hends :
      Ends (visit nested side t id) s (fun _ _ => ∀ m ∈ side.parts t, s.graph.Passes side id m)
      (RefusedAt s.graph id side (side.parts t)) from
    hends.mono fun found s' hrun hpass => ⟨hpass, visit_ok hP hq htidy hid ht hrun⟩
  rw [visit_eq, enter_eq]
  refine Ends.bind (Q := fun _ s₁ => s₁.graph.Tidy (PlainMember u) ∧
    ∀ m ∈ side.parts t, s.graph.Passes side id m) ?_ fun new s₁ ⟨htidy₁, hpass⟩ => ?_
  · refine .graph_bind ?_
    rw [hparts]
    refine hall.mono fun new s₁ hrun hpass => ⟨?_, hpass⟩
    exact (anyNew_ok hP hq htidy hid (fun m hm => ⟨ht m hm, hm⟩) hrun).1.tidy
  · split
    · -- the second look finds nothing
      refine Ends.bind (Q := fun _ s₂ => s₂.graph = s₁.graph) ⟨fun _ s₂ h => ?_, fun _ _ h => ?_⟩
        fun _ s₂ hs₂ => ?_
      · cases h
        rfl
      · cases h
      · have hrecheck : recheck id s₂ = (.ok (), s₂) := recheck_apply hP (hs₂ ▸ htidy₁)
        refine Ends.bind (Q := fun _ _ => True) ⟨fun _ _ _ => trivial, fun _ _ h => ?_⟩
          fun _ s₃ _ => .graph_bind (.pure hpass)
        cases hrecheck.symm.trans h
    · exact .pure hpass

end

/-! ## Propagation -/

theorem Graph.WellFormed.mem_onward_other (h : g.WellFormed) (hxy : y ∈ g.onward side x) :
    x ∈ g.onward side.other y := by
  cases side with
  | lower => exact mem_onward_upper.2 (h.mem_onward_lower.1 hxy)
  | upper => exact h.mem_onward_lower.2 (mem_onward_upper.1 hxy)

/-- **What passes at a variable passes wherever it gets to**, because the opposite bounds there have
flowed back. -/
theorem Graph.Passes.of_reaches (hu : u.Legible) (hwf : g.WellFormed)
    (htidy : g.Tidy (PlainMember u)) (hflows : g.FlowsOn (PlainMember u) side.other)
    (hm : Plain u m) (hxy : ReflTransGen (fun x y => y ∈ g.onward side x) x y)
    (h : g.Passes side x m) : g.Passes side y m := by
  induction hxy with
  | refl => exact h
  | tail _ hlast ih =>
    intro o ho
    obtain ⟨e, he, hoe⟩ := hflows _ _ (hwf.mem_onward_other hlast) o ho
    have hopl := htidy.admissible side.other _ o ho
    refine Side.Covered.trans_other hu hm (htidy.admissible side.other _ e he).1 hopl.1 (ih e he) ?_
    exact hoe.covered (admits_plainMember hu) (chains_plainMember hu side.other) hopl

/-- **A propagation** is refused where it starts, or by a member beside it in an upper bound. -/
theorem spread_ends (hu : u.Legible) (hq : s.graph.lattice.Quiet)
    (htidy : s.graph.Tidy (PlainMember u)) (hwf : s.graph.WellFormed)
    (hflows : s.graph.FlowsOn (PlainMember u) side.other) (hfit : s.graph.Fit)
    (hid : id ∈ s.graph.ids) (ht : ∀ m ∈ side.parts t, PlainMember u side m) :
    Ends (spread side id t) s (fun _ _ => ∀ m ∈ side.parts t, s.graph.Passes side id m) fun c s' =>
      RefusedAt s.graph id side (side.parts t) c s' ∨ side = .upper ∧
      ∃ x m b, c = .intersection x m b := by
  obtain ⟨depth, hspread⟩ := exists_spread_eq side id t s
  have hfirst := visit_ends (spreadWithin depth) hu hq htidy hfit hid ht
  refine .congr hspread ?_
  rw [exploreM_start hid]
  refine Ends.bind ⟨hfirst.ok, fun c s' hrun => .inl (hfirst.error c s' hrun)⟩
    fun found s₁ ⟨hpass, hvisited⟩ => ?_
  -- all parts pass at the start, so they pass at every later visit, whatever has been taken in by
  -- then
  let R := ReflTransGen (fun x y => y ∈ s.graph.onward side x) id
  let J (g : Graph) := Widened (PlainMember u) side (side.parts t) s.graph g ∧ g.Fit
  have hnext {n : VarId} {found : List VarId} {g g' : Graph} (hn : R n)
      (hshape : SameShape s.graph g')
      (hvisited : Visited (PlainMember u) side (side.parts t) n found g g') : ∀ y ∈ found, R y := by
    intro y hy
    rcases hvisited.found with rfl | ⟨rfl, -⟩
    · rw [onward_eq_of_sameShape hshape] at hy
      exact hn.tail hy
    · cases hy
  refine (exploreM_ends (g := s.graph) (R := R) (J := J) (fun n s₂ hn hids ⟨hwide, hfit₂⟩ => ?_)
    (fun n hn => List.mem_of_mem_erase hn) (fun y hy => ?_) ⟨hvisited.toWidened, ?_⟩).mono
      fun _ _ _ _ => hpass
  · have hpass₂ : ∀ m ∈ side.parts t, s₂.graph.Passes side n m := by
      intro m hm
      have hother : s₂.graph.has side.other n = s.graph.has side.other n := by
        rw [Graph.has, hwide.other, Graph.has]
      exact (passes_congr hother).2 ((hpass m hm).of_reaches hu hwf htidy hflows (ht m hm).1 hn)
    have hends := visit_ends (spreadWithin depth) hu (hwide.shape.lattice ▸ hq) hwide.tidy hfit₂
      (hwide.shape.ids ▸ hids) ht
    refine ⟨fun found s₃ hrun => ?_, fun c s₃ hrun => ?_⟩
    · have hvisited₃ := (hends.ok found s₃ hrun).2
      have hwide₃ := hwide.trans hvisited₃.toWidened
      exact ⟨⟨hwide₃, hvisited₃.fit hfit₂ hpass₂⟩, hnext hn hwide₃.shape hvisited₃⟩
    · obtain ⟨⟨m, hm, href⟩, -⟩ := hends.error c s₃ hrun
      obtain ⟨hside, b, hc⟩ := href.of_passes (hpass₂ m hm)
      exact .inr ⟨hside, n, m, b, hc⟩
  · rw [List.append_nil, List.mem_reverse] at hy
    exact hnext .refl hvisited.shape hvisited y hy
  · exact hvisited.fit hfit hpass

/-! ## Accepted calls keep a graph fit -/

theorem Graph.Fit.of_has_eq (h : g.Fit) (hhas : ∀ side x, g'.has side x = g.has side x) :
    g'.Fit := by
  intro x p hp q hq
  rw [hhas] at hp hq
  exact h x p hp q hq

section

variable (hu : u.Legible) (hq : s.graph.lattice.Quiet) (htidy : s.graph.Tidy (PlainMember u))
  (hwf : s.graph.WellFormed) (hfit : s.graph.Fit)

include hu hq htidy hwf hfit

theorem spread_fit (hid : id ∈ s.graph.ids)
    (ht : ∀ m ∈ side.parts t, PlainMember u side m) (h : spread side id t s = (.ok (), s')) :
    s'.graph.Fit := by
  obtain ⟨depth, hspread⟩ := exists_spread_eq side id t s
  rw [hspread] at h
  have harr : (s'.graph.Tidy (PlainMember u) ∧ s'.graph.Fit) ∧
      Arrived (PlainMember u) side (side.parts t) id s.graph s'.graph := by
    refine arrived_of_exploreM (J := fun g => g.Tidy (PlainMember u) ∧ g.Fit) htidy hwf hid
      (fun n found s₁ s₂ _ hn hshape ⟨htidy₁, hfit₁⟩ hrun => ?_) ⟨htidy, hfit⟩ h
    obtain ⟨hpass, hvisited⟩ :=
      (visit_ends _ hu (hshape.lattice ▸ hq) htidy₁ hfit₁ (hshape.ids ▸ hn) ht).ok found s₂ hrun
    exact ⟨⟨hvisited.tidy, hvisited.fit hfit₁ hpass⟩, hvisited⟩
  exact harr.1.2

theorem handOn_fit (hid : id ∈ s.graph.ids) {ms : Members} (hkeyed : ms.Keyed)
    (hms : ∀ t ∈ Members.types ms, PlainMember u side t) (h : handOn side id ms s = (.ok (), s')) :
    s'.graph.Fit := by
  rcases handOn_cases (admits_plainMember hu) hkeyed hms h with ⟨-, rfl⟩ | ⟨t, hparts, hspread⟩
  · exact hfit
  · rw [← hparts] at hms
    exact spread_fit hu hq htidy hwf hfit hid hms hspread

theorem addEdge_fit {lower upper : VarId} (hlower : lower ∈ s.graph.ids)
    (hupper : upper ∈ s.graph.ids) (h : addEdge lower upper s = (.ok (), s')) : s'.graph.Fit := by
  rcases addEdge_cases h with ⟨-, rfl⟩ | ⟨-, s₁, s₂, hs₁, hup, hdown⟩
  · exact hfit
  · have hsame : SameTypes s.graph s₁.graph := hs₁ ▸ sameTypes_linkAcross
    have hwf₁ : s₁.graph.WellFormed := hs₁ ▸ (hwf.linkAcross hlower hupper).1
    have hq₁ : s₁.graph.lattice.Quiet := hsame.lattice ▸ hq
    have htidy₁ := htidy.of_sameTypes hsame
    have hfit₁ : s₁.graph.Fit := hfit.of_has_eq (has_of_sameTypes hsame)
    have harr := handOn_ok (admits_plainMember hu) hq₁ htidy₁ hwf₁ (hsame.ids ▸ hupper)
      (htidy.keyed .lower lower) (htidy.admissible .lower lower) hup
    have hfit₂ := handOn_fit hu hq₁ htidy₁ hwf₁ hfit₁ (hsame.ids ▸ hupper)
      (htidy.keyed .lower lower) (htidy.admissible .lower lower) hup
    exact handOn_fit hu (harr.shape.lattice ▸ hq₁) harr.tidy (hwf₁.of_sameShape harr.shape) hfit₂
      (harr.shape.ids ▸ hsame.ids ▸ hlower) (harr.tidy.keyed .upper upper)
      (harr.tidy.admissible .upper upper)
      hdown

end

namespace Graph

variable {done calls : List Call}

section

variable (hu : u.Legible) (h : ExactFor u done g) (hfit : g.Fit)

include hu h hfit

theorem Fit.bound (side : Side) (ht : Plain u t)
    (hacc : (g.addBound side id t).fault = none) : (g.addBound side id t).graph.Fit := by
  obtain ⟨hid, s, hspread, hgraph⟩ :=
    addBound_accepted (ht.convertibleFree.isSelf_eq hu.toSound) hacc
  rw [hgraph]
  exact spread_fit hu h.quiet h.tidy h.wellFormed hfit hid
    (fun m => ht.member_of_mem_parts hu.toSound) hspread

theorem Fit.addRef {r : Option Reference}
    (hm : (Call.addRef id r).IsMutable) (hacc : (g.addRef id r).fault = none) :
    (g.addRef id r).graph.Fit := by
  obtain ⟨r, rfl, hid, hr, ⟨rfl, hgraph | hgraph⟩ | ⟨hne, s, hgraph, hrun⟩⟩ := addRef_accepted hacc
  · rw [hgraph]
    exact hfit
  · rw [hgraph]
    exact hfit.of_has_eq (has_of_sameTypes sameTypes_link)
  · rw [show r.fixed = false from hm] at hrun
    rw [hgraph]
    exact addEdge_fit hu h.quiet h.tidy h.wellFormed hfit hr hid hrun

/-- **One accepted call** keeps a graph fit. -/
theorem Fit.outcome {c : Call}
    (hc : c.Builds (Plain u)) (hm : c.IsMutable) (hacc : (c.outcome g).fault = none) :
    (c.outcome g).graph.Fit := by
  cases c with
  | addVariable name r =>
    obtain ⟨r', rfl, hgraph⟩ := addVariable_accepted hacc
    rw [hgraph]
    refine hfit.of_has_eq fun side x => ?_
    exact congrArg (fun b : Bounds => Members.types (b.side side)) boundsOf_register
  | addLower id t => exact hfit.bound hu h .lower hc hacc
  | addUpper id t => exact hfit.bound hu h .upper hc hacc
  | addRef id r => exact hfit.addRef hu h hm hacc
  | _ => exact hc.elim

/-- **All accepted calls** keep a graph fit. -/
theorem Fit.after
    (hcalls : ∀ c ∈ calls, c.Builds (Plain u) ∧ c.IsMutable) (hacc : g.accepts calls) :
    (g.after calls).Fit := by
  induction calls generalizing g done with
  | nil => exact hfit
  | cons c calls ih =>
    obtain ⟨hc, hm⟩ := hcalls c (List.mem_cons_self ..)
    obtain ⟨hfirst, hrest⟩ := accepts_cons.1 hacc
    exact ih (h.outcome hu hc hm hfirst) (hfit.outcome hu h hc hm hfirst)
      (fun c hc => hcalls c (List.mem_cons_of_mem _ hc)) hrest

end

theorem fit_empty (tag : Nat) (lattice : Lattice) (policy : Policy) :
    Graph.Fit { tag, lattice, policy } :=
  fun _ _ hp => (List.not_mem_nil hp).elim

/-! ## Verdicts -/

/-- A computation that is run ends as it would. -/
theorem run_ends (blame : Contradiction → Fault) {m : Infer Unit} {Q : Unit → Progress → Prop}
    {E : Contradiction → Progress → Prop} (h : Ends m { graph := g } Q E) :
    (g.run blame m).fault = none ∧ (∃ s, (g.run blame m).graph = s.graph ∧ Q () s) ∨
      ∃ c s, (g.run blame m).fault = some (blame c) ∧ (g.run blame m).graph = s.graph ∧ E c s := by
  unfold run
  rcases hrun : m { graph := g } with ⟨c | _, s⟩
  · exact .inr ⟨c, s, rfl, rfl, h.error c s hrun⟩
  · exact .inl ⟨rfl, s, rfl, h.ok () s hrun⟩

/-- **A bound that is added** has parts that all pass, or one of them is refused and no other
variable has changed, or members of an upper bound clash. -/
theorem addBound_verdict (hu : u.Legible) (h : ExactFor u done g) (hfit : g.Fit)
    (hid : id ∈ g.ids) (side : Side) (ht : Plain u t) :
    (g.addBound side id t).fault = none ∧ (∀ m ∈ side.parts t, g.Passes side id m) ∨
      ∃ c, (g.addBound side id t).fault = some (.contradiction c) ∧
        ((∃ m ∈ side.parts t, Refusal g id side m c) ∧
          (∃ f, (g.addBound side id t).graph = g.update id f) ∨
          side = .upper ∧ ∃ x m b, c = .intersection x m b) := by
  have hends := spread_ends (s := { graph := g }) (t := t) hu h.quiet h.tidy h.wellFormed
    (h.supplied side.other).flows hfit hid fun m => ht.member_of_mem_parts hu.toSound
  rw [addBound_eq_run (ht.convertibleFree.isSelf_eq hu.toSound)
    (checkBound_iff.2 ⟨hid, requireOwned_eq_ok hu.toSound ht.convertibleFree⟩)]
  rcases run_ends .contradiction hends with ⟨hnone, s, -, hpass⟩ | ⟨c, s, hfault, hgraph, hend⟩
  · exact .inl ⟨hnone, hpass⟩
  · refine .inr ⟨c, hfault, ?_⟩
    rw [hgraph]
    exact hend

end Graph

/-- What is below all parts of a type is below the type. -/
theorem sub_of_interParts (hu : u.Sound) (ht : ConvertibleFree u t)
    (h : ∀ p ∈ t.interParts, Sub m p) : Sub m t := by
  induction ht with
  | declared hx =>
    rw [interParts_eq (hu.ne_container hx .upper)] at h
    exact h _ (List.mem_singleton_self _)
  | @container side ms _ _ _ ih =>
    cases side with
    | lower =>
      rw [Side.container, interParts_eq fun ms' heq => by cases heq] at h
      exact h _ (List.mem_singleton_self _)
    | upper =>
      exact sub_inter_of_forall fun e he => ih e he fun p hp =>
        h p (mem_interParts_inter.2 ⟨e, he, hp⟩)

end

/-- **A bound is decided at the variable itself.** Take a graph that plain types were added to,
without implicit conversions. A lower bound is accepted exactly if there is no upper bound or all
its parts are below it. If it is refused, the error names the variable and one of these parts, and
no other variable has changed. An upper bound that is not above a lower one is refused at the
variable, and if it is accepted then every member of the lower bound is below it. -/
theorem bound_decided_at_variable {decls : List TypeDecl} {u : Universe}
    (hu : Universe.ofDecls decls = .ok u)
    (hnames : ∀ name ∈ u.types.keys, IsIdentifier name ∧ name ≠ "nothing") (tag : Nat)
    {lattice : Lattice} (policy : Policy) (hq : lattice.Quiet) {calls : List Call}
    (hcalls : ∀ c ∈ calls, c.Builds (Plain u) ∧ c.IsMutable)
    (hacc : Graph.accepts { tag, lattice, policy } calls) {id : VarId} {t : Ty} (ht : Plain u t) :
    let g := Graph.after { tag, lattice, policy } calls
    g.hasTypeVariable id →
      ((g.addLower id t).fault = none ↔ (g.boundsOf id).upper = [] ∨
        ∀ m ∈ t.unionParts, g.isSubtype m (.inter (g.boundsOf id).upper)) ∧
      ((g.addLower id t).fault ≠ none →
        (∃ m ∈ t.unionParts, ∃ b, (g.addLower id t).fault = some (.contradiction (.upper id m b))) ∧
        (g.addLower id t).graph.names = g.names ∧
        ∀ x, x ≠ id → (g.addLower id t).graph.bounds.get? x = g.bounds.get? x) ∧
      (∀ x m b, (g.addUpper id t).fault = some (.contradiction (.lower x m b)) → x = id) ∧
      ((g.addUpper id t).fault = none →
        ∀ l ∈ Members.types (g.boundsOf id).lower, g.isSubtype l t) := by
  intro g hid
  have hlegible := Universe.legible_of_ofDecls hu hnames
  have hempty : Graph.ExactFor u [] { tag, lattice, policy } :=
    .empty tag policy hq (fun _ _ ⟨_, _, h⟩ => (List.not_mem_nil h).elim) fun _ _ _ h =>
      (List.not_mem_nil h).elim
  have hexact : g.ExactFor u calls := hempty.after hlegible hcalls hacc
  have hfit : g.Fit := (Graph.fit_empty tag lattice policy).after hlegible hempty hcalls hacc
  have hmem : id ∈ g.ids := Graph.mem_ids.2 hid
  have hverdict (side : Side) := Graph.addBound_verdict hlegible hexact hfit hmem side ht
  have hplain {m : Ty} (hm : m ∈ t.unionParts) : Plain u m := by
    have hmember : PlainMember u .lower m := ht.member_of_mem_parts hlegible.toSound hm
    exact hmember.1
  have hpasses :
      ((g.boundsOf id).upper = [] ∨
        ∀ m ∈ t.unionParts, g.isSubtype m (.inter (g.boundsOf id).upper)) ↔ ∀ m ∈ t.unionParts,
          g.Passes .lower id m := by
    constructor
    · rintro (hnil | hsub) m hm
      · exact passes_of_upper_eq_nil hnil
      · exact (isSubtype_upper_iff hlegible hexact.tidy (hplain hm)).1 (hsub m hm)
    · exact fun h => .inr fun m hm =>
        (isSubtype_upper_iff hlegible hexact.tidy (hplain hm)).2 (h m hm)
  refine ⟨?_, fun hfault => ?_, fun x m b hfault => ?_, fun hfault l hl => ?_⟩
  · rw [hpasses]
    rcases hverdict .lower with ⟨hnone, hpass⟩ | ⟨c, hfault, ⟨⟨m, hm, href⟩, -⟩ | ⟨hside, -⟩⟩
    · exact iff_of_true hnone hpass
    · refine iff_of_false (fun hnone => ?_) fun hpass => ?_
      · cases hnone.symm.trans hfault
      · cases (href.of_passes (hpass m hm)).1
    · cases hside
  · rcases hverdict .lower with ⟨hnone, -⟩ | ⟨c, hc, ⟨⟨m, hm, href⟩, f, hgraph⟩ | ⟨hside, -⟩⟩
    · exact absurd hnone hfault
    · cases href with
      | upper h =>
        refine ⟨⟨m, hm, _, hc⟩, (congrArg Graph.names hgraph).trans (Graph.names_update f),
          fun x hx => ?_⟩
        refine (congrArg (fun g : Graph => g.bounds.get? x) hgraph).trans ?_
        exact (Table.get?_modify _ _ _ _).trans (if_neg hx)
    · cases hside
  · rcases hverdict .upper with ⟨hnone, -⟩ | ⟨c, hc, ⟨⟨m', -, href⟩, -⟩ | ⟨-, x', m', b', rfl⟩⟩
    · cases hnone.symm.trans hfault
    · cases hc.symm.trans hfault
      cases href with
      | lower => rfl
    · cases hc.symm.trans hfault
  · rcases hverdict .upper with ⟨-, hpass⟩ | ⟨c, hc, -⟩
    · have hlplain := (hexact.tidy.admissible .lower id l hl).1
      refine (isSubtype_iff hlegible hlplain.convertibleFree ht.convertibleFree).2 ?_
      exact sub_of_interParts hlegible.toSound ht.convertibleFree fun p hp => hpass p hp l hl
    · cases hfault.symm.trans hc

/-- At the lower end of the chain, the upper bound that came down from its upper end lets the
interface through and nothing above it. -/
theorem bound_decided_at_variable_chain :
    let g := Graph.after { tag := 1 } chain
    (g.addLower "T1" shape).fault = none ∧
      (∃ m ∈ Ty.mixed.unionParts, ∃ b, (g.addLower "T1" .mixed).fault =
        some (.contradiction (.upper "T1" m b))) ∧
      (∀ x, x ≠ "T1" → (g.addLower "T1" .mixed).graph.bounds.get? x = g.bounds.get? x) ∧
      (g.addUpper "T1" circle).fault = none ∧ g.isSubtype circle circle := by
  intro g
  have hcalls : ∀ c ∈ chain, c.Builds (Plain shapes) ∧ c.IsMutable := by
    simp [chain, Call.Builds, Call.IsMutable, plain_shape, plain_circle]
  have hid : (Graph.after { tag := 1 } chain).hasTypeVariable "T1" := by decide +kernel
  have hverdict {t : Ty} (ht : Plain shapes t) := bound_decided_at_variable ofDecls_shapes
    (by decide) 1 .plain .empty hcalls (by decide +kernel) ht hid
  obtain ⟨hmixed, hrefused, -, -⟩ :=
    hverdict ((Universe.sound_of_ofDecls ofDecls_shapes).plain (t := .mixed) rfl)
  have hfault : (g.addLower "T1" .mixed).fault ≠ none := by
    rw [Ne, hmixed]
    decide +kernel
  obtain ⟨herror, -, hothers⟩ := hrefused hfault
  have haccepted : (g.addUpper "T1" circle).fault = none :=
    Option.isNone_iff_eq_none.1 (by decide +kernel)
  refine ⟨(hverdict plain_shape).1.2 (by decide +kernel), herror, hothers, haccepted, ?_⟩
  refine (hverdict plain_circle).2.2.2 haccepted circle ?_
  simp [show Members.types (Graph.boundsOf (Graph.after { tag := 1 } chain) "T1").lower =
    [circle] from rfl]

/-! ## Where a class is named like an intersection -/

/-- An interface with the name of the intersection of two others. -/
def namesakeDecls : List TypeDecl :=
  [{ name := "A", kind := "interface" }, { name := "B", kind := "interface" },
    { name := "P", kind := "interface" },
    { name := "(A & B)", kind := "interface", parents := ["P"] }]

def ifaceA : Ty := .nominal "A" .interface false []

def ifaceB : Ty := .nominal "B" .interface false []

def ifaceP : Ty := .nominal "P" .interface false []

def namesake : Ty := .nominal "(A & B)" .interface false [ifaceP]

def namesakes : Universe :=
  ⟨⟨[("mixed", .mixed), ("A", ifaceA), ("B", ifaceB), ("P", ifaceP), ("(A & B)", namesake)]⟩⟩

def bothAB : Ty := Ty.interOf [ifaceA, ifaceB]

/-- A variable that the interface bounds, below another one that the parent of the interface
bounds. -/
def belowNamesake : List Call :=
  [.addVariable "$s" (some { id := "S" }), .addVariable "$t" (some { id := "T" }),
    .addUpper "T" namesake, .addUpper "S" ifaceP, .addRef "S" (some { id := "T" })]

/-- **Names have to tell types apart.** The intersection is let in at the variable itself, where it
is taken for the interface. It is refused further up, where it is not below the parent. -/
theorem refused_above_namesake :
    let g := Graph.after { tag := 1 } belowNamesake
    Universe.ofDecls namesakeDecls = .ok namesakes ∧
      (∀ c ∈ belowNamesake, c.Builds (Plain namesakes) ∧ c.IsMutable) ∧
      Graph.accepts { tag := 1 } belowNamesake ∧ Plain namesakes bothAB ∧ g.hasTypeVariable "T" ∧
      (∀ m ∈ bothAB.unionParts, g.isSubtype m (.inter (g.boundsOf "T").upper)) ∧
      ∃ m b, (g.addLower "T" bothAB).fault = some (.contradiction (.upper "S" m b)) := by
  intro g
  have haccepted : Universe.ofDecls namesakeDecls = .ok namesakes := rfl
  have hu : namesakes.Sound := Universe.sound_of_ofDecls haccepted
  have hnamesake : Plain namesakes namesake := hu.plain rfl
  have hP : Plain namesakes ifaceP := hu.plain rfl
  have hcalls : ∀ c ∈ belowNamesake, c.Builds (Plain namesakes) ∧ c.IsMutable := by
    simp [belowNamesake, Call.Builds, Call.IsMutable, hnamesake, hP]
  exact ⟨haccepted, hcalls, by decide +kernel, hu.plain_interOf rfl rfl (by decide),
    by decide +kernel, by decide +kernel, _, _, rfl⟩

end TypeBounds
