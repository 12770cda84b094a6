import Mathlib.Data.List.Induction
import TypeBounds.Proofs.Exactness
import TypeBounds.Proofs.Freezing

/-!
# Fixing and the flow of bounds

Adding variables, types and references lets bounds flow along the edges: without conversions, what
is in a lower bound is covered in the lower bounds above it, and what is in an upper bound in the
upper bounds below it (`Graph.FlowsAlong`). Fixing a variable fills in the side of its record that
is empty and tells nobody. If a neighbour does not know already what is written there, the fixing
*harms* the variable (`Graph.Harms`), and bounds may stop to flow along the edges that lead across
it. Along all others they flow.

* `FirmMember`: members of bounds where being covered goes on from one to the next. Plain types are
  not enough for that, since fixing turns an upper bound of several members, which may be unions,
  into a lower bound of one;
* `Graph.Filled`: what fixing does to a record;
* `Graph.Clear`: the edges with no harmed variable on their way, and `HoldsFirm.outcome`, what one
  call does to the flow along them;
* `bounds_flow_unless_harmed`: a whole run.
-/

namespace TypeBounds

open Infer

section

variable {u : Universe} {side : Side} {t p x y : Ty} {ms : Members}

/-! ## Firm members -/

/-- No intersection around a single member has a union in it. -/
def Unmasked (t : Ty) : Prop := ∀ k x, .inter [(k, x)] ∈ t.subterms → UnionFree x

/-- Members of bounds among which being covered is transitive. -/
structure FirmMember (u : Universe) (side : Side) (t : Ty) : Prop where
  settled : Settled u side t
  unmasked : Unmasked t

theorem ConvertibleFree.subterms_trans (hu : u.Sound) (ht : ConvertibleFree u t)
    (hx : x ∈ t.subterms) (hy : y ∈ x.subterms) : y ∈ t.subterms := by
  induction ht with
  | declared h =>
    rw [hu.subterms_eq h, List.mem_singleton] at hx
    exact hx ▸ hy
  | container side _ _ _ ih =>
    rw [subterms_container] at hx ⊢
    rcases List.mem_cons.1 hx with rfl | hx
    · rwa [subterms_container] at hy
    · obtain ⟨m, hm, hx⟩ := mem_subtermsAll.1 hx
      exact List.mem_cons_of_mem _ (mem_subtermsAll.2 ⟨m, hm, ih m hm hx⟩)

/-- The parts of a type as members of a bound. -/
theorem Unmasked.member_of_mem_parts (hu : u.Sound) (ht : ConvertibleFree u t) (h : Unmasked t)
    (hp : p ∈ side.parts t) : FirmMember u side p where
  settled := ht.settled hu hp
  unmasked k x hx := h k x (ht.subterms_trans hu (mem_subterms_of_mem_parts side hp) hx)

theorem Unmasked.firm (hu : u.Sound) (ht : ConvertibleFree u t) (h : Unmasked t)
    (hp : p ∈ t.unionParts) : Firm p where
  ne_union := (ht.of_mem_unionParts hu hp).2.1
  single k x hpx := h k x (hpx ▸ mem_subterms_of_mem_parts .lower hp)

theorem Plain.unmasked (h : Plain u t) : Unmasked t := by
  intro k x hx y hy
  exact h.unionFree [(k, x)] hx y (mem_subtermsAll.2 ⟨(k, x), List.mem_singleton_self _, hy⟩)

/-- A container of such members is one again, unless it hides a union behind a single member. -/
theorem unmasked_container (side : Side) (hlen : side = .upper → ms.length ≠ 1)
    (hms : ∀ m ∈ ms, Unmasked m.2) : Unmasked (side.container ms) := by
  intro k x hx
  rw [subterms_container] at hx
  rcases List.mem_cons.1 hx with hx | hx
  · cases side with
    | lower => cases hx
    | upper =>
      cases hx
      exact absurd rfl (hlen rfl)
  · obtain ⟨m, hm, hx⟩ := mem_subtermsAll.1 hx
    exact hms m hm k x hx

theorem admits_firmMember (hu : u.Legible) : Admits u (FirmMember u) := ⟨hu, fun _ _ h => h.settled⟩

theorem chains_firmMember (hu : u.Legible) (side : Side) : side.Chains (FirmMember u) := by
  intro a b c ha hb hc hab hbc
  have hacf := ha.settled.convertibleFree
  have hbcf := hb.settled.convertibleFree
  have hccf := hc.settled.convertibleFree
  cases side with
  | lower =>
    exact Sub.trans_of_firm hu hacf (fun _ => ha.unmasked.firm hu.toSound hacf) hbcf hccf hab hbc
  | upper =>
    exact Sub.trans_of_firm hu hccf (fun _ => hc.unmasked.firm hu.toSound hccf) hbcf hacf hbc hab

end

/-! ## What a record is filled with -/

namespace Graph

variable {u : Universe} {E E' : VarId → Prop} {g g' g₁ : Graph} {side : Side} {a b x y : VarId}
  {b' : Bounds} {t : Ty} {name : String}

/-- The bounds are made of firm members, and nothing is converted. -/
structure HoldsFirm (u : Universe) (g : Graph) : Prop where
  wellFormed : g.WellFormed
  quiet : g.lattice.Quiet
  tidy : g.Tidy (FirmMember u)

theorem HoldsFirm.empty (tag : Nat) {lattice : Lattice} (policy : Policy) (hq : lattice.Quiet) :
    HoldsFirm u { tag, lattice, policy } where
  wellFormed := .empty tag lattice policy
  quiet := hq
  tidy := .empty ..

theorem Tidy.settled (h : g.Tidy (FirmMember u)) : g.Tidy (Settled u) :=
  ⟨h.keyed, fun side x t ht => (h.admissible side x t ht).settled⟩

theorem Tidy.unmasked_resolved (h : g.Tidy (FirmMember u)) (x : VarId) :
    Unmasked (g.boundsOf x).resolved := by
  have hmember (side : Side) {m : String × Ty} (hm : m ∈ (g.boundsOf x).side side) : Unmasked m.2 :=
    (h.admissible side x m.2 (Members.mem_types.2 ⟨m, hm, rfl⟩)).unmasked
  refine Bounds.type_of_sides (fun k y hy => ?_) (fun side m hm => hmember side hm)
    fun side hlen => ?_
  · cases List.mem_singleton.1 (show Ty.inter [(k, y)] ∈ [Ty.mixed] from hy)
  · exact unmasked_container side (fun _ => Nat.ne_of_gt hlen) fun m hm => hmember side hm

/-! ## Filling in a record -/

/-- **One record was filled in**: it holds the members of `b'` now, which are those from before or,
on a side that was empty, the parts of the type that the record resolves to. -/
structure Filled (x : VarId) (b' : Bounds) (g g' : Graph) : Prop where
  edges : SameEdges g g'
  elsewhere : ∀ y, y ≠ x → ∀ side, (g'.boundsOf y).side side = (g.boundsOf y).side side
  here : ∀ side, (g'.boundsOf x).side side = b'.side side
  filled : ∀ side, b'.side side = (g.boundsOf x).side side ∨
    (g.boundsOf x).side side = [] ∧
    b'.side side = Members.ofTypes (side.parts (g.boundsOf x).resolved.copy)

theorem Filled.has_ne (h : Filled x b' g g') (hy : y ≠ x) (side : Side) :
    g'.has side y = g.has side y := by
  rw [has, h.elsewhere y hy, has]

theorem Filled.has_self (h : Filled x b' g g') (side : Side) :
    g'.has side x = Members.types (b'.side side) := by
  rw [has, h.here]

/-- What fixing writes is as firm as what was there. -/
theorem Filled.firmMember (hu : u.Legible) (h : Filled x b' g g') (htidy : g.Tidy (FirmMember u))
    (ht : t ∈ Members.types (b'.side side)) : FirmMember u side t := by
  rcases h.filled side with hside | ⟨-, hside⟩
  · exact htidy.admissible side x t (by rwa [has, ← hside])
  · have hcf := htidy.settled.convertibleFree_resolved hu x
    rw [hside, hcf.copy_eq hu.toSound] at ht
    exact (htidy.unmasked_resolved x).member_of_mem_parts hu.toSound hcf
      (Members.mem_of_mem_types_ofTypes ht)

theorem Filled.tidy (hu : u.Legible) (h : Filled x b' g g') (htidy : g.Tidy (FirmMember u)) :
    g'.Tidy (FirmMember u) := by
  constructor
  · intro side y
    by_cases hy : y = x
    · rw [hy, h.here]
      rcases h.filled side with hside | ⟨-, hside⟩
      · exact hside ▸ htidy.keyed side x
      · exact hside ▸ Members.keyed_ofTypes _
    · rw [h.elsewhere y hy]
      exact htidy.keyed side y
  · intro side y t ht
    by_cases hy : y = x
    · rw [hy, h.has_self] at ht
      exact h.firmMember hu htidy ht
    · rw [h.has_ne hy] at ht
      exact htidy.admissible side y t ht

theorem onward_eq_of_sameEdges (h : SameEdges g g') (side : Side) (x : VarId) :
    g'.onward side x = g.onward side x := by
  cases side with
  | lower => rw [onward, above, h.above]; rfl
  | upper => rw [onward, below, h.below]; rfl

theorem filled_fixVariable (hwf : g.WellFormed) {r : Reference} (hr : g.names.get? name = some r)
    (hg : g.fixVariable name = .ok g') : Filled r.id (g.boundsOf r.id).completed g g' := by
  obtain ⟨r', hr', rfl⟩ := fixVariable_eq_ok.1 hg
  obtain rfl : r = r' := Option.some.inj (hr.symm.trans hr')
  set g₀ : Graph := { g with names := g.names.insert name { r with fixed := true } }
  have hid : r.id ∈ g₀.ids := hwf.denoted name r hr
  have hedges : SameEdges g₀ (g₀.update r.id fun b => { b.completed with frozen := true }) :=
    sameEdges_update fun b => ⟨below_completed b, above_completed b⟩
  refine ⟨⟨hedges.ids, hedges.below, hedges.above⟩, fun y hy side => ?_, fun side => ?_, ?_⟩
  · rw [boundsOf_update_ne hy]
    rfl
  · rw [boundsOf_update_self hid]
    cases side <;> rfl
  · exact Bounds.side_completed _

theorem filled_fixParameter (hg : g.fixParameter x = .ok g') :
    Filled x (g.boundsOf x).defaulted g g' := by
  obtain ⟨hid, rfl⟩ := fixParameter_eq_ok.1 hg
  have hedges :
      SameEdges (g.pin x) ((g.pin x).update x fun b => { b.defaulted with frozen := true }) :=
    sameEdges_update fun b => ⟨below_defaulted b, above_defaulted b⟩
  refine ⟨⟨hedges.ids, hedges.below, hedges.above⟩, fun y hy side => ?_, fun side => ?_, ?_⟩
  · rw [boundsOf_update_ne hy]
    rfl
  · rw [boundsOf_update_self (show x ∈ (g.pin x).ids from hid)]
    cases side <;> rfl
  · exact Bounds.side_defaulted _

/-! ## The edges that lead across no harmed variable -/

/-- An edge with none of the variables in `E` at its ends or between them. -/
def Clear (E : VarId → Prop) (side : Side) (g : Graph) (x y : VarId) : Prop :=
  y ∈ g.onward side x ∧ ∀ z, (z = x ∨ z ∈ g.onward side x) → (y = z ∨ y ∈ g.onward side z) → ¬E z

/-- Without conversions and away from `E`, whatever a bound holds is covered at the other end. -/
def FlowsClear (u : Universe) (E : VarId → Prop) (g : Graph) : Prop :=
  ∀ side, g.Flows (FirmMember u) side (g.Clear E side)

theorem Clear.of_onward_eq (honward : ∀ x, g'.onward side x = g.onward side x)
    (h : g'.Clear E side x y) : g.Clear E side x y := by
  unfold Clear at h ⊢
  simpa only [honward] using h

theorem Clear.mono (hE : ∀ z, E z → E' z) (h : g.Clear E' side x y) : g.Clear E side x y :=
  ⟨h.1, fun z hxz hzy hz => h.2 z hxz hzy (hE z hz)⟩

/-- A new edge from `a` to `b`, closed under transitivity: what is between the ends of the old edges
that it makes longer is between the new ends. -/
theorem Clear.across (hcrosses : Crosses side a b g g₁) (h : g₁.Clear E side x y) :
    g.Clear E side x y ∨ (x = a ∨ g.Clear E side x a) ∧ (y = b ∨ g.Clear E side b y) := by
  have hold (x y : VarId) (hxy : y ∈ g.onward side x) : y ∈ g₁.onward side x :=
    (hcrosses.onward x y).2 (.inl hxy)
  have hnew (x y : VarId) (hxa : x = a ∨ a ∈ g.onward side x) (hby : y = b ∨ y ∈ g.onward side b) :
      y = x ∨ y ∈ g₁.onward side x :=
    or_iff_not_imp_left.2 fun hne => (hcrosses.onward x y).2 (.inr ⟨hxa, hby, hne⟩)
  obtain ⟨hxy, hclear⟩ := h
  rcases (hcrosses.onward x y).1 hxy with hxy | ⟨hxa, hby, -⟩
  · exact .inl ⟨hxy, fun z hxz hzy => hclear z (hxz.imp id (hold x z)) (hzy.imp id (hold z y))⟩
  · refine .inr ⟨hxa.imp id fun hxa => ⟨hxa, fun z hxz hza => ?_⟩,
      hby.imp id fun hby => ⟨hby, fun z hbz hzy => ?_⟩⟩
    · exact hclear z (hxz.imp id (hold x z)) (hnew z y (hza.imp Eq.symm id) hby)
    · exact hclear z (hnew x z hxa hbz) (hzy.imp id (hold z y))

/-! ## The flow of bounds, as the graph sees it -/

/-- **Bounds flow along an edge**: every member of the lower bound at its lower end is a subtype of
some member of the lower bound at the other, and every member of the upper bound at its upper end
has a subtype in the upper bound at the other. -/
def FlowsAlong (g : Graph) (x y : VarId) : Prop :=
  (∀ t ∈ Members.types (g.boundsOf x).lower, ∃ e ∈ Members.types (g.boundsOf y).lower,
    g.isSubtype t e) ∧
  ∀ t ∈ Members.types (g.boundsOf y).upper, ∃ e ∈ Members.types (g.boundsOf x).upper,
    g.isSubtype e t

/-- Bounds flow along every edge. -/
def BoundsFlow (g : Graph) : Prop := ∀ x y, x ∈ (g.boundsOf y).below → g.FlowsAlong x y

/-- The neighbours of a variable know all that the record `b` says of it. -/
def Shares (g : Graph) (x : VarId) (b : Bounds) : Prop :=
  (∀ y ∈ (g.boundsOf x).above, y ≠ x → ∀ t ∈ Members.types b.lower,
    ∃ e ∈ Members.types (g.boundsOf y).lower, g.isSubtype t e) ∧
  ∀ y ∈ (g.boundsOf x).below, y ≠ x → ∀ t ∈ Members.types b.upper,
    ∃ e ∈ Members.types (g.boundsOf y).upper, g.isSubtype e t

/-- The variable that a call fixes, and the record it is given. -/
def fixing? (g : Graph) : Call → Option (VarId × Bounds)
  | .fixVariable name => (g.names.get? name).map fun r => (r.id, (g.boundsOf r.id).completed)
  | .fixParameter id => some (id, (g.boundsOf id).defaulted)
  | _ => none

/-- **A call harms a variable** if it fixes it and a neighbour does not know what is written. -/
def Harms (g : Graph) (c : Call) (z : VarId) : Prop :=
  ∃ b, g.fixing? c = some (z, b) ∧ ¬g.Shares z b

/-- `z` is one of the ends of an edge from `x` to `y`, or has edges from the one and to the
other. -/
def Between (g : Graph) (x z y : VarId) : Prop :=
  (z = x ∨ x ∈ (g.boundsOf z).below) ∧ (y = z ∨ z ∈ (g.boundsOf y).below)

section

variable (hu : u.Legible) (h : g.HoldsFirm u)

include hu h

theorem HoldsFirm.entails_iff (ht : FirmMember u side t) :
    g.Entails (FirmMember u) side y t ↔ ∃ e ∈ g.has side y, g.supersedes side e t := by
  have hP := admits_firmMember hu
  constructor
  · rintro ⟨e, he, hte⟩
    refine ⟨e, he,
      (supersedes_iff hu (h.tidy.convertibleFree hP he) ht.settled.convertibleFree).2 ?_⟩
    exact hte.covered hP (chains_firmMember hu side) ht
  · rintro ⟨e, he, hte⟩
    refine .of_covers h.tidy ht ⟨e, he, ?_⟩
    exact (supersedes_iff hu (h.tidy.convertibleFree hP he) ht.settled.convertibleFree).1 hte

theorem HoldsFirm.flowsAlong_iff : g.FlowsAlong x y ↔
    (∀ t ∈ g.has .lower x, g.Entails (FirmMember u) .lower y t) ∧
      ∀ t ∈ g.has .upper y, g.Entails (FirmMember u) .upper x t := by
  refine and_congr (forall₂_congr fun t ht => ?_) (forall₂_congr fun t ht => ?_)
  · exact (h.entails_iff hu (h.tidy.admissible .lower x t ht)).symm
  · exact (h.entails_iff hu (h.tidy.admissible .upper y t ht)).symm

/-- Along the clear edges bounds flow, as the graph sees it. -/
theorem HoldsFirm.flowsAlong (hflows : g.FlowsClear u E) (hxy : x ∈ (g.boundsOf y).below)
    (hclear : ∀ z, g.Between x z y → ¬E z) : g.FlowsAlong x y := by
  refine (h.flowsAlong_iff hu).2 ⟨fun t ht => ?_, fun t ht => ?_⟩
  · refine hflows .lower x y ⟨h.wellFormed.mem_onward_lower.2 hxy, fun z hxz hzy => ?_⟩ t ht
    rw [h.wellFormed.mem_onward_lower] at hxz hzy
    exact hclear z ⟨hxz, hzy⟩
  · refine hflows .upper y x ⟨mem_onward_upper.2 hxy, fun z hyz hzx => ?_⟩ t ht
    rw [mem_onward_upper] at hyz hzx
    exact hclear z ⟨hzx.imp Eq.symm id, hyz.imp Eq.symm id⟩

theorem HoldsFirm.flowsClear (hflow : g.BoundsFlow) : g.FlowsClear u fun _ => False := by
  intro side x y hxy t ht
  cases side with
  | lower =>
    exact ((h.flowsAlong_iff hu).1 (hflow x y (h.wellFormed.mem_onward_lower.1 hxy.1))).1 t ht
  | upper => exact ((h.flowsAlong_iff hu).1 (hflow y x (mem_onward_upper.1 hxy.1))).2 t ht

theorem HoldsFirm.shares_iff
    (hfirm : ∀ side, ∀ t ∈ Members.types (b'.side side), FirmMember u side t) :
    g.Shares x b' ↔ ∀ side, ∀ y ∈ g.onward side x, y ≠ x →
      ∀ t ∈ Members.types (b'.side side), g.Entails (FirmMember u) side y t := by
  constructor
  · intro hshares side y hy hne t ht
    rw [h.entails_iff hu (hfirm side t ht)]
    cases side with
    | lower => exact hshares.1 y (Natural.mem_sort.1 hy) hne t ht
    | upper => exact hshares.2 y (Natural.mem_sort.1 hy) hne t ht
  · intro hent
    refine ⟨fun y hy hne t ht => ?_, fun y hy hne t ht => ?_⟩
    · exact (h.entails_iff hu (hfirm .lower t ht)).1
        (hent .lower y (Natural.mem_sort.2 hy) hne t ht)
    · exact (h.entails_iff hu (hfirm .upper t ht)).1
        (hent .upper y (Natural.mem_sort.2 hy) hne t ht)

end

/-! ## One call -/

/-- What a call does to a graph where bounds flow away from `E`: they flow away from `E'` then. -/
def KeepsFlow (u : Universe) (E E' : VarId → Prop) (g g' : Graph) : Prop :=
  g'.HoldsFirm u ∧ (g.FlowsClear u E → g'.FlowsClear u E')

/-- **A new variable.** -/
theorem HoldsFirm.addVariable (h : g.HoldsFirm u) {r : Reference}
    (hwf : Graph.WellFormed { g.register r.id with names := g.names.insert name r }) :
    KeepsFlow u E E g { g.register r.id with names := g.names.insert name r } := by
  have hb (y : VarId) : Graph.boundsOf { g.register r.id with names := g.names.insert name r } y =
      g.boundsOf y := boundsOf_register
  have hhas (side : Side) (y : VarId) :
      Graph.has { g.register r.id with names := g.names.insert name r } side y = g.has side y := by
    rw [has, hb, has]
  refine ⟨⟨hwf, h.quiet, fun side y => hb y ▸ h.tidy.keyed side y, fun side y t ht => ?_⟩,
    fun hflows side => ?_⟩
  · exact h.tidy.admissible side y t (hhas side y ▸ ht)
  · refine (hflows side).of_has_eq (hhas side) fun x y => .of_onward_eq fun y => ?_
    cases side with
    | lower => rw [onward, above, hb]; rfl
    | upper => rw [onward, below, hb]; rfl

/-- **A new edge.** -/
theorem HoldsFirm.addEdge (h : g.HoldsFirm u) (ha : a ∈ g.ids) (hb : b ∈ g.ids)
    (hlower : Arrived (FirmMember u) .lower (g.has .lower a) b (g.linkAcross a b) g₁)
    (hupper : Arrived (FirmMember u) .upper (g₁.has .upper b) a g₁ g') : KeepsFlow u E E g g' := by
  have hsame : SameTypes g (g.linkAcross a b) := sameTypes_linkAcross
  have hshape := trans_of SameShape hlower.shape hupper.shape
  refine ⟨⟨(h.wellFormed.linkAcross ha hb).1.of_sameShape hshape, ?_, hupper.tidy⟩,
    fun hflows side => ?_⟩
  · exact hshape.lattice.trans hsame.lattice ▸ h.quiet
  obtain ⟨g₂, g₃, hcrosses, harr, hshape', hhas⟩ := h.wellFormed.crossed ha hb hlower hupper side
  have honward := onward_eq_of_sameShape (trans_of SameShape harr.shape hshape') side
  have hold (x y : VarId) (hxy : g.Clear E side x y) : y ∈ g₂.onward side x :=
    (hcrosses.onward x y).2 (.inl hxy.1)
  have hacross : g₃.Flows (FirmMember u) side (g'.Clear E side) :=
    (hflows side).across hcrosses.has_eq hold
      (fun x y hxy => (hxy.of_onward_eq honward).across hcrosses) harr
  exact hacross.of_has_eq hhas fun _ _ => id

/-- An edge from a variable to itself. -/
theorem HoldsFirm.linkSelf (h : g.HoldsFirm u) (ha : a ∈ g.ids) :
    KeepsFlow u E E g (g.link a a) := by
  have hwf := h.wellFormed.link ha ha
  have hsame : SameTypes g (g.link a a) := sameTypes_link
  have hhas := has_of_sameTypes hsame
  refine ⟨⟨hwf, hsame.lattice ▸ h.quiet, h.tidy.of_sameTypes hsame⟩,
    fun hflows side y z hyz t ht => ?_⟩
  by_cases hne : y = z
  · exact hne ▸ .of_mem ht
  have honward {v w : VarId} : w ∈ (g.link a a).onward side v ↔ w ∈ g.onward side v ∨
      w = a ∧ v = a := by
    cases side with
    | lower => rw [hwf.mem_onward_lower, mem_below_link ha, h.wellFormed.mem_onward_lower, and_comm]
    | upper => rw [mem_onward_upper, mem_below_link ha, mem_onward_upper]
  have hold : g.Clear E side y z := by
    refine ⟨(honward.1 hyz.1).resolve_right fun hyz => hne (hyz.2.trans hyz.1.symm),
      fun w hyw hwz => ?_⟩
    exact hyz.2 w (hyw.imp id fun hyw => honward.2 (.inl hyw))
      (hwz.imp id fun hwz => honward.2 (.inl hwz))
  rw [hhas] at ht
  rw [Entails, hhas]
  exact hflows side y z hold t ht

section

variable (hu : u.Legible) (h : g.HoldsFirm u)

include hu h

/-- **Fixing**, where the variable is in `E'` unless its neighbours know what is written. What flows
into the variable was there before, so nothing was written on that side. -/
theorem HoldsFirm.filled (hwf : g'.WellFormed) (hlattice : g'.lattice = g.lattice)
    (hf : Filled x b' g g') (hE : ∀ z, E z → E' z) (hshares : ¬E' x → g.Shares x b') :
    KeepsFlow u E E' g g' := by
  refine ⟨⟨hwf, hlattice ▸ h.quiet, hf.tidy hu h.tidy⟩, fun hflows side z y hzy t ht => ?_⟩
  replace hzy : g.Clear E' side z y := hzy.of_onward_eq (onward_eq_of_sameEdges hf.edges side)
  by_cases hz : z = x
  · subst hz
    by_cases hy : y = z
    · exact hy ▸ .of_mem ht
    · rw [hf.has_self] at ht
      rw [Entails, hf.has_ne hy]
      have hshared := hshares (hzy.2 z (.inl rfl) (.inr hzy.1))
      exact (h.shares_iff hu fun side t ht => hf.firmMember hu h.tidy ht).1 hshared side
        y hzy.1 hy t ht
  · rw [hf.has_ne hz] at ht
    have hent := hflows side z y (hzy.mono hE) t ht
    by_cases hy : y = x
    · subst hy
      obtain ⟨e, he, hte⟩ := hent
      refine ⟨e, ?_, hte⟩
      rcases hf.filled side with hside | ⟨hempty, -⟩
      · rwa [hf.has_self, hside]
      · rw [has, hempty] at he
        cases he
    · rwa [Entails, hf.has_ne hy]

/-- If bounds flow after a fixing, the neighbours knew what was written. -/
theorem HoldsFirm.shares_of_filled (h' : g'.HoldsFirm u) (hf : Filled x b' g g')
    (hflow : g'.BoundsFlow) : g.Shares x b' := by
  rw [h.shares_iff hu fun side t ht => hf.firmMember hu h.tidy ht]
  intro side y hy hne t ht
  rw [← hf.has_self] at ht
  rw [← onward_eq_of_sameEdges hf.edges] at hy
  have hent := h'.flowsClear hu hflow side x y ⟨hy, fun _ _ _ hfalse => hfalse⟩ t ht
  rwa [Entails, hf.has_ne hne] at hent

/-- **A new type.** -/
theorem HoldsFirm.addBound (side : Side) (ht : Plain u t)
    (hacc : (g.addBound side x t).fault = none) :
    KeepsFlow u E E g (g.addBound side x t).graph := by
  have hself : g.isSelf x t = false := ht.convertibleFree.isSelf_eq hu.toSound
  obtain ⟨hid, s, hspread, hgraph⟩ := addBound_accepted hself hacc
  have harr := spread_ok (admits_firmMember hu) h.quiet h.tidy h.wellFormed hid
    (fun m hm => ht.unmasked.member_of_mem_parts hu.toSound ht.convertibleFree hm) hspread
  rw [hgraph]
  refine ⟨⟨h.wellFormed.of_sameShape harr.shape, harr.shape.lattice ▸ h.quiet, harr.tidy⟩,
    fun hflows side' => ?_⟩
  have hclear (x y : VarId) : s.graph.Clear E side' x y → g.Clear E side' x y :=
    .of_onward_eq (onward_eq_of_sameShape harr.shape side')
  rcases side.eq_or_eq_other side' with rfl | rfl
  · intro x y hxy
    exact harr.flows _ (fun _ _ hxy => hxy.1) (hflows side') x y (hclear x y hxy)
  · refine (hflows side.other).of_has_eq (fun y => ?_) hclear
    rw [has, harr.other, has]

/-- **A mutable reference.** -/
theorem HoldsFirm.addRef {r : Option Reference} (hm : (Call.addRef x r).IsMutable)
    (hacc : (g.addRef x r).fault = none) : KeepsFlow u E E g (g.addRef x r).graph := by
  obtain ⟨r, rfl, hid, hr, hcases⟩ := addRef_accepted hacc
  rcases hcases with ⟨rfl, hgraph | hgraph⟩ | ⟨-, s, hgraph, hrun⟩
  · rw [hgraph]
    exact ⟨h, id⟩
  · rw [hgraph]
    exact h.linkSelf hid
  · rw [hgraph]
    rw [show r.fixed = false from hm] at hrun
    rcases addEdge_ok (admits_firmMember hu) h.quiet h.tidy h.wellFormed hr hid hrun with
      ⟨-, hs⟩ | ⟨-, g₁, hlower, hupper⟩
    · rw [hs]
      exact ⟨h, id⟩
    · exact h.addEdge hr hid hlower hupper

end

end Graph

/-- A call that fixes a variable. -/
def Call.Fixes : Call → Prop
  | fixVariable _ => True
  | fixParameter _ => True
  | _ => False

open TypeBounds.Graph

variable {u : Universe} {g : Graph} {c : Call} {calls : List Call} {E : VarId → Prop}

theorem attempt_eq {r : Except Misuse Graph} (h : (g.attempt r).fault = none) :
    r = .ok (g.attempt r).graph := by
  cases r with
  | error m => cases h
  | ok g' => rfl

/-- What an accepted fixing fills in is what `fixing?` says. -/
theorem Call.filled_outcome (hwf : g.WellFormed) (hc : c.Fixes)
    (hacc : (c.outcome g).fault = none) :
    ∃ x b, g.fixing? c = some (x, b) ∧ (c.outcome g).graph.lattice = g.lattice ∧
      Filled x b g (c.outcome g).graph := by
  cases c with
  | fixVariable name =>
    have hg := attempt_eq hacc
    obtain ⟨r, hr, hg'⟩ := fixVariable_eq_ok.1 hg
    refine ⟨r.id, _, by rw [fixing?, hr]; rfl, ?_, filled_fixVariable hwf hr hg⟩
    rw [Call.outcome, hg']
    rfl
  | fixParameter id =>
    have hg := attempt_eq hacc
    obtain ⟨-, hg'⟩ := fixParameter_eq_ok.1 hg
    refine ⟨id, _, rfl, ?_, filled_fixParameter hg⟩
    rw [Call.outcome, hg']
    rfl
  | _ => exact hc.elim

theorem Call.Builds.not_harms {T : Ty → Prop} (hc : c.Builds T) (z : VarId) : ¬g.Harms c z := by
  rintro ⟨b, hfixing, -⟩
  cases c with
  | addVariable | addLower | addUpper | addRef => cases hfixing
  | _ => exact hc.elim

section

variable (hu : u.Legible) (h : g.HoldsFirm u) (hc : c.Builds (Plain u) ∨ c.Fixes) (hm : c.IsMutable)
  (hacc : (c.outcome g).fault = none)

include hu h hc hm hacc

/-- **One accepted call.** Bounds flow along the edges that are clear of what it harms too. -/
theorem Graph.HoldsFirm.outcome :
    KeepsFlow u E (fun z => E z ∨ g.Harms c z) g (c.outcome g).graph := by
  have hwf := c.wellFormed_outcome h.wellFormed
  rcases hc with hc | hc
  · have hE : (fun z => E z ∨ g.Harms c z) = E :=
      funext fun z => propext (or_iff_left (hc.not_harms z))
    rw [hE]
    cases c with
    | addVariable name r =>
      obtain ⟨r', rfl, hgraph⟩ := addVariable_accepted hacc
      rw [hgraph] at hwf ⊢
      exact h.addVariable hwf
    | addLower id t => exact h.addBound hu .lower hc hacc
    | addUpper id t => exact h.addBound hu .upper hc hacc
    | addRef id r => exact h.addRef hu hm hacc
    | _ => exact hc.elim
  · obtain ⟨x, b, hfixing, hlattice, hf⟩ := c.filled_outcome h.wellFormed hc hacc
    refine h.filled hu hwf hlattice hf (fun z => .inl) fun hx => ?_
    exact not_not.1 fun hshares => hx (.inr ⟨b, hfixing, hshares⟩)

/-- If bounds flow before and after a call, it has harmed nothing. -/
theorem Graph.HoldsFirm.not_harms (hflow : (c.outcome g).graph.BoundsFlow)
    (z : VarId) : ¬g.Harms c z := by
  have h' := (h.outcome (E := fun _ => False) hu hc hm hacc).1
  rcases hc with hc | hc
  · exact hc.not_harms z
  · obtain ⟨x, b, hfixing, -, hf⟩ := c.filled_outcome h.wellFormed hc hacc
    rintro ⟨b', hfixing', hshares⟩
    cases hfixing.symm.trans hfixing'
    exact hshares (h.shares_of_filled hu h' hf hflow)

end

/-! ## A whole run -/

/-- The variables that the calls of a run have harmed. -/
def Graph.Harmed (g : Graph) (calls : List Call) (z : VarId) : Prop :=
  ∃ done c, done ++ [c] <+: calls ∧ (g.after done).Harms c z

/-- **A run of accepted calls**, by induction from its end. -/
theorem Graph.HoldsFirm.after (hu : u.Legible) (h : g.HoldsFirm u) (hflow : g.BoundsFlow)
    (hcalls : ∀ c ∈ calls, (c.Builds (Plain u) ∨ c.Fixes) ∧ c.IsMutable) (hacc : g.accepts calls) :
    (g.after calls).HoldsFirm u ∧ (g.after calls).FlowsClear u (g.Harmed calls) := by
  induction calls using List.reverseRecOn with
  | nil =>
    exact ⟨h, fun side x y hxy => h.flowsClear hu hflow side x y (hxy.mono fun z hz => hz.elim)⟩
  | append_singleton calls c ih =>
    obtain ⟨hacc, hlast⟩ := accepts_append.1 hacc
    obtain ⟨hc, hm⟩ := hcalls c (List.mem_append_right _ (List.mem_singleton_self c))
    obtain ⟨h', hflows⟩ := ih (fun c' hc' => hcalls c' (List.mem_append_left _ hc')) hacc
    obtain ⟨h'', hkeeps⟩ := h'.outcome (E := g.Harmed calls) hu hc hm (accepts_cons.1 hlast).1
    rw [after_concat]
    refine ⟨h'', fun side x y hxy => hkeeps hflows side x y (hxy.mono ?_)⟩
    rintro z (⟨done, c', hdone, hz⟩ | hz)
    · exact ⟨done, c', hdone.trans (List.prefix_append calls [c]), hz⟩
    · exact ⟨calls, c, List.prefix_rfl, hz⟩

/-- **Fixing and the flow of bounds.** Without implicit conversions, let variables, plain types and
mutable references be added and variables be fixed, in any order, and let every call be accepted.
Then bounds flow along every edge, unless a variable at its ends or between them was harmed when it
was fixed. And a call that harms a variable does stop the flow, if there was one along every
edge. -/
theorem bounds_flow_unless_harmed {decls : List TypeDecl} {u : Universe}
    (hu : Universe.ofDecls decls = .ok u)
    (hnames : ∀ name ∈ u.types.keys, IsIdentifier name ∧ name ≠ "nothing") (tag : Nat)
    {lattice : Lattice} (policy : Policy) (hq : lattice.Quiet) {calls : List Call}
    (hcalls : ∀ c ∈ calls, (c.Builds (Plain u) ∨ c.Fixes) ∧ c.IsMutable)
    (hacc : Graph.accepts { tag, lattice, policy } calls) :
    let run := Graph.after { tag, lattice, policy }
    (∀ x y, x ∈ ((run calls).boundsOf y).below → (run calls).FlowsAlong x y ∨
      ∃ done c z, done ++ [c] <+: calls ∧ (run done).Harms c z ∧ (run calls).Between x z y) ∧
    ∀ done c, done ++ [c] <+: calls → (run done).BoundsFlow →
      ((run (done ++ [c])).BoundsFlow ↔ ∀ z, ¬(run done).Harms c z) := by
  intro run
  have hlegible := Universe.legible_of_ofDecls hu hnames
  have hstart : HoldsFirm u { tag, lattice, policy } := .empty tag policy hq
  have hflow : Graph.BoundsFlow { tag, lattice, policy } := fun x y hxy => nomatch hxy
  refine ⟨fun x y hxy => ?_, ?_⟩
  · obtain ⟨h, hflows⟩ := hstart.after hlegible hflow hcalls hacc
    rw [or_iff_not_imp_right]
    intro hnone
    refine h.flowsAlong hlegible hflows hxy fun z hz => ?_
    rintro ⟨done, c, hdone, hharms⟩
    exact hnone ⟨done, c, z, hdone, hharms, hz⟩
  · rintro done c ⟨rest, rfl⟩ hdone
    rw [List.append_assoc] at hcalls hacc
    obtain ⟨hacc, hrest⟩ := accepts_append.1 hacc
    obtain ⟨hc, hm⟩ := hcalls c (List.mem_append_right _ List.mem_cons_self)
    have hfirst := (accepts_cons.1 hrest).1
    obtain ⟨h, -⟩ :=
      hstart.after hlegible hflow (fun c' hc' => hcalls c' (List.mem_append_left _ hc')) hacc
    rw [show run (done ++ [c]) = (c.outcome (run done)).graph from after_concat]
    refine ⟨h.not_harms hlegible hc hm hfirst, fun hnone x y hxy => ?_⟩
    obtain ⟨h', hkeeps⟩ := h.outcome hlegible hc hm hfirst
    refine h'.flowsAlong hlegible (hkeeps (h.flowsClear hlegible hdone)) hxy fun z _ => ?_
    exact not_or.2 ⟨not_false, hnone z⟩

/-- A variable that is fixed before another one flows into it. -/
def fixedThenLinked : List Call :=
  [.addVariable "$s" (some { id := "S" }), .addVariable "$t" (some { id := "T" }),
    .addLower "T" circle, .fixVariable "$t", .addRef "T" (some { id := "S" })]

theorem bounds_flow_unless_harmed_fixedThenLinked :
    let g := Graph.after { tag := 1 } fixedThenLinked
    "S" ∈ (g.boundsOf "T").below ∧ circle ∈ Members.types (g.boundsOf "T").upper ∧
      g.FlowsAlong "S" "T" := by
  have hcalls : ∀ c ∈ fixedThenLinked, (c.Builds (Plain shapes) ∨ c.Fixes) ∧ c.IsMutable := by
    simp [fixedThenLinked, Call.Builds, Call.Fixes, Call.IsMutable, plain_circle]
  have hedge : "S" ∈ ((Graph.after { tag := 1 } fixedThenLinked).boundsOf "T").below := by
    decide +kernel
  obtain ⟨hflows, -⟩ :=
    bounds_flow_unless_harmed ofDecls_shapes (by decide) 1 .plain .empty hcalls (by decide +kernel)
  refine ⟨hedge, List.mem_singleton_self circle, (hflows "S" "T" hedge).resolve_right ?_⟩
  rintro ⟨done, c, z, hdone, ⟨b, hfixing, hshares⟩, -⟩
  -- "$t" has no neighbours yet when it is fixed, and no other call fixes anything
  have hcases : done = fixedThenLinked.take 3 ∧ c = .fixVariable "$t" := by
    rcases done with _ | ⟨_, _ | ⟨_, _ | ⟨_, _ | ⟨_, _ | ⟨_, _⟩⟩⟩⟩⟩ <;>
      simp_all [fixedThenLinked, fixing?]
  obtain ⟨rfl, rfl⟩ := hcases
  cases hfixing
  refine hshares ?_
  constructor
  · intro y hy
    cases hy
  · intro y hy
    cases hy

/-- A variable that is fixed when another one flows into it already. -/
def linkedThenFixed : List Call :=
  [.addVariable "$s" (some { id := "S" }), .addVariable "$t" (some { id := "T" }),
    .addRef "T" (some { id := "S" }), .addLower "T" circle, .fixVariable "$t"]

/-- **The bound is lost**: nothing that may flow into the fixed variable is held to its type. -/
theorem not_boundsFlow_linkedThenFixed :
    Graph.accepts { tag := 1 } linkedThenFixed ∧
      ¬(Graph.after { tag := 1 } linkedThenFixed).BoundsFlow := by
  refine ⟨by decide +kernel, fun hflow => ?_⟩
  obtain ⟨e, he, -⟩ := (hflow "S" "T" (by decide +kernel)).2 circle (List.mem_singleton_self circle)
  cases (he : e ∈ [])

end TypeBounds
