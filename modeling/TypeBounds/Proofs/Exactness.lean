import TypeBounds.Proofs.Accepted
import TypeBounds.Proofs.Flow

/-!
# Propagation is exact

Where nothing is converted, the bounds of a variable are exactly what the types added to it and to
its neighbours demand, however the calls were ordered and whatever cycles they made. A graph is
compared with a record of the calls: the edges `D` that were added and the types `B` that were added
on each side.

* `Graph.Exact`: the graph is what the record demands. Its edges are the transitive closure of `D`,
  and on each side everything flows along the edges (`Graph.Supplied`);
* `Exact.addBound`, `Exact.addEdge`: what one call preserves, and `Exact.after`, what all of them
  do;
* `edges_and_bounds_of_accepts`: the result for plain types.
-/

namespace TypeBounds

open Infer Relation

/-! ## Reaching along edges -/

/-- With one more edge, a path is one from before, or one to the new edge and one from it on. -/
theorem reflTransGen_or_edge {α : Type} {D : α → α → Prop} {a b x y : α} :
    ReflTransGen (fun x y => D x y ∨ x = a ∧ y = b) x y ↔
      ReflTransGen D x y ∨ ReflTransGen D x a ∧ ReflTransGen D b y := by
  constructor
  · intro h
    induction h with
    | refl => exact .inl .refl
    | @tail y z _ hstep ih =>
      rcases hstep with hstep | ⟨rfl, rfl⟩
      · rcases ih with ih | ⟨hxa, hby⟩
        · exact .inl (ih.tail hstep)
        · exact .inr ⟨hxa, hby.tail hstep⟩
      · rcases ih with ih | ⟨hxa, -⟩
        · exact .inr ⟨ih, .refl⟩
        · exact .inr ⟨hxa, .refl⟩
  · have hold {x y : α} (h : ReflTransGen D x y) :
        ReflTransGen (fun x y => D x y ∨ x = a ∧ y = b) x y :=
          ReflTransGen.mono (fun _ _ => .inl) _ _ h
    rintro (h | ⟨hxa, hby⟩)
    · exact hold h
    · exact ((hold hxa).tail (.inr ⟨rfl, rfl⟩)).trans (hold hby)

/-- Along the edges `D`, what is added to `x` on this side has to get to `y`. -/
def Side.Leads (side : Side) (D : VarId → VarId → Prop) (x y : VarId) : Prop :=
  match side with
  | .lower => ReflTransGen D x y
  | .upper => ReflTransGen D y x

namespace Side.Leads

variable {side : Side} {D D' : VarId → VarId → Prop} {x y z : VarId}

theorem refl (side : Side) (D : VarId → VarId → Prop) (x : VarId) : side.Leads D x x := by
  cases side <;> exact ReflTransGen.refl

theorem trans (h : side.Leads D x y) (h' : side.Leads D y z) : side.Leads D x z := by
  cases side with
  | lower => exact ReflTransGen.trans h h'
  | upper => exact ReflTransGen.trans h' h

theorem mono (hD : ∀ x y, D x y → D' x y) (h : side.Leads D x y) : side.Leads D' x y := by
  cases side <;> exact ReflTransGen.mono hD _ _ h

end Side.Leads

namespace Graph

variable {u : Universe} {P : Side → Ty → Prop} {D D' : VarId → VarId → Prop}
  {B B' : Side → VarId → Ty → Prop} {g g' g₁ : Graph} {side : Side} {a b x y : VarId} {t : Ty}
  {ms : List Ty}

/-! ## New edges -/

theorem mem_onward_upper : y ∈ g.onward .upper x ↔ y ∈ (g.boundsOf x).below := Natural.mem_sort

theorem WellFormed.mem_onward_lower (h : g.WellFormed) :
    y ∈ g.onward .lower x ↔ x ∈ (g.boundsOf y).below :=
  Natural.mem_sort.trans (h.mirrored x y).symm

/-- The bounds of `g` on this side, and besides its edges one from `a` to `b`, closed under
transitivity. -/
structure Crosses (side : Side) (a b : VarId) (g g₁ : Graph) : Prop where
  has_eq : ∀ x, g₁.has side x = g.has side x
  onward : ∀ x y, y ∈ g₁.onward side x ↔ y ∈ g.onward side x ∨
    (x = a ∨ a ∈ g.onward side x) ∧ (y = b ∨ y ∈ g.onward side b) ∧ y ≠ x

/-- On the side of upper bounds the ends change places. -/
theorem WellFormed.crosses (h : g.WellFormed) (ha : a ∈ g.ids) (hb : b ∈ g.ids) (side : Side) :
    Crosses side (side.either a b) (side.either b a) g (g.linkAcross a b) := by
  obtain ⟨hwf, hlinked⟩ := h.linkAcross ha hb
  refine ⟨has_of_sameTypes sameTypes_linkAcross side, fun x y => ?_⟩
  cases side with
  | lower =>
    rw [hwf.mem_onward_lower, hlinked, h.mem_onward_lower, h.mem_onward_lower,
      h.mem_onward_lower, ← h.mirrored, ne_comm]
    rfl
  | upper =>
    rw [mem_onward_upper, hlinked, mem_onward_upper, mem_onward_upper,
      mem_onward_upper, ← h.mirrored, and_left_comm]
    rfl

theorem Crosses.leads (h : Crosses side a b g g₁)
    (hstep : ∀ x y, y ∈ g.onward side x → side.Leads D x y) (hab : side.Leads D a b)
    (hxy : y ∈ g₁.onward side x) : side.Leads D x y := by
  have hmay {x y : VarId} (hxy : x = y ∨ y ∈ g.onward side x) : side.Leads D x y := by
    rcases hxy with rfl | hxy
    · exact .refl ..
    · exact hstep x y hxy
  rcases (h.onward x y).1 hxy with hxy | ⟨hxa, hby, -⟩
  · exact hstep x y hxy
  · exact ((hmay hxa).trans hab).trans (hmay (hby.imp_left Eq.symm))

/-- **A new edge** after the bounds of its ends have flowed across, as seen on either side. -/
theorem WellFormed.crossed (h : g.WellFormed) (ha : a ∈ g.ids) (hb : b ∈ g.ids)
    (hlower : Arrived P .lower (g.has .lower a) b (g.linkAcross a b) g₁)
    (hupper : Arrived P .upper (g₁.has .upper b) a g₁ g') (side : Side) :
    ∃ g₂ g₃, Crosses side (side.either a b) (side.either b a) g g₂ ∧
      Arrived P side (g.has side (side.either a b)) (side.either b a) g₂ g₃ ∧
      SameShape g₃ g' ∧ ∀ x, g'.has side x = g₃.has side x := by
  have hcrosses := h.crosses ha hb side
  cases side with
  | lower =>
    exact ⟨_, g₁, hcrosses, hlower, hupper.shape, fun x => congrArg Members.types (hupper.other x)⟩
  | upper =>
    have hhas (x : VarId) : g₁.has .upper x = g.has .upper x :=
      (congrArg Members.types (hlower.other x)).trans (hcrosses.has_eq x)
    refine ⟨g₁, g', ⟨hhas, fun x y => ?_⟩, hhas b ▸ hupper, refl_of SameShape g', fun _ => rfl⟩
    rw [onward_eq_of_sameShape hlower.shape]
    exact hcrosses.onward x y

/-! ## One side -/

theorem Flows.of_has_eq {R R' : VarId → VarId → Prop} (h : g.Flows P side R)
    (hhas : ∀ x, g'.has side x = g.has side x) (hR : ∀ x y, R' x y → R x y) :
    g'.Flows P side R' := by
  intro x y hxy t ht
  rw [hhas] at ht
  rw [Entails, hhas]
  exact h x y (hR x y hxy) t ht

/-- **New edges** from everything that leads to `a` to everything that `b` leads to. It is enough
that the bound of `a` has arrived at `b`. -/
theorem Flows.across {R R' : VarId → VarId → Prop} (h : g.Flows P side R)
    (hhas : ∀ x, g₁.has side x = g.has side x) (hold : ∀ x y, R x y → y ∈ g₁.onward side x)
    (hR : ∀ x y, R' x y → R x y ∨ (x = a ∨ R x a) ∧ (y = b ∨ R b y))
    (harr : Arrived P side (g.has side a) b g₁ g') : g'.Flows P side R' := by
  have hflows : g'.Flows P side R := harr.flows _ hold (h.of_has_eq hhas fun _ _ hxy => hxy)
  -- nothing new has come to `a`, so all that it holds has arrived at `b`
  have hb : ∀ e ∈ g'.has side a, g'.Entails P side b e := by
    intro e he
    rcases harr.origin a e he with he | he
    · exact harr.absorbed e (hhas a ▸ he)
    · exact harr.absorbed e he
  intro x y hxy e he
  rcases hR x y hxy with hxy | ⟨hxa, hby⟩
  · exact hflows x y hxy e he
  · have hea : g'.Entails P side a e := by
      rcases hxa with rfl | hxa
      · exact .of_mem he
      · exact hflows x a hxa e he
    obtain ⟨e₁, he₁, hee₁⟩ := hea
    obtain ⟨e₂, he₂, he₁e₂⟩ := hb e₁ he₁
    rcases hby with rfl | hby
    · exact ⟨e₂, he₂, hee₁.trans he₁e₂⟩
    · obtain ⟨e₃, he₃, he₂e₃⟩ := hflows b y hby e₂ he₂
      exact ⟨e₃, he₃, (hee₁.trans he₁e₂).trans he₂e₃⟩

/-- Along all edges, whatever a bound holds is covered at the other end. -/
def FlowsOn (P : Side → Ty → Prop) (side : Side) (g : Graph) : Prop :=
  g.Flows P side fun x y => y ∈ g.onward side x

theorem FlowsOn.of_has_eq (h : g.FlowsOn P side) (hhas : ∀ x, g'.has side x = g.has side x)
    (honward : ∀ x, g'.onward side x = g.onward side x) : g'.FlowsOn P side :=
  Flows.of_has_eq h hhas fun x _ hxy => honward x ▸ hxy

/-- **A new type** has arrived from `a`. -/
theorem FlowsOn.arrived (h : g.FlowsOn P side) (harr : Arrived P side ms a g g') :
    g'.FlowsOn P side := by
  intro x y hxy
  replace hxy : y ∈ g.onward side x := onward_eq_of_sameShape harr.shape side x ▸ hxy
  exact harr.flows _ (fun _ _ hxy => hxy) h x y hxy

/-- The same of all edges, where `g₁` has the new ones. -/
theorem FlowsOn.across (h : g.FlowsOn P side) (hcrosses : Crosses side a b g g₁)
    (harr : Arrived P side (g.has side a) b g₁ g') : g'.FlowsOn P side := by
  refine Flows.across h hcrosses.has_eq (fun x y hxy => (hcrosses.onward x y).2 (.inl hxy))
    (fun x y hxy => ?_) harr
  rw [onward_eq_of_sameShape harr.shape, hcrosses.onward] at hxy
  exact hxy.imp_right fun hxy => ⟨hxy.1, hxy.2.1⟩

/-- **One side of all bounds is what it has to be**: everything flows along the edges, what was
added is entailed where it was added, and nothing is there that was not added further back. -/
structure Supplied (P : Side → Ty → Prop) (D : VarId → VarId → Prop) (B : Side → VarId → Ty → Prop)
    (side : Side) (g : Graph) : Prop where
  flows : g.FlowsOn P side
  asserted : ∀ x t, B side x t → ∀ p ∈ side.parts t, g.Entails P side x p
  origin : ∀ x, ∀ p ∈ g.has side x, ∃ y t, B side y t ∧ side.Leads D y x ∧ p ∈ side.parts t

/-- A change of other things does not matter. -/
theorem Supplied.of_has_eq (h : Supplied P D B side g) (hhas : ∀ x, g'.has side x = g.has side x)
    (honward : ∀ x, g'.onward side x = g.onward side x) (hD : ∀ x y, D x y → D' x y)
    (hB : ∀ x t, B' side x t ↔ B side x t) : Supplied P D' B' side g' where
  flows := h.flows.of_has_eq hhas honward
  asserted x t ht p hp := by
    rw [Entails, hhas]
    exact h.asserted x t ((hB x t).1 ht) p hp
  origin x p hp := by
    rw [hhas] at hp
    obtain ⟨y, t, ht, hyx, hpt⟩ := h.origin x p hp
    exact ⟨y, t, (hB y t).2 ht, hyx.mono hD, hpt⟩

theorem leads_of_reflTransGen (hstep : ∀ x y, y ∈ g.onward side x → side.Leads D x y)
    (h : ReflTransGen (fun x y => y ∈ g.onward side x) x y) : side.Leads D x y := by
  induction h with
  | refl => exact .refl side D x
  | tail _ hlast ih => exact ih.trans (hstep _ _ hlast)

/-- **A new type** on this side has arrived from `a`. -/
theorem Supplied.arrived (h : Supplied P D B side g)
    (hstep : ∀ x y, y ∈ g.onward side x → side.Leads D x y)
    (harr : Arrived P side (side.parts t) a g g') :
    Supplied P D (fun side' x t' => B side' x t' ∨ side' = side ∧ x = a ∧ t' = t) side g' where
  flows := h.flows.arrived harr
  asserted := by
    rintro x t' (ht | ⟨-, rfl, rfl⟩) p hp
    · exact harr.entails_of_entails (h.asserted x t' ht p hp)
    · exact harr.absorbed p hp
  origin x p hp := by
    have hold (hp : p ∈ g.has side x) := h.origin x p hp
    by_cases hx : ReflTransGen (fun x y => y ∈ g.onward side x) a x
    · rcases harr.origin x p hp with hp | hp
      · obtain ⟨y, t', ht', hyx, hpt⟩ := hold hp
        exact ⟨y, t', .inl ht', hyx, hpt⟩
      · exact ⟨a, t, .inr ⟨rfl, rfl, rfl⟩, leads_of_reflTransGen hstep hx, hp⟩
    · rw [has, harr.untouched x hx] at hp
      obtain ⟨y, t', ht', hyx, hpt⟩ := hold hp
      exact ⟨y, t', .inl ht', hyx, hpt⟩

theorem Supplied.across (h : Supplied P D B side g) (hcrosses : Crosses side a b g g₁)
    (hD : ∀ x y, D x y → D' x y) (hstep : ∀ x y, y ∈ g.onward side x → side.Leads D x y)
    (hab : side.Leads D' a b) (harr : Arrived P side (g.has side a) b g₁ g') :
    Supplied P D' B side g' where
  flows := h.flows.across hcrosses harr
  asserted x t ht p hp := by
    refine harr.entails_of_entails ?_
    rw [Entails, hcrosses.has_eq]
    exact h.asserted x t ht p hp
  origin x p hp := by
    have hbefore (hp : p ∈ g.has side x) : ∃ y t, B side y t ∧ side.Leads D' y x ∧
        p ∈ side.parts t := by
      obtain ⟨y, t, ht, hyx, hpt⟩ := h.origin x p hp
      exact ⟨y, t, ht, hyx.mono hD, hpt⟩
    have hleads : ∀ x y, y ∈ g₁.onward side x → side.Leads D' x y := fun _ _ =>
      hcrosses.leads (fun x y hxy => (hstep x y hxy).mono hD) hab
    by_cases hx : ReflTransGen (fun x y => y ∈ g₁.onward side x) b x
    · rcases harr.origin x p hp with hp | hp
      · exact hbefore (hcrosses.has_eq x ▸ hp)
      · obtain ⟨y, t, ht, hya, hpt⟩ := h.origin a p hp
        exact ⟨y, t, ht, ((hya.mono hD).trans hab).trans (leads_of_reflTransGen hleads hx), hpt⟩
    · rw [has, harr.untouched x hx] at hp
      exact hbefore (hcrosses.has_eq x ▸ hp)

/-! ## Whole graphs -/

/-- **The graph is what the record of the calls demands.** -/
structure Exact (P : Side → Ty → Prop) (D : VarId → VarId → Prop) (B : Side → VarId → Ty → Prop)
    (g : Graph) : Prop where
  wellFormed : g.WellFormed
  tidy : g.Tidy P
  antichain : ∀ side, g.Antichain side
  edges : ∀ x y, x ≠ y → (x ∈ (g.boundsOf y).below ↔ ReflTransGen D x y)
  supplied : ∀ side, Supplied P D B side g

namespace Exact

section

variable (h : Exact P D B g)

include h

/-- Only where the record leads do types go. -/
theorem leads (hxy : y ∈ g.onward side x) : side.Leads D x y := by
  have hedge {x y : VarId} (hxy : x ∈ (g.boundsOf y).below) : ReflTransGen D x y := by
    by_cases hne : x = y
    · rw [hne]
    · exact (h.edges x y hne).1 hxy
  cases side with
  | lower => exact hedge (h.wellFormed.mem_onward_lower.1 hxy)
  | upper => exact hedge (mem_onward_upper.1 hxy)

theorem congr (hD : ∀ x y, D x y ↔ D' x y)
    (hB : ∀ side x t, B side x t ↔ B' side x t) : Exact P D' B' g := by
  obtain rfl : D = D' := funext₂ fun x y => propext (hD x y)
  obtain rfl : B = B' := funext₃ fun side x t => propext (hB side x t)
  exact h

theorem of_boundsOf_eq (hwf : g'.WellFormed)
    (hb : ∀ x, g'.boundsOf x = g.boundsOf x) : Exact P D B g' where
  wellFormed := hwf
  tidy := ⟨fun side x => hb x ▸ h.tidy.keyed side x, fun side x t ht => by
    rw [has, hb] at ht
    exact h.tidy.admissible side x t ht⟩
  antichain side x t ht e he := by
    rw [has, hb] at ht he
    exact h.antichain side x t ht e he
  edges x y hne := hb y ▸ h.edges x y hne
  supplied side := by
    refine (h.supplied side).of_has_eq (fun x => ?_) (fun x => ?_) (fun _ _ => id) fun _ _ => .rfl
    · rw [has, hb, has]
    · cases side with
      | lower => rw [onward, above, hb]; rfl
      | upper => rw [onward, below, hb]; rfl

/-- **A type** was added at `a` and propagated. -/
theorem addBound (harr : Arrived P side (side.parts t) a g g') :
    Exact P D (fun side' x t' => B side' x t' ∨ side' = side ∧ x = a ∧ t' = t) g' where
  wellFormed := h.wellFormed.of_sameShape harr.shape
  tidy := harr.tidy
  antichain side := harr.antichain side (h.antichain side)
  edges x y hne := by
    rw [harr.shape.below]
    exact h.edges x y hne
  supplied side' := by
    rcases side.eq_or_eq_other side' with rfl | rfl
    · exact (h.supplied side').arrived (fun _ _ => h.leads) harr
    · refine (h.supplied side.other).of_has_eq (fun x => ?_) (onward_eq_of_sameShape harr.shape _)
        (fun _ _ => id) fun x t' => ?_
      · rw [has, harr.other, has]
      · simp [side.other_ne]

/-- An edge that follows from the others changes nothing. -/
theorem addKnownEdge (hab : ReflTransGen D a b) :
    Exact P (fun x y => D x y ∨ x = a ∧ y = b) B g where
  wellFormed := h.wellFormed
  tidy := h.tidy
  antichain := h.antichain
  edges x y hne := by
    rw [h.edges x y hne, reflTransGen_or_edge]
    refine ⟨.inl, ?_⟩
    rintro (hxy | ⟨hxa, hby⟩)
    · exact hxy
    · exact (hxa.trans hab).trans hby
  supplied side := (h.supplied side).of_has_eq (fun _ => rfl) (fun _ => rfl) (fun _ _ => .inl)
    fun _ _ => .rfl

/-- With a new edge linked across, below a variable is what the record with that edge says. -/
theorem mem_below_linkAcross (ha : a ∈ g.ids) (hb : b ∈ g.ids) (hne : x ≠ y) :
    x ∈ ((g.linkAcross a b).boundsOf y).below ↔
      ReflTransGen (fun x y => D x y ∨ x = a ∧ y = b) x y := by
  have hside (x y : VarId) : x = y ∨ x ∈ (g.boundsOf y).below ↔ ReflTransGen D x y := by
    by_cases heq : x = y
    · rw [heq]
      exact iff_of_true (.inl rfl) .refl
    · rw [or_iff_right heq, h.edges x y heq]
  obtain ⟨-, hlinked⟩ := h.wellFormed.linkAcross ha hb
  rw [hlinked, reflTransGen_or_edge, h.edges x y hne, hside x a, ← h.wellFormed.mirrored,
    eq_comm (a := y), hside b y]
  simp [hne]

/-- **A new edge** was added, and the bounds of its ends have flowed across. -/
theorem addEdge (ha : a ∈ g.ids) (hb : b ∈ g.ids)
    (hlower : Arrived P .lower (g.has .lower a) b (g.linkAcross a b) g₁)
    (hupper : Arrived P .upper (g₁.has .upper b) a g₁ g') :
    Exact P (fun x y => D x y ∨ x = a ∧ y = b) B g' := by
  obtain ⟨hwf, -⟩ := h.wellFormed.linkAcross ha hb
  have hsame : SameTypes g (g.linkAcross a b) := sameTypes_linkAcross
  have hshape := trans_of SameShape hlower.shape hupper.shape
  refine ⟨hwf.of_sameShape hshape, hupper.tidy, fun side => ?_, fun x y hne => ?_, fun side => ?_⟩
  · refine hupper.antichain side (hlower.antichain side fun x t ht e he => ?_)
    rw [has_of_sameTypes hsame] at ht he
    exact h.antichain side x t ht e he
  · rw [hshape.below]
    exact h.mem_below_linkAcross ha hb hne
  · obtain ⟨g₂, g₃, hcrosses, harr, hshape', hhas⟩ := h.wellFormed.crossed ha hb hlower hupper side
    have hab : ReflTransGen (fun x y => D x y ∨ x = a ∧ y = b) a b := .single (.inr ⟨rfl, rfl⟩)
    have hsupplied : Supplied P (fun x y => D x y ∨ x = a ∧ y = b) B side g₃ :=
      (h.supplied side).across hcrosses (fun _ _ => .inl) (fun _ _ => h.leads)
        (by cases side <;> exact hab) harr
    exact hsupplied.of_has_eq hhas (onward_eq_of_sameShape hshape' side) (fun _ _ => id)
      fun _ _ => .rfl

/-- Since the edges are transitively closed, one of them leads all the way. -/
theorem entails_of_leads (hxy : side.Leads D x y) {p : Ty}
    (hp : g.Entails P side x p) : g.Entails P side y p := by
  by_cases hne : x = y
  · rw [← hne]
    exact hp
  · have hedge : y ∈ g.onward side x := by
      cases side with
      | lower => exact h.wellFormed.mem_onward_lower.2 ((h.edges x y hne).2 hxy)
      | upper => exact mem_onward_upper.2 ((h.edges y x (Ne.symm hne)).2 hxy)
    obtain ⟨e, he, hpe⟩ := hp
    obtain ⟨e', he', hee'⟩ := (h.supplied side).flows x y hedge e he
    exact ⟨e', he', hpe.trans hee'⟩

/-- An edge from a variable to itself is a mark and nothing else. -/
theorem linkSelf (ha : a ∈ g.ids) : Exact P D B (g.link a a) := by
  have hwf := h.wellFormed.link ha ha
  have hsame : SameTypes g (g.link a a) := sameTypes_link
  have hhas (side : Side) : ∀ x, (g.link a a).has side x = g.has side x :=
    has_of_sameTypes hsame side
  have honward (side : Side) {x y : VarId} (hxy : y ∈ (g.link a a).onward side x) :
      y ∈ g.onward side x ∨ x = y := by
    cases side with
    | lower =>
      rw [hwf.mem_onward_lower, mem_below_link ha, ← h.wellFormed.mem_onward_lower] at hxy
      exact hxy.imp id fun hxy => hxy.1.trans hxy.2.symm
    | upper =>
      rw [mem_onward_upper, mem_below_link ha, ← mem_onward_upper] at hxy
      exact hxy.imp id fun hxy => hxy.2.trans hxy.1.symm
  refine ⟨hwf, h.tidy.of_sameTypes hsame, fun side x t ht e he => ?_, fun x y hne => ?_,
    fun side => ⟨fun x y hxy t ht => ?_, fun x t ht p hp => ?_, fun x p hp => ?_⟩⟩
  · rw [hhas] at ht he
    exact h.antichain side x t ht e he
  · rw [mem_below_link ha, ← h.edges x y hne]
    refine ⟨fun hxy => hxy.resolve_right ?_, .inl⟩
    rintro ⟨rfl, rfl⟩
    exact hne rfl
  · rcases honward side hxy with hxy | rfl
    · rw [hhas] at ht
      rw [Entails, hhas]
      exact (h.supplied side).flows x y hxy t ht
    · exact .of_mem ht
  · rw [Entails, hhas]
    exact (h.supplied side).asserted x t ht p hp
  · rw [hhas] at hp
    exact (h.supplied side).origin x p hp

end

theorem empty (tag : Nat) (lattice : Lattice) (policy : Policy) (hD : ∀ x y, ¬D x y)
    (hB : ∀ side x t, ¬B side x t) : Exact P D B { tag, lattice, policy } where
  wellFormed := .empty tag lattice policy
  tidy := .empty ..
  antichain side _ t ht := by cases side <;> cases ht
  edges x y hne := by
    refine ⟨fun h => (List.not_mem_nil h).elim, fun h => ?_⟩
    rcases h.cases_head with rfl | ⟨z, hz, -⟩
    · exact absurd rfl hne
    · exact absurd hz (hD x z)
  supplied side := by
    refine ⟨fun x _ _ t ht => ?_, fun x t ht => absurd ht (hB side x t), fun x t ht => ?_⟩
    · cases side <;> cases ht
    · cases side <;> cases ht

end Exact

end Graph

/-! ## Plain types -/

/-- Members of bounds where all types are plain. -/
def PlainMember (u : Universe) (side : Side) (t : Ty) : Prop := Plain u t ∧ Settled u side t

section

variable {u : Universe} {side : Side} {t p : Ty}

theorem admits_plainMember (hu : u.Legible) : Admits u (PlainMember u) := ⟨hu, fun _ _ h => h.2⟩

theorem chains_plainMember (hu : u.Legible) (side : Side) : side.Chains (PlainMember u) := by
  intro a b c ha hb hc hab hbc
  cases side with
  | lower => exact Sub.trans hu ha.1 hb.1.convertibleFree hc.1.convertibleFree hab hbc
  | upper => exact Sub.trans hu hc.1 hb.1.convertibleFree ha.1.convertibleFree hbc hab

theorem Plain.member_of_mem_parts (hu : u.Sound) (ht : Plain u t) (hp : p ∈ side.parts t) :
    PlainMember u side p := by
  refine ⟨?_, ht.convertibleFree.settled hu hp⟩
  cases side with
  | lower => exact (ht.of_mem_unionParts hu hp).1
  | upper => exact ht.of_mem_interParts hu hp

end

/-! ## Calls -/

/-- The call that adds a type on one side. -/
def Call.bound : Side → VarId → Ty → Call
  | .lower => addLower
  | .upper => addUpper

/-- No fixed reference is added below a variable. -/
def Call.IsMutable : Call → Prop
  | addRef _ (some r) => r.fixed = false
  | _ => True

/-- One of the calls adds the edge from `x` to `y`. -/
def AddsEdge (calls : List Call) (x y : VarId) : Prop :=
  ∃ r : Reference, r.id = x ∧ Call.addRef y (some r) ∈ calls

/-- One of the calls adds the type at `x` on this side. -/
def AddsBound (calls : List Call) (side : Side) (x : VarId) (t : Ty) : Prop :=
  Call.bound side x t ∈ calls

theorem addsEdge_concat {calls : List Call} {c : Call} {x y : VarId} :
    AddsEdge (calls ++ [c]) x y ↔ AddsEdge calls x y ∨ ∃ r : Reference, r.id = x ∧
      c = .addRef y (some r) := by
  simp only [AddsEdge, List.mem_append, List.mem_singleton, and_or_left, exists_or,
    eq_comm (a := c)]

theorem addsBound_concat {calls : List Call} {c : Call} {side : Side} {x : VarId} {t : Ty} :
    AddsBound (calls ++ [c]) side x t ↔ AddsBound calls side x t ∨ c = .bound side x t := by
  simp only [AddsBound, List.mem_append, List.mem_singleton, eq_comm (a := c)]

theorem Call.bound_ne_addRef {side : Side} {x y : VarId} {t : Ty} {r : Option Reference} :
    Call.bound side x t ≠ .addRef y r := by
  cases side <;> exact fun h => by cases h

theorem Call.bound_inj {side side' : Side} {x x' : VarId} {t t' : Ty} :
    Call.bound side x t = .bound side' x' t' ↔ side' = side ∧ x' = x ∧ t' = t := by
  cases side <;> cases side' <;> simp [bound, eq_comm]

namespace Graph

variable {u : Universe} {g : Graph} {done : List Call} {id : VarId}

/-- The record of the calls is what the graph is compared with. -/
structure ExactFor (u : Universe) (calls : List Call) (g : Graph) : Prop extends
    Exact (PlainMember u) (AddsEdge calls) (AddsBound calls) g where
  quiet : g.lattice.Quiet

theorem ExactFor.empty (tag : Nat) {lattice : Lattice} (policy : Policy) (hq : lattice.Quiet)
    (hD : ∀ x y, ¬AddsEdge done x y) (hB : ∀ side x t, ¬AddsBound done side x t) :
    ExactFor u done { tag, lattice, policy } :=
  ⟨.empty tag lattice policy hD hB, hq⟩

section

variable (hu : u.Legible) (h : ExactFor u done g)

include hu h

theorem ExactFor.bound (side : Side) {t : Ty} (ht : Plain u t)
    (hacc : (g.addBound side id t).fault = none) :
    ExactFor u (done ++ [.bound side id t]) (g.addBound side id t).graph := by
  have hself : g.isSelf id t = false := ht.convertibleFree.isSelf_eq hu.toSound
  obtain ⟨hid, s, hspread, hgraph⟩ := addBound_accepted hself hacc
  have harr := spread_ok (admits_plainMember hu) h.quiet h.tidy h.wellFormed hid
    (fun m hm => ht.member_of_mem_parts hu.toSound hm) hspread
  rw [hgraph]
  refine ⟨(h.toExact.addBound harr).congr (fun x y => ?_) fun side' x t' => ?_,
    harr.shape.lattice ▸ h.quiet⟩
  · rw [addsEdge_concat]
    simp [Call.bound_ne_addRef]
  · rw [addsBound_concat, Call.bound_inj]

theorem ExactFor.addRef {r : Option Reference}
    (hm : (Call.addRef id r).IsMutable) (hacc : (g.addRef id r).fault = none) :
    ExactFor u (done ++ [.addRef id r]) (g.addRef id r).graph := by
  obtain ⟨r, rfl, hid, hr, hcases⟩ := addRef_accepted hacc
  have hrecord {g' : Graph} (h' : Exact (PlainMember u) (fun x y => AddsEdge done x y ∨ x = r.id ∧
      y = id) (AddsBound done) g') (hlattice : g'.lattice = g.lattice) :
      ExactFor u (done ++ [.addRef id (some r)]) g' := by
    refine ⟨h'.congr (fun x y => ?_) fun side x t => ?_, hlattice ▸ h.quiet⟩
    · rw [addsEdge_concat]
      grind
    · rw [addsBound_concat]
      simp [Call.bound_ne_addRef.symm]
  rcases hcases with ⟨rfl, hgraph | hgraph⟩ | ⟨hne, s, hgraph, hrun⟩
  · rw [hgraph]
    exact hrecord (h.addKnownEdge .refl) rfl
  · rw [hgraph]
    exact hrecord ((h.addKnownEdge .refl).linkSelf hid) rfl
  · rw [hgraph]
    rw [show r.fixed = false from hm] at hrun
    rcases addEdge_ok (admits_plainMember hu) h.quiet h.tidy h.wellFormed hr hid hrun with
      ⟨hedge, hs⟩ | ⟨-, g₁, hlower, hupper⟩
    · rw [hs]
      exact hrecord (h.addKnownEdge ((h.edges r.id id hne).1 hedge)) rfl
    · have hsame : SameTypes g (g.linkAcross r.id id) := sameTypes_linkAcross
      exact hrecord (h.toExact.addEdge hr hid hlower hupper)
        ((trans_of SameShape hlower.shape hupper.shape).lattice.trans hsame.lattice)

/-- **One accepted call.** -/
theorem ExactFor.outcome {c : Call} (hc : c.Builds (Plain u))
    (hm : c.IsMutable) (hacc : (c.outcome g).fault = none) :
    ExactFor u (done ++ [c]) (c.outcome g).graph := by
  cases c with
  | addVariable name r =>
    obtain ⟨r', rfl, hgraph⟩ := addVariable_accepted hacc
    have hwf := (Call.addVariable name (some r')).wellFormed_outcome h.wellFormed
    rw [hgraph] at hwf ⊢
    refine ⟨(h.toExact.of_boundsOf_eq hwf fun _ => boundsOf_register).congr ?_ fun side _ _ => ?_,
      h.quiet⟩
    · simp [addsEdge_concat]
    · rw [addsBound_concat]
      cases side <;> simp [Call.bound]
  | addLower id t => exact h.bound hu .lower hc hacc
  | addUpper id t => exact h.bound hu .upper hc hacc
  | addRef id r => exact h.addRef hu hm hacc
  | _ => exact hc.elim

/-- **All accepted calls.** -/
theorem ExactFor.after {calls : List Call}
    (hcalls : ∀ c ∈ calls, c.Builds (Plain u) ∧ c.IsMutable) (hacc : g.accepts calls) :
    ExactFor u (done ++ calls) (g.after calls) := by
  induction calls generalizing g done with
  | nil =>
    rw [List.append_nil]
    exact h
  | cons c calls ih =>
    obtain ⟨hc, hm⟩ := hcalls c (List.mem_cons_self ..)
    obtain ⟨hfirst, hrest⟩ := accepts_cons.1 hacc
    rw [List.append_cons]
    exact ih (h.outcome hu hc hm hfirst) (fun c hc => hcalls c (List.mem_cons_of_mem _ hc)) hrest

end

end Graph

namespace Graph

variable {u : Universe} {g : Graph} {calls : List Call} {side : Side} {x y : VarId} {t p : Ty}

/-- Every part of a type that was added further back is covered. -/
theorem ExactFor.covers (hu : u.Legible) (h : ExactFor u calls g) (side : Side) (ht : Plain u t)
    (hadd : AddsBound calls side x t) (hxy : side.Leads (AddsEdge calls) x y)
    (hp : p ∈ side.parts t) : ∃ e ∈ g.has side y, ConvertibleFree u e ∧ side.Covered p e := by
  have hP := admits_plainMember hu
  obtain ⟨e, he, hpe⟩ := h.entails_of_leads hxy ((h.supplied side).asserted x t hadd p hp)
  refine ⟨e, he, h.tidy.convertibleFree hP he, ?_⟩
  exact hpe.covered hP (chains_plainMember hu side) (ht.member_of_mem_parts hu.toSound hp)

end Graph

/-- Following added edges, `x` comes to `y`. -/
def Reaches (calls : List Call) : VarId → VarId → Prop := ReflTransGen (AddsEdge calls)

/-- **Propagation is exact.** Whatever calls with plain types were accepted, without implicit
conversions the graph is this: below a variable are those that reach it; its lower bound is made of
parts of the types that were added below it and covers every such part; its upper bound is made of
parts of the types that were added above it and is covered by every such part; and neither bound has
a member that another one makes superfluous. -/
theorem edges_and_bounds_of_accepts {decls : List TypeDecl} {u : Universe}
    (hu : Universe.ofDecls decls = .ok u)
    (hnames : ∀ name ∈ u.types.keys, IsIdentifier name ∧ name ≠ "nothing")
    (tag : Nat) {lattice : Lattice} (policy : Policy) (hq : lattice.Quiet) {calls : List Call}
    (hcalls : ∀ c ∈ calls, c.Builds (Plain u) ∧ c.IsMutable)
    (hacc : Graph.accepts { tag, lattice, policy } calls) (y : VarId) :
    let g := Graph.after { tag, lattice, policy } calls
    (∀ x, x ≠ y → (x ∈ (g.boundsOf y).below ↔ Reaches calls x y)) ∧
    (∀ p ∈ Members.types (g.boundsOf y).lower,
      ∃ x t, .addLower x t ∈ calls ∧ Reaches calls x y ∧ p ∈ t.unionParts) ∧
    (∀ x t, .addLower x t ∈ calls → Reaches calls x y → ∀ p ∈ t.unionParts,
      ∃ e ∈ Members.types (g.boundsOf y).lower, g.isSubtype p e) ∧
    (∀ p ∈ Members.types (g.boundsOf y).upper,
      ∃ x t, .addUpper x t ∈ calls ∧ Reaches calls y x ∧ p ∈ t.interParts) ∧
    (∀ x t, .addUpper x t ∈ calls → Reaches calls y x → ∀ p ∈ t.interParts,
      ∃ e ∈ Members.types (g.boundsOf y).upper, g.isSubtype e p) ∧
    (∀ ms, ms = (g.boundsOf y).lower ∨ ms = (g.boundsOf y).upper → ∀ p ∈ Members.types ms,
      ∀ e ∈ Members.types ms, g.isSubtype p e → p = e) := by
  intro g
  have hlegible := Universe.legible_of_ofDecls hu hnames
  have hP := admits_plainMember hlegible
  have hexact : g.ExactFor u calls :=
    Graph.ExactFor.after hlegible
      (.empty tag policy hq (fun _ _ ⟨_, _, h⟩ => (List.not_mem_nil h).elim) fun _ _ _ h =>
        (List.not_mem_nil h).elim) hcalls hacc
  have hcf {side : Side} {p : Ty} (hp : p ∈ g.has side y) : ConvertibleFree u p :=
    hexact.tidy.convertibleFree hP hp
  have hpart (side : Side) {t p : Ty} (ht : Plain u t) (hp : p ∈ side.parts t) :
      ConvertibleFree u p :=
    (ht.convertibleFree.settled hlegible.toSound hp).convertibleFree
  have hanti (side : Side) {p e : Ty} (hp : p ∈ g.has side y) (he : e ∈ g.has side y)
      (h : g.isSubtype p e) : p = e := by
    have hsub := (isSubtype_iff hlegible (hcf hp) (hcf he)).1 h
    cases side with
    | lower => exact hexact.antichain .lower y p hp e he hsub
    | upper => exact (hexact.antichain .upper y e he p hp hsub).symm
  refine ⟨fun x hne => hexact.edges x y hne, (hexact.supplied .lower).origin y,
    fun x t hadd hxy p hp => ?_, (hexact.supplied .upper).origin y, fun x t hadd hxy p hp => ?_, ?_⟩
  · have ht : Plain u t := (hcalls _ hadd).1
    obtain ⟨e, he, hecf, hpe⟩ := hexact.covers hlegible .lower ht hadd hxy hp
    exact ⟨e, he, (isSubtype_iff hlegible (hpart .lower ht hp) hecf).2 hpe⟩
  · have ht : Plain u t := (hcalls _ hadd).1
    obtain ⟨e, he, hecf, hpe⟩ := hexact.covers hlegible .upper ht hadd hxy hp
    exact ⟨e, he, (isSubtype_iff hlegible hecf (hpart .upper ht hp)).2 hpe⟩
  · rintro ms (rfl | rfl) p hp e he h
    · exact hanti .lower hp he h
    · exact hanti .upper hp he h

/-- An interface and a class that implements it. -/
def shapeDecls : List TypeDecl :=
  [{ name := "Shape", kind := "interface" },
    { name := "Circle", kind := "class", parents := ["Shape"] }]

def shape : Ty := .nominal "Shape" .interface false []

def circle : Ty := .nominal "Circle" .concrete false [shape]

def shapes : Universe := ⟨⟨[("mixed", .mixed), ("Shape", shape), ("Circle", circle)]⟩⟩

theorem ofDecls_shapes : Universe.ofDecls shapeDecls = .ok shapes := rfl

theorem plain_shape : Plain shapes shape := (Universe.sound_of_ofDecls ofDecls_shapes).plain rfl

theorem plain_circle : Plain shapes circle := (Universe.sound_of_ofDecls ofDecls_shapes).plain rfl

/-- A chain of three variables, with bounds added before and after its edges. -/
def chain : List Call :=
  [.addVariable "$x" (some { id := "T1" }), .addVariable "$y" (some { id := "T2" }),
    .addVariable "$z" (some { id := "T3" }), .addRef "T2" (some { id := "T1" }),
    .addLower "T1" circle, .addRef "T3" (some { id := "T2" }), .addUpper "T3" shape,
    .addLower "T2" shape]

theorem edges_and_bounds_of_accepts_chain :
    let g := Graph.after { tag := 1 } chain
    Reaches chain "T1" "T3" ∧
      (∃ e ∈ Members.types (g.boundsOf "T3").lower, g.isSubtype circle e) ∧
      ∃ e ∈ Members.types (g.boundsOf "T1").upper, g.isSubtype e shape := by
  have hreach : Reaches chain "T1" "T3" :=
    .head ⟨{ id := "T1" }, rfl, by simp [chain]⟩ (.single ⟨{ id := "T2" }, rfl, by simp [chain]⟩)
  have hcalls : ∀ c ∈ chain, c.Builds (Plain shapes) ∧ c.IsMutable := by
    simp [chain, Call.Builds, Call.IsMutable, plain_shape, plain_circle]
  have hexact :=
    edges_and_bounds_of_accepts ofDecls_shapes (by decide) 1 .plain .empty hcalls
      (by decide +kernel)
  refine ⟨hreach, ?_, ?_⟩
  · exact (hexact "T3").2.2.1 "T1" circle (by simp [chain]) hreach circle
      (List.mem_singleton_self _)
  · exact (hexact "T1").2.2.2.2.1 "T3" shape (by simp [chain]) hreach shape
      (List.mem_singleton_self _)

end TypeBounds
