import TypeBounds.Proofs.Collapse
import TypeBounds.Proofs.Exactness
import TypeBounds.Proofs.Growth
import TypeBounds.Proofs.Intake

/-!
# Merging is substitution

Where propagation is exact, a graph is what the record of its calls demands. A merge of `old` into
`new` is then a substitution in that record: the graph afterwards is what the same calls demand with
`new` in the place of `old` (`Graph.ExactFor.merge`). The steps of a merge are steps of a record
too:

* `Exact.cutOff`: cutting `old` off leaves the closure of the other edges;
* `handOn_exact`, `forM_addEdge_exact`: handing on a bound records it as one type, adding an edge
  records the edge, as in any other call;
* `Exact.unregister`: removing the record of `old`;
* `Exact.rerecord`: a graph is exact for **every record that demands the same**. Here edges are
  compared by where they lead, and types by what they imply.
-/

namespace TypeBounds

open Infer Relation

namespace Graph

variable {u : Universe} {P : Side → Ty → Prop} {D D' : VarId → VarId → Prop}
  {B B' : Side → VarId → Ty → Prop} {g g' : Graph} {old new x y : VarId}

/-! ## Records that demand the same -/

theorem Exact.rerecord (h : Exact P D B g) (hD : ∀ x y, ReflTransGen D x y ↔ ReflTransGen D' x y)
    (hnew : ∀ side x t, B' side x t → ∀ p ∈ side.parts t,
      ∃ y t', B side y t' ∧ side.Leads D y x ∧ ∃ q ∈ side.parts t', side.Implied P p q)
    (hold : ∀ side x t, B side x t → ∀ p ∈ side.parts t,
      ∃ y t', B' side y t' ∧ side.Leads D y x ∧ p ∈ side.parts t') : Exact P D' B' g := by
  have hleads {side : Side} {x y : VarId} (hxy : side.Leads D x y) : side.Leads D' x y := by
    cases side with
    | lower => exact (hD x y).1 hxy
    | upper => exact (hD y x).1 hxy
  refine ⟨h.wellFormed, h.tidy, h.antichain, fun x y hne => (h.edges x y hne).trans (hD x y),
    fun side =>
    ⟨(h.supplied side).flows, fun x t ht p hp => ?_, fun x p hp => ?_⟩⟩
  · obtain ⟨y, t', ht', hyx, q, hq, hpq⟩ := hnew side x t ht p hp
    obtain ⟨e, he, hqe⟩ := h.entails_of_leads hyx ((h.supplied side).asserted y t' ht' q hq)
    exact ⟨e, he, hpq.trans hqe⟩
  · obtain ⟨y, t, ht, hyx, hpt⟩ := (h.supplied side).origin x p hp
    obtain ⟨z, t', ht', hzy, hpt'⟩ := hold side y t ht p hpt
    exact ⟨z, t', ht', hleads (hzy.trans hyx), hpt'⟩

/-- Bounds and edges are all that counts. -/
theorem Exact.of_sameEdges (h : Exact P D B g) (hwf : g'.WellFormed) (he : SameEdges g g')
    (hsides : ∀ x, SameBounds x g g') : Exact P D B g' := by
  have hhas (side : Side) (x : VarId) : g'.has side x = g.has side x := by
    rw [has, hsides x side, has]
  refine ⟨hwf, ⟨fun side x => hsides x side ▸ h.tidy.keyed side x, fun side x t ht => ?_⟩,
    fun side x t ht e he => ?_, fun x y hne => ?_, fun side => ?_⟩
  · exact h.tidy.admissible side x t (hhas side x ▸ ht)
  · exact h.antichain side x t (hhas side x ▸ ht) e (hhas side x ▸ he)
  · rw [he.below]
    exact h.edges x y hne
  · refine (h.supplied side).of_has_eq (hhas side) (fun x => ?_) (fun _ _ => id) fun _ _ => .rfl
    cases side with
    | lower => rw [onward, above, he.above]; rfl
    | upper => rw [onward, below, he.below]; rfl

theorem Exact.inheritFrozen (h : Exact P D B g) : Exact P D B (inheritFrozen old new g) := by
  exact h.of_sameEdges
    (h.wellFormed.of_sameEdges_of_names sameEdges_inheritFrozen names_inheritFrozen)
    sameEdges_inheritFrozen fun x side => sameMembers_inheritFrozen.sides side x

/-! ## Cutting off and removing -/

/-- What leads from and to `old` is left out, and all that the record demanded elsewhere is kept. -/
theorem Exact.cutOff (hu : u.Legible) (h : Exact (PlainMember u) D B g) (hq : g.lattice.Quiet)
    (hnew : new ∈ g.ids) : (∀ x, SameBounds x g (g.cutOff old new)) ∧
    Exact (PlainMember u) (fun x y => ReflTransGen D x y ∧ x ≠ old ∧ y ≠ old)
      (fun side x t => ∃ y, B side y t ∧ side.Leads D y x) (g.cutOff old new) := by
  have hstanding : g.Standing u :=
    ⟨h.wellFormed, hq, h.tidy.keyed, fun side x t ht => (h.tidy.admissible side x t ht).2⟩
  obtain ⟨hcut, hsides, -, hedge⟩ := hstanding.cutOff hu old hnew
  have hhas (side : Side) (x : VarId) : (g.cutOff old new).has side x = g.has side x := by
    rw [has, hsides x side, has]
  have hentails {side : Side} {x : VarId} {p : Ty} (hp : g.Entails (PlainMember u) side x p) :
      (g.cutOff old new).Entails (PlainMember u) side x p := by
    rw [Entails, hhas]
    exact hp
  refine ⟨hsides, hcut.wellFormed, ⟨hcut.tidy.keyed, fun side x t ht => ?_⟩,
    fun side x t ht e he => ?_, fun x y hne => ?_,
    fun side => ⟨fun x y hxy t ht => ?_, fun x t ht p hp => ?_, fun x p hp => ?_⟩⟩
  · exact h.tidy.admissible side x t (hhas side x ▸ ht)
  · exact h.antichain side x t (hhas side x ▸ ht) e (hhas side x ▸ he)
  · rw [hedge, h.edges x y hne]
    refine ⟨fun hxy => .single hxy, fun hpath => ?_⟩
    -- the relation is transitive already, so a path that ends elsewhere is one step
    induction hpath with
    | refl => exact absurd rfl hne
    | @tail y z hxy hyz ih =>
      by_cases heq : x = y
      · rw [heq]
        exact hyz
      · exact ⟨(ih heq).1.trans hyz.1, (ih heq).2.1, hyz.2.2⟩
  · have hxy : y ∈ g.onward side x := by
      cases side with
      | lower =>
        rw [hcut.wellFormed.mem_onward_lower, hedge] at hxy
        exact h.wellFormed.mem_onward_lower.2 hxy.1
      | upper =>
        rw [mem_onward_upper, hedge] at hxy
        exact mem_onward_upper.2 hxy.1
    exact hentails ((h.supplied side).flows x y hxy t (hhas side x ▸ ht))
  · obtain ⟨y, hadd, hyx⟩ := ht
    exact hentails (h.entails_of_leads hyx ((h.supplied side).asserted y t hadd p hp))
  · rw [hhas] at hp
    obtain ⟨y, t, hadd, hyx, hpt⟩ := (h.supplied side).origin x p hp
    exact ⟨x, t, ⟨y, hadd, hyx⟩, .refl side _ x, hpt⟩

/-- No path to or from another variable leads by one that has no edges. -/
theorem ne_of_leads (hD : ∀ x, ¬D x old ∧ ¬D old x) {side : Side} (hxy : side.Leads D x y)
    (hne : x ≠ y) : x ≠ old ∧ y ≠ old := by
  have hpath {x y : VarId} (hxy : ReflTransGen D x y) (hne : x ≠ y) : x ≠ old ∧ y ≠ old := by
    refine ⟨fun heq => ?_, fun heq => ?_⟩
    · obtain rfl | ⟨z, hz, -⟩ := hxy.cases_head
      · exact hne rfl
      · exact (hD z).2 (heq ▸ hz)
    · obtain rfl | ⟨z, -, hz⟩ := hxy.cases_tail
      · exact hne rfl
      · exact (hD z).1 (heq ▸ hz)
  cases side with
  | lower => exact hpath hxy hne
  | upper => exact (hpath hxy (Ne.symm hne)).symm

/-- A variable that the record leads nowhere from and to can be removed, with the types added
there. -/
theorem Exact.unregister (h : Exact P D B g) (hwf : (g.unregister old).WellFormed)
    (hD : ∀ x, ¬D x old ∧ ¬D old x) :
    Exact P D (fun side x t => x ≠ old ∧ B side x t) (g.unregister old) := by
  have hbounds {x : VarId} (hx : x ≠ old) : (g.unregister old).boundsOf x = g.boundsOf x := by
    rw [boundsOf_unregister, if_neg hx]
  have hgone : (g.unregister old).boundsOf old = {} := by rw [boundsOf_unregister, if_pos rfl]
  have hhas {side : Side} {x : VarId} (hx : x ≠ old) :
      (g.unregister old).has side x = g.has side x := by
    rw [has, boundsOf_unregister, if_neg hx, has]
  have hnone (side : Side) {p : Ty} : p ∉ (g.unregister old).has side old := by
    rw [has, hgone]
    cases side <;> exact List.not_mem_nil
  have hmember {side : Side} {x : VarId} {p : Ty} (hp : p ∈ (g.unregister old).has side x) :
      x ≠ old ∧ p ∈ g.has side x := by
    have hx : x ≠ old := fun heq => hnone side (heq ▸ hp)
    exact ⟨hx, hhas hx ▸ hp⟩
  have hentails {side : Side} {x : VarId} {p : Ty} (hx : x ≠ old) (hp : g.Entails P side x p) :
      (g.unregister old).Entails P side x p := by
    rw [Entails, hhas hx]
    exact hp
  have hedges {x y : VarId} (hne : x ≠ y) : x ∈ ((g.unregister old).boundsOf y).below ↔
      x ∈ (g.boundsOf y).below := by
    by_cases hy : y = old
    · rw [hy, hgone]
      refine ⟨fun hx => (List.not_mem_nil hx).elim, fun hx => ?_⟩
      have hpath : Side.lower.Leads D x y := (h.edges x y hne).1 (hy ▸ hx)
      exact absurd hy (ne_of_leads hD hpath hne).2
    · rw [hbounds hy]
  refine ⟨hwf, ⟨fun side x => ?_, fun side x t ht => ?_⟩, fun side x t ht e he => ?_,
    fun x y hne => (hedges hne).trans (h.edges x y hne),
    fun side => ⟨fun x y hxy t ht => ?_, fun x t ht p hp => ?_, fun x p hp => ?_⟩⟩
  · by_cases hx : x = old
    · rw [hx, hgone]
      cases side <;> exact .nil
    · rw [hbounds hx]
      exact h.tidy.keyed side x
  · exact h.tidy.admissible side x t (hmember ht).2
  · exact h.antichain side x t (hmember ht).2 e (hmember he).2
  · obtain ⟨hx, ht⟩ := hmember ht
    by_cases hne : x = y
    · rw [← hne]
      exact .of_mem (hhas hx ▸ ht)
    · have hxy : y ∈ g.onward side x := by
        cases side with
        | lower =>
          exact h.wellFormed.mem_onward_lower.2 ((hedges hne).1 (hwf.mem_onward_lower.1 hxy))
        | upper => exact mem_onward_upper.2 ((hedges (Ne.symm hne)).1 (mem_onward_upper.1 hxy))
      exact hentails (ne_of_leads hD (h.leads hxy) hne).2 ((h.supplied side).flows x y hxy t ht)
  · exact hentails ht.1 ((h.supplied side).asserted x t ht.2 p hp)
  · obtain ⟨hx, hp⟩ := hmember hp
    obtain ⟨y, t, hadd, hyx, hpt⟩ := (h.supplied side).origin x p hp
    have hy : y ≠ old := by
      by_cases hne : y = x
      · rw [hne]
        exact hx
      · exact (ne_of_leads hD hyx hne).1
    exact ⟨y, t, ⟨hy, hadd⟩, hyx, hpt⟩

/-! ## Taking over -/

/-- What none of the steps between cutting off and removing changes. -/
structure SameBase (g g' : Graph) : Prop where
  ids : g'.ids = g.ids
  names : g'.names = g.names
  lattice : g'.lattice = g.lattice

theorem SameBase.trans {g'' : Graph} (h : SameBase g g') (h' : SameBase g' g'') : SameBase g g'' :=
  ⟨h'.ids.trans h.ids, h'.names.trans h.names, h'.lattice.trans h.lattice⟩

theorem SameFrame.sameBase (h : SameFrame g g') : SameBase g g' := ⟨h.ids, h.names, h.lattice⟩

theorem sameBase_inheritFrozen (old new : VarId) : SameBase g (Graph.inheritFrozen old new g) := by
  refine ⟨sameEdges_inheritFrozen.ids, names_inheritFrozen, ?_⟩
  unfold Graph.inheritFrozen
  split <;> rfl

end Graph

open TypeBounds.Graph

section

variable {u : Universe} {D : VarId → VarId → Prop} {B : Side → VarId → Ty → Prop} {s s' : Progress}
  {old new x y : VarId}

section

variable (hu : u.Legible) (h : Exact (PlainMember u) D B s.graph) (hq : s.graph.lattice.Quiet)

include hu h hq

/-- A bound that is handed on is recorded as one type. -/
theorem handOn_exact
    (side : Side) (hnew : new ∈ s.graph.ids)
    (hrun : handOn side new ((s.graph.boundsOf old).side side) s = (.ok (), s')) :
    SameFrame s.graph s'.graph ∧
      (s'.graph.boundsOf old).side side.other = (s.graph.boundsOf old).side side.other ∧
      Exact (PlainMember u) D (fun side' x t => B side' x t ∨
        side' = side ∧ x = new ∧ t = side.container ((s.graph.boundsOf old).side side))
        s'.graph := by
  have hP := admits_plainMember hu
  have harr :=
    handOn_ok hP hq h.tidy h.wellFormed hnew (h.tidy.keyed side old)
      (h.tidy.admissible side old) hrun
  rw [← Side.parts_container fun t ht =>
    (hP.settled side t (h.tidy.admissible side old t ht)).ne_container] at harr
  exact ⟨harr.shape.toSameFrame, harr.other old, h.addBound harr⟩

/-- An edge that is added is recorded. -/
theorem addEdge_exact
    (hx : x ∈ s.graph.ids) (hy : y ∈ s.graph.ids) (hne : x ≠ y)
    (hrun : addEdge x y s = (.ok (), s')) : SameFrame s.graph s'.graph ∧
      Exact (PlainMember u) (fun a b => D a b ∨ a = x ∧ b = y) B s'.graph := by
  rcases addEdge_ok (admits_plainMember hu) hq h.tidy h.wellFormed hx hy hrun with
    ⟨hedge, hs⟩ | ⟨-, g₁, hlower, hupper⟩
  · rw [hs]
    exact ⟨.rfl, h.addKnownEdge ((h.edges x y hne).1 hedge)⟩
  · have hsame : SameTypes s.graph (s.graph.linkAcross x y) := sameTypes_linkAcross
    exact ⟨hsame.toSameFrame.trans (hlower.shape.toSameFrame.trans hupper.shape.toSameFrame),
      h.addEdge hx hy hlower hupper⟩

/-- Edges that are added one after the other are recorded. -/
theorem forM_addEdge_exact (low high : VarId → VarId) {zs : List VarId}
    (hzs : ∀ z ∈ zs, low z ∈ s.graph.ids ∧ high z ∈ s.graph.ids ∧ low z ≠ high z)
    (hrun : zs.forM (fun z => addEdge (low z) (high z)) s = (.ok (), s')) :
    SameFrame s.graph s'.graph ∧
      Exact (PlainMember u) (fun a b => D a b ∨ ∃ z ∈ zs, a = low z ∧ b = high z) B s'.graph := by
  induction zs generalizing s D with
  | nil =>
    obtain ⟨-, rfl⟩ := pure_eq_ok.1 hrun
    exact ⟨.rfl, h.congr (by simp) fun _ _ _ => .rfl⟩
  | cons z zs ih =>
    replace hrun :
        (addEdge (low z) (high z) >>= fun _ => zs.forM fun z => addEdge (low z) (high z)) s =
      (.ok (), s') := hrun
    obtain ⟨_, s₁, hfirst, hrun⟩ := bind_eq_ok.1 hrun
    obtain ⟨hlow, hhigh, hne⟩ := hzs z (List.mem_cons_self ..)
    obtain ⟨hframe₁, h₁⟩ := addEdge_exact hu h hq hlow hhigh hne hfirst
    obtain ⟨hframe₂, h₂⟩ := ih h₁ (hframe₁.lattice ▸ hq)
      (fun z hz => hframe₁.ids ▸ hzs z (List.mem_cons_of_mem _ hz)) hrun
    refine ⟨hframe₁.trans hframe₂, h₂.congr (fun a b => ?_) fun _ _ _ => .rfl⟩
    simp only [List.exists_mem_cons_iff, or_assoc]

/-- **Taking over** the bounds and the neighbours of a variable that is cut off. -/
theorem takeOver_exact
    (hnew : new ∈ s.graph.ids) {lowers uppers : List VarId}
    (hlowers : ∀ x ∈ lowers, x ∈ s.graph.ids ∧ x ≠ new)
    (huppers : ∀ y ∈ uppers, y ∈ s.graph.ids ∧ y ≠ new)
    (hrun : takeOver old new lowers uppers s = (.ok (), s')) : SameBase s.graph s'.graph ∧
      Exact (PlainMember u)
        (fun a b => (D a b ∨ ∃ x ∈ lowers, a = x ∧ b = new) ∨ ∃ y ∈ uppers, a = new ∧ b = y)
        (fun side x t => B side x t ∨ x = new ∧
          t = side.container ((s.graph.boundsOf old).side side))
        s'.graph := by
  obtain ⟨s₁, s₂, s₃, hlower, hupper, hbelow, habove⟩ := takeOver_cases hrun
  obtain ⟨hframe₁, hother, h₁⟩ := handOn_exact hu h hq .lower hnew hlower
  obtain ⟨hframe₂, -, h₂⟩ :=
    handOn_exact hu h₁ (hframe₁.lattice ▸ hq) .upper (hframe₁.ids ▸ hnew) hupper
  have hframe₂ := hframe₁.trans hframe₂
  have hbase₂ := (SameFrame.sameBase hframe₂).trans (sameBase_inheritFrozen old new)
  obtain ⟨hframe₃, h₃⟩ := forM_addEdge_exact hu h₂.inheritFrozen (hbase₂.lattice ▸ hq) id
    (fun _ => new) (fun x hx => ⟨hbase₂.ids ▸ (hlowers x hx).1, hbase₂.ids ▸ hnew,
      (hlowers x hx).2⟩) hbelow
  have hbase₃ := hbase₂.trans (SameFrame.sameBase hframe₃)
  obtain ⟨hframe₄, h₄⟩ := forM_addEdge_exact hu h₃ (hbase₃.lattice ▸ hq) (fun _ => new) id
    (fun y hy => ⟨hbase₃.ids ▸ hnew, hbase₃.ids ▸ (huppers y hy).1, Ne.symm (huppers y hy).2⟩)
    habove
  refine ⟨hbase₃.trans (SameFrame.sameBase hframe₄), h₄.congr (fun _ _ => .rfl) fun side x t => ?_⟩
  -- the upper bound of `old` is read after the lower one was handed on, which has left it as it was
  have hupper : (s₁.graph.boundsOf old).side .upper = (s.graph.boundsOf old).side .upper := hother
  rw [hupper]
  cases side <;> simp

end

/-! ## Merging -/

/-- **The edges once `new` has taken over** the neighbours of `old`. -/
inductive TakenOver (D : VarId → VarId → Prop) (old new : VarId) : VarId → VarId → Prop where
  | other {a b : VarId} (h : ReflTransGen D a b) (ha : a ≠ old) (hb : b ≠ old) :
      TakenOver D old new a b
  | lower {a : VarId} (h : ReflTransGen D a old) (ha : a ≠ old ∧ a ≠ new) :
      TakenOver D old new a new
  | upper {b : VarId} (h : ReflTransGen D old b) (hb : b ≠ old ∧ b ≠ new) :
      TakenOver D old new new b

theorem TakenOver.ne (hne : old ≠ new) (h : TakenOver D old new x y) : x ≠ old ∧ y ≠ old := by
  cases h with
  | other _ ha hb => exact ⟨ha, hb⟩
  | lower _ ha => exact ⟨ha.1, Ne.symm hne⟩
  | upper _ hb => exact ⟨Ne.symm hne, hb.1⟩

theorem successor_of_ne {z : VarId} (hz : z ≠ old) : successor old new z = z := if_neg hz

theorem successor_self : successor old new old = new := if_pos rfl

/-- A path stays one if its variables are renamed. -/
theorem Side.Leads.map {side : Side} (f : VarId → VarId) (h : side.Leads D x y) :
    side.Leads (Relation.Map D f f) (f x) (f y) := by
  cases side <;> exact ReflTransGen.lift f (fun a b hab => ⟨a, b, hab, rfl, rfl⟩) _ _ h

/-- They lead where the edges lead in which `old` is read as `new`. -/
theorem reflTransGen_takenOver : ReflTransGen (TakenOver D old new) x y ↔
    ReflTransGen (Relation.Map D (successor old new) (successor old new)) x y := by
  have hmap {a b : VarId} (hab : Side.lower.Leads D a b) :
      ReflTransGen (Relation.Map D (successor old new) (successor old new)) (successor old new a)
        (successor old new b) := hab.map _
  constructor
  · refine fun hpath => ReflTransGen.trans_induction_on hpath (fun _ => .refl) ?_ fun _ _ => .trans
    intro a b hab
    cases hab with
    | other hab ha hb => simpa only [successor_of_ne ha, successor_of_ne hb] using hmap hab
    | lower hab ha => simpa only [successor_of_ne ha.1, successor_self] using hmap hab
    | upper hab hb => simpa only [successor_self, successor_of_ne hb.1] using hmap hab
  · refine fun hpath => ReflTransGen.trans_induction_on hpath (fun _ => .refl) ?_ fun _ _ => .trans
    rintro _ _ ⟨a, b, hab, rfl, rfl⟩
    by_cases ha : a = old
    · rw [ha, successor_self]
      by_cases hb : b = old
      · rw [hb, successor_self]
      · rw [successor_of_ne hb]
        by_cases hbnew : b = new
        · rw [hbnew]
        · exact .single (.upper (.single (ha ▸ hab)) ⟨hb, hbnew⟩)
    · rw [successor_of_ne ha]
      by_cases hb : b = old
      · rw [hb, successor_self]
        by_cases hanew : a = new
        · rw [hanew]
        · exact .single (.lower (.single (hb ▸ hab)) ⟨ha, hanew⟩)
      · rw [successor_of_ne hb]
        exact .single (.other (.single hab) ha hb)

theorem Side.leads_takenOver {side : Side} : side.Leads (TakenOver D old new) x y ↔
    side.Leads (Relation.Map D (successor old new) (successor old new)) x y := by
  cases side <;> exact reflTransGen_takenOver

section

variable (hu : u.Legible) (h : Exact (PlainMember u) D B s.graph) (hq : s.graph.lattice.Quiet)
  (hne : old ≠ new) (hnew : new ∈ s.graph.ids)

include hu h hq hne hnew

/-- **A merge up to the removal**: what was added at `old`, or leads there, is recorded at `new` as
the bounds of `old`. -/
theorem cutOff_takeOver_exact
    (hrun : takeOver old new (others old new (s.graph.below old))
      (others old new (s.graph.above old))
      { s with graph := s.graph.cutOff old new } = (.ok (), s')) :
    SameBase (s.graph.redirect old new) s'.graph ∧
      Exact (PlainMember u) (TakenOver D old new)
      (fun side x t => (∃ y, B side y t ∧ side.Leads D y x) ∨
        x = new ∧ t = side.container ((s.graph.boundsOf old).side side)) s'.graph := by
  obtain ⟨hsides, hcut⟩ : (∀ x, SameBounds x s.graph (s.graph.cutOff old new)) ∧ Exact .. :=
    h.cutOff hu hq hnew
  have hsame : SameTypes (s.graph.redirect old new) ((s.graph.redirect old new).isolate old) :=
    sameTypes_isolate
  have hbase : SameBase (s.graph.redirect old new) (s.graph.cutOff old new) :=
    ⟨(h.wellFormed.cutOff hnew).ids_eq, hsame.names, hsame.lattice⟩
  have hlowers {x : VarId} : x ∈ others old new (s.graph.below old) ↔
      ReflTransGen D x old ∧ x ≠ old ∧ x ≠ new := by
    rw [mem_others_below]
    exact and_congr_left fun hx => h.edges x old hx.1
  have huppers {y : VarId} : y ∈ others old new (s.graph.above old) ↔
      ReflTransGen D old y ∧ y ≠ old ∧ y ≠ new := by
    rw [mem_others_above, ← h.wellFormed.mirrored]
    exact and_congr_left fun hy => h.edges old y (Ne.symm hy.1)
  have hneighbour {x : VarId} (hx : x ∈ others old new (s.graph.below old) ∨
      x ∈ others old new (s.graph.above old)) : x ∈ (s.graph.cutOff old new).ids ∧ x ≠ new := by
    rw [hbase.ids]
    rcases hx with hx | hx
    · obtain ⟨hx, -, hxnew⟩ := mem_others_below.1 hx
      exact ⟨h.wellFormed.mem_ids_of_mem_below hx, hxnew⟩
    · obtain ⟨hx, -, hxnew⟩ := mem_others_above.1 hx
      exact ⟨h.wellFormed.mem_ids_of_mem_above hx, hxnew⟩
  obtain ⟨hbase', hexact⟩ := takeOver_exact (s := { s with graph := s.graph.cutOff old new }) hu
    hcut (hbase.lattice ▸ hq) (hbase.ids ▸ hnew) (fun x hx => hneighbour (.inl hx))
    (fun y hy => hneighbour (.inr hy)) hrun
  refine ⟨hbase.trans hbase', hexact.congr (fun a b => ⟨?_, ?_⟩) fun side x t => ?_⟩
  · rintro ((⟨hab, ha, hb⟩ | ⟨x, hx, rfl, rfl⟩) | ⟨y, hy, rfl, rfl⟩)
    · exact .other hab ha hb
    · exact .lower (hlowers.1 hx).1 (hlowers.1 hx).2
    · exact .upper (huppers.1 hy).1 (huppers.1 hy).2
  · intro hab
    cases hab with
    | other hab ha hb => exact .inl (.inl ⟨hab, ha, hb⟩)
    | lower hab ha => exact .inl (.inr ⟨a, hlowers.2 ⟨hab, ha⟩, rfl, rfl⟩)
    | upper hab hb => exact .inr ⟨b, huppers.2 ⟨hab, hb⟩, rfl, rfl⟩
  · rw [hsides old side]

/-- **A merge** that came to its end: the graph is what the record demands in which `old` is read as
`new`. -/
theorem mergeInto_exact (hpin : ¬s.graph.isPinned old)
    (hrun : mergeInto old new s = (.ok (), s')) :
    Exact (PlainMember u) (Relation.Map D (successor old new) (successor old new))
        (fun side x t => ∃ y, B side y t ∧ successor old new y = x) s'.graph ∧
      s'.graph.lattice = s.graph.lattice ∧ s'.graph.ids = s.graph.ids.filter (· ≠ old) ∧
      s'.graph.names = (s.graph.redirect old new).names := by
  have hwf : s'.graph.WellFormed := by
    have hwf := mergeInto_wellFormed hne hnew h.wellFormed
    rwa [hrun] at hwf
  have hP := admits_plainMember hu
  rw [mergeInto_eq, graph_bind_apply, modify_bind_apply] at hrun
  obtain ⟨_, s₁, htake, hrun⟩ := bind_eq_ok.1 hrun
  rw [if_neg hpin] at hrun
  obtain rfl : { s₁ with graph := s₁.graph.unregister old } = s' := congrArg Prod.snd hrun
  obtain ⟨hbase, hexact⟩ := cutOff_takeOver_exact hu h hq hne hnew htake
  have hremoved :=
    hexact.unregister hwf fun x => ⟨fun hx => (hx.ne hne).2 rfl, fun hx => (hx.ne hne).1 rfl⟩
  have hleads {side : Side} {x y : VarId} (hxy : side.Leads D x y) :
      side.Leads (TakenOver D old new) (successor old new x) (successor old new y) :=
    Side.leads_takenOver.2 (hxy.map _)
  have hparts (side : Side) : side.parts (side.container ((s.graph.boundsOf old).side side)) =
      s.graph.has side old :=
    Side.parts_container fun t ht =>
      (hP.settled side t (h.tidy.admissible side old t ht)).ne_container
  refine ⟨hremoved.rerecord (fun _ _ => reflTransGen_takenOver) ?_ ?_, hbase.lattice,
    ?_, hbase.names⟩
  · rintro side _ t ⟨y, ht, rfl⟩ p hp
    by_cases hy : y = old
    · -- what was added at `old` is implied by the bound that `new` was given
      obtain ⟨e, he, hpe⟩ := (h.supplied side).asserted y t ht p hp
      rw [hy] at he ⊢
      rw [successor_self]
      exact ⟨new, _, ⟨Ne.symm hne, .inr ⟨rfl, rfl⟩⟩, .refl side _ new, e,
        (hparts side).symm ▸ he, hpe⟩
    · rw [successor_of_ne hy]
      exact ⟨y, t, ⟨hy, .inl ⟨y, ht, .refl side D y⟩⟩, .refl side _ y, p, hp, .refl⟩
  · rintro side x t ⟨hx, ⟨y, ht, hyx⟩ | ⟨rfl, rfl⟩⟩ p hp
    · have hyx := hleads hyx
      rw [successor_of_ne hx] at hyx
      exact ⟨_, t, ⟨y, ht, rfl⟩, hyx, hp⟩
    · -- and the members of that bound come from types that lead to `old`, so now they lead to `new`
      rw [hparts] at hp
      obtain ⟨y, t, ht, hyold, hpt⟩ := (h.supplied side).origin old p hp
      have hyold := hleads hyold
      rw [successor_self] at hyold
      exact ⟨_, t, ⟨y, ht, rfl⟩, hyold, hpt⟩
  · have hids : s₁.graph.ids = s.graph.ids := hbase.ids
    rw [← hids]
    exact ids_unregister

end

end

/-! ## Calls -/

/-- **The call in which `old` is read as `new`.** -/
def Call.substitute (old new : VarId) : Call → Call
  | addVariable name r => addVariable name (r.map fun r => { r with id := successor old new r.id })
  | addLower id t => addLower (successor old new id) t
  | addUpper id t => addUpper (successor old new id) t
  | addRef id r =>
    addRef (successor old new id) (r.map fun r => { r with id := successor old new r.id })
  | c => c

section

variable {calls : List Call} {old new x y : VarId} {side : Side} {t : Ty}

theorem addsEdge_substitute : AddsEdge (calls.map (Call.substitute old new)) x y ↔
    Relation.Map (AddsEdge calls) (successor old new) (successor old new) x y := by
  constructor
  · rintro ⟨r, rfl, hmem⟩
    obtain ⟨c, hc, heq⟩ := List.mem_map.1 hmem
    cases c with
    | addRef id r' =>
      cases r' with
      | none => cases heq
      | some r' =>
        cases heq
        exact ⟨r'.id, id, ⟨r', rfl, hc⟩, rfl, rfl⟩
    | _ => cases heq
  · rintro ⟨_, id, ⟨r, rfl, hc⟩, rfl, rfl⟩
    exact ⟨{ r with id := successor old new r.id }, rfl, List.mem_map.2 ⟨_, hc, rfl⟩⟩

theorem addsBound_substitute : AddsBound (calls.map (Call.substitute old new)) side x t ↔
    ∃ y, AddsBound calls side y t ∧ successor old new y = x := by
  constructor
  · intro hmem
    obtain ⟨c, hc, heq⟩ := List.mem_map.1 hmem
    cases side with
    | lower =>
      cases c with
      | addLower id t' =>
        cases heq
        exact ⟨id, hc, rfl⟩
      | _ => cases heq
    | upper =>
      cases c with
      | addUpper id t' =>
        cases heq
        exact ⟨id, hc, rfl⟩
      | _ => cases heq
  · rintro ⟨id, hc, rfl⟩
    refine List.mem_map.2 ⟨_, hc, ?_⟩
    cases side <;> rfl

end

namespace Graph

variable {u : Universe} {g : Graph} {calls : List Call} {old new : VarId}

/-- **Merging is substitution** in the record. -/
theorem ExactFor.merge (hu : u.Legible) (h : ExactFor u calls g) (hne : old ≠ new)
    (hpin : ¬g.isPinned old) (hacc : (g.merge old new).fault = none) :
    (g.merge old new).graph.ExactFor u (calls.map (Call.substitute old new)) ∧
      (g.merge old new).graph.ids = g.ids.filter (· ≠ old) ∧
      (g.merge old new).graph.names = (g.redirect old new).names := by
  obtain ⟨hnew, s, hrun, hgraph⟩ := merge_accepted hne hacc
  obtain ⟨hexact, hlattice, hids, hnames⟩ :=
    mergeInto_exact (s := { graph := g }) hu h.toExact h.quiet hne hnew hpin hrun
  rw [hgraph]
  refine ⟨⟨hexact.congr (fun _ _ => addsEdge_substitute.symm) fun _ _ _ =>
    addsBound_substitute.symm, ?_⟩,
    hids, hnames⟩
  rw [hlattice]
  exact h.quiet

/-! ## Names -/

/-- Every name denotes by a mutable reference. -/
def Mutable (g : Graph) : Prop := ∀ name r, g.names.get? name = some r → r.fixed = false

/-- The names denote the same. -/
structure SameReferences (g g' : Graph) : Prop where
  names : g'.names = g.names

instance : IsPreorder Graph SameReferences where
  refl _ := ⟨rfl⟩
  trans _ _ _ h h' := ⟨h'.names.trans h.names⟩

theorem sameReferences_spread (side : Side) (id : VarId) (t : Ty) (s : Progress) :
    Along SameReferences (spread side id t) s := ⟨(sameShape_spread side id t s).names⟩

theorem Mutable.of_sameReferences {g' : Graph} (h : g.Mutable) (hsame : SameReferences g g') :
    g'.Mutable := by
  intro name r hr
  rw [hsame.names] at hr
  exact h name r hr

/-- **One call**, accepted or not. -/
theorem Mutable.outcome {T : Ty → Prop} (h : g.Mutable) {c : Call} (hc : c.Builds T)
    (hr : ∀ name r, c = .addVariable name (some r) → r.fixed = false) :
    (c.outcome g).graph.Mutable := by
  cases c with
  | addVariable name r =>
    rw [Call.outcome]
    cases hg : g.addVariable name r with
    | error m => exact h
    | ok g' =>
      obtain ⟨r, rfl, -, rfl⟩ := addVariable_eq_ok.1 hg
      intro name' r' hr'
      replace hr' : (g.names.insert name r).get? name' = some r' := hr'
      rw [Table.get?_insert] at hr'
      split at hr'
      · cases hr'
        exact hr name r rfl
      · exact h name' r' hr'
  | addLower id t => exact h.of_sameReferences (along_addBound sameReferences_spread .lower id t)
  | addUpper id t => exact h.of_sameReferences (along_addBound sameReferences_spread .upper id t)
  | addRef id r =>
    refine h.of_sameReferences
      (along_addRef sameReferences_spread (fun _ => ⟨?_⟩) (fun _ _ => ⟨?_⟩) id r)
    · exact sameTypes_link.names
    · exact sameTypes_linkAcross.names
  | _ => exact hc.elim

/-- **All calls.** -/
theorem Mutable.after {T : Ty → Prop} (h : g.Mutable) (hcalls : ∀ c ∈ calls, c.Builds T)
    (hr : ∀ name r, .addVariable name (some r) ∈ calls → r.fixed = false) :
    (g.after calls).Mutable := by
  induction calls generalizing g with
  | nil => exact h
  | cons c calls ih =>
    refine ih (h.outcome (hcalls c (List.mem_cons_self ..)) fun name r hc => ?_)
      (fun c hc => hcalls c (List.mem_cons_of_mem _ hc)) fun name r hc =>
      hr name r (List.mem_cons_of_mem _ hc)
    exact hr name r (hc ▸ List.mem_cons_self ..)

theorem Mutable.not_isPinned (h : g.Mutable) (hwf : g.WellFormed) (x : VarId) : ¬g.isPinned x := by
  intro hpin
  obtain ⟨e, he, hfixed⟩ := List.any_eq_true.1 hpin
  have hmutable := h e.1 e.2 (Table.get?_of_mem_entries hwf.names_nodup he)
  rw [hmutable, Bool.and_false] at hfixed
  cases hfixed

theorem Mutable.names_redirect (h : g.Mutable) {name : String} {r : Reference}
    (hr : g.names.get? name = some r) :
    (g.redirect old new).names.get? name = some { r with id := successor old new r.id } := by
  rw [Graph.names_redirect, Table.get?_mapValues, hr]
  exact congrArg some (if_neg (by rw [h name r hr]; exact Bool.false_ne_true))

end Graph

/-- **Merging is substitution.** Whatever calls with plain types and mutable references were
accepted, and then a merge of `old` into another variable `new`: without implicit conversions the
graph is what the same calls demand with `new` in the place of `old`. The variable `old` is gone;
below a variable are those that reach it; its lower bound is made of parts of the types that were
added below it and covers every such part; its upper bound is made of parts of the types that were
added above it and is covered by every such part; and a name that denoted `old` denotes `new`, while
the others denote what they did. -/
theorem edges_and_bounds_of_merge {decls : List TypeDecl} {u : Universe}
    (hu : Universe.ofDecls decls = .ok u)
    (hnames : ∀ name ∈ u.types.keys, IsIdentifier name ∧ name ≠ "nothing")
    (tag : Nat) {lattice : Lattice} (policy : Policy) (hq : lattice.Quiet) {calls : List Call}
    (hcalls : ∀ c ∈ calls, c.Builds (Plain u) ∧ c.IsMutable)
    (hvariables : ∀ name r, .addVariable name (some r) ∈ calls → r.fixed = false)
    {old new : VarId} (hne : old ≠ new)
    (hacc : Graph.accepts { tag, lattice, policy } (calls ++ [.merge old new])) :
    let g := Graph.after { tag, lattice, policy } calls
    let g' := (g.merge old new).graph
    let calls' := calls.map (Call.substitute old new)
    (∀ y, y ∈ g'.ids ↔ y ∈ g.ids ∧ y ≠ old) ∧
    (∀ y ∈ g'.ids,
      (∀ x, x ≠ y → (x ∈ (g'.boundsOf y).below ↔ Reaches calls' x y)) ∧
      (∀ x t, .addLower x t ∈ calls' → Reaches calls' x y → ∀ p ∈ t.unionParts,
        ∃ e ∈ Members.types (g'.boundsOf y).lower, g'.isSubtype p e) ∧
      (∀ x t, .addUpper x t ∈ calls' → Reaches calls' y x → ∀ p ∈ t.interParts,
        ∃ e ∈ Members.types (g'.boundsOf y).upper, g'.isSubtype e p) ∧
      (∀ p ∈ Members.types (g'.boundsOf y).lower,
        ∃ x t, .addLower x t ∈ calls' ∧ Reaches calls' x y ∧ p ∈ t.unionParts) ∧
      ∀ p ∈ Members.types (g'.boundsOf y).upper,
        ∃ x t, .addUpper x t ∈ calls' ∧ Reaches calls' y x ∧ p ∈ t.interParts) ∧
    ∀ name r, g.names.get? name = some r →
      g'.names.get? name = some { r with id := successor old new r.id } := by
  intro g g' calls'
  have hlegible := Universe.legible_of_ofDecls hu hnames
  obtain ⟨hacc, hmerge⟩ := accepts_append.1 hacc
  have hexact : g.ExactFor u calls :=
    Graph.ExactFor.after hlegible
      (.empty tag policy hq (fun _ _ ⟨_, _, h⟩ => (List.not_mem_nil h).elim) fun _ _ _ h =>
        (List.not_mem_nil h).elim) hcalls hacc
  have hmutable : g.Mutable :=
    Mutable.after (fun _ _ h => by cases h) (fun c hc => (hcalls c hc).1) hvariables
  obtain ⟨hexact', hids, hnames'⟩ : g'.ExactFor u calls' ∧ _ := hexact.merge hlegible hne
    (hmutable.not_isPinned hexact.wellFormed old) (accepts_cons.1 hmerge).1
  have hplain (side : Side) {x : VarId} {t : Ty} (hadd : AddsBound calls' side x t) :
      Plain u t := by
    obtain ⟨y, hadd, -⟩ := addsBound_substitute.1 hadd
    cases side <;> exact (hcalls _ hadd).1
  have hpart (side : Side) {t p : Ty} (ht : Plain u t) (hp : p ∈ side.parts t) :
      ConvertibleFree u p :=
    (ht.convertibleFree.settled hlegible.toSound hp).convertibleFree
  refine ⟨fun y => ?_, fun y _ => ⟨fun x hne => hexact'.edges x y hne, fun x t hadd hxy p hp => ?_,
    fun x t hadd hxy p hp => ?_, (hexact'.supplied .lower).origin y,
    (hexact'.supplied .upper).origin y⟩, fun name r hr => ?_⟩
  · rw [hids]
    simp
  · have ht : Plain u t := hplain .lower hadd
    obtain ⟨e, he, hecf, hpe⟩ := hexact'.covers hlegible .lower ht hadd hxy hp
    exact ⟨e, he, (isSubtype_iff hlegible (hpart .lower ht hp) hecf).2 hpe⟩
  · have ht : Plain u t := hplain .upper hadd
    obtain ⟨e, he, hecf, hpe⟩ := hexact'.covers hlegible .upper ht hadd hxy hp
    exact ⟨e, he, (isSubtype_iff hlegible hecf (hpart .upper ht hp)).2 hpe⟩
  · rw [hnames']
    exact hmutable.names_redirect hr

/-- Two edges, with a bound at each end. -/
def apart : List Call :=
  [.addVariable "$w" (some { id := "T1" }), .addVariable "$x" (some { id := "T2" }),
    .addVariable "$y" (some { id := "T3" }), .addVariable "$z" (some { id := "T4" }),
    .addRef "T2" (some { id := "T1" }), .addRef "T4" (some { id := "T3" }), .addLower "T1" circle,
    .addUpper "T4" shape]

/-- If the middle ends are merged, the one edge leads to the other. -/
theorem edges_and_bounds_of_merge_apart :
    let g' := ((Graph.after { tag := 1 } apart).merge "T2" "T3").graph
    "T1" ∈ (g'.boundsOf "T4").below ∧ "T2" ∉ g'.ids ∧ g'.names.get? "$x" = some { id := "T3" } ∧
      (∃ e ∈ Members.types (g'.boundsOf "T4").lower, g'.isSubtype circle e) ∧
      ∃ e ∈ Members.types (g'.boundsOf "T1").upper, g'.isSubtype e shape := by
  intro g'
  have hcalls : ∀ c ∈ apart, c.Builds (Plain shapes) ∧ c.IsMutable := by
    simp [apart, Call.Builds, Call.IsMutable, plain_shape, plain_circle]
  have hvariables : ∀ name r, .addVariable name (some r) ∈ apart → r.fixed = false := by
    intro name r hr
    simp only [apart, List.mem_cons, List.not_mem_nil, Call.addVariable.injEq, Option.some.injEq,
      reduceCtorEq, or_false] at hr
    rcases hr with ⟨-, rfl⟩ | ⟨-, rfl⟩ | ⟨-, rfl⟩ | ⟨-, rfl⟩ <;> rfl
  obtain ⟨hids, hexact, hnames⟩ := edges_and_bounds_of_merge ofDecls_shapes (by decide) 1
    .plain .empty hcalls hvariables (show "T2" ≠ "T3" by decide) (by decide +kernel)
  have hreach : Reaches (apart.map (Call.substitute "T2" "T3")) "T1" "T4" :=
    .head ⟨{ id := "T1" }, rfl, by simp [apart, Call.substitute, successor]⟩
      (.single ⟨{ id := "T3" }, rfl, by simp [apart, Call.substitute, successor]⟩)
  obtain ⟨hbelow, hlower, -⟩ := hexact "T4" (by decide +kernel)
  obtain ⟨-, -, hupper, -⟩ := hexact "T1" (by decide +kernel)
  refine ⟨(hbelow "T1" (by decide)).2 hreach, fun h => ((hids "T2").1 h).2 rfl,
    hnames "$x" { id := "T2" } (by decide +kernel), ?_, ?_⟩
  · exact hlower "T1" circle (by simp [apart, Call.substitute, successor]) hreach circle
      (List.mem_singleton_self _)
  · exact hupper "T4" shape (by simp [apart, Call.substitute, successor]) hreach shape
      (List.mem_singleton_self _)

end TypeBounds
