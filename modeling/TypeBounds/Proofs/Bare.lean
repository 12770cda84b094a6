import Mathlib.Data.List.Find
import TypeBounds.Proofs.Makeup
import TypeBounds.Proofs.Ownership

/-!
# Types without convertibles

What convertibles stand for depends on the graph. Between **bare** types, which have none, subtyping
and conversions do not: every graph with the same conversions gives the same answers
(`isSubtype_eq_of_bare`, `implicit?_eq_of_bare`), however deep its questions are unrolled. A graph
is bare if all its bounds and conversions are, and whatever is bare may come in (`takes_bare`).
-/

namespace TypeBounds

namespace Ty

/-- No node of the type is a convertible. -/
def Bare (t : Ty) : Prop := t.Every fun s => s.isConvertible = false

variable {t p : Ty} {ms : Members}

theorem bare_container (side : Side) : (side.container ms).Bare ↔ ∀ m ∈ ms, m.2.Bare := by
  unfold Bare
  rw [every_container]
  exact and_iff_right (by cases side <;> rfl)

theorem bare_union : (Ty.union ms).Bare ↔ ∀ m ∈ ms, m.2.Bare := bare_container .lower

theorem bare_inter : (Ty.inter ms).Bare ↔ ∀ m ∈ ms, m.2.Bare := bare_container .upper

theorem not_bare_asVar {cell : Option Nat} {owner : Nat} {var : String} :
    ¬(asVar cell owner var).Bare := by
  simp [Bare, isConvertible]

theorem not_bare_asType : ¬(asType t).Bare := by simp [Bare, isConvertible]

theorem bare_iff : t.Bare ↔ t.convertibles = [] := by
  simp [Bare, Every, convertibles, List.filter_eq_nil_iff]

theorem Bare.isConvertible_eq (h : t.Bare) : t.isConvertible = false := by
  cases t with
  | asVar => exact absurd h not_bare_asVar
  | asType => exact absurd h not_bare_asType
  | _ => rfl

theorem lasting_bare : Lasting fun s => s.isConvertible = false where
  mixed := rfl
  container side _ := by cases side <;> rfl
  detach t h := by
    cases t with
    | asVar => cases h
    | _ => exact h

theorem Bare.copy (h : t.Bare) : t.copy.Bare := Every.copy lasting_bare h

theorem Bare.of_mem_parts (h : t.Bare) (side : Side) (hp : p ∈ side.parts t) : p.Bare :=
  Every.of_mem_parts h hp

end Ty

/-! ## Questions -/

theorem all_congr_of_mem {α : Type} {xs : List α} {p q : α → Bool} (h : ∀ x ∈ xs, p x = q x) :
    xs.all p = xs.all q := by
  rw [Bool.eq_iff_iff, List.all_eq_true, List.all_eq_true]
  exact forall₂_congr fun x hx => by rw [h x hx]

theorem any_congr_of_mem {α : Type} {xs : List α} {p q : α → Bool} (h : ∀ x ∈ xs, p x = q x) :
    xs.any p = xs.any q := by
  rw [Bool.eq_iff_iff, List.any_eq_true, List.any_eq_true]
  exact exists_congr fun x => and_congr_right fun hx => by rw [h x hx]

namespace Lattice

variable {l l' : Lattice} {r r' : Resolver} {a b : Ty} {sub sub' : Ty → Ty → Bool}
  {depth depth' : Nat}

/-- **Subtyping between bare types**, once it is unrolled deep enough for both of them. The
recursion is on the types alone. -/
theorem subtypeWithin_eq_of_bare (ha : a.Bare) (hb : b.Bare) (hdepth : a.size + b.size ≤ depth)
    (hdepth' : a.size + b.size ≤ depth') :
    l.subtypeWithin r depth a b = l'.subtypeWithin r' depth' a b := by
  have hpos := one_le_size a
  induction depth generalizing depth' a b with
  | zero => omega
  | succ depth ih =>
    obtain ⟨depth', rfl⟩ := Nat.exists_eq_add_of_le' (show 1 ≤ depth' by omega)
    have hleft {ms : Members} (hms : ∀ m ∈ ms, m.2.Bare) (hsize : a.size = 1 + Ty.sizeAll ms)
        (m : String × Ty) (hm : m ∈ ms) :
        l.subtypeWithin r depth m.2 b = l'.subtypeWithin r' depth' m.2 b := by
      have := size_le_sizeAll hm
      exact ih (hms m hm) hb (by omega) (by omega) (one_le_size m.2)
    have hright {ms : Members} (hms : ∀ m ∈ ms, m.2.Bare) (hsize : b.size = 1 + Ty.sizeAll ms)
        (m : String × Ty) (hm : m ∈ ms) :
        l.subtypeWithin r depth a m.2 = l'.subtypeWithin r' depth' a m.2 := by
      have := size_le_sizeAll hm
      exact ih ha (hms m hm) (by omega) (by omega) hpos
    rw [subtypeWithin, subtypeWithin, subtypeStep.eq_def, subtypeStep.eq_def]
    -- every case but those of convertibles asks about parts, which are smaller, or nothing
    refine if_congr Iff.rfl rfl ?_
    split
    · rfl
    · exact all_congr_of_mem (hleft (Ty.bare_union.1 ha) (size_container .lower _))
    · exact all_congr_of_mem (hright (Ty.bare_inter.1 hb) (size_container .upper _))
    · exact absurd ha Ty.not_bare_asVar
    · exact absurd ha Ty.not_bare_asType
    · exact any_congr_of_mem (hright (Ty.bare_union.1 hb) (size_container .lower _))
    · exact absurd hb Ty.not_bare_asVar
    · exact absurd hb Ty.not_bare_asType
    · exact any_congr_of_mem (hleft (Ty.bare_inter.1 ha) (size_container .upper _))
    · rfl

theorem size_add_size_le_depth : a.size + b.size ≤ l.depth r a b := by
  rw [depth_eq]
  have hsq := Nat.le_mul_self (a.size + b.size + r.extent + l.extent)
  omega

theorem isSubtype_eq_of_bare (ha : a.Bare) (hb : b.Bare) :
    l.isSubtype r a b = l'.isSubtype r' a b :=
  subtypeWithin_eq_of_bare ha hb size_add_size_le_depth size_add_size_le_depth

/-- A bare type is below an intersection if it has the name of it or is below every member. -/
theorem isSubtype_inter_iff_of_bare {ms : Members} (ha : a.Bare) (hne : ∀ ms, a ≠ .union ms)
    (hms : ∀ m ∈ ms, m.2.Bare) :
    l.isSubtype r a (.inter ms) ↔ a.name = (Ty.inter ms).name ∨ ∀ m ∈ ms, l.isSubtype r a m.2 := by
  have hdepth : a.size + (Ty.inter ms).size ≤ l.depth r a (.inter ms) := size_add_size_le_depth
  have hpos := one_le_size a
  obtain ⟨depth, hd⟩ := Nat.exists_eq_add_of_le' (show 1 ≤ l.depth r a (.inter ms) by omega)
  rw [isSubtype, hd, subtypeWithin, subtypeStep.eq_def]
  by_cases hname : a.name = (Ty.inter ms).name
  · rw [if_pos hname]
    exact iff_of_true rfl (.inl hname)
  have hmembers : (∀ m ∈ ms, l.subtypeWithin r depth a m.2) ↔ ∀ m ∈ ms, l.isSubtype r a m.2 := by
    refine forall₂_congr fun m hm => ?_
    have : m.2.size < (Ty.inter ms).size := size_lt_container .upper hm
    rw [isSubtype, subtypeWithin_eq_of_bare ha (hms m hm) (by omega) size_add_size_le_depth]
  rw [if_neg hname, or_iff_right hname, ← hmembers, ← List.all_eq_true]
  cases a with
  | union ms' => exact absurd rfl (hne ms')
  | _ => exact Iff.rfl

theorem implicit?_eq_of_bare (hl : l.Plain) (ha : a.Bare) (hb : b.Bare) :
    l.implicit? r a b = l.implicit? r' a b := by
  refine bridge?_congr (f := id) (P := Ty.Bare) (fun ms hms => ?_) (fun a ha hne => ⟨hne, ?_⟩) ha
  · refine ⟨by simp, fun m hm => ?_⟩
    have hbare := Ty.bare_union.1 hms m hm
    exact ⟨hbare, isSubtype_eq_of_bare hbare hb⟩
  · rw [candidates_congr rfl fun c hc => isSubtype_eq_of_bare ha (Ty.bare_iff.2 (hl c hc).1)]
    refine List.find?_congr fun c hc => ?_
    rw [isSubtype_eq_of_bare (Ty.bare_iff.2 (hl c (mem_conversions_of_mem_candidates hc)).2) hb]

end Lattice

/-! ## Graphs -/

namespace Graph

variable {g g' : Graph} {side : Side} {id x : VarId} {m t a b : Ty} {ms : Members}

/-- **A bare graph** has no convertibles in its bounds and in its conversions. -/
structure Bare (g : Graph) : Prop where
  plain : g.lattice.Plain
  stored : ∀ (side : Side) (x : VarId), ∀ m ∈ (g.boundsOf x).side side, m.2.Bare

theorem bare_iff_madeOf : g.Bare ↔ g.MadeOf fun s => s.isConvertible = false := by
  constructor
  · intro h
    exact ⟨fun c hc => ⟨Ty.bare_iff.2 (h.plain c hc).1, Ty.bare_iff.2 (h.plain c hc).2⟩, h.stored⟩
  · intro h
    exact ⟨fun c hc => ⟨Ty.bare_iff.1 (h.conversion c hc).1, Ty.bare_iff.1 (h.conversion c hc).2⟩,
      h.stored⟩

alias ⟨Bare.madeOf, MadeOf.bare⟩ := bare_iff_madeOf

theorem isSubtype_eq (ha : a.Bare) (hb : b.Bare) : g.isSubtype a b = g'.isSubtype a b :=
  Lattice.isSubtype_eq_of_bare ha hb

theorem Bare.implicit?_eq (h : g.Bare) (hlattice : g'.lattice = g.lattice) (ha : a.Bare)
    (hb : b.Bare) : g'.implicit? a b = g.implicit? a b := by
  rw [implicit?, hlattice]
  exact Lattice.implicit?_eq_of_bare h.plain ha hb

theorem isSelf_of_bare (h : t.Bare) : g.isSelf x t = false := by
  cases t with
  | asVar => exact absurd h Ty.not_bare_asVar
  | _ => rfl

theorem isUnresolved_of_bare (h : t.Bare) : g.isUnresolved t = false := by
  rw [isUnresolved, h.isConvertible_eq, Bool.false_and]

theorem Bare.mem_types (h : g.Bare) (side : Side) {e : Ty}
    (he : e ∈ Members.types ((g.boundsOf x).side side)) : e.Bare := by
  obtain ⟨m, hm, rfl⟩ := Members.mem_types.1 he
  exact h.stored side x m hm

theorem pointsAt_of_bare (h : ∀ m ∈ ms, m.2.Bare) : g.pointsAt ms x = false := by
  rw [pointsAt, List.any_eq_false]
  intro s hs
  obtain ⟨m, hm, hs⟩ := mem_subtermsAll.1 hs
  cases s with
  | asVar cell owner var => cases h m hm _ hs
  | _ => exact Bool.false_ne_true

theorem Bare.of_sameTypes (h : g.Bare) (hsame : SameTypes g g') : g'.Bare :=
  (h.madeOf.of_sameMembers hsame.sameMembers).bare

/-- Changing one record, as long as both its sides stay bare. -/
theorem Bare.update (h : g.Bare) {f : Bounds → Bounds}
    (hf : ∀ side : Side, ∀ m ∈ (f (g.boundsOf id)).side side, m.2.Bare) : (g.update id f).Bare :=
  (h.madeOf.update hf).bare

theorem Bare.insertLower (h : g.Bare) (hm : m.Bare) (id : VarId) : (g.insertLower id m).Bare :=
  (h.madeOf.insertLower Ty.lasting_bare hm id).bare

theorem Bare.insertUpper (h : g.Bare) (hm : m.Bare) (hg : g.insertUpper id m = .ok g') : g'.Bare :=
  (h.madeOf.insertUpper Ty.lasting_bare hm hg).bare

/-! ## What inserting leaves alone -/

theorem boundsOf_insertLower_ne (h : x ≠ id) : (g.insertLower id m).boundsOf x = g.boundsOf x := by
  rw [insertLower_eq, boundsOf_update_ne h]
  refine List.foldlRecOn (motive := fun g' : Graph => g'.boundsOf x = g.boundsOf x) _ _ rfl
    fun g' hg' e _ => ?_
  unfold dropCovered
  split
  · rw [boundsOf_update_ne h, hg']
  · exact hg'

theorem upper_insertLower : ((g.insertLower id m).boundsOf x).upper = (g.boundsOf x).upper := by
  have hset (g' : Graph) (f : Members → Members) :
      ((g'.update id fun b => { b with lower := f b.lower }).boundsOf x).upper =
      (g'.boundsOf x).upper :=
    field_update Bounds.upper fun _ => rfl
  rw [insertLower_eq]
  refine (hset _ fun ms => Members.add ms m.copy).trans ?_
  refine List.foldlRecOn (motive := fun g' : Graph => (g'.boundsOf x).upper = (g.boundsOf x).upper)
    _ _ rfl fun g' hg' e _ => ?_
  unfold dropCovered
  split
  · exact (hset g' fun ms => Members.erase ms e.name).trans hg'
  · exact hg'

theorem boundsOf_insertUpper_ne (h : x ≠ id) (hg : g.insertUpper id m = .ok g') :
    g'.boundsOf x = g.boundsOf x := by
  unfold insertUpper at hg
  dsimp only at hg
  split at hg
  · cases hg
  · cases hg
    exact boundsOf_update_ne h _

theorem Bare.conversion (h : g.Bare) {c : Conversion} (hc : c ∈ g.lattice.conversions) :
    c.source.Bare ∧ c.target.Bare :=
  ⟨Ty.bare_iff.2 (h.plain c hc).1, Ty.bare_iff.2 (h.plain c hc).2⟩

theorem takes_bare : Takes (fun _ => Ty.Bare) Bare where
  parts side _ ht _ hp := ht.of_mem_parts side hp
  conversion _ hg _ hc := hg.conversion hc
  insertLower _ id _ hm hg := hg.insertLower hm id
  insertUpper _ _ _ _ hm hg' hg := hg.insertUpper hm hg'

/-! ## Merging and fixing -/

theorem Bare.of_boundsOf (h : g.Bare) (hlattice : g'.lattice = g.lattice)
    (hbounds : ∀ x, g'.boundsOf x = g.boundsOf x) : g'.Bare := by
  refine ⟨hlattice ▸ h.plain, fun side x => ?_⟩
  rw [hbounds]
  exact h.stored side x

/-- There is nothing to rename when a variable is cut off. -/
theorem Bare.boundsOf_cutOff (h : g.Bare) (old new x : VarId) :
    (g.cutOff old new).boundsOf x = ((g.redirect old new).isolate old).boundsOf x := by
  have hredirected : (g.redirect old new).Bare := h.of_boundsOf rfl fun _ => rfl
  have hcut : ((g.redirect old new).isolate old).Bare := hredirected.of_sameTypes sameTypes_isolate
  exact boundsOf_renameConvertibles (pointsAt_of_bare (hcut.stored .lower x))
    (pointsAt_of_bare (hcut.stored .upper x))

theorem Bare.side_cutOff (h : g.Bare) (old new : VarId) (side : Side) (x : VarId) :
    ((g.cutOff old new).boundsOf x).side side = (g.boundsOf x).side side := by
  have hsame : SameTypes (g.redirect old new) ((g.redirect old new).isolate old) :=
    sameTypes_isolate
  rw [h.boundsOf_cutOff]
  exact hsame.sameMembers.sides side x

theorem Bare.unregister (h : g.Bare) (x : VarId) : (g.unregister x).Bare :=
  (h.madeOf.unregister x).bare

/-- What a variable was to be resolved to is bare, also if it is looked up later. -/
theorem Bare.type (h : g.Bare) (h' : g'.Bare) (x : VarId) :
    ((g.boundsOf x).resolution.type (g'.boundsOf x)).Bare :=
  h.madeOf.type Ty.lasting_bare h'.madeOf x

theorem Bare.settle (h : g.Bare) (x : VarId) : (settle x g).Bare :=
  (h.madeOf.settle Ty.lasting_bare x).bare

theorem Bare.detach (h : g.Bare) (x : VarId) : (detach x g).Bare :=
  (h.madeOf.of_sameMembers sameMembers_detach).bare

/-- A bound as a whole, as it is handed on. -/
theorem Bare.container (h : g.Bare) (side : Side) (x : VarId) :
    (side.container ((g.boundsOf x).side side)).copy.Bare :=
  (handsOn_madeOf Ty.lasting_bare).bound g h.madeOf side x

end Graph

theorem recheck_of_bare {s : Progress} (h : s.graph.Bare) (x : VarId) :
    recheck x s = (.ok (), s) := by
  unfold recheck
  rw [Infer.graph_bind_apply]
  refine Infer.forM_pure fun y _ => ?_
  have hlower := Graph.pointsAt_of_bare (g := s.graph) (x := x) (h.stored .lower y)
  have hupper := Graph.pointsAt_of_bare (g := s.graph) (x := x) (h.stored .upper y)
  rw [if_neg]
  · rfl
  · rw [show s.graph.pointsAt (s.graph.boundsOf y).lower x = false from hlower,
      show s.graph.pointsAt (s.graph.boundsOf y).upper x = false from hupper]
    exact Bool.false_ne_true

end TypeBounds
