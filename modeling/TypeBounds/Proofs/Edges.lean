import Mathlib.Data.List.Basic
import TypeBounds.Graph.Merge
import TypeBounds.Proofs.Along
import TypeBounds.Proofs.Records

/-!
# Edges and the structure of a graph

An edge is kept twice, below its upper end and above its lower end. This module says

* what a change of bounds leaves alone (`SameShape`) and what a change of edges does (`SameTypes`);
* when a graph is well formed (`Graph.WellFormed`): the two sides of every edge agree, and names and
  edges lead to registered variables only;
* which edges there are after `link`, `unlink`, `linkAcross` and `isolate`, and that these keep a
  graph well formed.
-/

namespace TypeBounds

/-! ## What a change leaves alone -/

/-- The two graphs have the same variables and names in the same setting. -/
structure SameFrame (g g' : Graph) : Prop where
  ids : g'.ids = g.ids
  names : g'.names = g.names
  frozen : ∀ x, (g'.boundsOf x).frozen = (g.boundsOf x).frozen
  tag : g'.tag = g.tag
  lattice : g'.lattice = g.lattice
  policy : g'.policy = g.policy
  minted : g'.minted = g.minted
  overloads : g'.overloads = g.overloads

/-- The two graphs differ in type bounds at most. -/
structure SameShape (g g' : Graph) : Prop extends SameFrame g g' where
  below : ∀ x, (g'.boundsOf x).below = (g.boundsOf x).below
  above : ∀ x, (g'.boundsOf x).above = (g.boundsOf x).above

/-- The two graphs differ in edges at most. -/
structure SameTypes (g g' : Graph) : Prop extends SameFrame g g' where
  lower : ∀ x, (g'.boundsOf x).lower = (g.boundsOf x).lower
  upper : ∀ x, (g'.boundsOf x).upper = (g.boundsOf x).upper

theorem SameFrame.rfl {g : Graph} : SameFrame g g :=
  ⟨.refl _, .refl _, fun _ => .refl _, .refl _, .refl _, .refl _, .refl _, .refl _⟩

theorem SameFrame.trans {g g' g'' : Graph} (h : SameFrame g g') (h' : SameFrame g' g'') :
    SameFrame g g'' where
  ids := h'.ids.trans h.ids
  names := h'.names.trans h.names
  frozen x := (h'.frozen x).trans (h.frozen x)
  tag := h'.tag.trans h.tag
  lattice := h'.lattice.trans h.lattice
  policy := h'.policy.trans h.policy
  minted := h'.minted.trans h.minted
  overloads := h'.overloads.trans h.overloads

instance : IsPreorder Graph SameShape where
  refl _ := ⟨.rfl, fun _ => rfl, fun _ => rfl⟩
  trans _ _ _ h h' := ⟨h.toSameFrame.trans h'.toSameFrame,
    fun x => (h'.below x).trans (h.below x), fun x => (h'.above x).trans (h.above x)⟩

instance : IsPreorder Graph SameTypes where
  refl _ := ⟨.rfl, fun _ => rfl, fun _ => rfl⟩
  trans _ _ _ h h' := ⟨h.toSameFrame.trans h'.toSameFrame,
    fun x => (h'.lower x).trans (h.lower x), fun x => (h'.upper x).trans (h.upper x)⟩

namespace Graph

variable {g g' : Graph} {id lower upper s t x y : VarId}

theorem field_update {α : Type} (p : Bounds → α) {f : Bounds → Bounds} (hf : ∀ b, p (f b) = p b) :
    p ((g.update id f).boundsOf x) = p (g.boundsOf x) := by
  rw [boundsOf_update]
  split
  · exact hf _
  · rfl

theorem sameFrame_update {f : Bounds → Bounds} (hf : ∀ b, (f b).frozen = b.frozen) :
    SameFrame g (g.update id f) :=
  ⟨ids_update f, rfl, fun _ => field_update Bounds.frozen hf, rfl, rfl, rfl, rfl, rfl⟩

theorem sameShape_update {f : Bounds → Bounds}
    (hf : ∀ b, (f b).below = b.below ∧ (f b).above = b.above ∧ (f b).frozen = b.frozen) :
    SameShape g (g.update id f) where
  toSameFrame := sameFrame_update fun b => (hf b).2.2
  below _ := field_update Bounds.below fun b => (hf b).1
  above _ := field_update Bounds.above fun b => (hf b).2.1

theorem sameTypes_update {f : Bounds → Bounds}
    (hf : ∀ b, (f b).lower = b.lower ∧ (f b).upper = b.upper ∧ (f b).frozen = b.frozen) :
    SameTypes g (g.update id f) where
  toSameFrame := sameFrame_update fun b => (hf b).2.2
  lower _ := field_update Bounds.lower fun b => (hf b).1
  upper _ := field_update Bounds.upper fun b => (hf b).2.1

/-- A fold takes the graph along whatever its steps take it along. -/
theorem along_foldl {α : Type} (R : Graph → Graph → Prop) [IsPreorder Graph R]
    {f : Graph → α → Graph} (hf : ∀ g a, R g (f g a)) (xs : List α) : R g (xs.foldl f g) := by
  induction xs generalizing g with
  | nil => exact refl_of R g
  | cons a xs ih => exact trans_of R (hf g a) ih

/-- Takes a member out of the lower bound of a variable if `m` covers it. -/
def dropCovered (id : VarId) (m : Ty) (g : Graph) (e : Ty) : Graph :=
  if g.isSubtype e m then g.update id fun b =>
    { b with lower := Members.erase b.lower e.name } else g

theorem insertLower_eq (m : Ty) :
    g.insertLower id m =
      ((Members.types (g.boundsOf id).lower).foldl (dropCovered id m) g).update id
      fun b => { b with lower := Members.add b.lower m.copy } := rfl

theorem sameShape_dropCovered (m e : Ty) : SameShape g (dropCovered id m g e) := by
  unfold dropCovered
  split
  · exact sameShape_update fun _ => ⟨rfl, rfl, rfl⟩
  · exact refl_of SameShape g

theorem sameShape_insertLower (m : Ty) : SameShape g (g.insertLower id m) := by
  rw [insertLower_eq]
  have hdrop (es : List Ty) : SameShape g (es.foldl (dropCovered id m) g) :=
    along_foldl SameShape (fun _ e => sameShape_dropCovered m e) es
  refine trans_of SameShape (hdrop _) (sameShape_update fun _ => ?_)
  exact ⟨rfl, rfl, rfl⟩

theorem sameShape_insertUpper {m : Ty} (h : g.insertUpper id m = .ok g') : SameShape g g' := by
  unfold insertUpper at h
  dsimp only at h
  split at h
  · cases h
  · cases h
    exact sameShape_update fun _ => ⟨rfl, rfl, rfl⟩

/-- **Propagation** touches type bounds only. -/
theorem sameShape_spreadWithin (depth : Nat) (side : Side) (start : VarId) (t : Ty) (s : Progress) :
    Infer.Along SameShape (spreadWithin depth side start t) s :=
  along_spreadWithin (fun _ _ m => sameShape_insertLower m)
    (fun _ _ _ _ h => sameShape_insertUpper h) ..

theorem sameShape_spread (side : Side) (start : VarId) (t : Ty) (s : Progress) :
    Infer.Along SameShape (spread side start t) s :=
  Infer.Along.graph_bind (sameShape_spreadWithin _ side start t s)

/-! ## Well-formed graphs -/

/-- **The structure of a graph.** Nothing is listed twice, the two sides of every edge agree, and
every name denotes a registered variable. -/
structure WellFormed (g : Graph) : Prop where
  ids_nodup : g.ids.Nodup
  names_nodup : g.names.keys.Nodup
  below_nodup : ∀ x, (g.boundsOf x).below.Nodup
  above_nodup : ∀ x, (g.boundsOf x).above.Nodup
  mirrored : ∀ s t, s ∈ (g.boundsOf t).below ↔ t ∈ (g.boundsOf s).above
  denoted : ∀ name r, g.names.get? name = some r → r.id ∈ g.ids

theorem mem_ids_of_mem_below_of (h : s ∈ (g.boundsOf t).below) : t ∈ g.ids := by
  by_contra ht
  rw [boundsOf_of_not_mem ht] at h
  cases h

theorem mem_ids_of_mem_above_of (h : t ∈ (g.boundsOf s).above) : s ∈ g.ids := by
  by_contra hs
  rw [boundsOf_of_not_mem hs] at h
  cases h

namespace WellFormed

/-- Whatever is below a variable is registered: it has an edge of its own. -/
theorem mem_ids_of_mem_below (h : g.WellFormed) (hs : s ∈ (g.boundsOf t).below) : s ∈ g.ids :=
  mem_ids_of_mem_above_of ((h.mirrored s t).1 hs)

theorem mem_ids_of_mem_above (h : g.WellFormed) (ht : t ∈ (g.boundsOf s).above) : t ∈ g.ids :=
  mem_ids_of_mem_below_of ((h.mirrored s t).2 ht)

theorem of_sameShape (h : g.WellFormed) (hs : SameShape g g') : g'.WellFormed where
  ids_nodup := hs.ids ▸ h.ids_nodup
  names_nodup := hs.names ▸ h.names_nodup
  below_nodup x := hs.below x ▸ h.below_nodup x
  above_nodup x := hs.above x ▸ h.above_nodup x
  mirrored s t := by rw [hs.below, hs.above]; exact h.mirrored s t
  denoted := by rw [hs.names, hs.ids]; exact h.denoted

end WellFormed

/-! ## Adding edges -/

theorem sameTypes_link : SameTypes g (g.link lower upper) := by
  unfold link
  refine trans_of SameTypes (sameTypes_update fun _ => ?_) (sameTypes_update fun _ => ?_)
  · exact ⟨rfl, rfl, rfl⟩
  · exact ⟨rfl, rfl, rfl⟩

theorem below_link (hu : upper ∈ g.ids) :
    ((g.link lower upper).boundsOf t).below =
      if t = upper then (g.boundsOf t).below.insert lower else (g.boundsOf t).below := by
  simp only [link, boundsOf_update, ids_update, apply_ite Bounds.below, ite_self]
  by_cases ht : t = upper <;> simp [ht, hu]

theorem above_link (hl : lower ∈ g.ids) :
    ((g.link lower upper).boundsOf s).above =
      if s = lower then (g.boundsOf s).above.insert upper else (g.boundsOf s).above := by
  simp only [link, boundsOf_update, ids_update, apply_ite Bounds.above, ite_self]
  by_cases hs : s = lower <;> simp [hs, hl]

/-- The edges after linking two registered variables: those from before and the new one. -/
theorem mem_below_link (hu : upper ∈ g.ids) :
    s ∈ ((g.link lower upper).boundsOf t).below ↔ s ∈ (g.boundsOf t).below ∨ s = lower ∧
      t = upper := by
  rw [below_link hu]
  split <;> simp [*, or_comm]

theorem mem_above_link (hl : lower ∈ g.ids) :
    t ∈ ((g.link lower upper).boundsOf s).above ↔ t ∈ (g.boundsOf s).above ∨ s = lower ∧
      t = upper := by
  rw [above_link hl]
  split <;> simp [*, or_comm]

theorem WellFormed.link (h : g.WellFormed) (hl : lower ∈ g.ids) (hu : upper ∈ g.ids) :
    (g.link lower upper).WellFormed where
  ids_nodup := by rw [sameTypes_link.ids]; exact h.ids_nodup
  names_nodup := h.names_nodup
  below_nodup x := by
    rw [below_link hu]
    split
    · exact (h.below_nodup x).insert
    · exact h.below_nodup x
  above_nodup x := by
    rw [above_link hl]
    split
    · exact (h.above_nodup x).insert
    · exact h.above_nodup x
  mirrored s t := by rw [mem_below_link hu, mem_above_link hl, h.mirrored s t]
  denoted := by rw [sameTypes_link.ids]; exact h.denoted

/-- Links `x` with each of `ys`, itself excepted. -/
def linkAll (g : Graph) (x : VarId) (ys : List VarId) : Graph :=
  ys.foldl (fun g y => if x = y then g else g.link x y) g

theorem linkAcross_eq : g.linkAcross lower upper =
    (lower :: g.below lower).foldl (fun g' x => g'.linkAll x (upper :: g.above upper)) g := rfl

theorem sameTypes_linkAll (ys : List VarId) : SameTypes g (g.linkAll x ys) := by
  refine along_foldl SameTypes (fun g y => ?_) ys
  split
  · exact refl_of SameTypes g
  · exact sameTypes_link

theorem sameTypes_linkAcross : SameTypes g (g.linkAcross lower upper) :=
  along_foldl SameTypes (fun _ _ => sameTypes_linkAll _) _

theorem WellFormed.linkAll (h : g.WellFormed) (hx : x ∈ g.ids) {ys : List VarId}
    (hys : ∀ y ∈ ys, y ∈ g.ids) :
    (g.linkAll x ys).WellFormed ∧ ∀ s t, s ∈ ((g.linkAll x ys).boundsOf t).below ↔
      s ∈ (g.boundsOf t).below ∨ s = x ∧ t ∈ ys ∧ s ≠ t := by
  unfold Graph.linkAll
  induction ys generalizing g with
  | nil => exact ⟨h, by simp⟩
  | cons y ys ih =>
    have hy : y ∈ g.ids := hys y (List.mem_cons_self ..)
    have hys : ∀ z ∈ ys, z ∈ g.ids := fun z hz => hys z (List.mem_cons_of_mem _ hz)
    rw [List.foldl_cons]
    by_cases hxy : x = y
    · rw [if_pos hxy]
      obtain ⟨hwf, hedge⟩ := ih h hx hys
      refine ⟨hwf, fun s t => ?_⟩
      rw [hedge]
      grind
    · rw [if_neg hxy]
      have hids : (g.link x y).ids = g.ids := sameTypes_link.ids
      obtain ⟨hwf, hedge⟩ := ih (h.link hx hy) (hids ▸ hx) (hids ▸ hys)
      refine ⟨hwf, fun s t => ?_⟩
      rw [hedge, mem_below_link hy]
      grind

theorem WellFormed.linkEach (h : g.WellFormed) {xs ys : List VarId} (hxs : ∀ x ∈ xs, x ∈ g.ids)
    (hys : ∀ y ∈ ys, y ∈ g.ids) :
    (xs.foldl (fun g x => g.linkAll x ys) g).WellFormed ∧
      ∀ s t, s ∈ ((xs.foldl (fun g x => g.linkAll x ys) g).boundsOf t).below ↔
        s ∈ (g.boundsOf t).below ∨ s ∈ xs ∧ t ∈ ys ∧ s ≠ t := by
  induction xs generalizing g with
  | nil => exact ⟨h, by simp⟩
  | cons x xs ih =>
    have hx : x ∈ g.ids := hxs x (List.mem_cons_self ..)
    have hxs : ∀ z ∈ xs, z ∈ g.ids := fun z hz => hxs z (List.mem_cons_of_mem _ hz)
    rw [List.foldl_cons]
    obtain ⟨hwf, hone⟩ := h.linkAll hx hys
    have hids : (g.linkAll x ys).ids = g.ids := (sameTypes_linkAll ys).ids
    obtain ⟨hwf, hedge⟩ := ih hwf (hids ▸ hxs) (hids ▸ hys)
    refine ⟨hwf, fun s t => ?_⟩
    rw [hedge, hone]
    grind

/-- **The closure of a new edge.** Everything up to `lower` is now below everything from `upper`
on. -/
theorem WellFormed.linkAcross (h : g.WellFormed) (hl : lower ∈ g.ids) (hu : upper ∈ g.ids) :
    (g.linkAcross lower upper).WellFormed ∧
      ∀ s t, s ∈ ((g.linkAcross lower upper).boundsOf t).below ↔
        s ∈ (g.boundsOf t).below ∨ (s = lower ∨ s ∈ (g.boundsOf lower).below) ∧
          (t = upper ∨ t ∈ (g.boundsOf upper).above) ∧ s ≠ t := by
  have hls : ∀ x ∈ lower :: g.below lower, x ∈ g.ids := by
    intro x hx
    rcases List.mem_cons.1 hx with rfl | hx
    · exact hl
    · exact h.mem_ids_of_mem_below (Natural.mem_sort.1 hx)
  have hus : ∀ y ∈ upper :: g.above upper, y ∈ g.ids := by
    intro y hy
    rcases List.mem_cons.1 hy with rfl | hy
    · exact hu
    · exact h.mem_ids_of_mem_above (Natural.mem_sort.1 hy)
  obtain ⟨hwf, hedge⟩ := h.linkEach hls hus
  refine ⟨hwf, fun s t => ?_⟩
  rw [linkAcross_eq, hedge]
  simp [Graph.below, Graph.above]

/-! ## Removing edges -/

theorem sameTypes_unlink : SameTypes g (g.unlink lower upper) := by
  unfold unlink
  refine trans_of SameTypes (sameTypes_update fun _ => ?_) (sameTypes_update fun _ => ?_)
  · exact ⟨rfl, rfl, rfl⟩
  · exact ⟨rfl, rfl, rfl⟩

theorem below_unlink :
    ((g.unlink lower upper).boundsOf t).below =
      if t = upper then (g.boundsOf t).below.erase lower else (g.boundsOf t).below := by
  simp only [unlink, boundsOf_update, ids_update, apply_ite Bounds.below, ite_self]
  by_cases ht : t ∈ g.ids <;> simp [ht, boundsOf_of_not_mem]

theorem above_unlink :
    ((g.unlink lower upper).boundsOf s).above =
      if s = lower then (g.boundsOf s).above.erase upper else (g.boundsOf s).above := by
  simp only [unlink, boundsOf_update, ids_update, apply_ite Bounds.above, ite_self]
  by_cases hs : s ∈ g.ids <;> simp [hs, boundsOf_of_not_mem]

theorem WellFormed.mem_below_unlink (h : g.WellFormed) :
    s ∈ ((g.unlink lower upper).boundsOf t).below ↔
      s ∈ (g.boundsOf t).below ∧ ¬(s = lower ∧ t = upper) := by
  rw [below_unlink]
  split
  · rw [(h.below_nodup t).mem_erase_iff]
    grind
  · grind

theorem WellFormed.mem_above_unlink (h : g.WellFormed) :
    t ∈ ((g.unlink lower upper).boundsOf s).above ↔
      t ∈ (g.boundsOf s).above ∧ ¬(s = lower ∧ t = upper) := by
  rw [above_unlink]
  split
  · rw [(h.above_nodup s).mem_erase_iff]
    grind
  · grind

theorem WellFormed.unlink (h : g.WellFormed) : (g.unlink lower upper).WellFormed where
  ids_nodup := by rw [sameTypes_unlink.ids]; exact h.ids_nodup
  names_nodup := h.names_nodup
  below_nodup x := by
    rw [below_unlink]
    split
    · exact (h.below_nodup x).erase _
    · exact h.below_nodup x
  above_nodup x := by
    rw [above_unlink]
    split
    · exact (h.above_nodup x).erase _
    · exact h.above_nodup x
  mirrored s t := by rw [h.mem_below_unlink, h.mem_above_unlink, h.mirrored s t]
  denoted := by rw [sameTypes_unlink.ids]; exact h.denoted

theorem WellFormed.unlinkEach (h : g.WellFormed) (es : List (VarId × VarId)) :
    (es.foldl (fun g e => g.unlink e.1 e.2) g).WellFormed ∧
      ∀ s t, s ∈ ((es.foldl (fun g e => g.unlink e.1 e.2) g).boundsOf t).below ↔
        s ∈ (g.boundsOf t).below ∧ (s, t) ∉ es := by
  induction es generalizing g with
  | nil => exact ⟨h, by simp⟩
  | cons e es ih =>
    have hone : (g.unlink e.1 e.2).WellFormed := h.unlink
    obtain ⟨hwf, hedge⟩ := ih hone
    refine ⟨hwf, fun s t => ?_⟩
    rw [List.foldl_cons, hedge, h.mem_below_unlink]
    grind

theorem isolate_eq : g.isolate id = ((g.below id).map (·, id) ++ (g.above id).map (id, ·)).foldl
    (fun g e => g.unlink e.1 e.2) g := by
  rw [List.foldl_append, List.foldl_map, List.foldl_map]
  rfl

theorem sameTypes_isolate : SameTypes g (g.isolate id) := by
  rw [isolate_eq]
  exact along_foldl SameTypes (fun _ _ => sameTypes_unlink) _

/-- **Isolation** removes exactly the edges that `id` is an end of. -/
theorem WellFormed.isolate (h : g.WellFormed) (id : VarId) :
    (g.isolate id).WellFormed ∧ ∀ s t, s ∈ ((g.isolate id).boundsOf t).below ↔
      s ∈ (g.boundsOf t).below ∧ s ≠ id ∧ t ≠ id := by
  rw [isolate_eq]
  obtain ⟨hwf, hedge⟩ := h.unlinkEach ((g.below id).map (·, id) ++ (g.above id).map (id, ·))
  refine ⟨hwf, fun s t => ?_⟩
  rw [hedge]
  have hm := h.mirrored id t
  simp only [Graph.below, Graph.above, List.mem_append, List.mem_map, Natural.mem_sort]
  grind

end Graph

end TypeBounds
