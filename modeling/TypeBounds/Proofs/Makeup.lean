import TypeBounds.Proofs.Intake

/-!
# What bounds are made of

Types come into a graph in parts, are copied, stored and handed on. A property of nodes that is not
about containers, and that copies keep, is not lost by any of that: if everything that comes in is
made of such nodes, so is everything that is there.

* `Ty.Lasting`: such a property;
* `Graph.MadeOf`: all nodes of all bounds and conversions have it;
* `handsOn_madeOf`, `Graph.MadeOf.settle`: propagation, merging and fixing keep that.
-/

namespace TypeBounds

/-- A property of nodes that containers have anyway, and that copies keep. Containers are taken
apart and put together all the time, whereas a nominal type stays what it was when it came in. -/
structure Ty.Lasting (L : Ty → Prop) : Prop where
  mixed : L .mixed
  container : ∀ (side : Side) (ms : Members), L (side.container ms)
  detach : ∀ t, L t → L t.detach

variable {L : Ty → Prop}

namespace Ty

variable {t : Ty} {ms : Members} {side : Side}

theorem Lasting.every_container (h : Lasting L) :
    (side.container ms).Every L ↔ ∀ m ∈ ms, m.2.Every L := by
  rw [Ty.every_container]
  exact and_iff_right (h.container side ms)

theorem Every.copy (hL : Lasting L) (h : t.Every L) : t.copy.Every L := by
  refine Every.mapConvertibles hL.mixed (fun _ _ _ _ hnode => hnode)
    (fun side _ _ => hL.container side _) (fun s hs hnode => ?_) h
  have hdetached : L s.detach := hL.detach s hnode
  cases s with
  | asVar cell owner var => exact every_asVar.2 hdetached
  | asType target => exact every_asType.2 hdetached
  | _ => cases hs

end Ty

/-! ## Members -/

namespace Members

variable {ms : Members} {P : Ty → Prop}

theorem mem_eraseAll {ts : List Ty} {m : String × Ty} :
    m ∈ ts.foldl (fun ms e => erase ms e.name) ms ↔ m ∈ ms ∧ ∀ e ∈ ts, m.1 ≠ e.name := by
  induction ts generalizing ms with
  | nil => simp
  | cons t ts ih =>
    rw [List.foldl_cons, ih, erase, List.mem_filter, decide_eq_true_eq,
      List.forall_mem_cons, and_assoc]

theorem forall_mem_ofTypes {ts : List Ty} (hts : ∀ t ∈ ts, P t) : ∀ m ∈ ofTypes ts, P m.2 :=
  fun m hm => hts _ ((labelled_ofTypes ts).2 m hm)

end Members

/-! ## Graphs -/

namespace Graph

variable {g g' : Graph} {side : Side} {id x : VarId} {m t : Ty} {ms : Members}

/-- **A new lower member** is all that is new in a bound. -/
theorem mem_side_insertLower {m' : String × Ty}
    (h : m' ∈ ((g.insertLower id m).boundsOf x).side side) :
    m' ∈ (g.boundsOf x).side side ∨ x = id ∧ m'.2 = m.copy := by
  have hdropped (es : List Ty) (side : Side) :
      ((es.foldl (dropCovered id m) g).boundsOf x).side side ⊆ (g.boundsOf x).side side := by
    refine List.foldlRecOn
      (motive := fun g' : Graph => (g'.boundsOf x).side side ⊆ (g.boundsOf x).side side) es _
      (List.Subset.refl _) fun g' hg' e _ => ?_
    unfold dropCovered
    split
    · rw [boundsOf_update]
      split
      · cases side with
        | lower => exact fun m hm => hg' (List.mem_of_mem_filter hm)
        | upper => exact hg'
      · exact hg'
    · exact hg'
  rw [insertLower_eq, boundsOf_update] at h
  split at h
  · rename_i hx
    cases side with
    | lower =>
      rcases Members.mem_add h with h | rfl
      · exact .inl (hdropped _ .lower h)
      · exact .inr ⟨hx.1, rfl⟩
    | upper => exact .inl (hdropped _ .upper h)
  · exact .inl (hdropped _ side h)

/-- **A new upper member**, likewise. -/
theorem mem_side_insertUpper (hg : g.insertUpper id m = .ok g') {m' : String × Ty}
    (h : m' ∈ (g'.boundsOf x).side side) :
    m' ∈ (g.boundsOf x).side side ∨ x = id ∧ m'.2 = m.copy := by
  unfold Graph.insertUpper at hg
  dsimp only at hg
  split at hg
  · cases hg
  · cases hg
    rw [boundsOf_update] at h
    split at h
    · rename_i hx
      cases side with
      | lower => exact .inl h
      | upper =>
        rcases Members.mem_add h with h | rfl
        · exact .inl (Members.mem_eraseAll.1 h).1
        · exact .inr ⟨hx.1, rfl⟩
    · exact .inl h

/-- **All nodes of the graph are as `L` says**, in its bounds and in its conversions. -/
structure MadeOf (L : Ty → Prop) (g : Graph) : Prop where
  conversion : ∀ c ∈ g.lattice.conversions, c.source.Every L ∧ c.target.Every L
  stored : ∀ (side : Side) (x : VarId), ∀ m ∈ (g.boundsOf x).side side, m.2.Every L

theorem MadeOf.of_sameMembers (h : g.MadeOf L) (hsame : g.SameMembers g') : g'.MadeOf L := by
  refine ⟨hsame.lattice ▸ h.conversion, fun side x => ?_⟩
  rw [hsame.sides]
  exact h.stored side x

/-- Changing one record, as long as both its sides stay as they should be. -/
theorem MadeOf.update (h : g.MadeOf L) {f : Bounds → Bounds}
    (hf : ∀ side : Side, ∀ m ∈ (f (g.boundsOf id)).side side, m.2.Every L) :
    (g.update id f).MadeOf L := by
  refine ⟨h.conversion, fun side x => ?_⟩
  rw [boundsOf_update]
  split
  · rename_i hx
    rw [hx.1]
    exact hf side
  · exact h.stored side x

theorem MadeOf.insertLower (hL : Ty.Lasting L) (h : g.MadeOf L) (hm : m.Every L) (id : VarId) :
    (g.insertLower id m).MadeOf L := by
  have hlattice : (g.insertLower id m).lattice = g.lattice := (sameShape_insertLower m).lattice
  refine ⟨hlattice ▸ h.conversion, fun side x m' hm' => ?_⟩
  rcases mem_side_insertLower hm' with hm' | ⟨-, hcopy⟩
  · exact h.stored side x m' hm'
  · rw [hcopy]
    exact hm.copy hL

theorem MadeOf.insertUpper (hL : Ty.Lasting L) (h : g.MadeOf L) (hm : m.Every L)
    (hg : g.insertUpper id m = .ok g') : g'.MadeOf L := by
  refine ⟨(sameShape_insertUpper hg).lattice ▸ h.conversion, fun side x m' hm' => ?_⟩
  rcases mem_side_insertUpper hg hm' with hm' | ⟨-, hcopy⟩
  · exact h.stored side x m' hm'
  · rw [hcopy]
    exact hm.copy hL

theorem takes_madeOf (hL : Ty.Lasting L) : Takes (fun _ => Ty.Every L) (MadeOf L) where
  parts _ _ ht _ hp := ht.of_mem_parts hp
  conversion _ hg := hg.conversion
  insertLower _ id _ hm hg := hg.insertLower hL hm id
  insertUpper _ _ _ _ hm hg' hg := hg.insertUpper hL hm hg'

/-- What a variable was to be resolved to, also if it is looked up later. -/
theorem MadeOf.type (hL : Ty.Lasting L) (h : g.MadeOf L) (h' : g'.MadeOf L) (x : VarId) :
    ((g.boundsOf x).resolution.type (g'.boundsOf x)).Every L :=
  Bounds.type_of_sides (Ty.every_mixed.2 hL.mixed) (fun side => h.stored side x) fun side _ =>
    hL.every_container.2 (h'.stored side x)

theorem MadeOf.settle (hL : Ty.Lasting L) (h : g.MadeOf L) (x : VarId) : (settle x g).MadeOf L := by
  refine h.update fun side m hm => ?_
  rcases (g.boundsOf x).side_settled g.policy side with hside | ⟨-, hside⟩
  · rw [hside] at hm
    exact h.stored side x m hm
  · rw [hside] at hm
    exact Members.forall_mem_ofTypes (fun t ht => ((h.type hL h x).copy hL).of_mem_parts ht) m hm

theorem MadeOf.unregister (h : g.MadeOf L) (x : VarId) : (g.unregister x).MadeOf L := by
  refine ⟨h.conversion, fun side y m hm => ?_⟩
  rw [boundsOf_unregister] at hm
  split at hm
  · cases side <;> cases hm
  · exact h.stored side y m hm

end Graph

/-- **What is handed on** is made of the same nodes. -/
theorem handsOn_madeOf (hL : Ty.Lasting L) : HandsOn (fun _ => Ty.Every L) (Graph.MadeOf L) where
  spread _ _ ht := (Graph.takes_madeOf hL).spread ht
  bound _ h side x := (hL.every_container.2 (h.stored side x)).copy hL
  same _ _ hsame h := h.of_sameMembers hsame
  unregister _ x h := h.unregister x

end TypeBounds
