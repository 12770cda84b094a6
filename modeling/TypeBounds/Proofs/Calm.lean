import TypeBounds.Proofs.Veiled

/-!
# Variables without neighbours

Once a variable is fixed it has no neighbours any more, and nobody asks for its upper bound. A graph
is `Graph.Calm` for `D` if the variables in `D` are of this kind. Propagation, merging and
coalescing keep it calm and overlook the upper bounds in `D` (`Graph.suits_calm`), and so does the
question what can be fixed next (`Graph.fixable_veil`).
-/

namespace TypeBounds

open Infer

namespace Graph

variable {D : List VarId} {g g' : Graph} {x y lower upper old new : VarId}

/-- **Calm.** The variables in `D` are nobody's neighbours. They are fixed, to a type found
below. -/
structure Calm (D : List VarId) (g : Graph) : Prop where
  bare : g.Bare
  apart : ∀ side x, x ∉ D → ∀ y ∈ g.onward side x, y ∉ D
  done : ∀ x ∈ D, (g.boundsOf x).frozen ∧ (g.boundsOf x).lower ≠ []

/-- Before anything is fixed there is nothing to overlook. -/
theorem Bare.calm (h : g.Bare) : Calm [] g := by
  refine ⟨h, fun _ _ _ _ _ => List.not_mem_nil, fun x hx => ?_⟩
  cases hx

/-- Where a type goes on to: up from a lower bound, down from an upper one. -/
theorem mem_onward {side : Side} : y ∈ g.onward side x ↔
    match side with
    | .lower => y ∈ (g.boundsOf x).above
    | .upper => y ∈ (g.boundsOf x).below := by
  cases side <;> simp [onward, above, below]

/-- The neighbours of what is in sight are in sight, in either direction. -/
theorem Calm.not_mem_above (h : Calm D g) (hx : x ∉ D) (hy : y ∈ (g.boundsOf x).above) : y ∉ D :=
  h.apart .lower x hx y (mem_onward.2 hy)

theorem Calm.not_mem_below (h : Calm D g) (hx : x ∉ D) (hy : y ∈ (g.boundsOf x).below) : y ∉ D :=
  h.apart .upper x hx y (mem_onward.2 hy)

/-- What is overlooked is fixed. So whatever is open is in sight (`Calm.not_mem_of_open`). -/
theorem Calm.isFrozen (h : Calm D g) (hx : x ∈ D) : g.isFrozen x = true := by
  rw [isFrozen_eq, (h.done x hx).1, Bool.true_or]

theorem Calm.not_mem_of_open (h : Calm D g) (hx : g.isFrozen x = false) : x ∉ D := by
  intro hmem
  rw [h.isFrozen hmem] at hx
  cases hx

/-- What is added to a calm graph keeps to the variables that are in sight. -/
theorem Calm.step (h : Calm D g) (hbare : g'.Bare)
    (habove : ∀ x, ∀ y ∈ (g'.boundsOf x).above, y ∈ (g.boundsOf x).above ∨ y ∉ D)
    (hbelow : ∀ x, ∀ y ∈ (g'.boundsOf x).below, y ∈ (g.boundsOf x).below ∨ y ∉ D)
    (hdone : ∀ x ∈ D, (g'.boundsOf x).frozen = (g.boundsOf x).frozen ∧
      (g'.boundsOf x).lower = (g.boundsOf x).lower) :
    Calm D g' := by
  refine ⟨hbare, fun side x hx y hy => ?_, fun x hx => ?_⟩
  · cases side with
    | lower => exact (habove x y (mem_onward.1 hy)).elim (h.not_mem_above hx) id
    | upper => exact (hbelow x y (mem_onward.1 hy)).elim (h.not_mem_below hx) id
  · rw [(hdone x hx).1, (hdone x hx).2]
    exact h.done x hx

/-- The records of other variables may get other types. -/
theorem Calm.of_sameShape (h : Calm D g) (hbare : g'.Bare) (hshape : SameShape g g')
    (hlower : ∀ x ∈ D, (g'.boundsOf x).lower = (g.boundsOf x).lower) : Calm D g' := by
  refine h.step hbare (fun x y hy => ?_) (fun x y hy => ?_) fun x hx =>
    ⟨hshape.frozen x, hlower x hx⟩
  · exact .inl (hshape.above x ▸ hy)
  · exact .inl (hshape.below x ▸ hy)

/-- A new edge gives each of its ends one new neighbour, and nobody else any. -/
theorem mem_above_of_link (h : y ∈ ((g.link lower upper).boundsOf x).above) :
    y = upper ∨ y ∈ (g.boundsOf x).above := by
  simp only [Graph.link, boundsOf_update, ids_update, apply_ite Bounds.above, ite_self] at h
  split at h
  · exact List.mem_insert_iff.1 h
  · exact .inr h

theorem mem_below_of_link (h : y ∈ ((g.link lower upper).boundsOf x).below) :
    y = lower ∨ y ∈ (g.boundsOf x).below := by
  simp only [Graph.link, boundsOf_update, ids_update, apply_ite Bounds.below, ite_self] at h
  split at h
  · exact List.mem_insert_iff.1 h
  · exact .inr h

section

variable (h : Calm D g)

include h

/-- **A new edge** between variables in sight. It touches no types, so what is fixed stays as it
is. -/
theorem Calm.link (hl : lower ∉ D) (hu : upper ∉ D) : Calm D (g.link lower upper) := by
  have hsame : SameTypes g (g.link lower upper) := sameTypes_link
  refine h.step (h.bare.of_sameTypes hsame) (fun x y hy => ?_) (fun x y hy => ?_)
    fun x _ => ⟨hsame.frozen x, hsame.lower x⟩
  · exact (mem_above_of_link hy).symm.imp_right fun hyu => by rwa [hyu]
  · exact (mem_below_of_link hy).symm.imp_right fun hyl => by rwa [hyl]

/-- All that is below the one end is joined to all that is above the other. These are neighbours of
variables in sight, and so they are in sight, too. -/
theorem Calm.linkAcross (hl : lower ∉ D) (hu : upper ∉ D) : Calm D (g.linkAcross lower upper) := by
  have hls : ∀ x ∈ lower :: g.below lower, x ∉ D := by
    refine List.forall_mem_cons.2 ⟨hl, fun x hx => ?_⟩
    exact h.not_mem_below hl (Natural.mem_sort.1 hx)
  have hus : ∀ y ∈ upper :: g.above upper, y ∉ D := by
    refine List.forall_mem_cons.2 ⟨hu, fun y hy => ?_⟩
    exact h.not_mem_above hu (Natural.mem_sort.1 hy)
  rw [linkAcross_eq]
  refine List.foldlRecOn _ _ h fun g₁ h₁ x hx => ?_
  refine List.foldlRecOn _ _ h₁ fun g₂ h₂ y hy => ?_
  split
  · exact h₂
  · exact h₂.link (hls x hx) (hus y hy)

/-- Cutting a variable off only takes edges away. -/
theorem Calm.isolate (x : VarId) : Calm D (g.isolate x) := by
  rw [isolate_eq]
  refine along_foldl (Keeps (Calm D)) (fun g e h => ?_) _ h
  have hsame : SameTypes g (g.unlink e.1 e.2) := sameTypes_unlink
  refine h.step (h.bare.of_sameTypes hsame) (fun x y hy => ?_) (fun x y hy => ?_)
    fun x _ => ⟨hsame.frozen x, hsame.lower x⟩
  · rw [above_unlink] at hy
    split at hy
    · exact .inl (List.mem_of_mem_erase hy)
    · exact .inl hy
  · rw [below_unlink] at hy
    split at hy
    · exact .inl (List.mem_of_mem_erase hy)
    · exact .inl hy

/-- Names and references do not matter. -/
theorem Calm.of_boundsOf (hlattice : g'.lattice = g.lattice)
    (hbounds : ∀ x, g'.boundsOf x = g.boundsOf x) : Calm D g' := by
  refine h.step (h.bare.of_boundsOf hlattice hbounds) (fun x y hy => ?_)
    (fun x y hy => ?_) fun x _ => ?_
  · exact .inl (hbounds x ▸ hy)
  · exact .inl (hbounds x ▸ hy)
  · rw [hbounds]
    exact ⟨rfl, rfl⟩

/-- Convertibles to the old variable would be renamed, but a bare graph has none. -/
theorem Calm.cutOff (old new : VarId) : Calm D (g.cutOff old new) := by
  have hredirected : Calm D (g.redirect old new) := h.of_boundsOf rfl fun _ => rfl
  exact (hredirected.isolate old).of_boundsOf rfl (h.bare.boundsOf_cutOff old new)

/-- A record in sight may change, if it gets no new neighbours. -/
theorem Calm.update (hx : x ∉ D) {f : Bounds → Bounds}
    (hf : ∀ b : Bounds, (f b).below = b.below ∧ (f b).above = b.above)
    (hbare : ∀ side : Side, ∀ m ∈ (f (g.boundsOf x)).side side, m.2.Bare) :
    Calm D (g.update x f) := by
  refine h.step (h.bare.update hbare) (fun y z hz => ?_) (fun y z hz => ?_) fun y hy => ?_
  · rw [field_update Bounds.above fun b => (hf b).2] at hz
    exact .inl hz
  · rw [field_update Bounds.below fun b => (hf b).1] at hz
    exact .inl hz
  · rw [boundsOf_update_ne (ne_of_mem_of_not_mem hy hx)]
    exact ⟨rfl, rfl⟩

/-- The mark of the old variable goes to one that is in sight. -/
theorem Calm.inheritFrozen (hnew : new ∉ D) : Calm D (inheritFrozen old new g) := by
  unfold Graph.inheritFrozen
  split
  · refine h.update hnew (fun _ => ⟨rfl, rfl⟩) fun side => ?_
    cases side with
    | lower => exact h.bare.stored .lower new
    | upper => exact h.bare.stored .upper new
  · exact h

/-- What is taken out loses its record, so it must not count as fixed. -/
theorem Calm.unregister (hold : old ∉ D) : Calm D (g.unregister old) := by
  refine h.step (h.bare.unregister old) (fun x y hy => ?_) (fun x y hy => ?_) fun x hx => ?_
  · rw [boundsOf_unregister] at hy
    split at hy
    · cases hy
    · exact .inl hy
  · rw [boundsOf_unregister] at hy
    split at hy
    · cases hy
    · exact .inl hy
  · rw [boundsOf_unregister, if_neg (ne_of_mem_of_not_mem hx hold)]
    exact ⟨rfl, rfl⟩

end

/-- **Propagation** in sight keeps a graph calm. -/
theorem shelters_calm (D : List VarId) : Shelters D (fun _ x => x ∉ D) (Calm D) where
  bare _ h := h.bare
  out _ _ hx := hx
  onward _ side x h hx := h.apart side x hx
  narrow _ _ _ _ _ hx _ _ := hx
  widen _ hx := hx
  insertLower g x m hm hx h := by
    refine h.of_sameShape (h.bare.insertLower hm x) (sameShape_insertLower m) fun y hy => ?_
    rw [boundsOf_insertLower_ne (ne_of_mem_of_not_mem hy hx)]
  insertUpper g g' x m hm hx hg h := by
    refine h.of_sameShape (h.bare.insertUpper hm hg) (sameShape_insertUpper hg) fun y hy => ?_
    rw [boundsOf_insertUpper_ne (ne_of_mem_of_not_mem hy hx) hg]

/-! ## What comes next -/

variable {params done : List VarId}

/-- What was not fixed before is in sight. -/
theorem fixable_veil (hD : D ⊆ done) : (g.veil D).fixable params done = g.fixable params done := by
  rw [fixable, typeVariables_under]
  apply List.filter_congr
  intro x _
  by_cases hx : x ∈ done
  · simp [hx]
  · have hout : x ∉ D := fun hmem => hx (hD hmem)
    rw [isFixable, isFixable, isFrozen_under, reachesParameter_under, boundsOf_veil_of_not_mem hout]

/-- What can be merged is in sight, since the others are fixed. -/
theorem Calm.coalescesInto?_veil (h : Calm D g) :
    (g.veil D).coalescesInto? params x = g.coalescesInto? params x := by
  unfold coalescesInto?
  rw [isFrozen_under]
  split
  · rfl
  · rename_i hopen
    have hx : x ∉ D :=
      h.not_mem_of_open (Bool.eq_false_of_not_eq_true fun hfrozen => hopen (by simp [hfrozen]))
    have hnear : (g.veil D).nearestBelow x = g.nearestBelow x := by
      simp only [nearestBelow, below_under, boundsOf_under, Guise.below_record]
    rw [hnear]
    cases hp : g.nearestBelow x with
    | none => rfl
    | some p =>
      have hp : p ∉ D := h.not_mem_below hx (Natural.mem_sort.1 (List.mem_of_find?_eq_some hp))
      simp only [Option.filter_some, isIndistinguishable, boundsOf_veil_of_not_mem hx,
        boundsOf_veil_of_not_mem hp]

/-- **Propagation and merging** in sight. -/
theorem suits_calm (D : List VarId) : (Guise.veil D).SuitsMerging Ty.Bare (· ∉ D) (Calm D) where
  toSuits := (shelters_calm D).suits
  linkAcross h hx hy := h.linkAcross hx hy
  inheritFrozen h hnew := h.inheritFrozen hnew
  cutOff h := ⟨h.cutOff _ _, cutOff_veil⟩
  unregister h hx := h.unregister hx
  coalescesInto? _ _ h := h.coalescesInto?_veil
  inSight h := h.not_mem_of_open

end Graph

end TypeBounds
