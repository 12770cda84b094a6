import TypeBounds.Graph.Fork
import TypeBounds.Graph.Generalize
import TypeBounds.Proofs.Edges

/-!
# Every operation keeps a graph well formed

Changes of a graph fall into three groups: those that leave the edges alone (`SameEdges`), those
that touch edges only (in `Proofs.Edges`), and the registration and removal of a variable. Merging
is the one place where they meet: a merged variable is cut off from all edges first and loses its
record last, and between the two nothing may tie it in again, **also if the merge fails halfway**.
That is the invariant `Merging`, and `mergeInto_keeps` is what follows. `collapse` and
`coalesceRounds` merge what they found earlier, so for them it matters too that every other variable
stays registered.
-/

namespace TypeBounds

open Infer

/-- The two graphs have the same variables and the same edges. -/
structure SameEdges (g g' : Graph) : Prop where
  ids : g'.ids = g.ids
  below : ∀ x, (g'.boundsOf x).below = (g.boundsOf x).below
  above : ∀ x, (g'.boundsOf x).above = (g.boundsOf x).above

instance : IsPreorder Graph SameEdges where
  refl _ := ⟨rfl, fun _ => rfl, fun _ => rfl⟩
  trans _ _ _ h h' := ⟨h'.ids.trans h.ids, fun x => (h'.below x).trans (h.below x),
    fun x => (h'.above x).trans (h.above x)⟩

theorem SameShape.sameEdges {g g' : Graph} (h : SameShape g g') : SameEdges g g' :=
  ⟨h.ids, h.below, h.above⟩

namespace Graph

variable {g g' : Graph} {id old new x y s t : VarId}

/-! ## Changes that leave the edges alone -/

/-- **Types do not matter** to the structure: edges and references do. -/
theorem WellFormed.of_sameEdges (h : g.WellFormed) (he : SameEdges g g')
    (hnodup : g'.names.keys.Nodup)
    (hdenoted : ∀ name r, g'.names.get? name = some r → r.id ∈ g.ids) : g'.WellFormed where
  ids_nodup := he.ids ▸ h.ids_nodup
  names_nodup := hnodup
  below_nodup x := he.below x ▸ h.below_nodup x
  above_nodup x := he.above x ▸ h.above_nodup x
  mirrored s t := by rw [he.below, he.above]; exact h.mirrored s t
  denoted name r hr := by rw [he.ids]; exact hdenoted name r hr

theorem WellFormed.of_sameEdges_of_names (h : g.WellFormed) (he : SameEdges g g')
    (hn : g'.names = g.names) : g'.WellFormed :=
  h.of_sameEdges he (hn ▸ h.names_nodup) (hn ▸ h.denoted)

theorem sameEdges_update {f : Bounds → Bounds}
    (hf : ∀ b, (f b).below = b.below ∧ (f b).above = b.above) : SameEdges g (g.update id f) where
  ids := ids_update f
  below _ := field_update Bounds.below fun b => (hf b).1
  above _ := field_update Bounds.above fun b => (hf b).2

theorem boundsOf_mapValues {f : VarId → Bounds → Bounds} (h : g'.bounds = g.bounds.mapValues f)
    (hx : x ∈ g.ids) : g'.boundsOf x = f x (g.boundsOf x) := by
  obtain ⟨b, hb⟩ := Table.exists_get? hx
  have hb' : g'.bounds.get? x = some (f x b) := by rw [h, Table.get?_mapValues, hb]; rfl
  rw [boundsOf_eq hb, boundsOf_eq hb']

/-- What becomes of the records depends on no more than the bounds of variables. -/
theorem WellFormed.mapValues_congr (h : g.WellFormed) {f f' : VarId → Bounds → Bounds}
    (hf : ∀ x, f x (g.boundsOf x) = f' x (g.boundsOf x)) :
    g.bounds.mapValues f = g.bounds.mapValues f' := by
  refine congrArg Table.mk (List.map_congr_left fun e he => ?_)
  have hrecord : g.boundsOf e.1 = e.2 := boundsOf_eq (Table.get?_of_mem_entries h.ids_nodup he)
  rw [← hrecord, hf]

theorem ids_mapValues {f : VarId → Bounds → Bounds} (h : g'.bounds = g.bounds.mapValues f) :
    g'.ids = g.ids := by
  unfold ids
  rw [h, Table.keys_mapValues]

theorem field_mapValues {α : Type} (p : Bounds → α) {f : VarId → Bounds → Bounds}
    (h : g'.bounds = g.bounds.mapValues f) (hf : ∀ id b, p (f id b) = p b) :
    p (g'.boundsOf x) = p (g.boundsOf x) := by
  by_cases hx : x ∈ g.ids
  · rw [boundsOf_mapValues h hx, hf]
  · rw [boundsOf_of_not_mem hx, boundsOf_of_not_mem (ids_mapValues h ▸ hx)]

theorem sameEdges_mapValues {f : VarId → Bounds → Bounds} (h : g'.bounds = g.bounds.mapValues f)
    (hf : ∀ id b, (f id b).below = b.below ∧ (f id b).above = b.above) : SameEdges g g' where
  ids := ids_mapValues h
  below _ := field_mapValues Bounds.below h fun id b => (hf id b).1
  above _ := field_mapValues Bounds.above h fun id b => (hf id b).2

/-- The members of bounds may be replaced, each bound by itself. -/
theorem sameEdges_mapMembers (f : VarId → Members → Members)
    (hb : g'.bounds = g.bounds.mapValues fun id b =>
      { b with lower := f id b.lower, upper := f id b.upper }) : SameEdges g g' := by
  refine sameEdges_mapValues hb fun _ _ => ?_
  exact ⟨rfl, rfl⟩

theorem bounds_renameConvertibles :
    (g.renameConvertibles old new).bounds = g.bounds.mapValues fun id b =>
      { b with
        lower := g.renameMembers (if id = old then new else id) old new b.lower
        upper := g.renameMembers (if id = old then new else id) old new b.upper } := rfl

theorem sameEdges_renameConvertibles : SameEdges g (g.renameConvertibles old new) :=
  sameEdges_mapMembers (fun id => g.renameMembers (if id = old then new else id) old new) rfl

theorem frozen_renameConvertibles :
    ((g.renameConvertibles old new).boundsOf x).frozen = (g.boundsOf x).frozen :=
  field_mapValues Bounds.frozen bounds_renameConvertibles fun _ _ => rfl

/-- There is nothing to rename where no member points at the old variable. -/
theorem boundsOf_renameConvertibles (hlower : g.pointsAt (g.boundsOf x).lower old = false)
    (hupper : g.pointsAt (g.boundsOf x).upper old = false) :
    (g.renameConvertibles old new).boundsOf x = g.boundsOf x := by
  have hmembers {ms : Members} (h : g.pointsAt ms old = false) (holder : VarId) :
      g.renameMembers holder old new ms = ms := by
    refine if_neg ?_
    rw [h]
    exact Bool.false_ne_true
  by_cases hx : x ∈ g.ids
  · rw [boundsOf_mapValues bounds_renameConvertibles hx]
    exact congrArg₂ (fun ls us => { g.boundsOf x with lower := ls, upper := us })
      (hmembers hlower _) (hmembers hupper _)
  · have hx' : x ∉ (g.renameConvertibles old new).ids := by
      rw [sameEdges_renameConvertibles.ids]
      exact hx
    rw [boundsOf_of_not_mem hx, boundsOf_of_not_mem hx']

/-- References may be redirected to registered variables. -/
theorem WellFormed.mapNames (h : g.WellFormed) {f : String → Reference → Reference}
    (hf : ∀ name r, r.id ∈ g.ids → (f name r).id ∈ g.ids) :
    WellFormed { g with names := g.names.mapValues f } := by
  refine h.of_sameEdges ⟨rfl, fun _ => rfl, fun _ => rfl⟩ ?_ fun name r hr => ?_
  · rw [Table.keys_mapValues]
    exact h.names_nodup
  · rw [Table.get?_mapValues] at hr
    obtain ⟨r', hr', rfl⟩ := Option.map_eq_some_iff.1 hr
    exact hf name r' (h.denoted name r' hr')

theorem WellFormed.insertName (h : g.WellFormed) (name : String) {r : Reference}
    (hr : r.id ∈ g.ids) : WellFormed { g with names := g.names.insert name r } := by
  refine h.of_sameEdges ⟨rfl, fun _ => rfl, fun _ => rfl⟩
    (Table.nodup_keys_insert h.names_nodup _ _) fun name' r' hr' => ?_
  rw [Table.get?_insert] at hr'
  split at hr'
  · cases hr'
    exact hr
  · exact h.denoted name' r' hr'

/-- References may be redirected to a variable that is registered. -/
theorem WellFormed.redirect (h : g.WellFormed) (hnew : new ∈ g.ids) :
    (g.redirect old new).WellFormed := by
  refine h.mapNames fun _ r hr => ?_
  split
  · exact hnew
  · exact hr

theorem WellFormed.pin (h : g.WellFormed) (id : VarId) : (g.pin id).WellFormed := by
  refine h.mapNames fun _ r hr => ?_
  split <;> exact hr

theorem WellFormed.rebindCell (h : g.WellFormed) (cell owner : Nat) (var : VarId) :
    (g.rebindCell cell owner var).WellFormed :=
  h.of_sameEdges_of_names (sameEdges_mapMembers (fun _ => Ty.rebindMembers cell owner var) rfl) rfl

theorem WellFormed.fork (h : g.WellFormed) (tag : Nat) : (g.fork tag).WellFormed :=
  h.of_sameEdges_of_names
    (sameEdges_mapMembers (fun _ ms => Members.ofTypes (Ty.mapEach (g.handOver tag) ms)) rfl) rfl

theorem below_completed (b : Bounds) : b.completed.below = b.below := by
  unfold Bounds.completed
  split <;> rfl

theorem above_completed (b : Bounds) : b.completed.above = b.above := by
  unfold Bounds.completed
  split <;> rfl

theorem below_defaulted (b : Bounds) : b.defaulted.below = b.below := by
  unfold Bounds.defaulted
  split
  · rfl
  · exact below_completed b

theorem above_defaulted (b : Bounds) : b.defaulted.above = b.above := by
  unfold Bounds.defaulted
  split
  · rfl
  · exact above_completed b

theorem fixParameter_eq_ok : g.fixParameter id = .ok g' ↔ id ∈ g.ids ∧
    g' = (g.pin id).update id fun b => { b.defaulted with frozen := true } := by
  unfold Graph.fixParameter require
  split
  · rename_i b hb
    have hid : id ∈ g.ids := Table.mem_keys_of_get? hb
    simp [Except.map, hid, eq_comm]
  · rename_i hb
    have hid : id ∉ g.ids := fun hid => by simp [← Table.get?_isSome, ids, hb] at hid
    simp [Except.map, hid]

theorem fixVariable_eq_ok {name : String} : g.fixVariable name = .ok g' ↔
    ∃ r, g.names.get? name = some r ∧
      g' = { g with names := g.names.insert name { r with fixed := true } }.update r.id fun b =>
        { b.completed with frozen := true } := by
  unfold Graph.fixVariable reference
  cases g.names.get? name with
  | none => simp [Except.map]
  | some r => simp [Except.map, eq_comm]

theorem setOverload_eq_ok {name : String} {f : FunctionType} : g.setOverload name f = .ok g' ↔
    name ∈ g.names.keys ∧ g' = { g with overloads := g.overloads.insert name f } := by
  unfold Graph.setOverload
  rw [← Table.contains_iff]
  split
  · simp [*, eq_comm]
  · simp [*]

theorem WellFormed.fixParameter (h : g.WellFormed) (hg : g.fixParameter id = .ok g') :
    g'.WellFormed := by
  obtain ⟨-, rfl⟩ := fixParameter_eq_ok.1 hg
  refine (h.pin id).of_sameEdges_of_names (sameEdges_update fun b => ?_) rfl
  exact ⟨below_defaulted b, above_defaulted b⟩

theorem WellFormed.fixVariable (h : g.WellFormed) {name : String}
    (hg : g.fixVariable name = .ok g') : g'.WellFormed := by
  obtain ⟨r, hr, rfl⟩ := fixVariable_eq_ok.1 hg
  have hr : Reference.id { r with fixed := true } ∈ g.ids := h.denoted name r hr
  refine (h.insertName name hr).of_sameEdges_of_names (sameEdges_update fun b => ?_) rfl
  exact ⟨below_completed b, above_completed b⟩

/-! ## Registration and removal -/

/-- Gives a variable a record, unless it has one. -/
def register (g : Graph) (id : VarId) : Graph :=
  { g with bounds := if g.bounds.contains id then g.bounds else g.bounds.insert id {} }

/-- Whoever is not registered counts as a variable with empty bounds, like a new one. -/
theorem boundsOf_register : (g.register id).boundsOf x = g.boundsOf x := by
  unfold register boundsOf
  dsimp only
  split
  · rfl
  · rename_i hc
    rw [Table.get?_insert]
    by_cases hx : x = id
    · rw [if_pos hx, hx, Table.get?_eq_none fun hid => hc (Table.contains_iff.2 hid)]
      rfl
    · rw [if_neg hx]

theorem ids_register : (g.register id).ids = if id ∈ g.ids then g.ids else g.ids ++ [id] := by
  unfold register ids
  by_cases hid : id ∈ g.bounds.keys
  · rw [if_pos hid, if_pos (Table.contains_iff.2 hid)]
  · rw [if_neg hid, if_neg fun hc => hid (Table.contains_iff.1 hc), Table.keys_insert, if_neg hid]

theorem mem_ids_register : x ∈ (g.register id).ids ↔ x ∈ g.ids ∨ x = id := by
  rw [ids_register]
  split <;> simp_all

theorem WellFormed.register (h : g.WellFormed) (id : VarId) : (g.register id).WellFormed where
  ids_nodup := by
    unfold Graph.register ids
    dsimp only
    split
    · exact h.ids_nodup
    · exact Table.nodup_keys_insert h.ids_nodup _ _
  names_nodup := h.names_nodup
  below_nodup x := by rw [boundsOf_register]; exact h.below_nodup x
  above_nodup x := by rw [boundsOf_register]; exact h.above_nodup x
  mirrored s t := by rw [boundsOf_register, boundsOf_register]; exact h.mirrored s t
  denoted name r hr := mem_ids_register.2 (.inl (h.denoted name r hr))

theorem addVariable_eq_ok {name : String} {r : Option Reference} :
    g.addVariable name r = .ok g' ↔ ∃ r', r = some r' ∧ name ∉ g.names.keys ∧
      g' = { g.register r'.id with names := g.names.insert name r' } := by
  cases r with
  | none => simp [addVariable]
  | some r =>
    unfold addVariable
    dsimp only
    by_cases hname : name ∈ g.names.keys
    · rw [if_pos (Table.contains_iff.2 hname)]
      simp [hname]
    · rw [if_neg fun hc => hname (Table.contains_iff.1 hc)]
      constructor
      · intro hg
        cases hg
        exact ⟨r, rfl, hname, rfl⟩
      · rintro ⟨r', hr, -, rfl⟩
        cases hr
        rfl

theorem WellFormed.addVariable (h : g.WellFormed) {name : String} {r : Option Reference}
    (hg : g.addVariable name r = .ok g') : g'.WellFormed := by
  obtain ⟨r, -, -, rfl⟩ := addVariable_eq_ok.1 hg
  exact (h.register r.id).insertName _ (mem_ids_register.2 (.inr rfl))

theorem boundsOf_addVariable {name : String} {r : Option Reference}
    (hg : g.addVariable name r = .ok g') (x : VarId) : g'.boundsOf x = g.boundsOf x := by
  obtain ⟨r, -, -, rfl⟩ := addVariable_eq_ok.1 hg
  exact boundsOf_register

/-- Removes the record of a variable. -/
def unregister (g : Graph) (id : VarId) : Graph := { g with bounds := g.bounds.erase id }

theorem ids_unregister : (g.unregister id).ids = g.ids.filter (· ≠ id) := Table.keys_erase ..

theorem boundsOf_unregister :
    (g.unregister id).boundsOf x = if x = id then {} else g.boundsOf x := by
  simp only [boundsOf, unregister, Table.get?_erase]
  split <;> rfl

/-- A variable without edges that no name denotes can go. -/
theorem WellFormed.unregister (h : g.WellFormed) (hbelow : (g.boundsOf id).below = [])
    (habove : (g.boundsOf id).above = [])
    (hnames : ∀ name r, g.names.get? name = some r → r.id ≠ id) : (g.unregister id).WellFormed := by
  have hb (x : VarId) : ((g.unregister id).boundsOf x).below = (g.boundsOf x).below := by
    rw [boundsOf_unregister]
    split
    · simp_all
    · rfl
  have ha (x : VarId) : ((g.unregister id).boundsOf x).above = (g.boundsOf x).above := by
    rw [boundsOf_unregister]
    split
    · simp_all
    · rfl
  refine ⟨?_, h.names_nodup, fun x => ?_, fun x => ?_, fun s t => ?_, fun name r hr => ?_⟩
  · rw [ids_unregister]
    exact h.ids_nodup.filter _
  · exact hb x ▸ h.below_nodup x
  · exact ha x ▸ h.above_nodup x
  · rw [hb, ha]
    exact h.mirrored s t
  · rw [ids_unregister]
    exact List.mem_filter.2 ⟨h.denoted name r hr, by simpa using hnames name r hr⟩

/-! ## Self edges -/

/-- The record without the edge from the variable to itself. -/
def withoutSelf (id : VarId) (b : Bounds) : Bounds :=
  if b.below.contains id then { b with below := b.below.erase id, above := b.above.erase id } else b

theorem bounds_pruneSelfEdges : g.pruneSelfEdges.bounds = g.bounds.mapValues withoutSelf := rfl

theorem ids_pruneSelfEdges : g.pruneSelfEdges.ids = g.ids := ids_mapValues bounds_pruneSelfEdges

theorem boundsOf_pruneSelfEdges : g.pruneSelfEdges.boundsOf x = withoutSelf x (g.boundsOf x) := by
  by_cases hx : x ∈ g.ids
  · exact boundsOf_mapValues bounds_pruneSelfEdges hx
  · rw [boundsOf_of_not_mem hx, boundsOf_of_not_mem (by rwa [ids_pruneSelfEdges])]
    rfl

theorem sameTypes_pruneSelfEdges : SameTypes g g.pruneSelfEdges := by
  have hfield {α : Type} (f : Bounds → α) (hf : ∀ id b, f (withoutSelf id b) = f b) (x : VarId) :
      f (g.pruneSelfEdges.boundsOf x) = f (g.boundsOf x) :=
        field_mapValues f bounds_pruneSelfEdges hf
  refine ⟨⟨ids_pruneSelfEdges, rfl, hfield _ fun _ b => ?_, rfl, rfl, rfl, rfl, rfl⟩,
    hfield _ fun _ b => ?_, hfield _ fun _ b => ?_⟩ <;>
  · unfold withoutSelf
    split <;> rfl

/-- **Pruning** removes the edges from variables to themselves and no other. -/
theorem WellFormed.pruneSelfEdges (h : g.WellFormed) : g.pruneSelfEdges.WellFormed ∧
    ∀ s t, s ∈ (g.pruneSelfEdges.boundsOf t).below ↔ s ∈ (g.boundsOf t).below ∧ s ≠ t := by
  have hbelow (t : VarId) : (g.pruneSelfEdges.boundsOf t).below = (g.boundsOf t).below.erase t := by
    rw [boundsOf_pruneSelfEdges, withoutSelf]
    split
    · rfl
    · rename_i hc
      exact (List.erase_of_not_mem (by simpa using hc)).symm
  have habove (s : VarId) : (g.pruneSelfEdges.boundsOf s).above = (g.boundsOf s).above.erase s := by
    rw [boundsOf_pruneSelfEdges, withoutSelf]
    split
    · rfl
    · rename_i hc
      rw [List.contains_iff_mem, h.mirrored s s] at hc
      exact (List.erase_of_not_mem hc).symm
  have hedge (s t : VarId) :
      s ∈ (g.pruneSelfEdges.boundsOf t).below ↔ s ∈ (g.boundsOf t).below ∧ s ≠ t := by
    rw [hbelow, (h.below_nodup t).mem_erase_iff, and_comm]
  refine ⟨⟨?_, h.names_nodup, fun x => ?_, fun x => ?_, fun s t => ?_, ?_⟩, hedge⟩
  · rw [ids_pruneSelfEdges]
    exact h.ids_nodup
  · exact hbelow x ▸ (h.below_nodup x).erase _
  · exact habove x ▸ (h.above_nodup x).erase _
  · rw [hedge, habove, (h.above_nodup s).mem_erase_iff, h.mirrored s t]
    grind
  · rw [ids_pruneSelfEdges]
    exact h.denoted

end Graph

end TypeBounds
