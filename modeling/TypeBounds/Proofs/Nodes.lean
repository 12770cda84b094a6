import TypeBounds.Proofs.Insertion

/-!
# Types node by node

A property of types that convertibles share with the containers around them is said of every node
(`Ty.Every`), where the nodes of a type are its subterms: what is inside the target of a fixed
convertible does not count. Rebuilding a type (`Every.mapConvertibles`) and binding the convertible
in a cell (`Every.rebind`) are looked at once for all such properties.

`Ty.bindings` does look into targets. A type is **sealed** if no open convertible is hidden there;
then its name cannot change behind the back of the containers it is in (`Ty.name_rebind`).
-/

namespace TypeBounds

namespace Ty

mutual

/-- The owner and the variable of every open convertible in a type, at any depth, those in the
targets of fixed convertibles included. -/
def bindings : Ty → List (Nat × String)
  | union ms => bindingsAll ms
  | inter ms => bindingsAll ms
  | asVar _ owner var => [(owner, var)]
  | asType t => bindings t
  | _ => []

/-- The bindings in the members in order. -/
def bindingsAll : Members → List (Nat × String)
  | [] => []
  | (_, t) :: ms => bindings t ++ bindingsAll ms

end

/-- No open convertible is hidden in the target of a fixed one. -/
def Sealed (t : Ty) : Prop := ∀ target, .asType target ∈ t.subterms → target.bindings = []

instance (t : Ty) : Decidable t.Sealed :=
  decidable_of_iff (t.subterms.all (fun | .asType target => target.bindings.isEmpty | _ => true) =
    true) <| by
    rw [List.all_eq_true]
    refine ⟨fun h target htarget => List.isEmpty_iff.1 (h _ htarget), fun h s hs => ?_⟩
    cases s with
    | asType target => exact List.isEmpty_iff.2 (h target hs)
    | _ => rfl

/-! ## Bindings -/

variable {t p : Ty} {ms : Members} {side : Side} {L L' : Ty → Prop} {cell owner : Nat}
  {var : String}

theorem mem_bindingsAll {b : Nat × String} : b ∈ bindingsAll ms ↔ ∃ m ∈ ms, b ∈ m.2.bindings := by
  induction ms with
  | nil => simp [bindingsAll]
  | cons m ms ih => simp [bindingsAll, ih]

theorem bindings_container (side : Side) (ms : Members) :
    (side.container ms).bindings = bindingsAll ms := by
  cases side <;> simp [Side.container, bindings]

theorem bindings_container_eq_nil :
    (side.container ms).bindings = [] ↔ ∀ m ∈ ms, m.2.bindings = [] := by
  simp only [bindings_container, List.eq_nil_iff_forall_not_mem, mem_bindingsAll]
  exact ⟨fun h m hm b hb => h b ⟨m, hm, hb⟩, fun h b ⟨m, hm, hb⟩ => h m hm b hb⟩

/-- An open convertible is a node of the type, or hidden in the target of a fixed one. -/
theorem mem_bindings {b : Nat × String} (h : b ∈ t.bindings) :
    (∃ cell, .asVar cell b.1 b.2 ∈ t.subterms) ∨ ∃ target, .asType target ∈ t.subterms ∧
      b ∈ target.bindings := by
  induction t using memberInduction with
  | mixed => simp [bindings] at h
  | nominal => simp [bindings] at h
  | container side ms ih =>
    rw [bindings_container, mem_bindingsAll] at h
    obtain ⟨m, hm, hb⟩ := h
    have hnode {s : Ty} (hs : s ∈ m.2.subterms) : s ∈ (side.container ms).subterms := by
      rw [subterms_container]
      exact List.mem_cons_of_mem _ (mem_subtermsAll.2 ⟨m, hm, hs⟩)
    rcases ih m hm hb with ⟨cell, hs⟩ | ⟨target, hs, hb⟩
    · exact .inl ⟨cell, hnode hs⟩
    · exact .inr ⟨target, hnode hs, hb⟩
  | asVar cell owner var =>
    rw [bindings, List.mem_singleton] at h
    exact .inl ⟨cell, by simp [subterms, h]⟩
  | asType target =>
    exact .inr ⟨target, by simp [subterms], by simpa [bindings] using h⟩

/-! ## Every node -/

/-- Every node of the type is as `L` says. -/
def Every (L : Ty → Prop) (t : Ty) : Prop := ∀ s ∈ t.subterms, L s

theorem every_container :
    (side.container ms).Every L ↔ L (side.container ms) ∧ ∀ m ∈ ms, m.2.Every L := by
  simp only [Every, subterms_container, List.forall_mem_cons, mem_subtermsAll]
  refine and_congr_right fun _ => ?_
  exact ⟨fun h m hm s hs => h s ⟨m, hm, hs⟩, fun h s ⟨m, hm, hs⟩ => h m hm s hs⟩

@[simp] theorem every_mixed : mixed.Every L ↔ L .mixed := by simp [Every, subterms]

@[simp] theorem every_nominal {name : String} {kind : Kind} {final : Bool} {parents : List Ty} :
    (nominal name kind final parents).Every L ↔ L (.nominal name kind final parents) := by
  simp [Every, subterms]

@[simp] theorem every_asVar {cell : Option Nat} :
    (asVar cell owner var).Every L ↔ L (.asVar cell owner var) := by
  simp [Every, subterms]

@[simp] theorem every_asType {target : Ty} : (asType target).Every L ↔ L (.asType target) := by
  simp [Every, subterms]

theorem Every.mono (hL : ∀ s, L s → L' s) (h : t.Every L) : t.Every L' := fun s hs => hL s (h s hs)

/-- The parts of a type are made of its nodes. -/
theorem Every.of_mem_parts (h : t.Every L) (hp : p ∈ side.parts t) : p.Every L :=
  side.partsInduction (motive := fun t => t.Every L → p.Every L) (fun _ h => h)
    (fun _ m hm ih h => ih ((every_container.1 h).2 m hm)) hp h

theorem mapConvertibles_container (f : Ty → Ty) : (side.container ms).mapConvertibles f =
    side.container (Members.ofTypes (ms.map fun m => m.2.mapConvertibles f)) := by
  cases side <;> simp only [Side.container, mapConvertibles, mapEach_eq] <;> rfl

end Ty

/-- No part of a type is a container of the side it was taken apart on. -/
theorem Side.ne_container_of_mem_parts {side : Side} {t p : Ty} (hp : p ∈ side.parts t)
    (ms : Members) : p ≠ side.container ms :=
  side.partsInduction (motive := fun _ => p ≠ side.container ms) (fun h => h ms)
    (fun _ _ _ h => h) hp

/-! ## Members of a container -/

namespace Members

variable {ms : Members} {t : Ty} {P : Ty → Prop}

/-- No key is there twice, and a member whose name cannot change stands under its name. -/
structure Labelled (ms : Members) : Prop where
  nodup : (keys ms).Nodup
  key : ∀ m ∈ ms, m.2.Sealed → m.1 = m.2.name

theorem Labelled.nil : Labelled [] := ⟨List.nodup_nil, fun _ h => (List.not_mem_nil h).elim⟩

theorem Labelled.erase (h : Labelled ms) (key : String) : Labelled (erase ms key) where
  nodup := h.nodup.sublist (List.filter_sublist.map _)
  key m hm := h.key m (List.mem_of_mem_filter hm)

theorem mem_add {m : String × Ty} (h : m ∈ add ms t) : m ∈ ms ∨ m = (t.name, t) := by
  unfold add at h
  split at h
  · exact .inl h
  · simpa using h

theorem Labelled.add (h : Labelled ms) (t : Ty) : Labelled (add ms t) := by
  refine ⟨?_, fun m hm hs => ?_⟩
  · unfold Members.add
    split
    · exact h.nodup
    · rename_i hnew
      rw [keys, List.map_append]
      refine h.nodup.append (List.nodup_singleton _) fun k hk hk' => hnew ?_
      obtain ⟨m, hm, rfl⟩ := List.mem_map.1 hk
      exact List.any_eq_true.2 ⟨m, hm, decide_eq_true (List.mem_singleton.1 hk')⟩
  · rcases mem_add hm with hm | rfl
    · exact h.key m hm hs
    · rfl

/-- A container built by adding: its members are among the given types, and labelled. -/
theorem labelled_ofTypes (ts : List Ty) : Labelled (ofTypes ts) ∧ ∀ m ∈ ofTypes ts, m.2 ∈ ts := by
  have hfold (ts : List Ty) (ms : Members) (h : Labelled ms) :
      Labelled (ts.foldl Members.add ms) ∧ ∀ m ∈ ts.foldl Members.add ms, m ∈ ms ∨ m.2 ∈ ts := by
    induction ts generalizing ms with
    | nil => exact ⟨h, fun m hm => .inl hm⟩
    | cons t ts ih =>
      obtain ⟨hl, hmem⟩ := ih (Members.add ms t) (h.add t)
      refine ⟨hl, fun m hm => ?_⟩
      rcases hmem m hm with hm | hm
      · rcases mem_add hm with hm | rfl
        · exact .inl hm
        · exact .inr (List.mem_cons_self ..)
      · exact .inr (List.mem_cons_of_mem _ hm)
  obtain ⟨hl, hmem⟩ := hfold ts [] .nil
  exact ⟨hl, fun m hm => (hmem m hm).resolve_left List.not_mem_nil⟩

end Members

namespace Ty

variable {t p : Ty} {ms : Members} {side : Side} {L L' : Ty → Prop} {cell owner : Nat}
  {var : String}

/-- **Rebuilding a type** with its convertibles replaced. -/
theorem Every.mapConvertibles {f : Ty → Ty} (hmixed : L' .mixed)
    (hnominal : ∀ name kind final parents, L (.nominal name kind final parents) →
      L' (.nominal name kind final parents))
    (hcontainer : ∀ (side : Side) (ts : List Ty), (∀ t ∈ ts, t.Every L') →
      L' (side.container (Members.ofTypes ts)))
    (hconvertible : ∀ s, s.isConvertible → L s → (f s).Every L') (h : t.Every L) :
    (t.mapConvertibles f).Every L' := by
  induction t using memberInduction with
  | mixed =>
    rw [Ty.mapConvertibles, every_mixed]
    exact hmixed
  | nominal =>
    rw [Ty.mapConvertibles, every_nominal]
    exact hnominal _ _ _ _ (every_nominal.1 h)
  | container side ms ih =>
    rw [every_container] at h
    have hmembers : ∀ t ∈ ms.map fun m => m.2.mapConvertibles f, t.Every L' := by
      intro t ht
      obtain ⟨m, hm, rfl⟩ := List.mem_map.1 ht
      exact ih m hm (h.2 m hm)
    rw [mapConvertibles_container, every_container]
    exact ⟨hcontainer side _ hmembers,
      fun m hm => hmembers m.2 ((Members.labelled_ofTypes _).2 m hm)⟩
  | asVar =>
    rw [Ty.mapConvertibles]
    exact hconvertible _ rfl (every_asVar.1 h)
  | asType =>
    rw [Ty.mapConvertibles]
    exact hconvertible _ rfl (every_asType.1 h)

/-! ## Binding the convertible in a cell -/

theorem rebindMembers_eq :
    rebindMembers cell owner var ms = ms.map fun m => (m.1, m.2.rebind cell owner var) := by
  induction ms with
  | nil => simp [rebindMembers]
  | cons m ms ih => simp [rebindMembers, ih]

theorem rebind_container : (side.container ms).rebind cell owner var =
    side.container (ms.map fun m => (m.1, m.2.rebind cell owner var)) := by
  cases side <;> simp only [Side.container, rebind, rebindMembers_eq]

theorem subterms_rebind :
    (t.rebind cell owner var).subterms = t.subterms.map (rebind cell owner var) := by
  induction t using memberInduction with
  | container side ms ih =>
    rw [rebind_container, subterms_container, subterms_container, List.map_cons, rebind_container]
    congr 1
    clear side
    induction ms with
    | nil => simp [subtermsAll]
    | cons m ms ihms =>
      rw [List.map_cons, subtermsAll, subtermsAll, List.map_append, ih m (List.mem_cons_self ..),
        ihms fun m hm => ih m (List.mem_cons_of_mem _ hm)]
  | asVar c o v =>
    rw [rebind]
    split <;> simp [subterms, rebind, *]
  | _ => simp [rebind, subterms]

/-- Binding a convertible changes neither the number of bindings nor what is sealed. -/
theorem bindings_rebind_eq_nil : (t.rebind cell owner var).bindings = [] ↔ t.bindings = [] := by
  induction t using memberInduction with
  | container side ms ih =>
    rw [rebind_container, bindings_container_eq_nil, bindings_container_eq_nil, List.forall_mem_map]
    exact forall₂_congr ih
  | asVar c o v =>
    rw [rebind]
    split <;> simp [bindings]
  | asType target ih =>
    rw [rebind, bindings, bindings]
    exact ih
  | _ => simp [rebind, bindings]

theorem asType_mem_subterms_rebind {target : Ty} :
    .asType target ∈ (t.rebind cell owner var).subterms ↔
    ∃ target', .asType target' ∈ t.subterms ∧ target'.rebind cell owner var = target := by
  rw [subterms_rebind, List.mem_map]
  constructor
  · rintro ⟨s, hs, hrebind⟩
    cases s with
    | asType target' =>
      rw [rebind] at hrebind
      cases hrebind
      exact ⟨target', hs, rfl⟩
    | asVar c o v =>
      rw [rebind] at hrebind
      split at hrebind <;> cases hrebind
    | _ => simp [rebind] at hrebind
  · rintro ⟨target', hs, rfl⟩
    exact ⟨_, hs, by rw [rebind]⟩

theorem sealed_rebind : (t.rebind cell owner var).Sealed ↔ t.Sealed := by
  unfold Sealed
  simp only [asType_mem_subterms_rebind]
  constructor
  · intro h target htarget
    exact bindings_rebind_eq_nil.1 (h _ ⟨target, htarget, rfl⟩)
  · rintro h _ ⟨target, htarget, rfl⟩
    exact bindings_rebind_eq_nil.2 (h target htarget)

theorem name_container_map {f : Ty → Ty} : (side.container (ms.map fun m => (m.1, f m.2))).name =
    (side.container ms).name := by
  have hkeys : (ms.map fun m => (m.1, f m.2)).map Prod.fst = ms.map Prod.fst := by
    rw [List.map_map]
    rfl
  cases side <;> simp only [Side.container, name, hkeys]

/-- **The name of a sealed type** whose convertibles are in no cells stays as it is. -/
theorem name_rebind (hs : t.Sealed)
    (hcells : ∀ cell owner var, .asVar (some cell) owner var ∉ t.subterms) :
    (t.rebind cell owner var).name = t.name := by
  have htarget {target : Ty} (h : target.bindings = []) :
      (target.rebind cell owner var).name = target.name := by
    induction target using memberInduction with
    | container side ms => rw [rebind_container, name_container_map]
    | asVar => simp [bindings] at h
    | asType target ih =>
      rw [rebind, name, name, ih (by simpa [bindings] using h)]
    | _ => simp [rebind, name]
  induction t using memberInduction with
  | container side ms => rw [rebind_container, name_container_map]
  | asVar c o v =>
    rw [rebind]
    split
    · rename_i hc
      exact absurd (by simp [subterms, hc]) (hcells cell o v)
    · rfl
  | asType target => rw [rebind, name, name, htarget (hs target (by simp [subterms]))]
  | _ => simp [rebind, name]

end Ty

end TypeBounds
