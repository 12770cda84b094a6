import Mathlib.Data.List.Nodup
import TypeBounds.Graph.Basic

/-!
# Reading a table and a record after a change

What the rest of the theory needs to know about `Table` and about the records of a graph:

* the keys of a table after each way of changing it, and look-up in terms of its entries;
* `Graph.boundsOf_update`: a change of one record is seen at that record only, and not at all if
  there is no such record;
* `Graph.mem_ids`, `Graph.boundsOf_of_not_mem`: what being registered means for look-up.
-/

namespace TypeBounds

namespace Table

variable {α : Type}

@[simp] theorem keys_modify (t : Table α) (key : String) (f : α → α) :
    (t.modify key f).keys = t.keys := by
  simp only [keys, modify, List.map_map]
  refine List.map_congr_left fun e _ => ?_
  simp only [Function.comp_apply]
  split <;> rfl

@[simp] theorem keys_mapValues (t : Table α) (f : String → α → α) :
    (t.mapValues f).keys = t.keys := by
  simp [keys, mapValues]

@[simp] theorem keys_erase (t : Table α) (key : String) :
    (t.erase key).keys = t.keys.filter (· ≠ key) := by
  simp only [keys, erase, List.filter_map]
  rfl

theorem lookup_isSome (key : String) (es : List (String × α)) :
    (es.lookup key).isSome ↔ key ∈ es.map Prod.fst := by
  induction es with
  | nil => simp
  | cons e es ih =>
    obtain ⟨k, v⟩ := e
    rw [lookup_cons_ite]
    by_cases h : key = k
    · simp [h]
    · simp [h, ih]

theorem contains_iff {t : Table α} {key : String} : t.contains key ↔ key ∈ t.keys :=
  lookup_isSome key t.entries

theorem keys_insert (t : Table α) (key : String) (value : α) :
    (t.insert key value).keys = if key ∈ t.keys then t.keys else t.keys ++ [key] := by
  unfold insert
  by_cases h : t.contains key
  · rw [if_pos h, if_pos (contains_iff.1 h), keys_modify]
  · rw [if_neg h, if_neg fun hk => h (contains_iff.2 hk)]
    simp [keys]

theorem nodup_keys_insert {t : Table α} (h : t.keys.Nodup) (key : String) (value : α) :
    (t.insert key value).keys.Nodup := by
  rw [keys_insert]
  split
  · exact h
  · rename_i hk
    exact h.append (List.nodup_singleton key) (by simpa using hk)

theorem get?_isSome {t : Table α} {key : String} : (t.get? key).isSome ↔ key ∈ t.keys :=
  lookup_isSome key t.entries

theorem get?_eq_none {t : Table α} {key : String} (h : key ∉ t.keys) : t.get? key = none := by
  rw [← get?_isSome] at h
  simpa using h

theorem exists_get? {t : Table α} {key : String} (h : key ∈ t.keys) : ∃ v, t.get? key = some v :=
  Option.isSome_iff_exists.1 (get?_isSome.2 h)

theorem mem_keys_of_get? {t : Table α} {key : String} {v : α} (h : t.get? key = some v) :
    key ∈ t.keys :=
  get?_isSome.1 (by rw [h]; rfl)

/-- An entry is found under its key, as long as no key is there twice. -/
theorem get?_of_mem_entries {t : Table α} (h : t.keys.Nodup) {e : String × α}
    (he : e ∈ t.entries) : t.get? e.1 = some e.2 := by
  obtain ⟨es⟩ := t
  simp only [keys, get?] at h he ⊢
  induction es with
  | nil => simp at he
  | cons e' es ih =>
    obtain ⟨k, v⟩ := e'
    simp only [List.map_cons, List.nodup_cons] at h
    rw [lookup_cons_ite]
    rcases List.mem_cons.1 he with rfl | hes
    · simp
    · have hne : e.1 ≠ k := fun hk => h.1 (hk ▸ List.mem_map_of_mem hes)
      rw [if_neg hne]
      exact ih h.2 hes

theorem mem_entries_of_get? {t : Table α} {key : String} {v : α} (h : t.get? key = some v) :
    (key, v) ∈ t.entries := by
  obtain ⟨es⟩ := t
  simp only [get?] at h ⊢
  induction es with
  | nil => simp at h
  | cons e es ih =>
    obtain ⟨k, w⟩ := e
    rw [lookup_cons_ite] at h
    split at h
    · rename_i hk
      obtain rfl := Option.some.inj h
      simp [hk]
    · exact List.mem_cons_of_mem _ (ih h)

end Table

namespace Graph

variable {g : Graph} {id x : VarId}

theorem mem_ids : x ∈ g.ids ↔ g.hasTypeVariable x := Table.contains_iff.symm

theorem boundsOf_eq {b : Bounds} (h : g.bounds.get? x = some b) : g.boundsOf x = b := by
  simp [boundsOf, h]

/-- There is nothing in the record of a variable that is not registered. -/
theorem boundsOf_of_not_mem (h : x ∉ g.ids) : g.boundsOf x = {} := by
  simp [boundsOf, Table.get?_eq_none h]

theorem require_eq_ok {b : Bounds} : g.require id = .ok b ↔ g.bounds.get? id = some b := by
  unfold require
  split <;> simp_all

theorem mem_ids_of_require {b : Bounds} (h : g.require id = .ok b) : id ∈ g.ids :=
  Table.mem_keys_of_get? (require_eq_ok.1 h)

theorem boundsOf_of_require {b : Bounds} (h : g.require id = .ok b) : g.boundsOf id = b :=
  boundsOf_eq (require_eq_ok.1 h)

@[simp] theorem ids_update (f : Bounds → Bounds) : (g.update id f).ids = g.ids :=
  Table.keys_modify ..

@[simp] theorem names_update (f : Bounds → Bounds) : (g.update id f).names = g.names := rfl

/-- **A changed record.** The change is seen at `id` alone, and only if `id` is registered. -/
theorem boundsOf_update (f : Bounds → Bounds) :
    (g.update id f).boundsOf x = if x = id ∧ x ∈ g.ids then f (g.boundsOf x) else g.boundsOf x := by
  simp only [boundsOf, update, Table.get?_modify]
  by_cases hx : x ∈ g.ids
  · obtain ⟨b, hb⟩ := Table.exists_get? hx
    by_cases h : x = id <;> simp [h, hb, hx]
    · subst h
      simp [hb, hx]
  · have hb : g.bounds.get? x = none := Table.get?_eq_none hx
    simp [hx, hb]

theorem boundsOf_update_self (h : id ∈ g.ids) (f : Bounds → Bounds) :
    (g.update id f).boundsOf id = f (g.boundsOf id) := by
  rw [boundsOf_update, if_pos ⟨rfl, h⟩]

theorem boundsOf_update_ne (h : x ≠ id) (f : Bounds → Bounds) :
    (g.update id f).boundsOf x = g.boundsOf x := by
  rw [boundsOf_update, if_neg fun hc => h hc.1]

end Graph

end TypeBounds
