import TypeBounds.Proofs.Names
import TypeBounds.Proofs.Reach
import TypeBounds.Proofs.Records
import TypeBounds.TypeExpr.Token
import TypeBounds.Universe

/-!
# Declared types

In a universe a name stands for one type, and the parents of a declared type are declared. So the
declared types are ordered by name alone: `b` is above `a` if a path of parents' names leads there
(`Universe.Above`), and the search for an ancestor finds exactly what is above
(`Universe.Sound.hasAncestor_iff`).
-/

namespace TypeBounds

namespace Universe

variable {u u' : Universe} {t a b p : Ty} {name : String}

/-- The type is declared under its own name. -/
def Declares (u : Universe) (t : Ty) : Prop := u.find? t.name = some t

/-- What holds of every universe that was accepted. -/
structure Sound (u : Universe) : Prop where
  nodup : u.types.keys.Nodup
  mixed : u.find? "mixed" = some .mixed
  name_eq : ∀ name t, u.find? name = some t → t.name = name
  leaf : ∀ name t, u.find? name = some t →
    t = .mixed ∨ ∃ kind final parents, t = .nominal name kind final parents
  parents : ∀ name t, u.find? name = some t → ∀ p ∈ t.parents, u.Declares p

theorem find?_empty {t : Ty} (h : find? {} name = some t) : name = "mixed" ∧ t = .mixed := by
  unfold find? Table.get? at h
  rw [Table.lookup_cons_ite] at h
  split at h
  · rename_i hname
    exact ⟨hname, (Option.some.inj h).symm⟩
  · cases h

theorem sound_empty : Sound {} where
  nodup := List.nodup_singleton _
  mixed := rfl
  name_eq name t h := by
    obtain ⟨rfl, rfl⟩ := find?_empty h
    rfl
  leaf name t h := .inl (find?_empty h).2
  parents name t h p hp := by
    obtain ⟨-, rfl⟩ := find?_empty h
    cases hp

theorem except_bind_eq_ok {ε α β : Type} {x : Except ε α} {f : α → Except ε β} {b : β}
    (h : x >>= f = .ok b) : ∃ a, x = .ok a ∧ f a = .ok b := by
  cases x with
  | error e => cases h
  | ok a => exact ⟨a, rfl, h⟩

theorem map_find?_of_mapM {d : TypeDecl} {names : List String} {parents : List Ty}
    (h : (names.mapM fun p => match u.find? p with
      | some t => pure t
      | none => throw (.undeclaredParent p d.name)) = (.ok parents : Except Error (List Ty))) :
    names.map u.find? = parents.map some := by
  induction names generalizing parents with
  | nil =>
    cases h
    rfl
  | cons name names ih =>
    rw [List.mapM_cons] at h
    cases hname : u.find? name with
    | none =>
      rw [hname] at h
      cases h
    | some t =>
      simp only [hname, pure_bind] at h
      obtain ⟨rest, hrest, hparents⟩ := except_bind_eq_ok h
      cases hparents
      rw [List.map_cons, List.map_cons, hname, ih hrest]

/-- What one declaration adds: a nominal type under a new name, with the parents that it names. -/
theorem declare_eq_ok {d : TypeDecl} (h : u.declare d = .ok u') :
    ∃ kind parents, d.name ∉ u.types.keys ∧ d.parents.map u.find? = parents.map some ∧
      u' = ⟨u.types.insert d.name (.nominal d.name kind d.final parents)⟩ := by
  unfold declare at h
  by_cases hempty : d.name = ""
  · simp [hempty] at h
    cases h
  by_cases htwice : u.types.contains d.name
  · simp [hempty, htwice] at h
    cases h
  cases hkind : kindNamed? d.kind with
  | none =>
    simp only [hempty, htwice, hkind, if_false] at h
    cases h
  | some kind =>
    simp only [hempty, htwice, hkind, if_false, pure_bind] at h
    obtain ⟨parents, hparents, hu'⟩ := except_bind_eq_ok h
    cases hu'
    exact ⟨kind, parents, fun hk => htwice (Table.contains_iff.2 hk),
      map_find?_of_mapM hparents, rfl⟩

/-- A declaration leaves the types there are. -/
theorem find?_declare {d : TypeDecl} (h : u.declare d = .ok u') (ht : u.find? name = some t) :
    u'.find? name = some t := by
  obtain ⟨kind, parents, hnew, -, rfl⟩ := declare_eq_ok h
  have hne : name ≠ d.name := fun hname => hnew (hname ▸ Table.mem_keys_of_get? ht)
  exact (Table.get?_insert ..).trans ((if_neg hne).trans ht)

theorem Sound.declare (hu : u.Sound) {d : TypeDecl} (h : u.declare d = .ok u') : u'.Sound := by
  have hold {name : String} {t : Ty} (ht : u.find? name = some t) : u'.find? name = some t :=
    find?_declare h ht
  obtain ⟨kind, parents, hnew, hparents, rfl⟩ := declare_eq_ok h
  have hcases {name : String} {t : Ty}
      (ht : find? ⟨u.types.insert d.name (.nominal d.name kind d.final parents)⟩ name = some t) :
      name = d.name ∧ t = .nominal d.name kind d.final parents ∨ u.find? name = some t := by
    unfold find? at ht
    rw [Table.get?_insert] at ht
    split at ht
    · rename_i hname
      exact .inl ⟨hname, (Option.some.inj ht).symm⟩
    · exact .inr ht
  refine ⟨Table.nodup_keys_insert hu.nodup _ _, hold hu.mixed, fun name t ht => ?_,
    fun name t ht => ?_, fun name t ht p hp => ?_⟩
  · rcases hcases ht with ⟨rfl, rfl⟩ | ht
    · rfl
    · exact hu.name_eq name t ht
  · rcases hcases ht with ⟨rfl, rfl⟩ | ht
    · exact .inr ⟨kind, d.final, parents, rfl⟩
    · exact hu.leaf name t ht
  · rcases hcases ht with ⟨rfl, rfl⟩ | ht
    · obtain ⟨name', -, hp'⟩ :=
        List.mem_map.1 (hparents ▸ List.mem_map_of_mem hp : some p ∈ d.parents.map u.find?)
      have hname : p.name = name' := hu.name_eq name' p hp'
      exact hold (hname ▸ hp')
    · exact hold (hu.parents name t ht p hp)

theorem Sound.declareAll (hu : u.Sound) {decls : List TypeDecl} 
    (h : decls.foldlM Universe.declare u = .ok u') : u'.Sound := by
  induction decls generalizing u with
  | nil =>
    cases h
    exact hu
  | cons d decls ih =>
    rw [List.foldlM_cons] at h
    cases hd : u.declare d with
    | error e =>
      rw [hd] at h
      cases h
    | ok u₁ =>
      rw [hd] at h
      exact ih (hu.declare hd) h

/-- **Accepted universes** are sound. -/
theorem sound_of_ofDecls {decls : List TypeDecl} (h : ofDecls decls = .ok u) : u.Sound :=
  sound_empty.declareAll h

theorem mem_keys_of_declareAll {decls : List TypeDecl} (h : decls.foldlM declare u = .ok u') :
    name ∈ u'.types.keys ↔ name ∈ u.types.keys ∨ ∃ d ∈ decls, d.name = name := by
  induction decls generalizing u with
  | nil =>
    cases h
    simp
  | cons d decls ih =>
    rw [List.foldlM_cons] at h
    obtain ⟨u₁, hd, h⟩ := except_bind_eq_ok h
    obtain ⟨kind, parents, hnew, -, rfl⟩ := declare_eq_ok hd
    rw [ih h, Table.keys_insert, if_neg hnew, List.mem_append, List.mem_singleton,
      List.exists_mem_cons_iff, or_assoc, eq_comm]

/-- **The names of a universe** are `mixed` and those that were declared. -/
theorem mem_keys_of_ofDecls {decls : List TypeDecl} (h : ofDecls decls = .ok u) :
    name ∈ u.types.keys ↔ name = "mixed" ∨ ∃ d ∈ decls, d.name = name := by
  rw [mem_keys_of_declareAll h]
  simp [Table.keys]

/-! ## Ancestors -/

/-- The names of the parents of the type under a name. -/
def parentNames (u : Universe) (name : String) : List String :=
  match u.find? name with
  | some t => t.parents.map Ty.name
  | none => []

/-- The second name is the first one, or one of a type declared above it. -/
def Above (u : Universe) (a b : String) : Prop := Path u.types.keys u.parentNames a b

theorem Declares.parentNames_eq (ht : u.Declares t) :
    u.parentNames t.name = t.parents.map Ty.name := by
  unfold parentNames
  rw [ht]

theorem Declares.mem_keys (ht : u.Declares t) : t.name ∈ u.types.keys := Table.mem_keys_of_get? ht

theorem Declares.eq_of_name_eq (ha : u.Declares a) (hb : u.Declares b) (h : a.name = b.name) :
    a = b := by
  unfold Declares at ha hb
  rw [h, hb] at ha
  exact (Option.some.inj ha).symm

theorem Sound.declares (hu : u.Sound) (ht : u.find? name = some t) : u.Declares t := by
  unfold Declares
  rw [hu.name_eq name t ht, ht]

theorem Sound.declares_parent (hu : u.Sound) (ht : u.Declares t) (hp : p ∈ t.parents) :
    u.Declares p :=
  hu.parents t.name t ht p hp

theorem one_le_lineage (t : Ty) : 1 ≤ t.lineage := by
  cases t <;> simp [Ty.lineage]

theorem lineageAll_append (ts us : List Ty) :
    Ty.lineageAll (ts ++ us) = Ty.lineageAll ts + Ty.lineageAll us := by
  induction ts with
  | nil => simp [Ty.lineageAll]
  | cons t ts ih => simp [Ty.lineageAll, ih, Nat.add_assoc]

theorem Sound.lineage_eq (hu : u.Sound) (ht : u.Declares t) :
    t.lineage = 1 + Ty.lineageAll t.parents := by
  rcases hu.leaf t.name t ht with h | ⟨kind, final, parents, h⟩
  · rw [h]
    rfl
  · rw [h]
    rfl

/-- **The search upwards** with `seen` out of bounds finds what a path outside of `seen` leads to.
Not following a name twice is sound since a name stands for one type. -/
theorem Sound.searchUpwards_iff (hu : u.Sound) {steps : Nat} {seen nodes : List String}
    {queue : List Ty} (hnodes : nodes.Nodup) (hmem : ∀ x, x ∈ nodes ↔ x ∈ u.types.keys ∧ x ∉ seen)
    (hname : name ∉ seen) (hqueue : ∀ q ∈ queue, u.Declares q)
    (hsteps : Ty.lineageAll queue ≤ steps) :
    Ty.searchUpwards name steps seen queue ↔
      ∃ q ∈ queue, q.name ∈ nodes ∧ Path nodes u.parentNames q.name name := by
  induction steps generalizing seen nodes queue with
  | zero =>
    cases queue with
    | nil => simp [Ty.searchUpwards]
    | cons t queue =>
      have := one_le_lineage t
      simp only [Ty.lineageAll] at hsteps
      omega
  | succ steps ih =>
    cases queue with
    | nil => simp [Ty.searchUpwards]
    | cons t queue =>
      have ht : u.Declares t := hqueue t (List.mem_cons_self ..)
      have hrest : ∀ q ∈ queue, u.Declares q := fun q hq => hqueue q (List.mem_cons_of_mem _ hq)
      have hlineage := hu.lineage_eq ht
      simp only [Ty.lineageAll] at hsteps
      rw [Ty.searchUpwards]
      by_cases hfound : t.name = name
      · rw [if_pos hfound]
        refine iff_of_true rfl ⟨t, List.mem_cons_self .., ?_, hfound ▸ .refl⟩
        exact (hmem _).2 ⟨ht.mem_keys, hfound ▸ hname⟩
      rw [if_neg hfound]
      by_cases hseen : t.name ∈ seen
      · rw [if_pos (List.contains_iff_mem.2 hseen), ih hnodes hmem hname hrest (by omega)]
        have hout : t.name ∉ nodes := fun h => ((hmem _).1 h).2 hseen
        simp [hout]
      · rw [if_neg (fun h => hseen (List.contains_iff_mem.1 h))]
        have hin : t.name ∈ nodes := (hmem _).2 ⟨ht.mem_keys, hseen⟩
        have hmem' (x : String) :
            x ∈ nodes.erase t.name ↔ x ∈ u.types.keys ∧ x ∉ t.name :: seen := by
          rw [hnodes.mem_erase_iff, hmem, List.mem_cons]
          grind
        have hqueue' : ∀ q ∈ queue ++ t.parents, u.Declares q := by
          intro q hq
          rcases List.mem_append.1 hq with hq | hq
          · exact hrest q hq
          · exact hu.declares_parent ht hq
        have hname' : name ∉ t.name :: seen := by
          rw [List.mem_cons, not_or]
          exact ⟨fun h => hfound h.symm, hname⟩
        rw [ih (hnodes.erase _) hmem' hname' hqueue' (by rw [lineageAll_append]; omega)]
        constructor
        · rintro ⟨q, hq, hqn, hp⟩
          have hp : Path nodes u.parentNames q.name name := hp.mono List.erase_subset
          have hqn : q.name ∈ nodes := List.mem_of_mem_erase hqn
          rcases List.mem_append.1 hq with hq | hq
          · exact ⟨q, List.mem_cons_of_mem _ hq, hqn, hp⟩
          · refine ⟨t, List.mem_cons_self .., hin, .head ⟨?_, hqn⟩ hp⟩
            rw [ht.parentNames_eq]
            exact List.mem_map_of_mem hq
        · rintro ⟨q, hq, hqn, hp⟩
          -- what leads to the name without meeting `t` again starts in the queue or at a parent
          rcases hp.avoiding hnodes (fun h => hfound h.symm) with ⟨hne, hp⟩ | ⟨y, hy, hyn, hp⟩
          · refine ⟨q, List.mem_append_left _ ?_, hnodes.mem_erase_iff.2 ⟨hne, hqn⟩, hp⟩
            exact (List.mem_cons.1 hq).resolve_left fun h => hne (h ▸ rfl)
          · rw [ht.parentNames_eq] at hy
            obtain ⟨p, hp', rfl⟩ := List.mem_map.1 hy
            exact ⟨p, List.mem_append_right _ hp', hyn, hp⟩

/-- **Ancestors** of a declared type are the types above it. -/
theorem Sound.hasAncestor_iff (hu : u.Sound) (ht : u.Declares t) :
    t.hasAncestor name ↔ u.Above t.name name := by
  unfold Ty.hasAncestor
  rw [hu.searchUpwards_iff hu.nodup (by simp) List.not_mem_nil (by simpa using ht)
    (by simp [Ty.lineageAll])]
  simp [ht.mem_keys, Above]

theorem Above.refl (a : String) : u.Above a a := Relation.ReflTransGen.refl

theorem Above.trans {a b c : String} (h : u.Above a b) (h' : u.Above b c) : u.Above a c :=
  Relation.ReflTransGen.trans h h'

end Universe

end TypeBounds
