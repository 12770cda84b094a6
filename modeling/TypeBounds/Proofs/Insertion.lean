import TypeBounds.Proofs.Edges
import TypeBounds.Proofs.Subtyping

/-!
# Members coming into a bound

What a bound holds after a member was put in, for bounds without convertibles. Both bounds work the
same way, each in its own direction, so everything is said of a `Side`: a new member of a lower
bound takes the place of what is below it, a new member of an upper bound the place of what is above
it.

* `Members.Keyed`: members stand under their names. Then a container is determined by its types;
* `Graph.Tidy`: every bound is keyed and its members are admissible;
* `Graph.inserted`: both insertions in one form, with `insertLower_eq_inserted` and
  `insertUpper_eq_inserted`, and `Graph.Tidy.mem_inserted`, what the bound holds afterwards.
-/

namespace TypeBounds

/-! ## Containers of keyed members -/

namespace Members

variable {ms : Members} {t t' : Ty} {key : String}

/-- Every member stands under its name, and no name is there twice. -/
structure Keyed (ms : Members) : Prop where
  key : ∀ m ∈ ms, m.1 = m.2.name
  nodup : (keys ms).Nodup

theorem mem_types : t ∈ types ms ↔ ∃ m ∈ ms, m.2 = t := List.mem_map

theorem Keyed.nil : Keyed [] := ⟨fun _ h => (List.not_mem_nil h).elim, List.nodup_nil⟩

section

variable (h : Keyed ms)

include h

theorem Keyed.mem (ht : t ∈ types ms) : (t.name, t) ∈ ms := by
  obtain ⟨m, hm, rfl⟩ := mem_types.1 ht
  have hkey := h.key m hm
  rw [← hkey]
  exact hm

theorem Keyed.eq_of_name_eq (ht : t ∈ types ms) (ht' : t' ∈ types ms)
    (hname : t.name = t'.name) : t = t' :=
  congrArg Prod.snd (List.inj_on_of_nodup_map h.nodup (h.mem ht) (h.mem ht') hname)

theorem Keyed.nodup_types : (types ms).Nodup := by
  refine .of_map Ty.name ?_
  have hkeys : (types ms).map Ty.name = keys ms := by
    rw [types, keys, List.map_map]
    exact List.map_congr_left fun m hm => (h.key m hm).symm
  rw [hkeys]
  exact h.nodup

theorem mem_types_erase : t ∈ types (erase ms key) ↔ t ∈ types ms ∧ t.name ≠ key := by
  simp only [mem_types, erase, List.mem_filter, decide_eq_true_eq]
  constructor
  · rintro ⟨m, ⟨hm, hne⟩, rfl⟩
    exact ⟨⟨m, hm, rfl⟩, h.key m hm ▸ hne⟩
  · rintro ⟨⟨m, hm, rfl⟩, hne⟩
    exact ⟨m, ⟨hm, (h.key m hm).symm ▸ hne⟩, rfl⟩

theorem Keyed.erase (key : String) : Keyed (erase ms key) where
  key m hm := h.key m (List.mem_of_mem_filter hm)
  nodup := h.nodup.sublist (List.filter_sublist.map _)

theorem Keyed.eraseAll (ts : List Ty) :
    Keyed (ts.foldl (fun ms e => Members.erase ms e.name) ms) ∧
      ∀ t, t ∈ types (ts.foldl (fun ms e => Members.erase ms e.name) ms) ↔
        t ∈ types ms ∧ ∀ e ∈ ts, t.name ≠ e.name := by
  induction ts generalizing ms with
  | nil => exact ⟨h, by simp⟩
  | cons e ts ih =>
    obtain ⟨hkeyed, hmem⟩ := ih (h.erase e.name)
    refine ⟨hkeyed, fun t => ?_⟩
    rw [List.foldl_cons, hmem, mem_types_erase h, List.forall_mem_cons, and_assoc]

/-- A type whose name is not taken is added at the end. -/
theorem Keyed.add (hnew : ∀ t' ∈ types ms, t'.name ≠ t.name) :
    Keyed (add ms t) ∧ ∀ t', t' ∈ types (add ms t) ↔ t' ∈ types ms ∨ t' = t := by
  have hfree : holds ms t.name = false := by
    rw [← Bool.not_eq_true, holds, List.any_eq_true]
    rintro ⟨m, hm, hkey⟩
    rw [decide_eq_true_eq, h.key m hm] at hkey
    exact hnew m.2 (mem_types.2 ⟨m, hm, rfl⟩) hkey
  have hadd : Members.add ms t = ms ++ [(t.name, t)] := by
    rw [Members.add, hfree]
    rfl
  rw [hadd]
  refine ⟨⟨fun m hm => ?_, ?_⟩, fun t' => by simp [types]⟩
  · rcases List.mem_append.1 hm with hm | hm
    · exact h.key m hm
    · rw [List.mem_singleton.1 hm]
  · rw [keys, List.map_append]
    refine h.nodup.append (List.nodup_singleton _) fun k hk hk' => ?_
    obtain ⟨m, hm, rfl⟩ := List.mem_map.1 hk
    rw [List.map_cons, List.map_nil, List.mem_singleton, h.key m hm] at hk'
    exact hnew m.2 (mem_types.2 ⟨m, hm, rfl⟩) hk'

/-- Members that are keyed already are not changed by adding them anew. -/
theorem Keyed.ofTypes_types : ofTypes (types ms) = ms := by
  have hfold (acc rest : Members) (hk : Keyed (acc ++ rest)) :
      (types rest).foldl Members.add acc = acc ++ rest := by
    induction rest generalizing acc with
    | nil => simp [types]
    | cons m rest ih =>
      have hm : m.1 = m.2.name := hk.key m (List.mem_append_right _ (List.mem_cons_self ..))
      have hfree : holds acc m.2.name = false := by
        rw [← Bool.not_eq_true, holds, List.any_eq_true]
        rintro ⟨e, he, hkey⟩
        have hnodup := hk.nodup
        rw [keys, List.map_append, List.map_cons, List.nodup_append] at hnodup
        have hne := hnodup.2.2 e.1 (List.mem_map_of_mem he) m.1 (List.mem_cons_self ..)
        rw [decide_eq_true_eq, ← hm] at hkey
        exact hne hkey
      have hadd : Members.add acc m.2 = acc ++ [m] := by
        rw [Members.add, hfree, ← hm]
        rfl
      rw [types, List.map_cons, List.foldl_cons, hadd]
      have := ih (acc ++ [m]) (by simpa using hk)
      simpa [types] using this
  exact hfold [] ms h

end

theorem add_ne_nil (ms : Members) (t : Ty) : add ms t ≠ [] := by
  unfold add
  split
  · rintro rfl
    contradiction
  · exact List.append_ne_nil_of_right_ne_nil _ (List.cons_ne_nil _ _)

theorem eq_nil_of_ofTypes {ts : List Ty} (h : ofTypes ts = []) : ts = [] := by
  rcases ts.eq_nil_or_concat with rfl | ⟨ts', t, rfl⟩
  · rfl
  · rw [ofTypes, List.concat_eq_append, List.foldl_concat] at h
    exact absurd h (add_ne_nil _ _)

end Members

/-! ## Copies -/

theorem mapEach_eq (f : Ty → Ty) (ms : Members) :
    Ty.mapEach f ms = ms.map fun m => m.2.mapConvertibles f := by
  induction ms with
  | nil => simp [Ty.mapEach]
  | cons m ms ih => simp [Ty.mapEach, ih]

/-- There is nothing to replace in a type without convertibles. -/
theorem ConvertibleFree.mapConvertibles_eq {u : Universe} (hu : u.Sound) {t : Ty}
    (ht : ConvertibleFree u t) (f : Ty → Ty) : t.mapConvertibles f = t := by
  induction ht with
  | declared h =>
    rcases hu.leaf _ _ h with h | ⟨_, _, _, h⟩ <;> rw [h, Ty.mapConvertibles]
  | @container side ms hkeys hnodup h ih =>
    have heach : Ty.mapEach f ms = Members.types ms := by
      rw [mapEach_eq]
      exact List.map_congr_left fun m hm => ih m hm
    have hms : Members.ofTypes (Ty.mapEach f ms) = ms := by
      rw [heach]
      exact Members.Keyed.ofTypes_types ⟨hkeys, hnodup⟩
    cases side with
    | lower => rw [Side.container, Ty.mapConvertibles, Ty.unionOf, hms]
    | upper => rw [Side.container, Ty.mapConvertibles, Ty.interOf, hms]

theorem ConvertibleFree.copy_eq {u : Universe} (hu : u.Sound) {t : Ty} (ht : ConvertibleFree u t) :
    t.copy = t :=
  ht.mapConvertibles_eq hu _

/-! ## The two sides of a variable -/

/-- The members of one bound. -/
def Bounds.side (b : Bounds) : Side → Members
  | .lower => b.lower
  | .upper => b.upper

/-- The record with other members in one bound. -/
def Bounds.withSide (b : Bounds) (ms : Members) : Side → Bounds
  | .lower => { b with lower := ms }
  | .upper => { b with upper := ms }

/-- The types that a bound of a variable is made of. -/
def Graph.has (g : Graph) (side : Side) (x : VarId) : List Ty :=
  Members.types ((g.boundsOf x).side side)

/-- With `new` in the bound, `old` says nothing more. -/
def Side.Covered (side : Side) (old new : Ty) : Prop :=
  match side with
  | .lower => Sub old new
  | .upper => Sub new old

/-- One of two, as the side says. -/
def Side.either {α : Type} (side : Side) (lower upper : α) : α :=
  match side with
  | .lower => lower
  | .upper => upper

/-- The opposite bound. -/
def Side.other : Side → Side
  | .lower => .upper
  | .upper => .lower

theorem Side.other_ne (side : Side) : side.other ≠ side := by
  cases side <;> exact fun h => by cases h

theorem Side.eq_or_eq_other (side side' : Side) : side' = side ∨ side' = side.other := by
  cases side <;> cases side' <;> simp [Side.other]

/-- What the members of a bound look like: types without convertibles, taken apart as far as the
bound does it. -/
structure Settled (u : Universe) (side : Side) (t : Ty) : Prop where
  convertibleFree : ConvertibleFree u t
  ne_container : ∀ ms, t ≠ side.container ms

theorem ConvertibleFree.settled {u : Universe} (hu : u.Sound) {t p : Ty} (ht : ConvertibleFree u t)
    {side : Side} (hp : p ∈ side.parts t) : Settled u side p := by
  cases side with
  | lower =>
    obtain ⟨hcf, hne, -⟩ := ht.of_mem_unionParts hu hp
    exact ⟨hcf, hne⟩
  | upper =>
    obtain ⟨hcf, hne⟩ := ht.of_mem_interParts hu hp
    exact ⟨hcf, hne⟩

/-- **The members that bounds are allowed to have**, on each side: whatever is told of them, they
are settled in a universe whose names can be told apart. -/
structure Admits (u : Universe) (P : Side → Ty → Prop) : Prop where
  legible : u.Legible
  settled : ∀ side t, P side t → Settled u side t

theorem Admits.convertibleFree {u : Universe} {P : Side → Ty → Prop} (hP : Admits u P) {side : Side}
    {t : Ty} (ht : P side t) : ConvertibleFree u t :=
  (hP.settled side t ht).convertibleFree

namespace Graph

variable {u : Universe} {P : Side → Ty → Prop} {g g' : Graph} {side : Side}
  {id x : VarId} {t m e : Ty}

/-- Every bound is keyed, and its members are as `P` says. -/
structure Tidy (P : Side → Ty → Prop) (g : Graph) : Prop where
  keyed : ∀ side x, ((g.boundsOf x).side side).Keyed
  admissible : ∀ side x, ∀ t ∈ g.has side x, P side t

theorem Tidy.empty (tag : Nat) (lattice : Lattice) (policy : Policy) :
    Tidy P { tag, lattice, policy } :=
  ⟨fun side _ => by cases side <;> exact .nil, fun side _ _ ht => by cases side <;> cases ht⟩

theorem Tidy.convertibleFree (hP : Admits u P) (h : g.Tidy P) (ht : t ∈ g.has side x) :
    ConvertibleFree u t :=
  hP.convertibleFree (h.admissible side x t ht)

/-- In the view of the graph, `new` takes the place of `old`. -/
def supersedes (g : Graph) (side : Side) (new old : Ty) : Bool :=
  match side with
  | .lower => g.isSubtype old new
  | .upper => g.isSubtype new old

theorem supersedes_iff (hu : u.Legible) (hm : ConvertibleFree u m) (he : ConvertibleFree u e) :
    g.supersedes side m e ↔ side.Covered e m := by
  cases side with
  | lower => exact isSubtype_iff hu he hm
  | upper => exact isSubtype_iff hu hm he

/-- Something in the bound covers the type. -/
def Covers (g : Graph) (side : Side) (x : VarId) (t : Ty) : Prop :=
  ∃ e ∈ g.has side x, side.Covered t e

/-- Whether a bound already covers a type, in the view of the graph. -/
def absorbs (g : Graph) (side : Side) (id : VarId) (m : Ty) : Bool :=
  match side with
  | .lower => g.lowerAbsorbs id m
  | .upper => g.upperAbsorbs id m

theorem absorbs_eq : g.absorbs side id m = (g.has side id).any fun e => g.supersedes side e m := by
  rw [has, Members.types, List.any_map]
  cases side <;> rfl

theorem Tidy.absorbs_iff (hP : Admits u P) (h : g.Tidy P) (hm : ConvertibleFree u m) :
    g.absorbs side id m ↔ g.Covers side id m := by
  have hcf {e : Ty} (he : e ∈ g.has side id) := h.convertibleFree hP he
  rw [absorbs_eq, List.any_eq_true]
  exact exists_congr fun e => and_congr_right fun he => supersedes_iff hP.legible (hcf he) hm

/-- **Insertion**, the same for both bounds: what the new member supersedes goes. -/
def inserted (g : Graph) (side : Side) (id : VarId) (m : Ty) : Graph :=
  let gone := (g.has side id).filter fun e => g.supersedes side m e
  g.update id fun b => b.withSide
    (Members.add (gone.foldl (fun ms e => Members.erase ms e.name) (b.side side)) m) side

theorem insertUpper_eq_inserted_of_copy_eq (hm : m.copy = m) (h : g.insertUpper id m = .ok g') :
    g' = g.inserted .upper id m := by
  unfold insertUpper at h
  dsimp only at h
  split at h
  · cases h
  · cases h
    rw [hm]
    rfl

theorem insertUpper_eq_inserted (hu : u.Sound) (hm : ConvertibleFree u m)
    (h : g.insertUpper id m = .ok g') : g' = g.inserted .upper id m :=
  insertUpper_eq_inserted_of_copy_eq (hm.copy_eq hu) h

theorem update_update (f f' : Bounds → Bounds) :
    (g.update id f).update id f' = g.update id fun b => f' (f b) := by
  unfold update Table.modify
  simp only [List.map_map]
  congr 2
  refine List.map_congr_left fun e _ => ?_
  by_cases he : e.1 = id <;> simp [he]

theorem update_same {f : Bounds → Bounds} (hf : ∀ b, f b = b) : g.update id f = g := by
  have hmap : g.bounds.entries.map (fun e => if e.1 = id then (e.1, f e.2) else e) =
      g.bounds.entries := by
    refine (List.map_congr_left fun e _ => ?_).trans (List.map_id _)
    rw [hf]
    split <;> rfl
  unfold update Table.modify
  rw [hmap]

/-- The members are looked at one after the other, but without convertibles the bounds around them
do not matter, so the answers could be asked for all at once. -/
theorem foldl_dropCovered {es : List Ty} {covered : Ty → Bool}
    (h : ∀ g' : Graph, ∀ e ∈ es, g'.isSubtype e m = covered e) :
    es.foldl (dropCovered id m) g = g.update id fun b => { b with
      lower := (es.filter covered).foldl (fun ms e => Members.erase ms e.name) b.lower } := by
  induction es generalizing g with
  | nil => exact (update_same fun _ => rfl).symm
  | cons e es ih =>
    rw [List.foldl_cons, ih fun g' e' he' => h g' e' (List.mem_cons_of_mem _ he'), dropCovered,
      h g e (List.mem_cons_self ..)]
    by_cases hc : covered e
    · rw [if_pos hc, update_update, List.filter_cons_of_pos hc]
      rfl
    · rw [if_neg hc, List.filter_cons_of_neg hc]

theorem insertLower_eq_inserted (hP : Admits u P) (h : g.Tidy P) (hm : ConvertibleFree u m) :
    g.insertLower id m = g.inserted .lower id m := by
  have hsame : ∀ g' : Graph, ∀ e ∈ g.has .lower id, g'.isSubtype e m = g.isSubtype e m := by
    intro g' e he
    have hiff (g : Graph) : g.isSubtype e m ↔ Sub e m :=
      isSubtype_iff hP.legible (h.convertibleFree hP he) hm
    exact Bool.eq_iff_iff.2 ((hiff g').trans (hiff g).symm)
  have hfold : (Members.types (g.boundsOf id).lower).foldl (dropCovered id m) g = _ :=
    foldl_dropCovered hsame
  rw [insertLower_eq, hfold, update_update, hm.copy_eq hP.legible.toSound]
  rfl

/-! ## What a bound holds after an insertion -/

theorem side_withSide (b : Bounds) (ms : Members) (side side' : Side) :
    (b.withSide ms side).side side' = if side' = side then ms else b.side side' := by
  cases side <;> cases side' <;> rfl

theorem sameShape_inserted : SameShape g (g.inserted side id m) := by
  refine sameShape_update fun b => ?_
  cases side <;> exact ⟨rfl, rfl, rfl⟩

/-- An insertion is seen in one bound of one variable only. -/
theorem side_boundsOf_inserted {side' : Side} (h : side' ≠ side ∨ x ≠ id) :
    ((g.inserted side id m).boundsOf x).side side' = (g.boundsOf x).side side' := by
  unfold inserted
  rw [boundsOf_update]
  split
  · rename_i hx
    rw [side_withSide, if_neg (h.resolve_right fun hne => hne hx.1)]
  · rfl

theorem boundsOf_inserted_of_not_mem (hx : x ∉ g.ids) (y : VarId) :
    (g.inserted side x m).boundsOf y = g.boundsOf y := by
  unfold inserted
  rw [boundsOf_update]
  split
  · rename_i hy
    exact absurd (hy.1 ▸ hy.2) hx
  · rfl

theorem has_inserted_ne {side' : Side} (h : side' ≠ side ∨ x ≠ id) :
    (g.inserted side id m).has side' x = g.has side' x := by
  unfold has
  rw [side_boundsOf_inserted h]

theorem supersedes_of_name_eq (hname : e.name = m.name) : g.supersedes side m e := by
  cases side with
  | lower => exact g.lattice.isSubtype_of_name_eq g.resolver hname
  | upper => exact g.lattice.isSubtype_of_name_eq g.resolver hname.symm

/-- **What an insertion leaves**, in the view of the graph: the new member and what it does not
supersede. -/
theorem has_inserted (hkeyed : ((g.boundsOf id).side side).Keyed) (hid : id ∈ g.ids) :
    (((g.inserted side id m).boundsOf id).side side).Keyed ∧
      ∀ t, t ∈ (g.inserted side id m).has side id ↔ t ∈ g.has side id ∧
        ¬g.supersedes side m t ∨ t = m := by
  set gone := (g.has side id).filter fun e => g.supersedes side m e
  have hside : ((g.inserted side id m).boundsOf id).side side =
      Members.add (gone.foldl (fun ms e => Members.erase ms e.name) ((g.boundsOf id).side side))
      m := by
    unfold inserted
    rw [boundsOf_update_self hid, side_withSide, if_pos rfl]
  obtain ⟨herased, hmem⟩ := hkeyed.eraseAll gone
  have hleft (e : Ty) : (e ∈ g.has side id ∧ ∀ e' ∈ gone, e.name ≠ e'.name) ↔
      e ∈ g.has side id ∧ ¬g.supersedes side m e := by
    refine and_congr_right fun he => ⟨fun hne hsup => hne e (List.mem_filter.2 ⟨he, hsup⟩) rfl, ?_⟩
    rintro hsup e' he' heq
    obtain ⟨he', hsup'⟩ := List.mem_filter.1 he'
    obtain rfl := hkeyed.eq_of_name_eq he he' heq
    exact hsup hsup'
  -- what is left has other names than the new member, which would supersede it otherwise
  have hadd := herased.add (t := m) fun e he heq => by
    obtain ⟨-, hsup⟩ := (hleft e).1 ((hmem e).1 he)
    exact hsup (supersedes_of_name_eq heq)
  refine ⟨hside ▸ hadd.1, fun t => ?_⟩
  rw [has, hside, hadd.2, hmem]
  exact or_congr_left (hleft t)

/-- **What an insertion leaves**: the new member and what it does not cover. -/
structure Inserts (g : Graph) (side : Side) (id : VarId) (m : Ty) : Prop where
  keyed : (((g.inserted side id m).boundsOf id).side side).Keyed
  mem : ∀ t, t ∈ (g.inserted side id m).has side id ↔ t ∈ g.has side id ∧ ¬side.Covered t m ∨ t = m

/-- It is enough that the graph knows which members the new one covers. -/
theorem inserts_of_supersedes (hkeyed : ((g.boundsOf id).side side).Keyed) (hid : id ∈ g.ids)
    (hsup : ∀ e ∈ g.has side id, g.supersedes side m e ↔ side.Covered e m) :
    g.Inserts side id m := by
  obtain ⟨hkeyed, hmem⟩ := has_inserted (m := m) hkeyed hid
  refine ⟨hkeyed, fun t => (hmem t).trans (or_congr_left (and_congr_right fun ht => ?_))⟩
  rw [hsup t ht]

theorem Tidy.mem_inserted (hP : Admits u P) (h : g.Tidy P) (side : Side)
    (hm : ConvertibleFree u m) (hid : id ∈ g.ids) : g.Inserts side id m := by
  refine inserts_of_supersedes (h.keyed side id) hid fun e he => ?_
  exact supersedes_iff hP.legible hm (h.convertibleFree hP he)

theorem Inserts.tidy (h : g.Tidy P) (hm : P side m) (hins : g.Inserts side id m) :
    (g.inserted side id m).Tidy P := by
  constructor
  · intro side' x
    by_cases hx : side' = side ∧ x = id
    · rw [hx.1, hx.2]
      exact hins.keyed
    · rw [side_boundsOf_inserted (not_and_or.1 hx)]
      exact h.keyed side' x
  · intro side' x t ht
    by_cases hx : side' = side ∧ x = id
    · rw [hx.1, hx.2, hins.mem] at ht
      rw [hx.1]
      rcases ht with ⟨ht, -⟩ | rfl
      · exact h.admissible side id t ht
      · exact hm
    · rw [has_inserted_ne (not_and_or.1 hx)] at ht
      exact h.admissible side' x t ht

theorem Tidy.inserted (hP : Admits u P) (h : g.Tidy P) (hm : P side m) (hid : id ∈ g.ids) :
    (g.inserted side id m).Tidy P :=
  (h.mem_inserted hP side (hP.convertibleFree hm) hid).tidy h hm

/-- On this side, no member of a bound is covered by another one. -/
def Antichain (g : Graph) (side : Side) : Prop :=
  ∀ x, ∀ t ∈ g.has side x, ∀ e ∈ g.has side x, side.Covered t e → t = e

/-- A member that was not covered before covers no other one afterwards. -/
theorem Inserts.antichain (hins : g.Inserts side id m) {side' : Side} (hanti : g.Antichain side')
    (hnew : ¬g.Covers side id m) : (g.inserted side id m).Antichain side' := by
  intro x t ht e he hcov
  by_cases hx : side' = side ∧ x = id
  · obtain ⟨rfl, rfl⟩ := hx
    rcases (hins.mem t).1 ht with ⟨ht, htm⟩ | rfl
    · rcases (hins.mem e).1 he with ⟨he, -⟩ | rfl
      · exact hanti x t ht e he hcov
      · exact absurd hcov htm
    · rcases (hins.mem e).1 he with ⟨he, -⟩ | rfl
      · exact absurd ⟨e, he, hcov⟩ hnew
      · rfl
  · rw [has_inserted_ne (not_and_or.1 hx)] at ht he
    exact hanti x t ht e he hcov

theorem Antichain.inserted (hP : Admits u P) (h : g.Tidy P) {side' : Side}
    (hanti : g.Antichain side') (hm : P side m) (hid : id ∈ g.ids) (hnew : ¬g.Covers side id m) :
    (g.inserted side id m).Antichain side' :=
  (h.mem_inserted hP side (hP.convertibleFree hm) hid).antichain hanti hnew

end Graph

end TypeBounds
