import TypeBounds.Proofs.Freezing
import TypeBounds.Proofs.Stock

/-!
# Types that are written as what they are

Where bounds are compared by their names, no more is known than what names tell. The name of a union
or an intersection of several members tells the two apart and has the names of the members in it.
But a container around one member is written like that member, so a union around an intersection of
several members looks like the intersection itself.

* `Ty.Candid`: nothing in the type is written like a container of the opposite kind;
* `Ty.CandidIn`: such a type, taken apart as far as a bound does it;
* `Members.keys_perm_of_name_eq`: nonempty bounds of such members with **equal names have equal
  members**, as far as names go.
-/

namespace TypeBounds

/-! ## Names of several members -/

/-- The name is one of a container of several members. -/
def Side.Spells (side : Side) (name : String) : Prop :=
  ∃ keys : List String, 2 ≤ keys.length ∧ (∀ k ∈ keys, IsPhrase k.toList) ∧
    name = joinNames side.separator side.emptyName keys

variable {side side' : Side} {name : String} {t p : Ty} {ms ms' : Members}

theorem Members.length_keys (ms : Members) : (keys ms).length = ms.length := List.length_map _

theorem Side.Spells.eq (h : side.Spells name) (h' : side'.Spells name) : side = side' := by
  obtain ⟨keys, hlen, hkeys, rfl⟩ := h
  obtain ⟨keys', hlen', hkeys', heq⟩ := h'
  exact sign_inj
    (joinNames_inj side.toList_separator side'.toList_separator hlen hlen' hkeys hkeys' heq).1

/-- Such a name starts with a parenthesis. -/
theorem Side.Spells.not_plain (h : side.Spells name) : ¬∀ c ∈ name.toList, isPlainChar c := by
  obtain ⟨keys, hlen, -, rfl⟩ := h
  intro hplain
  rw [toList_joinNames side.toList_separator hlen] at hplain
  exact absurd (hplain '(' (List.mem_cons_self ..)) (by decide)

theorem Side.other_other (side : Side) : side.other.other = side := by
  cases side <;> rfl

/-! ## Candid types -/

namespace Ty

/-- The top type, or a class with an identifier for its name. -/
def IsClass : Ty → Prop
  | mixed => True
  | nominal name _ _ _ => IsIdentifier name
  | _ => False

instance : DecidablePred IsClass
  | mixed => isTrue trivial
  | nominal name _ _ _ => inferInstanceAs (Decidable (IsIdentifier name))
  | union _ | inter _ | asVar _ _ _ | asType _ => isFalse id

/-- **Candid types** have no convertibles. They are built from classes by unions and intersections,
each of them with its members under their names, no name twice, and none that is written like one of
the opposite kind with several members. -/
inductive Candid : Ty → Prop where
  | leaf {t : Ty} (h : t.IsClass) : Candid t
  | container (side : Side) {ms : Members} (hkeyed : ms.Keyed)
      (hname : ¬side.other.Spells (side.container ms).name) (h : ∀ m ∈ ms, Candid m.2) :
      Candid (side.container ms)

/-- What the members of a bound look like: candid types, taken apart as far as the bound does it. -/
structure CandidIn (side : Side) (t : Ty) : Prop where
  candid : t.Candid
  ne_container : ∀ ms, t ≠ side.container ms

theorem IsClass.ne_container (h : t.IsClass) (side : Side) (ms : Members) :
    t ≠ side.container ms := by
  rintro rfl
  cases side <;> exact h

theorem IsClass.parts_eq (h : t.IsClass) (side : Side) : side.parts t = [t] :=
  side.parts_eq (h.ne_container side)

theorem IsClass.isPlainChar (h : t.IsClass) : ∀ c ∈ t.name.toList, isPlainChar c := by
  cases t with
  | mixed => exact isPlainChar_emptyName .upper
  | nominal => exact IsIdentifier.isPlainChar h
  | _ => exact h.elim

theorem IsClass.name_ne_empty (h : t.IsClass) : t.name ≠ "" := by
  cases t with
  | mixed => decide
  | nominal =>
    obtain ⟨c, cs, hname, -⟩ := h
    rintro heq
    rw [Ty.name] at heq
    rw [heq] at hname
    cases hname
  | _ => exact h.elim

theorem Candid.isPhrase_name (ht : t.Candid) : IsPhrase t.name.toList := by
  induction ht with
  | leaf h => exact isPhrase_of_plain h.isPlainChar
  | container side hkeyed _ _ ih => exact isPhrase_name_container side hkeyed.key ih

/-- The keys of candid members. -/
theorem Candid.isPhrase_keys (hkeyed : ms.Keyed) (h : ∀ m ∈ ms, m.2.Candid) :
    ∀ k ∈ Members.keys ms, IsPhrase k.toList :=
  isPhrase_of_mem_keys hkeyed.key fun m hm => (h m hm).isPhrase_name

section

variable (side) (hkeyed : ms.Keyed) (h : ∀ m ∈ ms, m.2.Candid)

include hkeyed h

theorem spells_container (hlen : 2 ≤ ms.length) :
    side.Spells (side.container ms).name :=
  ⟨Members.keys ms, ms.length_keys.symm ▸ hlen, Candid.isPhrase_keys hkeyed h,
    name_container side ms⟩

/-- **A container of candid members** is candid, unless its only member is written like one of the
opposite kind. -/
theorem candid_container
    (hone : ∀ k, Members.keys ms = [k] → ¬side.other.Spells k) : (side.container ms).Candid := by
  refine .container side hkeyed (fun hspells => ?_) h
  rcases ms with _ | ⟨m, _ | ⟨m', ms⟩⟩
  · rw [name_container_nil] at hspells
    exact hspells.not_plain (isPlainChar_emptyName side)
  · rw [name_container_one] at hspells
    exact hone m.1 rfl hspells
  · have hself : side.Spells (side.container (m :: m' :: ms)).name :=
      spells_container side hkeyed h (by simp)
    exact side.other_ne (hspells.eq hself)

theorem candid_container_of_length_ne_one
    (hlen : ms.length ≠ 1) : (side.container ms).Candid := by
  refine candid_container side hkeyed h fun k hk => absurd ?_ hlen
  rw [← ms.length_keys, hk]
  rfl

end

/-- **What a bound takes a candid type apart into.** -/
theorem Candid.of_mem_parts (h : t.Candid) (hp : p ∈ side.parts t) : p.CandidIn side := by
  refine ⟨?_, Side.ne_container_of_mem_parts hp⟩
  induction h with
  | leaf h =>
    rw [h.parts_eq, List.mem_singleton] at hp
    exact hp ▸ .leaf h
  | @container side' ms hkeyed hname h ih =>
    rw [Side.mem_parts_container] at hp
    split at hp
    · obtain ⟨m, hm, hp⟩ := hp
      exact ih m hm hp
    · exact hp ▸ .container side' hkeyed hname h

/-- A member of a bound is not written like that bound. -/
theorem CandidIn.not_spells (h : t.CandidIn side) : ¬side.Spells t.name := by
  cases h.candid with
  | leaf hclass => exact fun hspells => hspells.not_plain hclass.isPlainChar
  | @container side' ms _ hname =>
    rcases side.eq_or_eq_other side' with rfl | rfl
    · exact absurd rfl (h.ne_container ms)
    · rwa [side.other_other] at hname

theorem name_container_ne_empty (side : Side) (hkeyed : ms.Keyed) (h : ∀ m ∈ ms, m.2.name ≠ "") :
    (side.container ms).name ≠ "" := by
  rcases ms with _ | ⟨m, _ | ⟨m', ms⟩⟩
  · rw [name_container_nil]
    cases side <;> decide
  · rw [name_container_one, hkeyed.key m (List.mem_cons_self ..)]
    exact h m (List.mem_cons_self ..)
  · intro hempty
    have hlen : 2 ≤ (Members.keys (m :: m' :: ms)).length := by simp [Members.keys]
    have hlist := congrArg String.toList hempty
    rw [name_container, toList_joinNames side.toList_separator hlen] at hlist
    cases hlist

theorem Candid.name_ne_empty (h : t.Candid) : t.name ≠ "" := by
  induction h with
  | leaf h => exact h.name_ne_empty
  | container side hkeyed _ _ ih => exact name_container_ne_empty side hkeyed ih

/-! ## Candid types do not change -/

theorem Candid.bare (h : t.Candid) : t.Bare := by
  induction h with
  | @leaf t h =>
    cases t with
    | mixed => simp [Bare, isConvertible]
    | nominal => simp [Bare, isConvertible]
    | _ => exact h.elim
  | container side _ _ _ ih => exact (bare_container side).2 ih

/-- Members that stay as they are make up the same container again. -/
theorem mapConvertibles_container_eq {f : Ty → Ty} (hkeyed : ms.Keyed)
    (h : ∀ m ∈ ms, m.2.mapConvertibles f = m.2) :
    (side.container ms).mapConvertibles f = side.container ms := by
  have heach : (ms.map fun m => m.2.mapConvertibles f) = Members.types ms := List.map_congr_left h
  rw [mapConvertibles_container, heach, hkeyed.ofTypes_types]

theorem Candid.mapConvertibles_eq (h : t.Candid) (f : Ty → Ty) : t.mapConvertibles f = t := by
  induction h with
  | @leaf t h =>
    cases t with
    | mixed => rw [mapConvertibles]
    | nominal => rw [mapConvertibles]
    | _ => exact h.elim
  | container _ hkeyed _ _ ih => exact mapConvertibles_container_eq hkeyed ih

theorem Candid.copy_eq (h : t.Candid) : t.copy = t := h.mapConvertibles_eq _

/-- Binding a cell may change ancestors of classes, but no names. -/
theorem Candid.rebind (h : t.Candid) (cell owner : Nat) (var : String) :
    (t.rebind cell owner var).Candid ∧ (t.rebind cell owner var).name = t.name := by
  induction h with
  | @leaf t h =>
    cases t with
    | mixed => exact ⟨.leaf h, rfl⟩
    | nominal => exact ⟨.leaf h, rfl⟩
    | _ => exact h.elim
  | @container side ms hkeyed hname _ ih =>
    rw [rebind_container, name_container_map]
    refine ⟨.container side ⟨fun m hm => ?_, ?_⟩ (by rwa [name_container_map]) fun m hm => ?_, rfl⟩
    · obtain ⟨e, he, rfl⟩ := List.mem_map.1 hm
      exact (hkeyed.key e he).trans (ih e he).2.symm
    · rw [Members.keys, List.map_map]
      exact hkeyed.nodup
    · obtain ⟨e, he, rfl⟩ := List.mem_map.1 hm
      exact (ih e he).1

theorem CandidIn.rebind (h : t.CandidIn side) (cell owner : Nat) (var : String) :
    (t.rebind cell owner var).CandidIn side := by
  refine ⟨(h.candid.rebind cell owner var).1, fun ms => ?_⟩
  cases h.candid with
  | leaf hclass =>
    cases t with
    | mixed => exact h.ne_container ms
    | nominal => cases side <;> exact fun heq => by cases heq
    | _ => exact hclass.elim
  | @container side' ms' =>
    rw [rebind_container]
    intro heq
    cases side <;> cases side'
    · exact h.ne_container ms' rfl
    · cases heq
    · cases heq
    · exact h.ne_container ms' rfl

end Ty

/-! ## Bounds with equal names -/

/-- A bound of one member is not written like one of several. -/
theorem Members.keys_eq_of_name_eq (hms' : ms'.Keyed) (h' : ∀ m ∈ ms', m.2.Candid) (hne' : ms' ≠ [])
    {m : String × Ty} (hkey : m.1 = m.2.name) (hm : m.2.CandidIn side)
    (hname : (side.container [m]).name = (side.container ms').name) : keys ms' = [m.1] := by
  rcases ms' with _ | ⟨m', _ | ⟨m'', ms'⟩⟩
  · exact absurd rfl hne'
  · rw [name_container_one, name_container_one] at hname
    exact congrArg ([·]) hname.symm
  · have hspells := Ty.spells_container side hms' h' (by simp)
    rw [← hname, name_container_one, hkey] at hspells
    exact absurd hspells hm.not_spells

/-- **Equal names, equal members**, as far as names go. -/
theorem Members.keys_perm_of_name_eq (hms : ms.Keyed) (hms' : ms'.Keyed)
    (h : ∀ m ∈ ms, m.2.CandidIn side) (h' : ∀ m ∈ ms', m.2.CandidIn side) (hne : ms ≠ [])
    (hne' : ms' ≠ []) (hname : (side.container ms).name = (side.container ms').name) :
    (keys ms).Perm (keys ms') := by
  have hcandid : ∀ m ∈ ms, m.2.Candid := fun m hm => (h m hm).candid
  have hcandid' : ∀ m ∈ ms', m.2.Candid := fun m hm => (h' m hm).candid
  by_cases hone : ms.length = 1
  · obtain ⟨m, rfl⟩ := List.length_eq_one_iff.1 hone
    have hm := List.mem_singleton_self m
    rw [keys_eq_of_name_eq hms' hcandid' hne' (hms.key m hm) (h m hm) hname]
    rfl
  by_cases hone' : ms'.length = 1
  · obtain ⟨m, rfl⟩ := List.length_eq_one_iff.1 hone'
    have hm := List.mem_singleton_self m
    rw [keys_eq_of_name_eq hms hcandid hne (hms'.key m hm) (h' m hm) hname.symm]
    rfl
  have hseveral {ms : Members} (hne : ms ≠ []) (hone : ms.length ≠ 1) : 2 ≤ (keys ms).length := by
    have hpos := List.length_pos_of_ne_nil hne
    rw [length_keys]
    omega
  rw [name_container, name_container] at hname
  exact (joinNames_inj side.toList_separator side.toList_separator (hseveral hne hone)
    (hseveral hne' hone') (Ty.Candid.isPhrase_keys hms hcandid)
    (Ty.Candid.isPhrase_keys hms' hcandid') hname).2

end TypeBounds
