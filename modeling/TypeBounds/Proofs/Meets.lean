import TypeBounds.Proofs.Semantics

/-!
# Joins and meets

A union is the least type above its members. An intersection is the greatest type below its members,
except that it may fail to be below one of them: a union on the right is taken apart before an
intersection on the left, so a member that is a union needs a member of its own above the whole
intersection.

* `member_sub_union`, `union_sub_iff`: unions;
* `inter_sub_member_iff`: **exactly** which members an intersection is below, `inter_sub_member` for
  those that hold no union;
* `sub_inter_of_forall`, `Sub.member_of_inter`, `sub_inter_iff`: what is below an intersection.
-/

namespace TypeBounds

section

variable {u : Universe} {a c p x : Ty} {ms : Members} {m : String × Ty}

/-! ## Unions -/

theorem union_sub_iff : Sub (.union ms) c ↔ ∀ m ∈ ms, Sub m.2 c := by
  simp only [Sub, mem_unionParts_union]
  constructor
  · exact fun h m hm p hp => h p ⟨m, hm, hp⟩
  · rintro h p ⟨m, hm, hp⟩
    exact h m hm p hp

theorem member_sub_union (hu : u.Sound) (h : ConvertibleFree u (.union ms)) (hm : m ∈ ms) :
    Sub m.2 (.union ms) :=
  union_sub_iff.1 (h.sub_refl hu) m hm

/-! ## Above an intersection -/

/-- What has the nominal supertypes of a type is under it, once it is under a member of each union
there. -/
theorem under_of_isNominalSubtype (hu : u.Sound) (hx : ConvertibleFree u x)
    (hnominal : ∀ name kind final parents, x.isNominalSubtype (.nominal name kind final parents) →
      p.isNominalSubtype (.nominal name kind final parents))
    (hunions : ∀ ms, .union ms ∈ x.interParts → ∃ m ∈ ms, Under p m.2) : Under p x := by
  induction hx with
  | declared hx =>
    rcases hu.leaf _ _ hx with hmixed | ⟨kind, final, parents, hx'⟩
    · rw [hmixed]
      exact .mixed
    · rw [hx'] at hx hnominal ⊢
      exact .nominal (hnominal _ _ _ _ (isNominalSubtype_refl hu hx))
  | @container side ms _ _ _ ih =>
    cases side with
    | lower =>
      have hself : Ty.union ms ∈ (Ty.union ms).interParts := by simp [Ty.interParts]
      obtain ⟨m, hm, h⟩ := hunions ms hself
      exact .union hm h
    | upper =>
      refine .inter fun m hm => ih m hm ?_ fun ms' hms' => ?_
      · intro name kind final parents hsub
        exact hnominal _ _ _ _ (isNominalSubtype_inter.2 ⟨m, hm, hsub⟩)
      · exact hunions ms' (mem_interParts_inter.2 ⟨m, hm, hms'⟩)

theorem key_eq_name_or_length_lt (side : Side) (hm : m ∈ ms) :
    m.1 = (side.container ms).name ∨
      m.1.toList.length < (side.container ms).name.toList.length := by
  match ms, hm with
  | [m'], hm =>
    obtain rfl := List.mem_singleton.1 hm
    exact .inl (name_container_one side m.1 m.2).symm
  | m₁ :: m₂ :: ms, hm =>
    rw [name_container]
    exact .inr (length_lt_joinNames side.toList_separator (by simp [Members.keys])
      (List.mem_map_of_mem hm))

/-- What is under a type of a shorter name is under a member of each union there. Longer names are
not met on the way down, so names decide nothing. -/
theorem Under.exists_of_mem_interParts (hu : u.Sound) (hx : ConvertibleFree u x) (h : Under p x)
    (hname : x.name.toList.length < p.name.toList.length) {ms : Members}
    (hms : .union ms ∈ x.interParts) : ∃ m ∈ ms, Under p m.2 := by
  induction hx with
  | declared hx =>
    rw [interParts_eq (hu.ne_container hx .upper)] at hms
    exact absurd (List.mem_singleton.1 hms).symm (hu.ne_container hx .lower ms)
  | @container side ms' hkeys _ _ ih =>
    have hne : p.name ≠ (side.container ms').name := fun h => by
      rw [h] at hname
      exact lt_irrefl _ hname
    cases side with
    | lower =>
      rw [Side.container, interParts_eq fun ms' h => by cases h] at hms
      cases List.mem_singleton.1 hms
      exact (under_union_iff hne).1 h
    | upper =>
      obtain ⟨m, hm, hms⟩ := mem_interParts_inter.1 hms
      refine ih m hm ((under_inter_iff hne).1 h m hm) ?_ hms
      rw [← hkeys m hm]
      rcases key_eq_name_or_length_lt .upper hm with hkey | hlt
      · rw [hkey]
        exact hname
      · omega

/-- **Which members an intersection is below**: those that have its name, and those in which every
union has a member that it is below. -/
theorem inter_sub_member_iff (hu : u.Sound) (h : ConvertibleFree u (.inter ms)) (hm : m ∈ ms) :
    Sub (.inter ms) m.2 ↔ (Ty.inter ms).name = m.2.name ∨
      ∀ ms', .union ms' ∈ m.2.interParts → ∃ m' ∈ ms', Sub (.inter ms) m'.2 := by
  have hne (ms' : Members) : Ty.inter ms ≠ .union ms' := fun h => by cases h
  obtain ⟨hkeys, -, hms⟩ := ConvertibleFree.of_container hu .upper h
  simp only [sub_iff_under hne]
  constructor
  · intro hunder
    -- the name of an intersection is longer than that of a member, unless there is no other member
    rw [← hkeys m hm]
    rcases key_eq_name_or_length_lt .upper hm with hkey | hlt
    · exact .inl hkey.symm
    · rw [hkeys m hm] at hlt
      exact .inr fun ms' hms' => hunder.exists_of_mem_interParts hu (hms m hm) hlt hms'
  · rintro (hname | hunions)
    · exact .same hname
    · refine under_of_isNominalSubtype hu (hms m hm)
        (fun name kind final parents hsub => ?_) hunions
      exact isNominalSubtype_inter.2 ⟨m, hm, hsub⟩

/-- An intersection is below the members that hold no union. -/
theorem inter_sub_member (hu : u.Sound) (h : ConvertibleFree u (.inter ms)) (hm : m ∈ ms)
    (hfree : UnionFree m.2) : Sub (.inter ms) m.2 := by
  obtain ⟨-, -, hms⟩ := ConvertibleFree.of_container hu .upper h
  refine (inter_sub_member_iff hu h hm).2 (.inr fun ms' hms' => ?_)
  exact absurd rfl (hfree _ (mem_subterms_of_mem_parts .upper hms') ms')

/-! ## Below an intersection -/

theorem sub_inter_of_forall (h : ∀ m ∈ ms, Sub c m.2) : Sub c (.inter ms) :=
  fun p hp => .inter fun m hm => h m hm p hp

/-- What is below an intersection is below the members that the intersection is below. -/
theorem Sub.member_of_inter (hu : u.Legible) (hc : ConvertibleFree u c)
    (hms : ConvertibleFree u (.inter ms)) (hm : m ∈ ms) (h : Sub c (.inter ms))
    (hmember : Sub (.inter ms) m.2) : Sub c m.2 := by
  have hne (ms' : Members) : Ty.inter ms ≠ .union ms' := fun h => by cases h
  obtain ⟨-, -, hm'⟩ := ConvertibleFree.of_container hu.toSound .upper hms
  intro p hp
  exact (h p hp).trans hu (hc.of_mem_unionParts hu.toSound hp).1 hms (hm' m hm)
    ((sub_iff_under hne).1 hmember)

/-- **Below an intersection** is what is below every member, if it is plain. -/
theorem sub_inter_iff (hu : u.Legible) (hc : Plain u c) (hms : ConvertibleFree u (.inter ms)) :
    Sub c (.inter ms) ↔ ∀ m ∈ ms, Sub c m.2 := by
  refine ⟨fun h m hm => ?_, sub_inter_of_forall⟩
  obtain ⟨-, -, hm'⟩ := ConvertibleFree.of_container hu.toSound .upper hms
  -- the rules lead from no intersection to its members, but the meaning does
  refine sub_of_meaning_subset.{0} hu hc (hm' m hm) fun I w hw => ?_
  exact Interpretation.mem_meaning_inter.1 (h.meaning_subset hu hc.convertibleFree hms I hw) m hm

/-- **Unions are joins, and intersections are meets up to unions among their members.** A union is
above its members and below whatever is above all of them. An intersection is above whatever is
below all its members. It is itself below exactly those members that have its name or have, for
every union in them, a member that it is below; all those without a union among them. What is below
the intersection is below these members too, and a plain type is below all members. -/
theorem union_join_and_inter_meet {decls : List TypeDecl} (hu : Universe.ofDecls decls = .ok u)
    (hnames : ∀ name ∈ u.types.keys, IsIdentifier name ∧ name ≠ "nothing") (l : Lattice)
    (r : Resolver) : (∀ ms, ConvertibleFree u (.union ms) →
      (∀ m ∈ ms, l.isSubtype r m.2 (.union ms)) ∧
      ∀ c, ConvertibleFree u c → (l.isSubtype r (.union ms) c ↔ ∀ m ∈ ms, l.isSubtype r m.2 c)) ∧
    ∀ ms, ConvertibleFree u (.inter ms) →
      (∀ m ∈ ms, (UnionFree m.2 → l.isSubtype r (.inter ms) m.2) ∧
        (l.isSubtype r (.inter ms) m.2 ↔ (Ty.inter ms).name = m.2.name ∨
          ∀ ms', .union ms' ∈ m.2.interParts → ∃ m' ∈ ms', l.isSubtype r (.inter ms) m'.2)) ∧
      ∀ c, ConvertibleFree u c →
        ((∀ m ∈ ms, l.isSubtype r c m.2) → l.isSubtype r c (.inter ms)) ∧
        (l.isSubtype r c (.inter ms) →
          ∀ m ∈ ms, l.isSubtype r (.inter ms) m.2 ∨ Plain u c → l.isSubtype r c m.2) := by
  have hlegible := Universe.legible_of_ofDecls hu hnames
  have hiff {a b : Ty} (ha : ConvertibleFree u a) (hb : ConvertibleFree u b) :
      l.isSubtype r a b ↔ Sub a b := isSubtype_iff hlegible ha hb
  refine ⟨fun ms hms => ?_, fun ms hms => ?_⟩
  · obtain ⟨-, -, hm⟩ := ConvertibleFree.of_container hlegible.toSound .lower hms
    refine ⟨fun m hmem => (hiff (hm m hmem) hms).2 (member_sub_union hlegible.toSound hms hmem),
      fun c hc => ?_⟩
    rw [hiff hms hc, union_sub_iff]
    exact forall₂_congr fun m hmem => (hiff (hm m hmem) hc).symm
  · obtain ⟨-, -, hm⟩ := ConvertibleFree.of_container hlegible.toSound .upper hms
    refine ⟨fun m hmem => ⟨fun hfree => ?_, ?_⟩, fun c hc => ⟨fun h => ?_, fun h m hmem => ?_⟩⟩
    · exact (hiff hms (hm m hmem)).2 (inter_sub_member hlegible.toSound hms hmem hfree)
    · rw [hiff hms (hm m hmem), inter_sub_member_iff hlegible.toSound hms hmem]
      refine or_congr Iff.rfl (forall₂_congr fun ms' hms' => exists_congr fun m' => and_congr_right
        fun hm' => ?_)
      have hunion := ((hm m hmem).of_mem_interParts hlegible.toSound hms').1
      obtain ⟨-, -, hmember⟩ := ConvertibleFree.of_container hlegible.toSound .lower hunion
      exact (hiff hms (hmember m' hm')).symm
    · refine (hiff hc hms).2 (sub_inter_of_forall fun m hmem => ?_)
      exact (hiff hc (hm m hmem)).1 (h m hmem)
    · have h := (hiff hc hms).1 h
      refine fun hcase => (hiff hc (hm m hmem)).2 ?_
      rcases hcase with hmember | hplain
      · exact h.member_of_inter hlegible hc hms hmem ((hiff hms (hm m hmem)).1 hmember)
      · exact (sub_inter_iff hlegible hplain hms).1 h m hmem

/-- Whoever is a ship or has an age, and has a name. -/
def namedShipOrAged : Members :=
  [("(Aged | Ship)", .union [("Aged", aged), ("Ship", ship)]), ("Named", named)]

theorem convertibleFree_namedShipOrAged : ConvertibleFree creatures (.inter namedShipOrAged) := by
  have hunion : ConvertibleFree creatures (.union [("Aged", aged), ("Ship", ship)]) := by
    refine .container .lower (by decide) (by decide) ?_
    rintro m (_ | ⟨_, _ | ⟨_, ⟨⟩⟩⟩) <;> exact .declared rfl
  refine .container .upper (by decide) (by decide) ?_
  rintro m (_ | ⟨_, _ | ⟨_, ⟨⟩⟩⟩)
  · exact hunion
  · exact .declared rfl

/-- It is below its member `Named`, and so is what is below it. Persons are below it, since they are
below both members. -/
theorem union_join_and_inter_meet_namedShipOrAged :
    Lattice.isSubtype {} .none (.inter namedShipOrAged) named ∧
      Lattice.isSubtype {} .none person (.inter namedShipOrAged) ∧
      Lattice.isSubtype {} .none (.union [("Aged", aged), ("Ship", ship)]) .mixed := by
  have hu : Universe.ofDecls creatureDecls = .ok creatures := rfl
  obtain ⟨hunion, hinter⟩ := union_join_and_inter_meet hu (by decide) {} .none
  obtain ⟨hmembers, hbelow⟩ := hinter namedShipOrAged convertibleFree_namedShipOrAged
  have hnamed : ("Named", named) ∈ namedShipOrAged := by simp [namedShipOrAged]
  refine ⟨?_, ?_, ?_⟩
  · exact (hmembers _ hnamed).1 ((Universe.sound_of_ofDecls hu).unionFree rfl)
  · refine (hbelow person (.declared rfl)).1 ?_
    rintro m (_ | ⟨_, _ | ⟨_, ⟨⟩⟩⟩) <;> decide +kernel
  · obtain ⟨-, -, hmember⟩ := ConvertibleFree.of_container (Universe.sound_of_ofDecls hu) .upper
      convertibleFree_namedShipOrAged
    refine ((hunion _ (hmember _ (List.mem_cons_self ..))).2 .mixed (.declared rfl)).2 ?_
    rintro m (_ | ⟨_, _ | ⟨_, ⟨⟩⟩⟩) <;> decide +kernel

/-- But it is not below its member that is a union, although it is below itself. -/
theorem not_inter_sub_member_namedShipOrAged :
    (∃ m ∈ namedShipOrAged, ¬Lattice.isSubtype {} .none (.inter namedShipOrAged) m.2) ∧
      Lattice.isSubtype {} .none (.inter namedShipOrAged) (.inter namedShipOrAged) := by
  refine ⟨⟨_, List.mem_cons_self .., ?_⟩, ?_⟩ <;> decide +kernel

end

end TypeBounds
