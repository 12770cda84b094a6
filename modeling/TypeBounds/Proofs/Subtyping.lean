import TypeBounds.Proofs.Legible

/-!
# Subtyping without convertibles

Unrolled rules and a rule that compares names make subtyping hard to reason about, so this module
puts a relation beside the checker: `Under p b` says when a part `p`, a type that is no union, is
below `b`. Types are without convertibles and come from a legible universe.

* `isSubtype_iff`: the checker accepts `a` below `b` if and only if every part of `a` is under `b`,
  whatever conversions there are and whatever open convertibles stand for;
* `Under.trans`: the relation is transitive. Subtyping itself is not: an intersection around a union
  has the name of that union, and the rules treat the two differently on the left.
-/

namespace TypeBounds

section

variable {u : Universe} {t a b p : Ty}

/-! ## Nominal subtyping -/

@[simp] theorem isNominalSubtype_union {ms : Members} :
    (Ty.union ms).isNominalSubtype b ↔ ∀ m ∈ ms, m.2.isNominalSubtype b := by
  rw [Ty.isNominalSubtype]
  induction ms with
  | nil => simp [Ty.allNominal]
  | cons m ms ih => simp [Ty.allNominal, ih]

@[simp] theorem isNominalSubtype_inter {ms : Members} :
    (Ty.inter ms).isNominalSubtype b ↔ ∃ m ∈ ms, m.2.isNominalSubtype b := by
  rw [Ty.isNominalSubtype]
  induction ms with
  | nil => simp [Ty.anyNominal]
  | cons m ms ih => simp [Ty.anyNominal, ih]

theorem mem_keys_of_perm {ms ms' : Members} (h : (Members.keys ms).Perm (Members.keys ms'))
    {m : String × Ty} (hm : m ∈ ms) : ∃ m' ∈ ms', m.1 = m'.1 := by
  have hk : m.1 ∈ Members.keys ms' := h.mem_iff.1 (List.mem_map_of_mem hm)
  obtain ⟨m', hm', hk⟩ := List.mem_map.1 hk
  exact ⟨m', hm', hk.symm⟩

variable {name : String} {kind : Kind} {final : Bool} {parents : List Ty}

/-- Alike types have the same nominal supertypes. -/
theorem Alike.isNominalSubtype_iff (h : Alike u a b) :
    a.isNominalSubtype (.nominal name kind final parents) ↔
      b.isNominalSubtype (.nominal name kind final parents) := by
  induction h with
  | declared h => exact Iff.rfl
  | top => simp [Ty.isNominalSubtype, Ty.isMixed, Ty.anyNominal]
  | top' => simp [Ty.isNominalSubtype, Ty.isMixed, Ty.anyNominal]
  | left side h ih => cases side <;> simpa [Side.container] using ih
  | right side h ih => cases side <;> simpa [Side.container] using ih
  | several side hkeys h ih =>
    cases side with
    | lower =>
      simp only [Side.container, isNominalSubtype_union]
      constructor
      · intro hall m' hm'
        obtain ⟨m, hm, hk⟩ := mem_keys_of_perm hkeys.symm hm'
        exact (ih m hm m' hm' hk.symm).1 (hall m hm)
      · intro hall m hm
        obtain ⟨m', hm', hk⟩ := mem_keys_of_perm hkeys hm
        exact (ih m hm m' hm' hk).2 (hall m' hm')
    | upper =>
      simp only [Side.container, isNominalSubtype_inter]
      constructor
      · rintro ⟨m, hm, hsub⟩
        obtain ⟨m', hm', hk⟩ := mem_keys_of_perm hkeys hm
        exact ⟨m', hm', (ih m hm m' hm' hk).1 hsub⟩
      · rintro ⟨m', hm', hsub⟩
        obtain ⟨m, hm, hk⟩ := mem_keys_of_perm hkeys.symm hm'
        exact ⟨m, hm, (ih m hm m' hm' hk.symm).2 hsub⟩

/-- Between declared types, nominal subtyping goes by what is above what. -/
theorem isNominalSubtype_declared (hu : u.Sound) (ht : u.Declares t) (hne : t ≠ .mixed) :
    t.isNominalSubtype (.nominal name kind final parents) ↔ u.Above t.name name := by
  rcases hu.leaf t.name t ht with h | ⟨kind', final', parents', h⟩
  · exact absurd h hne
  · rw [← hu.hasAncestor_iff ht, h]
    rfl

theorem not_isNominalSubtype_mixed :
    ¬Ty.mixed.isNominalSubtype (.nominal name kind final parents) := by
  simp [Ty.isNominalSubtype, Ty.isMixed]

theorem isNominalSubtype_refl (hu : u.Sound) (h : u.Declares (.nominal name kind final parents)) :
    (Ty.nominal name kind final parents).isNominalSubtype (.nominal name kind final parents) :=
  (isNominalSubtype_declared hu h (by simp)).2 (.refl _)

theorem isNominalSubtype_trans (hu : u.Sound) {name' : String} {kind' : Kind} {final' : Bool}
    {parents' : List Ty} (ha : ConvertibleFree u a)
    (hb : u.Declares (.nominal name kind final parents))
    (hab : a.isNominalSubtype (.nominal name kind final parents))
    (hbc : (Ty.nominal name kind final parents).isNominalSubtype
      (.nominal name' kind' final' parents')) :
    a.isNominalSubtype (.nominal name' kind' final' parents') := by
  induction ha with
  | @declared t h =>
    have hne : t ≠ .mixed := by
      rintro rfl
      exact not_isNominalSubtype_mixed hab
    rw [isNominalSubtype_declared hu h hne] at hab ⊢
    rw [isNominalSubtype_declared hu hb (by simp)] at hbc
    exact hab.trans hbc
  | container side hkeys hnodup h ih =>
    cases side with
    | lower =>
      simp only [Side.container, isNominalSubtype_union] at hab ⊢
      exact fun m hm => ih m hm (hab m hm)
    | upper =>
      simp only [Side.container, isNominalSubtype_inter] at hab ⊢
      obtain ⟨m, hm, hsub⟩ := hab
      exact ⟨m, hm, ih m hm hsub⟩

/-! ## Being under a type -/

/-- **A part under a type.** The part has the name of the type, or is related to it as its structure
demands. -/
inductive Under (p : Ty) : Ty → Prop where
  | same {b : Ty} (h : p.name = b.name) : Under p b
  | mixed : Under p .mixed
  | nominal {name : String} {kind : Kind} {final : Bool} {parents : List Ty}
      (h : p.isNominalSubtype (.nominal name kind final parents)) :
      Under p (.nominal name kind final parents)
  | union {ms : Members} {m : String × Ty} (hm : m ∈ ms) (h : Under p m.2) : Under p (.union ms)
  | inter {ms : Members} (h : ∀ m ∈ ms, Under p m.2) : Under p (.inter ms)

theorem Under.refl (p : Ty) : Under p p := .same rfl

/-- A container of one member is written like the member, and it is as good. -/
theorem under_container_one {side : Side} {k : String} {x : Ty} (hk : k = x.name) :
    Under p (side.container [(k, x)]) ↔ Under p x := by
  constructor
  · intro h
    cases side with
    | lower =>
      cases h with
      | same h => exact .same (h.trans ((name_container_one .lower k x).trans hk))
      | union hm h =>
        obtain rfl := List.mem_singleton.1 hm
        exact h
    | upper =>
      cases h with
      | same h => exact .same (h.trans ((name_container_one .upper k x).trans hk))
      | inter h => exact h _ (List.mem_singleton_self _)
  · intro h
    cases side with
    | lower => exact .union (List.mem_singleton_self _) h
    | upper =>
      refine .inter fun m hm => ?_
      obtain rfl := List.mem_singleton.1 hm
      exact h

theorem under_union_iff {ms : Members} (hname : p.name ≠ (Ty.union ms).name) :
    Under p (.union ms) ↔ ∃ m ∈ ms, Under p m.2 := by
  constructor
  · intro h
    cases h with
    | same h => exact absurd h hname
    | union hm h => exact ⟨_, hm, h⟩
  · rintro ⟨m, hm, h⟩
    exact .union hm h

theorem under_inter_iff {ms : Members} (hname : p.name ≠ (Ty.inter ms).name) :
    Under p (.inter ms) ↔ ∀ m ∈ ms, Under p m.2 := by
  refine ⟨fun h => ?_, .inter⟩
  cases h with
  | same h => exact absurd h hname
  | inter h => exact h

/-- A type may be replaced by one of the same name. -/
theorem Under.of_name_eq (hu : u.Legible) (ha : ConvertibleFree u a) (hb : ConvertibleFree u b)
    (hname : a.name = b.name) (h : Under p a) : Under p b := by
  have halike := alike_of_name_eq hu ha hb hname
  induction halike with
  | declared _ => exact h
  | top => exact .inter fun m hm => (List.not_mem_nil hm).elim
  | top' => exact .mixed
  | @left side k x b _ ih =>
    obtain ⟨hkeys, -, hx⟩ := ha.of_container hu.toSound side
    have hk : k = x.name := hkeys _ (List.mem_singleton_self _)
    rw [name_container_one, hk] at hname
    exact ih (hx _ (List.mem_singleton_self _)) hb hname ((under_container_one hk).1 h)
  | @right side k x a _ ih =>
    obtain ⟨hkeys, -, hx⟩ := hb.of_container hu.toSound side
    have hk : k = x.name := hkeys _ (List.mem_singleton_self _)
    rw [name_container_one, hk] at hname
    exact (under_container_one hk).2 (ih ha (hx _ (List.mem_singleton_self _)) hname h)
  | @several side ms ms' hkeys _ ih =>
    obtain ⟨hms, -, hcf⟩ := ha.of_container hu.toSound side
    obtain ⟨hms', -, hcf'⟩ := hb.of_container hu.toSound side
    have hstep (m) (hm : m ∈ ms) (m') (hm' : m' ∈ ms') (hk : m.1 = m'.1) (h : Under p m.2) :
        Under p m'.2 := by
      refine ih m hm m' hm' hk (hcf m hm) (hcf' m' hm') ?_ h
      rw [← hms m hm, ← hms' m' hm', hk]
    cases side with
    | lower =>
      cases h with
      | same h => exact .same (h.trans hname)
      | union hm h =>
        obtain ⟨m', hm', hk⟩ := mem_keys_of_perm hkeys hm
        exact .union hm' (hstep _ hm m' hm' hk h)
    | upper =>
      cases h with
      | same h => exact .same (h.trans hname)
      | inter h =>
        refine .inter fun m' hm' => ?_
        obtain ⟨m, hm, hk⟩ := mem_keys_of_perm hkeys.symm hm'
        exact hstep m hm m' hm' hk.symm (h m hm)

theorem under_nominal_iff (hu : u.Legible) (hp : ConvertibleFree u p)
    (hb : u.Declares (.nominal name kind final parents)) :
    Under p (.nominal name kind final parents) ↔
      p.isNominalSubtype (.nominal name kind final parents) := by
  refine ⟨fun h => ?_, .nominal⟩
  cases h with
  | same h =>
    have halike := alike_of_name_eq hu hp (.declared hb) h
    exact halike.isNominalSubtype_iff.2 (isNominalSubtype_refl hu.toSound hb)
  | nominal h => exact h

/-- Whoever is under a type has its nominal supertypes. -/
theorem Under.isNominalSubtype (hu : u.Legible) (ha : ConvertibleFree u a)
    (hb : ConvertibleFree u b) (hab : Under a b)
    (hbc : b.isNominalSubtype (.nominal name kind final parents)) :
    a.isNominalSubtype (.nominal name kind final parents) := by
  induction hab with
  | same h => exact (alike_of_name_eq hu ha hb h).isNominalSubtype_iff.2 hbc
  | mixed => exact absurd hbc not_isNominalSubtype_mixed
  | nominal h => exact isNominalSubtype_trans hu.toSound ha hb.declares_nominal h hbc
  | union hm h ih =>
    obtain ⟨-, -, hms⟩ := ConvertibleFree.of_container hu.toSound .lower hb
    exact ih (hms _ hm) (isNominalSubtype_union.1 hbc _ hm)
  | inter h ih =>
    obtain ⟨-, -, hms⟩ := ConvertibleFree.of_container hu.toSound .upper hb
    obtain ⟨m, hm, hsub⟩ := isNominalSubtype_inter.1 hbc
    exact ih m hm (hms m hm) hsub

/-- **Transitivity** for parts. -/
theorem Under.trans (hu : u.Legible) {c : Ty} (ha : ConvertibleFree u a) (hb : ConvertibleFree u b)
    (hc : ConvertibleFree u c) (hab : Under a b) (hbc : Under b c) : Under a c := by
  induction hbc with
  | same h => exact hab.of_name_eq hu hb hc h
  | mixed => exact .mixed
  | nominal h => exact .nominal (hab.isNominalSubtype hu ha hb h)
  | union hm _ ih =>
    obtain ⟨-, -, hms⟩ := ConvertibleFree.of_container hu.toSound .lower hc
    exact .union hm (ih (hms _ hm))
  | inter _ ih =>
    obtain ⟨-, -, hms⟩ := ConvertibleFree.of_container hu.toSound .upper hc
    exact .inter fun m hm => ih m hm (hms m hm)

/-! ## Parts -/

mutual

/-- Induction on a type by way of the members of containers. -/
@[elab_as_elim]
theorem Ty.memberInduction {motive : Ty → Prop} (mixed : motive .mixed)
    (nominal : ∀ name kind final parents, motive (.nominal name kind final parents))
    (container : ∀ (side : Side) (ms : Members), (∀ m ∈ ms, motive m.2) →
      motive (side.container ms))
    (asVar : ∀ cell owner var, motive (.asVar cell owner var))
    (asType : ∀ target, motive target → motive (.asType target)) : (t : Ty) → motive t
  | .mixed => mixed
  | .nominal name kind final parents => nominal name kind final parents
  | .union ms => container .lower ms (Ty.memberInductionAll mixed nominal container asVar asType ms)
  | .inter ms => container .upper ms (Ty.memberInductionAll mixed nominal container asVar asType ms)
  | .asVar cell owner var => asVar cell owner var
  | .asType target => asType target (Ty.memberInduction mixed nominal container asVar asType target)

theorem Ty.memberInductionAll {motive : Ty → Prop} (mixed : motive .mixed)
    (nominal : ∀ name kind final parents, motive (.nominal name kind final parents))
    (container : ∀ (side : Side) (ms : Members), (∀ m ∈ ms, motive m.2) →
      motive (side.container ms))
    (asVar : ∀ cell owner var, motive (.asVar cell owner var))
    (asType : ∀ target, motive target → motive (.asType target)) :
    (ms : Members) → ∀ m ∈ ms, motive m.2
  | [] => fun _ hm => (List.not_mem_nil hm).elim
  | (_, t) :: ms =>
    List.forall_mem_cons.2 ⟨Ty.memberInduction mixed nominal container asVar asType t,
      Ty.memberInductionAll mixed nominal container asVar asType ms⟩

end

/-- The parts of a type as a bound holds them. -/
def Side.parts : Side → Ty → List Ty
  | .lower => Ty.unionParts
  | .upper => Ty.interParts

theorem Side.parts_flatMap (side : Side) (ms : Members) :
    side.parts (side.container ms) = ms.flatMap fun m => side.parts m.2 := by
  cases side with
  | lower =>
    rw [parts, container, Ty.unionParts]
    induction ms with
    | nil => simp [Ty.unionPartsAll]
    | cons m ms ih => simp [Ty.unionPartsAll, ih]
  | upper =>
    rw [parts, container, Ty.interParts]
    induction ms with
    | nil => simp [Ty.interPartsAll]
    | cons m ms ih => simp [Ty.interPartsAll, ih]

/-- A type that is no container of the side is its own part. -/
theorem Side.parts_eq (side : Side) (h : ∀ ms, t ≠ side.container ms) : side.parts t = [t] := by
  cases side with
  | lower =>
    cases t with
    | union ms => exact absurd rfl (h ms)
    | _ => rw [parts, Ty.unionParts]; exact h
  | upper =>
    cases t with
    | inter ms => exact absurd rfl (h ms)
    | _ => rw [parts, Ty.interParts]; exact h

theorem unionParts_eq (h : ∀ ms, t ≠ .union ms) : t.unionParts = [t] := Side.parts_eq .lower h

theorem interParts_eq (h : ∀ ms, t ≠ .inter ms) : t.interParts = [t] := Side.parts_eq .upper h

theorem mem_unionParts_union {ms : Members} :
    p ∈ (Ty.union ms).unionParts ↔ ∃ m ∈ ms, p ∈ m.2.unionParts := by
  rw [show (Ty.union ms).unionParts = _ from Side.parts_flatMap .lower ms, List.mem_flatMap]
  rfl

theorem mem_interParts_inter {ms : Members} :
    p ∈ (Ty.inter ms).interParts ↔ ∃ m ∈ ms, p ∈ m.2.interParts := by
  rw [show (Ty.inter ms).interParts = _ from Side.parts_flatMap .upper ms, List.mem_flatMap]
  rfl

theorem Universe.Sound.ne_container (hu : u.Sound) (ht : u.Declares t) (side : Side)
    (ms : Members) : t ≠ side.container ms := by
  rintro rfl
  exact not_declares_container hu ht

theorem Side.mem_parts_container {side side' : Side} {ms : Members} :
    p ∈ side.parts (side'.container ms) ↔
    if side' = side then ∃ m ∈ ms, p ∈ side.parts m.2 else p = side'.container ms := by
  cases side <;> cases side'
  · exact mem_unionParts_union
  · simp [Side.parts, Side.container, Ty.unionParts]
  · simp [Side.parts, Side.container, Ty.interParts]
  · exact mem_interParts_inter

/-- **A part** is a type by itself that is no container of the side, or a part of a member of such a
container. -/
theorem Side.partsInduction (side : Side) {motive : Ty → Prop}
    (self : (∀ ms, p ≠ side.container ms) → motive p)
    (member : ∀ ms, ∀ m ∈ ms, motive m.2 → motive (side.container ms)) (hp : p ∈ side.parts t) :
    motive t := by
  induction t using Ty.memberInduction with
  | container side' ms ih =>
    rw [Side.mem_parts_container] at hp
    split at hp
    · rename_i heq
      obtain ⟨m, hm, hp⟩ := hp
      exact heq ▸ member ms m hm (ih m hm hp)
    · rename_i hne
      subst hp
      refine self fun ms' h => hne ?_
      cases side <;> cases side' <;> cases h <;> rfl
  | _ =>
    cases side <;> simp only [Side.parts, Ty.unionParts, Ty.interParts, List.mem_singleton] at hp
      <;> subst hp <;> exact self fun _ h => by cases h

/-- The parts of a type are types that are no unions. -/
theorem ConvertibleFree.of_mem_unionParts (hu : u.Sound) (ht : ConvertibleFree u t)
    (hp : p ∈ t.unionParts) : ConvertibleFree u p ∧ (∀ ms, p ≠ .union ms) ∧ Under p t := by
  refine Side.partsInduction .lower (motive := fun t => ConvertibleFree u t →
    ConvertibleFree u p ∧ (∀ ms, p ≠ .union ms) ∧ Under p t) (fun hne ht => ⟨ht, hne, .refl _⟩)
    (fun ms m hm ih ht => ?_) hp ht
  obtain ⟨hcf, hne, hunder⟩ := ih ((ht.of_container hu .lower).2.2 m hm)
  exact ⟨hcf, hne, .union hm hunder⟩

theorem ConvertibleFree.of_mem_interParts (hu : u.Sound) (ht : ConvertibleFree u t)
    (hp : p ∈ t.interParts) : ConvertibleFree u p ∧ ∀ ms, p ≠ .inter ms :=
  Side.partsInduction .upper (motive := fun t => ConvertibleFree u t →
    ConvertibleFree u p ∧ ∀ ms, p ≠ .inter ms) (fun hne ht => ⟨ht, hne⟩)
    (fun _ m hm ih ht => ih ((ht.of_container hu .upper).2.2 m hm)) hp ht

theorem ConvertibleFree.isNominalSubtype_iff_parts (hu : u.Sound) (ht : ConvertibleFree u t) :
    t.isNominalSubtype b ↔ ∀ p ∈ t.unionParts, p.isNominalSubtype b := by
  induction ht with
  | declared h => rw [unionParts_eq (hu.ne_container h .lower), List.forall_mem_singleton]
  | @container side ms hkeys hnodup h ih =>
    cases side with
    | lower =>
      simp only [Side.container, isNominalSubtype_union, mem_unionParts_union]
      constructor
      · rintro hall p ⟨m, hm, hp⟩
        exact (ih m hm).1 (hall m hm) p hp
      · intro hall m hm
        exact (ih m hm).2 fun p hp => hall p ⟨m, hm, hp⟩
    | upper =>
      have hne (ms' : Members) : Ty.inter ms ≠ .union ms' := fun h => by cases h
      rw [Side.container, unionParts_eq hne, List.forall_mem_singleton]

/-! ## The checker -/

theorem one_le_size (t : Ty) : 1 ≤ t.size := by
  cases t <;> simp [Ty.size]

/-- **Subtyping** as a relation: every part of the one type is under the other. -/
def Sub (a b : Ty) : Prop := ∀ p ∈ a.unionParts, Under p b

/-- What is no union is one part by itself. -/
theorem sub_iff_under (h : ∀ ms, a ≠ .union ms) : Sub a b ↔ Under a b := by
  unfold Sub
  rw [unionParts_eq h, List.forall_mem_singleton]

theorem ConvertibleFree.sub_refl (hu : u.Sound) (ha : ConvertibleFree u a) : Sub a a :=
  fun _ hp => (ha.of_mem_unionParts hu hp).2.2

/-- **What the rules decide**, once they are unrolled deep enough for both types. -/
theorem subtypeWithin_iff (hu : u.Legible) {l : Lattice} {r : Resolver} {depth : Nat}
    (ha : ConvertibleFree u a) (hb : ConvertibleFree u b) (hdepth : a.size + b.size ≤ depth) :
    l.subtypeWithin r depth a b ↔ Sub a b := by
  induction depth generalizing a b with
  | zero =>
    have := one_le_size a
    omega
  | succ depth ih =>
    rw [Lattice.subtypeWithin, Lattice.subtypeStep.eq_def, Sub]
    by_cases hname : a.name = b.name
    · rw [if_pos hname]
      refine iff_of_true rfl fun p hp => ?_
      obtain ⟨-, -, hunder⟩ := ha.of_mem_unionParts hu.toSound hp
      exact hunder.of_name_eq hu ha hb hname
    rw [if_neg hname]
    split
    · exact iff_of_true rfl fun p _ => .mixed
    · rename_i ms _
      obtain ⟨-, -, hms⟩ := ha.of_container hu.toSound .lower
      rw [List.all_eq_true]
      have hstep (m) (hm : m ∈ ms) :
          l.subtypeWithin r depth m.2 b ↔ Sub m.2 b := by
        have : m.2.size < (Ty.union ms).size := size_lt_container .lower hm
        exact ih (hms m hm) hb (by omega)
      simp only [mem_unionParts_union]
      constructor
      · rintro hall p ⟨m, hm, hp⟩
        exact (hstep m hm).1 (hall m hm) p hp
      · intro hall m hm
        exact (hstep m hm).2 fun p hp => hall p ⟨m, hm, hp⟩
    · rename_i ms hne
      obtain ⟨-, -, hms⟩ := hb.of_container hu.toSound .upper
      rw [unionParts_eq hne, List.forall_mem_singleton, under_inter_iff hname, List.all_eq_true]
      refine forall₂_congr fun m hm => ?_
      have : m.2.size < (Ty.inter ms).size := size_lt_container .upper hm
      rw [ih ha (hms m hm) (by omega), sub_iff_under hne]
    · exact absurd ha (not_convertibleFree_asVar hu.toSound)
    · exact absurd ha (not_convertibleFree_asType hu.toSound)
    · rename_i ms hne _ _
      obtain ⟨-, -, hms⟩ := hb.of_container hu.toSound .lower
      rw [unionParts_eq hne, List.forall_mem_singleton, under_union_iff hname, List.any_eq_true]
      refine exists_congr fun m => and_congr_right fun hm => ?_
      have : m.2.size < (Ty.union ms).size := size_lt_container .lower hm
      rw [ih ha (hms m hm) (by omega), sub_iff_under hne]
    · exact absurd hb (not_convertibleFree_asVar hu.toSound)
    · exact absurd hb (not_convertibleFree_asType hu.toSound)
    · rename_i ms hmixed hinter hunion _ _
      obtain ⟨-, -, hms⟩ := ha.of_container hu.toSound .upper
      have hne (ms' : Members) : Ty.inter ms ≠ .union ms' := fun h => by cases h
      obtain ⟨name, kind, final, parents, rfl⟩ := hb.nominal_of_ne hu.toSound hmixed hunion hinter
      have hnominal {p : Ty} (hp : ConvertibleFree u p) :=
        under_nominal_iff hu hp hb.declares_nominal
      rw [unionParts_eq hne, List.forall_mem_singleton, hnominal ha, isNominalSubtype_inter,
        List.any_eq_true]
      refine exists_congr fun m => and_congr_right fun hm => ?_
      have : m.2.size < (Ty.inter ms).size := size_lt_container .upper hm
      rw [ih (hms m hm) hb (by omega), (hms m hm).isNominalSubtype_iff_parts hu.toSound]
      refine forall₂_congr fun p hp => ?_
      exact hnominal ((hms m hm).of_mem_unionParts hu.toSound hp).1
    · rename_i hunion' _ _ _ hmixed hinter hunion _ _
      obtain ⟨name, kind, final, parents, rfl⟩ := hb.nominal_of_ne hu.toSound hmixed hunion hinter
      rw [unionParts_eq hunion', List.forall_mem_singleton,
        under_nominal_iff hu ha hb.declares_nominal]

namespace Lattice

theorem depth_eq (l : Lattice) (r : Resolver) (a b : Ty) : l.depth r a b =
    (a.size + b.size + r.extent + l.extent) * (a.size + b.size + r.extent + l.extent) + 1 := by
  rw [depth, Nat.pow_eq, Nat.pow_two]

/-- Types of the same name are subtypes of each other, whatever they are. -/
theorem isSubtype_of_name_eq (l : Lattice) (r : Resolver) (h : a.name = b.name) :
    l.isSubtype r a b := by
  rw [isSubtype, depth, subtypeWithin, subtypeStep.eq_def, if_pos h]

end Lattice

/-- **Subtyping** between types without convertibles: every part of the one is under the other.
Conversions do not matter. -/
theorem isSubtype_iff (hu : u.Legible) {l : Lattice} {r : Resolver} (ha : ConvertibleFree u a)
    (hb : ConvertibleFree u b) : l.isSubtype r a b ↔ Sub a b := by
  refine subtypeWithin_iff hu ha hb ?_
  rw [Lattice.depth_eq]
  have hsq := Nat.le_mul_self (a.size + b.size + r.extent + l.extent)
  omega

/-! ## Plain types -/

/-- No union occurs in the type. -/
def UnionFree (t : Ty) : Prop := ∀ x ∈ t.subterms, ∀ ms, x ≠ .union ms

/-- **Plain types**: without convertibles, and without a union inside an intersection. -/
structure Plain (u : Universe) (t : Ty) : Prop where
  convertibleFree : ConvertibleFree u t
  unionFree : ∀ ms, .inter ms ∈ t.subterms → ∀ x ∈ Ty.subtermsAll ms, ∀ ms', x ≠ .union ms'

theorem mem_subtermsAll {ms : Members} {x : Ty} :
    x ∈ Ty.subtermsAll ms ↔ ∃ m ∈ ms, x ∈ m.2.subterms := by
  induction ms with
  | nil => simp [Ty.subtermsAll]
  | cons m ms ih => simp [Ty.subtermsAll, ih]

theorem mem_subterms_self (t : Ty) : t ∈ t.subterms := by
  cases t <;> simp [Ty.subterms]

theorem subterms_container (side : Side) (ms : Members) :
    (side.container ms).subterms = side.container ms :: Ty.subtermsAll ms := by
  cases side <;> simp [Side.container, Ty.subterms]

theorem Universe.Sound.subterms_eq (hu : u.Sound) (ht : u.Declares t) : t.subterms = [t] := by
  rcases hu.leaf _ _ ht with h | ⟨_, _, _, h⟩ <;> rw [h] <;> simp [Ty.subterms]

theorem mem_subterms_of_mem_parts (side : Side) (hp : p ∈ side.parts t) : p ∈ t.subterms := by
  refine side.partsInduction (motive := fun t => p ∈ t.subterms) (fun _ => mem_subterms_self p)
    (fun ms m hm ih => ?_) hp
  rw [subterms_container]
  exact List.mem_cons_of_mem _ (mem_subtermsAll.2 ⟨m, hm, ih⟩)

theorem Universe.Sound.plain (hu : u.Sound) (ht : u.Declares t) : Plain u t := by
  refine ⟨.declared ht, fun ms hms => ?_⟩
  rw [hu.subterms_eq ht] at hms
  exact absurd (List.mem_singleton.1 hms).symm (hu.ne_container ht .upper ms)

/-- A member of a plain container is plain. -/
theorem Plain.member (hu : u.Sound) {side : Side} {ms : Members} (h : Plain u (side.container ms))
    {m : String × Ty} (hm : m ∈ ms) : Plain u m.2 := by
  obtain ⟨-, -, hms⟩ := h.convertibleFree.of_container hu side
  refine ⟨hms m hm, fun ms' hms' => h.unionFree ms' ?_⟩
  rw [subterms_container]
  exact List.mem_cons_of_mem _ (mem_subtermsAll.2 ⟨m, hm, hms'⟩)

theorem UnionFree.member {side : Side} {ms : Members} (h : UnionFree (side.container ms))
    {m : String × Ty} (hm : m ∈ ms) : UnionFree m.2 := by
  intro y hy
  refine h y ?_
  rw [subterms_container]
  exact List.mem_cons_of_mem _ (mem_subtermsAll.2 ⟨m, hm, hy⟩)

theorem Universe.Sound.unionFree (hu : u.Sound) (ht : u.Declares t) : UnionFree t := by
  intro y hy
  rw [hu.subterms_eq ht] at hy
  obtain rfl := List.mem_singleton.1 hy
  exact hu.ne_container ht .lower

/-- A union of plain types is plain. -/
theorem Plain.union {ms : Members} (hkeys : ∀ m ∈ ms, m.1 = m.2.name)
    (hnodup : (Members.keys ms).Nodup) (h : ∀ m ∈ ms, Plain u m.2) : Plain u (.union ms) := by
  refine ⟨.container .lower hkeys hnodup fun m hm => (h m hm).convertibleFree, fun ms' hms' => ?_⟩
  rw [Ty.subterms] at hms'
  rcases List.mem_cons.1 hms' with hms' | hms'
  · cases hms'
  · obtain ⟨m, hm, hms'⟩ := mem_subtermsAll.1 hms'
    exact (h m hm).unionFree ms' hms'

/-- An intersection of plain types is plain if they hold no union. -/
theorem Plain.inter {ms : Members} (hkeys : ∀ m ∈ ms, m.1 = m.2.name)
    (hnodup : (Members.keys ms).Nodup) (h : ∀ m ∈ ms, Plain u m.2 ∧ UnionFree m.2) :
    Plain u (.inter ms) := by
  refine ⟨.container .upper hkeys hnodup fun m hm => (h m hm).1.convertibleFree, fun ms' hms' => ?_⟩
  rw [Ty.subterms] at hms'
  rcases List.mem_cons.1 hms' with hms' | hms'
  · cases hms'
    intro x hx
    obtain ⟨m, hm, hx⟩ := mem_subtermsAll.1 hx
    exact (h m hm).2 x hx
  · obtain ⟨m, hm, hms'⟩ := mem_subtermsAll.1 hms'
    exact (h m hm).1.unionFree ms' hms'

theorem Universe.Sound.plain_interOf (hu : u.Sound) (ha : u.Declares a) (hb : u.Declares b)
    (hne : a.name ≠ b.name) : Plain u (Ty.interOf [a, b]) := by
  have hms : Members.ofTypes [a, b] = [(a.name, a), (b.name, b)] := by
    simp [Members.ofTypes, Members.add, Members.holds, hne]
  rw [Ty.interOf, hms]
  refine .inter (by simp) (by simpa [Members.keys] using hne) ?_
  rintro m (_ | ⟨_, _ | ⟨_, ⟨⟩⟩⟩)
  · exact ⟨hu.plain ha, hu.unionFree ha⟩
  · exact ⟨hu.plain hb, hu.unionFree hb⟩

/-- The parts of a plain type hold no union at all. -/
theorem Plain.of_mem_unionParts (hu : u.Sound) (ht : Plain u t) (hp : p ∈ t.unionParts) :
    Plain u p ∧ UnionFree p := by
  refine Side.partsInduction .lower (motive := fun t => Plain u t → Plain u p ∧ UnionFree p)
    (fun hne ht => ⟨ht, fun x hx => ?_⟩) (fun _ _ hm ih ht => ih (ht.member hu hm)) hp ht
  cases ht.convertibleFree with
  | declared h =>
    rw [hu.subterms_eq h] at hx
    exact List.mem_singleton.1 hx ▸ hne
  | @container side ms =>
    cases side with
    | lower => exact absurd rfl (hne ms)
    | upper =>
      rw [subterms_container] at hx
      rcases List.mem_cons.1 hx with rfl | hx
      · exact hne
      · exact ht.unionFree ms (mem_subterms_self _) x hx

theorem Plain.of_mem_interParts (hu : u.Sound) (ht : Plain u t) (hp : p ∈ t.interParts) :
    Plain u p :=
  Side.partsInduction .upper (motive := fun t => Plain u t → Plain u p) (fun _ ht => ht)
    (fun _ _ hm ih ht => ih (ht.member hu hm)) hp ht

/-- No union, nor an intersection around a single member with a union in it: what has the name of a
union of several members is one. -/
structure Firm (p : Ty) : Prop where
  ne_union : ∀ ms, p ≠ .union ms
  single : ∀ k x, p = .inter [(k, x)] → UnionFree x

theorem UnionFree.firm (h : UnionFree p) : Firm p where
  ne_union := h p (mem_subterms_self p)
  single k x hp := by
    subst hp
    have hfree : UnionFree (Side.upper.container [(k, x)]) := h
    exact hfree.member (List.mem_singleton_self (k, x))

/-- What is firm and has the name of a type is under one of its parts. -/
theorem Alike.exists_part (hu : u.Legible) (hp : ConvertibleFree u p) (hfirm : Firm p)
    (hb : ConvertibleFree u b) (hname : p.name = b.name) (h : Alike u p b) :
    ∃ q ∈ b.unionParts, Under p q := by
  have hself (h : ∀ ms, b ≠ .union ms) : ∃ q ∈ b.unionParts, Under p q := by
    rw [unionParts_eq h]
    exact ⟨b, List.mem_singleton_self _, .same hname⟩
  induction h with
  | declared h => exact hself (hu.toSound.ne_container h .lower)
  | top => exact hself fun ms h => by cases h
  | top' => exact hself fun ms h => by cases h
  | @left side k x b _ ih =>
    cases side with
    | lower => exact absurd rfl (hfirm.ne_union _)
    | upper =>
      obtain ⟨hkeys, -, hx⟩ := hp.of_container hu.toSound .upper
      have hx := hx _ (List.mem_singleton_self _)
      have hk : (Side.upper.container [(k, x)]).name = x.name :=
        (name_container_one .upper k x).trans (hkeys _ (List.mem_singleton_self _))
      have hxfirm : Firm x := (hfirm.single k x rfl).firm
      obtain ⟨q, hq, hxq⟩ := ih hx hxfirm hb (hk.symm.trans hname) fun h => by
        rw [unionParts_eq h]
        exact ⟨b, List.mem_singleton_self _, .same (hk.symm.trans hname)⟩
      have hqcf := (hb.of_mem_unionParts hu.toSound hq).1
      exact ⟨q, hq, Under.trans hu hp hx hqcf (.same hk) hxq⟩
  | @right side k x a _ ih =>
    cases side with
    | upper => exact hself fun ms h => by cases h
    | lower =>
      obtain ⟨hkeys, -, hx⟩ := hb.of_container hu.toSound .lower
      have hk : (Side.lower.container [(k, x)]).name = x.name :=
        (name_container_one .lower k x).trans (hkeys _ (List.mem_singleton_self _))
      obtain ⟨q, hq, hxq⟩ :=
        ih hp hfirm (hx _ (List.mem_singleton_self _)) (hname.trans hk) fun h => by
        rw [unionParts_eq h]
        exact ⟨x, List.mem_singleton_self _, .same (hname.trans hk)⟩
      exact ⟨q, mem_unionParts_union.2 ⟨_, List.mem_singleton_self _, hq⟩, hxq⟩
  | several side _ _ _ =>
    cases side with
    | lower => exact absurd rfl (hfirm.ne_union _)
    | upper => exact hself fun ms h => by cases h

/-- What is firm is under a type only by being under one of its parts. -/
theorem Under.exists_part (hu : u.Legible) (hp : ConvertibleFree u p) (hfirm : Firm p)
    (hb : ConvertibleFree u b) (h : Under p b) : ∃ q ∈ b.unionParts, Under p q := by
  induction h with
  | same h => exact (alike_of_name_eq hu hp hb h).exists_part hu hp hfirm hb h
  | mixed => exact ⟨.mixed, by simp [Ty.unionParts], .mixed⟩
  | nominal h => exact ⟨_, by simp [Ty.unionParts], .nominal h⟩
  | union hm _ ih =>
    obtain ⟨-, -, hms⟩ := ConvertibleFree.of_container hu.toSound .lower hb
    obtain ⟨q, hq, hpq⟩ := ih (hms _ hm)
    exact ⟨q, mem_unionParts_union.2 ⟨_, hm, hq⟩, hpq⟩
  | inter h _ => exact ⟨_, by simp [Ty.unionParts], .inter h⟩

/-- **Transitivity**, from a type with firm parts. -/
theorem Sub.trans_of_firm (hu : u.Legible) {c : Ty} (ha : ConvertibleFree u a)
    (hfirm : ∀ p ∈ a.unionParts, Firm p) (hb : ConvertibleFree u b) (hc : ConvertibleFree u c)
    (hab : Sub a b) (hbc : Sub b c) : Sub a c := by
  intro p hp
  have hpcf := (ha.of_mem_unionParts hu.toSound hp).1
  obtain ⟨q, hq, hpq⟩ := (hab p hp).exists_part hu hpcf (hfirm p hp) hb
  have hqcf := (hb.of_mem_unionParts hu.toSound hq).1
  exact hpq.trans hu hpcf hqcf hc (hbc q hq)

/-- **Transitivity** for plain types. -/
theorem Sub.trans (hu : u.Legible) {c : Ty} (ha : Plain u a) (hb : ConvertibleFree u b)
    (hc : ConvertibleFree u c) (hab : Sub a b) (hbc : Sub b c) : Sub a c :=
  hab.trans_of_firm hu ha.convertibleFree
    (fun _ hp => (ha.of_mem_unionParts hu.toSound hp).2.firm) hb hc hbc

end

end TypeBounds
