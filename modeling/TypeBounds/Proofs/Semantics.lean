import Mathlib.Data.Set.Lattice
import TypeBounds.Proofs.Subtyping

/-!
# Types as sets

In an interpretation every class is a set of values, inside the sets of its parents, and a type
without convertibles denotes the set it reads as. Subtyping is then measured against inclusion:

* `Sub.meaning_subset`: what the rules accept is included, **whatever the interpretation**. Types
  that are identified by name have equal structure, hence one meaning (`Alike.meaning_eq`);
* `under_of_meaning_subset`: a type without unions has an interpretation of its own, of one value,
  where exactly the types above it are inhabited. So what is included there is accepted;
* `isSubtype_sound_and_complete`: both for the checker. A union inside an intersection is the one
  thing that the rules do not see through.
-/

namespace TypeBounds

universe v

/-- **An interpretation** of the declared types. -/
structure Interpretation (u : Universe) where
  Carrier : Type v
  classes : String → Set Carrier
  mixed : classes "mixed" = Set.univ
  parents : ∀ t, u.Declares t → ∀ p ∈ t.parents, classes t.name ⊆ classes p.name

section

variable {u : Universe} {t a b c p x : Ty} {ms : Members}

namespace Interpretation

variable (I : Interpretation.{v} u)

mutual

/-- **The meaning of a type.** A convertible has none of its own. -/
def meaning : Ty → Set I.Carrier
  | .mixed => Set.univ
  | .nominal name _ _ _ => I.classes name
  | .union ms => meaningAny ms
  | .inter ms => meaningEvery ms
  | _ => ∅

/-- What is in some member. -/
def meaningAny : Members → Set I.Carrier
  | [] => ∅
  | (_, t) :: ms => meaning t ∪ meaningAny ms

/-- What is in every member. -/
def meaningEvery : Members → Set I.Carrier
  | [] => Set.univ
  | (_, t) :: ms => meaning t ∩ meaningEvery ms

end

variable {I} {w : I.Carrier}

@[simp] theorem mem_meaning_mixed : w ∈ I.meaning .mixed := by
  rw [meaning]
  exact Set.mem_univ w

@[simp] theorem mem_meaning_union : w ∈ I.meaning (.union ms) ↔ ∃ m ∈ ms, w ∈ I.meaning m.2 := by
  rw [meaning]
  induction ms with
  | nil => simp [meaningAny]
  | cons m ms ih => simp [meaningAny, ih]

@[simp] theorem mem_meaning_inter : w ∈ I.meaning (.inter ms) ↔ ∀ m ∈ ms, w ∈ I.meaning m.2 := by
  rw [meaning]
  induction ms with
  | nil => simp [meaningEvery]
  | cons m ms ih => simp [meaningEvery, ih]

theorem meaning_declared (hu : u.Sound) (ht : u.Declares t) : I.meaning t = I.classes t.name := by
  rcases hu.leaf t.name t ht with h | ⟨kind, final, parents, h⟩
  · rw [h, meaning]
    exact I.mixed.symm
  · rw [h, meaning]
    rfl

theorem meaning_container_one (side : Side) (k : String) :
    I.meaning (side.container [(k, x)]) = I.meaning x := by
  cases side <;> ext w <;> simp [Side.container]

/-- A type has the meaning of each of its parts, and no other. -/
theorem mem_meaning_iff_parts (hu : u.Sound) (ht : ConvertibleFree u t) :
    w ∈ I.meaning t ↔ ∃ p ∈ t.unionParts, w ∈ I.meaning p := by
  induction ht with
  | declared h => simp [unionParts_eq (hu.ne_container h .lower)]
  | @container side ms _ _ _ ih =>
    cases side with
    | lower =>
      simp only [Side.container, mem_meaning_union, mem_unionParts_union]
      constructor
      · rintro ⟨m, hm, hw⟩
        obtain ⟨p, hp, hw⟩ := (ih m hm).1 hw
        exact ⟨p, ⟨m, hm, hp⟩, hw⟩
      · rintro ⟨p, ⟨m, hm, hp⟩, hw⟩
        exact ⟨m, hm, (ih m hm).2 ⟨p, hp, hw⟩⟩
    | upper =>
      have hne (ms' : Members) : Side.upper.container ms ≠ .union ms' := fun h => by cases h
      simp [unionParts_eq hne]

/-! ## What is accepted is included -/

/-- A declared type is inside the types above it. -/
theorem classes_subset_of_above {name name' : String} (hu : u.Sound) (h : u.Above name name') :
    I.classes name ⊆ I.classes name' := by
  induction h with
  | refl => exact subset_rfl
  | @tail b c _ hstep ih =>
    obtain ⟨hparent, -⟩ := hstep
    unfold Universe.parentNames at hparent
    split at hparent
    · rename_i t ht
      obtain ⟨p, hp, rfl⟩ := List.mem_map.1 hparent
      refine ih.trans ?_
      rw [← hu.name_eq b t ht]
      exact I.parents t (hu.declares ht) p hp
    · cases hparent

theorem meaning_subset_of_isNominalSubtype {name : String} {kind : Kind} {final : Bool}
    {parents : List Ty} (hu : u.Sound) (ht : ConvertibleFree u t)
    (h : t.isNominalSubtype (.nominal name kind final parents)) : I.meaning t ⊆ I.classes name := by
  induction ht with
  | @declared t ht =>
    have hne : t ≠ .mixed := by
      rintro rfl
      exact not_isNominalSubtype_mixed h
    rw [meaning_declared hu ht]
    exact classes_subset_of_above hu ((isNominalSubtype_declared hu ht hne).1 h)
  | @container side ms _ _ _ ih =>
    intro w hw
    cases side with
    | lower =>
      obtain ⟨m, hm, hw⟩ := mem_meaning_union.1 hw
      exact ih m hm (isNominalSubtype_union.1 h m hm) hw
    | upper =>
      obtain ⟨m, hm, hsub⟩ := isNominalSubtype_inter.1 h
      exact ih m hm hsub (mem_meaning_inter.1 hw m hm)

end Interpretation

open Interpretation

/-- **Equal structure, equal meaning.** -/
theorem Alike.meaning_eq (h : Alike u a b) (I : Interpretation.{v} u) :
    I.meaning a = I.meaning b := by
  induction h with
  | declared _ => rfl
  | top => ext w; simp
  | top' => ext w; simp
  | left side _ ih => rw [meaning_container_one, ih]
  | right side _ ih => rw [meaning_container_one, ih]
  | @several side ms ms' hkeys _ ih =>
    ext w
    cases side with
    | lower =>
      simp only [Side.container, mem_meaning_union]
      constructor
      · rintro ⟨m, hm, hw⟩
        obtain ⟨m', hm', hk⟩ := mem_keys_of_perm hkeys hm
        exact ⟨m', hm', ih m hm m' hm' hk ▸ hw⟩
      · rintro ⟨m', hm', hw⟩
        obtain ⟨m, hm, hk⟩ := mem_keys_of_perm hkeys.symm hm'
        exact ⟨m, hm, (ih m hm m' hm' hk.symm).symm ▸ hw⟩
    | upper =>
      simp only [Side.container, mem_meaning_inter]
      constructor
      · intro hw m' hm'
        obtain ⟨m, hm, hk⟩ := mem_keys_of_perm hkeys.symm hm'
        exact ih m hm m' hm' hk.symm ▸ hw m hm
      · intro hw m hm
        obtain ⟨m', hm', hk⟩ := mem_keys_of_perm hkeys hm
        exact (ih m hm m' hm' hk).symm ▸ hw m' hm'

/-- **Soundness** for parts. -/
theorem Under.meaning_subset (hu : u.Legible) (hp : ConvertibleFree u p) (hb : ConvertibleFree u b)
    (h : Under p b) (I : Interpretation.{v} u) : I.meaning p ⊆ I.meaning b := by
  induction h with
  | same h => exact ((alike_of_name_eq hu hp hb h).meaning_eq I).subset
  | mixed => exact Set.subset_univ _
  | nominal h => exact meaning_subset_of_isNominalSubtype hu.toSound hp h
  | union hm _ ih =>
    obtain ⟨-, -, hms⟩ := ConvertibleFree.of_container hu.toSound .lower hb
    exact fun w hw => mem_meaning_union.2 ⟨_, hm, ih (hms _ hm) hw⟩
  | inter _ ih =>
    obtain ⟨-, -, hms⟩ := ConvertibleFree.of_container hu.toSound .upper hb
    exact fun w hw => mem_meaning_inter.2 fun m hm => ih m hm (hms m hm) hw

/-- **Soundness.** -/
theorem Sub.meaning_subset (hu : u.Legible) (ha : ConvertibleFree u a) (hb : ConvertibleFree u b)
    (h : Sub a b) (I : Interpretation.{v} u) : I.meaning a ⊆ I.meaning b := by
  intro w hw
  obtain ⟨p, hp, hw⟩ := (mem_meaning_iff_parts hu.toSound ha).1 hw
  exact (h p hp).meaning_subset hu (ha.of_mem_unionParts hu.toSound hp).1 hb I hw

/-! ## What is included is accepted -/

/-- A declared type is under its parents. -/
theorem under_parent (hu : u.Sound) (ht : u.Declares t) (hp : p ∈ t.parents) : Under t p := by
  have hpd := hu.declares_parent ht hp
  rcases hu.leaf p.name p hpd with h | ⟨kind, final, parents, h⟩
  · rw [h]
    exact .mixed
  · have hne : t ≠ .mixed := by
      rintro rfl
      cases hp
    have habove : u.Above t.name p.name := by
      refine .single ⟨?_, hpd.mem_keys⟩
      rw [ht.parentNames_eq]
      exact List.mem_map_of_mem hp
    rw [h]
    exact .nominal ((isNominalSubtype_declared hu ht hne).2 habove)

/-- **The interpretation of a type**: one value, which is in the declared types above it. -/
def Interpretation.of (hu : u.Legible) (hp : ConvertibleFree u p) : Interpretation.{v} u where
  Carrier := PUnit
  classes name := { _w | ∃ t, u.Declares t ∧ t.name = name ∧ Under p t }
  mixed := Set.eq_univ_of_forall fun _ => ⟨.mixed, hu.mixed, rfl, .mixed⟩
  parents := by
    rintro t ht q hq _ ⟨t', ht', hname, hunder⟩
    obtain rfl := ht'.eq_of_name_eq ht hname
    have hqd := hu.declares_parent ht hq
    exact ⟨q, hqd, rfl,
      hunder.trans hu hp (.declared ht) (.declared hqd) (under_parent hu.toSound ht hq)⟩

/-- Only what the type is under is inhabited there. -/
theorem under_of_mem_meaning (hu : u.Legible) (hp : ConvertibleFree u p) (hb : ConvertibleFree u b)
    {w : (Interpretation.of.{v} hu hp).Carrier} (h : w ∈ (Interpretation.of hu hp).meaning b) :
    Under p b := by
  induction hb with
  | @declared b hb =>
    rw [meaning_declared hu.toSound hb] at h
    obtain ⟨t, ht, hname, hunder⟩ := h
    obtain rfl := ht.eq_of_name_eq hb hname
    exact hunder
  | @container side ms _ _ _ ih =>
    cases side with
    | lower =>
      obtain ⟨m, hm, h⟩ := mem_meaning_union.1 h
      exact .union hm (ih m hm h)
    | upper => exact .inter fun m hm => ih m hm (mem_meaning_inter.1 h m hm)

/-- A type without unions is inhabited there once the nominal types above it are. -/
theorem mem_meaning_of_isNominalSubtype (hu : u.Legible) (hp : ConvertibleFree u p)
    (hx : ConvertibleFree u x) (hfree : UnionFree x)
    (h : ∀ name kind final parents, x.isNominalSubtype (.nominal name kind final parents) →
      p.isNominalSubtype (.nominal name kind final parents))
    (w : (Interpretation.of.{v} hu hp).Carrier) : w ∈ (Interpretation.of hu hp).meaning x := by
  induction hx with
  | @declared x hx =>
    rw [meaning_declared hu.toSound hx]
    refine ⟨x, hx, rfl, ?_⟩
    rcases hu.leaf _ _ hx with hmixed | ⟨kind, final, parents, hx'⟩
    · rw [hmixed]
      exact .mixed
    · rw [hx'] at hx h ⊢
      exact .nominal (h _ _ _ _ (isNominalSubtype_refl hu.toSound hx))
  | @container side ms _ _ _ ih =>
    cases side with
    | lower => exact absurd rfl (hfree _ (mem_subterms_self _) ms)
    | upper =>
      refine mem_meaning_inter.2 fun m hm =>
        ih m hm (hfree.member hm) fun name kind final parents hsub => ?_
      exact h _ _ _ _ (isNominalSubtype_inter.2 ⟨m, hm, hsub⟩)

/-- **Completeness** for types without unions. -/
theorem under_of_meaning_subset (hu : u.Legible) (hp : ConvertibleFree u p) (hfree : UnionFree p)
    (hb : ConvertibleFree u b) (h : ∀ I : Interpretation.{v} u, I.meaning p ⊆ I.meaning b) :
    Under p b := by
  have hself : PUnit.unit ∈ (Interpretation.of.{v} hu hp).meaning p :=
    mem_meaning_of_isNominalSubtype hu hp hp hfree (fun _ _ _ _ => id) _
  exact under_of_mem_meaning hu hp hb (h _ hself)

/-- **Completeness** for plain types, part by part. -/
theorem sub_of_meaning_subset (hu : u.Legible) (ha : Plain u a) (hb : ConvertibleFree u b)
    (h : ∀ I : Interpretation.{v} u, I.meaning a ⊆ I.meaning b) : Sub a b := by
  -- every part has an interpretation of its own, and the whole type is inhabited there
  intro p hp
  obtain ⟨hplain, hfree⟩ := ha.of_mem_unionParts hu.toSound hp
  refine under_of_meaning_subset.{v} hu hplain.convertibleFree hfree hb fun I w hw => h I ?_
  exact (mem_meaning_iff_parts hu.toSound ha.convertibleFree).2 ⟨p, hp, hw⟩

/-- **Subtyping is inclusion.** In an accepted universe of identifiers, a type without convertibles
is accepted below another only if it is included in it in every interpretation. If no union occurs
inside an intersection of it, then that is enough to be accepted, and hence subtyping is transitive
from there. Neither the conversions of the lattice nor what open convertibles stand for matter. -/
theorem isSubtype_sound_and_complete {decls : List TypeDecl} (hu : Universe.ofDecls decls = .ok u)
    (hnames : ∀ name ∈ u.types.keys, IsIdentifier name ∧ name ≠ "nothing") (l : Lattice)
    (r : Resolver) (ha : ConvertibleFree u a) (hb : ConvertibleFree u b)
    (hc : ConvertibleFree u c) :
    (l.isSubtype r a b → ∀ I : Interpretation.{v} u, I.meaning a ⊆ I.meaning b) ∧
    (Plain u a → (∀ I : Interpretation.{v} u, I.meaning a ⊆ I.meaning b) → l.isSubtype r a b) ∧
    (Plain u a → l.isSubtype r a b → l.isSubtype r b c → l.isSubtype r a c) := by
  have hlegible := Universe.legible_of_ofDecls hu hnames
  simp only [isSubtype_iff hlegible ha hb, isSubtype_iff hlegible hb hc,
    isSubtype_iff hlegible ha hc]
  refine ⟨fun h => h.meaning_subset hlegible ha hb,
    fun hplain => sub_of_meaning_subset hlegible hplain hb,
    fun hplain hab hbc => sub_of_meaning_subset.{v} hlegible hplain hc fun I => ?_⟩
  exact (hab.meaning_subset hlegible ha hb I).trans (hbc.meaning_subset hlegible hb hc I)

/-- Two interfaces, a class that implements the first and one that implements both. -/
def creatureDecls : List TypeDecl :=
  [{ name := "Named", kind := "interface" }, { name := "Aged", kind := "interface" },
    { name := "Ship", kind := "class", parents := ["Named"] },
    { name := "Person", kind := "class", parents := ["Named", "Aged"] }]

def named : Ty := .nominal "Named" .interface false []

def aged : Ty := .nominal "Aged" .interface false []

def ship : Ty := .nominal "Ship" .concrete false [named]

def person : Ty := .nominal "Person" .concrete false [named, aged]

def creatures : Universe :=
  ⟨⟨[("mixed", .mixed), ("Named", named), ("Aged", aged), ("Ship", ship), ("Person", person)]⟩⟩

def agedAndNamed : Ty := .inter [("Aged", aged), ("Named", named)]

def shipOrAged : Ty := .union [("Ship", ship), (agedAndNamed.name, agedAndNamed)]

theorem plain_shipOrAged : Plain creatures shipOrAged := by
  have haccepted : Universe.ofDecls creatureDecls = .ok creatures := rfl
  have hu : creatures.Sound := Universe.sound_of_ofDecls haccepted
  have hinter : Plain creatures agedAndNamed :=
    hu.plain_interOf (a := aged) (b := named) rfl rfl (by decide)
  refine .union (by decide) (by decide) ?_
  rintro m (_ | ⟨_, _ | ⟨_, ⟨⟩⟩⟩)
  · exact hu.plain rfl
  · exact hinter

/-- A ship, or whatever has both an age and a name, has a name. Hence it is named or a person. -/
theorem isSubtype_sound_and_complete_shipOrAged :
    (∀ I : Interpretation.{0} creatures, I.meaning shipOrAged ⊆ I.meaning named) ∧
      Lattice.isSubtype {} .none shipOrAged (.union [("Named", named), ("Person", person)]) := by
  have hu : Universe.ofDecls creatureDecls = .ok creatures := rfl
  have ha := plain_shipOrAged.convertibleFree
  have hnamed : ConvertibleFree creatures named := .declared rfl
  have hunion : ConvertibleFree creatures (.union [("Named", named), ("Person", person)]) := by
    refine .container .lower (by decide) (by decide) ?_
    rintro m (_ | ⟨_, _ | ⟨_, ⟨⟩⟩⟩) <;> exact .declared rfl
  have hincluded : ∀ I : Interpretation.{0} creatures, I.meaning shipOrAged ⊆ I.meaning named :=
    (isSubtype_sound_and_complete hu (by decide) {} .none ha hnamed hnamed).1 (by decide +kernel)
  refine ⟨hincluded, ?_⟩
  refine (isSubtype_sound_and_complete.{0} hu (by decide) {} .none ha hunion hunion).2.1
    plain_shipOrAged ?_
  exact fun I w hw => mem_meaning_union.2 ⟨_, List.mem_cons_self .., hincluded I hw⟩

end

end TypeBounds
