import TypeBounds.Proofs.Quiet

/-!
# Named types and the conversions between them

Where all types are named, both questions that a check asks have plain answers: a type is below an
intersection if it is below every member, and an implicit conversion is found if there is one whose
source is above the type and whose target is below every member. `Lattice.Bridges` puts the two
together; it is what a check of a lower member against an upper bound is about.
-/

namespace TypeBounds

/-- Whatever is converted, it is from a declared type to a declared type. -/
def Universe.Converts (u : Universe) (l : Lattice) : Prop :=
  ∀ c ∈ l.conversions, u.Declares c.source ∧ u.Declares c.target

/-- **Bridged**: the type fits under all of the others, as it is or after one implicit
conversion. -/
def Lattice.Bridges (l : Lattice) (a : Ty) (us : List Ty) : Prop :=
  (∀ v ∈ us, Sub a v) ∨ ∃ c ∈ l.conversions, c.implicit ∧ Sub a c.source ∧ ∀ v ∈ us, Sub c.target v

/-- Bridged to one type, as it is or by a conversion of its very own. Such conversions come
first. -/
def Lattice.Serves (l : Lattice) (a v : Ty) : Prop :=
  Sub a v ∨ ∃ c ∈ l.conversions, c.implicit ∧ c.source = a ∧ Sub c.target v

/-- The members of bounds where all types are named. -/
def Named (u : Universe) (_ : Side) (t : Ty) : Prop := u.Declares t

section

variable {u : Universe} {l : Lattice} {g : Graph} {a b c v w : Ty} {ms : Members} {us us' : List Ty}

theorem mem_of_mapM_eq_ok {α β ε : Type} {f : α → Except ε β} {xs : List α} {ys : List β}
    (h : xs.mapM f = .ok ys) : ∀ y ∈ ys, ∃ x ∈ xs, f x = .ok y := by
  induction xs generalizing ys with
  | nil =>
    cases h
    exact fun y hy => (List.not_mem_nil hy).elim
  | cons x xs ih =>
    rw [List.mapM_cons] at h
    obtain ⟨y, hy, h⟩ := Universe.except_bind_eq_ok h
    obtain ⟨ys', hys', h⟩ := Universe.except_bind_eq_ok h
    cases h
    rintro z (_ | ⟨_, hz⟩)
    · exact ⟨x, List.mem_cons_self .., hy⟩
    · obtain ⟨x', hx', hfx'⟩ := ih hys' z hz
      exact ⟨x', List.mem_cons_of_mem _ hx', hfx'⟩

/-- Every conversion of a lattice was declared. -/
theorem Universe.declared_of_mem_lattice {decls : List ConversionDecl} (h : u.lattice decls = .ok l)
    {c : Conversion} (hc : c ∈ l.conversions) : ∃ d ∈ decls, u.find? d.source = some c.source ∧
      u.find? d.target = some c.target ∧ d.implicit = c.implicit := by
  unfold Universe.lattice at h
  cases hcs : decls.mapM u.conversion with
  | error e =>
    rw [hcs] at h
    cases h
  | ok cs =>
    rw [hcs] at h
    cases h
    obtain ⟨d, hmem, hd⟩ := mem_of_mapM_eq_ok hcs c hc
    refine ⟨d, hmem, ?_⟩
    unfold Universe.conversion at hd
    split at hd
    · cases hd
    · cases hd
    · rename_i source target hsource htarget
      cases hd
      exact ⟨hsource, htarget, rfl⟩

/-- **Declared conversions** are between declared types. -/
theorem Universe.Sound.converts (hu : u.Sound) {decls : List ConversionDecl}
    (h : u.lattice decls = .ok l) : u.Converts l := by
  intro c hc
  obtain ⟨d, -, hsource, htarget, -⟩ := declared_of_mem_lattice h hc
  exact ⟨hu.declares hsource, hu.declares htarget⟩

theorem Universe.Sound.settled (hu : u.Sound) (ha : u.Declares a) (side : Side) :
    Settled u side a :=
  ⟨.declared ha, hu.ne_container ha side⟩

theorem admits_named (hu : u.Legible) : Admits u (Named u) :=
  ⟨hu, fun side _ ht => hu.toSound.settled ht side⟩

/-- **Subtyping between declared types** does not rest on what their names look like. -/
theorem Universe.Sound.isSubtype_iff (hu : u.Sound) {r : Resolver} (ha : u.Declares a)
    (hb : u.Declares b) : l.isSubtype r a b ↔ Sub a b := by
  rw [sub_iff_under (hu.ne_container ha .lower), Lattice.isSubtype, Lattice.depth,
    Lattice.subtypeWithin, Lattice.subtypeStep.eq_def]
  by_cases hname : a.name = b.name
  · rw [if_pos hname]
    exact iff_of_true rfl (.same hname)
  rw [if_neg hname]
  rcases hu.leaf b.name b hb with hb' | ⟨kind, final, parents, hb'⟩
  · rw [hb']
    exact iff_of_true rfl .mixed
  · have hunder : Under a b ↔ a.isNominalSubtype b := by
      rw [hb']
      refine ⟨fun h => ?_, .nominal⟩
      cases h with
      | same h => exact absurd h hname
      | nominal h => exact h
    rw [hunder]
    rcases hu.leaf a.name a ha with ha' | ⟨kind', final', parents', ha'⟩ <;> rw [hb', ha']

theorem Universe.Sound.sub_trans (hu : u.Sound) (ha : u.Declares a) (hb : u.Declares b)
    (hc : u.Declares c) (hab : Sub a b) (hbc : Sub b c) : Sub a c := by
  have hne {t : Ty} (ht : u.Declares t) : ∀ ms, t ≠ .union ms := hu.ne_container ht .lower
  rw [sub_iff_under (hne ha)] at hab ⊢
  rw [sub_iff_under (hne hb)] at hbc
  cases hbc with
  | same h => exact hb.eq_of_name_eq hc h ▸ hab
  | mixed => exact .mixed
  | nominal hbc =>
    cases hab with
    | same h => exact ha.eq_of_name_eq hb h ▸ .nominal hbc
    | mixed => exact absurd hbc not_isNominalSubtype_mixed
    | nominal hab => exact .nominal (isNominalSubtype_trans hu (.declared ha) hb hab hbc)
    | union => exact absurd rfl (hne hb _)
    | inter => exact absurd rfl (hu.ne_container hb .upper _)
  | union => exact absurd rfl (hne hc _)
  | inter => exact absurd rfl (hu.ne_container hc .upper _)

theorem Universe.Sound.sub_refl (hu : u.Sound) (ha : u.Declares a) : Sub a a :=
  ConvertibleFree.sub_refl hu (.declared ha)

/-- What is below a bridged type is bridged. -/
theorem Lattice.Bridges.of_sub (hu : u.Legible) (hl : u.Converts l) (hus : ∀ v ∈ us, u.Declares v)
    (ha : u.Declares a) (hb : u.Declares b) (hab : Sub a b) (h : l.Bridges b us) :
    l.Bridges a us := by
  rcases h with h | ⟨c, hc, himplicit, hsource, htarget⟩
  · exact .inl fun v hv => hu.sub_trans ha hb (hus v hv) hab (h v hv)
  · exact .inr ⟨c, hc, himplicit, hu.sub_trans ha hb (hl c hc).1 hab hsource, htarget⟩

theorem Lattice.Bridges.mono (h : l.Bridges a us) (hsub : ∀ v ∈ us', v ∈ us) : l.Bridges a us' := by
  rcases h with h | ⟨c, hc, himplicit, hsource, htarget⟩
  · exact .inl fun v hv => h v (hsub v hv)
  · exact .inr ⟨c, hc, himplicit, hsource, fun v hv => htarget v (hsub v hv)⟩

/-- A conversion bridges what is below its source to what is above its target. -/
theorem Lattice.Bridges.of_conversion {c : Conversion} (hc : c ∈ l.conversions)
    (himplicit : c.implicit) (ha : Sub a c.source) (hv : Sub c.target v) : l.Bridges a [v] :=
  .inr ⟨c, hc, himplicit, ha, fun _ hw => List.mem_singleton.1 hw ▸ hv⟩

/-! ## What the checks ask -/

/-- A named type is below an intersection of named types if it is below every member. -/
theorem isSubtype_inter_iff (hu : u.Legible) (ha : u.Declares a) (hkeyed : ms.Keyed)
    (hms : ∀ v ∈ Members.types ms, u.Declares v) :
    g.isSubtype a (.inter ms) ↔ ∀ v ∈ Members.types ms, Sub a v := by
  have hcf : ConvertibleFree u (.inter ms) := by
    refine .container .upper hkeyed.key hkeyed.nodup fun m hm => ?_
    exact .declared (hms m.2 (Members.mem_types.2 ⟨m, hm, rfl⟩))
  have hne {t : Ty} (ht : u.Declares t) : ∀ ms, t ≠ .union ms := hu.toSound.ne_container ht .lower
  rw [Graph.isSubtype, isSubtype_iff hu (.declared ha) hcf, sub_iff_under (hne ha)]
  constructor
  · intro h v hv
    obtain ⟨m, hm, rfl⟩ := Members.mem_types.1 hv
    have hmember : Under (.inter ms) m.2 := by
      rcases hu.leaf _ _ (hms m.2 hv) with hmixed | ⟨kind, final, parents, hm2⟩
      · rw [hmixed]
        exact .mixed
      · rw [hm2]
        refine .nominal (isNominalSubtype_inter.2 ⟨m, hm, ?_⟩)
        rw [hm2]
        exact isNominalSubtype_refl hu.toSound (hm2 ▸ hms m.2 hv)
    rw [sub_iff_under (hne ha)]
    exact Under.trans hu (.declared ha) hcf (.declared (hms m.2 hv)) h hmember
  · intro h
    refine .inter fun m hm => ?_
    rw [← sub_iff_under (hne ha)]
    exact h m.2 (Members.mem_types.2 ⟨m, hm, rfl⟩)

/-- A conversion accepts what is below its source. -/
theorem Lattice.mem_candidates {sub : Ty → Ty → Bool} {c : Conversion}
    (hname : ∀ c ∈ l.conversions, c.source.name = a.name → sub a c.source) :
    c ∈ l.candidates sub a ↔ c ∈ l.conversions ∧ sub a c.source := by
  have hnamed {name : String} {c : Conversion} :
      c ∈ l.named name ↔ c ∈ l.conversions ∧ c.source.name = name := by
    rw [Lattice.named, List.mem_filter, decide_eq_true_eq]
  have hsource (hc : c ∈ l.conversions) : c.source.name ∈ l.sources := by
    rw [Lattice.sources, sortNames, mem_sortBy, List.mem_eraseDups]
    exact List.mem_map_of_mem hc
  rw [Lattice.candidates, List.mem_append, List.mem_flatMap]
  constructor
  · rintro (hc | ⟨name, -, hc⟩)
    · obtain ⟨hc, heq⟩ := hnamed.1 hc
      exact ⟨hc, hname c hc heq⟩
    · obtain ⟨hc, hsub⟩ := List.mem_filter.1 hc
      exact ⟨(hnamed.1 hc).1, hsub⟩
  · rintro ⟨hc, hsub⟩
    by_cases heq : c.source.name = a.name
    · exact .inl (hnamed.2 ⟨hc, heq⟩)
    · refine .inr ⟨c.source.name, List.mem_filter.2 ⟨hsource hc, by simpa using heq⟩, ?_⟩
      exact List.mem_filter.2 ⟨hnamed.2 ⟨hc, rfl⟩, hsub⟩

theorem mem_candidates_iff (hu : u.Legible) (hl : u.Converts g.lattice) (ha : ConvertibleFree u a)
    {c : Conversion} : c ∈ g.lattice.candidates (g.lattice.isSubtype g.resolver) a ↔
      c ∈ g.lattice.conversions ∧ Sub a c.source := by
  rw [Lattice.mem_candidates fun c _ hname => Lattice.isSubtype_of_name_eq _ _ hname.symm]
  exact and_congr_right fun hc => isSubtype_iff hu ha (.declared (hl c hc).1)

/-- What is said of a conversion that is found, for a type that is no union. -/
theorem Lattice.implicit?_eq_some {r : Resolver} (ha : ∀ ms, a ≠ .union ms) {c : Conversion}
    (h : l.implicit? r a b = some c) :
    c ∈ l.conversions ∧ c.implicit ∧ l.isSubtype r a c.source ∧ l.isSubtype r c.target b := by
  rw [Lattice.implicit?, Lattice.bridge?_eq_find? ha] at h
  have hfound := List.find?_some h
  have hcandidate := List.mem_of_find?_eq_some h
  rw [Lattice.mem_candidates fun c _ hname =>
    Lattice.isSubtype_of_name_eq _ _ hname.symm] at hcandidate
  rw [Bool.and_eq_true] at hfound
  exact ⟨hcandidate.1, hfound.1, hcandidate.2, hfound.2⟩

theorem implicit?_eq_some (hu : u.Legible) (hl : u.Converts g.lattice) (ha : Settled u .lower a)
    {c : Conversion} (h : g.implicit? a b = some c) :
    c ∈ g.lattice.conversions ∧ c.implicit ∧ Sub a c.source ∧ g.isSubtype c.target b := by
  obtain ⟨hc, himplicit, hsource, htarget⟩ := Lattice.implicit?_eq_some ha.ne_container h
  exact ⟨hc, himplicit, (isSubtype_iff hu ha.convertibleFree (.declared (hl c hc).1)).1 hsource,
    htarget⟩

theorem implicit?_isSome (hu : u.Legible) (hl : u.Converts g.lattice) (ha : u.Declares a)
    {c : Conversion} (hc : c ∈ g.lattice.conversions) (himplicit : c.implicit)
    (hsource : Sub a c.source) (htarget : g.isSubtype c.target b) : (g.implicit? a b).isSome := by
  rw [Graph.implicit?, Lattice.implicit?,
    Lattice.bridge?_eq_find? (hu.toSound.ne_container ha .lower), List.find?_isSome]
  refine ⟨c, (mem_candidates_iff hu hl (.declared ha)).2 ⟨hc, hsource⟩, ?_⟩
  rw [himplicit, Bool.true_and]
  exact htarget

/-- A conversion of the very own of a type is preferred. -/
theorem source_of_implicit? (hl : u.Converts g.lattice) (hu : u.Legible) (ha : u.Declares a)
    (hb : u.Declares b) {c : Conversion} (h : g.implicit? a b = some c)
    (hown : ∃ c ∈ g.lattice.conversions, c.implicit ∧ c.source = a ∧ Sub c.target b) :
    c.source = a := by
  rw [Graph.implicit?, Lattice.implicit?,
    Lattice.bridge?_eq_find? (hu.toSound.ne_container ha .lower), Lattice.candidates,
    List.find?_append] at h
  obtain ⟨c', hc', himplicit, rfl, htarget⟩ := hown
  have hfound : ((g.lattice.named c'.source.name).find? fun c =>
      c.implicit && g.lattice.isSubtype g.resolver c.target b).isSome := by
    rw [List.find?_isSome]
    refine ⟨c', List.mem_filter.2 ⟨hc', by simp⟩, ?_⟩
    rw [himplicit, Bool.true_and]
    exact (isSubtype_iff hu (.declared (hl c' hc').2) (.declared hb)).2 htarget
  obtain ⟨c'', hc''⟩ := Option.isSome_iff_exists.1 hfound
  rw [hc'', Option.some_or] at h
  cases h
  obtain ⟨hc, hname⟩ := List.mem_filter.1 (List.mem_of_find?_eq_some hc'')
  exact (hl c hc).1.eq_of_name_eq ha (of_decide_eq_true hname)

/-- **The check of a lower member** against an upper bound asks whether it is bridged. -/
theorem isSubtype_or_implicit?_iff (hu : u.Legible) (hl : u.Converts g.lattice) (ha : u.Declares a)
    (hkeyed : ms.Keyed) (hms : ∀ v ∈ Members.types ms, u.Declares v) :
    g.isSubtype a (.inter ms) ∨ (g.implicit? a (.inter ms)).isSome ↔
      g.lattice.Bridges a (Members.types ms) := by
  constructor
  · rintro (h | h)
    · exact .inl ((isSubtype_inter_iff hu ha hkeyed hms).1 h)
    · obtain ⟨c, hc⟩ := Option.isSome_iff_exists.1 h
      obtain ⟨hmem, himplicit, hsource, htarget⟩ :=
        implicit?_eq_some hu hl (hu.toSound.settled ha .lower) hc
      exact .inr ⟨c, hmem, himplicit, hsource,
        (isSubtype_inter_iff hu (hl c hmem).2 hkeyed hms).1 htarget⟩
  · rintro (h | ⟨c, hc, himplicit, hsource, htarget⟩)
    · exact .inl ((isSubtype_inter_iff hu ha hkeyed hms).2 h)
    · refine .inr (implicit?_isSome hu hl ha hc himplicit hsource ?_)
      exact (isSubtype_inter_iff hu (hl c hc).2 hkeyed hms).2 htarget

end

end TypeBounds
