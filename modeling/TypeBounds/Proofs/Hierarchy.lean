import TypeBounds.Proofs.Subtyping

/-!
# The order of declared types

A declaration names its parents, and they have to be there already. So the steps that declarations
make upwards (`Extends`) never lead back, and declared types are ordered by them:

* `parents_of_ofDecls`: a type has the parents that its declaration names, in their order;
* `above_iff`: what is above a type in the universe is what declared steps lead to;
* `Sound.lineage_lt`: fewer paths lead upwards from a parent, so two types above each other are the
  same.

Main statement: `declared_types_ordered`.
-/

namespace TypeBounds

open Relation

namespace Universe

variable {u u' : Universe} {decls : List TypeDecl} {d : TypeDecl} {a b t : Ty} {name : String}

/-- **A declared step upwards**: where the first name is declared, the second one is given as a
parent. -/
def Extends (decls : List TypeDecl) (a b : String) : Prop := ∃ d ∈ decls, d.name = a ∧ b ∈ d.parents

/-- The type is the one that some declaration stands for. -/
def Introduces (u : Universe) (decls : List TypeDecl) (t : Ty) : Prop :=
  ∃ d ∈ decls, u.find? d.name = some t

/-! ## What declarations leave -/

theorem find?_declareAll (h : decls.foldlM declare u = .ok u') (ht : u.find? name = some t) :
    u'.find? name = some t := by
  induction decls generalizing u with
  | nil =>
    cases h
    exact ht
  | cons d decls ih =>
    rw [List.foldlM_cons] at h
    obtain ⟨u₁, hd, h⟩ := except_bind_eq_ok h
    exact ih h (find?_declare hd ht)

theorem Sound.map_name_eq (hu : u.Sound) {names : List String} {ts : List Ty}
    (h : names.map u.find? = ts.map some) : ts.map Ty.name = names := by
  induction names generalizing ts with
  | nil => simpa using h.symm
  | cons name names ih =>
    cases ts with
    | nil => cases h
    | cons t ts =>
      obtain ⟨hname, hnames⟩ := List.cons.inj h
      rw [List.map_cons, hu.name_eq name t hname, ih hnames]

theorem Sound.parents_of_declareAll (hu : u.Sound) (h : decls.foldlM Universe.declare u = .ok u') :
    ∀ d ∈ decls, ∃ kind parents, u'.find? d.name = some (.nominal d.name kind d.final parents) ∧
      parents.map Ty.name = d.parents := by
  induction decls generalizing u with
  | nil => exact fun d hd => (List.not_mem_nil hd).elim
  | cons d decls ih =>
    rw [List.foldlM_cons] at h
    obtain ⟨u₁, hd, h⟩ := except_bind_eq_ok h
    refine List.forall_mem_cons.2 ⟨?_, ih (hu.declare hd) h⟩
    obtain ⟨kind, parents, -, hparents, rfl⟩ := declare_eq_ok hd
    refine ⟨kind, parents, find?_declareAll h ?_, hu.map_name_eq hparents⟩
    exact (Table.get?_insert ..).trans (if_pos rfl)

/-- **A declaration** stands for a nominal type with the parents that it names. -/
theorem parents_of_ofDecls (h : ofDecls decls = .ok u) : ∀ d ∈ decls, ∃ kind parents,
    u.find? d.name = some (.nominal d.name kind d.final parents) ∧
      parents.map Ty.name = d.parents :=
  sound_empty.parents_of_declareAll h

theorem Introduces.nominal (ht : u.Introduces decls t) (h : ofDecls decls = .ok u) :
    u.Declares t ∧ ∃ name kind final parents, t = .nominal name kind final parents := by
  obtain ⟨d, hd, ht⟩ := ht
  obtain ⟨kind, parents, hfound, -⟩ := parents_of_ofDecls h d hd
  refine ⟨(sound_of_ofDecls h).declares ht, d.name, kind, d.final, parents, ?_⟩
  exact Option.some.inj (ht.symm.trans hfound)

/-! ## Steps upwards -/

/-- The parents of a type are the ends of the declared steps from its name. -/
theorem mem_parentNames_iff (h : ofDecls decls = .ok u) {a b : String} :
    b ∈ u.parentNames a ↔ Extends decls a b := by
  have hu := sound_of_ofDecls h
  have hstep {d : TypeDecl} (hd : d ∈ decls) : u.parentNames d.name = d.parents := by
    obtain ⟨kind, parents, hfound, hparents⟩ := parents_of_ofDecls h d hd
    simpa [parentNames, hfound, Ty.parents] using hparents
  constructor
  · intro hb
    have ha : a ∈ u.types.keys := by
      by_contra ha
      simp [parentNames, find?, Table.get?_eq_none ha] at hb
    -- nothing is above `mixed`, so the name was declared
    rcases (mem_keys_of_ofDecls h).1 ha with rfl | ⟨d, hd, rfl⟩
    · simp [parentNames, hu.mixed, Ty.parents] at hb
    · exact ⟨d, hd, rfl, hstep hd ▸ hb⟩
  · rintro ⟨d, hd, rfl, hb⟩
    exact hstep hd ▸ hb

/-- **What is above a type** is what declared steps lead to. -/
theorem above_iff (h : ofDecls decls = .ok u) {a b : String} :
    u.Above a b ↔ ReflTransGen (Extends decls) a b := by
  have hu := sound_of_ofDecls h
  have hhop (x y : String) : Hop u.types.keys u.parentNames x y ↔ Extends decls x y := by
    rw [Hop, mem_parentNames_iff h]
    refine and_iff_left_of_imp fun hxy => ?_
    rw [← mem_parentNames_iff h, parentNames] at hxy
    split at hxy
    · rename_i t ht
      obtain ⟨p, hp, rfl⟩ := List.mem_map.1 hxy
      exact (hu.parents x t ht p hp).mem_keys
    · cases hxy
  have hsame : Hop u.types.keys u.parentNames = Extends decls :=
    funext fun x => funext fun y => propext (hhop x y)
  rw [Above, Path, hsame]

theorem lineage_le_lineageAll {p : Ty} {ts : List Ty} (hp : p ∈ ts) :
    p.lineage ≤ Ty.lineageAll ts := by
  induction ts with
  | nil => cases hp
  | cons t ts ih =>
    rw [Ty.lineageAll]
    rcases List.mem_cons.1 hp with rfl | hp
    · omega
    · have := ih hp
      omega

/-- Fewer paths lead upwards from a parent. -/
theorem Sound.lineage_lt (hu : u.Sound) (ht : u.Declares t) {p : Ty} (hp : p ∈ t.parents) :
    p.lineage < t.lineage := by
  have := lineage_le_lineageAll hp
  rw [hu.lineage_eq ht]
  omega

/-- From what is properly above a type, fewer paths lead upwards. -/
theorem Sound.lineage_lt_of_above (hu : u.Sound) (ha : u.Declares a) (hb : u.Declares b)
    (h : u.Above a.name b.name) : a = b ∨ b.lineage < a.lineage := by
  generalize hname : b.name = name at h
  induction h generalizing b with
  | refl => exact .inl (ha.eq_of_name_eq hb hname.symm)
  | @tail y z _ hop ih =>
    obtain ⟨hz, -⟩ := hop
    rw [parentNames] at hz
    split at hz
    · rename_i t ht
      obtain ⟨p, hp, hpz⟩ := List.mem_map.1 hz
      have htd : u.Declares t := hu.declares ht
      have hpb : p = b := (hu.declares_parent htd hp).eq_of_name_eq hb (hpz.trans hname.symm)
      have hlt : b.lineage < t.lineage := hpb ▸ hu.lineage_lt htd hp
      rcases ih htd (hu.name_eq y t ht) with rfl | hlt'
      · exact .inr hlt
      · exact .inr (hlt.trans hlt')
    · cases hz

theorem Sound.above_antisymm (hu : u.Sound) (ha : u.Declares a) (hb : u.Declares b)
    (hab : u.Above a.name b.name) (hba : u.Above b.name a.name) : a = b := by
  rcases hu.lineage_lt_of_above ha hb hab with h | hlt
  · exact h
  · rcases hu.lineage_lt_of_above hb ha hba with h | hgt
    · exact h.symm
    · omega

/-- Between the types of declarations, subtyping is a matter of declared steps. -/
theorem isNominalSubtype_iff_steps (h : ofDecls decls = .ok u) (ha : u.Introduces decls a)
    (hb : u.Introduces decls b) :
    a.isNominalSubtype b ↔ ReflTransGen (Extends decls) a.name b.name := by
  obtain ⟨had, _, _, _, _, ha⟩ := ha.nominal h
  obtain ⟨-, _, _, _, _, hb⟩ := hb.nominal h
  rw [← above_iff h, hb, isNominalSubtype_declared (sound_of_ofDecls h) had (by rw [ha]; simp)]
  rfl

end Universe

/-- **Declared types are ordered.** In an accepted universe every declaration has its type, and one
of these types is a subtype of another if and only if declared steps lead from the one name to the
other. That is a partial order, and `mixed` is above all of it: every declared type is a subtype of
`mixed`, which is a subtype of none. -/
theorem declared_types_ordered {decls : List TypeDecl} {u : Universe}
    (h : Universe.ofDecls decls = .ok u) :
    (∀ d ∈ decls, ∃ t, u.find? d.name = some t ∧ t.name = d.name) ∧ u.find? "mixed" = some .mixed ∧
    (∀ a b, u.Introduces decls a → u.Introduces decls b →
      (a.isNominalSubtype b ↔ ReflTransGen (Universe.Extends decls) a.name b.name)) ∧
    (∀ a, u.Introduces decls a → a.isNominalSubtype a) ∧
    (∀ a b c, u.Introduces decls a → u.Introduces decls b → u.Introduces decls c →
      a.isNominalSubtype b → b.isNominalSubtype c → a.isNominalSubtype c) ∧
    (∀ a b, u.Introduces decls a → u.Introduces decls b → a.isNominalSubtype b →
      b.isNominalSubtype a → a = b) ∧
    ∀ a, u.Introduces decls a → a.isNominalSubtype .mixed ∧ ¬Ty.mixed.isNominalSubtype a := by
  have hu := Universe.sound_of_ofDecls h
  refine ⟨fun d hd => ?_, hu.mixed, fun a b ha hb => Universe.isNominalSubtype_iff_steps h ha hb,
    fun a ha => ?_, fun a b c ha hb hc hab hbc => ?_, fun a b ha hb hab hba => ?_, fun a ha => ?_⟩
  · obtain ⟨kind, parents, hfound, -⟩ := Universe.parents_of_ofDecls h d hd
    exact ⟨_, hfound, rfl⟩
  · exact (Universe.isNominalSubtype_iff_steps h ha ha).2 .refl
  · rw [Universe.isNominalSubtype_iff_steps h ha hb] at hab
    rw [Universe.isNominalSubtype_iff_steps h hb hc] at hbc
    exact (Universe.isNominalSubtype_iff_steps h ha hc).2 (hab.trans hbc)
  · rw [Universe.isNominalSubtype_iff_steps h ha hb, ← Universe.above_iff h] at hab
    rw [Universe.isNominalSubtype_iff_steps h hb ha, ← Universe.above_iff h] at hba
    exact hu.above_antisymm (ha.nominal h).1 (hb.nominal h).1 hab hba
  · obtain ⟨-, _, _, _, _, rfl⟩ := ha.nominal h
    exact ⟨rfl, not_isNominalSubtype_mixed⟩

/-- A class with two lines of ancestors, one of which is written out twice. -/
def fleetDecls : List TypeDecl :=
  [{ name := "Movable", kind := "interface", parents := ["mixed"] },
    { name := "Priced", kind := "interface" },
    { name := "Vehicle", kind := "class", parents := ["Movable"] },
    { name := "Taxi", kind := "class", final := true, parents := ["Vehicle", "Priced", "Movable"] }]

def movable : Ty := .nominal "Movable" .interface false [.mixed]

def priced : Ty := .nominal "Priced" .interface false []

def vehicle : Ty := .nominal "Vehicle" .concrete false [movable]

def taxi : Ty := .nominal "Taxi" .concrete true [vehicle, priced, movable]

def fleet : Universe :=
  ⟨⟨[("mixed", .mixed), ("Movable", movable), ("Priced", priced), ("Vehicle", vehicle),
    ("Taxi", taxi)]⟩⟩

theorem declared_types_ordered_fleet :
    ReflTransGen (Universe.Extends fleetDecls) "Taxi" "Movable" ∧
      ¬ReflTransGen (Universe.Extends fleetDecls) "Vehicle" "Priced" ∧
      ¬movable.isNominalSubtype taxi ∧
      taxi.isNominalSubtype .mixed ∧ ¬Ty.mixed.isNominalSubtype movable := by
  have h : Universe.ofDecls fleetDecls = .ok fleet := rfl
  have hmovable : fleet.Introduces fleetDecls movable := ⟨_, .head _, rfl⟩
  have hpriced : fleet.Introduces fleetDecls priced := ⟨_, .tail _ (.head _), rfl⟩
  have hvehicle : fleet.Introduces fleetDecls vehicle := ⟨_, .tail _ (.tail _ (.head _)), rfl⟩
  have htaxi : fleet.Introduces fleetDecls taxi := ⟨_, .tail _ (.tail _ (.tail _ (.head _))), rfl⟩
  obtain ⟨-, -, hsteps, -, -, hantisymm, htop⟩ := declared_types_ordered h
  have hup : taxi.isNominalSubtype movable := by decide +kernel
  refine ⟨(hsteps _ _ htaxi hmovable).1 hup,
    (hsteps _ _ hvehicle hpriced).not.1 (by decide +kernel), fun hdown => ?_, (htop taxi htaxi).1,
    (htop movable hmovable).2⟩
  exact absurd (congrArg Ty.name (hantisymm _ _ htaxi hmovable hup hdown)) (by decide)

end TypeBounds
