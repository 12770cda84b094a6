import TypeBounds.Proofs.Along
import TypeBounds.Proofs.Declared

/-!
# Types without convertibles

Types built from declared types by unions and intersections (`ConvertibleFree`), in a universe whose
names can be read (`Universe.Legible`). Main statement: `alike_of_name_eq`, types with equal names
have equal structure, up to the order of members and to containers around one member.

A union is the container of a lower bound and an intersection that of an upper bound, so what holds
of both is said once, for `Side.container`.
-/

namespace TypeBounds

open TypeExpr (Token)

/-! ## Containers -/

/-- The sign between the members of a container. -/
def Side.sign : Side → Char
  | .lower => '|'
  | .upper => '&'

/-- The text between the members of a container. -/
def Side.separator : Side → String
  | .lower => " | "
  | .upper => " & "

/-- The name of a container without members. -/
def Side.emptyName : Side → String
  | .lower => "nothing"
  | .upper => "mixed"

theorem Side.isPlainChar_sign (side : Side) : isPlainChar side.sign := by
  cases side <;> rfl

theorem Side.toList_separator (side : Side) : side.separator.toList = signed side.sign := by
  cases side <;> rfl

theorem Side.sign_inj {side side' : Side} (h : side.sign = side'.sign) : side = side' := by
  cases side <;> cases side' <;> first | rfl | cases h

theorem name_container (side : Side) (ms : Members) :
    (side.container ms).name = joinNames side.separator side.emptyName (Members.keys ms) := by
  cases side <;> simp [Side.container, Ty.name, Side.separator, Side.emptyName, Members.keys]

theorem size_container (side : Side) (ms : Members) :
    (side.container ms).size = 1 + Ty.sizeAll ms := by
  cases side <;> simp [Side.container, Ty.size]

theorem size_le_sizeAll {ms : Members} {m : String × Ty} (hm : m ∈ ms) :
    m.2.size ≤ Ty.sizeAll ms := by
  induction ms with
  | nil => cases hm
  | cons e ms ih =>
    simp only [Ty.sizeAll]
    rcases List.mem_cons.1 hm with rfl | hm
    · omega
    · have := ih hm
      omega

theorem size_lt_container (side : Side) {ms : Members} {m : String × Ty} (hm : m ∈ ms) :
    m.2.size < (side.container ms).size := by
  have := size_le_sizeAll hm
  rw [size_container]
  omega

/-! ## Legible universes -/

/-- An identifier, as type expressions have them. -/
def IsIdentifier (name : String) : Prop :=
  ∃ c cs, name.toList = c :: cs ∧ Token.startsWord c ∧ ∀ d ∈ cs, Token.continuesWord d

instance : DecidablePred IsIdentifier := fun name =>
  match h : name.toList with
  | [] => isFalse fun ⟨_, _, hname, _⟩ => by rw [h] at hname; cases hname
  | c :: cs => decidable_of_iff (Token.startsWord c ∧ cs.all Token.continuesWord)
      ⟨fun hc => ⟨c, cs, h, hc.1, List.all_eq_true.1 hc.2⟩, fun ⟨_, _, hname, hc⟩ => by
        rw [h] at hname
        cases hname
        exact ⟨hc.1, List.all_eq_true.2 hc.2⟩⟩

/-- An accepted universe whose names can be told from the names of containers. -/
structure Universe.Legible (u : Universe) : Prop extends u.Sound where
  identifiers : ∀ name ∈ u.types.keys, IsIdentifier name
  nothing : "nothing" ∉ u.types.keys

theorem Universe.legible_of_ofDecls {decls : List TypeDecl} {u : Universe}
    (h : ofDecls decls = .ok u)
    (hnames : ∀ name ∈ u.types.keys, IsIdentifier name ∧ name ≠ "nothing") : u.Legible where
  toSound := sound_of_ofDecls h
  identifiers name hname := (hnames name hname).1
  nothing hname := (hnames _ hname).2 rfl

theorem isPlainChar_of_continuesWord {c : Char} (h : Token.continuesWord c) : isPlainChar c := by
  by_contra hc
  simp only [isPlainChar, Bool.and_eq_true, decide_eq_true_eq, not_and_or, not_not] at hc
  rcases hc with (rfl | rfl) | rfl <;> cases h

theorem IsIdentifier.isPlainChar {name : String} (h : IsIdentifier name) :
    ∀ c ∈ name.toList, isPlainChar c := by
  obtain ⟨c, cs, hname, hc, hcs⟩ := h
  rw [hname]
  rintro d (_ | ⟨_, hd⟩)
  · exact isPlainChar_of_continuesWord (by simp [Token.continuesWord, hc])
  · exact isPlainChar_of_continuesWord (hcs d hd)

/-! ## Types without convertibles -/

/-- **Types without convertibles**: declared types, and unions and intersections of such types, each
member under its name and no name twice. -/
inductive ConvertibleFree (u : Universe) : Ty → Prop where
  | declared {t : Ty} (h : u.Declares t) : ConvertibleFree u t
  | container (side : Side) {ms : Members} (hkeys : ∀ m ∈ ms, m.1 = m.2.name)
      (hnodup : (Members.keys ms).Nodup) (h : ∀ m ∈ ms, ConvertibleFree u m.2) :
      ConvertibleFree u (side.container ms)

section

variable {u : Universe} {t a b p : Ty}

theorem isPlainChar_emptyName (side : Side) : ∀ c ∈ side.emptyName.toList, isPlainChar c := by
  have hall : side.emptyName.toList.all isPlainChar := by
    cases side <;> decide
  exact List.all_eq_true.1 hall

theorem Universe.Legible.isPlainChar_name (hu : u.Legible) (ht : u.Declares t) :
    ∀ c ∈ t.name.toList, isPlainChar c :=
  (hu.identifiers t.name ht.mem_keys).isPlainChar

/-- The keys of members whose names are phrases. -/
theorem isPhrase_of_mem_keys {ms : Members} (hkeys : ∀ m ∈ ms, m.1 = m.2.name)
    (h : ∀ m ∈ ms, IsPhrase m.2.name.toList) : ∀ k ∈ Members.keys ms, IsPhrase k.toList := by
  intro k hk
  obtain ⟨m, hm, rfl⟩ := List.mem_map.1 hk
  rw [hkeys m hm]
  exact h m hm

theorem isPhrase_name_container (side : Side) {ms : Members} (hkeys : ∀ m ∈ ms, m.1 = m.2.name)
    (h : ∀ m ∈ ms, IsPhrase m.2.name.toList) : IsPhrase (side.container ms).name.toList := by
  rw [name_container]
  exact isPhrase_joinNames side.isPlainChar_sign side.toList_separator
    (isPhrase_of_plain (isPlainChar_emptyName side)) (isPhrase_of_mem_keys hkeys h)

theorem ConvertibleFree.isPhrase_name (hu : u.Legible) (ht : ConvertibleFree u t) :
    IsPhrase t.name.toList := by
  induction ht with
  | declared h => exact isPhrase_of_plain (hu.isPlainChar_name h)
  | container side hkeys _ _ ih => exact isPhrase_name_container side hkeys ih

/-! ## Structure from names -/

/-- **Equal structure**, up to the order of members and to containers around one member. The top
type and the intersection of nothing are alike. -/
inductive Alike (u : Universe) : Ty → Ty → Prop where
  | declared {t : Ty} (h : u.Declares t) : Alike u t t
  | top : Alike u .mixed (.inter [])
  | top' : Alike u (.inter []) .mixed
  | left (side : Side) {k : String} {x b : Ty} (h : Alike u x b) :
      Alike u (side.container [(k, x)]) b
  | right (side : Side) {k : String} {x a : Ty} (h : Alike u a x) :
      Alike u a (side.container [(k, x)])
  | several (side : Side) {ms ms' : Members} (hkeys : (Members.keys ms).Perm (Members.keys ms'))
      (h : ∀ m ∈ ms, ∀ m' ∈ ms', m.1 = m'.1 → Alike u m.2 m'.2) :
      Alike u (side.container ms) (side.container ms')

/-- What names tell apart: leaves, empty containers, containers around one member and the rest. -/
inductive Shape (u : Universe) : Ty → Prop where
  | leaf {t : Ty} (h : u.Declares t) : Shape u t
  | empty (side : Side) : Shape u (side.container [])
  | one (side : Side) {k : String} {x : Ty} (hk : k = x.name) (hx : ConvertibleFree u x) :
      Shape u (side.container [(k, x)])
  | several (side : Side) {ms : Members} (hlen : 2 ≤ ms.length) (hkeys : ∀ m ∈ ms, m.1 = m.2.name)
      (h : ∀ m ∈ ms, ConvertibleFree u m.2) : Shape u (side.container ms)

theorem ConvertibleFree.shape (ht : ConvertibleFree u t) : Shape u t := by
  cases ht with
  | declared h => exact .leaf h
  | @container side ms hkeys hnodup h =>
    match ms, hkeys, h with
    | [], _, _ => exact .empty side
    | [(k, x)], hkeys, h =>
      exact .one side (hkeys _ (List.mem_cons_self ..)) (h _ (List.mem_cons_self ..))
    | _ :: _ :: _, hkeys, h => exact .several side (by simp) hkeys h

theorem name_container_nil (side : Side) : (side.container []).name = side.emptyName :=
  name_container ..

theorem name_container_one (side : Side) (k : String) (x : Ty) :
    (side.container [(k, x)]).name = k := name_container ..

/-- The name of a container of several members has a parenthesis, other names have none. -/
theorem name_several_ne {side : Side} {ms : Members} (hlen : 2 ≤ ms.length) {name : String}
    (hname : ∀ c ∈ name.toList, isPlainChar c) : (side.container ms).name ≠ name := by
  rintro rfl
  rw [name_container,
    toList_joinNames side.toList_separator (by simpa [Members.keys] using hlen)] at hname
  exact absurd (hname '(' (List.mem_cons_self ..)) (by decide)

theorem Universe.Legible.name_ne_nothing (hu : u.Legible) (ht : u.Declares t) :
    t.name ≠ "nothing" :=
  fun h => hu.nothing (h ▸ ht.mem_keys)

theorem Universe.Legible.eq_mixed (hu : u.Legible) (ht : u.Declares t) (h : t.name = "mixed") :
    t = .mixed :=
  ht.eq_of_name_eq hu.mixed h

/-- **Structure from names.** -/
theorem alike_of_name_eq (hu : u.Legible) (ha : ConvertibleFree u a) (hb : ConvertibleFree u b)
    (h : a.name = b.name) : Alike u a b := by
  induction hn : a.size + b.size using Nat.strongRecOn generalizing a b with
  | _ n ih =>
    -- containers around one member go first, what is left is compared case by case
    have hright {side : Side} {k : String} {x : Ty} (hk : k = x.name) (hx : ConvertibleFree u x)
        (hone : b = side.container [(k, x)]) : Alike u a b := by
      subst hone
      rw [name_container_one, hk] at h
      rw [size_container side, Ty.sizeAll, Ty.sizeAll] at hn
      exact .right side (ih _ (by omega) ha hx h rfl)
    cases ha.shape with
    | one side hk hx =>
      rw [name_container_one, hk] at h
      rw [size_container, Ty.sizeAll, Ty.sizeAll] at hn
      exact .left side (ih _ (by omega) hx hb h rfl)
    | leaf ha =>
      have hplain := hu.isPlainChar_name ha
      cases hb.shape with
      | one side hk hx => exact hright hk hx rfl
      | leaf hb =>
        obtain rfl := ha.eq_of_name_eq hb h
        exact .declared ha
      | empty side =>
        rw [name_container_nil] at h
        cases side with
        | lower => exact absurd h (hu.name_ne_nothing ha)
        | upper =>
          obtain rfl := hu.eq_mixed ha h
          exact .top
      | several side hlen => exact absurd h.symm (name_several_ne hlen hplain)
    | empty side =>
      have hplain := isPlainChar_emptyName side
      rw [← name_container_nil] at hplain
      cases hb.shape with
      | one side' hk hx => exact hright hk hx rfl
      | leaf hb =>
        rw [name_container_nil] at h
        cases side with
        | lower => exact absurd h.symm (hu.name_ne_nothing hb)
        | upper =>
          obtain rfl := hu.eq_mixed hb h.symm
          exact .top'
      | empty side' =>
        rw [name_container_nil, name_container_nil] at h
        obtain rfl : side = side' := by
          cases side <;> cases side' <;> first | rfl | exact absurd h (by decide)
        exact .several side .rfl fun m hm => (List.not_mem_nil hm).elim
      | several side' hlen => exact absurd h.symm (name_several_ne hlen hplain)
    | @several side ms hlen hkeys hms =>
      cases hb.shape with
      | one side' hk hx => exact hright hk hx rfl
      | leaf hb => exact absurd h (name_several_ne hlen (hu.isPlainChar_name hb))
      | empty side' =>
        have hplain := isPlainChar_emptyName side'
        rw [name_container_nil] at h
        exact absurd h (name_several_ne hlen hplain)
      | @several side' ms' hlen' hkeys' hms' =>
        rw [name_container, name_container] at h
        obtain ⟨hsign, hperm⟩ := joinNames_inj side.toList_separator side'.toList_separator
          (by simpa [Members.keys] using hlen) (by simpa [Members.keys] using hlen')
          (isPhrase_of_mem_keys hkeys fun m hm => (hms m hm).isPhrase_name hu)
          (isPhrase_of_mem_keys hkeys' fun m hm => (hms' m hm).isPhrase_name hu) h
        obtain rfl := Side.sign_inj hsign
        refine .several side hperm fun m hm m' hm' hk => ?_
        rw [hkeys m hm, hkeys' m' hm'] at hk
        rw [size_container, size_container] at hn
        have := size_le_sizeAll hm
        have := size_le_sizeAll hm'
        exact ih _ (by omega) (hms m hm) (hms' m' hm') hk rfl

theorem not_declares_container (hu : u.Sound) {side : Side} {ms : Members} :
    ¬u.Declares (side.container ms) := by
  intro h
  rcases hu.leaf _ _ h with h | ⟨_, _, _, h⟩ <;> cases side <;> cases h

theorem ConvertibleFree.of_container (hu : u.Sound) (side : Side) {ms : Members}
    (h : ConvertibleFree u (side.container ms)) :
    (∀ m ∈ ms, m.1 = m.2.name) ∧ (Members.keys ms).Nodup ∧ ∀ m ∈ ms, ConvertibleFree u m.2 := by
  generalize ht : side.container ms = t at h
  cases h with
  | declared h => exact absurd (ht ▸ h) (not_declares_container hu)
  | container side' hkeys hnodup h =>
    cases side <;> cases side' <;> cases ht <;> exact ⟨hkeys, hnodup, h⟩

theorem ConvertibleFree.cases (hu : u.Sound) (h : ConvertibleFree u t) :
    t = .mixed ∨ (∃ name kind final parents, t = .nominal name kind final parents) ∨
      (∃ ms, t = .union ms) ∨ ∃ ms, t = .inter ms := by
  cases h with
  | declared h =>
    rcases hu.leaf _ _ h with h | ⟨kind, final, parents, h⟩
    · exact .inl h
    · exact .inr (.inl ⟨_, kind, final, parents, h⟩)
  | @container side ms =>
    cases side with
    | lower => exact .inr (.inr (.inl ⟨ms, rfl⟩))
    | upper => exact .inr (.inr (.inr ⟨ms, rfl⟩))

theorem not_convertibleFree_asVar (hu : u.Sound) {cell : Option Nat} {owner : Nat} {var : String} :
    ¬ConvertibleFree u (.asVar cell owner var) := by
  intro h
  rcases h.cases hu with h | ⟨_, _, _, _, h⟩ | ⟨_, h⟩ | ⟨_, h⟩ <;> cases h

theorem not_convertibleFree_asType (hu : u.Sound) : ¬ConvertibleFree u (.asType t) := by
  intro h
  rcases h.cases hu with h | ⟨_, _, _, _, h⟩ | ⟨_, h⟩ | ⟨_, h⟩ <;> cases h

theorem ConvertibleFree.nominal_of_ne (hu : u.Sound) (h : ConvertibleFree u t) (hmixed : t ≠ .mixed)
    (hunion : ∀ ms, t ≠ .union ms) (hinter : ∀ ms, t ≠ .inter ms) :
    ∃ name kind final parents, t = .nominal name kind final parents := by
  rcases h.cases hu with h | h | ⟨ms, h⟩ | ⟨ms, h⟩
  · exact absurd h hmixed
  · exact h
  · exact absurd h (hunion ms)
  · exact absurd h (hinter ms)

theorem ConvertibleFree.declares_nominal {name : String} {kind : Kind} {final : Bool}
    {parents : List Ty} (h : ConvertibleFree u (.nominal name kind final parents)) :
    u.Declares (.nominal name kind final parents) := by
  generalize ht : Ty.nominal name kind final parents = t at h
  cases h with
  | declared h => exact h
  | container side => cases side <;> cases ht

end

end TypeBounds
