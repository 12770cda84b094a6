import TypeBounds.Proofs.Freezing
import TypeBounds.Proofs.Reading

/-!
# Names are type expressions

A type is written by its name, and its name can be read again. The reader rebuilds the type from the
leaves: a name in parentheses is one atom of the grammar (`ReadsBack`), so it can stand anywhere
inside of another name. The type that is read has its members in sorted order, and single members
without a container around them, so it is another type in general; but it has the same name. Main
statement: `read_name`.
-/

namespace TypeBounds

open TypeExpr

/-! ## Sorted names -/

theorem sortNames_pairwise (names : List String) :
    (sortNames names).Pairwise fun a b => (compare a b).isLE := by
  refine sortBy_pairwise (fun a b => ?_) fun a _ b _ c _ hab hbc => ?_
  · have hswap : compare a b = (compare b a).swap := Std.OrientedCmp.eq_swap
    rw [hswap]
    cases compare b a <;> rfl
  · exact Std.TransCmp.isLE_trans hab hbc

theorem sortNames_eq_of_perm {names names' : List String} (h : names.Perm names') :
    sortNames names = sortNames names' := by
  refine List.Perm.eq_of_pairwise (fun a b _ _ hab hba => ?_) (sortNames_pairwise _)
    (sortNames_pairwise _) ?_
  · exact Std.LawfulEqCmp.eq_of_compare (Std.OrientedCmp.isLE_antisymm hab hba)
  · exact (sortBy_perm _ _).trans (h.trans (sortBy_perm _ _).symm)

/-- The name of a container does not depend on the order of its keys. -/
theorem joinNames_eq_of_perm (separator empty : String) {keys keys' : List String}
    (h : keys.Perm keys') : joinNames separator empty keys = joinNames separator empty keys' := by
  rcases keys with _ | ⟨a, _ | ⟨b, keys⟩⟩
  · rw [List.nil_perm.1 h]
  · rw [List.singleton_perm.1 h]
  · rcases keys' with _ | ⟨a', _ | ⟨b', keys'⟩⟩
    · exact absurd h.length_eq (by simp)
    · exact absurd h.length_eq (by simp)
    · rw [joinNames.eq_def, joinNames.eq_def]
      simp only [sortNames_eq_of_perm h]

/-! ## Trimming -/

theorem isBlank_of_continuesWord {c : Char} (h : Token.continuesWord c) :
    Text.isBlank c = false := by
  have halpha : c.isAlpha = (c.isUpper || c.isLower) := rfl
  have hupper : c.isUpper = decide (c.val ≥ 'A'.val ∧ c.val ≤ 'Z'.val) := rfl
  have hlower : c.isLower = (decide (c.val ≥ 'a'.val) && decide (c.val ≤ 'z'.val)) := rfl
  have hrange : c.toNat = 36 ∨ 48 ≤ c.toNat ∧ c.toNat ≤ 122 := by
    simp only [Token.continuesWord, Token.startsWord, halpha, hupper, hlower, Char.isDigit,
      Bool.or_eq_true, Bool.and_eq_true, decide_eq_true_eq, UInt32.le_iff_toNat_le] at h
    rcases h with (((⟨h₁, h₂⟩ | ⟨h₁, h₂⟩) | rfl) | rfl) | ⟨h₁, h₂⟩
    · exact .inr ⟨Nat.le_trans (by decide) h₁, Nat.le_trans h₂ (by decide)⟩
    · exact .inr ⟨Nat.le_trans (by decide) h₁, Nat.le_trans h₂ (by decide)⟩
    · exact .inr (by decide)
    · exact .inl rfl
    · exact .inr ⟨Nat.le_trans (by decide) h₁, Nat.le_trans h₂ (by decide)⟩
  simp only [Text.isBlank, Bool.or_eq_false_iff, Bool.and_eq_false_iff, decide_eq_false_iff_not]
  omega

/-- A text with something at both of its ends. -/
structure Trimmed (cs : List Char) : Prop where
  first : ∃ c, cs.head? = some c ∧ Text.isBlank c = false
  last : ∃ c, cs.getLast? = some c ∧ Text.isBlank c = false

theorem Trimmed.trim_eq {cs : List Char} (h : Trimmed cs) : Text.trim cs = cs := by
  have hdrop {cs : List Char} {c : Char} (hc : cs.head? = some c)
      (hblank : Text.isBlank c = false) : cs.dropWhile Text.isBlank = cs := by
    cases cs with
    | nil => rfl
    | cons d cs =>
      cases hc
      simp [hblank]
  obtain ⟨c, hc, hblank⟩ := h.first
  obtain ⟨d, hd, hblank'⟩ := h.last
  rw [← List.head?_reverse] at hd
  rw [Text.trim, hdrop hc hblank, hdrop hd hblank', List.reverse_reverse]

theorem IsIdentifier.trimmed {name : String} (h : IsIdentifier name) : Trimmed name.toList := by
  obtain ⟨c, cs, hname, hc, hcs⟩ := h
  have hletter : ∀ d ∈ c :: cs, Text.isBlank d = false := by
    refine List.forall_mem_cons.2 ⟨?_, fun d hd => isBlank_of_continuesWord (hcs d hd)⟩
    exact isBlank_of_continuesWord (Token.continuesWord_of_startsWord hc)
  rw [hname]
  refine ⟨⟨c, rfl, hletter c (List.mem_cons_self ..)⟩, ?_⟩
  have hlast : (c :: cs).getLast? = some ((c :: cs).getLast (List.cons_ne_nil _ _)) :=
    List.getLast?_eq_some_getLast _
  exact ⟨_, hlast, hletter _ (List.getLast_mem _)⟩

/-! ## Names as atoms -/

/-- The token between the members of a container. -/
def Side.token : Side → Token
  | .lower => .bar
  | .upper => .amp

/-- The rule for the members of a container. -/
def Side.rule : Side → Rule
  | .lower => .expr
  | .upper => .inter

/-- The expression for a container of several members. -/
def Side.tree : Side → List TypeExpr → TypeExpr
  | .lower => .union
  | .upper => .inter

theorem Side.chars_token (side : Side) : side.token.chars = [side.sign] := by
  cases side <;> rfl

section

variable {u : Universe} {g : Graph} {side : Side} {e : TypeExpr} {es : List TypeExpr}
  {ts ts' : List Token}

theorem derives_rule (side : Side) (h : Derives .atom [e] ts) : Derives side.rule [e] ts := by
  cases side with
  | lower => exact h.atom.inter
  | upper => exact h.atom

theorem derives_rule_cons (h : Derives .atom [e] ts) (hs : Derives side.rule es ts') :
    Derives side.rule (e :: es) (ts ++ side.token :: ts') := by
  cases side with
  | lower => exact h.atom.bar hs
  | upper => exact h.amp hs

/-- Several members in parentheses are one atom. -/
theorem derives_group (h : Derives side.rule es ts) (hes : 2 ≤ es.length) :
    Derives .atom [.group (side.tree es)] (.opening :: (ts ++ [.closing])) := by
  have hshape : ofUnion es = .union es ∧ ofInter es = .inter es := by
    cases es with
    | nil => cases hes
    | cons a es =>
      cases es with
      | nil => simp at hes
      | cons b es => exact ⟨rfl, rfl⟩
  cases side with
  | lower =>
    have hgroup := Derives.group h
    rwa [hshape.1] at hgroup
  | upper =>
    have hgroup := Derives.group (Derives.inter h)
    rwa [hshape.2] at hgroup

theorem denotes_tree {types : List Ty} (h : List.Forall₂ (Denotes u g) es types) :
    Denotes u g (side.tree es) (side.container (Members.ofTypes types)) := by
  cases side with
  | lower => exact .union h
  | upper => exact .inter h

end

/-- The tokens spell the text whatever stands behind it, as long as that does not go on with its
last identifier. -/
def SpellsBefore (cs : List Char) (ts : List Token) : Prop :=
  ∀ rest more, (∀ c ∈ rest.head?, Token.continuesWord c = false) → Spells rest more →
    Spells (cs ++ rest) (ts ++ more)

/-- **Reading back.** The name is an atom, wherever it stands, for a type of that name. -/
def ReadsBack (u : Universe) (g : Graph) (name : String) : Prop :=
  ∃ ts e t, SpellsBefore name.toList ts ∧ Derives .atom [e] ts ∧ Denotes u g e t ∧ t.name = name

section

variable {u : Universe} {g : Graph} {side : Side} {names : List String} {t : Ty}

theorem SpellsBefore.spells {cs : List Char} {ts : List Token} (h : SpellsBefore cs ts) :
    Spells cs ts := by
  have hspells := h [] [] (fun c hc => by cases hc) .nil
  rwa [List.append_nil, List.append_nil] at hspells

/-- A sign between two members, with its blanks. -/
theorem spells_signed (side : Side) {rest : List Char} {more : List Token} (h : Spells rest more) :
    Spells (signed side.sign ++ rest) (side.token :: more) := by
  have hsign : Spells (side.token.chars ++ ' ' :: rest) (side.token :: more) := by
    refine .token ?_ ?_ (.gap rfl h) <;> cases side <;> trivial
  rw [side.chars_token] at hsign
  exact .gap rfl hsign

theorem readsBack_identifier {name : String} (hname : IsIdentifier name)
    (hfind : u.find? name = some t) (ht : t.name = name) : ReadsBack u g name := by
  refine ⟨[.word name], .name name, t, fun rest more hrest hmore => ?_, .name name, .name hfind, ht⟩
  exact @Spells.token (.word name) _ _ hname hrest hmore

/-- **The members** of a container, with signs between them. -/
theorem ReadsBack.members (side : Side) (hne : names ≠ [])
    (h : ∀ name ∈ names, ReadsBack u g name) :
    ∃ ts es types, SpellsBefore ((signed side.sign).intercalate (names.map String.toList)) ts ∧
      Derives side.rule es ts ∧ List.Forall₂ (Denotes u g) es types ∧
      types.map Ty.name = names := by
  induction names with
  | nil => exact absurd rfl hne
  | cons name names ih =>
    obtain ⟨hname, hnames⟩ := List.forall_mem_cons.1 h
    obtain ⟨ts, e, t, hspells, hderives, hdenotes, ht⟩ := hname
    cases names with
    | nil =>
      refine ⟨ts, [e], [t], ?_, derives_rule side hderives, .cons hdenotes .nil, by simp [ht]⟩
      simpa using hspells
    | cons name' names =>
      obtain ⟨ts', es, types, hspells', hderives', hdenotes', htypes⟩ :=
        ih (List.cons_ne_nil _ _) hnames
      refine ⟨ts ++ side.token :: ts', e :: es, t :: types, ?_,
        derives_rule_cons hderives hderives', .cons hdenotes hdenotes', by simp [ht, htypes]⟩
      intro rest more hrest hmore
      have hspells' := spells_signed side (hspells' rest more hrest hmore)
      rw [List.map_cons, List.map_cons, List.intercalate_cons_cons]
      simp only [List.append_assoc, List.cons_append] at hspells' ⊢
      refine hspells _ _ (fun c hc => ?_) hspells'
      cases hc
      rfl

theorem keys_ofTypes {types : List Ty} (h : (types.map Ty.name).Nodup) :
    Members.keys (Members.ofTypes types) = types.map Ty.name := by
  have hkeyed : Members.Keyed (types.map fun t => (t.name, t)) := by
    refine ⟨fun m hm => ?_, ?_⟩
    · obtain ⟨t, -, rfl⟩ := List.mem_map.1 hm
      rfl
    · rw [Members.keys, List.map_map]
      exact h
  have hofTypes := hkeyed.ofTypes_types
  rw [Members.types, List.map_map, List.map_congr_left fun t _ => Function.comp_apply,
    List.map_id'] at hofTypes
  rw [hofTypes, Members.keys, List.map_map]
  rfl

/-- **A container of several members** is read back if its members are. -/
theorem ReadsBack.container (side : Side) {ms : Members} (hlen : 2 ≤ ms.length)
    (hnodup : (Members.keys ms).Nodup) (h : ∀ name ∈ Members.keys ms, ReadsBack u g name) :
    ReadsBack u g (side.container ms).name := by
  have hlen : 2 ≤ (Members.keys ms).length := by rwa [Members.keys, List.length_map]
  have hperm : (sortNames (Members.keys ms)).Perm (Members.keys ms) := sortBy_perm _ _
  have hne : sortNames (Members.keys ms) ≠ [] := by
    intro hnil
    rw [← hperm.length_eq, hnil] at hlen
    cases hlen
  obtain ⟨ts, es, types, hspells, hderives, hdenotes, htypes⟩ :=
    ReadsBack.members side hne fun name hname => h name (hperm.mem_iff.1 hname)
  have hes : 2 ≤ es.length := by
    rw [hdenotes.length_eq, ← List.length_map Ty.name, htypes, hperm.length_eq]
    exact hlen
  refine ⟨_, _, _, fun rest more hrest hmore => ?_, derives_group hderives hes,
    .group (denotes_tree hdenotes), ?_⟩
  · have hclosing : Spells (')' :: rest) (.closing :: more) :=
      @Spells.token .closing _ _ trivial trivial hmore
    have hinner := hspells _ _ (fun c hc => by cases hc; rfl) hclosing
    have hopening : Spells ('(' :: _) _ := @Spells.token .opening _ _ trivial trivial hinner
    rw [name_container, toList_joinNames side.toList_separator hlen]
    simpa using hopening
  · have hkeys : Members.keys (Members.ofTypes types) = sortNames (Members.keys ms) := by
      rw [keys_ofTypes (htypes ▸ hperm.nodup_iff.2 hnodup), htypes]
    rw [name_container, name_container, hkeys, joinNames_eq_of_perm _ _ hperm]

end

/-! ## Types -/

/-- **Types that can be written down**: declared types, intersections, and unions of at least one
member, nested in any way. -/
inductive Expressible (u : Universe) : Ty → Prop where
  | declared {t : Ty} (h : u.Declares t) : Expressible u t
  | container (side : Side) {ms : Members} (hne : side = .lower → ms ≠ [])
      (hkeys : ∀ m ∈ ms, m.1 = m.2.name) (hnodup : (Members.keys ms).Nodup)
      (h : ∀ m ∈ ms, Expressible u m.2) : Expressible u (side.container ms)

section

variable {decls : List TypeDecl} {u : Universe} {g : Graph} {t : Ty}

/-- Types built by adding members one by one. -/
theorem Expressible.ofTypes (side : Side) {ts : List Ty} (hne : side = .lower → ts ≠ [])
    (h : ∀ t ∈ ts, Expressible u t) : Expressible u (side.container (Members.ofTypes ts)) := by
  have hkeyed : Members.Keyed (Members.ofTypes ts) := Members.keyed_ofTypes ts
  refine .container side (fun hside hnil => hne hside (Members.eq_nil_of_ofTypes hnil)) hkeyed.key
    hkeyed.nodup ?_
  intro m hm
  exact h m.2 (Members.mem_of_mem_types_ofTypes (Members.mem_types.2 ⟨m, hm, rfl⟩))

/-- What holds of the declared names, and of a container's name if it holds of its keys. -/
theorem Expressible.name_induction {P : String → Prop} (hu : u.Sound)
    (hnames : ∀ name ∈ u.types.keys, P name)
    (hmany : ∀ (side : Side) (ms : Members), 2 ≤ ms.length → (Members.keys ms).Nodup →
      (∀ name ∈ Members.keys ms, P name) → P (side.container ms).name)
    (ht : Expressible u t) : P t.name := by
  induction ht with
  | declared h => exact hnames _ h.mem_keys
  | @container side ms hne hkeys hnodup h ih =>
    have hkey (m : String × Ty) (hm : m ∈ ms) : P m.1 := (hkeys m hm).symm ▸ ih m hm
    cases ms with
    | nil =>
      -- a container without members is the top type
      cases side with
      | lower => exact absurd rfl (hne rfl)
      | upper => exact hnames _ (Table.mem_keys_of_get? hu.mixed)
    | cons m ms =>
      cases ms with
      | nil =>
        rw [name_container]
        exact hkey m (List.mem_cons_self ..)
      | cons m' ms =>
        refine hmany side _ (by simp) hnodup fun name hname => ?_
        obtain ⟨m, hm, rfl⟩ := List.mem_map.1 hname
        exact hkey m hm

theorem trimmed_container (side : Side) {ms : Members} (hlen : 2 ≤ ms.length) :
    Trimmed (side.container ms).name.toList := by
  rw [name_container,
    toList_joinNames side.toList_separator (by rwa [Members.keys, List.length_map])]
  exact ⟨⟨'(', rfl, rfl⟩, ⟨')', by simp [List.getLast?_cons], rfl⟩⟩

/-- **Reading undoes writing.** The name of a type is read as a type of that name. -/
theorem read_name (hu : Universe.ofDecls decls = .ok u) (hnames : ∀ d ∈ decls, IsIdentifier d.name)
    (g : Graph) (ht : Expressible u t) : ∃ t', read u g t.name = .ok t' ∧ t'.name = t.name := by
  have hsound : u.Sound := Universe.sound_of_ofDecls hu
  have hidentifier (name : String) (hname : name ∈ u.types.keys) : IsIdentifier name := by
    rcases (Universe.mem_keys_of_ofDecls hu).1 hname with rfl | ⟨d, hd, rfl⟩
    · decide
    · exact hnames d hd
  have hback : ReadsBack u g t.name := by
    refine ht.name_induction hsound (fun name hname => ?_) fun side ms hlen hnodup h =>
      .container side hlen hnodup h
    obtain ⟨t', ht'⟩ := Table.exists_get? hname
    exact readsBack_identifier (hidentifier name hname) ht' (hsound.name_eq name t' ht')
  have htrimmed : Trimmed t.name.toList := by
    refine ht.name_induction (P := fun name => Trimmed name.toList) hsound (fun name hname => ?_)
      fun side ms hlen _ _ => trimmed_container side hlen
    exact (hidentifier name hname).trimmed
  obtain ⟨ts, e, t', hspells, hderives, hdenotes, hname⟩ := hback
  refine ⟨t', read_eq_ok_iff.2 ⟨ts, [e], ?_, hderives.atom.inter, hdenotes⟩, hname⟩
  rw [htrimmed.trim_eq]
  exact hspells.spells

/-- A class that is called like the empty union. -/
def nothingClass : Ty := .nominal "nothing" .concrete false []

/-- An interface. -/
def marker : Ty := .nominal "I" .interface false []

def oddities : Universe := ⟨⟨[("mixed", .mixed), ("nothing", nothingClass), ("I", marker)]⟩⟩

/-- Containers around a single member leave no trace in a name. -/
theorem read_name_nested :
    let t := Ty.unionOf [Ty.interOf [Ty.unionOf [nothingClass], marker]]
    t.name = "(I & nothing)" ∧ ∃ t', read oddities { tag := 1 } t.name = .ok t' ∧
      t'.name = t.name := by
  have hu :
      Universe.ofDecls [{ name := "nothing", kind := "class" },
        { name := "I", kind := "interface" }] = .ok oddities := rfl
  have hnothing : Expressible oddities nothingClass := .declared rfl
  have hmarker : Expressible oddities marker := .declared rfl
  have hunion : Expressible oddities (Ty.unionOf [nothingClass]) :=
    .ofTypes .lower (by simp) (by simpa using hnothing)
  have hinter : Expressible oddities (Ty.interOf [Ty.unionOf [nothingClass], marker]) :=
    .ofTypes .upper (by simp) (by simpa using ⟨hunion, hmarker⟩)
  exact ⟨by decide, read_name hu (by decide) { tag := 1 }
    (.ofTypes .lower (by simp) (by simpa using hinter))⟩

end

end TypeBounds
