import TypeBounds.Proofs.Grammar
import TypeBounds.TypeExpr.Denote

/-!
# Reading types

Which type a tree stands for (`TypeExpr.Denotes`), and for which trees there is one
(`exists_denotes_iff`). Main statement: `read_iff_grammar`, a text is read iff it falls into tokens
that derive from the grammar and mention known names only, and then as the type of its only tree.
-/

namespace TypeBounds.TypeExpr

variable {rule : Rule} {e : TypeExpr} {es : List TypeExpr} {ts : List Token}

/-! ## Meaning -/

/-- **Induction over a tree.** -/
@[elab_as_elim]
theorem treeInduction {P : TypeExpr → Prop} (name : ∀ n, P (.name n))
    (convertible : ∀ target, P target → P (.convertible target))
    (group : ∀ inner, P inner → P (.group inner))
    (union : ∀ parts, (∀ e ∈ parts, P e) → P (.union parts))
    (inter : ∀ parts, (∀ e ∈ parts, P e) → P (.inter parts)) (e : TypeExpr) : P e := by
  induction hn : sizeOf e using Nat.strongRecOn generalizing e with
  | ind n ih =>
    subst hn
    have hpart {parts : List TypeExpr} {e : TypeExpr} (he : e ∈ parts) :
        sizeOf e < 1 + sizeOf parts := by
      have := List.sizeOf_lt_of_mem he
      omega
    cases e with
    | name n => exact name n
    | convertible target => exact convertible target (ih _ (by simp) target rfl)
    | group inner => exact group inner (ih _ (by simp) inner rfl)
    | union parts =>
      refine union parts fun e he => ih _ ?_ e rfl
      simpa using hpart he
    | inter parts =>
      refine inter parts fun e he => ih _ ?_ e rfl
      simpa using hpart he

/-- **The type of a tree.** What follows an `as` is a type variable of the graph if it can be
one. -/
inductive Denotes (u : Universe) (g : Graph) : TypeExpr → Ty → Prop where
  | name {n : String} {t : Ty} (h : u.find? n = some t) : Denotes u g (.name n) t
  | var {n : String} (h : g.hasTypeVariable n) :
      Denotes u g (.convertible (.name n)) (.asVar none g.tag n)
  | fixed {e : TypeExpr} {t : Ty} (hnot : ∀ n, e = .name n → g.hasTypeVariable n = false)
      (h : Denotes u g e t) : Denotes u g (.convertible e) (.asType t)
  | group {e : TypeExpr} {t : Ty} (h : Denotes u g e t) : Denotes u g (.group e) t
  | union {es : List TypeExpr} {ts : List Ty} (h : List.Forall₂ (Denotes u g) es ts) :
      Denotes u g (.union es) (Ty.unionOf ts)
  | inter {es : List TypeExpr} {ts : List Ty} (h : List.Forall₂ (Denotes u g) es ts) :
      Denotes u g (.inter es) (Ty.interOf ts)

section

variable {u : Universe} {g : Graph} {t : Ty}

theorem lookUp_eq_ok_iff {n : String} : lookUp u n = .ok t ↔ u.find? n = some t := by
  unfold lookUp
  cases u.find? n <;> simp

theorem convertibleTo_eq_ok_iff {r : Except Error Ty} :
    convertibleTo r = .ok t ↔ ∃ target, r = .ok target ∧ t = .asType target := by
  cases r with
  | error cause => simp [convertibleTo]
  | ok target => simp [convertibleTo, eq_comm]

theorem denoteAll_eq_ok_iff {es : List TypeExpr} {ts : List Ty}
    (h : ∀ e ∈ es, ∀ t, denote u g e = .ok t ↔ Denotes u g e t) :
    denoteAll u g es = .ok ts ↔ List.Forall₂ (Denotes u g) es ts := by
  induction es generalizing ts with
  | nil => simp [denoteAll, eq_comm]
  | cons e es ih =>
    obtain ⟨he, hes⟩ := List.forall_mem_cons.1 h
    constructor
    · intro hok
      rw [denoteAll] at hok
      obtain ⟨t, ht, hok⟩ := Universe.except_bind_eq_ok hok
      obtain ⟨rest, hrest, hok⟩ := Universe.except_bind_eq_ok hok
      cases hok
      exact .cons ((he t).1 ht) ((ih hes).1 hrest)
    · intro hall
      cases hall with
      | cons ht hrest =>
        rw [denoteAll, (he _).2 ht, (ih hes).2 hrest]
        rfl

theorem denote_convertible (hnot : ∀ n, e = .name n → g.hasTypeVariable n = false) :
    denote u g (.convertible e) = convertibleTo (denote u g e) := by
  cases e with
  | name n => simp [denote, hnot n rfl]
  | _ => rfl

theorem except_map_eq_ok_iff {ε α β : Type} {f : α → β} {r : Except ε α} {b : β} :
    r.map f = .ok b ↔ ∃ a, r = .ok a ∧ f a = b := by
  cases r <;> simp [Except.map]

/-- **The meaning of a tree** is what the relation says. -/
theorem denote_eq_ok_iff : denote u g e = .ok t ↔ Denotes u g e t := by
  induction e using treeInduction generalizing t with
  | name n =>
    rw [denote, lookUp_eq_ok_iff]
    refine ⟨.name, fun h => ?_⟩
    cases h with
    | name h => exact h
  | convertible target ih =>
    by_cases hvariable : ∃ n, target = .name n ∧ g.hasTypeVariable n
    · obtain ⟨n, rfl, hn⟩ := hvariable
      rw [denote, if_pos hn]
      constructor
      · intro h
        cases h
        exact .var hn
      · intro h
        cases h with
        | var => rfl
        | fixed hnot =>
          rw [hnot n rfl] at hn
          cases hn
    · have hnot (n : String) (hname : target = .name n) : g.hasTypeVariable n = false := by
        by_contra hn
        exact hvariable ⟨n, hname, eq_true_of_ne_false hn⟩
      rw [denote_convertible hnot, convertibleTo_eq_ok_iff]
      simp only [ih]
      constructor
      · rintro ⟨t, ht, rfl⟩
        exact .fixed hnot ht
      · intro h
        cases h with
        | var hn => exact absurd ⟨_, rfl, hn⟩ hvariable
        | fixed _ ht => exact ⟨_, ht, rfl⟩
  | group inner ih =>
    rw [denote, ih]
    refine ⟨.group, fun h => ?_⟩
    cases h with
    | group h => exact h
  | union parts ih =>
    rw [denote, except_map_eq_ok_iff]
    simp only [denoteAll_eq_ok_iff fun e he t => ih e he]
    constructor
    · rintro ⟨ts, hts, rfl⟩
      exact .union hts
    · intro h
      cases h with
      | union hts => exact ⟨_, hts, rfl⟩
  | inter parts ih =>
    rw [denote, except_map_eq_ok_iff]
    simp only [denoteAll_eq_ok_iff fun e he t => ih e he]
    constructor
    · rintro ⟨ts, hts, rfl⟩
      exact .inter hts
    · intro h
      cases h with
      | inter hts => exact ⟨_, hts, rfl⟩

end

/-! ## Names -/

/-- What a tree mentions: a type by its name, or what stands right behind an `as`. -/
inductive Mention where
  | type (name : String)
  | target (name : String)

mutual

/-- Everything that a tree mentions. -/
def mentions : TypeExpr → List Mention
  | .name n => [.type n]
  | .convertible (.name n) => [.target n]
  | .convertible target => mentions target
  | .group inner => mentions inner
  | .union parts => mentionsAll parts
  | .inter parts => mentionsAll parts

/-- Everything that several trees mention. -/
def mentionsAll : List TypeExpr → List Mention
  | [] => []
  | e :: es => mentions e ++ mentionsAll es

end

/-- The name of a declared type, or `mixed`. -/
def IsTypeName (decls : List TypeDecl) (n : String) : Prop := n = "mixed" ∨ ∃ d ∈ decls, d.name = n

/-- A type has to be declared. Behind an `as` there may also be a type variable. -/
def Mention.Known (decls : List TypeDecl) (g : Graph) : Mention → Prop
  | type n => IsTypeName decls n
  | target n => g.hasTypeVariable n ∨ IsTypeName decls n

theorem mem_mentionsAll {m : Mention} : m ∈ mentionsAll es ↔ ∃ e ∈ es, m ∈ e.mentions := by
  induction es with
  | nil => simp [mentionsAll]
  | cons e es ih => simp [mentionsAll, ih]

section

variable {decls : List TypeDecl} {u : Universe} {g : Graph}

theorem exists_find?_iff (hu : Universe.ofDecls decls = .ok u) {n : String} :
    (∃ t, u.find? n = some t) ↔ IsTypeName decls n := by
  rw [IsTypeName, ← Universe.mem_keys_of_ofDecls hu]
  exact ⟨fun ⟨_, ht⟩ => Table.mem_keys_of_get? ht, Table.exists_get?⟩

theorem exists_denotes_name (hu : Universe.ofDecls decls = .ok u) {n : String} :
    (∃ t, Denotes u g (.name n) t) ↔ IsTypeName decls n := by
  rw [← exists_find?_iff hu]
  constructor
  · rintro ⟨t, ht⟩
    cases ht with
    | name h => exact ⟨t, h⟩
  · rintro ⟨t, ht⟩
    exact ⟨t, .name ht⟩

/-- A convertible has a type if its target is a variable or has a type. -/
theorem exists_denotes_convertible :
    (∃ t, Denotes u g (.convertible e) t) ↔
      (∃ n, e = .name n ∧ g.hasTypeVariable n) ∨ ∃ t, Denotes u g e t := by
  constructor
  · rintro ⟨t, ht⟩
    cases ht with
    | var hn => exact .inl ⟨_, rfl, hn⟩
    | fixed _ h => exact .inr ⟨_, h⟩
  · intro h
    by_cases hvar : ∃ n, e = .name n ∧ g.hasTypeVariable n
    · obtain ⟨n, rfl, hn⟩ := hvar
      exact ⟨_, .var hn⟩
    · obtain ⟨t, ht⟩ := h.resolve_left hvar
      refine ⟨_, .fixed (fun n hname => ?_) ht⟩
      by_contra hn
      exact hvar ⟨n, hname, eq_true_of_ne_false hn⟩

theorem exists_forall₂_iff {α β : Type} {R : α → β → Prop} {as : List α} :
    (∃ bs, List.Forall₂ R as bs) ↔ ∀ a ∈ as, ∃ b, R a b := by
  induction as with
  | nil => simp
  | cons a as ih =>
    rw [List.forall_mem_cons, ← ih]
    constructor
    · rintro ⟨bs, hbs⟩
      cases hbs with
      | cons hb hbs => exact ⟨⟨_, hb⟩, _, hbs⟩
    · rintro ⟨⟨b, hb⟩, bs, hbs⟩
      exact ⟨b :: bs, .cons hb hbs⟩

/-- A tree has a type if everything it mentions is known. -/
theorem exists_denotes_iff (hu : Universe.ofDecls decls = .ok u) :
    (∃ t, Denotes u g e t) ↔ ∀ m ∈ e.mentions, m.Known decls g := by
  have hall {parts : List TypeExpr} (ih : ∀ e ∈ parts, (∃ t, Denotes u g e t) ↔
      ∀ m ∈ e.mentions, m.Known decls g) : (∃ ts, List.Forall₂ (Denotes u g) parts ts) ↔
        ∀ m ∈ mentionsAll parts, m.Known decls g := by
    rw [exists_forall₂_iff]
    constructor
    · intro h m hm
      obtain ⟨e, he, hm⟩ := mem_mentionsAll.1 hm
      exact (ih e he).1 (h e he) m hm
    · intro h e he
      exact (ih e he).2 fun m hm => h m (mem_mentionsAll.2 ⟨e, he, hm⟩)
  induction e using treeInduction with
  | name n => simpa [mentions, Mention.Known] using exists_denotes_name hu
  | convertible target ih =>
    rw [exists_denotes_convertible]
    cases target with
    | name n => simp [mentions, Mention.Known, exists_denotes_name hu]
    | _ => simpa [mentions] using ih
  | group inner ih =>
    rw [mentions]
    refine Iff.trans ⟨?_, ?_⟩ ih
    · rintro ⟨t, ht⟩
      cases ht with
      | group h => exact ⟨t, h⟩
    · rintro ⟨t, ht⟩
      exact ⟨t, .group ht⟩
  | union parts ih =>
    rw [mentions, ← hall ih]
    constructor
    · rintro ⟨t, ht⟩
      cases ht with
      | union h => exact ⟨_, h⟩
    · rintro ⟨ts, hts⟩
      exact ⟨_, .union hts⟩
  | inter parts ih =>
    rw [mentions, ← hall ih]
    constructor
    · rintro ⟨t, ht⟩
      cases ht with
      | inter h => exact ⟨_, h⟩
    · rintro ⟨ts, hts⟩
      exact ⟨_, .inter hts⟩

/-! ## Reading -/

/-- No expression ends with a sign between two parts. -/
theorem Derives.getLast? (h : Derives rule es ts) :
    ∃ t, ts.getLast? = some t ∧ t ≠ .bar ∧ t ≠ .amp := by
  induction h with
  | name w => exact ⟨.word w, rfl, by simp, by simp⟩
  | convertible h ih =>
    obtain ⟨t, ht, hne⟩ := ih
    exact ⟨t, by simp [List.getLast?_cons, ht], hne⟩
  | group h ih => exact ⟨.closing, by simp [List.getLast?_cons], by simp, by simp⟩
  | atom h ih => exact ih
  | amp h hs ih ihs =>
    obtain ⟨t, ht, hne⟩ := ihs
    exact ⟨t, by simp [List.getLast?_cons, ht], hne⟩
  | inter h ih => exact ih
  | bar h hs ih ihs =>
    obtain ⟨t, ht, hne⟩ := ihs
    exact ⟨t, by simp [List.getLast?_cons, ht], hne⟩

theorem Token.eq_of_getLast?_chars {t sign : Token} {c : Char} (ht : t.IsLexeme)
    (hsign : Token.ofSign? c = some sign) (hlast : t.chars.getLast? = some c) : t = sign := by
  cases t with
  | word w =>
    -- every letter of an identifier continues one
    obtain ⟨d, ds, hw, hd, hds⟩ := ht
    have hmem : c ∈ d :: ds := by
      rw [← hw]
      exact List.mem_of_getLast? hlast
    have hc : Token.continuesWord c := by
      rcases List.mem_cons.1 hmem with rfl | hmem
      · exact Token.continuesWord_of_startsWord hd
      · exact hds c hmem
    rw [(Token.plain_of_ofSign? hsign).1] at hc
    cases hc
  | _ =>
    cases hlast
    exact Option.some.inj hsign

/-- A text that ends with a sign has it as its last token. -/
theorem Spells.getLast? {cs : List Char} {c : Char} {sign : Token} (h : Spells cs ts)
    (hsign : Token.ofSign? c = some sign) (hlast : cs.getLast? = some c) :
    ts.getLast? = some sign := by
  induction h with
  | nil => cases hlast
  | @gap d cs ts hd h ih =>
    cases cs with
    | nil =>
      obtain rfl : d = c := Option.some.inj hlast
      rw [(Token.plain_of_ofSign? hsign).2] at hd
      cases hd
    | cons => exact ih (by rwa [List.getLast?_cons_cons] at hlast)
  | @token t cs ts ht hend h ih =>
    cases cs with
    | nil =>
      rw [List.append_nil] at hlast
      obtain rfl : ts = [] := by
        have hscan := h.scan
        cases hscan
        rfl
      rw [Token.eq_of_getLast?_chars ht hsign hlast]
      rfl
    | cons d cs =>
      rw [List.getLast?_append_of_ne_nil _ (List.cons_ne_nil _ _)] at hlast
      rw [List.getLast?_cons, ih hlast]
      rfl

/-- What derives has no sign at its end. -/
theorem Spells.not_ofSign? {cs : List Char} {c : Char} (h : Spells cs ts)
    (hes : Derives .expr es ts) (hlast : cs.getLast? = some c) :
    Token.ofSign? c ≠ some .bar ∧ Token.ofSign? c ≠ some .amp := by
  obtain ⟨t, ht, hbar, hamp⟩ := hes.getLast?
  have hne {sign : Token} (hsign : Token.ofSign? c = some sign) : t = sign :=
    Option.some.inj (ht.symm.trans (h.getLast? hsign hlast))
  exact ⟨fun hsign => hbar (hne hsign), fun hsign => hamp (hne hsign)⟩

theorem ofChars?_eq_some_iff {cs : List Char} :
    ofChars? cs = some e ↔ ∃ ts es, Spells cs ts ∧ Derives .expr es ts ∧ e = ofUnion es := by
  simp only [ofChars?, Option.bind_eq_some_iff, Token.scan_eq_some_iff, ofTokens?_eq_some_iff]
  constructor
  · rintro ⟨ts, hts, es, hes, rfl⟩
    exact ⟨ts, es, hts, hes, rfl⟩
  · rintro ⟨ts, es, hts, hes, rfl⟩
    exact ⟨ts, hts, es, hes, rfl⟩

/-- Reading finds the type of the tree, if the text has one. -/
theorem read_eq_ok_iff {text : String} {t : Ty} :
    read u g text = .ok t ↔
      ∃ ts es, Spells (Text.trim text.toList) ts ∧ Derives .expr es ts ∧
        Denotes u g (ofUnion es) t := by
  generalize hcs : Text.trim text.toList = cs
  constructor
  · intro h
    simp only [read, hcs] at h
    split at h
    · cases h
    · cases h
    · cases h
    · split at h
      · cases h
      · rename_i e he
        obtain ⟨ts, es, hts, hes, rfl⟩ := ofChars?_eq_some_iff.1 he
        exact ⟨ts, es, hts, hes, denote_eq_ok_iff.1 h⟩
  · rintro ⟨ts, es, hts, hes, ht⟩
    have hread : ofChars? cs = some (ofUnion es) := ofChars?_eq_some_iff.2 ⟨ts, es, hts, hes, rfl⟩
    simp only [read, hcs, hread]
    split
    · rename_i hlast
      obtain rfl := List.getLast?_eq_none_iff.1 hlast
      cases hts.scan
      cases hes.length_pos
    · rename_i hlast
      exact absurd rfl (hts.not_ofSign? hes hlast).1
    · rename_i hlast
      exact absurd rfl (hts.not_ofSign? hes hlast).2
    · exact denote_eq_ok_iff.2 ht

/-- **Reading accepts exactly the grammar.** A text is read iff it falls into tokens that derive
from the grammar with everything known that it mentions. It falls into tokens in one way, these have
one derivation, and what is read is the type of its tree. -/
theorem read_iff_grammar (hu : Universe.ofDecls decls = .ok u) (g : Graph) (text : String) :
    ((∃ t, read u g text = .ok t) ↔
      ∃ ts es, Spells (Text.trim text.toList) ts ∧ Derives .expr es ts ∧
        ∀ m ∈ (ofUnion es).mentions, m.Known decls g) ∧
    (∀ ts ts' es es', Spells (Text.trim text.toList) ts → Spells (Text.trim text.toList) ts' →
      Derives .expr es ts → Derives .expr es' ts' → ts = ts' ∧ es = es') ∧
    ∀ ts es t, Spells (Text.trim text.toList) ts → Derives .expr es ts →
      (read u g text = .ok t ↔ Denotes u g (ofUnion es) t) := by
  have hunique {ts ts' : List Token} {es es' : List TypeExpr}
      (hts : Spells (Text.trim text.toList) ts) (hts' : Spells (Text.trim text.toList) ts')
      (hes : Derives .expr es ts) (hes' : Derives .expr es' ts') :
      ts = ts' ∧ es = es' := by
    obtain rfl : ts = ts' := Option.some.inj (hts.scan.symm.trans hts'.scan)
    exact ⟨rfl, hes.parts_eq hes'⟩
  refine ⟨⟨?_, ?_⟩, fun ts ts' es es' => hunique, fun ts es t hts hes => ?_⟩
  · rintro ⟨t, ht⟩
    obtain ⟨ts, es, hts, hes, ht⟩ := read_eq_ok_iff.1 ht
    exact ⟨ts, es, hts, hes, (exists_denotes_iff hu).1 ⟨t, ht⟩⟩
  · rintro ⟨ts, es, hts, hes, hknown⟩
    obtain ⟨t, ht⟩ := (exists_denotes_iff hu).2 hknown
    exact ⟨t, read_eq_ok_iff.2 ⟨ts, es, hts, hes, ht⟩⟩
  · refine ⟨fun h => ?_, fun h => read_eq_ok_iff.2 ⟨ts, es, hts, hes, h⟩⟩
    obtain ⟨ts', es', hts', hes', ht⟩ := read_eq_ok_iff.1 h
    obtain ⟨-, rfl⟩ := hunique hts hts' hes hes'
    exact ht

/-- Two primitive types. -/
def scalars : List TypeDecl := [{ name := "int" }, { name := "text" }]

/-- A union inside of an intersection, with a type variable behind the `as`. -/
theorem read_scalars :
    ∃ u, Universe.ofDecls scalars = .ok u ∧
      read u { tag := 1, bounds := ⟨[("T", {})]⟩ } " (int|text) &as T\n" =
        .ok (Ty.interOf
          [Ty.unionOf [.nominal "int" .primitive false [], .nominal "text" .primitive false []],
            .asVar none 1 "T"]) := by
  have hu : Universe.ofDecls scalars = .ok _ := rfl
  refine ⟨_, hu, ?_⟩
  have hspells : Spells (Text.trim " (int|text) &as T\n".toList) _ := Token.scan_eq_some_iff.1 rfl
  have hgroup := ((Derives.name "int").atom.bar (Derives.name "text").atom.inter).group
  have hderives := (hgroup.amp (Derives.name "T").convertible.atom).inter
  refine ((read_iff_grammar hu _ _).2.2 _ _ _ hspells hderives).2
    (.inter (.cons ?_ (.cons ?_ .nil)))
  · exact .group (.union (.cons (.name rfl) (.cons (.name rfl) .nil)))
  · exact .var rfl

end

end TypeBounds.TypeExpr
