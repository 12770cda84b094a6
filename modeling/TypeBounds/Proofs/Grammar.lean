import TypeBounds.Proofs.Spelling
import TypeBounds.TypeExpr.Basic

/-!
# The grammar of type expressions

Which tokens derive from which rule of the grammar, and with which tree (`TypeExpr.Derives`). Main
statements:

* `Derives.read`: the parser reads what derives, and its budget never runs out;
* `Derives.parts_eq`: there is one derivation at most;
* `ofTokens?_eq_some_iff`: parsing finds it.
-/

namespace TypeBounds.TypeExpr

/-- The rules of the grammar. -/
inductive Rule where
  | expr
  | inter
  | atom

/-- **Derivations.** The tokens derive from the rule, with the given parts: those of a union for
`expr`, those of an intersection for `inter`, and one for `atom`. -/
inductive Derives : Rule → List TypeExpr → List Token → Prop where
  | name (w : String) : Derives .atom [.name w] [.word w]
  | convertible {e : TypeExpr} {ts : List Token} (h : Derives .atom [e] ts) :
      Derives .atom [.convertible e] (.word "as" :: ts)
  | group {es : List TypeExpr} {ts : List Token} (h : Derives .expr es ts) :
      Derives .atom [.group (ofUnion es)] (.opening :: (ts ++ [.closing]))
  | atom {e : TypeExpr} {ts : List Token} (h : Derives .atom [e] ts) : Derives .inter [e] ts
  | amp {e : TypeExpr} {es : List TypeExpr} {ts ts' : List Token} (h : Derives .atom [e] ts)
      (hs : Derives .inter es ts') : Derives .inter (e :: es) (ts ++ .amp :: ts')
  | inter {es : List TypeExpr} {ts : List Token} (h : Derives .inter es ts) :
      Derives .expr [ofInter es] ts
  | bar {es fs : List TypeExpr} {ts ts' : List Token} (h : Derives .inter es ts)
      (hs : Derives .expr fs ts') : Derives .expr (ofInter es :: fs) (ts ++ .bar :: ts')

namespace Rule

/-- The parser of a rule. -/
def read : Rule → Nat → List Token → Option (List TypeExpr × List Token)
  | expr => readUnion
  | inter => readInter
  | atom => fun budget ts => (readAtom budget ts).map fun r => ([r.1], r.2)

/-- What a derivation of `n` tokens needs less than `3 * n` steps. -/
def slack : Rule → Nat
  | expr => 0
  | inter => 1
  | atom => 2

/-- The tokens that cannot go on with the rule. -/
def StopsAt (rule : Rule) (rest : List Token) : Prop :=
  atomFollows rest = false ∧ (rule ≠ atom → rest.head? ≠ some .amp) ∧
    (rule = expr → rest.head? ≠ some .bar)

end Rule

variable {rule : Rule} {e : TypeExpr} {es : List TypeExpr} {ts rest : List Token} {budget : Nat}

theorem Derives.atomFollows (h : Derives rule es ts) (rest : List Token) :
    atomFollows (ts ++ rest) := by
  induction h generalizing rest with
  | name | convertible | group => rfl
  | atom _ ih => exact ih rest
  | amp _ _ ih | bar _ _ ih =>
    rw [List.append_assoc]
    exact ih _
  | inter _ ih => exact ih rest

theorem readInter_last {part : TypeExpr} (h : readAtom budget ts = some (part, rest))
    (hrest : rest.head? ≠ some .amp) : readInter (budget + 1) ts = some ([part], rest) := by
  rw [readInter, h]
  cases rest with
  | nil => rfl
  | cons t rest => cases t <;> first | rfl | exact absurd rfl hrest

theorem readUnion_last (h : readInter budget ts = some (es, rest))
    (hrest : rest.head? ≠ some .bar) : readUnion (budget + 1) ts = some ([ofInter es], rest) := by
  rw [readUnion, h]
  cases rest with
  | nil => rfl
  | cons t rest => cases t <;> first | rfl | exact absurd rfl hrest

theorem read_atom_eq_some :
    Rule.atom.read budget ts = some ([e], rest) ↔ readAtom budget ts = some (e, rest) := by
  simp [Rule.read, Option.map_eq_some_iff, Prod.ext_iff]

theorem Derives.length_pos (h : Derives rule es ts) : 0 < ts.length := by
  have hfollows := h.atomFollows []
  cases ts with
  | nil => cases hfollows
  | cons t ts => exact Nat.succ_pos _

theorem Derives.exists_step (h : Derives rule es ts)
    (hbudget : 3 * ts.length ≤ budget + rule.slack) : ∃ steps, budget = steps + 1 := by
  have hpos := h.length_pos
  have hslack : rule.slack ≤ 2 := by cases rule <;> decide
  exact ⟨budget - 1, by omega⟩

/-- **The parser reads** what derives from its rule, and its budget is enough. -/
theorem Derives.read (h : Derives rule es ts) (hrest : rule.StopsAt rest)
    (hbudget : 3 * ts.length ≤ budget + rule.slack) :
    rule.read budget (ts ++ rest) = some (es, rest) := by
  induction h generalizing rest budget with
  | name w =>
    obtain ⟨budget, rfl⟩ := (Derives.name w).exists_step hbudget
    rw [read_atom_eq_some]
    simp [readAtom, hrest.1]
  | @convertible e ts h ih =>
    obtain ⟨budget, rfl⟩ := h.convertible.exists_step hbudget
    have htarget : readAtom budget (ts ++ rest) = some (e, rest) := by
      refine read_atom_eq_some.1 (ih hrest ?_)
      simp only [List.length_cons] at hbudget
      omega
    rw [read_atom_eq_some, List.cons_append]
    simp [readAtom, h.atomFollows rest, htarget]
  | @group es ts h ih =>
    obtain ⟨budget, rfl⟩ := h.group.exists_step hbudget
    have hinner : readUnion budget (ts ++ .closing :: rest) = some (es, .closing :: rest) := by
      refine ih ⟨rfl, by simp, by simp⟩ ?_
      simp only [List.length_cons, List.length_append, Rule.slack] at hbudget ⊢
      omega
    rw [read_atom_eq_some, List.cons_append, List.append_assoc, List.singleton_append]
    simp [readAtom, hinner]
  | @atom e ts h ih =>
    obtain ⟨budget, rfl⟩ := h.atom.exists_step hbudget
    have hpart := read_atom_eq_some.1 (ih ⟨hrest.1, by simp, by simp⟩ hbudget)
    exact readInter_last hpart (hrest.2.1 (by simp))
  | @amp e es ts ts' h hs ih ihs =>
    obtain ⟨budget, rfl⟩ := (h.amp hs).exists_step hbudget
    simp only [List.length_append, List.length_cons, Rule.slack] at hbudget
    have hpart :
        readAtom budget (ts ++ .amp :: (ts' ++ rest)) = some (e, .amp :: (ts' ++ rest)) := by
      refine read_atom_eq_some.1 (ih ⟨rfl, by simp, by simp⟩ ?_)
      simp only [Rule.slack]
      omega
    have hmore : readInter budget (ts' ++ rest) = some (es, rest) := by
      refine ihs hrest ?_
      simp only [Rule.slack]
      omega
    rw [List.append_assoc, List.cons_append]
    simp [Rule.read, readInter, hpart, hmore]
  | @inter es ts h ih =>
    obtain ⟨budget, rfl⟩ := h.inter.exists_step hbudget
    have hparts : readInter budget (ts ++ rest) = some (es, rest) := by
      exact ih ⟨hrest.1, fun _ => hrest.2.1 (by simp), by simp⟩ hbudget
    exact readUnion_last hparts (hrest.2.2 rfl)
  | @bar es fs ts ts' h hs ih ihs =>
    obtain ⟨budget, rfl⟩ := (h.bar hs).exists_step hbudget
    simp only [List.length_append, List.length_cons, Rule.slack] at hbudget
    have hparts :
        readInter budget (ts ++ .bar :: (ts' ++ rest)) = some (es, .bar :: (ts' ++ rest)) := by
      refine ih ⟨rfl, by simp, by simp⟩ ?_
      simp only [Rule.slack]
      omega
    have hmore : readUnion budget (ts' ++ rest) = some (fs, rest) := by
      refine ihs hrest ?_
      simp only [Rule.slack]
      omega
    rw [List.append_assoc, List.cons_append]
    simp [Rule.read, readUnion, hparts, hmore]

/-! What a parser has read, one rule back. -/

theorem readUnion_cases (h : readUnion (budget + 1) ts = some (es, rest)) :
    ∃ parts ts', readInter budget ts = some (parts, ts') ∧
      (es = [ofInter parts] ∧ ts' = rest ∨
        ∃ ts'' more, ts' = .bar :: ts'' ∧ readUnion budget ts'' = some (more, rest) ∧
        es = ofInter parts :: more) := by
  rw [readUnion] at h
  obtain ⟨⟨parts, ts'⟩, hparts, h⟩ := Option.bind_eq_some_iff.1 h
  refine ⟨parts, ts', hparts, ?_⟩
  dsimp only at h
  split at h
  · obtain ⟨⟨more, ts''⟩, hmore, h⟩ := Option.bind_eq_some_iff.1 h
    cases h
    exact .inr ⟨_, more, rfl, hmore, rfl⟩
  · cases h
    exact .inl ⟨rfl, rfl⟩

theorem readInter_cases (h : readInter (budget + 1) ts = some (es, rest)) :
    ∃ part ts', readAtom budget ts = some (part, ts') ∧
      (es = [part] ∧ ts' = rest ∨
        ∃ ts'' more, ts' = .amp :: ts'' ∧ readInter budget ts'' = some (more, rest) ∧
        es = part :: more) := by
  rw [readInter] at h
  obtain ⟨⟨part, ts'⟩, hpart, h⟩ := Option.bind_eq_some_iff.1 h
  refine ⟨part, ts', hpart, ?_⟩
  dsimp only at h
  split at h
  · obtain ⟨⟨more, ts''⟩, hmore, h⟩ := Option.bind_eq_some_iff.1 h
    cases h
    exact .inr ⟨_, more, rfl, hmore, rfl⟩
  · cases h
    exact .inl ⟨rfl, rfl⟩

theorem readAtom_cases (h : readAtom (budget + 1) ts = some (e, rest)) :
    (∃ ts' target, ts = .word "as" :: ts' ∧ readAtom budget ts' = some (target, rest) ∧
      e = .convertible target) ∨
    (∃ w, ts = .word w :: rest ∧ e = .name w) ∨
    ∃ ts' es, ts = .opening :: ts' ∧ readUnion budget ts' = some (es, .closing :: rest) ∧
      e = .group (ofUnion es) := by
  unfold readAtom at h
  split at h
  · cases h
  · rename_i budget' w ts' heq
    cases heq
    split at h
    · rename_i has
      obtain rfl : w = "as" := of_decide_eq_true (Bool.and_eq_true_iff.1 has).1
      obtain ⟨⟨target, rest'⟩, htarget, h⟩ := Option.bind_eq_some_iff.1 h
      cases h
      exact .inl ⟨_, target, rfl, htarget, rfl⟩
    · cases h
      exact .inr (.inl ⟨w, rfl, rfl⟩)
  · rename_i budget' ts' heq
    cases heq
    obtain ⟨⟨es, rest'⟩, hes, h⟩ := Option.bind_eq_some_iff.1 h
    dsimp only at h
    split at h
    · cases h
      exact .inr (.inr ⟨_, es, rfl, hes, rfl⟩)
    · cases h
  · cases h

/-- What the parser reads derives from its rule. -/
theorem Rule.derives_of_read (h : rule.read budget ts = some (es, rest)) :
    ∃ used, ts = used ++ rest ∧ Derives rule es used := by
  induction budget generalizing rule es ts rest with
  | zero =>
    cases rule with
    | expr => simp [Rule.read, readUnion] at h
    | inter => simp [Rule.read, readInter] at h
    | atom => simp [Rule.read, readAtom] at h
  | succ budget ih =>
    have ihExpr {ts rest : List Token} {es : List TypeExpr}
        (h : readUnion budget ts = some (es, rest)) : ∃ used, ts = used ++ rest ∧
        Derives .expr es used := @ih .expr _ _ _ h
    have ihInter {ts rest : List Token} {es : List TypeExpr}
        (h : readInter budget ts = some (es, rest)) : ∃ used, ts = used ++ rest ∧
        Derives .inter es used := @ih .inter _ _ _ h
    have ihAtom {ts rest : List Token} {e : TypeExpr} (h : readAtom budget ts = some (e, rest)) :
        ∃ used, ts = used ++ rest ∧ Derives .atom [e] used := ih (read_atom_eq_some.2 h)
    cases rule with
    | expr =>
      obtain ⟨parts, ts', hparts, ⟨rfl, rfl⟩ | ⟨ts'', more, rfl, hmore, rfl⟩⟩ := readUnion_cases h
      · obtain ⟨used, rfl, hused⟩ := ihInter hparts
        exact ⟨used, rfl, hused.inter⟩
      · obtain ⟨used, rfl, hused⟩ := ihInter hparts
        obtain ⟨used', rfl, hused'⟩ := ihExpr hmore
        exact ⟨used ++ .bar :: used', by simp, hused.bar hused'⟩
    | inter =>
      obtain ⟨part, ts', hpart, ⟨rfl, rfl⟩ | ⟨ts'', more, rfl, hmore, rfl⟩⟩ := readInter_cases h
      · obtain ⟨used, rfl, hused⟩ := ihAtom hpart
        exact ⟨used, rfl, hused.atom⟩
      · obtain ⟨used, rfl, hused⟩ := ihAtom hpart
        obtain ⟨used', rfl, hused'⟩ := ihInter hmore
        exact ⟨used ++ .amp :: used', by simp, hused.amp hused'⟩
    | atom =>
      obtain ⟨⟨e, rest'⟩, he, heq⟩ := Option.map_eq_some_iff.1 h
      cases heq
      rcases readAtom_cases he with ⟨ts', target, rfl, htarget, rfl⟩ | ⟨w, rfl, rfl⟩ | ⟨ts', es,
        rfl, hes, rfl⟩
      · obtain ⟨used, rfl, hused⟩ := ihAtom htarget
        exact ⟨.word "as" :: used, rfl, hused.convertible⟩
      · exact ⟨[.word w], rfl, .name w⟩
      · obtain ⟨used, rfl, hused⟩ := ihExpr hes
        exact ⟨.opening :: (used ++ [.closing]), by simp, hused.group⟩

theorem Derives.readUnion (h : Derives .expr es ts) :
    readUnion (3 * ts.length + 3) ts = some (es, []) := by
  have hbudget : 3 * ts.length ≤ 3 * ts.length + 3 + Rule.expr.slack := by omega
  have hend : Rule.expr.StopsAt [] := ⟨rfl, by simp, by simp⟩
  have hread := h.read hend hbudget
  rwa [List.append_nil] at hread

/-- **No two derivations** of the same tokens. -/
theorem Derives.parts_eq {es' : List TypeExpr} (h : Derives .expr es ts)
    (h' : Derives .expr es' ts) : es = es' := by
  have heq := h.readUnion.symm.trans h'.readUnion
  cases heq
  rfl

/-- **Parsing** finds the tree of the derivation. -/
theorem ofTokens?_eq_some_iff : ofTokens? ts = some e ↔ ∃ es, Derives .expr es ts ∧
    e = ofUnion es := by
  constructor
  · intro h
    unfold ofTokens? at h
    split at h
    · rename_i es hes
      cases h
      have hread : Rule.expr.read (3 * ts.length + 3) ts = some (es, []) := hes
      obtain ⟨used, hts, hused⟩ := Rule.derives_of_read hread
      rw [List.append_nil] at hts
      exact ⟨es, hts ▸ hused, rfl⟩
    · cases h
  · rintro ⟨es, hes, rfl⟩
    rw [ofTokens?, hes.readUnion]

end TypeBounds.TypeExpr
