import TypeBounds.Proofs.Legible

/-!
# The tokens of a text

How a text falls into tokens, said without the scanner: gaps go, a sign stands for itself, and an
identifier is as long as it can be (`TypeExpr.Spells`). Main statement: `Token.scan_eq_some_iff`,
the scanner finds these tokens, and no others.
-/

namespace TypeBounds.TypeExpr

namespace Token

/-- The characters of a token. -/
def chars : Token → List Char
  | word w => w.toList
  | bar => ['|']
  | amp => ['&']
  | opening => ['(']
  | closing => [')']

/-- A token that can stand in a text. -/
def IsLexeme : Token → Prop
  | word w => IsIdentifier w
  | _ => True

/-- What follows an identifier does not belong to it. -/
def StopsAt : Token → List Char → Prop
  | word _, cs => ∀ c ∈ cs.head?, continuesWord c = false
  | _, _ => True

end Token

/-- **The tokens of a text.** There may be gaps between them. -/
inductive Spells : List Char → List Token → Prop where
  | nil : Spells [] []
  | gap {c : Char} {cs : List Char} {ts : List Token} (hc : Text.isGap c) (h : Spells cs ts) :
      Spells (c :: cs) ts
  | token {t : Token} {cs : List Char} {ts : List Token} (ht : t.IsLexeme) (hend : t.StopsAt cs)
      (h : Spells cs ts) : Spells (t.chars ++ cs) (t :: ts)

namespace Token

variable {c : Char} {cs letters : List Char} {sign : Token} {ts : List Token}

theorem continuesWord_of_startsWord (h : startsWord c) : continuesWord c := by
  simp [continuesWord, h]

theorem continuesWord_of_isGap (h : Text.isGap c) : continuesWord c = false := by
  simp only [Text.isGap, Bool.or_eq_true, decide_eq_true_eq] at h
  rcases h with (((h | h) | h) | h) | h <;> subst h <;> decide

theorem startsWord_eq_false (hc : continuesWord c = false) : startsWord c = false :=
  (Bool.or_eq_false_iff.1 hc).1

theorem token_of_ofSign? (h : ofSign? c = some sign) :
    sign.chars = [c] ∧ sign.IsLexeme ∧ sign.StopsAt cs := by
  unfold ofSign? at h
  split at h <;> cases h <;> exact ⟨rfl, trivial, trivial⟩

theorem plain_of_ofSign? (h : ofSign? c = some sign) :
    continuesWord c = false ∧ Text.isGap c = false := by
  unfold ofSign? at h
  split at h <;> cases h <;> decide

/-! What the scanner does with one more character. -/

theorem scanFrom_letter (hc : continuesWord c) (hne : letters ≠ []) :
    scanFrom letters (c :: cs) = scanFrom (letters ++ [c]) cs := by
  simp [scanFrom, hc, hne]

theorem scanFrom_first (hc : startsWord c) : scanFrom [] (c :: cs) = scanFrom [c] cs := by
  simp [scanFrom, hc]

theorem scanFrom_gap (hc : Text.isGap c) :
    scanFrom letters (c :: cs) = (scanFrom [] cs).map (ofWord letters ++ ·) := by
  have hword := continuesWord_of_isGap hc
  simp [scanFrom, hword, startsWord_eq_false hword, hc]

theorem scanFrom_sign (hc : ofSign? c = some sign) :
    scanFrom letters (c :: cs) = (scanFrom [] cs).map (ofWord letters ++ sign :: ·) := by
  obtain ⟨hword, hgap⟩ := plain_of_ofSign? hc
  simp [scanFrom, hword, startsWord_eq_false hword, hgap, hc]

/-- Letters are read one by one. -/
theorem scanFrom_append (hne : letters ≠ []) {more : List Char}
    (hmore : ∀ c ∈ more, continuesWord c) :
    scanFrom letters (more ++ cs) = scanFrom (letters ++ more) cs := by
  induction more generalizing letters with
  | nil => simp
  | cons c more ih =>
    obtain ⟨hc, hmore⟩ := List.forall_mem_cons.1 hmore
    have hne' : letters ++ [c] ≠ [] := List.append_ne_nil_of_right_ne_nil _ (List.cons_ne_nil _ _)
    rw [List.cons_append, scanFrom_letter hc hne, ih hne' hmore, List.append_assoc,
      List.singleton_append]

/-- Behind an identifier the scanner starts anew. -/
theorem scanFrom_stop (hend : ∀ c ∈ cs.head?, continuesWord c = false) :
    scanFrom letters cs = (scanFrom [] cs).map (ofWord letters ++ ·) := by
  cases cs with
  | nil => simp [scanFrom, ofWord]
  | cons c cs =>
    have hc : continuesWord c = false := hend c rfl
    have hc' := startsWord_eq_false hc
    by_cases hgap : Text.isGap c
    · rw [scanFrom_gap hgap, scanFrom_gap hgap]
      simp [ofWord]
    · cases hsign : ofSign? c with
      | none => simp [scanFrom, hc, hc', hgap, hsign]
      | some sign =>
        rw [scanFrom_sign hsign, scanFrom_sign hsign]
        simp [ofWord, Function.comp_def]

theorem scanFrom_chars {t : Token} (ht : t.IsLexeme) (hend : t.StopsAt cs) :
    scanFrom [] (t.chars ++ cs) = (scanFrom [] cs).map (t :: ·) := by
  cases t with
  | word w =>
    obtain ⟨c, letters, hw, hc, hletters⟩ := ht
    have hword : ofWord (c :: letters) = [word w] := by
      rw [ofWord, List.isEmpty_cons, if_neg Bool.false_ne_true, ← hw, String.ofList_toList]
    rw [chars, hw, List.cons_append, scanFrom_first hc,
      scanFrom_append (List.cons_ne_nil _ _) hletters, List.singleton_append,
      scanFrom_stop hend, hword]
    rfl
  | bar => exact scanFrom_sign rfl
  | amp => exact scanFrom_sign rfl
  | opening => exact scanFrom_sign rfl
  | closing => exact scanFrom_sign rfl

end Token

theorem Spells.scan {cs : List Char} {ts : List Token} (h : Spells cs ts) :
    Token.scan cs = some ts := by
  induction h with
  | nil => rfl
  | gap hc _ ih =>
    rw [Token.scan, Token.scanFrom_gap hc]
    exact congrArg _ ih
  | token ht hend _ ih =>
    rw [Token.scan, Token.scanFrom_chars ht hend]
    exact congrArg _ ih

namespace Token

variable {c : Char} {cs letters : List Char} {ts : List Token}

section

variable (hletters : letters ≠ [] → IsIdentifier (String.ofList letters))

include hletters

/-- The identifier read so far comes before the rest. -/
theorem spells_ofWord
    (hend : ∀ c ∈ cs.head?, continuesWord c = false) (h : Spells cs ts) :
    Spells (letters ++ cs) (ofWord letters ++ ts) := by
  cases letters with
  | nil => exact h
  | cons c letters =>
    have hword : Spells ((word (String.ofList (c :: letters))).chars ++ cs) _ :=
      .token (hletters (List.cons_ne_nil _ _)) hend h
    rwa [chars, String.toList_ofList] at hword

theorem isIdentifier_letter
    (hc : startsWord c || (continuesWord c && !letters.isEmpty)) :
    IsIdentifier (String.ofList (letters ++ [c])) := by
  cases letters with
  | nil => exact ⟨c, [], by simp, by simpa using hc, by simp⟩
  | cons d letters =>
    obtain ⟨d', letters', heq, hd, hrest⟩ := hletters (List.cons_ne_nil _ _)
    rw [String.toList_ofList] at heq
    cases heq
    refine ⟨d, letters ++ [c], by simp, hd, fun e he => ?_⟩
    rcases List.mem_append.1 he with he | he
    · exact hrest e he
    · rw [List.mem_singleton.1 he]
      rcases Bool.or_eq_true_iff.1 hc with hc | hc
      · exact continuesWord_of_startsWord hc
      · exact (Bool.and_eq_true_iff.1 hc).1

theorem spells_of_scanFrom
    (h : scanFrom letters cs = some ts) : Spells (letters ++ cs) ts := by
  induction cs generalizing letters ts with
  | nil =>
    cases h
    simpa using spells_ofWord hletters (by simp) .nil
  | cons c cs ih =>
    rw [scanFrom] at h
    split at h
    · rename_i hc
      have hspells := ih (fun _ => isIdentifier_letter hletters hc) h
      rwa [List.append_assoc] at hspells
    · -- an identifier, if one is being read, ends here
      split at h
      · rename_i hgap
        obtain ⟨rest, hrest, rfl⟩ := Option.map_eq_some_iff.1 h
        have hspells : Spells cs rest := ih (fun hne => absurd rfl hne) hrest
        refine spells_ofWord hletters (fun d hd => ?_) (.gap hgap hspells)
        cases hd
        exact continuesWord_of_isGap hgap
      · split at h
        · cases h
        · rename_i sign hsign
          obtain ⟨rest, hrest, rfl⟩ := Option.map_eq_some_iff.1 h
          have hspells : Spells cs rest := ih (fun hne => absurd rfl hne) hrest
          obtain ⟨hchars, hlexeme, hstops⟩ := token_of_ofSign? hsign
          refine spells_ofWord hletters (fun d hd => ?_) ?_
          · cases hd
            exact (plain_of_ofSign? hsign).1
          · have hcons : Spells (sign.chars ++ cs) (sign :: rest) := .token hlexeme hstops hspells
            rwa [hchars] at hcons

end

/-- **Scanning** finds the tokens of a text. -/
theorem scan_eq_some_iff : scan cs = some ts ↔ Spells cs ts :=
  ⟨spells_of_scanFrom fun h => absurd rfl h, Spells.scan⟩

end Token

end TypeBounds.TypeExpr
