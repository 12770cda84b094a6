import Mathlib.Data.List.Nodup
import TypeBounds.Ty.Basic

/-!
# Names can be read back

A type is identified by its name, so equal names have to mean equal structure. The name of a union
or an intersection of several members is its members' names between parentheses, with blanks around
the signs; what keeps the names inside apart is that a blank outside of parentheses ends a name. So
a name is a **phrase**: reading up to the first blank or closing parenthesis outside of parentheses
takes in all of it and nothing more (`IsPhrase`). Main statement: `joinNames_inj`, the keys of a
container can be read off its name.
-/

namespace TypeBounds

/-- Reads up to the first blank or closing parenthesis outside of parentheses. -/
def readPhrase : Nat → List Char → List Char
  | _, [] => []
  | depth, '(' :: cs => '(' :: readPhrase (depth + 1) cs
  | 0, ')' :: _ => []
  | depth + 1, ')' :: cs => ')' :: readPhrase depth cs
  | 0, ' ' :: _ => []
  | depth, c :: cs => c :: readPhrase depth cs

/-- Wherever the text stands, reading goes through it to what follows. -/
def IsPhrase (text : List Char) : Prop :=
  ∀ depth rest, readPhrase depth (text ++ rest) = text ++ readPhrase depth rest

/-- Neither a blank nor a parenthesis. -/
def isPlainChar (c : Char) : Bool := c ≠ ' ' && c ≠ '(' && c ≠ ')'

theorem readPhrase_cons {c : Char} (h : isPlainChar c) (depth : Nat) (cs : List Char) :
    readPhrase depth (c :: cs) = c :: readPhrase depth cs := by
  simp only [isPlainChar, Bool.and_eq_true, decide_eq_true_eq] at h
  rw [readPhrase.eq_def]
  split <;> simp_all

theorem isPhrase_of_plain {text : List Char} (h : ∀ c ∈ text, isPlainChar c) : IsPhrase text := by
  intro depth rest
  induction text with
  | nil => rfl
  | cons c text ih =>
    rw [List.cons_append, readPhrase_cons (h c (List.mem_cons_self ..)),
      ih fun d hd => h d (List.mem_cons_of_mem _ hd)]
    rfl

/-- The sign between two members, with its blanks. -/
def signed (sign : Char) : List Char := [' ', sign, ' ']

/-- Inside of parentheses, reading goes through phrases and signs. -/
theorem readPhrase_intercalate {sign : Char} (hsign : isPlainChar sign) {texts : List (List Char)}
    (h : ∀ t ∈ texts, IsPhrase t) (depth : Nat) (rest : List Char) :
    readPhrase (depth + 1) ((signed sign).intercalate texts ++ rest) =
      (signed sign).intercalate texts ++ readPhrase (depth + 1) rest := by
  induction texts with
  | nil => rfl
  | cons t texts ih =>
    have ht : IsPhrase t := h t (List.mem_cons_self ..)
    have ih := ih fun u hu => h u (List.mem_cons_of_mem _ hu)
    cases texts with
    | nil => simpa using ht (depth + 1) rest
    | cons u texts =>
      have hsigned (cs : List Char) :
          readPhrase (depth + 1) (signed sign ++ cs) =
          signed sign ++ readPhrase (depth + 1) cs := by
        simp [signed, readPhrase, readPhrase_cons hsign]
      simp only [List.intercalate_cons_cons, List.append_assoc] at ih ⊢
      rw [ht, hsigned, ih]

theorem IsPhrase.group {sign : Char} (hsign : isPlainChar sign) {texts : List (List Char)}
    (h : ∀ t ∈ texts, IsPhrase t) :
    IsPhrase ('(' :: ((signed sign).intercalate texts ++ [')'])) := by
  intro depth rest
  have hinner := readPhrase_intercalate hsign h depth (')' :: rest)
  simp only [List.cons_append, List.append_assoc, List.nil_append, readPhrase] at hinner ⊢
  rw [hinner]

/-- Two phrases with nothing readable behind them can be told from what follows. -/
theorem IsPhrase.append_inj {text text' rest rest' : List Char} (h : IsPhrase text)
    (h' : IsPhrase text') (hrest : readPhrase 0 rest = []) (hrest' : readPhrase 0 rest' = [])
    (heq : text ++ rest = text' ++ rest') : text = text' ∧ rest = rest' := by
  have hread := congrArg (readPhrase 0) heq
  rw [h, h', hrest, hrest', List.append_nil, List.append_nil] at hread
  subst hread
  exact ⟨rfl, List.append_cancel_left heq⟩

/-- **Reading back** what was put between parentheses, and the sign if there is one. -/
theorem intercalate_inj {sign sign' : Char} {t t' : List Char} {ts ts' : List (List Char)}
    (h : ∀ x ∈ t :: ts, IsPhrase x) (h' : ∀ x ∈ t' :: ts', IsPhrase x)
    (heq : (signed sign).intercalate (t :: ts) ++ [')'] =
      (signed sign').intercalate (t' :: ts') ++ [')']) :
    t :: ts = t' :: ts' ∧ (ts ≠ [] → sign = sign') := by
  have hstop (sign : Char) (cs : List Char) : readPhrase 0 (signed sign ++ cs) = [] := rfl
  have ht : IsPhrase t := h t (List.mem_cons_self ..)
  have ht' : IsPhrase t' := h' t' (List.mem_cons_self ..)
  induction ts generalizing t t' ts' with
  | nil =>
    cases ts' with
    | nil =>
      simp only [List.intercalate_singleton] at heq
      obtain ⟨rfl, -⟩ := ht.append_inj ht' rfl rfl heq
      exact ⟨rfl, fun hne => absurd rfl hne⟩
    | cons u' ts' =>
      simp only [List.intercalate_singleton, List.intercalate_cons_cons, List.append_assoc] at heq
      obtain ⟨-, hrest⟩ := ht.append_inj ht' rfl (hstop _ _) heq
      cases hrest
  | cons u ts ih =>
    cases ts' with
    | nil =>
      simp only [List.intercalate_singleton, List.intercalate_cons_cons, List.append_assoc] at heq
      obtain ⟨-, hrest⟩ := ht.append_inj ht' (hstop _ _) rfl heq
      cases hrest
    | cons u' ts' =>
      simp only [List.intercalate_cons_cons, List.append_assoc] at heq
      obtain ⟨rfl, hrest⟩ := ht.append_inj ht' (hstop _ _) (hstop _ _) heq
      obtain ⟨rfl, hrest⟩ : sign = sign' ∧ (signed sign).intercalate (u :: ts) ++ [')'] =
          (signed sign').intercalate (u' :: ts') ++ [')'] := by
        simpa [signed] using hrest
      have hus : ∀ x ∈ u :: ts, IsPhrase x := fun x hx => h x (List.mem_cons_of_mem _ hx)
      have hus' : ∀ x ∈ u' :: ts', IsPhrase x := fun x hx => h' x (List.mem_cons_of_mem _ hx)
      obtain ⟨hlist, -⟩ := ih hus hus' hrest (hus u (List.mem_cons_self ..))
        (hus' u' (List.mem_cons_self ..))
      exact ⟨by rw [hlist], fun _ => rfl⟩

/-! ## Names of containers -/

/-- The name of a container of several members. -/
theorem toList_joinNames {sign : Char} {separator empty : String}
    (hsep : separator.toList = signed sign) {keys : List String} (hkeys : 2 ≤ keys.length) :
    (joinNames separator empty keys).toList =
      '(' :: ((signed sign).intercalate ((sortNames keys).map String.toList) ++ [')']) := by
  match keys, hkeys with
  | a :: b :: keys, _ =>
    simp [joinNames, String.toList_append, String.toList_intercalate, hsep]

theorem length_le_length_intercalate {sep t : List Char} {ts : List (List Char)} (ht : t ∈ ts) :
    t.length ≤ (sep.intercalate ts).length := by
  induction ts with
  | nil => cases ht
  | cons a ts ih =>
    cases ts with
    | nil =>
      obtain rfl := List.mem_singleton.1 ht
      simp
    | cons b ts =>
      rw [List.intercalate_cons_cons, List.length_append, List.length_append]
      rcases List.mem_cons.1 ht with rfl | ht
      · omega
      · have := ih ht
        omega

/-- The name of a container of several members is longer than its keys. -/
theorem length_lt_joinNames {sign : Char} {separator empty : String}
    (hsep : separator.toList = signed sign) {keys : List String}
    (hkeys : 2 ≤ keys.length) {k : String} (hk : k ∈ keys) :
    k.toList.length < (joinNames separator empty keys).toList.length := by
  have hmem : k.toList ∈ (sortNames keys).map String.toList := List.mem_map_of_mem (mem_sortBy.2 hk)
  have hlength :
      k.toList.length ≤ ((signed sign).intercalate ((sortNames keys).map String.toList)).length :=
    length_le_length_intercalate hmem
  rw [toList_joinNames hsep hkeys, List.length_cons, List.length_append]
  omega

theorem isPhrase_joinNames {sign : Char} {separator empty : String} (hsign : isPlainChar sign)
    (hsep : separator.toList = signed sign) (hempty : IsPhrase empty.toList) {keys : List String}
    (hkeys : ∀ k ∈ keys, IsPhrase k.toList) : IsPhrase (joinNames separator empty keys).toList := by
  match keys with
  | [] => exact hempty
  | [key] => exact hkeys key (List.mem_cons_self ..)
  | a :: b :: keys =>
    rw [toList_joinNames hsep (by simp)]
    refine IsPhrase.group hsign fun t ht => ?_
    obtain ⟨k, hk, rfl⟩ := List.mem_map.1 ht
    exact hkeys k (mem_sortBy.1 hk)

/-- **The keys of a container** of several members can be read off its name, and so can its kind. -/
theorem joinNames_inj {sign sign' : Char} {separator separator' empty empty' : String}
    (hsep : separator.toList = signed sign) (hsep' : separator'.toList = signed sign')
    {keys keys' : List String} (hlen : 2 ≤ keys.length) (hlen' : 2 ≤ keys'.length)
    (hkeys : ∀ k ∈ keys, IsPhrase k.toList) (hkeys' : ∀ k ∈ keys', IsPhrase k.toList)
    (heq : joinNames separator empty keys = joinNames separator' empty' keys') :
    sign = sign' ∧ keys.Perm keys' := by
  have hchars := congrArg String.toList heq
  rw [toList_joinNames hsep hlen, toList_joinNames hsep' hlen'] at hchars
  have hchars := (List.cons.inj hchars).2
  have hsorted {keys : List String} (hlen : 2 ≤ keys.length) :
      ∃ t u ts, (sortNames keys).map String.toList = t :: u :: ts := by
    have hlength : 2 ≤ ((sortNames keys).map String.toList).length := by
      rw [List.length_map]
      exact (length_sortBy _ keys).symm ▸ hlen
    match (sortNames keys).map String.toList, hlength with
    | t :: u :: ts, _ => exact ⟨t, u, ts, rfl⟩
  have hphrase {keys : List String} (hkeys : ∀ k ∈ keys, IsPhrase k.toList) :
      ∀ x ∈ (sortNames keys).map String.toList, IsPhrase x := by
    intro x hx
    obtain ⟨k, hk, rfl⟩ := List.mem_map.1 hx
    exact hkeys k (mem_sortBy.1 hk)
  have hp := hphrase hkeys
  have hp' := hphrase hkeys'
  obtain ⟨t, u, ts, hts⟩ := hsorted hlen
  obtain ⟨t', u', ts', hts'⟩ := hsorted hlen'
  rw [hts] at hp hchars
  rw [hts'] at hp' hchars
  obtain ⟨hlist, hsign⟩ := intercalate_inj hp hp' hchars
  rw [← hts, ← hts'] at hlist
  have hsame : sortNames keys = sortNames keys' :=
    List.map_injective_iff.2 (fun _ _ => String.toList_inj.1) hlist
  have hperm : (sortNames keys).Perm keys' := hsame ▸ sortBy_perm _ keys'
  exact ⟨hsign (List.cons_ne_nil _ _), (sortBy_perm _ keys).symm.trans hperm⟩

end TypeBounds
