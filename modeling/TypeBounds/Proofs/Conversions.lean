import Mathlib.Data.List.Find
import TypeBounds.Proofs.Fitting
import TypeBounds.Proofs.Nodes
import TypeBounds.Proofs.RoundTrip

/-!
# Tables of conversions

A table is a list of conversions, but no answer depends on the list as a whole: what counts is the
list of conversions from each source. Main statements:

* `Lattice.SameContent.perm`: tables of the same content hold the same conversions in some order, so
  they unroll the rules to the same depth and list their sources in the same order;
* `Lattice.implicit?_eq_some_iff`: which of the conversions that fit is found;
* `Lattice.subtypeWithin_mono`: a larger table, unrolled at least as deep, accepts at least as much.
-/

namespace TypeBounds

namespace Lattice

variable {l l' : Lattice} {r : Resolver} {sub sub' : Ty → Ty → Bool} {a b t : Ty} {c d : Conversion}

/-! ## What a table holds -/

/-- The table which was made of the conversions `given` and got the others one after another. -/
def grown (given added : List Conversion) : Lattice := added.foldl add ⟨given⟩

/-- Both tables know the same conversions from every source, in the same order. -/
def SameContent (l l' : Lattice) : Prop := ∀ name, l.named name = l'.named name

theorem conversions_grown (given added : List Conversion) :
    (grown given added).conversions = given ++ added := by
  unfold grown
  induction added generalizing given with
  | nil => simp
  | cons c added ih => simpa [add] using ih (given ++ [c])

/-- Lists with the same elements under every key, in the same order, are rearrangements. -/
theorem perm_of_filter_eq {α : Type} {key : α → String} {xs ys : List α}
    (h : ∀ k, xs.filter (key · = k) = ys.filter (key · = k)) : xs.Perm ys := by
  induction xs generalizing ys with
  | nil =>
    suffices hys : ys = [] by rw [hys]
    refine List.eq_nil_iff_forall_not_mem.2 fun y hy => ?_
    have hmem : y ∈ ys.filter (key · = key y) := List.mem_filter.2 ⟨hy, decide_eq_true rfl⟩
    rw [← h] at hmem
    cases hmem
  | cons x xs ih =>
    have hx : ys.filter (key · = key x) = x :: xs.filter (key · = key x) := by
      rw [← h, List.filter_cons_of_pos (by simp)]
    obtain ⟨before, after, rfl, hbefore, -, hafter⟩ := List.filter_eq_cons_iff.1 hx
    refine ((ih fun k => ?_).cons x).trans List.perm_middle.symm
    by_cases hk : key x = k
    · subst hk
      rw [List.filter_append, List.filter_eq_nil_iff.2 hbefore, hafter, List.nil_append]
    · simpa [hk] using h k

namespace SameContent

section

variable (h : l.SameContent l')

include h

theorem perm : l.conversions.Perm l'.conversions := perm_of_filter_eq h

theorem extent_eq : l.extent = l'.extent :=
  h.perm.foldr_eq' (fun _ _ _ _ _ => by omega) 0

theorem sources_eq : l.sources = l'.sources := by
  have hnames := h.perm.map fun c => c.source.name
  refine sortNames_eq_of_perm
    ((List.perm_ext_iff_of_nodup (nodup_eraseDups _) (nodup_eraseDups _)).2 fun name => ?_)
  rw [List.mem_eraseDups, List.mem_eraseDups, hnames.mem_iff]

theorem candidates_eq (sub : Ty → Ty → Bool) (t : Ty) :
    l.candidates sub t = l'.candidates sub t := by
  simp only [candidates, h.sources_eq, h _]

theorem bridge?_eq (sub : Ty → Ty → Bool) (a b : Ty) :
    l.bridge? sub a b = l'.bridge? sub a b := by
  refine bridge?_congr (f := id) (P := fun _ => True)
    (fun ms _ => ⟨by simp, fun m _ => ⟨trivial, rfl⟩⟩) (fun a _ hne => ⟨hne, ?_⟩) trivial
  rw [h.candidates_eq, id]

theorem subtypeWithin_eq (r : Resolver) (depth : Nat) :
    l.subtypeWithin r depth = l'.subtypeWithin r depth := by
  induction depth with
  | zero => rfl
  | succ depth ih =>
    funext a b
    simp only [subtypeWithin, ih, subtypeStep, isConvertible, explicits, h.bridge?_eq,
      h.candidates_eq]

/-- **Tables of the same content** answer every question about subtypes alike. -/
theorem isSubtype_eq : l.isSubtype = l'.isSubtype := by
  funext r a b
  rw [isSubtype, isSubtype, depth, depth, h.extent_eq, h.subtypeWithin_eq]

theorem implicit?_eq : l.implicit? = l'.implicit? := by
  funext r a b
  rw [implicit?, implicit?, h.isSubtype_eq, h.bridge?_eq]

theorem explicitFrom_eq : l.explicitFrom = l'.explicitFrom := by
  funext r t
  rw [explicitFrom, explicitFrom, h.isSubtype_eq, explicits, explicits, h.candidates_eq]

end

end SameContent

/-! ## Tables made of one another -/

/-- How a table is made: of conversions alone, or of the `i`-th table there is and one more
conversion. -/
inductive Making where
  | new (given : List Conversion)
  | extend (i : Nat) (c : Conversion)

/-- The tables there are after one more was made. Nothing is made of a table that is not there. -/
def make (tables : List Lattice) : Making → List Lattice
  | .new given => tables ++ [⟨given⟩]
  | .extend i c => tables ++ (tables[i]?.map fun l => l.add c).toList

theorem named_add (l : Lattice) (c : Conversion) (name : String) :
    (l.add c).named name = l.named name ++ [c].filter (·.source.name = name) :=
  List.filter_append ..

/-- Making tables does not touch those there are. -/
theorem foldl_make_of_getElem? {tables : List Lattice} {i : Nat} (h : tables[i]? = some l)
    (makings : List Making) : (makings.foldl make tables)[i]? = some l := by
  induction makings generalizing tables with
  | nil => exact h
  | cons m makings ih =>
    obtain ⟨hi, -⟩ := List.getElem?_eq_some_iff.1 h
    refine ih ?_
    cases m <;> rwa [make, List.getElem?_append_left hi]

/-! ## Which conversion is found -/

/-- The conversion leads from the one type to the other, and is made without being asked for. -/
def Links (l : Lattice) (r : Resolver) (a b : Ty) (c : Conversion) : Prop :=
  c.implicit ∧ l.isSubtype r a c.source ∧ l.isSubtype r c.target b

/-- **The order in which conversions are tried** for a type of the given name. A source of that very
name comes first, then the sources go by their names; from one source the conversion that has its
place further to the front of the table comes first. -/
def Precedes (name : String) (p q : Conversion × Nat) : Prop :=
  if p.1.source.name = q.1.source.name then p.2 < q.2
  else p.1.source.name = name ∨ q.1.source.name ≠ name ∧ p.1.source.name < q.1.source.name

/-- The conversions and their places, in the order in which they are tried for a type of that
name. -/
def ranked (l : Lattice) (name : String) : List (Conversion × Nat) :=
  (name :: l.sources.filter (· ≠ name)).flatMap fun source =>
    l.conversions.zipIdx.filter fun p => p.1.source.name = source

theorem not_precedes_of_precedes {name : String} {p q : Conversion × Nat} (h : Precedes name p q) :
    ¬Precedes name q p := by
  unfold Precedes at *
  by_cases heq : p.1.source.name = q.1.source.name
  · rw [if_pos heq] at h
    rw [if_pos heq.symm]
    omega
  · rw [if_neg heq] at h
    rw [if_neg (Ne.symm heq)]
    rintro (hq | ⟨hp, hqp⟩)
    · rcases h with hp | ⟨hne, -⟩
      · exact heq (hp.trans hq.symm)
      · exact hne hq
    · rcases h with hp' | ⟨-, hpq⟩
      · exact hp hp'
      · exact String.lt_asymm hpq hqp

theorem mem_sources {name : String} :
    name ∈ l.sources ↔ ∃ c ∈ l.conversions, c.source.name = name := by
  rw [sources, sortNames, mem_sortBy, List.mem_eraseDups, List.mem_map]

theorem mem_ranked {name : String} {p : Conversion × Nat} :
    p ∈ l.ranked name ↔ l.conversions[p.2]? = some p.1 := by
  simp only [ranked, List.mem_flatMap, List.mem_filter, List.mem_zipIdx_iff_getElem?,
    decide_eq_true_eq]
  constructor
  · rintro ⟨source, -, hp, -⟩
    exact hp
  · intro hp
    refine ⟨p.1.source.name, ?_, hp, rfl⟩
    by_cases hname : p.1.source.name = name
    · exact hname ▸ List.mem_cons_self ..
    · have hsource : p.1.source.name ∈ l.sources :=
        mem_sources.2 ⟨p.1, List.mem_of_getElem? hp, rfl⟩
      exact List.mem_cons_of_mem _ (List.mem_filter.2 ⟨hsource, decide_eq_true hname⟩)

theorem sources_pairwise (l : Lattice) : l.sources.Pairwise (· < ·) := by
  have hnodup : l.sources.Nodup := (sortBy_perm _ _).nodup_iff.2 (nodup_eraseDups _)
  refine ((sortNames_pairwise _).and hnodup).imp fun {x y} h => ?_
  obtain ⟨hle, hne⟩ := h
  by_contra hlt
  have hgt : compare x y = .gt := (if_neg hlt).trans (if_neg hne)
  simp [hgt] at hle

theorem ranked_pairwise (l : Lattice) (name : String) :
    (l.ranked name).Pairwise (Precedes name) := by
  have hplaces : l.conversions.zipIdx.Pairwise fun p q => p.2 < q.2 := by
    rw [← List.pairwise_map, List.zipIdx_map_snd]
    exact List.pairwise_lt_range'
  have hsource {source : String} {p : Conversion × Nat}
      (hp : p ∈ l.conversions.zipIdx.filter fun p => p.1.source.name = source) :
      p.1.source.name = source :=
    of_decide_eq_true (List.mem_filter.1 hp).2
  refine List.pairwise_flatMap.2 ⟨fun source _ => ?_,
    List.pairwise_cons.2 ⟨fun source hs p hp q hq => ?_, ?_⟩⟩
  · refine (hplaces.filter _).imp_of_mem fun {p q} hp hq h => ?_
    rwa [Precedes, if_pos ((hsource hp).trans (hsource hq).symm)]
  · have hne : source ≠ name := of_decide_eq_true (List.mem_filter.1 hs).2
    rw [Precedes, if_neg (by rw [hsource hp, hsource hq]; exact hne.symm)]
    exact .inl (hsource hp)
  · refine (l.sources_pairwise.filter _).imp_of_mem fun {x y} _ hy hlt p hp q hq => ?_
    have hne : y ≠ name := of_decide_eq_true (List.mem_filter.1 hy).2
    rw [Precedes, hsource hp, hsource hq, if_neg (String.ne_of_lt hlt)]
    exact .inr ⟨hne, hlt⟩

/-- The candidates are the conversions that accept the type, in the order in which they are
tried. -/
theorem candidates_eq_ranked (l : Lattice) (sub : Ty → Ty → Bool) (t : Ty) :
    l.candidates sub t = ((l.ranked t.name).filter fun p =>
      p.1.source.name = t.name || sub t p.1.source).map Prod.fst := by
  have hnamed (name : String) (q : Conversion → Bool) : (l.named name).filter q =
      ((l.conversions.zipIdx.filter fun p => p.1.source.name = name).filter fun p => q p.1).map
      Prod.fst := by
    rw [named]
    nth_rewrite 1 [← List.zipIdx_map_fst 0 l.conversions]
    rw [List.filter_map, List.filter_map]
    rfl
  rw [candidates, ranked, List.flatMap_cons, List.filter_append, List.map_append,
    List.filter_flatMap, List.map_flatMap]
  congr 1
  · rw [← List.filter_true (l.named t.name), hnamed]
    refine congrArg _ (List.filter_congr fun p hp => ?_)
    simp [of_decide_eq_true (List.mem_filter.1 hp).2]
  · refine List.flatMap_congr fun name hname => ?_
    have hne : name ≠ t.name := of_decide_eq_true (List.mem_filter.1 hname).2
    rw [hnamed]
    refine congrArg _ (List.filter_congr fun p hp => ?_)
    simp [of_decide_eq_true (List.mem_filter.1 hp).2, hne]

theorem mem_candidates_iff_or : c ∈ l.candidates sub t ↔
    c ∈ l.conversions ∧ (c.source.name = t.name ∨ sub t c.source) := by
  simp only [candidates_eq_ranked, List.mem_map, List.mem_filter, mem_ranked, Bool.or_eq_true,
    decide_eq_true_eq]
  constructor
  · rintro ⟨p, ⟨hp, hsource⟩, rfl⟩
    exact ⟨List.mem_of_getElem? hp, hsource⟩
  · rintro ⟨hc, hsource⟩
    obtain ⟨i, hi⟩ := List.mem_iff_getElem?.1 hc
    exact ⟨(c, i), ⟨hi, hsource⟩, rfl⟩

/-- Of an ordered list, a search finds the first element with the property. -/
theorem find?_eq_some_of_pairwise {α : Type} {R : α → α → Prop} {p : α → Bool} {x : α} {xs : List α}
    (hxs : xs.Pairwise R) (h : xs.find? p = some x) :
    x ∈ xs ∧ p x ∧ ∀ y ∈ xs, p y → y = x ∨ R x y := by
  refine ⟨List.mem_of_find?_eq_some h, List.find?_some h, fun y hy hpy => ?_⟩
  obtain ⟨-, before, after, rfl, hbefore⟩ := List.find?_eq_some_iff_append.1 h
  rcases List.mem_append.1 hy with hy | hy
  · simpa [hpy] using hbefore y hy
  · rcases List.mem_cons.1 hy with rfl | hy
    · exact .inl rfl
    · exact .inr (List.rel_of_pairwise_cons (List.pairwise_append.1 hxs).2.1 hy)

/-- The search as one over the whole table, in the order in which conversions are tried. -/
theorem implicit?_eq_find? (r : Resolver) (ha : ∀ ms, a ≠ .union ms) : l.implicit? r a b =
    ((l.ranked a.name).find? fun p => p.1.implicit && (l.isSubtype r a p.1.source &&
      l.isSubtype r p.1.target b)).map Prod.fst := by
  rw [implicit?, bridge?_eq_find? ha, candidates_eq_ranked, List.find?_map, List.find?_filter]
  refine congrArg _ (List.find?_congr fun p _ => ?_)
  by_cases hname : p.1.source.name = a.name
  · simp [hname, l.isSubtype_of_name_eq r hname.symm]
  · simp [hname, Bool.and_left_comm]

theorem links_iff : l.Links r a b c ↔
    (c.implicit && (l.isSubtype r a c.source && l.isSubtype r c.target b)) = true := by
  simp [Links]

theorem implicit?_isSome_iff (ha : ∀ ms, a ≠ .union ms) :
    (l.implicit? r a b).isSome ↔ ∃ c ∈ l.conversions, l.Links r a b c := by
  rw [implicit?_eq_find? r ha, Option.isSome_map, List.find?_isSome]
  constructor
  · rintro ⟨p, hp, hlinks⟩
    exact ⟨p.1, List.mem_of_getElem? (mem_ranked.1 hp), links_iff.2 hlinks⟩
  · rintro ⟨c, hc, hlinks⟩
    obtain ⟨i, hi⟩ := List.mem_iff_getElem?.1 hc
    exact ⟨(c, i), mem_ranked.2 hi, links_iff.1 hlinks⟩

/-- **The conversion that is found** comes before all the others that would do. -/
theorem implicit?_eq_some_iff (ha : ∀ ms, a ≠ .union ms) : l.implicit? r a b = some c ↔
    ∃ i, l.conversions[i]? = some c ∧ l.Links r a b c ∧
      ∀ j d, l.conversions[j]? = some d → l.Links r a b d → j = i ∨
        Precedes a.name (c, i) (d, j) := by
  have hfirst {c : Conversion} (h : l.implicit? r a b = some c) : ∃ i, l.conversions[i]? = some c ∧
      l.Links r a b c ∧ ∀ j d, l.conversions[j]? = some d → l.Links r a b d → j = i ∨
      Precedes a.name (c, i) (d, j) := by
    rw [implicit?_eq_find? r ha] at h
    obtain ⟨p, hfind, rfl⟩ := Option.map_eq_some_iff.1 h
    obtain ⟨hp, hlinks, hbest⟩ := find?_eq_some_of_pairwise (l.ranked_pairwise a.name) hfind
    refine ⟨p.2, mem_ranked.1 hp, links_iff.2 hlinks, fun j d hj hd => ?_⟩
    exact (hbest (d, j) (mem_ranked.2 hj) (links_iff.1 hd)).imp_left fun h => congrArg Prod.snd h
  refine ⟨hfirst, fun ⟨i, hi, hlinks, hbest⟩ => ?_⟩
  obtain ⟨c', hc'⟩ :=
    Option.isSome_iff_exists.1 ((implicit?_isSome_iff ha).2 ⟨c, List.mem_of_getElem? hi, hlinks⟩)
  obtain ⟨i', hi', hlinks', hbest'⟩ := hfirst hc'
  -- two conversions that each come before all the others have the same place
  have hplace : i' = i := by
    rcases hbest i' c' hi' hlinks' with h | h
    · exact h
    · rcases hbest' i c hi hlinks with h' | h'
      · exact h'.symm
      · exact absurd h' (not_precedes_of_precedes h)
  subst hplace
  rwa [← Option.some_inj.1 (hi'.symm.trans hi)]

/-! ## Larger tables -/

section

variable (hl : ∀ c ∈ l.conversions, c ∈ l'.conversions)

include hl

theorem isConvertible_mono (hsub : ∀ a b, sub a b → sub' a b)
    (ha : ∀ ms, a ≠ .union ms) (h : l.isConvertible sub a b) : l'.isConvertible sub' a b := by
  obtain ⟨c, hc, htarget⟩ := (isConvertible_iff ha).1 h
  obtain ⟨hmem, hsource⟩ := mem_candidates_iff_or.1 hc
  exact (isConvertible_iff ha).2
    ⟨c, mem_candidates_iff_or.2 ⟨hl c hmem, hsource.imp_right (hsub a c.source)⟩,
      hsub c.target b htarget⟩

/-- One step of the rules. A search for conversions takes its last answer from a union, and with a
larger table that may be no answer at all; but unions on the left are taken apart before conversions
are asked for. -/
theorem subtypeStep_mono (hsub : ∀ a b, sub a b → sub' a b) :
    l.subtypeStep r sub a b → l'.subtypeStep r sub' a b := by
  have hor {a t : Ty} (ha : ∀ ms, a ≠ .union ms) :
      (sub a t || l.isConvertible sub a t) → (sub' a t || l'.isConvertible sub' a t) := by
    rw [Bool.or_eq_true, Bool.or_eq_true]
    exact Or.imp (hsub a t) (isConvertible_mono hl hsub ha)
  rw [subtypeStep.eq_def, subtypeStep.eq_def]
  by_cases hname : a.name = b.name
  · rw [if_pos hname, if_pos hname]
    exact id
  rw [if_neg hname, if_neg hname]
  split
  · exact id
  · exact fun h => List.all_eq_true.2 fun m hm => hsub _ _ (List.all_eq_true.1 h m hm)
  · exact fun h => List.all_eq_true.2 fun m hm => hsub _ _ (List.all_eq_true.1 h m hm)
  · exact fun h =>
      (Option.any_eq_true _ _).2
        (((Option.any_eq_true _ _).1 h).imp fun t ht => ht.imp_right (hsub t _))
  · exact hsub _ _
  · intro h
    obtain ⟨m, hm, hsm⟩ := List.any_eq_true.1 h
    exact List.any_eq_true.2 ⟨m, hm, hsub _ _ hsm⟩
  · rename_i hne _ _
    intro h
    obtain ⟨t, ht, hat⟩ := (Option.any_eq_true _ _).1 h
    exact (Option.any_eq_true _ _).2 ⟨t, ht, hor hne hat⟩
  · rename_i hne _ _
    exact hor hne
  · intro h
    obtain ⟨m, hm, hsm⟩ := List.any_eq_true.1 h
    exact List.any_eq_true.2 ⟨m, hm, hsub _ _ hsm⟩
  · exact id

/-- **A larger table**, unrolled at least as deep, accepts at least as much. -/
theorem subtypeWithin_mono {depth depth' : Nat}
    (hdepth : depth ≤ depth') (h : l.subtypeWithin r depth a b) :
    l'.subtypeWithin r depth' a b := by
  induction depth generalizing depth' a b with
  | zero => cases h
  | succ depth ih =>
    obtain ⟨depth', rfl⟩ := Nat.exists_eq_add_of_le' (show 1 ≤ depth' by omega)
    exact subtypeStep_mono hl (fun a b => ih (by omega)) h

end

theorem extent_le_add (l : Lattice) (c : Conversion) : l.extent ≤ (l.add c).extent := by
  unfold extent add
  induction l.conversions with
  | nil => exact Nat.zero_le _
  | cons d ds ih => simpa using ih

theorem depth_le_add (l : Lattice) (c : Conversion) (r : Resolver) (a b : Ty) :
    l.depth r a b ≤ (l.add c).depth r a b := by
  rw [depth_eq, depth_eq]
  have hsize := Nat.add_le_add_left (l.extent_le_add c) (a.size + b.size + r.extent)
  exact Nat.succ_le_succ (Nat.mul_le_mul hsize hsize)

/-! ## Main statements -/

/-- **A table answers by its content.** However the conversions are split between those given at
once and those added later, tables with the same conversions from every source answer every question
alike. A table that another one is made of stays what it is, whatever is made later; the other one
knows the same from every source, and after that the conversion that was added. And from a type that
is no union a conversion is found if and only if there is one that leads to the target: the one that
is tried first. -/
theorem answers_by_content :
    (∀ given added given' added' : List Conversion,
      (∀ name, (given ++ added).filter (·.source.name = name) =
        (given' ++ added').filter (·.source.name = name)) →
      (grown given added).isSubtype = (grown given' added').isSubtype ∧
        (grown given added).implicit? = (grown given' added').implicit? ∧
        (grown given added).explicitFrom = (grown given' added').explicitFrom) ∧
    (∀ (before later : List Making) (i : Nat) (l : Lattice) (c : Conversion),
      (before.foldl make [])[i]? = some l →
      let tables := (before ++ .extend i c :: later).foldl make []
      tables[i]? = some l ∧ tables[(before.foldl make []).length]? = some (l.add c) ∧
        ∀ name, (l.add c).named name = l.named name ++ [c].filter (·.source.name = name)) ∧
    ∀ (l : Lattice) (r : Resolver) (a b : Ty), (∀ ms, a ≠ .union ms) →
      ((l.implicit? r a b).isSome ↔ ∃ c ∈ l.conversions, l.Links r a b c) ∧
        ∀ c, l.implicit? r a b = some c ↔ ∃ i, l.conversions[i]? = some c ∧ l.Links r a b c ∧
          ∀ j d, l.conversions[j]? = some d → l.Links r a b d → j = i ∨
            Precedes a.name (c, i) (d, j) := by
  refine ⟨fun given added given' added' h => ?_, fun before later i l c hi => ?_,
    fun l r a b ha => ?_⟩
  · have hsame : (grown given added).SameContent (grown given' added') := by
      intro name
      rw [named, named, conversions_grown, conversions_grown]
      exact h name
    exact ⟨hsame.isSubtype_eq, hsame.implicit?_eq, hsame.explicitFrom_eq⟩
  · intro tables
    have htables : tables = later.foldl make (before.foldl make [] ++ [l.add c]) := by
      simp only [tables, List.foldl_append, List.foldl_cons, make, hi, Option.map_some,
        Option.toList_some]
    obtain ⟨hlt, -⟩ := List.getElem?_eq_some_iff.1 hi
    rw [htables]
    exact ⟨foldl_make_of_getElem? (by rwa [List.getElem?_append_left hlt]) later,
      foldl_make_of_getElem? List.getElem?_concat_length later, l.named_add c⟩
  · exact ⟨implicit?_isSome_iff ha, fun c => implicit?_eq_some_iff ha⟩

def whole : Ty := .nominal "int" .primitive true []

def decimal : Ty := .nominal "float" .primitive true []

def written : Ty := .nominal "string" .primitive true []

def widen : Conversion := ⟨whole, decimal, true, "widen"⟩

def print : Conversion := ⟨whole, written, true, "print"⟩

def format : Conversion := ⟨decimal, written, true, "format"⟩

theorem answers_by_content_shuffled :
    let l := grown [widen, format] [print]
    let l' := grown [format] [widen, print]
    l.isSubtype = l'.isSubtype ∧ l.implicit? = l'.implicit? ∧ l.explicitFrom = l'.explicitFrom ∧
      ([.new [widen], .extend 0 format, .extend 0 print].foldl make [])[0]? = some ⟨[widen]⟩ ∧
      (add ⟨[widen]⟩ format).named whole.name = named ⟨[widen]⟩ whole.name ∧
      (l.implicit? .none whole written).map (·.provider) = some "print" ∧
      ∃ c ∈ l.conversions, l.Links .none whole written c := by
  intro l l'
  obtain ⟨hsame, hkept, hfound⟩ := answers_by_content
  obtain ⟨hsub, himplicit, hexplicit⟩ :=
    hsame [widen, format] [print] [format] [widen, print] fun name => by
    by_cases hname : decimal.name = name
    · have hne : ¬whole.name = name := fun h => absurd (h.trans hname.symm) (by decide)
      simp [widen, format, print, hname, hne]
    · simp [widen, format, print, List.filter_cons, hname]
  obtain ⟨hold, -, hnamed⟩ := hkept [.new [widen]] [.extend 0 print] 0 ⟨[widen]⟩ format rfl
  exact ⟨hsub, himplicit, hexplicit, hold, (hnamed whole.name).trans (List.append_nil _),
    by decide +kernel, (hfound l .none whole written fun _ h => by cases h).1.1 (by decide +kernel)⟩

/-- **Another conversion takes no subtype away**, whatever the types and whatever open convertibles
stand for. -/
theorem isSubtype_add (c : Conversion) (h : l.isSubtype r a b) : (l.add c).isSubtype r a b :=
  subtypeWithin_mono (fun _ hc => List.mem_append_left _ hc) (l.depth_le_add c r a b) h

theorem isSubtype_add_widen :
    let l : Lattice := ⟨[print, format]⟩
    let number := Ty.union (Members.ofTypes [whole, decimal])
    l.isSubtype .none number (.asType written) ∧
      (l.add widen).isSubtype .none number (.asType written) := by
  intro l number
  have h : l.isSubtype .none number (.asType written) := by decide +kernel
  exact ⟨h, isSubtype_add widen h⟩

end Lattice

end TypeBounds
