import TypeBounds.Proofs.Steady

/-!
# New members of steady bounds

A graph that holds nothing but what is given weighs a new member against the opposite bound, and
after an insertion it looks again at the bounds that depend on the variable. For steady calls both
come down to one question, whether the lower members fit under the upper ones (`Lattice.Fits`):

* `checkUpper_iff`, `checkLower_iff`, `recheck_iff`: the checks, by way of `Within.fitsUpper_iff`;
* `Within.inserts`: the graph knows what a new member takes the place of;
* `Graph.Agrees`, `member_inv` and `member_runs`: one member, which is refused only if something
  speaks against it.
-/

namespace TypeBounds

open Infer Relation

section

variable {u : Universe} {l : Lattice} {tag : Nat} {calls : List Call} {g g' : Graph} {side : Side}
  {id x y : VarId} {e m p q t : Ty} {s s' : Progress} {nested : Side → VarId → Ty → Infer Unit}
  {V V' : String → Ty → Prop}

/-! ## The checks -/

/-- A loop whose steps change nothing succeeds if every step does. -/
theorem forM_iff {α : Type} {f : α → Infer PUnit} {xs : List α}
    (hf : ∀ a ∈ xs, ∀ s', f a s = (.ok (), s') → s' = s) :
    xs.forM f s = (.ok (), s') ↔ s' = s ∧ ∀ a ∈ xs, f a s = (.ok (), s) := by
  constructor
  · intro h
    induction xs with
    | nil =>
      obtain ⟨-, rfl⟩ := pure_eq_ok.1 h
      exact ⟨rfl, fun a ha => (List.not_mem_nil ha).elim⟩
    | cons a xs ih =>
      replace h : (f a >>= fun _ => xs.forM f) s = (.ok (), s') := h
      obtain ⟨_, s₁, ha, hxs⟩ := bind_eq_ok.1 h
      obtain rfl := hf a (List.mem_cons_self ..) s₁ ha
      obtain ⟨hs', hrest⟩ := ih (fun a ha => hf a (List.mem_cons_of_mem _ ha)) hxs
      exact ⟨hs', List.forall_mem_cons.2 ⟨ha, hrest⟩⟩
  · rintro ⟨rfl, h⟩
    exact forM_pure h

/-- A check changes nothing, and it succeeds if its condition holds. -/
theorem ite_pure_iff {α : Type} {c : Prop} [Decidable c] {a r : α} {otherwise : Infer α}
    (hfails : ¬c → ∃ e, otherwise = fail e) :
    (if c then pure a else otherwise) s = (.ok r, s') ↔ (r = a ∧ s' = s) ∧ c := by
  split
  · rename_i hc
    rw [pure_eq_ok, eq_comm, eq_comm (a := s), iff_self_and]
    exact fun _ => hc
  · rename_i hc
    obtain ⟨e, rfl⟩ := hfails hc
    refine iff_of_false (fun herror => ?_) fun hok => hc hok.2
    cases herror

namespace Graph.Within

theorem checkableUpper_eq (h : g.Within l tag calls) (x : VarId) :
    g.checkableUpper x = (g.boundsOf x).upper.filter fun m => !g.isUnresolved m.2 :=
  (h.keyed .upper x).ofTypes_filter fun e => !g.isUnresolved e

theorem mem_checkableUpper (h : g.Within l tag calls) :
    q ∈ Members.types (g.checkableUpper x) ↔ q ∈ g.has .upper x ∧ g.isUnresolved q = false := by
  rw [h.checkableUpper_eq, Members.types_filter (f := fun e => !g.isUnresolved e), List.mem_filter,
    Bool.not_eq_true']
  rfl

end Graph.Within

section

variable (hs : Regular u l tag calls)

include hs

namespace Graph.Within

section

variable (h : g.Within l tag calls) (hp : Given calls .lower x p)

include h hp

/-- Nothing is asked of the convertibles that stand for nothing. -/
theorem fits_of_isUnresolved (hq : Given calls .upper x q)
    (hres : g.isUnresolved p ∨ g.isUnresolved q) : l.Fits g.Settles p q := by
  refine .inr fun e he a _ => ?_
  rcases hres with hres | hres
  · exact absurd he ((h.read hs hp).not_standsFor hs.legible.toSound hres)
  · exact .inl fun f hf => absurd hf ((h.read hs hq).not_standsFor hs.legible.toSound hres)

theorem isSubtype_iff_fits (hq : Given calls .upper x q) (hq' : g.isUnresolved q = false) :
    g.isUnresolved p ∨ g.isSubtype p q ↔ l.Fits g.Settles p q := by
  cases hres : g.isUnresolved p with
  | true => exact iff_of_true (.inl rfl) (h.fits_of_isUnresolved hs hp hq (.inl hres))
  | false =>
    have hl : u.Converts g.lattice := h.lattice ▸ hs.converts
    have hiff := TypeBounds.isSubtype_iff_fits hs.legible hl (h.read hs hp) (h.read hs hq) hres hq'
    rw [h.lattice] at hiff
    rw [hiff]
    exact or_iff_right Bool.false_ne_true

/-- **A lower member against the whole upper bound.** -/
theorem fitsUpper_iff :
    (g.isUnresolved p ∨ (g.checkableUpper x).isEmpty) ∨
      g.isSubtype p (.inter (g.checkableUpper x)) ↔
      ∀ q ∈ g.has .upper x, l.Fits g.Settles p q := by
  have hgiven {q : Ty} (hq : q ∈ g.has .upper x) : Given calls .upper x q :=
    (h.given .upper x q hq).1
  -- the check leaves out what stands for nothing, and everything fits under that
  have hcheckable : (∀ q ∈ g.has .upper x, l.Fits g.Settles p q) ↔
      ∀ q ∈ Members.types (g.checkableUpper x), l.Fits g.Settles p q := by
    simp only [h.mem_checkableUpper, and_imp]
    refine forall₂_congr fun q hq => ⟨fun hfits _ => hfits, fun hfits => ?_⟩
    cases hres : g.isUnresolved q with
    | true => exact h.fits_of_isUnresolved hs hp (hgiven hq) (.inr hres)
    | false => exact hfits hres
  cases hres : g.isUnresolved p with
  | true =>
    exact iff_of_true (.inl (.inl rfl)) fun q hq =>
      h.fits_of_isUnresolved hs hp (hgiven hq) (.inl hres)
  | false =>
    rw [hcheckable]
    cases hempty : (g.checkableUpper x).isEmpty with
    | true =>
      refine iff_of_true (.inl (.inr rfl)) ?_
      rw [List.isEmpty_iff.1 hempty]
      exact fun q hq => (List.not_mem_nil hq).elim
    | false =>
      have hkeyed : (g.checkableUpper x).Keyed := by
        rw [h.checkableUpper_eq]
        exact (h.keyed .upper x).filter fun e => !g.isUnresolved e
      -- a convertible in a bound stands alone there, so it also does in what is left of the bound
      have hms : (∀ q ∈ Members.types (g.checkableUpper x), Plain u q) ∨
          ∃ q : Ty, Members.types (g.checkableUpper x) = [q] := by
        refine (h.uniform hs.toSteady .upper x).imp (fun hplain q hq => ?_) ?_
        · exact hplain q (h.mem_checkableUpper.1 hq).1
        · rintro ⟨var, hopen⟩
          have heq {q : Ty} (hq : q ∈ Members.types (g.checkableUpper x)) :
              q = .asVar none tag var :=
            hopen q (h.mem_checkableUpper.1 hq).1
          have hne : g.checkableUpper x ≠ [] := by
            intro hnil
            rw [hnil] at hempty
            cases hempty
          obtain ⟨k, q, hms⟩ :=
            hkeyed.eq_singleton hne fun e he f hf => (heq he).trans (heq hf).symm
          exact ⟨q, by rw [hms]; rfl⟩
      have hl : u.Converts g.lattice := h.lattice ▸ hs.converts
      have hiff :=
        isSubtype_inter_iff_fits hs.legible hl (h.read hs hp) hres hkeyed hms fun q hq => by
        obtain ⟨hq, hq'⟩ := h.mem_checkableUpper.1 hq
        exact ⟨h.read hs (hgiven hq), hq'⟩
      rw [h.lattice] at hiff
      rw [hiff, or_iff_right]
      simp

/-- What does not fit is not converted without being asked for. -/
theorem implicit?_eq_none {qs : List Ty}
    (hfits : ¬∀ q ∈ qs, l.Fits g.Settles p q) (t : Ty) : g.implicit? p t = none := by
  obtain ⟨q, hfits⟩ := not_forall.1 hfits
  obtain ⟨-, hfits⟩ := Classical.not_imp.1 hfits
  have hres : g.isUnresolved p = false := by
    refine Bool.eq_false_iff.2 fun hres => hfits (.inr fun e he => ?_)
    exact absurd he ((h.read hs hp).not_standsFor hs.legible.toSound hres)
  have hl : u.Converts g.lattice := h.lattice ▸ hs.converts
  refine (h.read hs hp).implicit?_eq_none hs.legible hl hres ?_
  obtain ⟨e, hfits⟩ := not_forall.1 (not_or.1 hfits).2
  obtain ⟨he, hfits⟩ := Classical.not_imp.1 hfits
  obtain ⟨a, hfits⟩ := not_forall.1 hfits
  obtain ⟨ha, -⟩ := Classical.not_imp.1 hfits
  refine ⟨e, he, a, ha, ?_⟩
  rw [h.lattice]
  exact hs.quiet x p hp e (he.mono fun _ _ => h.givenPlain) a ha

end

end Graph.Within

/-- **A new lower member** passes the check if it fits under all of the upper bound. -/
theorem checkUpper_iff (h : s.graph.Within l tag calls)
    (hm : Given calls .lower id m) {narrow : VarId → Ty → Infer Unit} :
    checkUpper narrow id m s = (.ok (), s') ↔
      s' = s ∧ ∀ q ∈ s.graph.has .upper id, l.Fits s.graph.Settles m q := by
  have hiff := h.fitsUpper_iff hs hm
  rw [← Bool.or_eq_true, ← Bool.or_eq_true] at hiff
  rw [checkUpper, graph_bind_apply]
  refine (ite_pure_iff fun hcheck => ?_).trans ?_
  · rw [h.implicit?_eq_none hs hm (hiff.not.1 hcheck)]
    exact ⟨_, rfl⟩
  · rw [hiff, eq_self, true_and]

/-- **A new upper member** passes the check if all of the lower bound fits under it. -/
theorem checkLower_iff (h : s.graph.Within l tag calls)
    (hm : Given calls .upper id m) {sources : List Ty} :
    checkLower id m s = (.ok sources, s') ↔
      (sources = [] ∧ s' = s) ∧ ∀ p ∈ s.graph.has .lower id, l.Fits s.graph.Settles p m := by
  have hgiven : ∀ p ∈ s.graph.has .lower id, Given calls .lower id p :=
    fun p hp => (h.given .lower id p hp).1
  by_cases hres : s.graph.isUnresolved m
  · rw [checkLower, graph_bind_apply, if_pos hres, pure_eq_ok, eq_comm,
      eq_comm (a := s), iff_self_and]
    exact fun _ p hp => h.fits_of_isUnresolved hs (hgiven p hp) hm (.inr hres)
  · have hiff (p : Ty) (hp : p ∈ s.graph.has .lower id) :
        (s.graph.isUnresolved p || s.graph.isSubtype p m) ↔ l.Fits s.graph.Settles p m := by
      rw [Bool.or_eq_true]
      exact h.isSubtype_iff_fits hs (hgiven p hp) hm (Bool.eq_false_iff.2 hres)
    have hnone (p : Ty) (hp : p ∈ s.graph.has .lower id)
        (hcheck : ¬(s.graph.isUnresolved p || s.graph.isSubtype p m)) :
        s.graph.implicit? p m = none :=
      h.implicit?_eq_none hs (hgiven p hp)
        (mt List.forall_mem_singleton.1 ((hiff p hp).not.1 hcheck)) m
    rw [checkLower_eq (Bool.eq_false_iff.2 hres) hnone, ← forall₂_congr hiff, ← List.all_eq_true]
    split
    · rename_i hall
      rw [and_iff_left hall, Prod.mk.injEq, Except.ok.injEq, eq_comm, eq_comm (a := s)]
    · rename_i hall
      exact iff_of_false (fun herror => by cases herror) fun hok => hall hok.2

theorem recheckMember_iff (h : s.graph.Within l tag calls)
    (hne : (s.graph.checkableUpper x).isEmpty = false) (hp : Given calls .lower x p) :
    recheckMember x (s.graph.checkableUpper x) p s = (.ok (), s') ↔
      s' = s ∧ ∀ q ∈ s.graph.has .upper x, l.Fits s.graph.Settles p q := by
  have hiff := h.fitsUpper_iff hs hp
  rw [hne, or_iff_left Bool.false_ne_true] at hiff
  rw [← Bool.or_eq_true] at hiff
  rw [recheckMember, graph_bind_apply]
  refine (ite_pure_iff fun hcheck => ?_).trans ?_
  · rw [h.implicit?_eq_none hs hp (hiff.not.1 hcheck)]
    exact ⟨_, rfl⟩
  · rw [hiff, eq_self, true_and]

/-- All lower members of a variable fit under all its upper members. -/
def Graph.FitsAt (l : Lattice) (g : Graph) (x : VarId) : Prop :=
  ∀ p ∈ g.has .lower x, ∀ q ∈ g.has .upper x, l.Fits g.Settles p q

/-- Some bound of the variable has to be looked at again when `id` gets a new member. -/
def Graph.DependsOn (g : Graph) (x id : VarId) : Prop :=
  g.pointsAt (g.boundsOf x).lower id ∨ g.pointsAt (g.boundsOf x).upper id

/-- **The second look** at the bounds that depend on a variable succeeds if they fit together. -/
theorem recheck_iff (h : s.graph.Within l tag calls) :
    recheck id s = (.ok (), s') ↔
      s' = s ∧ ∀ x ∈ s.graph.ids, s.graph.DependsOn x id → s.graph.FitsAt l x := by
  have hgiven (x : VarId) : ∀ p ∈ s.graph.has .lower x, Given calls .lower x p :=
    fun p hp => (h.given .lower x p hp).1
  have hmember {x : VarId} (hne : (s.graph.checkableUpper x).isEmpty = false) {s' : Progress} :
      (s.graph.has .lower x).forM (recheckMember x (s.graph.checkableUpper x)) s = (.ok (), s') ↔
        s' = s ∧ s.graph.FitsAt l x := by
    rw [forM_iff fun p hp s' hok => ((recheckMember_iff hs h hne (hgiven x p hp)).1 hok).1]
    refine and_congr_right' (forall₂_congr fun p hp => ?_)
    rw [recheckMember_iff hs h hne (hgiven x p hp), eq_self, true_and]
  have hstep {x : VarId} {s' : Progress} :
      (if (s.graph.pointsAt (s.graph.boundsOf x).lower id || s.graph.pointsAt
        (s.graph.boundsOf x).upper id) &&
          !(s.graph.checkableUpper x).isEmpty then
        (s.graph.has .lower x).forM (recheckMember x (s.graph.checkableUpper x)) else pure ()) s =
          (.ok (), s') ↔
        s' = s ∧ (s.graph.DependsOn x id → s.graph.FitsAt l x) := by
    split
    · rename_i hcond
      rw [Bool.and_eq_true, Bool.or_eq_true, Bool.not_eq_true'] at hcond
      rw [hmember hcond.2]
      exact and_congr_right' (imp_iff_right hcond.1).symm
    · rename_i hcond
      rw [pure_eq_ok, eq_self, true_and, eq_comm, iff_self_and]
      rintro - hpoints p hp
      -- it was not looked at since there is nothing above it
      have hempty : (s.graph.checkableUpper x).isEmpty := by
        by_contra hempty
        refine hcond ?_
        rw [Bool.and_eq_true, Bool.or_eq_true, Bool.not_eq_true']
        exact ⟨hpoints, Bool.eq_false_iff.2 hempty⟩
      exact (h.fitsUpper_iff hs (hgiven x p hp)).1 (.inl (.inr hempty))
  have hids (x : VarId) : x ∈ s.graph.typeVariables ↔ x ∈ s.graph.ids := Natural.mem_sort
  rw [recheck, graph_bind_apply]
  refine (forM_iff fun x _ s' hok => (hstep.1 hok).1).trans (and_congr_right' ?_)
  refine forall_congr' fun x => ?_
  rw [hids]
  refine forall_congr' fun _ => hstep.trans ?_
  rw [eq_self, true_and]

end

/-! ## One member -/

/-- Members of bounds where convertibles take part. -/
def Part (u : Universe) (tag : Nat) (side : Side) (e : Ty) : Prop :=
  PlainMember u side e ∨ ∃ var, e = .asVar none tag var

namespace Steady

theorem supersedes_iff (hu : u.Legible) (hs : Steady u l tag calls) (hm : Given calls side x m)
    (he : Given calls side x e) (g : Graph) : g.supersedes side m e ↔ side.Covered e m := by
  cases side with
  | lower => exact hs.isSubtype_iff hu he hm g
  | upper => exact hs.isSubtype_iff hu hm he g

variable (hu : u.Sound) (hs : Steady u l tag calls)

include hu hs

/-- What a copy stands for, and what it is taken for, is no different. -/
theorem standsFor_copy (hm : Given calls side x m) :
    StandsFor V m.copy = StandsFor V m ∧ m.copy.name = m.name ∧
      m.copy.isConvertible = m.isConvertible := by
  rcases hs.plain_or_asVar hm with hm | ⟨cell, var, -, rfl⟩
  · rw [hm.copy_eq hu]
    exact ⟨rfl, rfl, rfl⟩
  · rw [copy_asVar]
    exact ⟨rfl, rfl, rfl⟩

theorem fits_copy_left (hp : Given calls .lower x p) :
    l.Fits V p.copy q ↔ l.Fits V p q := by
  obtain ⟨hstands, hname, -⟩ := hs.standsFor_copy hu hp
  rw [Lattice.Fits, hstands, hname, Lattice.Fits]

theorem fits_copy_right (hq : Given calls .upper x q) :
    l.Fits V p q.copy ↔ l.Fits V p q := by
  obtain ⟨hstands, hname, hconv⟩ := hs.standsFor_copy hu hq
  rw [Lattice.Fits, hstands, hname, hconv, Lattice.Fits]

theorem clashes_copy (hm : Given calls side x m) (e : Ty) :
    Graph.clashes e m.copy = Graph.clashes e m := by
  rcases hs.plain_or_asVar hm with hm | ⟨cell, var, -, rfl⟩
  · rw [hm.copy_eq hu]
  · rw [copy_asVar]
    rfl

theorem covered_copy_iff (hm : Given calls side x m)
    (he : Given calls side x e) : (side.Covered e m.copy ↔ side.Covered e m) ∧
      (side.Covered m.copy e ↔ side.Covered m e) := by
  cases side with
  | lower => exact ⟨(hs.sub_copy_iff hu he hm).1, (hs.sub_copy_iff hu hm he).2⟩
  | upper => exact ⟨(hs.sub_copy_iff hu hm he).2, (hs.sub_copy_iff hu he hm).1⟩

theorem part (he : Given calls side x e)
    (hcopy : e.copy = e) : Part u tag side e := by
  rcases hs.plain_or_asVar he with hplain | ⟨cell, var, -, rfl⟩
  · exact .inl ⟨hplain, hplain.convertibleFree, hs.ne_container hu he⟩
  · rw [← hcopy, copy_asVar]
    exact .inr ⟨var, rfl⟩

end Steady

variable (hs : Regular u l tag calls)

include hs

namespace Graph

/-- Neither the opposite bound nor a member beside it speaks against a new member. -/
def Agrees (l : Lattice) (g : Graph) (side : Side) (id : VarId) (m : Ty) : Prop :=
  match side with
  | .lower => ∀ q ∈ g.has .upper id, l.Fits g.Settles m q
  | .upper =>
    (∀ p ∈ g.has .lower id, l.Fits g.Settles p m) ∧ ∀ e ∈ g.has .upper id, clashes e m → Sub m e

namespace Within

section

variable (h : g.Within l tag calls)

include h

theorem tidy : g.Tidy (Part u tag) where
  keyed := h.keyed
  admissible side x e he := by
    obtain ⟨hgiven, hcopy⟩ := h.given side x e he
    exact hs.part hs.legible.toSound hgiven hcopy

theorem absorbs_iff (hm : Given calls side id m) :
    g.absorbs side id m ↔ g.Covers side id m.copy := by
  rw [absorbs_eq, List.any_eq_true]
  refine exists_congr fun e => and_congr_right fun he => ?_
  have hgiven := (h.given side id e he).1
  rw [hs.supersedes_iff hs.legible hgiven hm, (hs.covered_copy_iff hs.legible.toSound hm hgiven).2]

theorem insertLower_eq
    (hm : Given calls .lower id m) : g.insertLower id m = g.inserted .lower id m.copy := by
  have hcopy := hs.given_copy hs.legible.toSound hm
  have hsame : ∀ g' : Graph, ∀ e ∈ g.has .lower id, g'.isSubtype e m = g.isSubtype e m.copy := by
    intro g' e he
    have hgiven := (h.given .lower id e he).1
    rw [Bool.eq_iff_iff, hs.isSubtype_iff hs.legible hgiven hm,
      hs.isSubtype_iff hs.legible hgiven hcopy]
    exact (hs.sub_copy_iff hs.legible.toSound hgiven hm).1.symm
  have hfold : (Members.types (g.boundsOf id).lower).foldl (dropCovered id m) g = _ :=
    foldl_dropCovered hsame
  rw [Graph.insertLower_eq, hfold, update_update]
  rfl

theorem insertUpper_iff
    (hm : Given calls .upper id m) : g.insertUpper id m = .ok g' ↔
      (∀ e ∈ g.has .upper id, clashes e m → Sub m e) ∧ g' = g.inserted .upper id m.copy := by
  have hsub {e : Ty} (he : e ∈ g.has .upper id) : g.isSubtype m e ↔ Sub m e :=
    hs.isSubtype_iff hs.legible hm (h.given .upper id e he).1 g
  have hsame : ∀ e ∈ g.has .upper id, g.isSubtype m e = g.isSubtype m.copy e := by
    intro e he
    have hgiven := (h.given .upper id e he).1
    have hcopy := hs.given_copy hs.legible.toSound hm
    rw [Bool.eq_iff_iff, hsub he, hs.isSubtype_iff hs.legible hcopy hgiven]
    exact (hs.sub_copy_iff hs.legible.toSound hm hgiven).2.symm
  have hnone : (g.has .upper id).find? (fun e => !g.isSubtype m e && clashes e m) = none ↔
      ∀ e ∈ g.has .upper id, clashes e m → Sub m e := by
    rw [List.find?_eq_none]
    refine forall₂_congr fun e he => ?_
    rw [← hsub he, Bool.and_eq_true, Bool.not_eq_true', not_and, ← Bool.not_eq_true, not_imp_not]
  have hgone : (g.has .upper id).filter (fun e => g.isSubtype m e) =
      (g.has .upper id).filter fun e => g.supersedes .upper m.copy e := List.filter_congr hsame
  have hinserted : g.inserted .upper id m.copy = g.update id fun b => { b with
      upper := Members.add (((g.has .upper id).filter fun e => g.isSubtype m e).foldl
        (fun ms e => Members.erase ms e.name) b.upper) m.copy } := by
    rw [hgone]
    rfl
  rw [← hnone, hinserted]
  unfold insertUpper
  dsimp only
  split
  · rename_i e hfind
    refine iff_of_false (fun h => by cases h) fun h => ?_
    cases hfind.symm.trans h.1
  · rename_i hfind
    rw [Except.ok.injEq, eq_comm]
    exact (and_iff_right hfind).symm

/-- The graph knows what a new member takes the place of. -/
theorem inserts (hid : id ∈ g.ids)
    (hm : Given calls side id m) : g.Inserts side id m.copy := by
  have hcopy := hs.given_copy hs.legible.toSound hm
  refine inserts_of_supersedes (h.keyed side id) hid fun e he => ?_
  exact hs.supersedes_iff hs.legible hcopy (h.given side id e he).1 g

theorem inserted (hid : id ∈ g.ids)
    (hm : Given calls side id m) : (g.inserted side id m.copy).Within l tag calls := by
  have hins := h.inserts hs hid hm
  have hshape : SameShape g (g.inserted side id m.copy) := sameShape_inserted
  refine ⟨hshape.lattice.trans h.lattice, hshape.tag.trans h.tag, ?_, ?_⟩
  · exact (hins.tidy (h.tidy hs) (hs.part hs.legible.toSound (hs.given_copy hs.legible.toSound hm)
      (hs.copy_copy hs.legible.toSound hm))).keyed
  · intro side' x e he
    by_cases hx : side' = side ∧ x = id
    · obtain ⟨rfl, rfl⟩ := hx
      rcases (hins.mem e).1 he with ⟨he, -⟩ | rfl
      · exact h.given side' x e he
      · exact ⟨hs.given_copy hs.legible.toSound hm, hs.copy_copy hs.legible.toSound hm⟩
    · rw [has_inserted_ne (not_and_or.1 hx)] at he
      exact h.given side' x e he

end

end Within

end Graph

open TypeBounds.Graph

/-- **One member** that was taken in: it was covered already, or all agreed and it was put in. -/
theorem member_inv (h : s.graph.Within l tag calls)
    (hm : Given calls side id m) {new : Bool} (hrun : member nested side id m s = (.ok new, s')) :
    s.graph.Covers side id m.copy ∧ new = false ∧ s'.graph = s.graph ∨
      ¬s.graph.Covers side id m.copy ∧ new = true ∧ s.graph.Agrees l side id m ∧
        s'.graph = s.graph.inserted side id m.copy := by
  rw [← h.absorbs_iff hs hm]
  cases side with
  | lower =>
    rcases joinMember_ok hrun with ⟨habs, hnew, rfl⟩ | ⟨habs, hnew, s₁, hcheck, hs'⟩
    · exact .inl ⟨habs, hnew, rfl⟩
    · obtain ⟨rfl, hfits⟩ := (checkUpper_iff hs h hm).1 hcheck
      rw [h.insertLower_eq hs hm] at hs'
      exact .inr ⟨habs, hnew, hfits, hs'⟩
  | upper =>
    rcases meetMember_ok hrun with ⟨habs, hnew, rfl⟩ | ⟨habs, hnew, sources, s₁, g',
      hcheck, hg', hs'⟩
    · exact .inl ⟨habs, hnew, rfl⟩
    · obtain ⟨⟨rfl, rfl⟩, hfits⟩ := (checkLower_iff hs h hm).1 hcheck
      obtain ⟨hclashes, rfl⟩ := (h.insertUpper_iff hs hm).1 hg'
      obtain ⟨-, rfl⟩ := pure_eq_ok.1 hs'
      exact .inr ⟨habs, hnew, ⟨hfits, hclashes⟩, rfl⟩

/-- **One member** is taken in if all agree, or if it is covered already. -/
theorem member_runs (nested : Side → VarId → Ty → Infer Unit) (h : s.graph.Within l tag calls)
    (hm : Given calls side id m)
    (hagrees : ¬s.graph.Covers side id m.copy → s.graph.Agrees l side id m) :
    ∃ new s', member nested side id m s = (.ok new, s') := by
  rw [← h.absorbs_iff hs hm] at hagrees
  cases side with
  | lower =>
    rw [member, joinMember, graph_bind_apply]
    split
    · exact ⟨false, s, rfl⟩
    · rename_i habs
      have hcheck : checkUpper (nested .upper) id m s = (.ok (), s) :=
        (checkUpper_iff hs h hm).2 ⟨rfl, hagrees habs⟩
      exact ⟨true, _, bind_eq_ok.2 ⟨(), s, hcheck, rfl⟩⟩
  | upper =>
    rw [member, meetMember, graph_bind_apply]
    split
    · exact ⟨false, s, rfl⟩
    · rename_i habs
      obtain ⟨hfits, hclashes⟩ := hagrees habs
      have hcheck := (checkLower_iff hs h hm).2 ⟨⟨rfl, rfl⟩, hfits⟩
      have hinsert := (h.insertUpper_iff hs hm).2 ⟨hclashes, rfl⟩
      refine ⟨true, { s with graph := s.graph.inserted .upper id m.copy },
        bind_eq_ok.2 ⟨[], s, hcheck, ?_⟩⟩
      rw [graph_bind_apply, hinsert]
      rfl

end

end TypeBounds
