import TypeBounds.Proofs.Insertion

/-!
# Propagation where nothing is converted

Without implicit conversions a member that does not fit is refused, and without convertibles no
bound depends on another. So taking a type into a bound is nothing but its insertions: if it
succeeds, no nested propagation took place, and no check left a trace in the graph.

* `Lattice.Quiet`: there are no implicit conversions, and `implicit?_eq_none`;
* `checkLower_passed`: what a check found, with conversions or without;
* `recheck_apply`, `checkUpper_ok`, `checkLower_ok`: the checks change nothing;
* `member`, `enter_eq`: what one variable makes of a type.
-/

namespace TypeBounds

open Infer

/-- No conversion is made without being asked for. -/
def Lattice.Quiet (l : Lattice) : Prop := ∀ c ∈ l.conversions, c.implicit = false

theorem Lattice.Quiet.empty : Lattice.Quiet {} := fun _ hc => (List.not_mem_nil hc).elim

theorem Lattice.mem_conversions_of_mem_candidates {l : Lattice} {sub : Ty → Ty → Bool} {t : Ty}
    {c : Conversion} (h : c ∈ l.candidates sub t) : c ∈ l.conversions := by
  unfold candidates named at h
  rcases List.mem_append.1 h with h | h
  · exact List.mem_of_mem_filter h
  · obtain ⟨name, -, h⟩ := List.mem_flatMap.1 h
    exact List.mem_of_mem_filter (List.mem_of_mem_filter h)

theorem Lattice.bridge?_eq_find? {l : Lattice} {sub : Ty → Ty → Bool} {a b : Ty}
    (ha : ∀ ms, a ≠ .union ms) :
    l.bridge? sub a b = (l.candidates sub a).find? fun c => c.implicit && sub c.target b := by
  cases a with
  | union ms => exact absurd rfl (ha ms)
  | _ => simp [bridge?]

theorem Lattice.candidates_congr {l : Lattice} {sub sub' : Ty → Ty → Bool} {a a' : Ty}
    (hname : a'.name = a.name) (h : ∀ c ∈ l.conversions, sub' a' c.source = sub a c.source) :
    l.candidates sub' a' = l.candidates sub a := by
  have hnamed (name : String) : ((l.named name).filter fun c => sub' a' c.source) =
      (l.named name).filter fun c => sub a c.source :=
    List.filter_congr fun c hc => h c (List.mem_of_mem_filter hc)
  simp only [candidates, hname, hnamed]

/-- **The search for a conversion**, by induction on the types that it takes apart: two searches
with the same answers for the members of unions, and for other types by themselves, have the same
answer for all types. -/
theorem Lattice.bridge?_congr {l l' : Lattice} {sub sub' : Ty → Ty → Bool} {f : Ty → Ty}
    {P : Ty → Prop} {a b b' : Ty}
    (hunion : ∀ ms, P (.union ms) → f (.union ms) = .union (ms.map fun m => (m.1, f m.2)) ∧
      ∀ m ∈ ms, P m.2 ∧ sub' (f m.2) b' = sub m.2 b)
    (hother : ∀ a, P a → (∀ ms, a ≠ .union ms) → (∀ ms, f a ≠ .union ms) ∧
      ((l'.candidates sub' (f a)).find? fun c => c.implicit && sub' c.target b') =
        (l.candidates sub a).find? fun c => c.implicit && sub c.target b)
    (ha : P a) : l'.bridge? sub' (f a) b' = l.bridge? sub a b := by
  have hfind {a : Ty} (ha : P a) (hne : ∀ ms, a ≠ .union ms) :
      l'.bridge? sub' (f a) b' = l.bridge? sub a b := by
    obtain ⟨hne', hsame⟩ := hother a ha hne
    rw [bridge?_eq_find? hne', bridge?_eq_find? hne, hsame]
  induction a using Ty.memberInduction with
  | container side ms ih =>
    cases side with
    | upper => exact hfind ha fun ms h => by cases h
    | lower =>
      obtain ⟨hf, hms⟩ := hunion ms ha
      have hmembers (ms' : Members) (hms' : ∀ m ∈ ms', m ∈ ms) (last : Option Conversion) :
          l'.bridgeMembers? sub' (ms'.map fun m => (m.1, f m.2)) b' last =
          l.bridgeMembers? sub ms' b last := by
        induction ms' generalizing last with
        | nil => simp only [List.map_nil, bridgeMembers?]
        | cons m ms' ihms =>
          obtain ⟨hm, hms'⟩ := List.forall_mem_cons.1 hms'
          simp only [List.map_cons, bridgeMembers?, (hms m hm).2, ih m hm (hms m hm).1, ihms hms']
      rw [Side.container, hf]
      simpa only [bridge?] using hmembers ms (fun _ hm => hm) none
  | mixed => exact hfind ha fun ms h => by cases h
  | nominal => exact hfind ha fun ms h => by cases h
  | asVar => exact hfind ha fun ms h => by cases h
  | asType => exact hfind ha fun ms h => by cases h

section

variable {u : Universe} {P : Side → Ty → Prop} {g : Graph} {side : Side} {id : VarId} {a b m t : Ty}
  {ms : Members} {s s' : Progress}

theorem Graph.implicit?_eq_none (hq : g.lattice.Quiet) (ha : ∀ ms, a ≠ .union ms) :
    g.implicit? a b = none := by
  unfold Graph.implicit? Lattice.implicit?
  rw [Lattice.bridge?_eq_find? ha, List.find?_eq_none]
  intro c hc
  simp [hq c (Lattice.mem_conversions_of_mem_candidates hc)]

/-! ## Types without convertibles -/

section

variable (hu : u.Sound) (ht : ConvertibleFree u t)

include hu ht

theorem ConvertibleFree.isConvertible_eq :
    t.isConvertible = false := by
  cases t with
  | asVar => exact absurd ht (not_convertibleFree_asVar hu)
  | asType => exact absurd ht (not_convertibleFree_asType hu)
  | _ => rfl

theorem ConvertibleFree.isUnresolved_eq :
    g.isUnresolved t = false := by
  rw [Graph.isUnresolved, ht.isConvertible_eq hu, Bool.false_and]

theorem ConvertibleFree.isSelf_eq :
    g.isSelf id t = false := by
  cases t with
  | asVar => exact absurd ht (not_convertibleFree_asVar hu)
  | _ => rfl

/-- A type without convertibles has none anywhere in it. -/
theorem ConvertibleFree.of_mem_subterms {x : Ty}
    (hx : x ∈ t.subterms) : ConvertibleFree u x := by
  induction ht with
  | declared h =>
    rw [hu.subterms_eq h] at hx
    rw [List.mem_singleton.1 hx]
    exact .declared h
  | container side hkeys hnodup h ih =>
    rw [subterms_container] at hx
    rcases List.mem_cons.1 hx with rfl | hx
    · exact .container side hkeys hnodup h
    · obtain ⟨m, hm, hx⟩ := mem_subtermsAll.1 hx
      exact ih m hm hx

end

theorem pointsAt_eq (hu : u.Sound) (h : ∀ t ∈ Members.types ms, ConvertibleFree u t) :
    g.pointsAt ms id = false := by
  rw [Graph.pointsAt, List.any_eq_false]
  intro x hx
  obtain ⟨m, hm, hx⟩ := mem_subtermsAll.1 hx
  have hcf := (h m.2 (Members.mem_types.2 ⟨m, hm, rfl⟩)).of_mem_subterms hu hx
  rw [hcf.isSelf_eq hu]
  exact Bool.false_ne_true

/-! ## The checks -/

/-- Nothing depends on another variable, so nothing has to be checked again. -/
theorem recheck_apply (hP : Admits u P) (h : s.graph.Tidy P) : recheck id s = (.ok (), s) := by
  refine forM_pure fun x _ => ?_
  have hpoints (side : Side) : s.graph.pointsAt ((s.graph.boundsOf x).side side) id = false :=
    pointsAt_eq hP.legible.toSound fun t ht => h.convertibleFree hP ht
  have hlower : s.graph.pointsAt (s.graph.boundsOf x).lower id = false := hpoints .lower
  have hupper : s.graph.pointsAt (s.graph.boundsOf x).upper id = false := hpoints .upper
  rw [hlower, hupper]
  rfl

/-- Nothing is left out of an upper bound when a type is checked against it. -/
theorem Graph.Tidy.checkableUpper_eq (hP : Admits u P) (h : g.Tidy P) :
    g.checkableUpper id = (g.boundsOf id).upper := by
  have hall : (g.has .upper id).filter (!g.isUnresolved ·) = g.has .upper id := by
    refine List.filter_eq_self.2 fun v hv => ?_
    rw [(h.convertibleFree hP hv).isUnresolved_eq hP.legible.toSound]
    rfl
  exact (congrArg Members.ofTypes hall).trans (h.keyed .upper id).ofTypes_types

/-- **A lower member that lets a new upper member pass** stands for nothing yet, is below it or is
converted to it. -/
theorem bridgeLower_passed {l : Ty} {r : Option Conversion}
    (h : bridgeLower id m l s = (.ok r, s')) :
    s'.graph = s.graph ∧ ((s.graph.isUnresolved l ∨ s.graph.isSubtype l m) ∧ r = none ∨
      ¬s.graph.isSubtype l m ∧ ∃ c, s.graph.implicit? l m = some c ∧ r = some c) := by
  rw [bridgeLower, graph_bind_apply] at h
  split at h
  · rename_i hfits
    obtain ⟨rfl, rfl⟩ := pure_eq_ok.1 h
    exact ⟨rfl, .inl ⟨Bool.or_eq_true_iff.1 hfits, rfl⟩⟩
  · rename_i hfits
    cases hc : s.graph.implicit? l m with
    | none =>
      rw [hc] at h
      cases h
    | some c =>
      rw [hc] at h
      cases h
      exact ⟨rfl, .inr ⟨fun hsub => hfits (Bool.or_eq_true_iff.2 (.inr hsub)), c, rfl, rfl⟩⟩

theorem mapM_bridgeLower_passed {ls : List Ty} {found : List (Option Conversion)}
    (h : ls.mapM (bridgeLower id m) s = (.ok found, s')) : s'.graph = s.graph ∧
      (∀ l ∈ ls, s.graph.isUnresolved l ∨ s.graph.isSubtype l m ∨ (s.graph.implicit? l m).isSome) ∧
      ∀ c, some c ∈ found → ∃ l ∈ ls, ¬s.graph.isSubtype l m ∧ s.graph.implicit? l m = some c := by
  induction ls generalizing s found with
  | nil =>
    obtain ⟨rfl, rfl⟩ := pure_eq_ok.1 h
    exact ⟨rfl, fun l hl => (List.not_mem_nil hl).elim, fun c hc => (List.not_mem_nil hc).elim⟩
  | cons l ls ih =>
    rw [List.mapM_cons] at h
    obtain ⟨r, s₁, hr, h⟩ := bind_eq_ok.1 h
    obtain ⟨rs, s₂, hrs, h⟩ := bind_eq_ok.1 h
    obtain ⟨rfl, rfl⟩ := pure_eq_ok.1 h
    obtain ⟨hs₁, hfirst⟩ := bridgeLower_passed hr
    obtain ⟨hs₂, hpassed, hfound⟩ := ih hrs
    rw [hs₁] at hs₂ hpassed hfound
    refine ⟨hs₂, List.forall_mem_cons.2 ⟨?_, hpassed⟩, fun c hc => ?_⟩
    · rcases hfirst with ⟨hfits, -⟩ | ⟨-, c, hc, -⟩
      · exact hfits.imp_right .inl
      · exact .inr (.inr (Option.isSome_iff_exists.2 ⟨c, hc⟩))
    · rcases List.mem_cons.1 hc with rfl | hc
      · obtain ⟨-, hnone⟩ | ⟨hsub, c', hc', hsome⟩ := hfirst
        · cases hnone
        · cases hsome
          exact ⟨l, List.mem_cons_self .., hsub, hc'⟩
      · obtain ⟨l', hl', hc⟩ := hfound c hc
        exact ⟨l', List.mem_cons_of_mem _ hl', hc⟩

/-- **A new upper member that was let pass**: what the lower bound has to say to it, and where the
sources come from that it relies on. -/
theorem checkLower_passed {sources : List Ty} (h : checkLower id m s = (.ok sources, s')) :
    s'.graph = s.graph ∧
      (s.graph.isUnresolved m ∨ ∀ l ∈ s.graph.has .lower id,
        s.graph.isUnresolved l ∨ s.graph.isSubtype l m ∨ (s.graph.implicit? l m).isSome) ∧
      ∀ b ∈ sources, ∃ l ∈ s.graph.has .lower id, ¬s.graph.isSubtype l m ∧
        ∃ c, s.graph.implicit? l m = some c ∧ c.source = b := by
  rw [checkLower, graph_bind_apply] at h
  split at h
  · rename_i hunresolved
    obtain ⟨rfl, rfl⟩ := pure_eq_ok.1 h
    exact ⟨rfl, .inl hunresolved, fun b hb => (List.not_mem_nil hb).elim⟩
  · obtain ⟨found, s₁, hfound, h⟩ := bind_eq_ok.1 h
    obtain ⟨rfl, rfl⟩ := pure_eq_ok.1 h
    obtain ⟨hs₁, hpassed, hsome⟩ := mapM_bridgeLower_passed hfound
    refine ⟨hs₁, .inr hpassed, fun b hb => ?_⟩
    obtain ⟨r, hr, hrb⟩ := List.mem_filterMap.1 hb
    obtain ⟨c, rfl, rfl⟩ := Option.map_eq_some_iff.1 hrb
    obtain ⟨l, hl, hsub, hc⟩ := hsome c hr
    exact ⟨l, hl, hsub, c, hc, rfl⟩

theorem checkUpper_ok (hq : s.graph.lattice.Quiet) (hm : Settled u .lower m)
    {narrow : VarId → Ty → Infer Unit} (h : checkUpper narrow id m s = (.ok (), s')) : s' = s := by
  unfold checkUpper at h
  rw [graph_bind_apply] at h
  split at h
  · exact (pure_eq_ok.1 h).2.symm
  · rw [Graph.implicit?_eq_none hq hm.ne_container] at h
    cases h

/-- Checks one after the other that would all fail alike. -/
theorem mapM_checks {α β : Type} {f : α → Infer β} {p : α → Bool} {b : β}
    {e : Contradiction} {xs : List α}
    (hf : ∀ a ∈ xs, f a s = if p a then (.ok b, s) else (.error e, s)) :
    xs.mapM f s = if xs.all p then (.ok (xs.map fun _ => b), s) else (.error e, s) := by
  induction xs with
  | nil => rfl
  | cons x xs ih =>
    obtain ⟨hx, hxs⟩ := List.forall_mem_cons.1 hf
    rw [List.mapM_cons, bind_apply, hx, List.all_cons]
    cases p x with
    | false => rfl
    | true =>
      simp only [if_true, Bool.true_and, bind_apply, ih hxs]
      cases xs.all p <;> rfl

/-- **Where nothing is converted**, a new upper member passes if all of the lower bound fits under
it, and otherwise nothing happens. -/
theorem checkLower_eq (hm : s.graph.isUnresolved m = false)
    (hnone : ∀ l ∈ s.graph.has .lower id, ¬(s.graph.isUnresolved l || s.graph.isSubtype l m) →
      s.graph.implicit? l m = none) :
    checkLower id m s =
      if (s.graph.has .lower id).all fun l =>
      s.graph.isUnresolved l || s.graph.isSubtype l m then (.ok [], s)
      else (.error (.lower id m (Ty.union (s.graph.boundsOf id).lower).copy), s) := by
  have hchecks := mapM_checks (s := s) (f := bridgeLower id m) (b := none) fun l hl => by
    rw [bridgeLower, graph_bind_apply]
    split
    · rename_i hfits
      exact (if_pos hfits).symm
    · rename_i hfits
      rw [hnone l hl hfits]
      exact (if_neg hfits).symm
  rw [checkLower, graph_bind_apply, hm, if_neg Bool.false_ne_true, bind_apply]
  rw [show (Members.types (s.graph.boundsOf id).lower).mapM (bridgeLower id m) s = _ from hchecks]
  generalize List.all (s.graph.has .lower id) _ = passes
  cases passes with
  | false => rfl
  | true => simp

theorem checkLower_ok (hP : Admits u P) (hq : s.graph.lattice.Quiet) (htidy : s.graph.Tidy P)
    (hm : ConvertibleFree u m) {sources : List Ty}
    (h : checkLower id m s = (.ok sources, s')) : sources = [] ∧ s' = s := by
  rw [checkLower_eq (hm.isUnresolved_eq hP.legible.toSound) fun l hl _ => ?_] at h
  · split at h
    · cases h
      exact ⟨rfl, rfl⟩
    · cases h
  · exact Graph.implicit?_eq_none hq
      (hP.settled .lower l (htidy.admissible .lower id l hl)).ne_container

/-! ## One variable -/

/-- Takes one member into one bound of a variable. -/
def member (nested : Side → VarId → Ty → Infer Unit) (side : Side) (id : VarId) (m : Ty) :
    Infer Bool :=
  match side with
  | .lower => joinMember (nested .upper) id m
  | .upper => meetMember (nested .lower) id m

theorem enter_eq (nested : Side → VarId → Ty → Infer Unit) (side : Side) (t : Ty) (id : VarId) :
    enter nested side t id = graph >>= fun g =>
      anyNew (member nested side id) ((side.parts t).filter (!g.isSelf id ·)) := by
  cases side <;> rfl

theorem sameShape_member {nested : Side → VarId → Ty → Infer Unit}
    (h : ∀ side id t s, Along SameShape (nested side id t) s) (side : Side) (id : VarId) (m : Ty)
    (s : Progress) : Along SameShape (member nested side id m) s := by
  cases side with
  | lower => exact along_joinMember (fun _ _ m => Graph.sameShape_insertLower m) (h .upper) id m s
  | upper =>
    exact along_meetMember (fun _ _ _ _ hg => Graph.sameShape_insertUpper hg) (h .lower) id m s

/-- A member that the bound absorbs changes nothing. -/
theorem member_eq_of_absorbs {nested : Side → VarId → Ty → Infer Unit}
    (h : s.graph.absorbs side id m) : member nested side id m s = (.ok false, s) := by
  cases side with
  | lower => exact (graph_bind_apply _).trans (congrFun (if_pos h) s)
  | upper => exact (graph_bind_apply _).trans (congrFun (if_pos h) s)

theorem joinMember_ok {narrow : VarId → Ty → Infer Unit} {new : Bool}
    (h : joinMember narrow id m s = (.ok new, s')) :
    s.graph.absorbs .lower id m ∧ new = false ∧ s' = s ∨
      ¬s.graph.absorbs .lower id m ∧ new = true ∧ ∃ s₁, checkUpper narrow id m s = (.ok (), s₁) ∧
        s'.graph = s₁.graph.insertLower id m := by
  unfold joinMember at h
  rw [graph_bind_apply] at h
  by_cases habs : s.graph.lowerAbsorbs id m
  · rw [if_pos habs] at h
    obtain ⟨rfl, rfl⟩ := pure_eq_ok.1 h
    exact .inl ⟨habs, rfl, rfl⟩
  · rw [if_neg habs] at h
    obtain ⟨_, s₁, hcheck, h⟩ := bind_eq_ok.1 h
    rw [modify_bind_apply] at h
    obtain ⟨rfl, rfl⟩ := pure_eq_ok.1 h
    exact .inr ⟨habs, rfl, s₁, hcheck, rfl⟩

theorem meetMember_ok {widen : VarId → Ty → Infer Unit} {new : Bool}
    (h : meetMember widen id m s = (.ok new, s')) :
    s.graph.absorbs .upper id m ∧ new = false ∧ s' = s ∨
      ¬s.graph.absorbs .upper id m ∧ new = true ∧ ∃ sources s₁ g',
        checkLower id m s = (.ok sources, s₁) ∧ s₁.graph.insertUpper id m = .ok g' ∧
        (sources.forM fun source => noteConstraint source >>= fun _ => widen id source)
          { s₁ with graph := g' } = (.ok (), s') := by
  unfold meetMember at h
  rw [graph_bind_apply] at h
  by_cases habs : s.graph.upperAbsorbs id m
  · rw [if_pos habs] at h
    obtain ⟨rfl, rfl⟩ := pure_eq_ok.1 h
    exact .inl ⟨habs, rfl, rfl⟩
  · rw [if_neg habs] at h
    obtain ⟨sources, s₁, hcheck, h⟩ := bind_eq_ok.1 h
    rw [graph_bind_apply] at h
    cases hinsert : s₁.graph.insertUpper id m with
    | error e =>
      rw [hinsert] at h
      cases h
    | ok g' =>
      rw [hinsert] at h
      obtain ⟨_, s₂, hwiden, h⟩ := bind_eq_ok.1 ((modify_bind_apply _ _).symm.trans h)
      obtain ⟨rfl, rfl⟩ := pure_eq_ok.1 h
      exact .inr ⟨habs, rfl, sources, s₁, g', hcheck, hinsert, hwiden⟩

/-- **One member**: it is new unless it was covered, and it is put in if it is new. -/
theorem member_ok (hP : Admits u P) (hq : s.graph.lattice.Quiet) (htidy : s.graph.Tidy P)
    (hm : P side m) {nested : Side → VarId → Ty → Infer Unit} {new : Bool}
    (h : member nested side id m s = (.ok new, s')) :
    s.graph.Covers side id m ∧ new = false ∧ s'.graph = s.graph ∨
      ¬s.graph.Covers side id m ∧ new = true ∧ s'.graph = s.graph.inserted side id m := by
  have hcf := hP.convertibleFree hm
  rw [← htidy.absorbs_iff hP hcf]
  cases side with
  | lower =>
    rcases joinMember_ok h with ⟨habs, hnew, rfl⟩ | ⟨habs, hnew, s₁, hcheck, hs'⟩
    · exact .inl ⟨habs, hnew, rfl⟩
    · obtain rfl := checkUpper_ok hq (hP.settled .lower m hm) hcheck
      rw [Graph.insertLower_eq_inserted hP htidy hcf] at hs'
      exact .inr ⟨habs, hnew, hs'⟩
  | upper =>
    rcases meetMember_ok h with ⟨habs, hnew, rfl⟩ | ⟨habs, hnew, sources, s₁, g', hcheck, hg', hs'⟩
    · exact .inl ⟨habs, hnew, rfl⟩
    · obtain ⟨rfl, rfl⟩ := checkLower_ok hP hq htidy hcf hcheck
      obtain ⟨-, rfl⟩ := pure_eq_ok.1 hs'
      exact .inr ⟨habs, hnew, Graph.insertUpper_eq_inserted hP.legible.toSound hcf hg'⟩

/-- **One visit**: the parts of the type are taken in one after the other. If one of them was new,
the bounds around the variable get a second look and the visit goes on. -/
theorem visit_inv {nested : Side → VarId → Ty → Infer Unit} {t : Ty}
    (hself : ∀ m ∈ side.parts t, s.graph.isSelf id m = false) {found : List VarId}
    (h : visit nested side t id s = (.ok found, s')) :
    ∃ new s₁, anyNew (member nested side id) (side.parts t) s = (.ok new, s₁) ∧
      (new = false ∧ found = [] ∧ s' = s₁ ∨ new = true ∧ found = s'.graph.onward side id ∧
        ∃ s₂, s₂.graph = s₁.graph ∧ recheck id s₂ = (.ok (), s')) := by
  rw [visit_eq] at h
  obtain ⟨new, s₁, henter, h⟩ := bind_eq_ok.1 h
  have hparts : (side.parts t).filter (!s.graph.isSelf id ·) = side.parts t := by
    refine List.filter_eq_self.2 fun m hm => ?_
    rw [hself m hm]
    rfl
  rw [enter_eq, graph_bind_apply, hparts] at henter
  refine ⟨new, s₁, henter, ?_⟩
  cases new with
  | false =>
    obtain ⟨rfl, rfl⟩ := pure_eq_ok.1 h
    exact .inl ⟨rfl, rfl, rfl⟩
  | true =>
    obtain ⟨_, s₂, hnote, h⟩ := bind_eq_ok.1 h
    obtain ⟨_, s₃, hrecheck, h⟩ := bind_eq_ok.1 h
    rw [graph_bind_apply] at h
    obtain ⟨rfl, rfl⟩ := pure_eq_ok.1 h
    have hs₂ : s₂.graph = s₁.graph := by
      cases hnote
      rfl
    exact .inr ⟨rfl, rfl, s₂, hs₂, hrecheck⟩

/-- Where there are no convertibles the second look changes nothing. -/
theorem visit_cases (hP : Admits u P) {nested : Side → VarId → Ty → Infer Unit} {t : Ty}
    (ht : ∀ m ∈ side.parts t, P side m) {found : List VarId}
    (h : visit nested side t id s = (.ok found, s')) :
    ∃ new s₁, anyNew (member nested side id) (side.parts t) s = (.ok new, s₁) ∧
      (s₁.graph.Tidy P → s'.graph = s₁.graph) ∧
      found = if new then s'.graph.onward side id else [] := by
  have hself : ∀ m ∈ side.parts t, s.graph.isSelf id m = false := fun m hm =>
    (hP.convertibleFree (ht m hm)).isSelf_eq hP.legible.toSound
  obtain ⟨new, s₁, hnew, ⟨rfl, hfound, rfl⟩ | ⟨rfl, hfound, s₂, hs₂, hrecheck⟩⟩ := visit_inv hself h
  · exact ⟨false, s', hnew, fun _ => rfl, hfound⟩
  · refine ⟨true, s₁, hnew, fun htidy => ?_, hfound⟩
    rw [recheck_apply hP (by rw [hs₂]; exact htidy)] at hrecheck
    obtain rfl : s₂ = s' := congrArg Prod.snd hrecheck
    exact hs₂

end

end TypeBounds
