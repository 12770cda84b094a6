import TypeBounds.Proofs.Calls
import TypeBounds.Proofs.Quiet

/-!
# Accepted calls

What follows from the fact that a call was accepted: the variables it mentions are registered, and
its propagation came to its end. The calls that build a graph up, before anything is fixed or
merged, are those of `Call.Builds`.
-/

namespace TypeBounds

open Infer

/-- A call that adds a variable, a type bound or a reference, with types as `T` says. -/
def Call.Builds (T : Ty → Prop) : Call → Prop
  | addVariable _ _ => True
  | addLower _ t => T t
  | addUpper _ t => T t
  | addRef _ _ => True
  | _ => False

namespace Graph

/-- Whether every one of the calls is accepted. -/
def accepts : Graph → List Call → Bool
  | _, [] => true
  | g, c :: cs => (c.outcome g).fault.isNone && accepts (c.outcome g).graph cs

variable {search : Search} {g g' : Graph} {id : VarId}

theorem accepts_cons {c : Call} {cs : List Call} :
    g.accepts (c :: cs) ↔ (c.outcome g).fault = none ∧ (c.outcome g).graph.accepts cs := by
  rw [accepts, Bool.and_eq_true, Option.isNone_iff_eq_none]

theorem accepts_append {cs ds : List Call} :
    g.accepts (cs ++ ds) ↔ g.accepts cs ∧ (g.after cs).accepts ds := by
  induction cs generalizing g with
  | nil => simp [accepts, after]
  | cons c cs ih =>
    rw [List.cons_append, accepts_cons, accepts_cons, ih, and_assoc]
    rfl

theorem run_ok {blame : Contradiction → Fault} {m : Infer Unit} (h : (g.run blame m).fault = none) :
    ∃ s, m { graph := g } = (.ok (), s) ∧ (g.run blame m).graph = s.graph := by
  rw [run] at h ⊢
  rcases hm : m { graph := g } with ⟨_ | _, s⟩
  · rw [hm] at h
    cases h
  · exact ⟨s, rfl, rfl⟩

/-- A generalisation that is accepted comes to its end. -/
theorem generalize_accepted {params : List VarId}
    (h : (g.generalize search.find params).fault = none) :
    ∃ s, generalizeAll search.find params { graph := g } = (.ok (), s) ∧
      (g.generalize search.find params).graph = s.graph := by
  unfold generalize at h ⊢
  split at h
  · cases h
  · exact run_ok h

/-- Two registered variables are merged to the end. -/
theorem merge_accepted {old new : VarId} (hne : old ≠ new) (h : (g.merge old new).fault = none) :
    new ∈ g.ids ∧
    ∃ s, mergeInto old new { graph := g } = (.ok (), s) ∧ (g.merge old new).graph = s.graph := by
  unfold Graph.merge at h ⊢
  split at h
  · cases h
  · cases h
  · rename_i hnew
    rw [if_neg hne] at h ⊢
    exact ⟨mem_ids_of_require hnew, run_ok h⟩

/-- A variable that is accepted is registered, and its name was not in use. -/
theorem addVariable_accepted {name : String} {r : Option Reference}
    (h : ((Call.addVariable name r).outcome g).fault = none) : ∃ r', r = some r' ∧
      ((Call.addVariable name r).outcome g).graph =
        { g.register r'.id with names := g.names.insert name r' } := by
  rw [Call.outcome] at h ⊢
  cases hg : g.addVariable name r with
  | error m =>
    rw [hg] at h
    cases h
  | ok g' =>
    obtain ⟨r', hr, -, hg'⟩ := addVariable_eq_ok.1 hg
    exact ⟨r', hr, hg'⟩

theorem forM_eq_ok {α ε : Type} {f : α → Except ε PUnit} {xs : List α} :
    xs.forM f = .ok () ↔ ∀ a ∈ xs, f a = .ok () := by
  induction xs with
  | nil => exact iff_of_true rfl fun a ha => (List.not_mem_nil ha).elim
  | cons x xs ih =>
    rw [List.forall_mem_cons, ← ih]
    change (f x >>= fun _ => xs.forM f) = .ok () ↔ _
    rcases hx : f x with e | _
    · exact iff_of_false (fun h => by cases h) fun h => by cases h.1
    · exact (and_iff_right rfl).symm

/-- **The check on entry**: every convertible outside targets is bound to a registered variable. -/
theorem requireOwned_iff {t : Ty} : g.requireOwned t = .ok () ↔
    ∀ cell owner var, .asVar cell owner var ∈ t.subterms → g.owns owner ∧ var ∈ g.ids := by
  rw [requireOwned]
  refine forM_eq_ok.trans ⟨fun h cell owner var hmem => ?_, fun h s hs => ?_⟩
  · have hcheck := h (.asVar cell owner var) (List.mem_filter.2 ⟨hmem, rfl⟩)
    dsimp only at hcheck
    split at hcheck
    · rename_i howns
      rcases hvar : g.require var with _ | b
      · rw [hvar] at hcheck
        cases hcheck
      · exact ⟨howns, mem_ids_of_require hvar⟩
    · cases hcheck
  · cases s with
    | asVar cell owner var =>
      obtain ⟨howns, hvar⟩ := h cell owner var (List.mem_filter.1 hs).1
      obtain ⟨b, hb⟩ := Table.exists_get? hvar
      dsimp only
      rw [if_pos howns, require_eq_ok.2 hb]
      rfl
    | _ => rfl

theorem checkBound_iff {t : Ty} :
    g.checkBound id t = .ok () ↔ id ∈ g.ids ∧ g.requireOwned t = .ok () := by
  unfold checkBound
  rcases hid : g.require id with e | b
  · refine iff_of_false (fun h => by cases h) fun h => ?_
    obtain ⟨b, hb⟩ := Table.exists_get? h.1
    rw [require_eq_ok.2 hb] at hid
    cases hid
  · exact (and_iff_right (mem_ids_of_require hid)).symm

/-- A type that passes the check is propagated. -/
theorem addBound_eq_run {side : Side} {t : Ty} (hself : g.isSelf id t = false)
    (hcheck : g.checkBound id t = .ok ()) :
    g.addBound side id t = g.run .contradiction (spread side id t) := by
  rw [addBound, hcheck]
  simp only [hself, Bool.false_eq_true, if_false]

/-- A type that is accepted as a bound passed the check. -/
theorem checkBound_of_addBound {side : Side} {t : Ty} (h : (g.addBound side id t).fault = none) :
    g.checkBound id t = .ok () := by
  cases hcheck : g.checkBound id t with
  | error m =>
    rw [addBound, hcheck] at h
    cases h
  | ok _ => rfl

/-- A type that is accepted as a bound is propagated. -/
theorem addBound_accepted {side : Side} {t : Ty} (hself : g.isSelf id t = false)
    (h : (g.addBound side id t).fault = none) : id ∈ g.ids ∧
      ∃ s, spread side id t { graph := g } = (.ok (), s) ∧
        (g.addBound side id t).graph = s.graph := by
  have hcheck := checkBound_of_addBound h
  refine ⟨(checkBound_iff.1 hcheck).1, ?_⟩
  rw [addBound_eq_run hself hcheck] at h ⊢
  exact run_ok h

/-- A reference that is accepted becomes an edge if it is mutable, and is copied if it is fixed. -/
theorem addRef_accepted {r : Option Reference} (h : (g.addRef id r).fault = none) :
    ∃ r', r = some r' ∧ id ∈ g.ids ∧ r'.id ∈ g.ids ∧
      (r'.id = id ∧ ((g.addRef id r).graph = g ∨ (g.addRef id r).graph = g.link id id) ∨
        r'.id ≠ id ∧ ∃ s, (g.addRef id r).graph = s.graph ∧
          (if r'.fixed then handOn .lower id (g.boundsOf r'.id).lower else addEdge r'.id id)
            { graph := g } = (.ok (), s)) := by
  unfold addRef at h ⊢
  cases hreq : g.require id with
  | error m =>
    rw [hreq] at h
    cases h
  | ok b =>
    cases r with
    | none =>
      rw [hreq] at h
      cases h
    | some r =>
      cases hr : g.require r.id with
      | error m =>
        simp only [hreq, hr] at h
        cases h
      | ok rb =>
        refine ⟨r, rfl, mem_ids_of_require hreq, mem_ids_of_require hr, ?_⟩
        simp only [hreq, hr] at h ⊢
        rw [boundsOf_of_require hr]
        by_cases hself : r.id = id
        · refine .inl ⟨hself, ?_⟩
          simp only [hself, decide_true, Bool.true_or, if_true]
          split
          · exact .inl rfl
          · split
            · exact .inl rfl
            · exact .inr rfl
        · refine .inr ⟨hself, ?_⟩
          simp only [hself, decide_false, Bool.false_or, if_false] at h ⊢
          split
          · rename_i hfixed
            rw [if_pos hfixed] at h
            unfold handOn
            split
            · exact ⟨_, rfl, rfl⟩
            · rename_i hempty
              rw [if_neg hempty] at h
              obtain ⟨s, hs, hgraph⟩ := run_ok h
              exact ⟨s, hgraph, hs⟩
          · rename_i hfixed
            rw [if_neg hfixed] at h
            obtain ⟨s, hs, hgraph⟩ := run_ok h
            exact ⟨s, hgraph, hs⟩

end Graph

end TypeBounds
