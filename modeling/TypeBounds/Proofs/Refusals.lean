import TypeBounds.Proofs.Calls

/-!
# Refusals and contradictions

A call that fails either was refused, and then it has changed nothing, or it met a contradiction
between bounds. What could blur the two is generalisation: each of its merges is a call of its own,
made when the graph has long been changed, with variables that were found before. A `Guarded`
computation checks the arguments of such a call where it stands, as `Graph.merge` does, and may
refuse halfway. It never does (`Graph.generalizeGuarded_eq`): the components of a graph are
disjoint, so a variable that is still to be merged has not been merged away. Main statement:
`faults_of_after`.
-/

namespace TypeBounds

open Infer TypeBounds.Graph

/-! ## Computations that check arguments on their way -/

/-- A computation on a graph that may be refused halfway. -/
def Guarded (α : Type) : Type := Progress → Except Fault α × Progress

namespace Guarded

variable {α β : Type}

protected def pure (a : α) : Guarded α := fun s => (.ok a, s)

protected def bind (m : Guarded α) (f : α → Guarded β) : Guarded β := fun s =>
  match m s with
  | (.ok a, s') => f a s'
  | (.error e, s') => (.error e, s')

instance : Monad Guarded where
  pure := Guarded.pure
  bind := Guarded.bind

/-- A computation that checks nothing. -/
def lift (m : Infer α) : Guarded α := fun s => ((m s).1.mapError .contradiction, (m s).2)

/-- **A merge with its checks**, made on the graph as it is now. -/
def merge (old new : VarId) : Guarded Unit := fun s =>
  match s.graph.require old, s.graph.require new with
  | .error m, _ => (.error (.misuse m), s)
  | _, .error m => (.error (.misuse m), s)
  | .ok _, .ok _ => if old = new then (.ok (), s) else lift (mergeInto old new) s

/-- Like `TypeBounds.mergeAll`, with a check at every merge. -/
def mergeAll (rep : VarId) : List VarId → List VarId → Guarded (List VarId)
  | [], params => pure params
  | id :: ids, params => do
    merge id rep
    mergeAll rep ids (if params.contains id then (params.filter (· ≠ id)).insert rep else params)

/-- Like `TypeBounds.collapse`, with a check at every merge. -/
def collapse : List (List VarId) → List VarId → Guarded (List VarId)
  | [], params => pure params
  | component :: rest, params =>
    match representative params (Natural.sort component) with
    | none => collapse rest params
    | some rep => do
      let params ← mergeAll rep ((Natural.sort component).filter (· ≠ rep)) params
      collapse rest params

/-- Like `TypeBounds.coalesceRounds`, with a check at every merge. -/
def coalesceRounds (params : List VarId) : Nat → Guarded Unit
  | 0 => pure ()
  | merges + 1 => do
    let g ← lift graph
    match g.typeVariables.findSome? fun id => (g.coalescesInto? params id).map (id, ·) with
    | none => pure ()
    | some (id, param) => do
      merge id param
      coalesceRounds params merges

/-- Like `TypeBounds.generalizeAll`, with a check at every merge. -/
def generalizeAll (search : Search) (params : List VarId) : Guarded Unit := do
  lift (modify pruneSelfEdges)
  let g ← lift graph
  let params ← collapse (g.cycles search) params.eraseDups
  let g ← lift graph
  lift (freezeRounds params g.ids.length [])
  let g ← lift graph
  coalesceRounds params g.ids.length

/-! ## No check fires -/

/-- From here on the checks make no difference. -/
def Agrees (m : Guarded α) (n : Infer α) (s : Progress) : Prop := m s = lift n s

variable {search : Search} {s : Progress} {params : List VarId}

theorem Agrees.bind {m : Guarded α} {n : Infer α} {f : α → Guarded β} {k : α → Infer β}
    (hm : Agrees m n s) (hf : ∀ a s', n s = (.ok a, s') → Agrees (f a) (k a) s') :
    Agrees (m >>= f) (n >>= k) s := by
  unfold Agrees lift at *
  change Guarded.bind m f s = _
  rw [Guarded.bind, hm, bind_apply]
  rcases hn : n s with ⟨e | a, s'⟩
  · rfl
  · exact hf a s' hn

theorem agrees_merge {old new : VarId} (hold : old ∈ s.graph.ids) (hnew : new ∈ s.graph.ids)
    (hne : old ≠ new) : Agrees (merge old new) (mergeInto old new) s := by
  obtain ⟨bold, hbold⟩ := Table.exists_get? hold
  obtain ⟨bnew, hbnew⟩ := Table.exists_get? hnew
  unfold Agrees merge
  rw [require_eq_ok.2 hbold, require_eq_ok.2 hbnew]
  exact if_neg hne

/-- **Merging into a representative.** Each merge removes the variable it is about and no other. -/
theorem agrees_mergeAll {rep : VarId} {merged later : List VarId}
    (hnodup : (rep :: (merged ++ later)).Nodup) (hs : Holding (rep :: (merged ++ later)) s.graph) :
    Agrees (mergeAll rep merged params) (TypeBounds.mergeAll rep merged params) s := by
  induction merged generalizing params s with
  | nil => rfl
  | cons x merged ih =>
    obtain ⟨hrep, hrest⟩ := List.nodup_cons.1 hnodup
    obtain ⟨hx, hrest⟩ := List.nodup_cons.1 hrest
    have hne : x ≠ rep := fun h => hrep (h ▸ List.mem_cons_self ..)
    have hkept : ∀ y ∈ rep :: (merged ++ later), y ∈ rep :: (x :: merged ++ later) := by
      intro y hy
      rcases List.mem_cons.1 hy with rfl | hy
      · exact List.mem_cons_self ..
      · exact List.mem_cons_of_mem _ (List.mem_cons_of_mem _ hy)
    have hstart : Holding (rep :: (merged ++ later)) s.graph :=
      ⟨hs.wellFormed, fun y hy => hs.mem_ids y (hkept y hy)⟩
    have hgone : x ∉ rep :: (merged ++ later) := by
      rw [List.mem_cons, not_or]
      exact ⟨hne, hx⟩
    refine Agrees.bind (agrees_merge (hs.mem_ids x ?_) (hs.mem_ids rep ?_) hne) fun _ s' hrun => ?_
    · exact List.mem_cons_of_mem _ (List.mem_cons_self ..)
    · exact List.mem_cons_self ..
    · have hend := (mergeInto_keeps hne (List.mem_cons_self ..) hgone s).of_eq hrun hstart
      refine ih (List.nodup_cons.2 ⟨fun h => hrep ?_, hrest⟩) hend
      exact List.mem_cons_of_mem _ h

/-- **Collapsing.** What a later component holds is still there when it is its turn. -/
theorem agrees_collapse {cs : List (List VarId)} (hnodup : cs.flatten.Nodup)
    (hs : Holding cs.flatten s.graph) :
    Agrees (collapse cs params) (TypeBounds.collapse cs params) s := by
  induction cs generalizing params s with
  | nil => rfl
  | cons c cs ih =>
    rw [List.flatten_cons] at hnodup hs
    obtain ⟨hc, hcs, hdisjoint⟩ := List.nodup_append.1 hnodup
    rw [collapse, collapse_cons]
    rcases hrep : representative params (Natural.sort c) with _ | rep
    · exact ih hcs ⟨hs.wellFormed, fun x hx => hs.mem_ids x (List.mem_append_right _ hx)⟩
    · have hrep : rep ∈ c := Natural.mem_sort.1 (mem_of_representative hrep)
      have hmem : ∀ x, x ∈ (Natural.sort c).filter (· ≠ rep) ↔ x ∈ c ∧ x ≠ rep := by simp
      have hlater : ∀ x ∈ c, x ∉ cs.flatten := fun x hx hx' => hdisjoint x hx x hx' rfl
      set merged := (Natural.sort c).filter (· ≠ rep)
      have hall : (rep :: (merged ++ cs.flatten)).Nodup := by
        have hmerged : merged.Nodup := ((sortBy_perm _ c).nodup_iff.2 hc).filter _
        refine List.nodup_cons.2 ⟨fun h => ?_,
          List.nodup_append.2 ⟨hmerged, hcs, fun x hx y hy hxy => ?_⟩⟩
        · rcases List.mem_append.1 h with h | h
          · exact ((hmem rep).1 h).2 rfl
          · exact hlater rep hrep h
        · exact hlater x ((hmem x).1 hx).1 (hxy ▸ hy)
      have hstart : Holding (rep :: (merged ++ cs.flatten)) s.graph := by
        refine ⟨hs.wellFormed, fun x hx => hs.mem_ids x ?_⟩
        rcases List.mem_cons.1 hx with rfl | hx
        · exact List.mem_append_left _ hrep
        · exact (List.mem_append.1 hx).elim (fun hx => List.mem_append_left _ ((hmem x).1 hx).1)
            fun hx => List.mem_append_right _ hx
      have hgone : ∀ x ∈ merged, x ∉ rep :: cs.flatten := by
        intro x hx
        rw [List.mem_cons, not_or]
        exact ⟨((hmem x).1 hx).2, hlater x ((hmem x).1 hx).1⟩
      have hkeep : Along (Keeps fun g => Holding (rep :: cs.flatten) g ∧ True)
          (TypeBounds.mergeAll rep merged params) s :=
        mergeAll_keeps (fun _ _ _ _ _ _ => trivial) (List.mem_cons_self ..) hgone params s
      refine (agrees_mergeAll hall hstart).bind fun params' s' hrun => ih hcs ?_
      obtain ⟨hend, -⟩ := hkeep.of_eq hrun
        ⟨⟨hs.wellFormed, fun x hx => hstart.mem_ids x (by grind)⟩, trivial⟩
      exact ⟨hend.wellFormed, fun x hx => hend.mem_ids x (List.mem_cons_of_mem _ hx)⟩

/-- **Coalescing.** The parameter is a neighbour of the variable, so both are registered. -/
theorem agrees_coalesceRounds (merges : Nat) (hwf : s.graph.WellFormed) :
    Agrees (coalesceRounds params merges) (TypeBounds.coalesceRounds params merges) s := by
  induction merges generalizing s with
  | zero => rfl
  | succ merges ih =>
    refine Agrees.bind rfl fun g s₁ hg => ?_
    cases hg
    rcases hfound : s.graph.typeVariables.findSome? fun id =>
      (s.graph.coalescesInto? params id).map (id, ·) with _ | ⟨id, param⟩
    · rfl
    · obtain ⟨-, hco⟩ := coalescesInto?_of_nextMerge? hfound
      obtain ⟨hid, -, hparam, hbelow⟩ := coalescesInto?_eq_some hco
      have hne : id ≠ param := fun h => hid (h ▸ hparam)
      have hnew : param ∈ s.graph.ids := hwf.mem_ids_of_mem_below hbelow
      refine (agrees_merge (mem_ids_of_mem_below_of hbelow) hnew hne).bind fun _ s' hrun => ih ?_
      have hend := mergeInto_wellFormed hne hnew hwf
      rwa [hrun] at hend

theorem agrees_generalizeAll (hwf : s.graph.WellFormed) :
    Agrees (generalizeAll search params) (TypeBounds.generalizeAll search.find params) s := by
  rw [generalizeAll_eq]
  refine Agrees.bind rfl fun _ s₁ hprune => Agrees.bind rfl fun g s₂ hg => ?_
  cases hprune
  cases hg
  have hwf₁ : s.graph.pruneSelfEdges.WellFormed := hwf.pruneSelfEdges.1
  refine (agrees_collapse nodup_flatten_cycles (hwf₁.holding_cycles search)).bind
    fun params₂ s₂ hcollapse => ?_
  refine Agrees.bind rfl fun g s₃ hg => Agrees.bind rfl fun _ s₄ hfreeze =>
    Agrees.bind rfl fun g s₅ hg' => ?_
  cases hg
  cases hg'
  have hwf₂ : s₂.graph.WellFormed := by
    have hend := collapse_keeps (s := { s with graph := s.graph.pruneSelfEdges })
      (fun _ _ _ hne hnew h => mergeInto_wellFormed hne hnew h) pairwise_disjoint_cycles
      params.eraseDups
      (hwf₁.holding_cycles search) hwf₁
    rwa [hcollapse] at hend
  exact agrees_coalesceRounds _ ((along_freezeRounds freeze_keeps _ _ _ s₂).of_eq hfreeze hwf₂)

end Guarded

namespace Graph

variable {g : Graph}

/-- Runs a computation that may be refused. -/
def runGuarded (g : Graph) (m : Guarded Unit) : Outcome :=
  match m { graph := g } with
  | (.ok (), s) => { graph := s.graph, effect := s.effect }
  | (.error f, s) => { graph := s.graph, effect := s.effect, fault := some f }

/-- Generalises a graph by merges that check their arguments. -/
def generalizeGuarded (g : Graph) (search : Search) (params : List VarId) : Outcome :=
  match params.forM fun id => (g.require id).map fun _ => () with
  | .error m => g.refuse m
  | .ok () => g.runGuarded (Guarded.generalizeAll search params)

theorem runGuarded_lift (m : Infer Unit) :
    g.runGuarded (Guarded.lift m) = g.run .contradiction m := by
  unfold runGuarded Guarded.lift Graph.run
  rcases m { graph := g } with ⟨_ | _, _⟩ <;> rfl

/-- **No merge is refused** while a well-formed graph is generalised. -/
theorem generalizeGuarded_eq (h : g.WellFormed) (search : Search) (params : List VarId) :
    g.generalizeGuarded search params = g.generalize search.find params := by
  have hagree : Guarded.generalizeAll search params { graph := g } =
      Guarded.lift (generalizeAll search.find params) { graph := g } :=
        Guarded.agrees_generalizeAll h
  have hrun : g.runGuarded (Guarded.generalizeAll search params) =
      g.run .contradiction (generalizeAll search.find params) := by
    rw [← runGuarded_lift, runGuarded, runGuarded, hagree]
  unfold generalizeGuarded Graph.generalize
  cases params.forM fun id => (g.require id).map fun _ => () with
  | error m => rfl
  | ok _ => exact hrun

end Graph

/-! ## How a call can fail -/

/-- The fault is the caller's. -/
def Fault.IsIllegalArgument : Fault → Prop
  | misuse _ => True
  | contradiction _ => False
  | ref _ _ _ => False

/-- The fault is in the bounds. -/
def Fault.IsBoundContradiction : Fault → Prop
  | misuse _ => False
  | contradiction _ => True
  | ref _ _ _ => True

/-- What a call makes of a contradiction, if it can meet one. -/
def Call.blame? : Call → Option (Contradiction → Fault)
  | addLower _ _ => some .contradiction
  | addUpper _ _ => some .contradiction
  | addRef id (some r) => some (.ref id r.id)
  | merge _ _ => some .contradiction
  | generalize .. => some .contradiction
  | _ => none

/-- The convertible that a call is about, as the call leaves it, also where it fails. -/
def Call.convertible? (g : Graph) : Call → Option Ty
  | bind t vars =>
    match g.bindTo vars t with
    | .ok _ t => some t
    | .error _ t => some t
  | _ => none

/-- **A clean outcome.** A fault is a misuse that left the graph alone, or a contradiction in the
words of the call. -/
def Outcome.Clean (o : Outcome) (g : Graph) (blame? : Option (Contradiction → Fault)) : Prop :=
  ∀ f, o.fault = some f → (∃ m, f = .misuse m) ∧ o.graph = g ∨ ∃ blame cause, blame? = some blame ∧
    f = blame cause

section

variable {g : Graph} {blame? : Option (Contradiction → Fault)}

theorem clean_of_fault_eq_none {o : Outcome} (h : o.fault = none) : o.Clean g blame? := by
  intro f hf
  rw [h] at hf
  cases hf

theorem clean_refuse (m : Misuse) : (g.refuse m).Clean g blame? := by
  intro f hf
  exact .inl ⟨⟨m, (Option.some.inj hf).symm⟩, rfl⟩

theorem clean_run (blame : Contradiction → Fault) (m : Infer Unit) :
    (g.run blame m).Clean g (some blame) := by
  intro f hf
  unfold Graph.run at hf
  split at hf
  · cases hf
  · rename_i cause s _
    exact .inr ⟨blame, cause, rfl, (Option.some.inj hf).symm⟩

theorem clean_attempt (r : Except Misuse Graph) : (g.attempt r).Clean g blame? := by
  cases r with
  | error m => exact clean_refuse m
  | ok g' => exact clean_of_fault_eq_none rfl

theorem clean_addBound (side : Side) (id : VarId) (t : Ty) :
    (g.addBound side id t).Clean g (some .contradiction) := by
  unfold Graph.addBound
  split
  · exact clean_refuse _
  · split
    · exact clean_of_fault_eq_none rfl
    · exact clean_run _ _

theorem clean_addRef (id : VarId) (r : Option Reference) :
    (g.addRef id r).Clean g (Call.blame? (.addRef id r)) := by
  unfold Graph.addRef
  split
  · exact clean_refuse _
  · exact clean_refuse _
  · split
    · exact clean_refuse _
    · split
      · split
        · exact clean_of_fault_eq_none rfl
        · exact clean_run _ _
      · split
        · split
          · exact clean_of_fault_eq_none rfl
          · exact clean_of_fault_eq_none rfl
        · exact clean_run _ _

theorem clean_merge (old new : VarId) : (g.merge old new).Clean g (some .contradiction) := by
  unfold Graph.merge
  split
  · exact clean_refuse _
  · exact clean_refuse _
  · split
    · exact clean_of_fault_eq_none rfl
    · exact clean_run _ _

theorem clean_generalize {search : Search} (params : List VarId) :
    (g.generalize search.find params).Clean g (some .contradiction) := by
  unfold Graph.generalize
  split
  · exact clean_refuse _
  · exact clean_run _ _

end

/-- **One call.** -/
theorem Call.clean_outcome (c : Call) (g : Graph) : (c.outcome g).Clean g c.blame? := by
  cases c with
  | addVariable name r => exact clean_attempt _
  | mint => exact clean_of_fault_eq_none rfl
  | bind t vars => exact clean_attempt _
  | rebind cell owner var => exact clean_of_fault_eq_none rfl
  | addLower id t => exact clean_addBound .lower id t
  | addUpper id t => exact clean_addBound .upper id t
  | addRef id r => exact clean_addRef id r
  | fixVariable name => exact clean_attempt _
  | fixParameter id => exact clean_attempt _
  | merge old new => exact clean_merge old new
  | generalize search params => exact clean_generalize params
  | fork tag => exact clean_of_fault_eq_none rfl
  | setOverload name f => exact clean_attempt _

theorem Call.blame?_eq_some {c : Call} {blame : Contradiction → Fault} (h : c.blame? = some blame) :
    blame = .contradiction ∧ (∀ id r, c ≠ .addRef id r) ∨
      ∃ id r, c = .addRef id (some r) ∧ blame = .ref id r.id := by
  cases c with
  | addRef id r =>
    cases r with
    | none => cases h
    | some r => exact .inr ⟨id, r, rfl, (Option.some.inj h).symm⟩
  | addLower id t => exact .inl ⟨(Option.some.inj h).symm, fun _ _ hc => by cases hc⟩
  | addUpper id t => exact .inl ⟨(Option.some.inj h).symm, fun _ _ hc => by cases hc⟩
  | merge old new => exact .inl ⟨(Option.some.inj h).symm, fun _ _ hc => by cases hc⟩
  | generalize search params => exact .inl ⟨(Option.some.inj h).symm, fun _ _ hc => by cases hc⟩
  | addVariable _ _ => cases h
  | mint => cases h
  | bind _ _ => cases h
  | rebind _ _ _ => cases h
  | fixVariable _ => cases h
  | fixParameter _ => cases h
  | fork _ => cases h
  | setOverload _ _ => cases h

theorem Call.convertible?_of_fault {g : Graph} {t : Ty} {vars : List VarId} {f : Fault}
    (h : ((bind t vars).outcome g).fault = some f) : (bind t vars).convertible? g = some t := by
  rw [outcome, Graph.bind] at h
  rw [convertible?]
  cases hbind : g.bindTo vars t with
  | error m t' => rw [bindTo_eq_error hbind]
  | ok _ t' =>
    rw [hbind] at h
    cases h

/-- **How a call fails**, on the graph after any calls. A fault is the caller's or it is in the
bounds, never both. If it is the caller's, the graph is what it was, and so is the convertible that
was to be bound; this also holds of generalisation, no merge of which is ever refused. If it is in
the bounds, it names the contradiction, and a contradiction met while a reference is added names
that reference too. -/
theorem faults_of_after (tag : Nat) (lattice : Lattice) (policy : Policy) (calls : List Call) :
    let g := Graph.after { tag, lattice, policy } calls
    (∀ search params, g.generalizeGuarded search params = g.generalize search.find params) ∧
    ∀ c f, Outcome.fault (Call.outcome c g) = some f →
      (f.IsIllegalArgument ∧ ¬f.IsBoundContradiction ∨ f.IsBoundContradiction ∧
        ¬f.IsIllegalArgument) ∧
      (f.IsIllegalArgument →
        (c.outcome g).graph = g ∧ ∀ t vars, c = .bind t vars → c.convertible? g = some t) ∧
      (f.IsBoundContradiction →
        (∃ cause, f = .contradiction cause ∧ ∀ id r, c ≠ .addRef id r) ∨
        ∃ id r cause, c = .addRef id (some r) ∧ f = .ref id r.id cause) := by
  intro g
  have hwf : g.WellFormed := (WellFormed.empty tag lattice policy).after calls
  refine ⟨generalizeGuarded_eq hwf, fun c f hf => ?_⟩
  rcases c.clean_outcome g f hf with ⟨⟨m, rfl⟩, hsame⟩ | ⟨blame, cause, hblame, rfl⟩
  · refine ⟨.inl ⟨trivial, id⟩, fun _ => ⟨hsame, ?_⟩, False.elim⟩
    rintro t vars rfl
    exact Call.convertible?_of_fault hf
  · rcases Call.blame?_eq_some hblame with ⟨rfl, hc⟩ | ⟨id, r, rfl, rfl⟩
    · exact ⟨.inr ⟨trivial, fun h => h⟩, False.elim, fun _ => .inl ⟨cause, rfl, hc⟩⟩
    · exact ⟨.inr ⟨trivial, fun h => h⟩, False.elim, fun _ => .inr ⟨id, r, cause, rfl, rfl⟩⟩

end TypeBounds
