import TypeBounds.Proofs.Closure

/-!
# Loops

An edge from a variable to itself says nothing, so nothing makes one but the call that asks for it.
Edges are closed up to loops, and the closure of a new edge leaves them out; a merge takes the loop
of the old variable away with it and gives the new one none.

* `NoNewLoops`: what every step goes along, with `linkAcross_noNewLoops` for the closure of an edge
  and `steps_noNewLoops` for what calls are made of, **also if it fails halfway**;
* `Call.hasLoop_outcome`: the loops after one call;
* `closed_and_loops_of_after`: edges and loops after any calls.
-/

namespace TypeBounds

open Infer

/-- The variable is below itself. -/
def Graph.HasLoop (g : Graph) (x : VarId) : Prop := x ∈ (g.boundsOf x).below

/-- Whatever has a loop in the one graph had it in the other. -/
structure NoNewLoops (g g' : Graph) : Prop where
  hasLoop : ∀ x, g'.HasLoop x → g.HasLoop x

instance : IsPreorder Graph NoNewLoops where
  refl _ := ⟨fun _ h => h⟩
  trans _ _ _ h h' := ⟨fun x hx => h.hasLoop x (h'.hasLoop x hx)⟩

namespace Graph

variable {g g' : Graph} {id old new x y : VarId}

/-- Taking edges away makes no loop. -/
theorem noNewLoops_of_subset (h : ∀ x, (g'.boundsOf x).below ⊆ (g.boundsOf x).below) :
    NoNewLoops g g' :=
  ⟨fun x hx => h x hx⟩

theorem noNewLoops_of_sameEdges (h : SameEdges g g') : NoNewLoops g g' :=
  noNewLoops_of_subset fun x => by rw [h.below]; exact List.Subset.refl _

/-- An edge between two variables is no loop. -/
theorem link_noNewLoops (hne : x ≠ y) : NoNewLoops g (g.link x y) := by
  refine ⟨fun z hz => ?_⟩
  by_cases hy : y ∈ g.ids
  · rcases (mem_below_link hy).1 hz with hz | ⟨rfl, rfl⟩
    · exact hz
    · exact absurd rfl hne
  · -- there is no record that the edge could be entered in
    have hz' : z ∈ (g.link x y).ids := mem_ids_of_mem_below_of hz
    rw [sameTypes_link.ids] at hz'
    have hzy : z ≠ y := fun h => hy (h ▸ hz')
    simpa [HasLoop, link, boundsOf_update, apply_ite Bounds.below, hzy] using hz

/-- **The closure of an edge** makes no loop, even if the edge closes a cycle. -/
theorem linkAcross_noNewLoops (x y : VarId) (g : Graph) : NoNewLoops g (g.linkAcross x y) := by
  rw [linkAcross_eq]
  refine along_foldl NoNewLoops (fun g a => along_foldl NoNewLoops (fun g b => ?_) _) _
  split
  · exact refl_of NoNewLoops g
  · rename_i hab
    exact link_noNewLoops hab

theorem unlink_noNewLoops : NoNewLoops g (g.unlink x y) := by
  refine noNewLoops_of_subset fun z => ?_
  rw [below_unlink]
  split
  · exact List.erase_subset
  · exact List.Subset.refl _

theorem isolate_noNewLoops : NoNewLoops g (g.isolate id) := by
  rw [isolate_eq]
  exact along_foldl NoNewLoops (fun _ _ => unlink_noNewLoops) _

theorem cutOff_noNewLoops : NoNewLoops g (g.cutOff old new) := by
  have hredirected : NoNewLoops g (g.redirect old new) := ⟨fun _ h => h⟩
  exact trans_of NoNewLoops (trans_of NoNewLoops hredirected isolate_noNewLoops)
    (noNewLoops_of_sameEdges sameEdges_renameConvertibles)

theorem unregister_noNewLoops : NoNewLoops g (g.unregister id) := by
  refine noNewLoops_of_subset fun z => ?_
  rw [boundsOf_unregister]
  split
  · exact List.nil_subset _
  · exact List.Subset.refl _

theorem pruneSelfEdges_noNewLoops : NoNewLoops g g.pruneSelfEdges := by
  refine noNewLoops_of_subset fun z => ?_
  rw [boundsOf_pruneSelfEdges, withoutSelf]
  split
  · exact List.erase_subset
  · exact List.Subset.refl _

theorem detach_noNewLoops : NoNewLoops g (detach id g) := by
  have hfrozen : SameEdges (g.isolate id) (detach id g) := by
    have hsame :
        SameEdges (g.isolate id) ((g.isolate id).update id fun b => { b with frozen := true }) :=
      sameEdges_update fun _ => ⟨rfl, rfl⟩
    exact ⟨hsame.ids, hsame.below, hsame.above⟩
  exact trans_of NoNewLoops isolate_noNewLoops (noNewLoops_of_sameEdges hfrozen)

end Graph

open TypeBounds.Graph

section

variable {g g' : Graph}

/-- **What calls are made of** makes no loop, whether it comes to its end or not. -/
theorem steps_noNewLoops : Steps NoNewLoops where
  spread side id t s := noNewLoops_of_sameEdges (sameShape_spread side id t s).sameEdges
  linkAcross := linkAcross_noNewLoops
  cutOff _ _ _ := cutOff_noNewLoops
  inheritFrozen _ _ _ := noNewLoops_of_sameEdges sameEdges_inheritFrozen
  unregister _ _ := unregister_noNewLoops
  settle _ _ := noNewLoops_of_sameEdges sameShape_settle.sameEdges
  detach _ _ := detach_noNewLoops
  pruneSelfEdges _ := pruneSelfEdges_noNewLoops
  fixVariable name g _ hg := by
    obtain ⟨r, -, rfl⟩ := fixVariable_eq_ok.1 hg
    have hnamed : NoNewLoops g { g with names := g.names.insert name { r with fixed := true } } :=
      ⟨fun _ h => h⟩
    refine trans_of NoNewLoops hnamed (noNewLoops_of_sameEdges (sameEdges_update fun b => ?_))
    exact ⟨below_completed b, above_completed b⟩
  fixParameter id g _ hg := by
    obtain ⟨-, rfl⟩ := fixParameter_eq_ok.1 hg
    have hpinned : NoNewLoops g (g.pin id) := ⟨fun _ h => h⟩
    refine trans_of NoNewLoops hpinned (noNewLoops_of_sameEdges (sameEdges_update fun b => ?_))
    exact ⟨below_defaulted b, above_defaulted b⟩
  rebindCell _ _ _ _ :=
    noNewLoops_of_sameEdges (sameEdges_mapMembers (fun _ => Ty.rebindMembers _ _ _) rfl)
  fork tag g := noNewLoops_of_sameEdges
    (sameEdges_mapMembers (fun _ ms => Members.ofTypes (Ty.mapEach (g.handOver tag) ms)) rfl)
  setOverload _ _ := ⟨fun _ h => h⟩

/-! ## Calls -/

/-- **A reference** makes a loop only at its own variable, and only if it is mutable. -/
theorem hasLoop_addRef {id x : VarId} {r : Option Reference} (h : (g.addRef id r).graph.HasLoop x) :
    g.HasLoop x ∨ x = id ∧ r = some { id := x, fixed := false } := by
  unfold Graph.addRef at h
  split at h
  · exact .inl h
  · exact .inl h
  · rename_i b r hid
    split at h
    · exact .inl h
    · rename_i rb hr
      by_cases hfixed : r.fixed
      · rw [if_pos hfixed] at h
        split at h
        · exact .inl h
        · -- a fixed reference adds a type and no edge
          exact .inl ((along_run (steps_noNewLoops.spread ..)).hasLoop x h)
      · rw [if_neg hfixed] at h
        by_cases hself : r.id = id
        · rw [if_pos hself] at h
          split at h
          · exact .inl h
          · rcases (mem_below_link (mem_ids_of_require hid)).1 h with h | ⟨rfl, -⟩
            · exact .inl h
            · refine .inr ⟨rfl, ?_⟩
              obtain ⟨rid, fixed⟩ := r
              simp_all
        · rw [if_neg hself] at h
          refine .inl ((along_run (along_addEdge steps_noNewLoops.spread ?_)).hasLoop x h)
          exact linkAcross_noNewLoops ..

end

/-- **The loops after one call**, successful or not: those from before, and the one that the call
asks for. -/
theorem Call.hasLoop_outcome (c : Call) {g : Graph} {x : VarId}
    (h : (c.outcome g).graph.HasLoop x) :
    g.HasLoop x ∨ c = .addRef x (some { id := x, fixed := false }) := by
  have hold (hnone : NoNewLoops g (c.outcome g).graph) :
      g.HasLoop x ∨ c = .addRef x (some { id := x, fixed := false }) := .inl (hnone.hasLoop x h)
  cases c with
  | addVariable name r =>
    refine hold (along_attempt fun g' hg => ?_)
    refine noNewLoops_of_subset fun z => ?_
    rw [boundsOf_addVariable hg]
    exact List.Subset.refl _
  | mint => exact .inl h
  | addRef id r =>
    rcases hasLoop_addRef h with h | ⟨rfl, rfl⟩
    · exact .inl h
    · exact .inr rfl
  | _ =>
    exact hold (steps_noNewLoops.outcome _ (by rintro ⟨⟩) (by rintro _ _ ⟨⟩) (by rintro _ _ ⟨⟩))

/-- **The loops after all calls.** -/
theorem Graph.hasLoop_after {g : Graph} {calls : List Call} {x : VarId}
    (h : (g.after calls).HasLoop x) :
    g.HasLoop x ∨ .addRef x (some { id := x, fixed := false }) ∈ calls := by
  induction calls generalizing g with
  | nil => exact .inl h
  | cons c calls ih =>
    rcases ih h with h | hmem
    · rcases c.hasLoop_outcome h with h | rfl
      · exact .inl h
      · exact .inr (List.mem_cons_self ..)
    · exact .inr (List.mem_cons_of_mem _ hmem)

/-- **Closed edges and loops** after any calls whatsoever, failed ones included: what is below
something below a variable is below that variable, and a variable is below itself only if a call
made it so with a mutable reference. No other call makes a loop, at whatever point it comes. -/
theorem closed_and_loops_of_after (tag : Nat) (lattice : Lattice) (policy : Policy)
    (calls : List Call) : let g := Graph.after { tag, lattice, policy } calls
    (∀ x y z, x ≠ z → x ∈ (g.boundsOf y).below → y ∈ (g.boundsOf z).below →
      x ∈ (g.boundsOf z).below) ∧
    (∀ x, g.HasLoop x → .addRef x (some { id := x, fixed := false }) ∈ calls) ∧
    ∀ (c : Call) x, (c.outcome g).graph.HasLoop x →
      g.HasLoop x ∨ c = .addRef x (some { id := x, fixed := false }) := by
  intro g
  have hclosed : g.Closed :=
    (Closed.empty tag lattice policy).after (WellFormed.empty tag lattice policy) calls
  refine ⟨fun x y z hne hxy hyz => hclosed x y z hxy hyz hne, fun x hx => ?_,
    fun c x => c.hasLoop_outcome⟩
  exact (hasLoop_after hx).resolve_left fun h => (List.not_mem_nil h).elim

end TypeBounds
