import TypeBounds.Proofs.Accepted

/-!
# Changes are noted

A call that adds to bounds says whether it changed anything. It is **honest** about that: a success
that notes no change left the graph as it was. The reason is local. A visit of a variable takes
members in or finds all of them absorbed. In the first case it notes a change, and nothing takes a
note back; in the second it did nothing at all.

* `Infer.Honest`: such computations, closed under sequencing;
* `honest_visit`, `honest_spread`, `honest_addEdge`: one visit, a whole propagation and a new edge;
* `Call.honest_outcome`: the three calls.
-/

namespace TypeBounds

namespace Infer

variable {α β : Type} {m : Infer α} {a : α} {s s' : Progress}

/-- **Honesty**: unless a change is noted in the end, a success leaves the graph as it was, and what
was noted about changes as well. -/
def Honest (m : Infer α) (s : Progress) : Prop :=
  ∀ a s', m s = (.ok a, s') → s'.effect.changed = true ∨
    s'.graph = s.graph ∧ s'.effect.changed = s.effect.changed

namespace Honest

theorem pure (a : α) : Honest (pure a : Infer α) s := by
  intro b s' hrun
  obtain ⟨-, rfl⟩ := pure_eq_ok.1 hrun
  exact .inr ⟨rfl, rfl⟩

theorem fail (e : Contradiction) : Honest (fail e : Infer α) s := by
  intro a s' hrun
  cases hrun

theorem note {f : Effect → Effect} (hf : ∀ e, (f e).changed = e.changed) : Honest (note f) s := by
  intro a s' hrun
  cases hrun
  exact .inr ⟨rfl, hf _⟩

theorem bind {f : α → Infer β} (hm : Honest m s)
    (hf : ∀ a s', m s = (.ok a, s') → Honest (f a) s') : Honest (m >>= f) s := by
  intro b s' hrun
  obtain ⟨a, s₁, hfirst, hrun⟩ := bind_eq_ok.1 hrun
  rcases hf a s₁ hfirst b s' hrun with hchanged | ⟨hgraph, hsame⟩
  · exact .inl hchanged
  · rw [hgraph, hsame]
    exact hm a s₁ hfirst

theorem graph_bind {f : Graph → Infer β} (h : Honest (f s.graph) s) : Honest (graph >>= f) s := h

/-- Nothing takes a note back. -/
theorem changed (h : Honest m s) (hs : s.effect.changed = true) (hrun : m s = (.ok a, s')) :
    s'.effect.changed = true := by
  rcases h a s' hrun with hchanged | ⟨-, hsame⟩
  · exact hchanged
  · rw [hsame, hs]

/-- Once a change is noted, honest computations keep it noted. -/
theorem changed_of_noteChanged {k : Unit → Infer α} (hk : ∀ s', Honest (k ()) s')
    (hrun : (noteChanged >>= k) s = (.ok a, s')) : s'.effect.changed = true := by
  obtain ⟨_, s₁, hnote, hrun⟩ := bind_eq_ok.1 hrun
  cases hnote
  exact (hk _).changed rfl hrun

theorem composes : Composes Honest := ⟨pure, fail, fun _ => note fun _ => rfl, graph_bind, bind⟩

end Honest

end Infer

open Infer

/-! ## Propagation -/

section

variable {side : Side} {id : VarId} {t : Ty} {s s' : Progress}
  {nested : Side → VarId → Ty → Infer Unit}

/-- Members none of which was new changed nothing at all. -/
theorem eq_of_anyNew_eq_false {each : Ty → Infer Bool} {ms : List Ty}
    (heach : ∀ m s s', each m s = (.ok false, s') → s' = s)
    (hrun : anyNew each ms s = (.ok false, s')) : s' = s := by
  induction ms generalizing s with
  | nil => exact (pure_eq_ok.1 hrun).2.symm
  | cons m ms ih =>
    obtain ⟨new, s₁, hm, hrun⟩ := bind_eq_ok.1 hrun
    obtain ⟨newer, s₂, hms, hrun⟩ := bind_eq_ok.1 hrun
    obtain ⟨hnone, rfl⟩ := pure_eq_ok.1 hrun
    obtain ⟨rfl, rfl⟩ := Bool.or_eq_false_iff.1 hnone
    exact (ih hms).trans (heach m s s₁ hm)

theorem eq_of_enter_eq_false (hrun : enter nested side t id s = (.ok false, s')) : s' = s := by
  rw [enter_eq, graph_bind_apply] at hrun
  refine eq_of_anyNew_eq_false (fun m s s' hm => ?_) hrun
  cases side with
  | lower =>
    rcases joinMember_ok hm with ⟨-, -, hs⟩ | ⟨-, hnew, -⟩
    · exact hs
    · cases hnew
  | upper =>
    rcases meetMember_ok hm with ⟨-, -, hs⟩ | ⟨-, hnew, -⟩
    · exact hs
    · cases hnew

/-- **One visit**: it took something in and says so, or nothing happened. -/
theorem honest_visit (nested : Side → VarId → Ty → Infer Unit) (side : Side) (t : Ty) (id : VarId)
    (s : Progress) : Honest (visit nested side t id) s := by
  intro found s' hrun
  rw [visit_eq] at hrun
  obtain ⟨new, s₁, henter, hrun⟩ := bind_eq_ok.1 hrun
  cases new with
  | false =>
    obtain ⟨-, rfl⟩ := pure_eq_ok.1 hrun
    obtain rfl := eq_of_enter_eq_false henter
    exact .inr ⟨rfl, rfl⟩
  | true =>
    refine .inl (Honest.changed_of_noteChanged (fun s₂ => ?_) hrun)
    exact (Honest.composes.recheck id s₂).bind fun _ s₃ _ => .graph_bind (.pure _)

/-- **Propagation.** -/
theorem honest_spread (side : Side) (id : VarId) (t : Ty) (s : Progress) :
    Honest (spread side id t) s := by
  refine Honest.graph_bind ?_
  cases s.graph.spreadDepth t with
  | zero => exact Honest.note (f := fun e => { e with complete := false }) fun _ => rfl
  | succ depth => exact .graph_bind (Honest.composes.exploreM (honest_visit _ side t) _ _ _ s)

theorem honest_handOn (side : Side) (id : VarId) (ms : Members) (s : Progress) :
    Honest (handOn side id ms) s := by
  unfold handOn
  split
  · exact .pure _
  · exact honest_spread side id _ s

/-- **A new edge.** -/
theorem honest_addEdge (x y : VarId) (s : Progress) : Honest (addEdge x y) s := by
  rw [addEdge_eq]
  refine Honest.graph_bind ?_
  split
  · exact .pure _
  · intro a s' hrun
    rw [modify_bind_apply] at hrun
    refine .inl (Honest.changed_of_noteChanged (fun s₁ => ?_) hrun)
    exact (honest_handOn .lower y _ s₁).bind fun _ s₂ _ => .graph_bind (honest_handOn .upper x _ s₂)

end

/-! ## Calls -/

/-- The calls that add a type or a reference to the bounds of a variable. -/
def Call.Adds : Call → Prop
  | addLower _ _ => True
  | addUpper _ _ => True
  | addRef _ _ => True
  | _ => False

/-- Unless there is a fault or a change is noted, the graph is as it was. -/
def Outcome.Honest (o : Outcome) (g : Graph) : Prop :=
  o.fault = none → o.effect.changed = false → o.graph = g

theorem Graph.honest_run {g : Graph} {m : Infer Unit} (h : Infer.Honest m { graph := g })
    (blame : Contradiction → Fault) : (g.run blame m).Honest g := by
  intro hfault hchanged
  rw [run] at hfault hchanged ⊢
  rcases hm : m { graph := g } with ⟨e | _, s⟩
  · rw [hm] at hfault
    cases hfault
  · rw [hm] at hchanged
    rcases h () s hm with hnoted | ⟨hgraph, -⟩
    · cases hchanged.symm.trans hnoted
    · exact hgraph

theorem Graph.honest_addBound (g : Graph) (side : Side) (id : VarId) (t : Ty) :
    (g.addBound side id t).Honest g := by
  unfold addBound
  split
  · exact fun _ _ => rfl
  · split
    · exact fun _ _ => rfl
    · exact honest_run (honest_spread side id t _) _

theorem Graph.honest_addRef (g : Graph) (id : VarId) (r : Option Reference) :
    (g.addRef id r).Honest g := by
  unfold addRef
  split
  · exact fun _ _ => rfl
  · exact fun _ _ => rfl
  · split
    · exact fun _ _ => rfl
    · split
      · split
        · exact fun _ _ => rfl
        · exact honest_run (honest_spread .lower id _ _) _
      · split
        · split
          · exact fun _ _ => rfl
          · intro _ hchanged
            cases hchanged
        · exact honest_run (honest_addEdge _ id _) _

/-- **The calls are honest**, whatever the graph. -/
theorem Call.honest_outcome {c : Call} (hc : c.Adds) (g : Graph) : (c.outcome g).Honest g := by
  cases c with
  | addLower id t => exact g.honest_addBound .lower id t
  | addUpper id t => exact g.honest_addBound .upper id t
  | addRef id r => exact g.honest_addRef id r
  | _ => exact hc.elim

end TypeBounds
