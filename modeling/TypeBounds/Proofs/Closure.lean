import TypeBounds.Proofs.Calls

/-!
# Closed edges

Whoever adds an edge adds all that follows from it, so what is below something below a variable is
below that variable: edges are closed (`Graph.Closed`). The other operations only take variables
out, and a merge goes by the two: it takes one variable out and adds edges for another.

* `mergeInto_closed`: a merge keeps edges closed, **also if it fails halfway**;
* `Call.closed_outcome`, `Graph.Closed.after`: so do all calls.
-/

namespace TypeBounds

open Infer Relation

namespace Graph

variable {g g' : Graph} {id old new x y z : VarId}

/-- **Closed edges.** Loops do not count: a variable on a cycle need not be below itself. -/
def Closed (g : Graph) : Prop :=
  ∀ x y z, x ∈ (g.boundsOf y).below → y ∈ (g.boundsOf z).below → x ≠ z → x ∈ (g.boundsOf z).below

section

variable (h : g.Closed)

include h

/-- What flows into a variable along edges is below it. -/
theorem Closed.mem_below_of_flow
    (hflow : ReflTransGen (fun a b => a ∈ (g.boundsOf b).below) x y) :
    x = y ∨ x ∈ (g.boundsOf y).below := by
  induction hflow with
  | refl => exact .inl rfl
  | @tail y z _ hyz ih =>
    rcases ih with rfl | hxy
    · exact .inr hyz
    · by_cases hxz : x = z
      · exact .inl hxz
      · exact .inr (h x y z hxy hyz hxz)

theorem Closed.of_sameEdges (he : SameEdges g g') : g'.Closed := by
  intro x y z hxy hyz hne
  rw [he.below] at hxy hyz ⊢
  exact h x y z hxy hyz hne

/-- Taking variables out leaves the rest closed. -/
theorem Closed.of_edges {D : VarId → Prop} (hedge : ∀ x y,
    x ∈ (g'.boundsOf y).below ↔ x ∈ (g.boundsOf y).below ∧ ¬D x ∧ ¬D y) : g'.Closed := by
  intro x y z hxy hyz hne
  obtain ⟨hxy, hx, -⟩ := (hedge x y).1 hxy
  obtain ⟨hyz, -, hz⟩ := (hedge y z).1 hyz
  exact (hedge x z).2 ⟨h x y z hxy hyz hne, hx, hz⟩

theorem Closed.isolate (hwf : g.WellFormed) (id : VarId) : (g.isolate id).Closed :=
  h.of_edges (D := (· = id)) (hwf.isolate id).2

theorem Closed.pruneSelfEdges (hwf : g.WellFormed) : g.pruneSelfEdges.Closed := by
  intro x y z hxy hyz hne
  have hedge := hwf.pruneSelfEdges.2
  exact (hedge x z).2 ⟨h x y z ((hedge x y).1 hxy).1 ((hedge y z).1 hyz).1 hne, hne⟩

/-- An edge from a variable to itself changes nothing. -/
theorem Closed.linkSelf (hid : id ∈ g.ids) : (g.link id id).Closed := by
  intro x y z hxy hyz hne
  rw [mem_below_link hid] at hxy hyz ⊢
  rcases hxy with hxy | ⟨rfl, rfl⟩
  · rcases hyz with hyz | ⟨rfl, rfl⟩
    · exact .inl (h x y z hxy hyz hne)
    · exact .inl hxy
  · exact hyz

/-- **An edge with all that follows from it.** -/
theorem Closed.linkAcross (hwf : g.WellFormed) (hx : x ∈ g.ids) (hy : y ∈ g.ids) :
    (g.linkAcross x y).Closed := by
  have hedge := (hwf.linkAcross hx hy).2
  -- what flows into `x`, and what `y` flows into, is closed downwards and upwards
  have hdown {a b : VarId} (hab : a ∈ (g.boundsOf b).below) (hb : b = x ∨
      b ∈ (g.boundsOf x).below) : a = x ∨ a ∈ (g.boundsOf x).below := by
    rcases hb with rfl | hb
    · exact .inr hab
    · by_cases hax : a = x
      · exact .inl hax
      · exact .inr (h a b x hab hb hax)
  have hup {b c : VarId} (hbc : b ∈ (g.boundsOf c).below) (hb : b = y ∨ b ∈ (g.boundsOf y).above) :
      c = y ∨ c ∈ (g.boundsOf y).above := by
    rcases hb with rfl | hb
    · exact .inr ((hwf.mirrored b c).1 hbc)
    · by_cases hcy : c = y
      · exact .inl hcy
      · exact .inr ((hwf.mirrored y c).1 (h y b c ((hwf.mirrored y b).2 hb) hbc (Ne.symm hcy)))
  intro a b c hab hbc hne
  rw [hedge] at hab hbc ⊢
  rcases hab with hab | ⟨ha, hb, -⟩
  · rcases hbc with hbc | ⟨hb, hc, -⟩
    · exact .inl (h a b c hab hbc hne)
    · exact .inr ⟨hdown hab hb, hc, hne⟩
  · rcases hbc with hbc | ⟨-, hc, -⟩
    · exact .inr ⟨ha, hup hbc hb, hne⟩
    · exact .inr ⟨ha, hc, hne⟩

theorem Closed.cutOff (hwf : g.WellFormed) (hnew : new ∈ g.ids) :
    (g.cutOff old new).Closed := by
  have hredirected : (g.redirect old new).Closed := h
  exact (hredirected.isolate (hwf.redirect hnew) old).of_sameEdges sameEdges_renameConvertibles

end

theorem mem_others_below : x ∈ others old new (g.below old) ↔
    x ∈ (g.boundsOf old).below ∧ x ≠ old ∧ x ≠ new := by
  simp [others, Graph.below]

theorem mem_others_above : x ∈ others old new (g.above old) ↔
    x ∈ (g.boundsOf old).above ∧ x ≠ old ∧ x ≠ new := by
  simp [others, Graph.above]

theorem Closed.unregister (h : g.Closed) : (g.unregister id).Closed := by
  intro x y z hxy hyz hne
  rw [boundsOf_unregister] at hxy hyz ⊢
  split at hyz
  · cases hyz
  · rename_i hz
    rw [if_neg hz]
    split at hxy
    · cases hxy
    · exact h x y z hxy hyz hne

end Graph

open TypeBounds.Graph

theorem spread_closed (side : Side) (id : VarId) (t : Ty) (s : Progress) :
    Along (Keeps Closed) (spread side id t) s :=
  fun h => h.of_sameEdges (sameShape_spread side id t s).sameEdges

/-- **A merge** keeps edges closed, whether it comes to its end or not. -/
theorem mergeInto_closed {old new : VarId} {s : Progress} (hwf : s.graph.WellFormed)
    (hne : old ≠ new) (hnew : new ∈ s.graph.ids) (h : s.graph.Closed) :
    (mergeInto old new s).2.graph.Closed := by
  rw [mergeInto_eq, graph_bind_apply, modify_bind_apply, bind_apply]
  set s₁ : Progress := { s with graph := s.graph.cutOff old new }
  set m := takeOver old new _ _
  let During (g : Graph) : Prop :=
    Merging s.graph.ids (s.graph.redirect old new).names old g ∧ g.Closed
  have hlink {x y : VarId} {g : Graph} (hg : During g) (hx : x ∈ s.graph.ids) (hy : y ∈ s.graph.ids)
      (hxo : x ≠ old) (hyo : y ≠ old) : During (g.linkAcross x y) := by
    obtain ⟨hm, hc⟩ := hg
    exact ⟨hm.linkAcross hx hy hxo hyo,
      hc.linkAcross hm.wellFormed (hm.ids_eq ▸ hx) (hm.ids_eq ▸ hy)⟩
  have hm : Along (Keeps During) m s₁ := by
    refine along_takeOver ?_ (fun g hg => ?_) (fun x hx g hg => ?_) (fun y hy g hg => ?_) s₁
    · intro side id t s hs
      have hshape : SameShape s.graph (spread side id t s).2.graph := sameShape_spread side id t s
      exact ⟨hs.1.of_sameEdges hshape.sameEdges hshape.names, hs.2.of_sameEdges hshape.sameEdges⟩
    · exact ⟨hg.1.of_sameEdges sameEdges_inheritFrozen names_inheritFrozen,
        hg.2.of_sameEdges sameEdges_inheritFrozen⟩
    · obtain ⟨hx, hxo, -⟩ := mem_others_below.1 hx
      exact hlink hg (hwf.mem_ids_of_mem_below hx) hnew hxo hne.symm
    · obtain ⟨hy, hyo, -⟩ := mem_others_above.1 hy
      exact hlink hg hnew (hwf.mem_ids_of_mem_above hy) hne.symm hyo
  have hstart : During s₁.graph := ⟨hwf.cutOff hnew, h.cutOff hwf hnew⟩
  rcases hout : m s₁ with ⟨_ | _, s₂⟩
  · exact (hm.of_eq hout hstart).2
  · have hend := (hm.of_eq hout hstart).2
    dsimp only
    split
    · exact hend
    · exact hend.unregister

theorem freeze_closed (id : VarId) (s : Progress) :
    Along (Keeps fun g => g.WellFormed ∧ g.Closed) (freeze id) s := by
  refine along_freeze ?_ (fun g hg => ?_) (fun g hg => ⟨hg.1.detach id, ?_⟩) s
  · exact fun side id t s hs => ⟨spread_keeps side id t s hs.1, spread_closed side id t s hs.2⟩
  · exact ⟨hg.1.of_sameShape sameShape_settle, hg.2.of_sameEdges sameShape_settle.sameEdges⟩
  · have hsame :
        SameEdges (g.isolate id) ((g.isolate id).update id fun b => { b with frozen := true }) :=
      sameEdges_update fun _ => ⟨rfl, rfl⟩
    have hupdated := (hg.2.isolate hg.1 id).of_sameEdges hsame
    exact hupdated

theorem generalizeAll_closed {search : Search} (params : List VarId) (s : Progress) :
    Along (Keeps fun g => g.WellFormed ∧ g.Closed) (generalizeAll search.find params) s := by
  refine generalizeAll_keeps (fun _ h => h.1) (fun g h => ?_) (fun old new s hne hnew h => ?_)
    freeze_closed params s
  · exact ⟨h.1.pruneSelfEdges.1, h.2.pruneSelfEdges h.1⟩
  · exact ⟨mergeInto_wellFormed hne hnew h.1, mergeInto_closed h.1 hne hnew h.2⟩

/-! ## Calls -/

namespace Graph

variable {g g' : Graph} {id : VarId}

theorem Closed.addBound (h : g.Closed) (side : Side) (id : VarId) (t : Ty) :
    (g.addBound side id t).graph.Closed := addBound_keeps h fun _ => spread_closed side id t _ h

theorem Closed.addRef (h : g.Closed) (hwf : g.WellFormed) (id : VarId) (r : Option Reference) :
    (g.addRef id r).graph.Closed := by
  refine addRef_keeps h (fun _ => spread_closed .lower id _ _ h) (fun hid => h.linkSelf hid)
    fun x hx hid => ?_
  exact along_addEdge (s := { graph := g }) spread_closed (fun h => h.linkAcross hwf hx hid) h

theorem Closed.rebindCell (h : g.Closed) (cell owner : Nat) (var : String) :
    (g.rebindCell cell owner var).Closed :=
  h.of_sameEdges (sameEdges_mapMembers (fun _ => Ty.rebindMembers _ _ _) rfl)

theorem Closed.fixVariable (h : g.Closed) {name : String} (hg : g.fixVariable name = .ok g') :
    g'.Closed := by
  obtain ⟨r, -, rfl⟩ := fixVariable_eq_ok.1 hg
  refine Closed.of_sameEdges (g := { g with names := g.names.insert name _ }) h
    (sameEdges_update fun b => ?_)
  exact ⟨below_completed b, above_completed b⟩

theorem Closed.fixParameter (h : g.Closed) (hg : g.fixParameter id = .ok g') : g'.Closed := by
  obtain ⟨-, rfl⟩ := fixParameter_eq_ok.1 hg
  refine Closed.of_sameEdges (g := g.pin id) h (sameEdges_update fun b => ?_)
  exact ⟨below_defaulted b, above_defaulted b⟩

theorem Closed.addVariable (h : g.Closed) {name : String} {r : Option Reference}
    (hg : g.addVariable name r = .ok g') : g'.Closed := by
  intro x y z
  rw [boundsOf_addVariable hg, boundsOf_addVariable hg]
  exact h x y z

end Graph

/-- **One call**, successful or not, keeps edges closed. -/
theorem Call.closed_outcome (c : Call) {g : Graph} (hwf : g.WellFormed) (h : g.Closed) :
    (c.outcome g).graph.Closed := by
  cases c with
  | addVariable name r => exact attempt_keeps h fun _ hg => h.addVariable hg
  | mint => exact h
  | bind t vars => exact bind_keeps h h.rebindCell
  | rebind cell owner var => exact h.rebindCell cell owner var
  | addLower id t => exact h.addBound .lower id t
  | addUpper id t => exact h.addBound .upper id t
  | addRef id r => exact h.addRef hwf id r
  | fixVariable name => exact attempt_keeps h fun _ hg => h.fixVariable hg
  | fixParameter id => exact attempt_keeps h fun _ hg => h.fixParameter hg
  | merge old new =>
    exact merge_keeps h fun hne hnew => mergeInto_closed (s := { graph := g }) hwf hne hnew h
  | generalize search params =>
    exact generalize_keeps h (generalizeAll_closed params { graph := g } ⟨hwf, h⟩).2
  | fork tag =>
    exact h.of_sameEdges
      (sameEdges_mapMembers (fun _ ms => Members.ofTypes (Ty.mapEach (g.handOver tag) ms)) rfl)
  | setOverload name f => exact setOverload_keeps h fun _ => h

/-- **All calls.** -/
theorem Graph.Closed.after {g : Graph} (hwf : g.WellFormed) (h : g.Closed) (calls : List Call) :
    (g.after calls).Closed :=
  (after_keeps (I := fun g => g.WellFormed ∧ g.Closed) (K := fun _ => True)
    (fun c _ _ h => ⟨c.wellFormed_outcome h.1, c.closed_outcome h.1 h.2⟩) ⟨hwf, h⟩
    fun _ _ => trivial).2

theorem Graph.Closed.empty (tag : Nat) (lattice : Lattice) (policy : Policy) :
    Closed { tag, lattice, policy } := fun _ _ _ h => (List.not_mem_nil h).elim

end TypeBounds
