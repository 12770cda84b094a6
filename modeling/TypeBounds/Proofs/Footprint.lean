import TypeBounds.Proofs.Bare
import TypeBounds.Proofs.Closure
import TypeBounds.Proofs.Exactness
import TypeBounds.Proofs.Sharing

/-!
# What adding a type touches

Without implicit conversions no check calls for another propagation, so a type that is added to one
side of a variable stays on that side and goes where the edges lead. Edges are closed, so that is
one step.

* `Confined`: two graphs differ in one side of the bounds of some variables, and in nothing else;
* `visit_confined`, `spread_confined`: one variable, and a whole propagation, **also if it fails**.
  Nothing is asked of the types: convertibles may come in and may be there;
* `frame_of_addBound`: what a call that adds a type leaves alone, in the graph and in the session
  around it.
-/

namespace TypeBounds

open Infer

/-- **Confined to one side** of the variables in `S`: all else is the same in the two graphs. -/
structure Confined (side : Side) (S : VarId → Prop) (g g' : Graph) :
    Prop extends SameShape g g' where
  other : ∀ x, (g'.boundsOf x).side side.other = (g.boundsOf x).side side.other
  outside : ∀ x, ¬S x → (g'.boundsOf x).side side = (g.boundsOf x).side side

namespace Confined

variable {side : Side} {S S' : VarId → Prop} {g g' g'' : Graph} {id x : VarId} {m : Ty}

theorem refl (side : Side) (S : VarId → Prop) (g : Graph) : Confined side S g g :=
  ⟨refl_of SameShape g, fun _ => rfl, fun _ _ => rfl⟩

theorem trans (h : Confined side S g g') (h' : Confined side S g' g'') : Confined side S g g'' where
  toSameShape := trans_of SameShape h.toSameShape h'.toSameShape
  other x := (h'.other x).trans (h.other x)
  outside x hx := (h'.outside x hx).trans (h.outside x hx)

theorem mono (h : Confined side S g g') (hS : ∀ x, S x → S' x) : Confined side S' g g' :=
  ⟨h.toSameShape, h.other, fun x hx => h.outside x fun hSx => hx (hS x hSx)⟩

/-- All that is new in a record is one of its sides. -/
theorem boundsOf_eq (h : Confined side S g g') (x : VarId) :
    g'.boundsOf x = (g.boundsOf x).withSide ((g'.boundsOf x).side side) side := by
  have hbelow := h.below x
  have habove := h.above x
  have hfrozen := h.frozen x
  have hother := h.other x
  cases side with
  | lower =>
    rw [Bounds.withSide, ← hbelow, ← habove, ← hfrozen]
    exact congrArg (fun upper => { g'.boundsOf x with upper }) hother
  | upper =>
    rw [Bounds.withSide, ← hbelow, ← habove, ← hfrozen]
    exact congrArg (fun lower => { g'.boundsOf x with lower }) hother

theorem boundsOf_eq_of_not (h : Confined side S g g') (hx : ¬S x) :
    g'.boundsOf x = g.boundsOf x := by
  rw [h.boundsOf_eq x, h.outside x hx]
  cases side <;> rfl

theorem eq_bounds (h : Confined side S g g') : g' = { g with bounds := g'.bounds } := by
  obtain ⟨tag, lattice, policy, minted, names, bounds, overloads⟩ := g'
  have hnames := h.names
  have htag := h.tag
  have hlattice := h.lattice
  have hpolicy := h.policy
  have hminted := h.minted
  have hoverloads := h.overloads
  dsimp only at hnames htag hlattice hpolicy hminted hoverloads
  rw [hnames, htag, hlattice, hpolicy, hminted, hoverloads]

/-! ## Insertions -/

theorem insertLower : Confined .lower (· = id) g (g.insertLower id m) where
  toSameShape := Graph.sameShape_insertLower m
  other _ := Graph.upper_insertLower
  outside _ hx := congrArg Bounds.lower (Graph.boundsOf_insertLower_ne hx)

theorem insertUpper (h : g.insertUpper id m = .ok g') : Confined .upper (· = id) g g' := by
  refine ⟨Graph.sameShape_insertUpper h, fun x => ?_, fun x hx => ?_⟩
  · unfold Graph.insertUpper at h
    dsimp only at h
    split at h
    · cases h
    · cases h
      exact Graph.field_update Bounds.lower fun _ => rfl
  · exact congrArg Bounds.upper (Graph.boundsOf_insertUpper_ne hx h)

end Confined

/-! ## Propagation -/

section

variable {S : VarId → Prop} {g₀ g : Graph} {side : Side} {id x y z : VarId} {m t : Ty}
  {s : Progress} {nested : Side → VarId → Ty → Infer Unit}

/-- Nothing is converted, unions included. -/
theorem Lattice.Quiet.implicit?_eq_none (hq : g.lattice.Quiet) (a b : Ty) :
    g.implicit? a b = none := by
  rcases hc : g.implicit? a b with _ | c
  · rfl
  · obtain ⟨hmem, himplicit⟩ := Lattice.bridge?_eq_some hc
    rw [hq c hmem] at himplicit
    cases himplicit

theorem checkUpper_along {R : Graph → Graph → Prop} [IsPreorder Graph R]
    (hq : s.graph.lattice.Quiet) (narrow : VarId → Ty → Infer Unit) (id : VarId) (m : Ty) :
    Along R (checkUpper narrow id m) s := by
  refine Along.graph_bind ?_
  dsimp only
  rw [hq.implicit?_eq_none]
  split
  · exact Along.pure _
  · exact Along.fail _

theorem sources_eq_nil {sources : List Ty} {s' : Progress} (hq : s.graph.lattice.Quiet)
    (hrun : checkLower id m s = (.ok sources, s')) : sources = [] := by
  obtain ⟨-, -, hsources⟩ := checkLower_passed hrun
  refine List.eq_nil_iff_forall_not_mem.2 fun source hsource => ?_
  obtain ⟨l, -, -, c, hc, -⟩ := hsources source hsource
  rw [hq.implicit?_eq_none] at hc
  cases hc

/-- **One member** changes one side of one variable. -/
theorem member_confined (hq : g₀.lattice.Quiet) (hid : S id) (side : Side) (m : Ty) (s : Progress) :
    Along (Keeps (Confined side S g₀)) (member nested side id m) s := by
  refine Along.assuming fun hconfined => ?_
  have hquiet : s.graph.lattice.Quiet := hconfined.lattice ▸ hq
  have hmine : ∀ x, x = id → S x := fun x hx => hx ▸ hid
  cases side with
  | lower =>
    refine Along.graph_bind ?_
    split
    · exact Along.pure _
    · refine (checkUpper_along hquiet (nested .upper) id m).bind fun _ s₁ _ => ?_
      refine (Along.modify fun h => ?_).bind fun _ _ _ => Along.pure _
      exact h.trans (Confined.insertLower.mono hmine)
  | upper =>
    refine Along.graph_bind ?_
    split
    · exact Along.pure _
    · refine (Along.composes.checkLower id m s).bind fun sources s₁ hsources => Along.graph_bind ?_
      obtain rfl := sources_eq_nil hquiet hsources
      split
      · exact Along.fail _
      · rename_i g' hg'
        refine (Along.modify fun h => ?_).bind fun _ s₂ _ => Along.pure _
        exact h.trans ((Confined.insertUpper hg').mono hmine)

theorem enter_confined (hq : g₀.lattice.Quiet) (hid : S id) (side : Side) (t : Ty) (s : Progress) :
    Along (Keeps (Confined side S g₀)) (enter nested side t id) s := by
  rw [enter_eq]
  exact Along.graph_bind (Along.composes.anyNew (fun m _ => member_confined hq hid side m) s)

/-- What a run keeps, it keeps on success and on failure. -/
theorem Infer.Along.ends {α : Type} {I : Graph → Prop} {m : Infer α} (h : Along (Keeps I) m s)
    (hI : I s.graph) : Ends m s (fun _ s' => I s'.graph) fun _ s' => I s'.graph :=
  ⟨fun _ _ hrun => h.of_eq hrun hI, fun _ _ hrun => h.of_eq hrun hI⟩

/-- **One variable.** What it finds to go on to is where its edges lead. -/
theorem visit_confined (hq : g₀.lattice.Quiet) (hS : ∀ x y, S x → y ∈ g₀.onward side x → S y)
    (hid : S id) (h : Confined side S g₀ s.graph) : Ends (visit nested side t id) s
      (fun found s' => Confined side S g₀ s'.graph ∧ ∀ y ∈ found, S y) fun _ s' =>
      Confined side S g₀ s'.graph := by
  rw [visit_eq]
  refine ((enter_confined hq hid side t s).ends h).bind fun new s₁ h₁ => ?_
  cases new with
  | false => exact .pure ⟨h₁, fun y hy => (List.not_mem_nil hy).elim⟩
  | true =>
    have hchecked : Along (Keeps (Confined side S g₀)) (noteChanged >>= fun _ => recheck id) s₁ :=
      Along.note_bind fun s₂ _ => Along.composes.recheck id s₂
    rw [if_pos rfl, ← bind_assoc]
    refine (hchecked.ends h₁).bind fun _ s₂ h₂ => .graph_bind (.pure ⟨h₂, fun y hy => ?_⟩)
    rw [Graph.onward_eq_of_sameShape h₂.toSameShape] at hy
    exact hS id y hid hy

/-- **A whole propagation** stays where edges lead from where it starts, whether it succeeds or
not. -/
theorem spread_confined (hq : s.graph.lattice.Quiet)
    (hS : ∀ x y, S x → y ∈ s.graph.onward side x → S y) (hid : S id) (t : Ty) :
    Confined side S s.graph (spread side id t s).2.graph := by
  obtain ⟨depth, hspread⟩ := exists_spread_eq side id t s
  have hends : Ends (spread side id t) s (fun _ s' => Confined side S s.graph s'.graph)
      fun _ s' => Confined side S s.graph s'.graph := by
    refine .congr hspread (exploreM_ends (g := s.graph) (R := S) (fun n s₁ hn _ h => ?_)
      (fun _ hn => hn) (fun n hn => ?_) (.refl side S s.graph))
    · exact visit_confined hq hS hn h
    · rw [List.mem_singleton] at hn
      exact hn ▸ hid
  rcases hrun : spread side id t s with ⟨e | a, s'⟩
  · exact hends.error e s' hrun
  · exact hends.ok a s' hrun

/-! ## Calls -/

/-- One step further along closed edges leads nowhere new. -/
theorem Graph.Closed.onward_onward (h : g.Closed) (hwf : g.WellFormed) (hxy : y ∈ g.onward side x)
    (hyz : z ∈ g.onward side y) : z = x ∨ z ∈ g.onward side x := by
  by_cases hne : z = x
  · exact .inl hne
  · refine .inr ?_
    cases side with
    | lower =>
      rw [hwf.mem_onward_lower] at hxy hyz ⊢
      exact h x y z hxy hyz (Ne.symm hne)
    | upper =>
      rw [mem_onward_upper] at hxy hyz ⊢
      exact h z y x hyz hxy hne

theorem Graph.addBound_confined (hwf : g.WellFormed) (hclosed : g.Closed)
    (hq : g.lattice.Quiet) (side : Side) (id : VarId) (t : Ty) :
    Confined side (fun x => x = id ∨ x ∈ g.onward side id) g (g.addBound side id t).graph := by
  refine addBound_keeps (.refl ..) fun _ => ?_
  refine spread_confined (s := { graph := g }) hq (fun x y hx hy => ?_) (.inl rfl) t
  rcases hx with rfl | hx
  · exact .inr hy
  · exact hclosed.onward_onward hwf hx hy

end

/-- A variable below another one that has an upper bound, and a third one bounded by a convertible
to it. -/
def boundedPair : List Call :=
  [.addVariable "$x" (some { id := "T1" }), .addVariable "$y" (some { id := "T2" }),
    .addVariable "$z" (some { id := "T3" }), .addRef "T2" (some { id := "T1" }),
    .addUpper "T2" (.nominal "int" .primitive false []), .addLower "T3" (.asVar none 1 "T1")]

end TypeBounds
