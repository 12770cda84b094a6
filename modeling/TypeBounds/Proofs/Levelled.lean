import TypeBounds.Proofs.Bare
import TypeBounds.Proofs.Collapse
import TypeBounds.Proofs.Flow

/-!
# Levelled graphs

In a levelled graph whatever is below a variable with an upper bound has an upper bound, too
(`Graph.Levelled`). Upper bounds flow downwards, so propagation keeps a graph levelled, **if it
comes to its end**: a search for the places that an upper bound has to get to leaves levels uneven
only while some of them are still to be visited (`Descending`). A conversion narrows upper bounds
that are there already, and what that sets off is again such a search. The same goes for edges,
which hand the upper bound on, and for merges, which are made of edges.

* `Graph.Rises`: what propagation does to the levels; `spread_rises`, `capped_of_spread`;
* `Graph.Even`: a levelled graph, with what is needed to keep it so. Edges, merges and the calls
  made of them keep it (`Even.addEdge`, `mergesKeep_even`), and fixing does if it adds no upper
  bound (`Even.freeze`).
-/

namespace TypeBounds

open Infer

/-! ## After success -/

namespace Infer

variable {α β : Type} {R R' : Graph → Graph → Prop} {s : Progress}

/-- If the computation comes to its end, then it has taken the graph along `R`. -/
def Secures (R : Graph → Graph → Prop) (m : Infer α) (s : Progress) : Prop :=
  ∀ a s', m s = (.ok a, s') → R s.graph s'.graph

namespace Secures

/-- What holds however a computation ends holds when it succeeds. -/
theorem of_along {m : Infer α} (h : Along R m s) : Secures R m s := fun _ _ hrun => h.of_eq hrun

theorem mono (hR : ∀ g g', R g g' → R' g g') {m : Infer α} (h : Secures R m s) : Secures R' m s :=
  fun a s' hrun => hR _ _ (h a s' hrun)

theorem graph_bind {k : Graph → Infer β} (h : Secures R (k s.graph) s) :
    Secures R (graph >>= k) s := h

/-- Nothing is asked of what fails, since a refused type may have come halfway. -/
theorem fail (e : Contradiction) : Secures R (fail e : Infer α) s := fun _ _ hrun => by cases hrun

theorem note_bind {f : Effect → Effect} {k : Unit → Infer β}
    (h : ∀ s', s'.graph = s.graph → Secures R (k ()) s') : Secures R (note f >>= k) s :=
  h { s with effect := f s.effect } rfl

variable [IsPreorder Graph R]

theorem bind {m : Infer α} {k : α → Infer β} (hm : Secures R m s)
    (hk : ∀ a s', m s = (.ok a, s') → R s.graph s'.graph → Secures R (k a) s') :
    Secures R (m >>= k) s := by
  intro b s' hrun
  obtain ⟨a, s₁, hfirst, hrun⟩ := bind_eq_ok.1 hrun
  have hR := hm a s₁ hfirst
  exact trans_of R hR (hk a s₁ hfirst hR b s' hrun)

/-- The steps of a loop start from what the earlier ones lead to. -/
theorem forM {k : α → Infer PUnit} {xs : List α}
    (hk : ∀ a ∈ xs, ∀ s', R s.graph s'.graph → Secures R (k a) s') : Secures R (xs.forM k) s := by
  induction xs generalizing s with
  | nil => exact of_along (Along.pure _)
  | cons x xs ih =>
    obtain ⟨hx, hxs⟩ := List.forall_mem_cons.1 hk
    refine (hx s (refl_of R _)).bind fun _ s₁ _ hfirst => ih fun a ha s' hs' => ?_
    exact hxs a ha s' (trans_of R hfirst hs')

theorem anyNew {each : Ty → Infer Bool} {ts : List Ty}
    (heach : ∀ t ∈ ts, ∀ s', R s.graph s'.graph → Secures R (each t) s') :
    Secures R (anyNew each ts) s := by
  induction ts generalizing s with
  | nil => exact of_along (Along.pure _)
  | cons t ts ih =>
    obtain ⟨ht, hts⟩ := List.forall_mem_cons.1 heach
    refine (ht s (refl_of R _)).bind fun _ s₁ _ hfirst => ?_
    refine (ih fun a ha s' hs' => hts a ha s' (trans_of R hfirst hs')).bind fun _ _ _ _ => ?_
    exact of_along (Along.pure _)

end Secures

end Infer

/-! ## Levels -/

namespace Graph

variable {g g' : Graph} {n x y : VarId} {Z Z' : VarId → Prop}

/-- The variable has an upper bound. -/
def Capped (g : Graph) (x : VarId) : Prop := (g.boundsOf x).upper ≠ []

/-- **Levelled**: whatever is below a variable with an upper bound has an upper bound, too. -/
def Levelled (g : Graph) : Prop := ∀ x y, x ∈ (g.boundsOf y).below → g.Capped y → g.Capped x

instance (g : Graph) (x : VarId) : Decidable (g.Capped x) := inferInstanceAs (Decidable (_ ≠ []))

theorem levelled_iff :
    g.Levelled ↔ ∀ y ∈ g.ids, ∀ x ∈ (g.boundsOf y).below, g.Capped y → g.Capped x :=
  ⟨fun h y _ x hxy => h x y hxy, fun h x y hxy => h y (mem_ids_of_mem_below_of hxy) x hxy⟩

instance (g : Graph) : Decidable g.Levelled := decidable_of_iff' _ levelled_iff

/-- No member of an upper bound is an intersection. -/
def Flat (g : Graph) : Prop := ∀ x, ∀ m ∈ (g.boundsOf x).upper, ∀ ms, m.2 ≠ .inter ms

/-- **What propagation does to the levels.** Upper bounds stay. Where one is new, but for those in
`Z`, everything below has one, too. -/
structure Rises (Z : VarId → Prop) (g g' : Graph) : Prop where
  shape : SameShape g g'
  flat : g.Flat → g'.Flat
  kept : ∀ x, g.Capped x → g'.Capped x
  level : ∀ x y, x ∈ (g.boundsOf y).below → ¬Z y → g'.Capped y → g.Capped y ∨ g'.Capped x

instance : IsPreorder Graph (Rises Z) where
  refl g := ⟨refl_of SameShape g, id, fun _ => id, fun _ _ _ _ h => .inl h⟩
  trans g g' g'' h h' := by
    refine ⟨trans_of SameShape h.shape h'.shape, h'.flat ∘ h.flat,
      fun x hx => h'.kept x (h.kept x hx), ?_⟩
    intro x y hxy hy hcapped
    rcases h'.level x y (h.shape.below y ▸ hxy) hy hcapped with hcapped | hx
    · exact (h.level x y hxy hy hcapped).imp_right (h'.kept x)
    · exact .inr hx

theorem Rises.mono (h : Rises Z g g') (hZ : ∀ x, Z x → Z' x) : Rises Z' g g' :=
  ⟨h.shape, h.flat, h.kept, fun x y hxy hy => h.level x y hxy fun hz => hy (hZ y hz)⟩

/-- **A levelled graph stays levelled.** -/
theorem Levelled.of_rises (h : g.Levelled) (hrises : Rises (fun _ => False) g g') :
    g'.Levelled := by
  intro x y hxy hy
  rw [hrises.shape.below] at hxy
  rcases hrises.level x y hxy id hy with hy | hx
  · exact hrises.kept x (h x y hxy hy)
  · exact hx

/-- Fewer edges are easier to keep level. -/
theorem Levelled.of_edges (h : g.Levelled)
    (hedges : ∀ x y, x ∈ (g'.boundsOf y).below → x ∈ (g.boundsOf y).below ∧
      (g'.boundsOf x).upper = (g.boundsOf x).upper ∧ (g'.boundsOf y).upper = (g.boundsOf y).upper) :
    g'.Levelled := by
  intro x y hxy hy
  obtain ⟨hxy, hx', hy'⟩ := hedges x y hxy
  rw [Capped, hy'] at hy
  rw [Capped, hx']
  exact h x y hxy hy

theorem rises_of_upper (hshape : SameShape g g')
    (hupper : ∀ x, (g'.boundsOf x).upper = (g.boundsOf x).upper) : Rises Z g g' := by
  refine ⟨hshape, fun hflat x => ?_, fun x hx => ?_, fun x y _ _ hy => ?_⟩
  · rw [hupper]
    exact hflat x
  · rwa [Capped, hupper]
  · rw [Capped, hupper] at hy
    exact .inl hy

theorem rises_insertLower {m : Ty} : Rises Z g (g.insertLower x m) :=
  rises_of_upper (sameShape_insertLower m) fun _ => upper_insertLower

/-- Some of the old members stay, and a copy of the new one comes in. -/
theorem upper_insertUpper {m : Ty} (hn : n ∈ g.ids) (hg : g.insertUpper n m = .ok g') :
    ∃ ms, (∀ e ∈ ms, e ∈ (g.boundsOf n).upper) ∧ (g'.boundsOf n).upper = Members.add ms m.copy := by
  unfold insertUpper at hg
  dsimp only at hg
  split at hg
  · cases hg
  · cases hg
    rw [boundsOf_update_self hn]
    refine ⟨_, fun e he => ?_, rfl⟩
    revert he
    refine List.foldlRecOn (motive := fun ms => e ∈ ms → e ∈ (g.boundsOf n).upper) _ _ id
      fun ms hms d _ he => ?_
    exact hms (List.mem_of_mem_filter he)

/-- A copy is no intersection either, so bounds stay flat. -/
theorem copy_ne_inter {m : Ty} (hm : ∀ ms, m ≠ .inter ms) (ms : Members) : m.copy ≠ .inter ms := by
  cases m with
  | inter ms' => exact absurd rfl (hm ms')
  | _ =>
    simp only [Ty.copy, Ty.mapConvertibles, Ty.detach, Ty.unionOf]
    exact fun h => by cases h

/-- An upper bound may be new at the variable that gets a member. -/
theorem rises_insertUpper {m : Ty} (hm : ∀ ms, m ≠ .inter ms) (hn : n ∈ g.ids)
    (hg : g.insertUpper n m = .ok g') : Rises (· = n) g g' ∧ g'.Capped n := by
  obtain ⟨ms, hms, hupper⟩ := upper_insertUpper hn hg
  have hne {x : VarId} (hx : x ≠ n) : g'.boundsOf x = g.boundsOf x := boundsOf_insertUpper_ne hx hg
  have hcapped : g'.Capped n := by
    rw [Capped, hupper]
    exact Members.add_ne_nil _ _
  refine ⟨⟨sameShape_insertUpper hg, fun hflat x e he => ?_, fun x hx => ?_,
    fun x y _ hy hcapped => ?_⟩, hcapped⟩
  · by_cases hx : x = n
    · rw [hx, hupper] at he
      rcases Members.mem_add he with he | rfl
      · exact hflat n e (hms e he)
      · exact copy_ne_inter hm
    · rw [hne hx] at he
      exact hflat x e he
  · by_cases hxn : x = n
    · rw [hxn]
      exact hcapped
    · rwa [Capped, hne hxn]
  · rw [Capped, hne hy] at hcapped
    exact .inl hcapped

end Graph

/-! ## Propagation -/

section

open TypeBounds.Graph

variable {nested : Side → VarId → Ty → Infer Unit} {n x start : VarId} {m t : Ty} {s s' : Progress}

/-- Nested propagation keeps the levels even. -/
def LevelsOut (nested : Side → VarId → Ty → Infer Unit) : Prop :=
  ∀ side x t s, s.graph.lattice.Plain → s.graph.WellFormed → t.Bare →
    Secures (Rises fun _ => False) (nested side x t) s

section

variable (h : LevelsOut nested) (hl : s.graph.lattice.Plain) (hwf : s.graph.WellFormed)

include h hl hwf

/-- The check puts the target of a conversion into upper bounds, by a nested propagation. -/
theorem checkUpper_rises :
    Secures (Rises fun _ => False) (checkUpper (nested .upper) x m) s := by
  apply Secures.graph_bind
  dsimp only
  split
  · exact Secures.of_along (Along.pure _)
  · cases hc : s.graph.implicit? m (.inter (s.graph.checkableUpper x)) with
    | none => exact Secures.fail _
    | some c =>
      have htarget : c.target.Bare := Ty.bare_iff.2 (hl c (Lattice.mem_of_bridge? hc)).2
      exact Secures.note_bind fun s' hs' => h .upper x c.target s' (hs' ▸ hl) (hs' ▸ hwf) htarget

theorem joinMember_rises :
    Secures (Rises fun _ => False) (joinMember (nested .upper) x m) s := by
  apply Secures.graph_bind
  split
  · exact Secures.of_along (Along.pure _)
  · refine (checkUpper_rises h hl hwf).bind fun _ s₁ _ _ => ?_
    refine (Secures.of_along (Along.modify rises_insertLower)).bind fun _ s₂ _ _ => ?_
    exact Secures.of_along (Along.pure _)

/-- **A visit from below** leaves the levels as they are, but for conversions. -/
theorem visit_lower_rises :
    Secures (Rises fun _ => False) (visit nested .lower t n) s := by
  have henter : Secures (Rises fun _ => False) (enter nested .lower t n) s := by
    refine Secures.graph_bind (Secures.anyNew fun m _ s' hs' => ?_)
    exact joinMember_rises h (hs'.shape.lattice ▸ hl) (hwf.of_sameShape hs'.shape)
  rw [visit_eq]
  refine henter.bind fun new s₁ _ _ => ?_
  split
  · refine Secures.note_bind fun s₂ _ => (Secures.of_along (Along.composes.recheck n s₂)).bind
      fun _ s₃ _ _ => ?_
    exact Secures.of_along (Along.graph_bind (Along.pure _))
  · exact Secures.of_along (Along.pure _)

/-- **A member from above** finds an upper bound there or makes one. -/
theorem meetMember_rises
    (hn : n ∈ s.graph.ids) (hm : ∀ ms, m ≠ .inter ms) {new : Bool}
    (hrun : meetMember (nested .lower) n m s = (.ok new, s')) :
    Rises (· = n) s.graph s'.graph ∧ s'.graph.Capped n ∧ (new = false → s.graph.Capped n) := by
  rw [meetMember, graph_bind_apply] at hrun
  split at hrun
  · rename_i habsorbs
    obtain ⟨rfl, rfl⟩ := pure_eq_ok.1 hrun
    have hcapped : s.graph.Capped n := by
      intro hnil
      rw [upperAbsorbs, hnil] at habsorbs
      cases habsorbs
    exact ⟨refl_of (Rises _) _, hcapped, fun _ => hcapped⟩
  · obtain ⟨sources, s₁, hsources, hrun⟩ := bind_eq_ok.1 hrun
    have hchecked : Rises (· = n) s.graph s₁.graph :=
      (Along.composes.checkLower n m s).of_eq hsources
    rw [graph_bind_apply] at hrun
    cases hg' : s₁.graph.insertUpper n m with
    | error e =>
      rw [hg'] at hrun
      cases hrun
    | ok g' =>
      rw [hg'] at hrun
      replace hrun := (modify_bind_apply _ _).symm.trans hrun
      obtain ⟨_, s₂, hwiden, hrun⟩ := bind_eq_ok.1 hrun
      obtain ⟨rfl, rfl⟩ := pure_eq_ok.1 hrun
      obtain ⟨hinserted, hcapped⟩ := rises_insertUpper hm (hchecked.shape.ids ▸ hn) hg'
      have hentered := trans_of (Rises (· = n)) hchecked hinserted
      have hwidened : Rises (· = n) g' s₂.graph := by
        refine Secures.forM (s := { s₁ with graph := g' })
          (fun source hsource s₃ hs₃ => ?_) _ _ hwiden
        obtain ⟨c, hc, -, rfl⟩ := mem_of_checkLower hsources source hsource
        have hsource : c.source.Bare := Ty.bare_iff.2 (hl c hc).1
        have hshape : SameShape s.graph s₃.graph := (trans_of (Rises (· = n)) hentered hs₃).shape
        refine Secures.note_bind fun s₄ hs₄ => ?_
        rw [← hs₄] at hshape
        have hnested :=
          h .lower n c.source s₄ (hshape.lattice ▸ hl) (hwf.of_sameShape hshape) hsource
        exact hnested.mono fun _ _ hrises => hrises.mono fun _ hx => hx.elim
      refine ⟨trans_of (Rises (· = n)) hentered hwidened, hwidened.kept n hcapped, fun hnew => ?_⟩
      cases hnew

/-- **A visit from above**: there is an upper bound afterwards. If there was none before, the visit
goes on to everything below. -/
theorem visit_upper_rises
    (hn : n ∈ s.graph.ids) (ht : t.Bare) (hparts : t.interParts ≠ []) {found : List VarId}
    (hrun : visit nested .upper t n s = (.ok found, s')) :
    Rises (· = n) s.graph s'.graph ∧ s'.graph.Capped n ∧
      ((∀ x ∈ (s.graph.boundsOf n).below, x ∈ found) ∨ s.graph.Capped n) := by
  rw [visit_eq] at hrun
  obtain ⟨new, s₁, henter, hrun⟩ := bind_eq_ok.1 hrun
  have hentered : Rises (· = n) s.graph s₁.graph ∧ s₁.graph.Capped n ∧
      (new = false → s.graph.Capped n) := by
    replace henter :
        anyNew (meetMember (nested .lower) n) (t.interParts.filter (!s.graph.isSelf n ·)) s =
      (.ok new, s₁) := henter
    have hall : t.interParts.filter (!s.graph.isSelf n ·) = t.interParts := by
      refine List.filter_eq_self.2 fun p hp => ?_
      rw [isSelf_of_bare (ht.of_mem_parts .upper hp)]
      rfl
    have hmeet {p : Ty} (hp : p ∈ t.interParts) {s₂ s₃ : Progress}
        (hshape : SameShape s.graph s₂.graph) {new : Bool}
        (hrun : meetMember (nested .lower) n p s₂ = (.ok new, s₃)) :
        Rises (· = n) s₂.graph s₃.graph ∧ s₃.graph.Capped n ∧
        (new = false → s₂.graph.Capped n) := by
      have hne : ∀ ms, p ≠ Side.upper.container ms := Side.ne_container_of_mem_parts hp
      exact meetMember_rises h (hshape.lattice ▸ hl) (hwf.of_sameShape hshape)
        (hshape.ids ▸ hn) hne hrun
    rw [hall] at henter
    obtain ⟨p, ps, hps⟩ := List.exists_cons_of_ne_nil hparts
    rw [hps] at henter hmeet
    obtain ⟨new₁, s₂, hfirst, henter⟩ := bind_eq_ok.1 henter
    obtain ⟨new₂, s₃, hothers, henter⟩ := bind_eq_ok.1 henter
    obtain ⟨rfl, rfl⟩ := pure_eq_ok.1 henter
    obtain ⟨hrises, hcapped, hold⟩ := hmeet (List.mem_cons_self ..) (refl_of SameShape _) hfirst
    have hrest : Rises (· = n) s₂.graph s₃.graph := by
      refine Secures.anyNew (fun q hq s₄ hs₄ new s₅ hrun => ?_) _ _ hothers
      exact (hmeet (List.mem_cons_of_mem _ hq) (trans_of (Rises (· = n)) hrises hs₄).shape hrun).1
    refine ⟨trans_of (Rises (· = n)) hrises hrest, hrest.kept n hcapped, fun hnone => hold ?_⟩
    exact (Bool.or_eq_false_iff.1 hnone).1
  obtain ⟨hrises, hcapped, hold⟩ := hentered
  cases new with
  | false =>
    obtain ⟨-, rfl⟩ := pure_eq_ok.1 hrun
    exact ⟨hrises, hcapped, .inr (hold rfl)⟩
  | true =>
    obtain ⟨_, s₂, hnote, hrun⟩ := bind_eq_ok.1 hrun
    obtain ⟨_, s₃, hrecheck, hrun⟩ := bind_eq_ok.1 hrun
    rw [graph_bind_apply] at hrun
    obtain ⟨rfl, rfl⟩ := pure_eq_ok.1 hrun
    have hnoted : Rises (· = n) s₁.graph s₂.graph := (Along.note _).of_eq hnote
    have hchecked : Rises (· = n) s₂.graph s₃.graph := (Along.composes.recheck n s₂).of_eq hrecheck
    have hlast := trans_of (Rises (· = n)) hnoted hchecked
    refine ⟨trans_of (Rises (· = n)) hrises hlast, hlast.kept n hcapped, .inl fun x hx => ?_⟩
    rw [onward, below, Natural.mem_sort, hlast.shape.below, hrises.shape.below]
    exact hx

/-! ## The search -/

end

/-- **The state of a search** for the places that an upper bound has to get to from `start` on.
Levels are even but for the variables that are still to be visited. -/
structure Descending (start : VarId) (g₀ : Graph) (unvisited stack : List VarId) (g : Graph) :
    Prop where
  sub : ∀ x ∈ unvisited, x ∈ g₀.ids
  shape : SameShape g₀ g
  flat : g₀.Flat → g.Flat
  kept : ∀ x, g₀.Capped x → g.Capped x
  visited : ∀ x ∈ g₀.ids, x ∉ unvisited → g.Capped x
  pending : ∀ x y, x ∈ (g₀.boundsOf y).below → g.Capped y →
    g₀.Capped y ∨ g.Capped x ∨ x ∈ stack ∧ x ∈ unvisited
  arriving : start ∈ g₀.ids → g.Capped start ∨ start ∈ stack ∧ start ∈ unvisited

/-- **One step of the search.** -/
theorem Descending.step {g₀ g g' : Graph} {unvisited stack rest found : List VarId}
    (hwf : g₀.WellFormed) (h : Descending start g₀ unvisited stack g)
    (hcover : ∀ y ∈ stack, y ∈ unvisited → y = n ∨ y ∈ rest) (hrises : Rises (· = n) g g')
    (hcapped : g'.Capped n) (hfound : (∀ x ∈ (g.boundsOf n).below, x ∈ found) ∨ g.Capped n) :
    Descending start g₀ (unvisited.erase n) (found.reverse ++ rest) g' := by
  have hvisited : ∀ x ∈ g₀.ids, x ∉ unvisited.erase n → g'.Capped x := by
    intro x hx hnot
    by_cases hxn : x = n
    · rw [hxn]
      exact hcapped
    · exact hrises.kept x (h.visited x hx fun hmem => hnot ((List.mem_erase_of_ne hxn).2 hmem))
  -- what was waiting was visited just now, or is waiting still
  have hwaiting {x : VarId} (hx : g.Capped x ∨ x ∈ stack ∧ x ∈ unvisited) :
      g'.Capped x ∨ x ∈ found.reverse ++ rest ∧ x ∈ unvisited.erase n := by
    rcases hx with hx | ⟨hstack, hunvisited⟩
    · exact .inl (hrises.kept x hx)
    · by_cases hxn : x = n
      · rw [hxn]
        exact .inl hcapped
      · refine .inr ⟨List.mem_append_right _ ?_, (List.mem_erase_of_ne hxn).2 hunvisited⟩
        exact (hcover x hstack hunvisited).resolve_left hxn
  refine ⟨fun x hx => h.sub x (List.mem_of_mem_erase hx), trans_of SameShape h.shape hrises.shape,
    hrises.flat ∘ h.flat, fun x hx => hrises.kept x (h.kept x hx), hvisited, fun x y hxy hy => ?_,
    fun hstart => hwaiting (h.arriving hstart)⟩
  have hold (hy : g.Capped y) : g₀.Capped y ∨ g'.Capped x ∨ x ∈ found.reverse ++ rest ∧
      x ∈ unvisited.erase n :=
    (h.pending x y hxy hy).imp_right hwaiting
  by_cases hyn : y = n
  · subst hyn
    rcases hfound with hfound | hy
    · by_cases hx : x ∈ unvisited.erase y
      · refine .inr (.inr ⟨List.mem_append_left _ (List.mem_reverse.2 (hfound x ?_)), hx⟩)
        rwa [h.shape.below]
      · exact .inr (.inl (hvisited x (hwf.mem_ids_of_mem_below hxy) hx))
    · exact hold hy
  · rw [← h.shape.below] at hxy
    rcases hrises.level x y hxy hyn hy with hy | hx
    · exact hold hy
    · exact .inr (.inl hx)

/-- **The whole search.** -/
theorem exploreM_upper_rises (h : LevelsOut nested) (hl : s.graph.lattice.Plain)
    (hwf : s.graph.WellFormed) (ht : t.Bare) (hparts : t.interParts ≠ [])
    (hrun : exploreM (visit nested .upper t) s.graph.ids.length s.graph.ids [start] s =
      (.ok (), s')) :
    Rises (fun _ => False) s.graph s'.graph ∧ (start ∈ s.graph.ids → s'.graph.Capped start) := by
  have hbegin : Descending start s.graph s.graph.ids [start] s.graph :=
    ⟨fun _ hx => hx, refl_of SameShape _, id, fun _ => id, fun x hx hnot => absurd hx hnot,
      fun _ _ _ hy => .inl hy, fun hstart => .inr ⟨List.mem_singleton_self _, hstart⟩⟩
  have hend := exploreM_ok (I := Descending start s.graph)
    (fun unvisited stack n rest found s₁ s₂ hI hn _ _ hcover hvisit => ?_) le_rfl hbegin hrun
  · obtain ⟨left, stack, hend, hnone⟩ := hend
    refine ⟨⟨hend.shape, hend.flat, hend.kept, fun x y hxy _ hy => ?_⟩, fun hstart => ?_⟩
    · exact (hend.pending x y hxy hy).imp_right fun hx => hx.resolve_right fun hx =>
        hnone x hx.1 hx.2
    · exact (hend.arriving hstart).resolve_right fun hx => hnone start hx.1 hx.2
  · obtain ⟨hrises, hcapped, hfound⟩ := visit_upper_rises h (hI.shape.lattice ▸ hl)
      (hwf.of_sameShape hI.shape) (hI.shape.ids ▸ hI.sub n hn) ht hparts hvisit
    exact hI.step hwf hcover hrises hcapped hfound

/-- A type without parts does nothing. -/
theorem visit_upper_idle (hparts : t.interParts = []) (s : Progress) :
    visit nested .upper t n s = (.ok [], s) := by
  rw [visit_eq]
  change (meetUpper (nested .lower) n t >>= _) s = _
  rw [meetUpper, hparts]
  rfl

/-- **Propagation keeps the levels even**, to any depth of nesting. -/
theorem levelsOut_spreadWithin (depth : Nat) : LevelsOut (spreadWithin depth) := by
  induction depth with
  | zero => exact fun _ _ _ _ _ _ _ => Secures.of_along (Along.note _)
  | succ depth ih =>
    intro side x t s hl hwf ht
    apply Secures.graph_bind
    intro _ s' hrun
    cases side with
    | lower =>
      have hend := exploreM_ok (I := fun _ _ g => Rises (fun _ => False) s.graph g)
        (fun _ _ n _ found s₁ s₂ hI _ _ _ _ hvisit => ?_) le_rfl (refl_of (Rises _) s.graph) hrun
      · obtain ⟨_, _, hrises, -⟩ := hend
        exact hrises
      · have hone :=
          visit_lower_rises ih (hI.shape.lattice ▸ hl) (hwf.of_sameShape hI.shape) found s₂ hvisit
        exact trans_of (Rises _) hI hone
    | upper =>
      by_cases hparts : t.interParts = []
      · have hend := exploreM_ok (I := fun _ _ g => g = s.graph)
          (fun _ _ n _ found s₁ s₂ hI _ _ _ _ hvisit => ?_) le_rfl rfl hrun
        · obtain ⟨_, _, hsame, -⟩ := hend
          rw [hsame]
          exact refl_of (Rises _) s.graph
        · rw [visit_upper_idle hparts] at hvisit
          cases hvisit
          exact hI
      · exact (exploreM_upper_rises ih hl hwf ht hparts hrun).1

theorem spread_rises (side : Side) (x : VarId) (ht : t.Bare) (hl : s.graph.lattice.Plain)
    (hwf : s.graph.WellFormed) : Secures (Rises fun _ => False) (spread side x t) s :=
  Secures.graph_bind (levelsOut_spreadWithin _ side x t s hl hwf ht)

/-- An upper bound arrives where it is sent to. -/
theorem capped_of_spread (ht : t.Bare) (hparts : t.interParts ≠ []) (hl : s.graph.lattice.Plain)
    (hwf : s.graph.WellFormed) (hx : x ∈ s.graph.ids) (hrun : spread .upper x t s = (.ok (), s')) :
    s'.graph.Capped x := by
  obtain ⟨depth, hspread⟩ := exists_spread_eq .upper x t s
  rw [hspread] at hrun
  exact (exploreM_upper_rises (levelsOut_spreadWithin depth) hl hwf ht hparts hrun).2 hx

end

/-! ## Edges and merges -/

namespace Graph

/-- **Smooth**: there are no convertibles, and no member of an upper bound is an intersection. -/
structure Smooth (g : Graph) : Prop where
  bare : g.Bare
  wellFormed : g.WellFormed
  flat : g.Flat

/-- **Even**: smooth, and levelled if `P`. -/
structure Even (P : Prop) (g : Graph) : Prop extends g.Smooth where
  levelled : P → g.Levelled

variable {P : Prop} {g g' : Graph} {side : Side} {lower upper old new x y : VarId} {t : Ty}
  {ms : Members} {s s' : Progress}

theorem Smooth.of_upper (h : g.Smooth) (hbare : g'.Bare) (hwf : g'.WellFormed)
    (hupper : ∀ x, (g'.boundsOf x).upper = (g.boundsOf x).upper) : g'.Smooth := by
  refine ⟨hbare, hwf, fun x => ?_⟩
  rw [hupper]
  exact h.flat x

/-- Edges may go. -/
theorem Even.of_upper (h : g.Even P) (hbare : g'.Bare) (hwf : g'.WellFormed)
    (hupper : ∀ x, (g'.boundsOf x).upper = (g.boundsOf x).upper)
    (hedges : ∀ x y, x ∈ (g'.boundsOf y).below → x ∈ (g.boundsOf y).below) : g'.Even P :=
  ⟨h.toSmooth.of_upper hbare hwf hupper,
    fun hP => (h.levelled hP).of_edges fun x y hxy => ⟨hedges x y hxy, hupper x, hupper y⟩⟩

/-- What is not stored in the records does not matter. -/
theorem Even.of_bounds (h : g.Even P) (hlattice : g'.lattice = g.lattice)
    (hnames : g'.names = g.names) (hbounds : g'.bounds = g.bounds) : g'.Even P := by
  have hrecord (x : VarId) : g'.boundsOf x = g.boundsOf x := by rw [boundsOf, boundsOf, hbounds]
  have hedges : SameEdges g g' :=
    ⟨by rw [ids, ids, hbounds], fun x => by rw [hrecord], fun x => by rw [hrecord]⟩
  refine h.of_upper (h.bare.of_boundsOf hlattice hrecord)
    (h.wellFormed.of_sameEdges_of_names hedges hnames) (fun x => by rw [hrecord]) fun x y hxy => ?_
  rwa [hrecord] at hxy

theorem Smooth.spread (h : s.graph.Smooth) (ht : t.Bare) (hrun : spread side x t s = (.ok (), s')) :
    s'.graph.Smooth ∧ Rises (fun _ => False) s.graph s'.graph := by
  have hrises := spread_rises side x ht h.bare.plain h.wellFormed () s' hrun
  have hbare := (takes_bare.spread ht x s).of_eq hrun h.bare
  exact ⟨⟨hbare, h.wellFormed.of_sameShape hrises.shape, hrises.flat h.flat⟩, hrises⟩

theorem Smooth.handOn (h : s.graph.Smooth) (hms : ∀ m ∈ ms, m.2.Bare)
    (hrun : handOn side x ms s = (.ok (), s')) :
    s'.graph.Smooth ∧ Rises (fun _ => False) s.graph s'.graph := by
  rw [TypeBounds.handOn] at hrun
  split at hrun
  · obtain ⟨-, rfl⟩ := pure_eq_ok.1 hrun
    exact ⟨h, refl_of (Rises _) _⟩
  · exact h.spread ((Ty.bare_container side).2 hms).copy hrun

theorem Even.spread (h : s.graph.Even P) (ht : t.Bare)
    (hrun : TypeBounds.spread side x t s = (.ok (), s')) : s'.graph.Even P := by
  obtain ⟨hsmooth, hrises⟩ := h.toSmooth.spread ht hrun
  exact ⟨hsmooth, fun hP => (h.levelled hP).of_rises hrises⟩

theorem Even.handOn (h : s.graph.Even P) (hms : ∀ m ∈ ms, m.2.Bare)
    (hrun : TypeBounds.handOn side x ms s = (.ok (), s')) :
    s'.graph.Even P ∧ SameShape s.graph s'.graph := by
  obtain ⟨hsmooth, hrises⟩ := h.toSmooth.handOn hms hrun
  exact ⟨⟨hsmooth, fun hP => (h.levelled hP).of_rises hrises⟩, hrises.shape⟩

/-- A bound as a whole has a part to hand on. -/
theorem interParts_ne_nil (hne : ms ≠ []) (hflat : ∀ m ∈ ms, ∀ ms', m.2 ≠ .inter ms') :
    (Side.upper.container ms).copy.interParts ≠ [] := by
  have hcopy :
      (Side.upper.container ms).copy = .inter (Members.ofTypes (ms.map fun m => m.2.copy)) :=
    Ty.mapConvertibles_container Ty.detach
  rw [hcopy]
  cases hcopies : Members.ofTypes (ms.map fun m => m.2.copy) with
  | nil => exact absurd (List.map_eq_nil_iff.1 (Members.eq_nil_of_ofTypes hcopies)) hne
  | cons c cs =>
    have hc : c ∈ Members.ofTypes (ms.map fun m => m.2.copy) := hcopies ▸ List.mem_cons_self ..
    obtain ⟨m, hm, hmc⟩ := List.mem_map.1 ((Members.labelled_ofTypes _).2 c hc)
    have hpart : c.2 ∈ c.2.interParts := by
      rw [interParts_eq (hmc ▸ copy_ne_inter (hflat m hm))]
      exact List.mem_singleton_self _
    exact List.ne_nil_of_mem (mem_interParts_inter.2 ⟨c, List.mem_cons_self .., hpart⟩)

theorem Smooth.capped_of_handOn (h : s.graph.Smooth) (hx : x ∈ s.graph.ids) (hy : s.graph.Capped y)
    (hrun : TypeBounds.handOn .upper x (s.graph.boundsOf y).upper s = (.ok (), s')) :
    s'.graph.Capped x := by
  rw [TypeBounds.handOn, if_neg fun hempty => hy (List.isEmpty_iff.1 hempty)] at hrun
  exact capped_of_spread (h.bare.container .upper y) (interParts_ne_nil hy (h.flat y)) h.bare.plain
    h.wellFormed hx hrun

/-- **A new edge**: the upper bound is handed on along it. -/
theorem Even.addEdge (h : s.graph.Even P) (hl : lower ∈ s.graph.ids) (hu : upper ∈ s.graph.ids)
    (hrun : addEdge lower upper s = (.ok (), s')) :
    s'.graph.Even P ∧ s'.graph.ids = s.graph.ids := by
  rcases addEdge_cases hrun with ⟨-, rfl⟩ | ⟨-, s₁, s₂, hs₁, hlower, hrun⟩
  · exact ⟨h, rfl⟩
  have hsame : SameTypes s.graph s₁.graph := hs₁ ▸ sameTypes_linkAcross
  obtain ⟨hwf₁, hedges⟩ := h.wellFormed.linkAcross hl hu
  rw [← hs₁] at hwf₁ hedges
  have hcapped (x : VarId) : s₁.graph.Capped x ↔ s.graph.Capped x := by
    rw [Capped, hsame.upper]
    rfl
  -- the graph with the new edges is smooth, but its levels are even only in the end
  have hsmooth₁ := h.toSmooth.of_upper (h.bare.of_sameTypes hsame) hwf₁ hsame.upper
  obtain ⟨hsmooth₂, hrises₂⟩ := hsmooth₁.handOn (h.bare.stored .lower lower) hlower
  obtain ⟨hsmooth₃, hrises₃⟩ := hsmooth₂.handOn (hsmooth₂.bare.stored .upper upper) hrun
  have hrises := trans_of (Rises _) hrises₂ hrises₃
  have hids : s₂.graph.ids = s.graph.ids := hrises₂.shape.ids.trans hsame.ids
  have harrived (hy : s.graph.Capped upper) : s'.graph.Capped lower :=
    hsmooth₂.capped_of_handOn (hids ▸ hl) (hrises₂.kept upper ((hcapped upper).2 hy)) hrun
  have hkept {x : VarId} (hx : s.graph.Capped x) : s'.graph.Capped x :=
    hrises.kept x ((hcapped x).2 hx)
  refine ⟨⟨hsmooth₃, fun hP x y hxy hy => ?_⟩, hrises₃.shape.ids.trans hids⟩
  have hlevelled := h.levelled hP
  have hbelow {x : VarId} (hx : x = lower ∨ x ∈ (s.graph.boundsOf lower).below)
      (hc : s'.graph.Capped lower) : s'.graph.Capped x := by
    rcases hx with rfl | hx
    · exact hc
    · rcases hrises.level x lower ((hedges x lower).2 (.inl hx)) id hc with hc | hx
      · exact hkept (hlevelled x lower hx ((hcapped lower).1 hc))
      · exact hx
  rw [hrises.shape.below] at hxy
  rcases hrises.level x y hxy id hy with hy | hx
  · rw [hcapped] at hy
    rcases (hedges x y).1 hxy with hxy | ⟨hx, hyu, -⟩
    · exact hkept (hlevelled x y hxy hy)
    · refine hbelow hx (harrived ?_)
      rcases hyu with rfl | hyu
      · exact hy
      · exact hlevelled upper y ((h.wellFormed.mirrored upper y).2 hyu) hy
  · exact hx

theorem Even.forM_addEdge {e : VarId → VarId × VarId} {xs : List VarId} (h : s.graph.Even P)
    (hxs : ∀ x ∈ xs, (e x).1 ∈ s.graph.ids ∧ (e x).2 ∈ s.graph.ids)
    (hrun : xs.forM (fun x => TypeBounds.addEdge (e x).1 (e x).2) s = (.ok (), s')) :
    s'.graph.Even P ∧ s'.graph.ids = s.graph.ids := by
  induction xs generalizing s with
  | nil =>
    obtain ⟨-, rfl⟩ := pure_eq_ok.1 hrun
    exact ⟨h, rfl⟩
  | cons x xs ih =>
    obtain ⟨⟨hx₁, hx₂⟩, hxs⟩ := List.forall_mem_cons.1 hxs
    obtain ⟨_, s₁, hfirst, hrun⟩ := bind_eq_ok.1 hrun
    obtain ⟨h₁, hids⟩ := h.addEdge hx₁ hx₂ hfirst
    obtain ⟨h₂, hids₂⟩ := ih h₁ (hids ▸ hxs) hrun
    exact ⟨h₂, hids₂.trans hids⟩

theorem Even.cutOff (h : g.Even P) (hnew : new ∈ g.ids) : (g.cutOff old new).Even P := by
  have hsame : SameTypes (g.redirect old new) ((g.redirect old new).isolate old) :=
    sameTypes_isolate
  have hredirected : (g.redirect old new).Bare := h.bare.of_boundsOf rfl fun _ => rfl
  have hbounds := h.bare.boundsOf_cutOff old new
  have hedges := (WellFormed.isolate (g := g.redirect old new) (h.wellFormed.redirect hnew) old).2
  refine h.of_upper ((hredirected.of_sameTypes hsame).of_boundsOf rfl hbounds)
    (h.wellFormed.cutOff hnew).wellFormed (fun x => ?_) fun x y hxy => ?_
  · rw [hbounds]
    exact hsame.upper x
  · rw [hbounds] at hxy
    exact ((hedges x y).1 hxy).1

theorem Even.inheritFrozen (h : g.Even P) : (inheritFrozen old new g).Even P := by
  have hedges : SameEdges g (Graph.inheritFrozen old new g) := sameEdges_inheritFrozen
  have hsame : SameMembers g (Graph.inheritFrozen old new g) := sameMembers_inheritFrozen
  refine h.of_upper (h.bare.madeOf.of_sameMembers hsame).bare
    (h.wellFormed.of_sameEdges_of_names hedges names_inheritFrozen) (hsame.sides .upper)
    fun x y hxy => hedges.below y ▸ hxy

/-- What was the bounds and the neighbours of the old variable goes to the new one. -/
theorem Even.takeOver {lowers uppers : List VarId} (h : s.graph.Even P) (hnew : new ∈ s.graph.ids)
    (hlowers : ∀ x ∈ lowers, x ∈ s.graph.ids) (huppers : ∀ y ∈ uppers, y ∈ s.graph.ids)
    (hrun : takeOver old new lowers uppers s = (.ok (), s')) : s'.graph.Even P := by
  obtain ⟨s₁, s₂, s₄, hlower, hupper, hbelow, habove⟩ := takeOver_cases hrun
  obtain ⟨h₁, hshape₁⟩ := h.handOn (h.bare.stored .lower old) hlower
  obtain ⟨h₂, hshape₂⟩ := h₁.handOn (h₁.bare.stored .upper old) hupper
  have hids₃ : (Graph.inheritFrozen old new s₂.graph).ids = s.graph.ids :=
    sameEdges_inheritFrozen.ids.trans (hshape₂.ids.trans hshape₁.ids)
  have hends {x : VarId} (hx : x ∈ s.graph.ids) : x ∈ (Graph.inheritFrozen old new s₂.graph).ids :=
    hids₃ ▸ hx
  obtain ⟨h₄, hids₄⟩ := Even.forM_addEdge
    (s := { s₂ with graph := Graph.inheritFrozen old new s₂.graph }) (e := fun x => (x, new))
    h₂.inheritFrozen (fun x hx => ⟨hends (hlowers x hx), hends hnew⟩) hbelow
  have hends₄ {x : VarId} (hx : x ∈ s.graph.ids) : x ∈ s₄.graph.ids := hids₄ ▸ hends hx
  exact (h₄.forM_addEdge (e := fun y => (new, y))
    (fun y hy => ⟨hends₄ hnew, hends₄ (huppers y hy)⟩) habove).1

/-- **Merging** keeps a graph even. -/
theorem mergesKeep_even : MergesKeep (Even P) := by
  intro old new s s' hne hnew h hrun
  have hwf : s'.graph.WellFormed := by
    have hwf := mergeInto_wellFormed hne hnew h.wellFormed
    rwa [hrun] at hwf
  rw [mergeInto_eq, graph_bind_apply, modify_bind_apply] at hrun
  obtain ⟨_, s₁, htake, hrun⟩ := bind_eq_ok.1 hrun
  have hids : (s.graph.cutOff old new).ids = s.graph.ids := (h.wellFormed.cutOff hnew).ids_eq
  have h₁ : s₁.graph.Even P := by
    refine Even.takeOver (s := { s with graph := s.graph.cutOff old new }) (h.cutOff hnew)
      (hids ▸ hnew) (fun x hx => ?_) (fun y hy => ?_) htake
    · exact hids ▸ h.wellFormed.mem_ids_of_mem_below
        (Natural.mem_sort.1 (List.mem_of_mem_filter hx))
    · exact hids ▸ h.wellFormed.mem_ids_of_mem_above
        (Natural.mem_sort.1 (List.mem_of_mem_filter hy))
  split at hrun
  · obtain ⟨-, rfl⟩ := pure_eq_ok.1 hrun
    exact h₁
  · obtain rfl : { s₁ with graph := s₁.graph.unregister old } = s' := congrArg Prod.snd hrun
    have hkept {x : VarId} (hx : x ≠ old) :
        (s₁.graph.unregister old).boundsOf x = s₁.graph.boundsOf x := by
      rw [boundsOf_unregister, if_neg hx]
    refine ⟨⟨h₁.bare.unregister old, hwf, fun x m hm => ?_⟩,
      fun hP => (h₁.levelled hP).of_edges fun x y hxy => ?_⟩
    · by_cases hx : x = old
      · rw [boundsOf_unregister, if_pos hx] at hm
        cases hm
      · rw [hkept hx] at hm
        exact h₁.flat x m hm
    · -- both ends of an edge are registered
      have hregistered {z : VarId} (hz : z ∈ (s₁.graph.unregister old).ids) : z ≠ old := by
        rintro rfl
        rw [ids_unregister] at hz
        simp at hz
      have hx := hkept (hregistered (hwf.mem_ids_of_mem_below hxy))
      have hy := hkept (hregistered (mem_ids_of_mem_below_of hxy))
      rw [hy] at hxy
      exact ⟨hxy, congrArg Bounds.upper hx, congrArg Bounds.upper hy⟩

/-! ## Generalisation -/

theorem Even.pruneSelfEdges (h : g.Even P) : g.pruneSelfEdges.Even P := by
  have hsame : SameTypes g g.pruneSelfEdges := sameTypes_pruneSelfEdges
  obtain ⟨hwf, hedges⟩ := h.wellFormed.pruneSelfEdges
  exact h.of_upper (h.bare.of_sameTypes hsame) hwf hsame.upper fun x y hxy => ((hedges x y).1 hxy).1

/-- Who is cut off has no neighbours left to be level with. -/
theorem Even.detach (h : g.Even P) (x : VarId) : (detach x g).Even P := by
  have hsame : SameTypes g (g.isolate x) := sameTypes_isolate
  have hupper (y : VarId) :
      ((Graph.detach x g).boundsOf y).upper = ((g.isolate x).boundsOf y).upper :=
    field_update Bounds.upper fun _ => rfl
  have hbelow (y : VarId) :
      ((Graph.detach x g).boundsOf y).below = ((g.isolate x).boundsOf y).below :=
    field_update Bounds.below fun _ => rfl
  refine h.of_upper (h.bare.detach x) (h.wellFormed.detach x)
    (fun y => (hupper y).trans (hsame.upper y)) fun y z hyz => ?_
  rw [hbelow, (h.wellFormed.isolate x).2] at hyz
  exact hyz.1

/-- **Fixing** keeps a graph even, if it adds no upper bound. -/
theorem Even.freeze (h : s.graph.Even P) (hpolicy : s.graph.policy = .plain)
    (hrun : freeze x s = (.ok (), s')) : s'.graph.Even P := by
  obtain ⟨s₁, hpass, rfl⟩ := freeze_cases hrun
  have hsettled : (Graph.settle x s.graph).Even P := by
    have hshape : SameShape s.graph (Graph.settle x s.graph) := sameShape_settle
    refine h.of_upper (h.bare.settle x) (h.wellFormed.of_sameShape hshape) (fun y => ?_)
      fun y z hyz => ?_
    · refine field_update Bounds.upper fun b => ?_
      rw [Bounds.upper_settled, hpolicy, if_neg fun hc => by cases hc.1]
    · rwa [hshape.below] at hyz
  have hpassed : Secures (Keeps (Even P)) (passOn x (s.graph.boundsOf x).resolution
      (Natural.sort (s.graph.boundsOf x).above)) { s with graph := Graph.settle x s.graph } := by
    refine Secures.forM fun y _ s₂ _ => Secures.graph_bind fun _ s₃ hspread h₂ => ?_
    exact h₂.spread (h.bare.type h₂.bare x).copy hspread
  exact (hpassed () s₁ hpass hsettled).detach x

/-! ## Calls -/

theorem Even.addVariable (h : g.Even P) {name : String} {r : Option Reference}
    (hg : g.addVariable name r = .ok g') : g'.Even P := by
  have hwf := h.wellFormed.addVariable hg
  obtain ⟨r, -, -, rfl⟩ := addVariable_eq_ok.1 hg
  have hbounds (x : VarId) :
      ({ g.register r.id with names := g.names.insert name r } : Graph).boundsOf x = g.boundsOf x :=
    boundsOf_register
  refine h.of_upper (h.bare.of_boundsOf rfl hbounds) hwf (fun x => ?_) fun x y hxy => ?_
  · rw [hbounds]
  · rwa [hbounds] at hxy

theorem Even.addBound (h : g.Even P) (ht : t.Bare) (hok : (g.addBound side x t).fault = none) :
    (g.addBound side x t).graph.Even P := by
  obtain ⟨-, s, hrun, hgraph⟩ := addBound_accepted (isSelf_of_bare ht) hok
  rw [hgraph]
  exact Even.spread (s := { graph := g }) h ht hrun

theorem Even.addRef (h : g.Even P) {r : Option Reference} (hok : (g.addRef x r).fault = none) :
    (g.addRef x r).graph.Even P := by
  obtain ⟨r, rfl, hx, hr, ⟨hself, hgraph⟩ | ⟨hne, s, hgraph, hrun⟩⟩ := addRef_accepted hok
  · rcases hgraph with hgraph | hgraph
    · rw [hgraph]
      exact h
    · -- a variable is as even with itself as without
      have hsame : SameTypes g (g.link x x) := sameTypes_link
      rw [hgraph]
      refine ⟨h.toSmooth.of_upper (h.bare.of_sameTypes hsame) (h.wellFormed.link hx hx) hsame.upper,
        ?_⟩
      intro hP y z hyz hz
      rw [Capped, hsame.upper] at hz ⊢
      rcases (mem_below_link hx).1 hyz with hyz | ⟨rfl, rfl⟩
      · exact h.levelled hP y z hyz hz
      · exact hz
  · rw [hgraph]
    split at hrun
    · exact (Even.handOn (s := { graph := g }) h (h.bare.stored .lower r.id) hrun).1
    · exact (Even.addEdge (s := { graph := g }) h hr hx hrun).1

theorem Even.merge (h : g.Even P) (hok : (g.merge old new).fault = none) :
    (g.merge old new).graph.Even P := by
  refine merge_keeps h fun hne hnew => ?_
  obtain ⟨-, s, hrun, -⟩ := merge_accepted hne hok
  rw [hrun]
  exact mergesKeep_even old new { graph := g } s hne hnew h hrun

end Graph

end TypeBounds
