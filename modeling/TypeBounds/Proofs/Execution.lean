import TypeBounds.Proofs.Accepted
import TypeBounds.Proofs.Flow

/-!
# Computations that come to their end

The inversions say what a computation did if it succeeded. Here is the other direction: that a
computation does succeed, and with what graph. `Infer.Yields` is closed under sequencing, so a run
is put together from its steps:

* `joinMember_yields`: a lower member that the upper bound lets through;
* `visit_yields`, `spread_yields`: a propagation that has nowhere to go on to;
* `spreadWithin_yields_of_absorbs`: a type that is covered already;
* `addBound_yields`: the calls that add types.
-/

namespace TypeBounds

namespace Infer

variable {α β : Type} {m : Infer α} {f : α → Infer β} {a : α} {b : β} {s : Progress} {g g' : Graph}

/-- **Success**: the computation comes to its end with the answer `a`, and leaves the graph `g`. -/
def Yields (m : Infer α) (s : Progress) (a : α) (g : Graph) : Prop :=
  ∃ s', m s = (.ok a, s') ∧ s'.graph = g

theorem Yields.pure (h : s.graph = g) : Yields (pure a) s a g := ⟨s, rfl, h⟩

theorem Yields.note (h : s.graph = g) (e : Effect → Effect) : Yields (note e) s () g := ⟨_, rfl, h⟩

theorem Yields.modify {e : Graph → Graph} (h : e s.graph = g) : Yields (modify e) s () g :=
  ⟨_, rfl, h⟩

theorem Yields.bind (hm : Yields m s a g) (hf : ∀ s', s'.graph = g → Yields (f a) s' b g') :
    Yields (m >>= f) s b g' := by
  obtain ⟨s₁, hm, hs₁⟩ := hm
  obtain ⟨s₂, hf, hs₂⟩ := hf s₁ hs₁
  exact ⟨s₂, bind_eq_ok.2 ⟨a, s₁, hm, hf⟩, hs₂⟩

theorem Yields.graph_bind {f : Graph → Infer β} (h : Yields (f s.graph) s b g) :
    Yields (graph >>= f) s b g := h

/-- A loop whose every step comes to its end and leaves the graph alone. -/
theorem Yields.forM {f : α → Infer PUnit} {xs : List α}
    (hf : ∀ a ∈ xs, ∀ s, s.graph = g → Yields (f a) s () g) :
    ∀ s, s.graph = g → Yields (xs.forM f) s () g := by
  induction xs with
  | nil => exact fun s hs => .pure hs
  | cons x xs ih =>
    intro s hs
    change Yields (f x >>= fun _ => xs.forM f) s () g
    exact (hf x (List.mem_cons_self ..) s hs).bind (ih fun a ha => hf a (List.mem_cons_of_mem _ ha))

end Infer

open Infer TypeBounds.Graph

section

variable {u : Universe} {P : Side → Ty → Prop} {g g' : Graph} {side : Side} {id : VarId} {m t : Ty}
  {s : Progress} {nested : Side → VarId → Ty → Infer Unit} {new : Bool}

/-! ## One variable -/

/-- A new lower member that the upper bound, if there is one, lets through as it is. -/
theorem joinMember_yields (hP : Admits u P) (h : s.graph.Tidy P) (hm : ConvertibleFree u m)
    (hcov : ¬s.graph.Covers .lower id m)
    (hupper : (s.graph.boundsOf id).upper = [] ∨
      s.graph.isSubtype m (.inter (s.graph.boundsOf id).upper)) :
    Yields (member nested .lower id m) s true (s.graph.inserted .lower id m) := by
  have habs : ¬s.graph.lowerAbsorbs id m := fun habs => hcov ((h.absorbs_iff hP hm).1 habs)
  refine Yields.graph_bind ?_
  rw [if_neg habs]
  have hcheck : Yields (checkUpper (nested .upper) id m) s () s.graph := by
    refine Yields.graph_bind ?_
    have hfits : ((s.graph.boundsOf id).upper.isEmpty ||
        s.graph.isSubtype m (.inter (s.graph.boundsOf id).upper)) = true :=
      Bool.or_eq_true_iff.2 (hupper.imp_left List.isEmpty_iff.2)
    dsimp only
    rw [h.checkableUpper_eq hP, Bool.or_assoc, hfits, Bool.or_true, if_pos rfl]
    exact .pure rfl
  refine hcheck.bind fun s₁ hs₁ => ?_
  refine Yields.bind (.modify rfl) fun s₂ hs₂ => .pure ?_
  rw [hs₂, hs₁, insertLower_eq_inserted hP h hm]

/-- A visit with nowhere to go on to and no dependents. -/
theorem visit_yields_of_recheck (ht : side.parts t = [m]) (hself : s.graph.isSelf id m = false)
    (hmember : Yields (member nested side id m) s new g')
    (hrecheck : ∀ s : Progress, s.graph = g' → recheck id s = (.ok (), s))
    (honward : g'.onward side id = []) : Yields (visit nested side t id) s [] g' := by
  have hparts : (side.parts t).filter (!s.graph.isSelf id ·) = [m] := by
    rw [ht, List.filter_cons_of_pos, List.filter_nil]
    rw [hself]
    rfl
  have henter : Yields (enter nested side t id) s new g' := by
    rw [enter_eq]
    refine Yields.graph_bind ?_
    rw [hparts]
    refine hmember.bind fun s₁ hs₁ => ?_
    refine Yields.bind (.pure hs₁) fun s₂ hs₂ => ?_
    rw [Bool.or_false]
    exact .pure hs₂
  rw [visit_eq]
  refine henter.bind fun s₁ hs₁ => ?_
  cases new with
  | false => exact .pure hs₁
  | true =>
    refine Yields.bind (.note hs₁ _) fun s₂ hs₂ => ?_
    refine Yields.bind ⟨s₂, hrecheck s₂ hs₂, hs₂⟩ fun s₃ hs₃ => ?_
    refine Yields.graph_bind ?_
    rw [hs₃, honward]
    exact .pure hs₃

/-- **A visit with nowhere to go on to.** -/
theorem visit_yields (hP : Admits u P) (ht : side.parts t = [m]) (hm : ConvertibleFree u m)
    (hmember : Yields (member nested side id m) s new g') (htidy : g'.Tidy P)
    (honward : g'.onward side id = []) : Yields (visit nested side t id) s [] g' :=
  visit_yields_of_recheck ht (hm.isSelf_eq hP.legible.toSound) hmember
    (fun _ hs => recheck_apply hP (hs ▸ htidy)) honward

/-- **A search with nowhere to go on to.** -/
theorem exploreM_yields (hid : id ∈ s.graph.ids)
    (hvisit : Yields (visit nested side t id) s [] g') :
    Yields (exploreM (visit nested side t) s.graph.ids.length s.graph.ids [id]) s () g' := by
  rw [exploreM_start hid]
  refine hvisit.bind fun s₁ hs₁ => ?_
  exact exploreM_nil _ _ ▸ .pure hs₁

theorem spread_yields (hid : id ∈ s.graph.ids)
    (hvisit : ∀ depth, Yields (visit (spreadWithin depth) side t id) s [] g') :
    Yields (spread side id t) s () g' := by
  obtain ⟨depth, hdepth⟩ := exists_spread_eq side id t s
  rw [Yields, hdepth]
  exact exploreM_yields hid (hvisit depth)

theorem anyNew_eq_of_absorbs {todo : List Ty} (h : ∀ m ∈ todo, s.graph.absorbs side id m) :
    anyNew (member nested side id) todo s = (.ok false, s) := by
  induction todo with
  | nil => rfl
  | cons m todo ih =>
    obtain ⟨hm, htodo⟩ := List.forall_mem_cons.1 h
    exact bind_eq_ok.2 ⟨false, s, member_eq_of_absorbs hm, bind_eq_ok.2 ⟨false, s, ih htodo, rfl⟩⟩

section

variable (hid : id ∈ s.graph.ids) (h : ∀ m ∈ side.parts t, s.graph.absorbs side id m)

include hid h

/-- A type that is absorbed where it is to start from goes nowhere. -/
theorem exploreM_eq_of_absorbs :
    exploreM (visit nested side t) s.graph.ids.length s.graph.ids [id] s = (.ok (), s) := by
  have habsorbs : ∀ m ∈ (side.parts t).filter (!s.graph.isSelf id ·), s.graph.absorbs side id m :=
    fun m hm => h m (List.mem_of_mem_filter hm)
  have hvisit : visit nested side t id s = (.ok [], s) := by
    rw [visit_eq, enter_eq]
    exact bind_eq_ok.2 ⟨false, s, anyNew_eq_of_absorbs habsorbs, rfl⟩
  rw [exploreM_start hid]
  exact bind_eq_ok.2 ⟨[], s, hvisit, congrFun (exploreM_nil ..) s⟩

theorem spread_eq_of_absorbs :
    spread side id t s = (.ok (), s) := by
  obtain ⟨depth, hspread⟩ := exists_spread_eq side id t s
  rw [hspread, exploreM_eq_of_absorbs hid h]

theorem spreadWithin_yields_of_absorbs (depth : Nat) :
    Yields (spreadWithin depth side id t) s () s.graph := by
  cases depth with
  | zero => exact ⟨_, rfl, rfl⟩
  | succ depth => exact Yields.graph_bind ⟨s, exploreM_eq_of_absorbs hid h, rfl⟩

end

/-- A propagation goes four levels deep at least. -/
theorem spread_yields_of_depth
    (h : ∀ depth, Yields (spreadWithin (depth + 4) side id t) s () g) :
    Yields (spread side id t) s () g := by
  have hdeep : 4 ≤ s.graph.spreadDepth t := by
    unfold Graph.spreadDepth
    have hids : 2 * 2 ≤ 2 * (s.graph.ids.length + 2) := by omega
    have hconversions : 2 ≤ s.graph.lattice.conversions.length + t.size + 2 := by omega
    have := Nat.mul_le_mul hids hconversions
    omega
  obtain ⟨depth, hdepth⟩ := Nat.exists_eq_add_of_le' hdeep
  refine Yields.graph_bind ?_
  rw [hdepth]
  exact h depth

/-! ## Calls -/

namespace Graph

theorem requireOwned_eq_ok (hu : u.Sound) (ht : ConvertibleFree u t) :
    g.requireOwned t = .ok () := by
  refine requireOwned_iff.2 fun cell owner var hmem => ?_
  exact absurd (ht.of_mem_subterms hu hmem) (not_convertibleFree_asVar hu)

/-- A name that is not in use can be added. -/
theorem addVariable_yields {name : String} (hname : name ∉ g.names.keys) (r : Reference) :
    ((Call.addVariable name (some r)).outcome g).fault = none ∧
      ((Call.addVariable name (some r)).outcome g).graph =
        { g.register r.id with names := g.names.insert name r } := by
  rw [Call.outcome, addVariable_eq_ok.2 ⟨r, rfl, hname, rfl⟩]
  exact ⟨rfl, rfl⟩

/-- A variable without bounds has no neighbours. -/
theorem onward_of_blank (h : g.boundsOf id = {}) (side : Side) : g.onward side id = [] := by
  cases side with
  | lower => rw [onward, above, h]; rfl
  | upper => rw [onward, below, h]; rfl

/-- **The first variable** of a graph has no bounds yet. -/
theorem addVariable_first (tag : Nat) (lattice : Lattice) (policy : Policy) (name : String)
    (id : VarId) : let o := (Call.addVariable name (some { id })).outcome { tag, lattice, policy }
    o.fault = none ∧ o.graph.lattice = lattice ∧ id ∈ o.graph.ids ∧
    ∀ x, o.graph.boundsOf x = {} := by
  obtain ⟨hfault, hgraph⟩ :=
    addVariable_yields (g := { tag, lattice, policy }) (List.not_mem_nil (a := name)) { id }
  refine ⟨hfault, ?_, ?_, fun x => ?_⟩
  · rw [hgraph]
    rfl
  · rw [hgraph]
    exact mem_ids_register.2 (.inr rfl)
  · rw [hgraph]
    exact boundsOf_register

theorem run_eq_of_idle {blame : Contradiction → Fault} {m : Infer Unit}
    (h : m { graph := g } = (.ok (), { graph := g })) : g.run blame m = { graph := g } := by
  rw [run, h]

theorem run_yields {blame : Contradiction → Fault} {m : Infer Unit}
    (h : Yields m { graph := g } () g') :
    (g.run blame m).fault = none ∧ (g.run blame m).graph = g' := by
  obtain ⟨s, hm, rfl⟩ := h
  rw [run, hm]
  exact ⟨rfl, rfl⟩

theorem addBound_yields (hu : u.Sound) (ht : ConvertibleFree u t) (hid : id ∈ g.ids)
    (h : Yields (spread side id t) { graph := g } () g') :
    (g.addBound side id t).fault = none ∧ (g.addBound side id t).graph = g' := by
  rw [addBound_eq_run (ht.isSelf_eq hu) (checkBound_iff.2 ⟨hid, requireOwned_eq_ok hu ht⟩)]
  exact run_yields h

end Graph

end

end TypeBounds
