import Mathlib.Data.List.Perm.Subperm
import TypeBounds.Proofs.Closure

/-!
# What collapsing cycles leaves

Where edges are closed, whatever is below a variable on a cycle is below every other one on it. So a
merge along a cycle finds every edge it wants to add already there: it takes one variable out, and
that is all it does to the edges (`mergeInto_absorbed`). Collapsing is such merges only. What
becomes of a variable is said by its **heir** (`heirIn`), the variable that it is merged into, or
itself:

* `Graph.Collapsed`: edges are left between those that are their own heirs, and mutable references
  go to heirs;
* `collapse_ends`: what collapsing disjoint cycles does, with the parameters it gives;
* `Graph.WellFormed.cycles_ok`: what lies on the cycles of a graph with closed edges.
-/

namespace TypeBounds

open Infer Relation

/-! ## References that follow merges -/

theorem Table.mapValues_mapValues {α : Type} (t : Table α) (f f' : String → α → α) :
    (t.mapValues f).mapValues f' = t.mapValues fun key v => f' key (f key v) := by
  simp [mapValues]

/-- What a reference denotes once variables have gone to their heirs. -/
def Reference.follow (heir : VarId → VarId) (r : Reference) : Reference :=
  if r.fixed then r else { r with id := heir r.id }

theorem Reference.follow_follow (heir heir' : VarId → VarId) (r : Reference) :
    (r.follow heir).follow heir' = r.follow (heir' ∘ heir) := by
  unfold follow
  by_cases hfixed : r.fixed
  · simp [hfixed]
  · simp [hfixed]

namespace Graph

variable {g g' g'' : Graph} {heir heir' : VarId → VarId} {old new x y : VarId}

/-- The heirs of a single merge. -/
def successor (old new x : VarId) : VarId := if x = old then new else x

theorem successor_eq_self (h : old ≠ new) : successor old new x = x ↔ x ≠ old := by
  unfold successor
  grind

theorem names_redirect : (g.redirect old new).names =
    g.names.mapValues fun _ => Reference.follow (successor old new) := by
  unfold redirect
  dsimp only
  congr 1
  funext _ r
  unfold Reference.follow successor
  obtain ⟨id, fixed⟩ := r
  cases fixed with
  | true => simp
  | false => by_cases hold : id = old <;> simp [hold]

/-- The old variable has no edges any more. -/
theorem WellFormed.mem_below_cutOff (hwf : g.WellFormed) (hnew : new ∈ g.ids) {x y : VarId} :
    x ∈ ((g.cutOff old new).boundsOf y).below ↔ x ∈ (g.boundsOf y).below ∧ x ≠ old ∧ y ≠ old := by
  have hsame : SameEdges ((g.redirect old new).isolate old) (g.cutOff old new) :=
    sameEdges_renameConvertibles
  rw [hsame.below]
  exact ((hwf.redirect hnew).isolate old).2 x y

theorem frozen_inheritFrozen (hnew : new ∈ g.ids) : ((inheritFrozen old new g).boundsOf x).frozen =
    ((g.boundsOf x).frozen || (x = new && (g.boundsOf old).frozen)) := by
  unfold inheritFrozen
  by_cases hold : (g.boundsOf old).frozen
  · rw [if_pos hold, hold, boundsOf_update]
    by_cases hx : x = new
    · simp [hx, hnew]
    · simp [hx]
  · simp [hold]

/-- A fixed reference denotes what it denoted before. -/
theorem isPinned_follow (h : g'.names = g.names.mapValues fun _ => Reference.follow heir) :
    g'.isPinned x = g.isPinned x := by
  unfold isPinned
  rw [h, Table.mapValues, List.any_map]
  refine List.any_congr rfl fun e => ?_
  unfold Reference.follow
  by_cases hfixed : e.2.fixed
  · simp [hfixed]
  · simp [hfixed]

/-- **What merges along cycles leave**: edges and records of those variables that are their own
heirs. The record of another one is kept for a fixed reference only, and has no edges. -/
structure Collapsed (heir : VarId → VarId) (g g' : Graph) : Prop where
  wellFormed : g'.WellFormed
  mem_ids : ∀ x, x ∈ g'.ids ↔ x ∈ g.ids ∧ (heir x = x ∨ g.isPinned x)
  names : g'.names = g.names.mapValues fun _ => Reference.follow heir
  frozen : (∀ x, (g.boundsOf x).frozen = false) → ∀ x, (g'.boundsOf x).frozen = false
  edges : ∀ x y, x ∈ (g'.boundsOf y).below ↔ x ∈ (g.boundsOf y).below ∧ heir x = x ∧ heir y = y

theorem Collapsed.refl (h : g.WellFormed) : Collapsed id g g where
  wellFormed := h
  mem_ids x := by simp
  names := by
    have hsame : (fun (_ : String) => Reference.follow id) = fun _ r => r := by
      funext _ r
      simp [Reference.follow]
    rw [hsame]
    simp [Table.mapValues]
  frozen := id
  edges x y := by simp

/-- Merges one after the other. Whoever goes to an heir does not come back. -/
theorem Collapsed.trans (h : Collapsed heir g g') (h' : Collapsed heir' g' g'')
    (hgone : ∀ x, heir' (heir x) = x → heir x = x) : Collapsed (heir' ∘ heir) g g'' where
  wellFormed := h'.wellFormed
  mem_ids x := by
    have hgone := hgone x
    rw [h'.mem_ids, h.mem_ids, isPinned_follow h.names, Function.comp_apply]
    grind
  names := by
    rw [h'.names, h.names, Table.mapValues_mapValues]
    simp only [Reference.follow_follow]
  frozen hopen := h'.frozen (h.frozen hopen)
  edges x y := by
    have hx := hgone x
    have hy := hgone y
    rw [h'.edges, h.edges, Function.comp_apply, Function.comp_apply]
    grind

theorem Collapsed.closed (h : Collapsed heir g g') (hclosed : g.Closed) : g'.Closed := by
  refine hclosed.of_edges (D := fun x => heir x ≠ x) fun x y => ?_
  rw [h.edges, not_not, not_not]

end Graph

/-! ## Merges that add nothing -/

section

open TypeBounds.Graph

variable {old new : VarId} {s s' : Progress}

theorem addEdge_known {lower upper : VarId} (h : lower ∈ (s.graph.boundsOf upper).below) :
    addEdge lower upper s = (.ok (), s) := by
  rw [addEdge_eq, graph_bind_apply, if_pos (List.contains_iff_mem.2 h)]
  rfl

/-- Where all edges are known already, taking over changes no edge. -/
theorem takeOver_known {lowers uppers : List VarId}
    (hlowers : ∀ x ∈ lowers, x ∈ (s.graph.boundsOf new).below)
    (huppers : ∀ y ∈ uppers, new ∈ (s.graph.boundsOf y).below)
    (hrun : takeOver old new lowers uppers s = (.ok (), s')) :
    ∃ g, SameShape s.graph g ∧ s'.graph = inheritFrozen old new g := by
  obtain ⟨s₁, s₂, s₄, hlower, hupper, hbelow, habove⟩ := takeOver_cases hrun
  have hfirst : SameShape s.graph s₁.graph := (along_handOn sameShape_spread ..).of_eq hlower
  have hsecond : SameShape s₁.graph s₂.graph := (along_handOn sameShape_spread ..).of_eq hupper
  have hshape := trans_of SameShape hfirst hsecond
  have hsame : SameEdges s.graph (inheritFrozen old new s₂.graph) :=
    trans_of SameEdges hshape.sameEdges sameEdges_inheritFrozen
  set s₃ : Progress := { s₂ with graph := inheritFrozen old new s₂.graph }
  have hlowers : (lowers.forM fun x => addEdge x new) s₃ = (.ok (), s₃) := by
    refine forM_pure fun x hx => addEdge_known ?_
    rw [hsame.below]
    exact hlowers x hx
  have huppers : (uppers.forM fun y => addEdge new y) s₃ = (.ok (), s₃) := by
    refine forM_pure fun y hy => addEdge_known ?_
    rw [hsame.below]
    exact huppers y hy
  obtain rfl : s₃ = s₄ := congrArg Prod.snd (hlowers.symm.trans hbelow)
  obtain rfl : s₃ = s' := congrArg Prod.snd (huppers.symm.trans habove)
  exact ⟨s₂.graph, hshape, rfl⟩

/-- **A merge that adds nothing** takes the old variable out. -/
theorem mergeInto_absorbed (hwf : s.graph.WellFormed) (hne : old ≠ new) (hnew : new ∈ s.graph.ids)
    (hbelow : ∀ x ∈ (s.graph.boundsOf old).below, x ≠ old → x ≠ new →
      x ∈ (s.graph.boundsOf new).below)
    (habove : ∀ y, old ∈ (s.graph.boundsOf y).below → y ≠ old → y ≠ new →
      new ∈ (s.graph.boundsOf y).below)
    (hrun : mergeInto old new s = (.ok (), s')) :
    Collapsed (successor old new) s.graph s'.graph ∧
      ((s.graph.boundsOf old).frozen = false →
        ∀ x, x ≠ old → (s'.graph.boundsOf x).frozen = (s.graph.boundsOf x).frozen) := by
  rw [mergeInto_eq, graph_bind_apply, modify_bind_apply] at hrun
  obtain ⟨_, s₁, htake, hrun⟩ := bind_eq_ok.1 hrun
  have hstart : Merging s.graph.ids (s.graph.redirect old new).names old (s.graph.cutOff old new) :=
    hwf.cutOff hnew
  have hcut (x y : VarId) : x ∈ ((s.graph.cutOff old new).boundsOf y).below ↔
      x ∈ (s.graph.boundsOf y).below ∧ x ≠ old ∧ y ≠ old := hwf.mem_below_cutOff hnew
  obtain ⟨g, hshape, hs₁⟩ := takeOver_known (s := { s with graph := s.graph.cutOff old new })
    (fun x hx => by
      obtain ⟨hx, hxold, hxnew⟩ := mem_others_below.1 hx
      exact (hcut x new).2 ⟨hbelow x hx hxold hxnew, hxold, hne.symm⟩)
    (fun y hy => by
      obtain ⟨hy, hyold, hynew⟩ := mem_others_above.1 hy
      exact (hcut new y).2 ⟨habove y ((hwf.mirrored old y).2 hy) hyold hynew, hne.symm, hyold⟩)
    htake
  have hedges : SameEdges (s.graph.cutOff old new) s₁.graph :=
    hs₁ ▸ trans_of SameEdges hshape.sameEdges sameEdges_inheritFrozen
  have hmerging : Merging s.graph.ids (s.graph.redirect old new).names old s₁.graph :=
    hstart.of_sameEdges hedges (hs₁ ▸ names_inheritFrozen.trans hshape.names)
  obtain ⟨hwf', hids, hnames, hsecluded, hend, hbounds⟩ := hmerging.finish hne hrun
  have hfrozen (x : VarId) : (s₁.graph.boundsOf x).frozen =
      ((s.graph.boundsOf x).frozen || (x = new && (s.graph.boundsOf old).frozen)) := by
    rw [hs₁, frozen_inheritFrozen (hshape.ids ▸ hstart.ids_eq ▸ hnew), hshape.frozen, hshape.frozen]
    exact congrArg₂ _ (sameFrame_cutOff.frozen x) (congrArg _ (sameFrame_cutOff.frozen old))
  have hedge (x y : VarId) : x ∈ (s'.graph.boundsOf y).below ↔
      x ∈ (s.graph.boundsOf y).below ∧ x ≠ old ∧ y ≠ old := by
    by_cases hy : y = old
    · rw [hy, hsecluded.below]
      simp
    · rw [hbounds y hy, hedges.below]
      exact hcut x y
  refine ⟨⟨hwf', fun x => ?_, hnames.trans names_redirect, fun hopen x => ?_, fun x y => ?_⟩,
    fun hold x hx => ?_⟩
  · rw [hids, successor_eq_self hne]
    by_cases hpin : s.graph.isPinned old
    · rw [if_pos hpin]
      grind
    · rw [if_neg hpin]
      grind
  · have hopen : (s₁.graph.boundsOf x).frozen = false := by
      rw [hfrozen, hopen, hopen, Bool.and_false, Bool.or_false]
    rcases hend with hend | hend
    · rw [hend, hopen]
    · rw [hend, boundsOf_unregister]
      split
      · rfl
      · exact hopen
  · rw [hedge, successor_eq_self hne, successor_eq_self hne]
  · rw [hbounds x hx, hfrozen, hold, Bool.and_false, Bool.or_false]

/-- A merge along a cycle adds nothing. -/
theorem mergeInto_cycle (hwf : s.graph.WellFormed) (hclosed : s.graph.Closed) (hne : old ≠ new)
    (holdnew : old ∈ (s.graph.boundsOf new).below) (hnewold : new ∈ (s.graph.boundsOf old).below)
    (hrun : mergeInto old new s = (.ok (), s')) :
    Collapsed (successor old new) s.graph s'.graph := by
  have hnew : new ∈ s.graph.ids := hwf.mem_ids_of_mem_below hnewold
  refine (mergeInto_absorbed hwf hne hnew (fun x hx _ hxnew => ?_) (fun y hy _ hynew => ?_) hrun).1
  · exact hclosed x old new hx holdnew hxnew
  · exact hclosed new old y hnewold hy hynew.symm

end

/-! ## Collapsing -/

section

open TypeBounds.Graph

variable {rep x : VarId} {merged params params' c : List VarId} {cs : List (List VarId)}
  {s s' : Progress} {J : Graph → Prop} {E : Contradiction → Progress → Prop}

/-- The heirs of merges into a representative. -/
def successorAll (rep : VarId) (merged : List VarId) (x : VarId) : VarId :=
  if x ∈ merged then rep else x

theorem successorAll_cons (hrep : rep ∉ merged) : successorAll rep merged ∘ successor x rep =
    successorAll rep (x :: merged) := by
  funext y
  unfold successorAll successor
  grind

/-- What merges that come to their end keep. -/
def MergesKeep (J : Graph → Prop) : Prop :=
  ∀ old new s s', old ≠ new → new ∈ s.graph.ids → J s.graph →
    mergeInto old new s = (.ok (), s') → J s'.graph

/-- While `J` holds, merges along cycles keep it or end as `E` says. -/
def CyclesKeep (J : Graph → Prop) (E : Contradiction → Progress → Prop) : Prop :=
  ∀ old new s, old ≠ new → old ∈ (s.graph.boundsOf new).below → new ∈ (s.graph.boundsOf old).below →
    s.graph.WellFormed → J s.graph → Ends (mergeInto old new) s (fun _ s' => J s'.graph) E

/-- **All merges into a representative** of a cycle, and the parameters afterwards. -/
theorem mergeAll_ends (hJ : CyclesKeep J E) (hwf : s.graph.WellFormed) (hclosed : s.graph.Closed)
    (hrep : rep ∉ merged) (hnodup : merged.Nodup)
    (hcycle : ∀ x ∈ merged, x ∈ (s.graph.boundsOf rep).below ∧ rep ∈ (s.graph.boundsOf x).below)
    (h : J s.graph) (params : List VarId) :
    Ends (mergeAll rep merged params) s
      (fun params' s' => Collapsed (successorAll rep merged) s.graph s'.graph ∧
      (∀ p, p ∈ params' ↔ ∃ q ∈ params, successorAll rep merged q = p) ∧ J s'.graph) E := by
  induction merged generalizing s params with
  | nil =>
    have hid : successorAll rep [] = id := by
      funext x
      simp [successorAll]
    rw [hid]
    exact .pure ⟨.refl hwf, by simp, h⟩
  | cons x merged ih =>
    obtain ⟨hxrep, hrep⟩ : rep ≠ x ∧ rep ∉ merged := by simpa using hrep
    obtain ⟨hx, hnodup⟩ := List.nodup_cons.1 hnodup
    obtain ⟨⟨hxbelow, hxabove⟩, hcycle⟩ := List.forall_mem_cons.1 hcycle
    have hmerges := hJ x rep s hxrep.symm hxbelow hxabove hwf h
    change Ends (mergeInto x rep >>= fun _ => mergeAll rep merged
      (if params.contains x then (params.filter (· ≠ x)).insert rep else params)) s _ E
    refine Ends.bind (hmerges.mono fun _ s₁ hmerge h₁ => And.intro hmerge h₁) fun _ s₁ h₁ => ?_
    obtain ⟨hmerge, h₁⟩ := h₁
    have hfirst := mergeInto_cycle hwf hclosed hxrep.symm hxbelow hxabove hmerge
    have hkept : ∀ y ∈ merged, y ∈ (s₁.graph.boundsOf rep).below ∧
        rep ∈ (s₁.graph.boundsOf y).below := by
      intro y hy
      have hyx : y ≠ x := fun h => hx (h ▸ hy)
      have hsame := successor_eq_self (x := y) hxrep.symm
      have hsame' := successor_eq_self (x := rep) hxrep.symm
      rw [hfirst.edges, hfirst.edges]
      have hy := hcycle y hy
      grind
    refine (ih hfirst.wellFormed (hfirst.closed hclosed) hrep hnodup hkept h₁ _).mono
      fun params' s' _ hrest => ?_
    obtain ⟨hrest, hparams, h'⟩ := hrest
    rw [← successorAll_cons hrep]
    refine ⟨hfirst.trans hrest fun y hy => ?_, fun p => ?_, h'⟩
    · unfold successorAll successor at hy
      unfold successor
      grind
    · rw [hparams, Function.comp_def]
      unfold successorAll successor
      by_cases hmem : x ∈ params
      · rw [if_pos (List.contains_iff_mem.2 hmem)]
        simp only [List.mem_insert_iff, List.mem_filter, decide_eq_true_eq]
        grind
      · rw [if_neg fun h => hmem (List.contains_iff_mem.1 h)]
        grind

/-- **The heir of a variable**: the representative of the first of the given cycles that it is on,
or itself if it is on none. -/
def heirIn (cs : List (List VarId)) (params : List VarId) (x : VarId) : VarId :=
  ((cs.find? (·.contains x)).bind fun c => representative params (Natural.sort c)).getD x

theorem heirIn_cons : heirIn (c :: cs) params x =
    if x ∈ c then (representative params (Natural.sort c)).getD x else heirIn cs params x := by
  unfold heirIn
  by_cases hx : x ∈ c <;> simp [hx]

theorem heirIn_of_not_mem (h : ∀ c ∈ cs, x ∉ c) : heirIn cs params x = x := by
  induction cs with
  | nil => rfl
  | cons c cs ih =>
    rw [heirIn_cons, if_neg (h c (List.mem_cons_self ..))]
    exact ih fun d hd => h d (List.mem_cons_of_mem _ hd)

theorem representative_congr (h : ∀ x ∈ c, (x ∈ params ↔ x ∈ params')) :
    representative params c = representative params' c := by
  have hfind : c.find? params.contains = c.find? params'.contains := by
    induction c with
    | nil => rfl
    | cons x c ih =>
      have hx : params.contains x = params'.contains x := by
        rw [Bool.eq_iff_iff, List.contains_iff_mem, List.contains_iff_mem]
        exact h x (List.mem_cons_self ..)
      rw [List.find?_cons, List.find?_cons, hx, ih fun y hy => h y (List.mem_cons_of_mem _ hy)]
  unfold representative
  rw [hfind]

theorem heirIn_congr (h : ∀ c ∈ cs, ∀ x ∈ c, (x ∈ params ↔ x ∈ params')) :
    heirIn cs params x = heirIn cs params' x := by
  induction cs with
  | nil => rfl
  | cons c cs ih =>
    have hfirst :
        representative params (Natural.sort c) = representative params' (Natural.sort c) :=
      representative_congr fun y hy => h c (List.mem_cons_self ..) y (Natural.mem_sort.1 hy)
    rw [heirIn_cons, heirIn_cons, hfirst, ih fun d hd => h d (List.mem_cons_of_mem _ hd)]

theorem eq_nil_of_representative (h : representative params c = none) : c = [] := by
  unfold representative at h
  exact List.head?_eq_none_iff.1 (Option.or_eq_none_iff.1 h).2

/-- The variables on one of several disjoint cycles have one heir. -/
theorem heirIn_of_mem (hdisjoint : cs.Pairwise List.Disjoint) (hc : c ∈ cs)
    (hrep : representative params (Natural.sort c) = some rep) (hx : x ∈ c) :
    heirIn cs params x = rep := by
  induction cs with
  | nil => cases hc
  | cons d cs ih =>
    obtain ⟨hd, hdisjoint⟩ := List.pairwise_cons.1 hdisjoint
    rw [heirIn_cons]
    rcases List.mem_cons.1 hc with rfl | hc
    · rw [if_pos hx, hrep, Option.getD_some]
    · rw [if_neg fun hxd => hd c hc hxd hx]
      exact ih hdisjoint hc

/-- The heirs do not depend on the order of disjoint cycles. -/
theorem heirIn_perm (hdisjoint : cs.Pairwise List.Disjoint) (hperm : cs.Perm cs')
    (params : List VarId) : heirIn cs params = heirIn cs' params := by
  have hdisjoint' : cs'.Pairwise List.Disjoint := hperm.pairwise hdisjoint fun hcd => hcd.symm
  funext x
  by_cases hx : ∃ c ∈ cs, x ∈ c
  · obtain ⟨c, hc, hx⟩ := hx
    rcases hrep : representative params (Natural.sort c) with _ | rep
    · have hx := Natural.mem_sort.2 hx
      rw [eq_nil_of_representative hrep] at hx
      cases hx
    · rw [heirIn_of_mem hdisjoint hc hrep hx, heirIn_of_mem hdisjoint' (hperm.mem_iff.1 hc) hrep hx]
  · have hnone : ∀ c ∈ cs, x ∉ c := fun c hc hxc => hx ⟨c, hc, hxc⟩
    rw [heirIn_of_not_mem hnone, heirIn_of_not_mem fun c hc => hnone c (hperm.mem_iff.2 hc)]

/-- **Collapsing** disjoint cycles. -/
theorem collapse_ends (hJ : CyclesKeep J E) (hwf : s.graph.WellFormed) (hclosed : s.graph.Closed)
    (hdisjoint : cs.Pairwise List.Disjoint) (hnodup : ∀ c ∈ cs, c.Nodup)
    (hcycle : ∀ c ∈ cs, ∀ x ∈ c, ∀ y ∈ c, x ≠ y → x ∈ (s.graph.boundsOf y).below) (h : J s.graph)
    (params : List VarId) :
    Ends (collapse cs params) s (fun params' s' => Collapsed (heirIn cs params) s.graph s'.graph ∧
      (∀ p, p ∈ params' ↔ ∃ q ∈ params, heirIn cs params q = p) ∧ J s'.graph) E := by
  induction cs generalizing s params with
  | nil =>
    have hid : heirIn [] params = id := rfl
    rw [hid]
    exact .pure ⟨.refl hwf, by simp, h⟩
  | cons c cs ih =>
    obtain ⟨hc, hdisjoint⟩ := List.pairwise_cons.1 hdisjoint
    obtain ⟨hcnodup, hnodup⟩ := List.forall_mem_cons.1 hnodup
    obtain ⟨hccycle, hcycle⟩ := List.forall_mem_cons.1 hcycle
    rw [collapse_cons]
    rcases hrep : representative params (Natural.sort c) with _ | rep
    · have hsame : heirIn (c :: cs) params = heirIn cs params := by
        funext x
        rw [heirIn_cons, if_neg fun hx => ?_]
        have hx : x ∈ Natural.sort c := Natural.mem_sort.2 hx
        rw [eq_nil_of_representative hrep] at hx
        cases hx
      rw [hsame]
      exact ih hwf hclosed hdisjoint hnodup hcycle h params
    · have hrepc : rep ∈ c := Natural.mem_sort.1 (mem_of_representative hrep)
      set merged := (Natural.sort c).filter (· ≠ rep)
      have hmerged (x : VarId) : x ∈ merged ↔ x ∈ c ∧ x ≠ rep := by simp [merged]
      have hlater {d : List VarId} (hd : d ∈ cs) {x : VarId} (hx : x ∈ d) : x ∉ c :=
        fun hxc => hc d hd hxc hx
      have hrepLater : heirIn cs params rep = rep :=
        heirIn_of_not_mem fun d hd hx => hlater hd hx hrepc
      have hmerges := mergeAll_ends hJ hwf hclosed (fun h => ((hmerged rep).1 h).2 rfl)
        (((sortBy_perm _ c).nodup_iff.2 hcnodup).filter _) (fun x hx => by
          obtain ⟨hxc, hxrep⟩ := (hmerged x).1 hx
          exact ⟨hccycle x hxc rep hrepc hxrep, hccycle rep hrepc x hxc hxrep.symm⟩) h params
      refine hmerges.bind fun params₁ s₁ hfirst => ?_
      obtain ⟨hfirst, hparams₁, h₁⟩ := hfirst
      have hkept {x : VarId} (hx : x ∉ c) : successorAll rep merged x = x :=
        if_neg fun h => hx ((hmerged x).1 h).1
      have hsame : heirIn cs params₁ = heirIn cs params := by
        funext y
        refine heirIn_congr fun d hd x hx => ?_
        have hxc := hlater hd hx
        rw [hparams₁]
        unfold successorAll
        grind
      have hrest := ih hfirst.wellFormed (hfirst.closed hclosed) hdisjoint hnodup
        (fun d hd x hx y hy hxy => (hfirst.edges x y).2
          ⟨hcycle d hd x hx y hy hxy, hkept (hlater hd hx), hkept (hlater hd hy)⟩) h₁ params₁
      rw [hsame] at hrest
      have hheir (y : VarId) :
          heirIn cs params (successorAll rep merged y) = heirIn (c :: cs) params y := by
        rw [heirIn_cons, hrep, Option.getD_some]
        by_cases hy : y ∈ c
        · rw [if_pos hy]
          unfold successorAll
          grind
        · rw [if_neg hy, hkept hy]
      refine hrest.mono fun params' s' _ hrest => ?_
      obtain ⟨hrest, hparams, h'⟩ := hrest
      refine ⟨?_, fun p => ?_, h'⟩
      · rw [← show _ = heirIn (c :: cs) params from funext hheir]
        refine hfirst.trans hrest fun y hy => ?_
        unfold successorAll at hy ⊢
        grind
      · simp only [hparams, hparams₁, ← hheir]
        grind

theorem collapse_ok (hJ : MergesKeep J) (hwf : s.graph.WellFormed) (hclosed : s.graph.Closed)
    (hdisjoint : cs.Pairwise List.Disjoint) (hnodup : ∀ c ∈ cs, c.Nodup)
    (hcycle : ∀ c ∈ cs, ∀ x ∈ c, ∀ y ∈ c, x ≠ y → x ∈ (s.graph.boundsOf y).below)
    (hrun : collapse cs params s = (.ok params', s')) :
    Collapsed (heirIn cs params) s.graph s'.graph ∧
      (∀ p, p ∈ params' ↔ ∃ q ∈ params, heirIn cs params q = p) ∧ (J s.graph → J s'.graph) := by
  have hkeep : CyclesKeep (fun g => J s.graph → J g) fun _ _ => True := by
    refine fun old new s₁ hne _ hnewold hwf₁ h => ⟨fun _ s₂ hmerge h₀ => ?_, fun _ _ _ => trivial⟩
    exact hJ old new s₁ s₂ hne (hwf₁.mem_ids_of_mem_below hnewold) (h h₀) hmerge
  exact (collapse_ends hkeep hwf hclosed hdisjoint hnodup hcycle (fun h => h) params).ok
    params' s' hrun

end

/-! ## The cycles of a graph -/

namespace Graph

variable (search : Search) {g : Graph} {x y : VarId}

/-- **The cycles** of a graph with closed edges: on each of them every variable is below every
other. -/
theorem WellFormed.cycles_ok (hwf : g.WellFormed) (hclosed : g.Closed) :
    (g.cycles search).Pairwise List.Disjoint ∧ (∀ c ∈ g.cycles search, c.Nodup) ∧
      ∀ c ∈ g.cycles search, ∀ x ∈ c, ∀ y ∈ c, x ≠ y → x ∈ (g.boundsOf y).below := by
  refine ⟨pairwise_disjoint_cycles, fun c hc => ?_, fun c hc x hx y hy hne => ?_⟩
  · exact (List.nodup_flatten.1 nodup_flatten_cycles).1 c hc
  · have hcs := search.isCondensation g.typeVariables g.above
    have hpath := hcs.path (List.mem_of_mem_filter hc) hx hy
    refine (hclosed.mem_below_of_flow (hpath.lift id fun a b hop => ?_)).resolve_left hne
    exact (hwf.mirrored a b).2 (Natural.mem_sort.1 hop.1)

/-- Two variables that are below each other are on one cycle. -/
theorem WellFormed.exists_cycle (hwf : g.WellFormed) (hne : x ≠ y) (hxy : x ∈ (g.boundsOf y).below)
    (hyx : y ∈ (g.boundsOf x).below) : ∃ c ∈ g.cycles search, x ∈ c ∧ y ∈ c := by
  have hx : x ∈ g.typeVariables := Natural.mem_sort.2 (hwf.mem_ids_of_mem_below hxy)
  have hy : y ∈ g.typeVariables := Natural.mem_sort.2 (hwf.mem_ids_of_mem_below hyx)
  have hup : Path g.typeVariables g.above x y :=
    .single ⟨Natural.mem_sort.2 ((hwf.mirrored x y).1 hxy), hy⟩
  have hdown : Path g.typeVariables g.above y x :=
    .single ⟨Natural.mem_sort.2 ((hwf.mirrored y x).1 hyx), hx⟩
  have hcs := search.isCondensation g.typeVariables g.above
  obtain ⟨c, hc, hxc, hyc⟩ := (hcs.connected x hx y hy).2 ⟨hup, hdown⟩
  refine ⟨c, List.mem_filter.2 ⟨hc, decide_eq_true ?_⟩, hxc, hyc⟩
  have hpair : [x, y].Nodup := by simpa using hne
  have hsub : [x, y] ⊆ c := by
    intro z hz
    rcases List.mem_pair.1 hz with rfl | rfl
    · exact hxc
    · exact hyc
  exact (hpair.subperm hsub).length_le

/-- So they have one heir. -/
theorem WellFormed.heirIn_cycles_eq (hwf : g.WellFormed) (hne : x ≠ y)
    (hxy : x ∈ (g.boundsOf y).below) (hyx : y ∈ (g.boundsOf x).below) (params : List VarId) :
    heirIn (g.cycles search) params x = heirIn (g.cycles search) params y := by
  obtain ⟨c, hc, hx, hy⟩ := hwf.exists_cycle search hne hxy hyx
  have hdisjoint : (g.cycles search).Pairwise List.Disjoint := pairwise_disjoint_cycles
  rcases hrep : representative params (Natural.sort c) with _ | rep
  · have hx := Natural.mem_sort.2 hx
    rw [eq_nil_of_representative hrep] at hx
    cases hx
  · rw [heirIn_of_mem hdisjoint hc hrep hx, heirIn_of_mem hdisjoint hc hrep hy]

end Graph

end TypeBounds
