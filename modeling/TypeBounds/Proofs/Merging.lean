import TypeBounds.Proofs.Condensation
import TypeBounds.Proofs.Integrity

/-!
# Merging and generalising keep a graph well formed

A merge cuts the old variable off first and removes its record last. Between the two nothing may tie
it in again (`Graph.Merging`), **also if the merge fails halfway**; so a merge keeps a graph well
formed, and every other variable stays registered (`mergeInto_keeps`). Collapsing merges components
that were found before the first merge, which is sound since components are disjoint
(`collapse_keeps`). So whatever pruning, merging and fixing keep, generalisation keeps
(`generalizeAll_keeps`).

The steps of the longer operations get names here (`handOn`, `Graph.cutOff`, `takeOver`,
`Graph.settle`, `Graph.detach`), and the equations `addEdge_eq`, `mergeInto_eq` and `freeze_eq` say
how the operations are put together from them.
-/

namespace TypeBounds

open Infer

/-! ## The steps of adding an edge and of a merge -/

/-- Hands a whole bound on to a variable. An empty one says nothing. -/
def handOn (side : Side) (id : VarId) (ms : Members) : Infer Unit :=
  if ms.isEmpty then pure () else spread side id (side.container ms).copy

theorem skip_bind {c : Prop} [Decidable c] (m : Infer Unit) (k : Unit → Infer Unit) :
    (if c then pure () else m) >>= k = if c then k () else m >>= k := by
  split <;> simp

theorem addEdge_eq (lower upper : VarId) : addEdge lower upper = (do
    let g ← graph
    if (g.boundsOf upper).below.contains lower then pure ()
    else do
      modify fun g => g.linkAcross lower upper
      noteChanged
      handOn .lower upper (g.boundsOf lower).lower
      let g ← graph
      handOn .upper lower (g.boundsOf upper).upper) := by
  unfold addEdge
  unfold handOn
  simp only [skip_bind]
  rfl

namespace Graph

/-- Cuts a variable off: nothing but a fixed reference leads to it any more. -/
def cutOff (g : Graph) (old new : VarId) : Graph :=
  ((g.redirect old new).isolate old).renameConvertibles old new

/-- What was frozen as `old` is frozen as `new`. -/
def inheritFrozen (old new : VarId) (g : Graph) : Graph :=
  if (g.boundsOf old).frozen then g.update new fun b => { b with frozen := true } else g

/-- The neighbours that a merge of `old` into `new` has to connect. -/
def others (old new : VarId) (ids : List VarId) : List VarId :=
  ids.filter fun x => x ≠ old && x ≠ new

end Graph

/-- Gives a variable the bounds and the neighbours of another one that is cut off. -/
def takeOver (old new : VarId) (lowers uppers : List VarId) : Infer Unit := do
  let g ← graph
  handOn .lower new (g.boundsOf old).lower
  let g ← graph
  handOn .upper new (g.boundsOf old).upper
  modify (Graph.inheritFrozen old new)
  lowers.forM fun x => addEdge x new
  uppers.forM fun y => addEdge new y

theorem mergeInto_eq (old new : VarId) : mergeInto old new = (do
    let g ← graph
    modify fun g => g.cutOff old new
    takeOver old new (Graph.others old new (g.below old)) (Graph.others old new (g.above old))
    if g.isPinned old then pure () else modify fun g => g.unregister old) := by
  unfold mergeInto takeOver handOn
  simp only [bind_assoc]
  simp only [skip_bind]
  rfl

/-- The steps of taking over. -/
theorem takeOver_cases {old new : VarId} {lowers uppers : List VarId} {s s' : Progress}
    (h : takeOver old new lowers uppers s = (.ok (), s')) :
    ∃ s₁ s₂ s₃, handOn .lower new (s.graph.boundsOf old).lower s = (.ok (), s₁) ∧
      handOn .upper new (s₁.graph.boundsOf old).upper s₁ = (.ok (), s₂) ∧
      (lowers.forM fun x => addEdge x new)
      { s₂ with graph := Graph.inheritFrozen old new s₂.graph } = (.ok (), s₃) ∧
      (uppers.forM fun y => addEdge new y) s₃ = (.ok (), s') := by
  rw [takeOver, graph_bind_apply] at h
  obtain ⟨_, s₁, hlower, h⟩ := bind_eq_ok.1 h
  rw [graph_bind_apply] at h
  obtain ⟨_, s₂, hupper, h⟩ := bind_eq_ok.1 h
  rw [modify_bind_apply] at h
  obtain ⟨_, s₃, hbelow, habove⟩ := bind_eq_ok.1 h
  exact ⟨s₁, s₂, s₃, hlower, hupper, hbelow, habove⟩

/-! ## Along a relation -/

section

variable {R : Graph → Graph → Prop} [IsPreorder Graph R] {old new lower upper : VarId}
  {s : Progress}

section

variable (hspread : ∀ side id t s, Along R (spread side id t) s)

include hspread

theorem along_handOn (side : Side)
    (id : VarId) (ms : Members) (s : Progress) : Along R (handOn side id ms) s := by
  unfold handOn
  split
  · exact Along.pure _
  · exact hspread _ _ _ _

theorem along_addEdge
    (hlink : R s.graph (s.graph.linkAcross lower upper)) : Along R (addEdge lower upper) s := by
  rw [addEdge_eq]
  refine Along.graph_bind ?_
  split
  · exact Along.pure _
  · refine (Along.modify hlink).bind fun _ s₁ _ => Along.note_bind fun s₂ _ => ?_
    refine (along_handOn hspread ..).bind fun _ s₃ _ => Along.graph_bind ?_
    exact along_handOn hspread ..

theorem along_takeOver {lowers uppers : List VarId}
    (hfrozen : ∀ g, R g (Graph.inheritFrozen old new g))
    (hlowers : ∀ x ∈ lowers, ∀ g, R g (g.linkAcross x new))
    (huppers : ∀ y ∈ uppers, ∀ g, R g (g.linkAcross new y)) (s : Progress) :
    Along R (takeOver old new lowers uppers) s := by
  refine Along.graph_bind ((along_handOn hspread ..).bind fun _ s₁ _ => Along.graph_bind ?_)
  refine (along_handOn hspread ..).bind fun _ s₂ _ => ?_
  refine (Along.modify (hfrozen _)).bind fun _ s₃ _ => ?_
  refine (Along.composes.forM (fun x hx s => ?_) s₃).bind fun _ s₄ _ =>
    Along.composes.forM (fun y hy s => ?_) s₄
  · exact along_addEdge hspread (hlowers x hx _)
  · exact along_addEdge hspread (huppers y hy _)

/-- **A merge** is as good as its steps: the cut, the hand-over of bounds and of neighbours, and the
removal. -/
theorem along_mergeInto
    (hcut : ∀ g, R g (g.cutOff old new)) (hfrozen : ∀ g, R g (Graph.inheritFrozen old new g))
    (hlink : ∀ x y g, R g (Graph.linkAcross g x y)) (hremove : ∀ g, R g (g.unregister old))
    (s : Progress) : Along R (mergeInto old new) s := by
  rw [mergeInto_eq]
  refine Along.graph_bind ((Along.modify (hcut _)).bind fun _ s₁ _ => ?_)
  refine (along_takeOver hspread hfrozen (fun x _ => hlink x new) (fun y _ => hlink new y) s₁).bind
    fun _ s₂ _ => ?_
  split
  · exact Along.pure _
  · exact Along.modify (hremove _)

end

theorem along_mergeAll (hmerge : ∀ old new s, Along R (mergeInto old new) s) (rep : VarId)
    (merged : List VarId) : ∀ params s, Along R (mergeAll rep merged params) s := by
  induction merged with
  | nil => exact fun _ s => Along.pure _
  | cons x merged ih => exact fun _ s => (hmerge x rep s).bind fun _ s' _ => ih _ s'

theorem collapse_cons (c : List VarId) (cs : List (List VarId)) (params : List VarId) :
    collapse (c :: cs) params = match representative params (Natural.sort c) with
      | none => collapse cs params
      | some rep => mergeAll rep ((Natural.sort c).filter (· ≠ rep)) params >>= collapse cs := rfl

theorem along_collapse (hmerge : ∀ old new s, Along R (mergeInto old new) s)
    (cs : List (List VarId)) : ∀ params s, Along R (collapse cs params) s := by
  induction cs with
  | nil => exact fun _ s => Along.pure _
  | cons c cs ih =>
    intro params s
    rw [collapse_cons]
    split
    · exact ih params s
    · exact (along_mergeAll hmerge ..).bind fun _ s' _ => ih _ s'

theorem along_coalesceRounds (hmerge : ∀ old new s, Along R (mergeInto old new) s)
    (params : List VarId) (merges : Nat) : ∀ s, Along R (coalesceRounds params merges) s := by
  induction merges with
  | zero => exact fun s => Along.pure _
  | succ merges ih =>
    intro s
    refine Along.graph_bind ?_
    split
    · exact Along.pure _
    · exact (hmerge _ _ s).bind fun _ s' _ => ih s'

end

/-! ## A merge -/

namespace Graph

variable {g g' : Graph} {ids : List VarId} {names : Table Reference} {old new x y z : VarId}

/-- The variable has no neighbours. -/
structure Secluded (g : Graph) (z : VarId) : Prop where
  below : (g.boundsOf z).below = []
  above : (g.boundsOf z).above = []

theorem Secluded.of_sameEdges (h : g.Secluded z) (he : SameEdges g g') : g'.Secluded z :=
  ⟨(he.below z).trans h.below, (he.above z).trans h.above⟩

/-- Edges are recorded at both ends, so it is enough to look at one of them. -/
theorem WellFormed.secluded (h : g.WellFormed)
    (hz : ∀ x, x ∉ (g.boundsOf z).below ∧ z ∉ (g.boundsOf x).below) : g.Secluded z where
  below := List.eq_nil_iff_forall_not_mem.2 fun x => (hz x).1
  above := List.eq_nil_iff_forall_not_mem.2 fun x hx => (hz x).2 ((h.mirrored z x).2 hx)

theorem WellFormed.not_mem_of_secluded (h : g.WellFormed) (hz : g.Secluded z) (x : VarId) :
    x ∉ (g.boundsOf z).below ∧ z ∉ (g.boundsOf x).below := by
  refine ⟨fun hx => List.not_mem_nil (hz.below ▸ hx), fun hx => ?_⟩
  exact List.not_mem_nil (hz.above ▸ (h.mirrored z x).1 hx)

/-- An edge between others does not touch a variable without neighbours. -/
theorem Secluded.linkAcross (h : g.WellFormed) (hz : g.Secluded z) (hx : x ∈ g.ids) (hy : y ∈ g.ids)
    (hxz : x ≠ z) (hyz : y ≠ z) : (g.linkAcross x y).Secluded z := by
  obtain ⟨hwf, hedge⟩ := h.linkAcross hx hy
  have hnone := h.not_mem_of_secluded hz
  refine hwf.secluded fun w => ⟨fun hw => ?_, fun hw => ?_⟩
  · rcases (hedge w z).1 hw with hw | ⟨-, hzy | hzy, -⟩
    · exact (hnone w).1 hw
    · exact hyz hzy.symm
    · exact (hnone y).1 ((h.mirrored y z).2 hzy)
  · rcases (hedge z w).1 hw with hw | ⟨hzx | hzx, -, -⟩
    · exact (hnone w).2 hw
    · exact hxz hzx.symm
    · exact (hnone x).2 hzx

theorem WellFormed.secluded_isolate (h : g.WellFormed) (id : VarId) :
    (g.isolate id).Secluded id := by
  obtain ⟨hwf, hedge⟩ := h.isolate id
  refine hwf.secluded fun x => ⟨fun hx => ?_, fun hx => ?_⟩
  · exact ((hedge x id).1 hx).2.2 rfl
  · exact ((hedge id x).1 hx).2.1 rfl

/-- **The state during a merge.** Whatever else happens, the old variable keeps its record and has
no edges, and the names stay as they were redirected. -/
structure Merging (ids : List VarId) (names : Table Reference) (old : VarId) (g : Graph) :
    Prop where
  wellFormed : g.WellFormed
  ids_eq : g.ids = ids
  names_eq : g.names = names
  secluded : g.Secluded old

theorem Merging.of_sameEdges (h : Merging ids names old g) (he : SameEdges g g')
    (hn : g'.names = g.names) : Merging ids names old g' where
  wellFormed := h.wellFormed.of_sameEdges_of_names he hn
  ids_eq := he.ids.trans h.ids_eq
  names_eq := hn.trans h.names_eq
  secluded := h.secluded.of_sameEdges he

theorem Merging.linkAcross (h : Merging ids names old g) (hx : x ∈ ids) (hy : y ∈ ids)
    (hxo : x ≠ old) (hyo : y ≠ old) : Merging ids names old (g.linkAcross x y) := by
  have hx : x ∈ g.ids := h.ids_eq ▸ hx
  have hy : y ∈ g.ids := h.ids_eq ▸ hy
  exact ⟨(h.wellFormed.linkAcross hx hy).1, sameTypes_linkAcross.ids.trans h.ids_eq,
    sameTypes_linkAcross.names.trans h.names_eq, h.secluded.linkAcross h.wellFormed hx hy hxo hyo⟩

theorem sameEdges_inheritFrozen : SameEdges g (inheritFrozen old new g) := by
  unfold inheritFrozen
  split
  · exact sameEdges_update fun _ => ⟨rfl, rfl⟩
  · exact refl_of SameEdges g

theorem names_inheritFrozen : (inheritFrozen old new g).names = g.names := by
  unfold inheritFrozen
  split <;> rfl

/-- Nothing but edges and members is changed when the old variable is cut off. -/
theorem sameFrame_cutOff : SameFrame (g.redirect old new) (g.cutOff old new) := by
  have hsame : SameTypes (g.redirect old new) ((g.redirect old new).isolate old) :=
    sameTypes_isolate
  have hedges : SameEdges ((g.redirect old new).isolate old) (g.cutOff old new) :=
    sameEdges_renameConvertibles
  exact { hsame.toSameFrame with
    ids := hedges.ids.trans hsame.ids
    frozen := fun x => frozen_renameConvertibles.trans (hsame.frozen x) }

/-- A merge starts with the old variable cut off. -/
theorem WellFormed.cutOff (h : g.WellFormed) (hnew : new ∈ g.ids) :
    Merging g.ids (g.redirect old new).names old (g.cutOff old new) := by
  have hredirected : (g.redirect old new).WellFormed := h.redirect hnew
  have hsame : SameTypes (g.redirect old new) ((g.redirect old new).isolate old) :=
    sameTypes_isolate
  have hmerging : Merging g.ids (g.redirect old new).names old ((g.redirect old new).isolate old) :=
    ⟨(hredirected.isolate old).1, hsame.ids, hsame.names, hredirected.secluded_isolate old⟩
  exact hmerging.of_sameEdges sameEdges_renameConvertibles rfl

/-- **The end of a merge.** The old variable can go, unless a fixed reference denotes it. -/
theorem Merging.unregister (h : Merging g.ids (g.redirect old new).names old g')
    (hne : old ≠ new) (hpin : ¬g.isPinned old) : (g'.unregister old).WellFormed := by
  refine h.wellFormed.unregister h.secluded.below h.secluded.above fun name r hr hold => hpin ?_
  rw [h.names_eq, Graph.redirect, Table.get?_mapValues] at hr
  obtain ⟨r', hr', rfl⟩ := Option.map_eq_some_iff.1 hr
  split at hold
  · exact absurd hold.symm hne
  · rename_i hfixed
    refine List.any_eq_true.2 ⟨(name, r'), Table.mem_entries_of_get? hr', ?_⟩
    simp_all

/-- **What is left** in the end: all but the record of the old variable. -/
theorem Merging.finish {s s₁ s' : Progress}
    (h : Merging s.graph.ids (s.graph.redirect old new).names old s₁.graph) (hne : old ≠ new)
    (hrun : (if s.graph.isPinned old then pure () else modify fun g => g.unregister old :
      Infer Unit) s₁ = (.ok (), s')) :
    s'.graph.WellFormed ∧
      (s'.graph.ids = if s.graph.isPinned old then s.graph.ids else s.graph.ids.filter (· ≠ old)) ∧
      s'.graph.names = (s.graph.redirect old new).names ∧ s'.graph.Secluded old ∧
      (s'.graph = s₁.graph ∨ s'.graph = s₁.graph.unregister old) ∧
      ∀ x, x ≠ old → s'.graph.boundsOf x = s₁.graph.boundsOf x := by
  by_cases hpin : s.graph.isPinned old
  · rw [if_pos hpin] at hrun ⊢
    obtain ⟨-, rfl⟩ := pure_eq_ok.1 hrun
    exact ⟨h.wellFormed, h.ids_eq, h.names_eq, h.secluded, .inl rfl, fun _ _ => rfl⟩
  · rw [if_neg hpin] at hrun ⊢
    obtain rfl : { s₁ with graph := s₁.graph.unregister old } = s' := congrArg Prod.snd hrun
    have hnone : (s₁.graph.unregister old).boundsOf old = {} := by
      rw [boundsOf_unregister, if_pos rfl]
    refine ⟨h.unregister hne hpin, ?_, h.names_eq, ⟨?_, ?_⟩, .inr rfl, fun x hx => ?_⟩
    · rw [ids_unregister, h.ids_eq]
    · rw [hnone]
    · rw [hnone]
    · rw [boundsOf_unregister, if_neg hx]

/-- Well formed, with every one of the given variables registered. -/
structure Holding (ids : List VarId) (g : Graph) : Prop where
  wellFormed : g.WellFormed
  mem_ids : ∀ x ∈ ids, x ∈ g.ids

end Graph

open TypeBounds.Graph

/-- **Between its start and its end** a merge does not tie the old variable in again. -/
theorem takeOver_merging {old new : VarId} {s : Progress} (hwf : s.graph.WellFormed)
    (hne : old ≠ new) (hnew : new ∈ s.graph.ids) (s' : Progress) :
    Along (Keeps (Merging s.graph.ids (s.graph.redirect old new).names old))
      (takeOver old new (others old new (s.graph.below old)) (others old new (s.graph.above old)))
      s' := by
  refine along_takeOver ?_ (fun g hg => ?_) (fun x hx g hg => ?_) (fun y hy g hg => ?_) s'
  · intro side id t s hs
    have hshape : SameShape s.graph (spread side id t s).2.graph := sameShape_spread side id t s
    exact hs.of_sameEdges hshape.sameEdges hshape.names
  · exact hg.of_sameEdges sameEdges_inheritFrozen names_inheritFrozen
  · simp only [others, Graph.below, List.mem_filter, Natural.mem_sort, Bool.and_eq_true,
      decide_eq_true_eq] at hx
    exact hg.linkAcross (hwf.mem_ids_of_mem_below hx.1) hnew hx.2.1 hne.symm
  · simp only [others, Graph.above, List.mem_filter, Natural.mem_sort, Bool.and_eq_true,
      decide_eq_true_eq] at hy
    exact hg.linkAcross hnew (hwf.mem_ids_of_mem_above hy.1) hne.symm hy.2.1

/-- **A merge** keeps a graph well formed, whether it comes to its end or not, and removes no
variable but the old one. -/
theorem mergeInto_keeps {ids : List VarId} {old new : VarId} (hne : old ≠ new) (hnew : new ∈ ids)
    (hold : old ∉ ids) (s : Progress) : Along (Keeps (Holding ids)) (mergeInto old new) s := by
  rintro ⟨hwf, hids⟩
  have hnew : new ∈ s.graph.ids := hids new hnew
  rw [mergeInto_eq, graph_bind_apply, modify_bind_apply, bind_apply]
  set s₁ : Progress := { s with graph := s.graph.cutOff old new }
  have hm := takeOver_merging hwf hne hnew s₁
  set m := takeOver old new _ _
  have hstart : Merging s.graph.ids (s.graph.redirect old new).names old s₁.graph := hwf.cutOff hnew
  rcases hout : m s₁ with ⟨_ | _, s₂⟩
  · have hend := hm.of_eq hout hstart
    exact ⟨hend.wellFormed, hend.ids_eq ▸ hids⟩
  · have hend := hm.of_eq hout hstart
    dsimp only
    split
    · exact ⟨hend.wellFormed, hend.ids_eq ▸ hids⟩
    · rename_i hpin
      refine ⟨hend.unregister hne hpin, fun x hx => ?_⟩
      change x ∈ (s₂.graph.unregister old).ids
      rw [ids_unregister, List.mem_filter, hend.ids_eq]
      refine ⟨hids x hx, ?_⟩
      have : x ≠ old := fun h => hold (h ▸ hx)
      simpa using this

/-- **A merge that came to its end** has redirected the names, and left the old variable without
edges and, unless a fixed reference denotes it, without a record. -/
theorem mergeInto_finished {old new : VarId} {s s' : Progress} (hwf : s.graph.WellFormed)
    (hne : old ≠ new) (hnew : new ∈ s.graph.ids) (hrun : mergeInto old new s = (.ok (), s')) :
    s'.graph.WellFormed ∧
      (s'.graph.ids = if s.graph.isPinned old then s.graph.ids else s.graph.ids.filter (· ≠ old)) ∧
      s'.graph.names = (s.graph.redirect old new).names ∧ s'.graph.Secluded old := by
  rw [mergeInto_eq, graph_bind_apply, modify_bind_apply] at hrun
  obtain ⟨_, s₁, htake, hrun⟩ := bind_eq_ok.1 hrun
  have hmerging := (takeOver_merging hwf hne hnew _).of_eq htake (hwf.cutOff hnew)
  obtain ⟨hwf', hids, hnames, hsecluded, -⟩ := hmerging.finish hne hrun
  exact ⟨hwf', hids, hnames, hsecluded⟩

/-! ## Collapsing -/

section

variable {J : Graph → Prop}
  (hmerge : ∀ old new s, old ≠ new → new ∈ s.graph.ids → J s.graph →
    J (mergeInto old new s).2.graph)

include hmerge

/-- Merging into a representative, **if one merge keeps `J`**. -/
theorem mergeAll_keeps {ids merged : List VarId} {rep : VarId} (hrep : rep ∈ ids)
    (hmerged : ∀ x ∈ merged, x ∉ ids) (params : List VarId) (s : Progress) :
    Along (Keeps fun g => Holding ids g ∧ J g) (mergeAll rep merged params) s := by
  induction merged generalizing params s with
  | nil => exact Along.pure _
  | cons x merged ih =>
    have hx : x ∉ ids := hmerged x (List.mem_cons_self ..)
    have hne : x ≠ rep := fun h => hx (h ▸ hrep)
    refine Along.bind (fun ⟨hhold, hJ⟩ => ?_) fun _ s' _ => ?_
    · exact ⟨mergeInto_keeps hne hrep hx s hhold, hmerge x rep s hne (hhold.mem_ids rep hrep) hJ⟩
    · exact ih (fun y hy => hmerged y (List.mem_cons_of_mem _ hy)) _ s'

omit hmerge in
/-- The representative of a cycle is one of its variables. -/
theorem mem_of_representative {params c : List VarId} {rep : VarId}
    (h : representative params c = some rep) : rep ∈ c := by
  unfold representative at h
  rcases Option.or_eq_some_iff.1 h with h | ⟨-, h⟩
  · exact List.mem_of_find?_eq_some h
  · exact List.mem_of_mem_head? h

/-- **Collapsing** disjoint components. A component is merged into one of its members, so those of
the later ones are still registered when it is their turn. -/
theorem collapse_keeps {cs : List (List VarId)} (hcs : cs.Pairwise List.Disjoint)
    (params : List VarId) {s : Progress} (hs : Holding cs.flatten s.graph) (hJ : J s.graph) :
    J (collapse cs params s).2.graph := by
  induction cs generalizing params s with
  | nil => exact hJ
  | cons c cs ih =>
    obtain ⟨hc, hcs⟩ := List.pairwise_cons.1 hcs
    have hrest : Holding cs.flatten s.graph :=
      ⟨hs.wellFormed, fun x hx => hs.mem_ids x (List.mem_append_right _ hx)⟩
    rw [collapse_cons]
    rcases hrep : representative params (Natural.sort c) with _ | rep
    · exact ih hcs params hrest hJ
    · have hrep : rep ∈ c := Natural.mem_sort.1 (mem_of_representative hrep)
      set merged := (Natural.sort c).filter (· ≠ rep)
      have hmerged : ∀ x ∈ merged, x ∉ rep :: cs.flatten := by
        intro x hx
        have hx : x ∈ c ∧ x ≠ rep := by simpa [merged] using hx
        rw [List.mem_cons, not_or]
        refine ⟨hx.2, fun hmem => ?_⟩
        obtain ⟨d, hd, hxd⟩ := List.mem_flatten.1 hmem
        exact hc d hd hx.1 hxd
      have hstart : Holding (rep :: cs.flatten) s.graph := by
        refine ⟨hs.wellFormed, fun x hx => ?_⟩
        rcases List.mem_cons.1 hx with rfl | hx
        · exact hs.mem_ids x (List.mem_append_left _ hrep)
        · exact hrest.mem_ids x hx
      have hm := mergeAll_keeps hmerge (List.mem_cons_self ..) hmerged params s
      change J ((mergeAll rep merged params >>= collapse cs) s).2.graph
      rw [bind_apply]
      rcases hout : mergeAll rep merged params s with ⟨_ | params', s'⟩
      · exact (hm.of_eq hout ⟨hstart, hJ⟩).2
      · obtain ⟨hend, hJ'⟩ := hm.of_eq hout ⟨hstart, hJ⟩
        exact ih hcs params' ⟨hend.wellFormed,
          fun x hx => hend.mem_ids x (List.mem_cons_of_mem _ hx)⟩ hJ'

end

/-! ## Fixing -/

/-- The record with both sides filled in as far as fixing does it. -/
def Bounds.settled (policy : Policy) (b : Bounds) : Bounds :=
  let b' := if b.lower.isEmpty then b.setLower b.resolved else b
  if policy = .overload && b.upper.isEmpty then b'.setUpper b.resolved else b'

theorem Bounds.edges_settled (policy : Policy) (b : Bounds) :
    (b.settled policy).below = b.below ∧ (b.settled policy).above = b.above ∧
      (b.settled policy).frozen = b.frozen := by
  unfold Bounds.settled
  dsimp only
  split <;> split <;> exact ⟨rfl, rfl, rfl⟩

namespace Graph

/-- Fills in the sides of a variable that is about to be frozen. -/
def settle (id : VarId) (g : Graph) : Graph := g.update id (Bounds.settled g.policy)

/-- Filling bounds in touches no edges. -/
theorem sameShape_settle {g : Graph} {id : VarId} : SameShape g (settle id g) :=
  sameShape_update (Bounds.edges_settled g.policy)

/-- Freezes a variable and takes it out of the graph. -/
def detach (id : VarId) (g : Graph) : Graph :=
  ((g.isolate id).update id fun b => { b with frozen := true }).pin id

theorem WellFormed.detach {g : Graph} (h : g.WellFormed) (id : VarId) :
    (detach id g).WellFormed := by
  refine WellFormed.pin ((h.isolate id).1.of_sameEdges_of_names (sameEdges_update fun b => ?_) rfl)
    id
  exact ⟨rfl, rfl⟩

end Graph

/-- Hands the resolved type of a variable on to others, as it is at each moment. -/
def passOn (id : VarId) (res : Resolution) (ys : List VarId) : Infer Unit :=
  ys.forM fun y => do
    let g ← graph
    spread .lower y (res.type (g.boundsOf id)).copy

theorem freeze_eq (id : VarId) : freeze id = (do
    let g ← graph
    modify (settle id)
    passOn id (g.boundsOf id).resolution (Natural.sort (g.boundsOf id).above)
    modify (detach id)) := rfl

/-- The steps of fixing. -/
theorem freeze_cases {id : VarId} {s s' : Progress} (h : freeze id s = (.ok (), s')) :
    ∃ s₁, passOn id (s.graph.boundsOf id).resolution (Natural.sort (s.graph.boundsOf id).above)
        { s with graph := settle id s.graph } = (.ok (), s₁) ∧
        s' = { s₁ with graph := detach id s₁.graph } := by
  rw [freeze_eq, graph_bind_apply, modify_bind_apply] at h
  obtain ⟨_, s₁, hpass, h⟩ := bind_eq_ok.1 h
  exact ⟨s₁, hpass, (congrArg Prod.snd h).symm⟩

theorem along_freeze {R : Graph → Graph → Prop} [IsPreorder Graph R]
    (hspread : ∀ side id t s, Along R (spread side id t) s) {id : VarId}
    (hsettle : ∀ g, R g (settle id g)) (hdetach : ∀ g, R g (detach id g)) (s : Progress) :
    Along R (freeze id) s := by
  rw [freeze_eq]
  refine Along.graph_bind ((Along.modify (hsettle _)).bind fun _ s₁ _ => ?_)
  refine (Along.composes.forM (fun y _ s => Along.graph_bind ?_) s₁).bind fun _ s₂ _ => ?_
  · exact hspread _ _ _ _
  · exact Along.modify (hdetach _)

theorem along_freezeRounds {R : Graph → Graph → Prop} [IsPreorder Graph R]
    (hfreeze : ∀ id s, Along R (freeze id) s) (params : List VarId) (rounds : Nat) :
    ∀ done s, Along R (freezeRounds params rounds done) s := by
  induction rounds with
  | zero => exact fun _ s => Along.pure _
  | succ rounds ih =>
    intro done s
    refine Along.graph_bind ?_
    split
    · exact Along.pure _
    · exact (Along.composes.forM (fun id _ s => hfreeze id s) s).bind fun _ s' _ => ih _ s'

theorem spread_keeps (side : Side) (id : VarId) (t : Ty) (s : Progress) :
    Along (Keeps WellFormed) (spread side id t) s :=
  fun h => h.of_sameShape (sameShape_spread side id t s)

theorem freeze_keeps (id : VarId) (s : Progress) : Along (Keeps WellFormed) (freeze id) s := by
  exact along_freeze spread_keeps (fun g hg => hg.of_sameShape sameShape_settle)
    (fun g hg => hg.detach id) s

/-! ## Coalescing -/

section

variable {g : Graph} {params : List VarId} {id param : VarId} {s : Progress}

/-- A variable to merge is open and no parameter, and the parameter that it goes into is below
it. -/
theorem Graph.coalescesInto?_eq_some (h : g.coalescesInto? params id = some param) :
    id ∉ params ∧ g.isFrozen id = false ∧ param ∈ params ∧ param ∈ (g.boundsOf id).below := by
  unfold coalescesInto? at h
  split at h
  · cases h
  · rename_i hc
    obtain ⟨hnear, hparam⟩ := Option.filter_eq_some_iff.1 h
    have hbelow : param ∈ g.below id := List.mem_of_find?_eq_some hnear
    simp only [Graph.below, Natural.mem_sort] at hbelow
    simp_all

/-- The next variable to coalesce, and the parameter that it goes into. -/
def Graph.nextMerge? (g : Graph) (params : List VarId) : Option (VarId × VarId) :=
  g.typeVariables.findSome? fun id => (g.coalescesInto? params id).map (id, ·)

theorem Graph.coalescesInto?_of_nextMerge? (h : g.nextMerge? params = some (id, param)) :
    id ∈ g.ids ∧ g.coalescesInto? params id = some param := by
  obtain ⟨id', hid, hsome⟩ := List.exists_of_findSome?_eq_some h
  obtain ⟨param', hco, hpair⟩ := Option.map_eq_some_iff.1 hsome
  cases hpair
  exact ⟨Natural.mem_sort.1 hid, hco⟩

theorem coalesceRounds_of_none {fuel : Nat} (hnext : s.graph.nextMerge? params = none) :
    coalesceRounds params (fuel + 1) s = (.ok (), s) := by
  unfold nextMerge? at hnext
  rw [coalesceRounds, graph_bind_apply, hnext]
  rfl

theorem coalesceRounds_of_some {fuel : Nat} (hnext : s.graph.nextMerge? params = some (id, param)) :
    coalesceRounds params (fuel + 1) s =
      (mergeInto id param >>= fun _ => coalesceRounds params fuel) s := by
  unfold nextMerge? at hnext
  rw [coalesceRounds, graph_bind_apply, hnext]

end

theorem coalesceRounds_keeps {J : Graph → Prop} (hwf : ∀ g, J g → g.WellFormed)
    (hmerge : ∀ old new s, old ≠ new → new ∈ s.graph.ids → J s.graph →
      J (mergeInto old new s).2.graph)
    (params : List VarId) (merges : Nat) :
    ∀ s, Along (Keeps J) (coalesceRounds params merges) s := by
  induction merges with
  | zero => exact fun s => Along.pure _
  | succ merges ih =>
    intro s
    refine Along.graph_bind ?_
    split
    · exact Along.pure _
    · rename_i id param hfound
      obtain ⟨-, hco⟩ := coalescesInto?_of_nextMerge? hfound
      obtain ⟨hid, -, hparam, hbelow⟩ := coalescesInto?_eq_some hco
      have hne : id ≠ param := fun h => hid (h ▸ hparam)
      refine Along.bind (fun hJ => ?_) fun _ s' _ => ih s'
      exact hmerge id param s hne ((hwf _ hJ).mem_ids_of_mem_below hbelow) hJ

/-! ## Generalisation -/

/-- The cycles of a graph, as the search lists them. -/
def Graph.cycles (g : Graph) (search : Search) : List (List VarId) :=
  (stronglyConnected search.find g.typeVariables g.above).filter fun c => 2 ≤ c.length

variable {search : Search}

/-- Two searches list the same cycles, in whatever order. -/
theorem Graph.cycles_perm {g : Graph} (search search' : Search) :
    (g.cycles search).Perm (g.cycles search') :=
  (search.stronglyConnected_perm search' _ _).filter _

/-- Components have nothing in common, so no variable is merged twice. -/
theorem Graph.nodup_flatten_cycles {g : Graph} : (g.cycles search).flatten.Nodup := by
  obtain ⟨hnodup, hdisjoint⟩ :=
    List.nodup_flatten.1 (search.isCondensation g.typeVariables g.above).nodup_flatten
  exact List.nodup_flatten.2 ⟨fun c hc => hnodup c (List.mem_of_mem_filter hc), hdisjoint.filter _⟩

theorem Graph.pairwise_disjoint_cycles {g : Graph} : (g.cycles search).Pairwise List.Disjoint :=
  (List.nodup_flatten.1 nodup_flatten_cycles).2

theorem generalizeAll_eq (params : List VarId) : generalizeAll search.find params = (do
    modify pruneSelfEdges
    let g ← graph
    let params ← collapse (g.cycles search) params.eraseDups
    let g ← graph
    freezeRounds params g.ids.length []
    let g ← graph
    coalesceRounds params g.ids.length) := rfl

/-- The phases of generalisation. -/
theorem generalizeAll_cases {params : List VarId} {s s' : Progress}
    (h : generalizeAll search.find params s = (.ok (), s')) :
    ∃ params' s₁ s₂, collapse (s.graph.pruneSelfEdges.cycles search) params.eraseDups
        { s with graph := s.graph.pruneSelfEdges } = (.ok params', s₁) ∧
      freezeRounds params' s₁.graph.ids.length [] s₁ = (.ok (), s₂) ∧
      coalesceRounds params' s₂.graph.ids.length s₂ = (.ok (), s') := by
  rw [generalizeAll_eq, modify_bind_apply, graph_bind_apply] at h
  obtain ⟨params', s₁, hcollapse, h⟩ := bind_eq_ok.1 h
  rw [graph_bind_apply] at h
  obtain ⟨_, s₂, hrounds, hcoalesce⟩ := bind_eq_ok.1 h
  exact ⟨params', s₁, s₂, hcollapse, hrounds, hcoalesce⟩

theorem along_generalizeAll {R : Graph → Graph → Prop} [IsPreorder Graph R]
    (hprune : ∀ g, R g (pruneSelfEdges g)) (hmerge : ∀ old new s, Along R (mergeInto old new) s)
    (hfreeze : ∀ id s, Along R (freeze id) s) (params : List VarId) (s : Progress) :
    Along R (generalizeAll search.find params) s := by
  rw [generalizeAll_eq]
  refine (Along.modify (hprune _)).bind fun _ s₁ _ => Along.graph_bind ?_
  refine (along_collapse hmerge ..).bind fun params s₂ _ => Along.graph_bind ?_
  refine (along_freezeRounds hfreeze params _ _ s₂).bind fun _ s₃ _ => Along.graph_bind ?_
  exact along_coalesceRounds hmerge params _ s₃

theorem Graph.WellFormed.nodup_typeVariables {g : Graph} (h : g.WellFormed) :
    g.typeVariables.Nodup :=
  (sortBy_perm _ _).nodup_iff.2 h.ids_nodup

theorem Graph.WellFormed.holding_cycles {g : Graph} (h : g.WellFormed) (search : Search) :
    Holding (g.cycles search).flatten g := by
  refine ⟨h, fun x hx => ?_⟩
  obtain ⟨c, hc, hxc⟩ := List.mem_flatten.1 hx
  have hcs := search.isCondensation g.typeVariables g.above
  exact Natural.mem_sort.1 (hcs.mem_nodes (List.mem_of_mem_filter hc) hxc)

/-- **Generalisation** keeps what pruning, merging and fixing keep. -/
theorem generalizeAll_keeps {J : Graph → Prop} (hwf : ∀ g, J g → g.WellFormed)
    (hprune : ∀ g, J g → J g.pruneSelfEdges)
    (hmerge : ∀ old new s, old ≠ new → new ∈ s.graph.ids → J s.graph →
      J (mergeInto old new s).2.graph)
    (hfreeze : ∀ id s, Along (Keeps J) (freeze id) s) (params : List VarId) (s : Progress) :
    Along (Keeps J) (generalizeAll search.find params) s := by
  rw [generalizeAll_eq]
  refine (Along.modify (hprune _)).bind fun _ s₁ _ => Along.graph_bind ?_
  refine Along.bind (fun hJ => ?_) fun params s₂ _ => Along.graph_bind ?_
  · exact collapse_keeps hmerge pairwise_disjoint_cycles _ ((hwf _ hJ).holding_cycles search) hJ
  · refine (along_freezeRounds hfreeze params _ _ s₂).bind fun _ s₃ _ => Along.graph_bind ?_
    exact coalesceRounds_keeps hwf hmerge params _ s₃

theorem mergeInto_wellFormed {old new : VarId} {s : Progress} (hne : old ≠ new)
    (hnew : new ∈ s.graph.ids) (hwf : s.graph.WellFormed) :
    (mergeInto old new s).2.graph.WellFormed := by
  have hstart : Holding [new] s.graph := ⟨hwf, fun x hx => List.mem_singleton.1 hx ▸ hnew⟩
  exact (mergeInto_keeps hne (List.mem_singleton_self _) (by simpa using hne) s hstart).wellFormed

theorem generalizeAll_wellFormed (params : List VarId) (s : Progress) :
    Along (Keeps WellFormed) (generalizeAll search.find params) s :=
  generalizeAll_keeps (fun _ h => h) (fun _ h => h.pruneSelfEdges.1)
    (fun _ _ _ hne hnew h => mergeInto_wellFormed hne hnew h) freeze_keeps params s

end TypeBounds
