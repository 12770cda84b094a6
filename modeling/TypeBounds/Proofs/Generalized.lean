import TypeBounds.Proofs.Accepted
import TypeBounds.Proofs.Collapse
import TypeBounds.Proofs.Iteration

/-!
# The shape of a generalised graph

What generalisation leaves, whatever graph it starts from:

* a variable that was fixed has no neighbours;
* any other one is a parameter or has a parameter below it that was not fixed either;
* no two variables are below each other, and none is below itself.

Fixing takes variables out (`Graph.Detached`). The rounds go on until nothing can be fixed, since
each of them fixes a new variable (`freezeRounds_detached`); what is left then flows from a
parameter, and where edges are closed that parameter is right below it (`Graph.Generalized`).
Coalescing takes out variables that are no parameters, and adds no edges (`coalesceRounds_ok`).
-/

namespace TypeBounds

open Infer Relation

namespace Graph

variable {g g' g'' : Graph} {xs ys params done : List VarId} {id x y : VarId}

/-! ## Where names lead -/

/-- **Names are sent along `f`**: whatever denoted a variable denotes its image now. -/
def Sends (f : VarId → VarId) (g g' : Graph) : Prop :=
  ∀ name, (g'.names.get? name).map Reference.id = ((g.names.get? name).map Reference.id).map f

theorem Sends.refl (g : Graph) : Sends (fun x => x) g g := by
  intro name
  rw [Option.map_id_fun', id_eq]

theorem Sends.trans {f f' : VarId → VarId} (h : Sends f g g') (h' : Sends f' g' g'') :
    Sends (f' ∘ f) g g'' := by
  intro name
  rw [h' name, h name, Option.map_map]

/-- Where no fixed reference denotes the old variable, a merge redirects all references to it. -/
theorem sends_of_follow {old new : VarId} (hpin : g.isPinned old = false)
    (hnames : g'.names = g.names.mapValues fun _ => Reference.follow (successor old new)) :
    Sends (successor old new) g g' := by
  intro name
  rw [hnames, Table.get?_mapValues]
  cases hr : g.names.get? name with
  | none => rfl
  | some r =>
    refine congrArg some ?_
    cases hfixed : r.fixed with
    | false => simp [Reference.follow, hfixed]
    | true =>
      -- a fixed reference keeps denoting what it does, and that is not the old variable
      have hne : r.id ≠ old := by
        intro hold
        have hany : g.isPinned old = true :=
          List.any_eq_true.2 ⟨(name, r), Table.mem_entries_of_get? hr, by simp [hold, hfixed]⟩
        rw [hpin] at hany
        cases hany
      simp [Reference.follow, hfixed, successor, hne]

/-! ## What can be fixed -/

theorem isFrozen_eq : g.isFrozen x = ((g.boundsOf x).frozen || g.isPinned x) := rfl

theorem reachesParameter_iff (h : g.WellFormed) (hid : id ∈ g.ids) : g.reachesParameter params id ↔
    ∃ x ∈ params, x ≠ id ∧ Path g.ids (fun x => (g.boundsOf x).below) id x := by
  rw [reachesParameter, List.any_eq_true]
  refine exists_congr fun x => ?_
  rw [mem_reachable h.ids_nodup]
  simp only [List.mem_singleton, Bool.and_eq_true, decide_eq_true_eq, List.contains_iff_mem]
  constructor
  · rintro ⟨⟨a, rfl, -, hpath⟩, hne, hx⟩
    exact ⟨hx, hne, hpath⟩
  · rintro ⟨hx, hne, hpath⟩
    exact ⟨⟨id, rfl, hid, hpath⟩, hne, hx⟩

theorem mem_fixable : x ∈ g.fixable params done ↔ x ∈ g.ids ∧ x ∉ done ∧ g.isFixable params x := by
  simp [fixable, typeVariables]

theorem WellFormed.nodup_fixable (h : g.WellFormed) : (g.fixable params done).Nodup :=
  h.nodup_typeVariables.filter _

/-! ## Fixing -/

/-- **What fixing leaves**: the fixed variables have no edges any more, and their references are
fixed. -/
structure Detached (xs : List VarId) (g g' : Graph) : Prop where
  wellFormed : g'.WellFormed
  ids : g'.ids = g.ids
  names : g'.names = g.names.mapValues fun _ r => { r with fixed := r.fixed || xs.contains r.id }
  frozen : ∀ x ∈ g.ids, (g'.boundsOf x).frozen = ((g.boundsOf x).frozen || xs.contains x)
  edges : ∀ x y, x ∈ (g'.boundsOf y).below ↔ x ∈ (g.boundsOf y).below ∧ x ∉ xs ∧ y ∉ xs

theorem Detached.refl (h : g.WellFormed) : Detached [] g g where
  wellFormed := h
  ids := rfl
  names := by simp [Table.mapValues]
  frozen x _ := by simp
  edges x y := by simp

theorem Detached.trans (h : Detached xs g g') (h' : Detached ys g' g'') :
    Detached (xs ++ ys) g g'' where
  wellFormed := h'.wellFormed
  ids := h'.ids.trans h.ids
  names := by
    rw [h'.names, h.names, Table.mapValues_mapValues]
    simp only [List.contains_append, Bool.or_assoc]
  frozen x hx := by
    rw [h'.frozen x (h.ids ▸ hx), h.frozen x hx, List.contains_append, Bool.or_assoc]
  edges x y := by
    rw [h'.edges, h.edges]
    simp only [List.mem_append]
    grind

/-- Fixing leads no name astray. -/
theorem Detached.sends (h : Detached xs g g') : Sends (fun x => x) g g' := by
  intro name
  rw [h.names, Table.get?_mapValues, Option.map_map, Option.map_id_fun']
  rfl

theorem Detached.isFrozen (h : Detached xs g g') (hx : x ∈ g.ids) :
    g'.isFrozen x = (g.isFrozen x || xs.contains x) := by
  have hpins : (g'.names.entries.any fun e => e.2.id = x && e.2.fixed) = true ↔
      g.isPinned x ∨ xs.contains x ∧ ∃ e ∈ g.names.entries, e.2.id = x := by
    rw [h.names, Table.mapValues, List.any_map, List.any_eq_true, isPinned, List.any_eq_true]
    simp only [Function.comp_apply, Bool.and_eq_true, decide_eq_true_eq, Bool.or_eq_true]
    constructor
    · rintro ⟨e, he, rfl, hfixed | hmem⟩
      · exact .inl ⟨e, he, rfl, hfixed⟩
      · exact .inr ⟨hmem, e, he, rfl⟩
    · rintro (⟨e, he, rfl, hfixed⟩ | ⟨hmem, e, he, rfl⟩)
      · exact ⟨e, he, rfl, .inl hfixed⟩
      · exact ⟨e, he, rfl, .inr hmem⟩
  unfold Graph.isFrozen
  rw [Bool.eq_iff_iff, Bool.or_eq_true, hpins, h.frozen x hx]
  simp only [Bool.or_eq_true, isPinned]
  grind

theorem Detached.closed (h : Detached xs g g') (hclosed : g.Closed) : g'.Closed :=
  hclosed.of_edges (D := (· ∈ xs)) h.edges

theorem Detached.secluded (h : Detached xs g g') (hx : x ∈ xs) : g'.Secluded x :=
  h.wellFormed.secluded fun y =>
    ⟨fun hy => ((h.edges y x).1 hy).2.2 hx, fun hy => ((h.edges x y).1 hy).2.1 hx⟩

/-- Taking one variable out of the graph. -/
theorem WellFormed.detached (h : g.WellFormed) (id : VarId) :
    Detached [id] g (Graph.detach id g) := by
  have hsame : SameTypes g (g.isolate id) := sameTypes_isolate
  refine ⟨h.detach id, (ids_update _).trans hsame.ids, ?_, fun x hx => ?_, fun x y => ?_⟩
  · have hnames : (Graph.detach id g).names = (g.isolate id).names.mapValues fun _ r =>
        if r.id = id then { r with fixed := true } else r := rfl
    rw [hnames, hsame.names]
    congr 1
    funext _ r
    by_cases hr : r.id = id <;> simp [hr]
  · change (((g.isolate id).update id fun b => { b with frozen := true }).boundsOf x).frozen = _
    rw [boundsOf_update]
    by_cases hxid : x = id
    · subst hxid
      rw [if_pos ⟨rfl, hsame.ids ▸ hx⟩]
      simp
    · rw [if_neg fun h => hxid h.1, hsame.frozen]
      simp [hxid]
  · have hbelow : ((Graph.detach id g).boundsOf y).below = ((g.isolate id).boundsOf y).below :=
      field_update Bounds.below fun _ => rfl
    rw [hbelow, (h.isolate id).2, List.mem_singleton, List.mem_singleton]

end Graph

section

open TypeBounds.Graph

variable {id : VarId} {xs done params : List VarId} {s s' : Progress}

theorem freeze_detached (h : s.graph.WellFormed) (hrun : freeze id s = (.ok (), s')) :
    Detached [id] s.graph s'.graph := by
  obtain ⟨s₁, hpass, rfl⟩ := freeze_cases hrun
  have hpassed : Along SameShape (passOn id (s.graph.boundsOf id).resolution
      (Natural.sort (s.graph.boundsOf id).above)) { s with graph := settle id s.graph } :=
    Along.composes.forM (fun y _ s => Along.graph_bind (sameShape_spread ..)) _
  have hshape : SameShape s.graph s₁.graph :=
    trans_of SameShape sameShape_settle (hpassed.of_eq hpass)
  have hdetached := (h.of_sameShape hshape).detached id
  refine ⟨hdetached.wellFormed, hdetached.ids.trans hshape.ids, ?_, fun x hx => ?_, fun x y => ?_⟩
  · rw [← hshape.names]
    exact hdetached.names
  · rw [← hshape.frozen]
    exact hdetached.frozen x (hshape.ids ▸ hx)
  · rw [← hshape.below]
    exact hdetached.edges x y

theorem forM_freeze_detached (h : s.graph.WellFormed) (hrun : xs.forM freeze s = (.ok (), s')) :
    Detached xs s.graph s'.graph := by
  induction xs generalizing s with
  | nil =>
    obtain ⟨-, rfl⟩ := pure_eq_ok.1 hrun
    exact .refl h
  | cons x xs ih =>
    replace hrun : (freeze x >>= fun _ => xs.forM freeze) s = (.ok (), s') := hrun
    obtain ⟨_, s₁, hfirst, hrun⟩ := bind_eq_ok.1 hrun
    have hx := freeze_detached h hfirst
    exact hx.trans (ih hx.wellFormed hrun)

/-- What a round of fixing works on, and what is done after it. -/
def Graph.nextRound? (params done : List VarId) (g : Graph) : Option (List VarId × List VarId) :=
  if (g.fixable params done).isEmpty then none else some
    (g.fixable params done, done ++ g.fixable params done)

theorem Graph.nextRound?_eq_none {g : Graph} :
    g.nextRound? params done = none ↔ g.fixable params done = [] := by
  simp [nextRound?]

theorem Graph.nextRound?_eq_some {g : Graph} {done' : List VarId} :
    g.nextRound? params done = some (xs, done') ↔
    xs = g.fixable params done ∧ done' = done ++ xs ∧ xs ≠ [] := by
  unfold nextRound?
  split
  · rename_i hempty
    simp_all
  · rename_i hne
    simp only [Option.some.injEq, Prod.mk.injEq]
    constructor
    · rintro ⟨rfl, rfl⟩
      exact ⟨rfl, rfl, by simpa using hne⟩
    · rintro ⟨rfl, rfl, -⟩
      exact ⟨rfl, rfl⟩

theorem limits_freezeRounds (params : List VarId) :
    Limits (freezeRounds params) (nextRound? params) fun xs => xs.forM freeze where
  zero _ _ := rfl
  none n {done s} hnext := by
    rw [freezeRounds, graph_bind_apply, nextRound?_eq_none.1 hnext]
    rfl
  some n {done s xs done'} hnext := by
    obtain ⟨hxs, rfl, hne⟩ := nextRound?_eq_some.1 hnext
    rw [freezeRounds, graph_bind_apply, ← hxs]
    cases xs with
    | nil => exact absurd rfl hne
    | cons x xs => rfl

/-- **Fixing is under way**: some variables of `g` were taken out, each of them once. -/
structure Graph.Underway (g : Graph) (done : List VarId) (g' : Graph) :
    Prop extends Detached done g g' where
  nodup : done.Nodup
  registered : done ⊆ g.ids

theorem Graph.WellFormed.underway {g : Graph} (h : g.WellFormed) : Underway g [] g :=
  ⟨.refl h, List.nodup_nil, List.nil_subset _⟩

/-- **Each round** fixes variables that were not fixed before. -/
theorem variant_fixing (params : List VarId) (g : Graph) :
    Variant (nextRound? params) (fun xs => xs.forM freeze)
    (Underway g) fun done _ => g.ids.length - done.length := by
  have hmore {g' : Graph} {done xs done' : List VarId} (h : Underway g done g')
      (hnext : g'.nextRound? params done = some (xs, done')) :
      done'.Nodup ∧ done' ⊆ g.ids ∧ g.ids.length - done'.length < g.ids.length - done.length := by
    obtain ⟨rfl, rfl, hne⟩ := nextRound?_eq_some.1 hnext
    have hnodup : (done ++ g'.fixable params done).Nodup := List.nodup_append.2
      ⟨h.nodup, h.wellFormed.nodup_fixable, fun _ hx _ hy hxy => (mem_fixable.1 hy).2.1 (hxy ▸ hx)⟩
    have hregistered : done ++ g'.fixable params done ⊆ g.ids :=
      List.append_subset.2 ⟨h.registered, fun _ hx => h.ids ▸ (mem_fixable.1 hx).1⟩
    refine ⟨hnodup, hregistered, ?_⟩
    have hle := (hnodup.subperm hregistered).length_le
    have hnew := List.length_pos_of_ne_nil hne
    rw [List.length_append] at hle ⊢
    omega
  refine ⟨fun h hnext => Nat.zero_lt_of_lt (hmore h hnext).2.2, fun h hnext hround => ?_⟩
  obtain ⟨hnodup, hregistered, hless⟩ := hmore h hnext
  obtain ⟨-, rfl, -⟩ := nextRound?_eq_some.1 hnext
  exact ⟨⟨h.trans (forM_freeze_detached h.wellFormed hround), hnodup, hregistered⟩, hless⟩

/-- **The rounds go on to the end**: whatever was not fixed cannot be. -/
theorem freezeRounds_detached (h : s.graph.WellFormed)
    (hrun : freezeRounds params s.graph.ids.length [] s = (.ok (), s')) :
    ∃ xs, Detached xs s.graph s'.graph ∧ ∀ x ∈ s.graph.ids, x ∉ xs →
      s'.graph.isFixable params x = false := by
  obtain ⟨rounds, r, hfixing⟩ := (variant_fixing params s.graph).iterates h.underway
  have hlimit := hfixing.length_le (variant_fixing params s.graph) h.underway
  obtain rfl := ((limits_freezeRounds params).eq hfixing hlimit).symm.trans hrun
  obtain ⟨xs, hxs, hnone⟩ := hfixing.end_of_ok (variant_fixing params s.graph) h.underway
  refine ⟨xs, hxs.toDetached, fun x hx hmem => ?_⟩
  have hnot : x ∉ s'.graph.fixable params xs := nextRound?_eq_none.1 hnone ▸ List.not_mem_nil
  simpa [mem_fixable, hxs.ids, hx, hmem] using hnot

end

/-! ## The shape -/

namespace Graph

variable {g g' : Graph} {xs params : List VarId} {id param x y : VarId}

/-- No two variables are below each other, and none is below itself. -/
def Acyclic (g : Graph) : Prop := ∀ x y, x ∈ (g.boundsOf y).below → y ∉ (g.boundsOf x).below

/-- **The shape of a generalised graph.** -/
structure Generalized (params : List VarId) (g : Graph) : Prop where
  wellFormed : g.WellFormed
  closed : g.Closed
  acyclic : g.Acyclic
  fixed : ∀ x ∈ g.ids, g.isFrozen x → g.Secluded x
  flows : ∀ x ∈ g.ids, g.isFrozen x = false →
    x ∈ params ∨ ∃ p ∈ params, p ∈ (g.boundsOf x).below ∧ g.isFrozen p = false

/-- A parameter that flows into a variable is right below it. -/
theorem Closed.mem_below_of_reachesParameter (h : g.Closed) (hwf : g.WellFormed) (hx : x ∈ g.ids)
    (hreach : g.reachesParameter params x) : ∃ p ∈ params, p ∈ (g.boundsOf x).below := by
  obtain ⟨p, hp, hne, hpath⟩ := (reachesParameter_iff hwf hx).1 hreach
  have hflow : ReflTransGen (fun a b => a ∈ (g.boundsOf b).below) p x := by
    refine ReflTransGen.mono ?_ p x hpath.swap
    exact fun a b hop => hop.1
  exact ⟨p, hp, (h.mem_below_of_flow hflow).resolve_left hne⟩

/-- **Once nothing can be fixed** any more, the graph has its shape. -/
theorem Detached.generalized (h : Detached xs g g') (hclosed : g.Closed) (hacyclic : g.Acyclic)
    (hend : ∀ x ∈ g.ids, x ∉ xs → g'.isFixable params x = false) : Generalized params g' := by
  have hopen {x : VarId} (hx : x ∈ g'.ids) (hmem : x ∉ xs) : g'.isFrozen x = false := by
    have hnot := hend x (h.ids ▸ hx) hmem
    unfold isFixable at hnot
    exact (Bool.or_eq_false_iff.1 hnot).1
  have hclosed' := h.closed hclosed
  refine ⟨h.wellFormed, hclosed', fun x y hxy hyx => ?_, fun x hx hfrozen => ?_,
    fun x hx hfrozen => ?_⟩
  · exact hacyclic x y ((h.edges x y).1 hxy).1 ((h.edges y x).1 hyx).1
  · by_cases hmem : x ∈ xs
    · exact h.secluded hmem
    · rw [hopen hx hmem] at hfrozen
      cases hfrozen
  · have hmem : x ∉ xs := by
      intro hmem
      rw [h.isFrozen (h.ids ▸ hx), List.contains_iff_mem.2 hmem, Bool.or_true] at hfrozen
      cases hfrozen
    have hnot := hend x (h.ids ▸ hx) hmem
    by_cases hreach : g'.reachesParameter params x
    · obtain ⟨p, hp, hbelow⟩ := hclosed'.mem_below_of_reachesParameter h.wellFormed hx hreach
      refine .inr ⟨p, hp, hbelow, hopen (h.wellFormed.mem_ids_of_mem_below hbelow) ?_⟩
      exact ((h.edges p x).1 hbelow).2.1
    · unfold isFixable at hnot
      simp [hfrozen, hreach] at hnot
      exact .inl hnot.1

/-- The variable that a variable is merged into is right below it, with everything else that is. -/
theorem coalescesInto?_nearest (h : g.coalescesInto? params id = some param) :
    ∀ x ∈ (g.boundsOf id).below, x = param ∨ x ∈ (g.boundsOf param).below := by
  unfold coalescesInto? at h
  split at h
  · cases h
  · have hnear := List.find?_some (Option.filter_eq_some_iff.1 h).1
    intro x hx
    have hx := List.all_eq_true.1 hnear x (Natural.mem_sort.2 hx)
    simpa using hx

end Graph

section

open TypeBounds.Graph

variable {id param : VarId} {params : List VarId} {s s' : Progress}

/-- **One coalescing merge** keeps the shape, and sends names to the parameter. -/
theorem mergeInto_coalesced (h : s.graph.Generalized params)
    (hco : s.graph.coalescesInto? params id = some param)
    (hrun : mergeInto id param s = (.ok (), s')) :
    s'.graph.Generalized params ∧ (∀ x ∈ s'.graph.ids, x ∈ s.graph.ids ∧ x ≠ id) ∧
      s.graph.Sends (successor id param) s'.graph := by
  obtain ⟨hidp, hopen, hparam, hbelow⟩ := coalescesInto?_eq_some hco
  have hnear := coalescesInto?_nearest hco
  have hne : id ≠ param := fun heq => hidp (heq ▸ hparam)
  obtain ⟨hcol, hfrozen⟩ := mergeInto_absorbed h.wellFormed hne
    (h.wellFormed.mem_ids_of_mem_below hbelow)
    (fun x hx _ hxparam => (hnear x hx).resolve_left hxparam)
    (fun y hy _ hyparam => h.closed param id y hbelow hy hyparam.symm) hrun
  rw [isFrozen_eq, Bool.or_eq_false_iff] at hopen
  have hids (x : VarId) : x ∈ s'.graph.ids ↔ x ∈ s.graph.ids ∧ x ≠ id := by
    have hpin := hopen.2
    rw [hcol.mem_ids, successor_eq_self hne]
    grind
  have hedges (x y : VarId) : x ∈ (s'.graph.boundsOf y).below ↔
      x ∈ (s.graph.boundsOf y).below ∧ x ≠ id ∧ y ≠ id := by
    rw [hcol.edges, successor_eq_self hne, successor_eq_self hne]
  have hsame {x : VarId} (hx : x ≠ id) : s'.graph.isFrozen x = s.graph.isFrozen x := by
    rw [isFrozen_eq, isFrozen_eq, hfrozen hopen.1 x hx, isPinned_follow hcol.names]
  refine ⟨⟨hcol.wellFormed, hcol.closed h.closed, fun x y hxy hyx => ?_, fun x hx hx' => ?_,
    fun x hx hx' => ?_⟩, fun x hx => (hids x).1 hx, sends_of_follow hopen.2 hcol.names⟩
  · exact h.acyclic x y ((hedges x y).1 hxy).1 ((hedges y x).1 hyx).1
  · obtain ⟨hx, hxid⟩ := (hids x).1 hx
    have hnone := h.wellFormed.not_mem_of_secluded (h.fixed x hx (hsame hxid ▸ hx'))
    exact hcol.wellFormed.secluded fun y =>
      ⟨fun hy => (hnone y).1 ((hedges y x).1 hy).1, fun hy => (hnone y).2 ((hedges x y).1 hy).1⟩
  · obtain ⟨hx, hxid⟩ := (hids x).1 hx
    refine (h.flows x hx (hsame hxid ▸ hx')).imp_right ?_
    rintro ⟨p, hp, hpx, hpopen⟩
    have hpid : p ≠ id := fun heq => hidp (heq ▸ hp)
    exact ⟨p, hp, (hedges p x).2 ⟨hpx, hpid, hxid⟩, (hsame hpid).trans hpopen⟩

/-- **Coalescing** keeps the shape, and the references to parameters. Names that denote one variable
keep denoting one. -/
theorem coalesceRounds_ok {merges : Nat} (h : s.graph.Generalized params)
    (hrun : coalesceRounds params merges s = (.ok (), s')) :
    s'.graph.Generalized params ∧ (∀ x ∈ s'.graph.ids, x ∈ s.graph.ids) ∧
      ∃ f : VarId → VarId, (∀ p ∈ params, f p = p) ∧ s.graph.Sends f s'.graph := by
  induction merges generalizing s with
  | zero =>
    obtain ⟨-, rfl⟩ := pure_eq_ok.1 hrun
    exact ⟨h, fun _ hx => hx, fun x => x, fun _ _ => rfl, .refl _⟩
  | succ merges ih =>
    rcases hnext : s.graph.nextMerge? params with _ | ⟨id, param⟩
    · rw [coalesceRounds_of_none hnext] at hrun
      cases hrun
      exact ⟨h, fun _ hx => hx, fun x => x, fun _ _ => rfl, .refl _⟩
    · rw [coalesceRounds_of_some hnext] at hrun
      obtain ⟨_, s₁, hmerge, hrun⟩ := bind_eq_ok.1 hrun
      obtain ⟨-, hco⟩ := coalescesInto?_of_nextMerge? hnext
      obtain ⟨h₁, hids₁, hsends₁⟩ := mergeInto_coalesced h hco hmerge
      obtain ⟨h₂, hids₂, f, hf, hsends₂⟩ := ih h₁ hrun
      refine ⟨h₂, fun x hx => (hids₁ x (hids₂ x hx)).1, f ∘ successor id param, fun p hp => ?_,
        hsends₁.trans hsends₂⟩
      obtain ⟨hid, -, -, -⟩ := coalescesInto?_eq_some hco
      have hpid : p ≠ id := fun heq => hid (heq ▸ hp)
      rw [Function.comp_apply, successor, if_neg hpid]
      exact hf p hp

end

/-! ## Generalisation -/

/-- **The heir of a variable**: what it is merged into if it is on a cycle. -/
def Graph.heir (g : Graph) (params : List VarId) (x : VarId) : VarId :=
  heirIn (g.pruneSelfEdges.cycles .standard) params x

section

open TypeBounds.Graph

variable {search : Search} {params params' : List VarId} {s s' : Progress} {J : Graph → Prop}

/-- **The first two phases** leave no cycles. -/
theorem collapse_cycles_ok (hJ : MergesKeep J) (hwf : s.graph.WellFormed) (hclosed : s.graph.Closed)
    (hrun : collapse (s.graph.pruneSelfEdges.cycles search) params.eraseDups
      { s with graph := s.graph.pruneSelfEdges } = (.ok params', s')) :
    Collapsed (s.graph.heir params) s.graph.pruneSelfEdges s'.graph ∧ s'.graph.Closed ∧
      s'.graph.Acyclic ∧
      (∀ p, p ∈ params' ↔ p ∈ params.map (s.graph.heir params)) ∧
      (J s.graph.pruneSelfEdges → J s'.graph) := by
  obtain ⟨hwf₀, hprune⟩ := hwf.pruneSelfEdges
  have hclosed₀ := hclosed.pruneSelfEdges hwf
  obtain ⟨hdisjoint, hnodup, hcycles⟩ := hwf₀.cycles_ok search hclosed₀
  obtain ⟨hcol, hparams, hkept⟩ := collapse_ok (s := { s with graph := s.graph.pruneSelfEdges }) hJ
    hwf₀ hclosed₀ hdisjoint hnodup hcycles hrun
  have hheir : heirIn (s.graph.pruneSelfEdges.cycles search) params.eraseDups =
      s.graph.heir params := by
    rw [heirIn_perm hdisjoint (cycles_perm search .standard)]
    exact funext fun x => heirIn_congr fun _ _ _ _ => List.mem_eraseDups
  rw [hheir] at hcol hparams
  refine ⟨hcol, hcol.closed hclosed₀, fun x y hxy hyx => ?_, fun p => ?_, hkept⟩
  · obtain ⟨hxy, hx, hy⟩ := (hcol.edges x y).1 hxy
    have hyx := ((hcol.edges y x).1 hyx).1
    have hne : x ≠ y := ((hprune x y).1 hxy).2
    -- on a common cycle both would have the same heir
    exact hne (hx.symm.trans ((hwf₀.heirIn_cycles_eq .standard hne hxy hyx params).trans hy))
  · rw [hparams, List.mem_map]
    simp only [List.mem_eraseDups]

/-- **All phases**, from a graph with closed edges. A mutable reference goes to the heir of what it
denoted, and maybe on from there, together with all others that are there. -/
theorem generalizeAll_sends (hwf : s.graph.WellFormed) (hclosed : s.graph.Closed)
    (hrun : generalizeAll search.find params s = (.ok (), s')) :
    s'.graph.Generalized (params.map (s.graph.heir params)) ∧
      (∀ x ∈ s'.graph.ids, s.graph.heir params x = x ∨ s.graph.isPinned x) ∧
      ∃ f : VarId → VarId, (∀ p ∈ params.map (s.graph.heir params), f p = p) ∧
        ∀ name r, s.graph.names.get? name = some r → r.fixed = false →
          (s'.graph.names.get? name).map Reference.id = some (f (s.graph.heir params r.id)) := by
  obtain ⟨params', s₁, s₂, hcollapse, hrounds, hcoalesce⟩ := generalizeAll_cases hrun
  obtain ⟨hcol, hclosed₁, hacyclic, hmem, -⟩ :=
    collapse_cycles_ok (J := fun _ => True) (fun _ _ _ _ _ _ h _ => h) hwf hclosed hcollapse
  obtain ⟨xs, hdetached, hend⟩ := freezeRounds_detached hcol.wellFormed hrounds
  have hgen := hdetached.generalized hclosed₁ hacyclic hend
  obtain ⟨hgen', hids, f, hf, hsends⟩ := coalesceRounds_ok hgen hcoalesce
  refine ⟨⟨hgen'.wellFormed, hgen'.closed, hgen'.acyclic, hgen'.fixed, fun x hx hopen => ?_⟩,
    fun x hx => ?_, f, fun p hp => hf p ((hmem p).2 hp), fun name r hr hfixed => ?_⟩
  · have hflows := hgen'.flows x hx hopen
    simpa only [hmem] using hflows
  · exact ((hcol.mem_ids x).1 (hdetached.ids ▸ hids x hx)).2
  · rw [(hdetached.sends.trans hsends) name, hcol.names, Table.get?_mapValues]
    change Option.map _ (Option.map _ (Option.map _ (s.graph.names.get? name))) = _
    rw [hr]
    simp [Reference.follow, hfixed]

theorem generalizeAll_ok (hwf : s.graph.WellFormed) (hclosed : s.graph.Closed)
    (hrun : generalizeAll search.find params s = (.ok (), s')) :
    s'.graph.Generalized (params.map (s.graph.heir params)) ∧
      (∀ x ∈ s'.graph.ids, s.graph.heir params x = x ∨ s.graph.isPinned x) ∧
      ∀ name r, s.graph.names.get? name = some r → r.fixed = false → r.id ∈ params →
        (s'.graph.names.get? name).map Reference.id = some (s.graph.heir params r.id) := by
  obtain ⟨hgen, hids, f, hf, hnames⟩ := generalizeAll_sends hwf hclosed hrun
  refine ⟨hgen, hids, fun name r hr hfixed hrp => ?_⟩
  rw [hnames name r hr hfixed, hf _ (List.mem_map_of_mem hrp)]

end

namespace Graph

variable {g : Graph} {params : List VarId} {x : VarId}

theorem status_eq_fixed : g.status x = .fixed ↔ g.isFrozen x := by
  unfold status
  dsimp only
  split
  · simp [*]
  · rename_i hopen
    split <;> simp [hopen]

/-- An heir is on the cycle. -/
theorem WellFormed.heir_ok (h : g.WellFormed) (hclosed : g.Closed)
    (params : List VarId) (x : VarId) : g.heir params x = x ∨
      x ∈ (g.boundsOf (g.heir params x)).below ∧ g.heir params x ∈ (g.boundsOf x).below := by
  obtain ⟨hwf₀, hprune⟩ := h.pruneSelfEdges
  obtain ⟨hdisjoint, -, hcycles⟩ := hwf₀.cycles_ok .standard (hclosed.pruneSelfEdges h)
  by_cases hx : ∃ c ∈ g.pruneSelfEdges.cycles .standard, x ∈ c
  · obtain ⟨c, hc, hx⟩ := hx
    rcases hrep : representative params (Natural.sort c) with _ | rep
    · rw [← Natural.mem_sort, eq_nil_of_representative hrep] at hx
      cases hx
    · rw [heir, heirIn_of_mem hdisjoint hc hrep hx]
      have hrep : rep ∈ c := Natural.mem_sort.1 (mem_of_representative hrep)
      by_cases hne : rep = x
      · exact .inl hne
      · exact .inr ⟨((hprune x rep).1 (hcycles c hc x hx rep hrep (Ne.symm hne))).1,
          ((hprune rep x).1 (hcycles c hc rep hrep x hx hne)).1⟩
  · exact .inl (heirIn_of_not_mem fun c hc hmem => hx ⟨c, hc, hmem⟩)

end Graph

/-- **The shape of a generalised graph**, whatever calls it has seen before, failed ones included,
and whatever parameters it is generalised for, in whatever order its cycles are found. Let the
parameters stand for their heirs: a variable that was merged away on a cycle for the one it was
merged into, to which its mutable references go; its record is kept for a fixed reference only. Then
every variable is fixed and has no neighbours, or is a parameter, or has a parameter below it; and
no two variables are below each other. -/
theorem shape_of_generalize (tag : Nat) (lattice : Lattice) (policy : Policy) (calls : List Call)
    (search : Search) (params : List VarId)
    (hok : ((Graph.after { tag, lattice, policy } calls).generalize search.find params).fault =
      none) :
    let g := Graph.after { tag, lattice, policy } calls
    let g' := (g.generalize search.find params).graph
    let heir := g.heir params
    (∀ x, g'.hasTypeVariable x →
      g'.status x = .fixed ∧ (g'.boundsOf x).below = [] ∧ (g'.boundsOf x).above = [] ∨
      g'.status x ≠ .fixed ∧ x ∈ params.map heir ∨
      g'.status x ≠ .fixed ∧ ∃ p ∈ params.map heir, p ∈ (g'.boundsOf x).below ∧
      g'.status p ≠ .fixed) ∧
    (∀ x y, x ∈ (g'.boundsOf y).below → y ∉ (g'.boundsOf x).below) ∧
    (∀ x, heir x = x ∨ (x ∈ (g.boundsOf (heir x)).below ∧ heir x ∈ (g.boundsOf x).below) ∧
      (g'.hasTypeVariable x → g.isPinned x)) ∧
    ∀ name r, g.names.get? name = some r → r.fixed = false → r.id ∈ params →
      (g'.names.get? name).map Reference.id = some (heir r.id) := by
  intro g g' heir
  have hwf : g.WellFormed := (Graph.WellFormed.empty tag lattice policy).after calls
  have hclosed : g.Closed :=
    (Graph.Closed.empty tag lattice policy).after (.empty tag lattice policy) calls
  obtain ⟨s, hrun, hgraph⟩ := Graph.generalize_accepted hok
  replace hgraph : g' = s.graph := hgraph
  obtain ⟨hgen, hkept, hnames⟩ := generalizeAll_ok (s := { graph := g }) hwf hclosed hrun
  rw [← hgraph] at hgen hkept hnames
  refine ⟨fun x hx => ?_, hgen.acyclic, fun x => ?_, hnames⟩
  · have hx : x ∈ g'.ids := Graph.mem_ids.2 hx
    simp only [ne_eq, Graph.status_eq_fixed]
    by_cases hfrozen : g'.isFrozen x
    · have hsecluded := hgen.fixed x hx hfrozen
      exact .inl ⟨hfrozen, hsecluded.below, hsecluded.above⟩
    · rw [Bool.not_eq_true] at hfrozen
      rcases hgen.flows x hx hfrozen with hparam | ⟨p, hp, hbelow, hopen⟩
      · exact .inr (.inl ⟨by simp [hfrozen], hparam⟩)
      · exact .inr (.inr ⟨by simp [hfrozen], p, hp, hbelow, by simp [hopen]⟩)
  · by_cases hself : heir x = x
    · exact .inl hself
    · refine .inr ⟨(hwf.heir_ok hclosed params x).resolve_left hself, fun hx => ?_⟩
      exact (hkept x (Graph.mem_ids.2 hx)).resolve_left hself

/-- A cycle of two variables, a third one above them with a bound of its own, and one by itself. -/
def loop : List Call :=
  [.addVariable "$w" (some { id := "T1" }), .addVariable "$x" (some { id := "T2" }),
    .addVariable "$y" (some { id := "T3" }), .addVariable "$z" (some { id := "T4" }),
    .addRef "T2" (some { id := "T1" }), .addRef "T1" (some { id := "T2" }),
    .addRef "T3" (some { id := "T2" }), .addLower "T3" (.nominal "int" .primitive false [])]

theorem shape_of_generalize_loop :
    let g := Graph.after { tag := 1 } loop
    let g' := (g.generalize Search.standard.find ["T2", "T1"]).graph
    (g.generalize Search.standard.find ["T2", "T1"]).fault = none ∧
      (g'.names.get? "$x").map Reference.id = some "T1" ∧
      (g'.status "T3" = .fixed ∧ (g'.boundsOf "T3").below = [] ∧ (g'.boundsOf "T3").above = [] ∨
        g'.status "T3" ≠ .fixed ∧ "T3" ∈ ["T1", "T1"] ∨
        g'.status "T3" ≠ .fixed ∧ ∃ p ∈ ["T1", "T1"], p ∈ (g'.boundsOf "T3").below ∧
        g'.status p ≠ .fixed) := by
  have hok :
      ((Graph.after { tag := 1 } loop).generalize Search.standard.find ["T2", "T1"]).fault = none :=
    Option.isNone_iff_eq_none.1 (by decide +kernel)
  have hheirs : ["T2", "T1"].map ((Graph.after { tag := 1 } loop).heir ["T2", "T1"]) =
    ["T1", "T1"] := by
    decide +kernel
  obtain ⟨hshape, -, -, hnames⟩ := shape_of_generalize 1 {} .plain loop .standard ["T2", "T1"] hok
  rw [hheirs] at hshape
  refine ⟨hok, ?_, hshape "T3" (by decide +kernel)⟩
  have hname := hnames "$x" { id := "T2" } (by decide +kernel) rfl (List.mem_cons_self ..)
  rw [hname]
  exact congrArg some (List.cons.inj hheirs).1

end TypeBounds
