import TypeBounds.Proofs.Coalescing

/-!
# How long generalisation takes

Fixing and coalescing are loops, and they are defined with a limit on their rounds. Without one they
would come to the same end: the variables that are not fixed yet get fewer in each round
(`variant_fixing`), and those that are registered get fewer with each merge (`variant_coalescing`).
A merge need not remove its variable, but no variable that a fixed reference denotes is coalesced
(`coalesced_of_nextMerge?`).

* `Generalizes`: a generalisation whose loops have no limits. Main statement: `generalization_ends`.
-/

namespace TypeBounds

open Infer TypeBounds.Graph

section

variable {params : List VarId} {id param : VarId} {s : Progress}

/-! ## Coalescing -/

/-- **A variable is coalesced only if it can go**: no fixed reference denotes it. So its record is
gone after the merge. -/
theorem coalesced_of_nextMerge? (h : s.graph.WellFormed)
    (hnext : s.graph.nextMerge? params = some (id, param)) :
    id ∈ s.graph.ids ∧ s.graph.isPinned id = false ∧ ∀ s', mergeInto id param s = (.ok (), s') →
      s'.graph.WellFormed ∧ s'.graph.ids = s.graph.ids.filter (· ≠ id) := by
  obtain ⟨hid, hco⟩ := coalescesInto?_of_nextMerge? hnext
  obtain ⟨hidp, hopen, hparam, hbelow⟩ := coalescesInto?_eq_some hco
  have hne : id ≠ param := fun heq => hidp (heq ▸ hparam)
  rw [isFrozen_eq, Bool.or_eq_false_iff] at hopen
  refine ⟨hid, hopen.2, fun s' hrun => ?_⟩
  obtain ⟨hwf, hids, -⟩ := mergeInto_finished h hne (h.mem_ids_of_mem_below hbelow) hrun
  rw [hopen.2, if_neg Bool.false_ne_true] at hids
  exact ⟨hwf, hids⟩

/-- What the loop of coalescing merges works on. It has nothing to note. -/
def Graph.nextCoalesced? (params : List VarId) (_ : Unit) (g : Graph) :
    Option ((VarId × VarId) × Unit) :=
  (g.nextMerge? params).map fun m => (m, ())

theorem Graph.nextCoalesced?_eq_some {g : Graph} {m : VarId × VarId} {u u' : Unit} :
    g.nextCoalesced? params u = some (m, u') ↔ g.nextMerge? params = some m := by
  simp [nextCoalesced?]

/-- **Each coalescing merge** takes a variable out. -/
theorem variant_coalescing (params : List VarId) :
    Variant (nextCoalesced? params) (fun m => mergeInto m.1 m.2) (fun _ => WellFormed) fun _ g =>
      g.ids.length := by
  refine ⟨fun {_ g m _} _ hnext => ?_, fun {_ s m _ s'} h hnext hrun => ?_⟩
  · obtain ⟨hid, -⟩ := coalescesInto?_of_nextMerge? (nextCoalesced?_eq_some.1 hnext)
    exact List.length_pos_of_mem hid
  · obtain ⟨hid, -, hends⟩ := coalesced_of_nextMerge? h (nextCoalesced?_eq_some.1 hnext)
    obtain ⟨hwf, hids⟩ := hends s' hrun
    refine ⟨hwf, ?_⟩
    rw [hids]
    exact List.length_filter_lt_length_iff_exists.2 ⟨m.1, hid, by simp⟩

theorem limits_coalesceRounds (params : List VarId) :
    Limits (fun n _ => coalesceRounds params n) (nextCoalesced? params) fun m =>
      mergeInto m.1 m.2 where
  zero _ _ := rfl
  none _ _ _ hnext := coalesceRounds_of_none (Option.map_eq_none_iff.1 hnext)
  some _ _ _ _ _ hnext := coalesceRounds_of_some (nextCoalesced?_eq_some.1 hnext)

end

/-! ## Generalisation -/

/-- **A generalisation**, as far as it gets, with the rounds of fixing and the coalescing merges
that it makes. -/
inductive Generalizes (search : Search) (params : List VarId) (s : Progress) :
    List (Round (List VarId)) → List (Round (VarId × VarId)) → Ending → Prop where
  | uncollapsed {e : Contradiction} {s' : Progress}
      (hcollapse : collapse (s.graph.pruneSelfEdges.cycles search) params.eraseDups
        { s with graph := s.graph.pruneSelfEdges } = (.error e, s')) :
          Generalizes search params s [] [] (.error e, s')
  | unfixed {params' : List VarId} {s₁ s' : Progress} {rounds : List (Round (List VarId))}
      {e : Contradiction}
      (hcollapse : collapse (s.graph.pruneSelfEdges.cycles search) params.eraseDups
        { s with graph := s.graph.pruneSelfEdges } = (.ok params', s₁))
      (hfixing : Iterates (nextRound? params') (fun xs => xs.forM freeze) [] s₁ rounds
        (.error e, s')) :
      Generalizes search params s rounds [] (.error e, s')
  | coalesced {params' : List VarId} {s₁ s₂ : Progress} {rounds : List (Round (List VarId))}
      {merges : List (Round (VarId × VarId))} {r : Ending}
      (hcollapse : collapse (s.graph.pruneSelfEdges.cycles search) params.eraseDups
        { s with graph := s.graph.pruneSelfEdges } = (.ok params', s₁))
      (hfixing : Iterates (nextRound? params') (fun xs => xs.forM freeze) [] s₁ rounds (.ok (), s₂))
      (hcoalescing : Iterates (nextCoalesced? params') (fun m => mergeInto m.1 m.2)
        () s₂ merges r) :
      Generalizes search params s rounds merges r

section

variable {search : Search} {params : List VarId} {s : Progress}
  {rounds rounds' : List (Round (List VarId))} {merges merges' : List (Round (VarId × VarId))}
  {r r' : Ending}

/-- A generalisation goes one way only, as its loops do. -/
theorem Generalizes.unique (h : Generalizes search params s rounds merges r)
    (h' : Generalizes search params s rounds' merges' r') :
    rounds' = rounds ∧ merges' = merges ∧ r' = r := by
  cases h with
  | uncollapsed hcollapse => cases h' <;> simp_all
  | unfixed hcollapse hfixing =>
    cases h' with
    | uncollapsed hcollapse' => cases hcollapse.symm.trans hcollapse'
    | unfixed hcollapse' hfixing' =>
      cases hcollapse.symm.trans hcollapse'
      obtain ⟨hrounds, hr⟩ := hfixing.unique hfixing'
      exact ⟨hrounds, rfl, hr⟩
    | coalesced hcollapse' hfixing' =>
      cases hcollapse.symm.trans hcollapse'
      cases (hfixing.unique hfixing').2
  | coalesced hcollapse hfixing hcoalescing =>
    cases h' with
    | uncollapsed hcollapse' => cases hcollapse.symm.trans hcollapse'
    | unfixed hcollapse' hfixing' =>
      cases hcollapse.symm.trans hcollapse'
      cases (hfixing.unique hfixing').2
    | coalesced hcollapse' hfixing' hcoalescing' =>
      cases hcollapse.symm.trans hcollapse'
      obtain ⟨hrounds, hr⟩ := hfixing.unique hfixing'
      cases hr
      obtain ⟨hmerges, hr⟩ := hcoalescing.unique hcoalescing'
      exact ⟨hrounds, hmerges, hr⟩

/-- **Loops as short as the variables are few**, when the graph that was generalised is `g`. -/
structure Sparing (g : Graph) (rounds : List (Round (List VarId)))
    (merges : List (Round (VarId × VarId))) : Prop where
  rounds_le : rounds.length ≤ g.ids.length
  merges_le : merges.length ≤ g.ids.length
  /-- not even counting the variables that are gone when the loop starts -/
  rounds_le_head : ∀ m ∈ rounds.head?, rounds.length ≤ m.before.graph.ids.length
  merges_le_head : ∀ m ∈ merges.head?, merges.length ≤ m.before.graph.ids.length
  merged : ∀ m ∈ merges, m.work.1 ∈ m.before.graph.ids ∧ m.before.graph.isPinned m.work.1 = false ∧
    ∀ s', m.ending = (.ok (), s') → s'.graph.ids = m.before.graph.ids.filter (· ≠ m.work.1)

/-- What every coalescing merge does. -/
theorem merged_of_iterates (h : s.graph.WellFormed)
    (hrun : Iterates (nextCoalesced? params) (fun m => mergeInto m.1 m.2) () s merges r) :
    ∀ m ∈ merges, m.work.1 ∈ m.before.graph.ids ∧ m.before.graph.isPinned m.work.1 = false ∧
      ∀ s', m.ending = (.ok (), s') → s'.graph.ids = m.before.graph.ids.filter (· ≠ m.work.1) := by
  intro m hm
  obtain ⟨_, _, hwf, hnext, hbody⟩ := hrun.forall_rounds (variant_coalescing params) h m hm
  obtain ⟨hid, hpin, hends⟩ := coalesced_of_nextMerge? hwf (nextCoalesced?_eq_some.1 hnext)
  exact ⟨hid, hpin, fun s' hok => (hends s' (hbody.trans hok)).2⟩

/-- **Generalisation ends**, with what it does when its loops have limits. -/
theorem exists_generalizes (hwf : s.graph.WellFormed) (hclosed : s.graph.Closed)
    (params : List VarId) :
    ∃ rounds merges r, Generalizes search params s rounds merges r ∧ Sparing s.graph rounds merges ∧
      generalizeAll search.find params s = r := by
  rw [generalizeAll_eq, modify_bind_apply, graph_bind_apply, bind_apply]
  rcases hcollapse : collapse (s.graph.pruneSelfEdges.cycles search) params.eraseDups
    { s with graph := s.graph.pruneSelfEdges } with ⟨e | params', s₁⟩
  · refine ⟨[], [], _, .uncollapsed hcollapse, ?_, rfl⟩
    exact ⟨Nat.zero_le _, Nat.zero_le _, by simp, by simp, by simp⟩
  obtain ⟨hcol, -⟩ :=
    collapse_cycles_ok (J := fun _ => True) (fun _ _ _ _ _ _ h _ => h) hwf hclosed hcollapse
  have hwf₁ := hcol.wellFormed
  have hfewer : s₁.graph.ids.length ≤ s.graph.ids.length := by
    have hsub : s₁.graph.ids ⊆ s.graph.ids :=
      fun x hx => ids_pruneSelfEdges ▸ ((hcol.mem_ids x).1 hx).1
    exact (hwf₁.ids_nodup.subperm hsub).length_le
  obtain ⟨rounds, ⟨res, s₂⟩, hfixing⟩ := (variant_fixing params' _).iterates hwf₁.underway
  have hrounds := hfixing.length_le (variant_fixing params' _) hwf₁.underway
  have hrun := (limits_freezeRounds params').eq hfixing hrounds
  have hhead : ∀ m ∈ rounds.head?, rounds.length ≤ m.before.graph.ids.length := fun m hm =>
    (hfixing.before_head m hm).symm ▸ hrounds
  dsimp only
  rw [graph_bind_apply, bind_apply,
    show freezeRounds params' s₁.graph.ids.length [] s₁ = _ from hrun]
  cases res with
  | error e =>
    refine ⟨rounds, [], _, .unfixed hcollapse hfixing, ?_, rfl⟩
    exact ⟨hrounds.trans hfewer, Nat.zero_le _, hhead, by simp, by simp⟩
  | ok u =>
    obtain ⟨_, hunderway, -⟩ := hfixing.end_of_ok (variant_fixing params' _) hwf₁.underway
    have hwf₂ := hunderway.wellFormed
    obtain ⟨merges, r, hcoalescing⟩ := (variant_coalescing params').iterates (a := ()) hwf₂
    have hmerges := hcoalescing.length_le (variant_coalescing params') hwf₂
    refine ⟨rounds, merges, r, .coalesced hcollapse hfixing hcoalescing, ?_,
      (limits_coalesceRounds params').eq hcoalescing hmerges⟩
    refine ⟨hrounds.trans hfewer, ?_, hhead, fun m hm => ?_, merged_of_iterates hwf₂ hcoalescing⟩
    · rw [hunderway.ids] at hmerges
      exact hmerges.trans hfewer
    · exact (hcoalescing.before_head m hm).symm ▸ hmerges

end

/-- **The loops of generalisation end**, whatever calls the graph has seen before, failed ones
included, whatever the parameters are and in whatever order the cycles are found. There is one way
that the loops can go, with at most as many rounds of fixing and as many coalescing merges as there
are variables; what comes out is what generalisation does. A variable that a fixed reference denotes
is never coalesced, so each merge that succeeds takes out one variable. -/
theorem generalization_ends (tag : Nat) (lattice : Lattice) (policy : Policy) (calls : List Call)
    (search : Search) (params : List VarId) :
    let g := Graph.after { tag, lattice, policy } calls
    ∃ rounds merges r, Generalizes search params { graph := g } rounds merges r ∧
      (∀ rounds' merges' r', Generalizes search params { graph := g } rounds' merges' r' →
        rounds' = rounds ∧ merges' = merges ∧ r' = r) ∧
      Sparing g rounds merges ∧
      ((∀ p ∈ params, p ∈ g.ids) → g.generalize search.find params = g.run .contradiction
        fun _ => r) := by
  intro g
  have hwf : g.WellFormed := (WellFormed.empty tag lattice policy).after calls
  have hclosed : g.Closed :=
    (Closed.empty tag lattice policy).after (.empty tag lattice policy) calls
  obtain ⟨rounds, merges, r, hrun, hsparing, hall⟩ :=
    exists_generalizes (s := { graph := g }) hwf hclosed params
  refine ⟨rounds, merges, r, hrun, fun _ _ _ hrun' => hrun.unique hrun', hsparing,
    fun hparams => ?_⟩
  rw [generalize_eq_run hparams]
  unfold Graph.run
  rw [hall]

end TypeBounds
