import TypeBounds.Proofs.Replay

/-!
# One signature under either policy

The policy `overload` has generalisation fill in the upper bound of a variable when it is fixed,
while its neighbours are still there. Main statement: `solve_same_answer`. If expressions have no
convertibles in them, then a problem gets the same answer under either policy: the same failure
after the same steps, or the same signature, with graphs that differ in upper bounds of fixed type
variables at most.

An implicit conversion can get in the way (`not_sameAnswer_narrowedLate`): it narrows upper bounds,
also one that was just filled in. For that it has to find an upper bound above a variable without
one, so levels have to be uneven. They are only if operations fix variables: see
`Problem.Sheltered`.
-/

namespace TypeBounds

open Infer

/-! ## Graphs that differ in upper bounds of fixed variables -/

namespace Graph

variable {D : List VarId} {g g' : Graph} {x : VarId}

/-- **The two graphs agree**, but for upper bounds of fixed type variables. -/
structure Concurs (g g' : Graph) : Prop where
  ids : g.ids = g'.ids
  names : g.names = g'.names
  status : ∀ x, g.status x = g'.status x
  lower : ∀ x, (g.boundsOf x).lower = (g'.boundsOf x).lower
  below : ∀ x, (g.boundsOf x).below = (g'.boundsOf x).below
  above : ∀ x, (g.boundsOf x).above = (g'.boundsOf x).above
  upper : ∀ x, g.status x ≠ .fixed → (g.boundsOf x).upper = (g'.boundsOf x).upper

theorem Calm.not_mem_of_status (h : Calm D g) (hx : g.status x ≠ .fixed) : x ∉ D := by
  intro hmem
  rw [status, if_pos (h.isFrozen hmem)] at hx
  exact hx rfl

theorem Calm.status_veil (h : Calm D g) (x : VarId) : (g.veil D).status x = g.status x := by
  by_cases hx : x ∈ D
  · rw [status, status, isFrozen_under, if_pos (h.isFrozen hx), if_pos (h.isFrozen hx)]
  · rw [status, status, isFrozen_under, boundsOf_veil_of_not_mem hx]

theorem Calm.concurs (h : Calm D g) : (g.veil D).Concurs g where
  ids := ids_under
  names := rfl
  status := h.status_veil
  lower _ := by rw [boundsOf_under]; rfl
  below _ := by simp
  above _ := by simp
  upper x hx := by
    rw [h.status_veil] at hx
    rw [boundsOf_veil_of_not_mem (h.not_mem_of_status hx)]

/-! ## Signatures -/

theorem Calm.typeText_veil (h : Calm D g) (x : VarId) : (g.veil D).typeText x = g.typeText x := by
  by_cases hx : x ∈ D
  · rw [typeText, typeText, isFrozen_under, boundsOf_under, Bounds.resolved_veil (h.done x hx).2]
  · rw [typeText, typeText, isFrozen_under, boundsOf_veil_of_not_mem hx]

theorem parametricPart_veil (mentioned : List VarId) :
    (g.veil D).parametricPart mentioned = g.parametricPart mentioned := by
  simp [parametricPart]

theorem mem_parametricPart (hwf : g.WellFormed) {mentioned : List VarId}
    (hx : x ∈ g.parametricPart mentioned) : g.isFrozen x = false := by
  rw [parametricPart, Natural.mem_sort, mem_reachable (hwf.ids_nodup.filter _)] at hx
  obtain ⟨y, -, hy, hpath⟩ := hx
  simpa using (List.mem_filter.1 (hpath.mem hy)).2

/-- The constraints of a signature are those of variables in sight. -/
theorem Calm.constraints_veil (h : Calm D g) {part : List VarId}
    (hpart : ∀ x ∈ part, g.isFrozen x = false) :
    (g.veil D).constraints part = g.constraints part := by
  refine List.flatMap_congr fun x hx => ?_
  have hout : x ∉ D := h.not_mem_of_open (hpart x hx)
  rw [boundConstraint, boundConstraint, boundsOf_veil_of_not_mem hout, above_under]

/-- **The signature** tells nothing about what is out of sight. -/
theorem Calm.signature_veil (h : Calm D g) (hwf : g.WellFormed) (f : FunctionType) :
    f.signature (g.veil D) = f.signature g := by
  have htext : (g.veil D).typeText = g.typeText := funext h.typeText_veil
  unfold FunctionType.signature
  simp only [htext, parametricPart_veil, h.constraints_veil fun x hx => mem_parametricPart hwf hx]
  rfl

/-! ## Generalisation -/

theorem generalize_veil {search : Search} (params : List VarId) (hbare : g.Bare)
    (hwf : g.WellFormed) (hclosed : g.Closed) (hmild : g.lattice.Quiet ∨ g.Even True) :
    ∃ D, (g.veil []).generalize search.find params = (g.generalize search.find params).veil D ∧
      ((g.generalize search.find params).fault = none →
        Calm D (g.generalize search.find params).graph) := by
  unfold generalize
  simp only [isRegistered_under]
  cases params.forM fun x => (g.require x).map fun _ => () with
  | error m => exact ⟨[], rfl, fun hok => by cases hok⟩
  | ok _ =>
    obtain ⟨D, hrun, hend⟩ :=
      generalizeAll_hides (s := { graph := g }) params hbare hwf hclosed hmild
    refine ⟨D, run_veil _ hrun, fun hok => ?_⟩
    obtain ⟨s, hs, hgraph⟩ := run_ok hok
    rw [hgraph]
    exact hend () s hs

end Graph

namespace Problem

/-- **The same answer**: no solution for the same reason, the same failure after the same steps, or
the same signature in graphs that agree. -/
inductive SameAnswer :
    Except Failure (Solution × Option Failure) → Except Failure (Solution × Option Failure) → Prop
  | refused (failure : Failure) : SameAnswer (.error failure) (.error failure)
  | failed {s s' : Solution} (failure : Failure) (steps : s.steps = s'.steps) :
    SameAnswer (.ok (s, some failure)) (.ok (s', some failure))
  | solved {s s' : Solution} (steps : s.steps = s'.steps) (function : s.function = s'.function)
    (signature : s.signature = s'.signature) (graph : s.graph.Concurs s'.graph) :
    SameAnswer (.ok (s, none)) (.ok (s', none))

/-- **Generalising the function** of a problem. -/
theorem generalize_sameAnswer {search : Search} {s : Solution} (f : FunctionDecl)
    (hbare : s.graph.Bare) (hwf : s.graph.WellFormed) (hclosed : s.graph.Closed)
    (hmild : s.graph.lattice.Quiet ∨ s.graph.Even True) :
    SameAnswer (.ok (generalize search.find f (s.veil []))) (.ok (generalize search.find f s)) := by
  have hnames :
      (f.parameters.mapM fun name => ((s.veil []).graph.reference name).map Reference.id) =
      f.parameters.mapM fun name => (s.graph.reference name).map Reference.id := rfl
  unfold generalize
  rw [hnames]
  cases f.parameters.mapM fun name => (s.graph.reference name).map Reference.id with
  | error m => exact .failed _ rfl
  | ok params =>
    have hwf' := (Call.generalize search params).wellFormed_outcome hwf
    obtain ⟨D, hveil, hcalm⟩ := Graph.generalize_veil params hbare hwf hclosed hmild
    have hveil : (s.veil []).graph.generalize search.find params = _ := hveil
    dsimp only
    rw [hveil]
    set out := s.graph.generalize search.find params
    have hfault : (out.veil D).fault = out.fault := rfl
    rw [hfault]
    cases hok : out.fault with
    | some fault => exact .failed _ rfl
    | none =>
      have hcalm := hcalm hok
      have htag : (out.veil D).graph.tag = out.graph.tag := rfl
      have hsignature (function : FunctionType) :
          function.signature (out.veil D).graph = function.signature out.graph :=
            hcalm.signature_veil hwf' function
      simp only [htag, hsignature]
      split
      · exact .failed _ rfl
      · exact .solved rfl rfl rfl hcalm.concurs

/-- What solving goes on with after the replay. -/
def conclude (search : Search) (function : Option FunctionDecl) :
    Solution × Option Failure → Solution × Option Failure
  | (s, some failure) => (s, some failure)
  | (s, none) =>
    match function with
    | some f => generalize search.find f s
    | none => (s, none)

theorem solve_eq {p : Problem} {u : Universe} {g : Graph} (search : Search)
    (hg : p.start = .ok (u, g)) :
    p.solve search.find =
      .ok (conclude search p.function (replay u 0 p.operations { graph := g })) := by
  rw [solve, hg]
  simp only [bind, Except.bind]
  rcases replay u 0 p.operations { graph := g } with ⟨s, _ | failure⟩
  · cases p.function <;> rfl
  · cases p.function <;> rfl

/-- **After the replay.** -/
theorem conclude_sameAnswer {search : Search} {s : Solution} {failure : Option Failure}
    {l : Lattice} {P : Prop}
    (hs : failure = none → s.graph.Replayed l P ∧ (s.graph.lattice.Quiet ∨ s.graph.Even True))
    (function : Option FunctionDecl) :
    SameAnswer (.ok (conclude search function (s.veil [], failure)))
      (.ok (conclude search function (s, failure))) := by
  cases failure with
  | some failure => exact .failed failure rfl
  | none =>
    obtain ⟨hreplayed, hmild⟩ := hs rfl
    cases function with
    | some f =>
      exact generalize_sameAnswer f hreplayed.bare hreplayed.wellFormed hreplayed.closed hmild
    | none => exact .solved rfl rfl rfl hreplayed.bare.calm.concurs

/-! ## Solving -/

/-- The graph that the operations of a problem lead to, as far as they get. -/
def replayed? (p : Problem) : Option Graph :=
  match p.start with
  | .error _ => none
  | .ok (u, g) => some (replay u 0 p.operations { graph := g }).1.graph

/-- **Sheltered** from what fixing fills in: there is no implicit conversion, or no operation fixes
anything, or else, after all operations, whatever is below a variable with an upper bound has one,
too. -/
def Sheltered (p : Problem) : Prop :=
  (∀ c ∈ p.conversions, c.implicit = false) ∨ (∀ o ∈ p.operations, o.fixes = false) ∨
    ∀ g ∈ { p with flavor := "plain" }.replayed?, g.Levelled

instance (p : Problem) : Decidable p.Sheltered := inferInstanceAs (Decidable (_ ∨ _ ∨ _))

theorem Sheltered.mild {p : Problem} (h : p.Sheltered) {u : Universe} {l : Lattice} {g : Graph}
    (hl : u.lattice p.conversions = .ok l) (hg : g.Replayed l (∀ o ∈ p.operations, o.fixes = false))
    (hplain : { p with flavor := "plain" }.replayed? = some (g.veil [])) :
    g.lattice.Quiet ∨ g.Even True := by
  rcases h with hquiet | hfixes | hlevelled
  · refine .inl fun c hc => ?_
    rw [hg.lattice] at hc
    obtain ⟨d, hd, -, -, himplicit⟩ := Universe.declared_of_mem_lattice hl hc
    rw [← himplicit]
    exact hquiet d hd
  · exact .inr ⟨hg.toSmooth, fun _ => hg.levelled hfixes⟩
  · have hlevelled := hlevelled _ hplain
    rw [Graph.veil_nil] at hlevelled
    exact .inr ⟨hg.toSmooth, fun _ => hlevelled⟩

/-- **One signature under either policy**, in whatever order cycles are found. -/
theorem solve_same_answer (p : Problem) (search : Search) (hbare : ∀ o ∈ p.operations, o.isBare)
    (hsheltered : p.Sheltered) :
    SameAnswer ({ p with flavor := "plain" }.solve search.find)
      ({ p with flavor := "overload" }.solve search.find) := by
  have hplain := start_veil p
  cases hg : { p with flavor := "overload" }.start with
  | error e =>
    rw [hg] at hplain
    rw [solve, solve, hplain, hg]
    exact .refused e
  | ok start =>
    obtain ⟨u, g⟩ := start
    rw [hg] at hplain
    have hplain : { p with flavor := "plain" }.start = .ok (u, g.veil []) := hplain
    obtain ⟨hu, l, hl, hstart⟩ := start_replayed hg (∀ o ∈ p.operations, o.fixes = false)
    -- where the operations leave levels alone is where none of them fixes anything
    have hfixes : ∀ o ∈ p.operations, o.fixes → ¬∀ o ∈ p.operations, o.fixes = false := by
      intro o ho hfixes hnone
      rw [hnone o ho] at hfixes
      cases hfixes
    obtain ⟨hveil, hreplayed⟩ := replay_veil hu hbare hfixes (s := { graph := g }) hstart 0
    have hveil : replay u 0 p.operations { graph := g.veil [] } = _ := hveil
    rw [solve_eq search hplain, solve_eq search hg]
    dsimp only
    rw [hveil]
    refine conclude_sameAnswer
      (fun hok => ⟨hreplayed hok, hsheltered.mild hl (hreplayed hok) ?_⟩) p.function
    rw [replayed?, hplain]
    dsimp only
    rw [hveil]
    rfl

/-- Whether there is a failure. -/
def hasFailed : Except Failure (Solution × Option Failure) → Bool
  | .error _ => true
  | .ok (_, failure) => failure.isSome

theorem SameAnswer.hasFailed_eq {a b : Except Failure (Solution × Option Failure)}
    (h : SameAnswer a b) : hasFailed a = hasFailed b := by
  cases h <;> rfl

/-- Whether a variable has no upper bound in the end. -/
def endsOpen (x : VarId) : Except Failure (Solution × Option Failure) → Bool
  | .error _ => false
  | .ok (s, _) => (s.graph.boundsOf x).upper.isEmpty

/-- An implicit conversion, and a variable that is fixed when whatever is below it has an upper
bound. -/
def convertedEarly : Problem where
  types := [{ name := "string" }, { name := "int" }]
  conversions := [{ source := "int", target := "string", implicit := true }]
  vars := [{ name := "$x", id := "T1" }, { name := "$y", id := "T2" }, { name := "$z", id := "T3" }]
  operations := [{ op := .ref, var := "T2", ref := "T1" },
    { op := .upper, var := "T2", type := "string" }, { op := .lower, var := "T1", type := "int" },
    { op := .fix, var := "$y" }, { op := .lower, var := "T3", type := "int | string" }]
  function := some { name := "f", parameters := ["$x"], result := "$z" }

/-- The answer is the same, but the graphs are not. -/
theorem solve_same_answer_convertedEarly :
    (∀ o ∈ convertedEarly.operations, o.isBare) ∧ convertedEarly.Sheltered ∧
    hasFailed ({ convertedEarly with flavor := "plain" }.solve Search.standard.find) = false ∧
    SameAnswer ({ convertedEarly with flavor := "plain" }.solve Search.standard.find)
      ({ convertedEarly with flavor := "overload" }.solve Search.standard.find) ∧
    endsOpen "T3" ({ convertedEarly with flavor := "plain" }.solve Search.standard.find) = true ∧
    endsOpen "T3" ({ convertedEarly with flavor := "overload" }.solve Search.standard.find) =
      false := by
  have hbare : ∀ o ∈ convertedEarly.operations, o.isBare := by decide +kernel
  have hsheltered : convertedEarly.Sheltered := by decide +kernel
  refine ⟨hbare, hsheltered, by decide +kernel,
    solve_same_answer convertedEarly .standard hbare hsheltered, ?_, ?_⟩
  · decide +kernel
  · decide +kernel

/-- An implicit conversion, and an upper bound that is handed on to no variable below because those
in between were fixed before. -/
def narrowedLate : Problem where
  types := [{ name := "string" }, { name := "num" }, { name := "int", parents := ["num"] }]
  conversions := [{ source := "mixed", target := "int", implicit := true }]
  vars := [{ name := "$a", id := "T1" }, { name := "$b", id := "T2" }, { name := "$c", id := "T3" },
    { name := "$d", id := "T4" }]
  operations := [{ op := .ref, var := "T2", ref := "T1" }, { op := .ref, var := "T4", ref := "T3" },
    { op := .fixParameter, var := "T2" }, { op := .fixParameter, var := "T3" },
    { op := .lower, var := "T1", type := "string" }, { op := .lower, var := "T4", type := "num" },
    { op := .fix, var := "$d" }, { op := .ref, var := "T3", ref := "T2" }]
  function := some { name := "f", result := "$a" }

/-- **The policies can disagree**, if a conversion narrows what fixing has just filled in. All
expressions are single names here. -/
theorem not_sameAnswer_narrowedLate :
    (∀ o ∈ narrowedLate.operations, o.type = "" ∨ o.type = "string" ∨ o.type = "num") ∧
    ¬SameAnswer ({ narrowedLate with flavor := "plain" }.solve Search.standard.find)
      ({ narrowedLate with flavor := "overload" }.solve Search.standard.find) := by
  refine ⟨by decide, fun hsame => ?_⟩
  have hplain :
      hasFailed ({ narrowedLate with flavor := "plain" }.solve Search.standard.find) = false := by
    decide +kernel
  have hoverload :
      hasFailed ({ narrowedLate with flavor := "overload" }.solve Search.standard.find) = true := by
    decide +kernel
  rw [hsame.hasFailed_eq, hoverload] at hplain
  cases hplain

end Problem

end TypeBounds
