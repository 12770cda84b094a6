import TypeBounds.Problem.Solve
import TypeBounds.Proofs.Bridges
import TypeBounds.Proofs.Harmless
import TypeBounds.Proofs.Unnoticed

/-!
# Replaying a problem

An operation of a problem is a call on its graph, once its type is read (`Operation.apply_eq`). So
what is known about calls carries over to the replay of a problem:

* the types that expressions without convertibles denote are bare (`TypeExpr.bare_of_read`);
* `Graph.Replayed`: what the graph of such a problem is like as long as nothing fails;
* `replay_veil`: the policy plays no part before generalisation.
-/

namespace TypeBounds

open Infer

/-! ## Expressions without convertibles -/

namespace TypeExpr

mutual

/-- Whether there is no convertible in the expression. -/
def isBare : TypeExpr → Bool
  | .name _ => true
  | .convertible _ => false
  | .group inner => isBare inner
  | .union parts => allBare parts
  | .inter parts => allBare parts

/-- Whether there is none in any of the expressions. -/
def allBare : List TypeExpr → Bool
  | [] => true
  | e :: es => isBare e && allBare es

end

end TypeExpr

theorem Universe.Sound.bare {u : Universe} (hu : u.Sound) {name : String} {t : Ty}
    (h : u.find? name = some t) : t.Bare := by
  rcases hu.leaf name t h with rfl | ⟨kind, final, parents, rfl⟩
  · exact Ty.every_mixed.2 rfl
  · exact Ty.every_nominal.2 rfl

namespace TypeExpr

variable {u : Universe} {g : Graph}

theorem bare_of_map_container {x : Except Error (List Ty)}
    (hx : ∀ {ts : List Ty}, x = .ok ts → ∀ t ∈ ts, t.Bare) (side : Side) {t : Ty}
    (h : x.map (fun ts => side.container (Members.ofTypes ts)) = .ok t) : t.Bare := by
  cases x with
  | error e => cases h
  | ok ts =>
    cases h
    exact (Ty.bare_container side).2 (Members.forall_mem_ofTypes (hx rfl))

theorem bare_of_denote (hu : u.Sound) (e : TypeExpr) (he : e.isBare) {t : Ty}
    (h : denote u g e = .ok t) : t.Bare := by
  revert he t
  -- along the recursion of `denote`; its three cases for convertibles do not arise
  refine denote.induct g (fun e => isBare e → ∀ {t : Ty}, denote u g e = .ok t → t.Bare)
    (fun es => allBare es → ∀ {ts : List Ty}, denoteAll u g es = .ok ts → ∀ t ∈ ts, t.Bare)
    ?name ?var ?fixed ?target ?group ?union ?inter ?nil ?cons e
  case name =>
    intro n _ t h
    rw [denote, lookUp] at h
    cases hn : u.find? n with
    | none =>
      rw [hn] at h
      cases h
    | some t' =>
      rw [hn] at h
      cases h
      exact hu.bare hn
  case var =>
    intro n _ he
    simp [isBare] at he
  case fixed =>
    intro n _ he
    simp [isBare] at he
  case target =>
    intro target _ _ he
    simp [isBare] at he
  case group =>
    intro inner ih he t h
    rw [denote] at h
    rw [isBare] at he
    exact ih he h
  case union =>
    intro es ih he t h
    rw [denote] at h
    rw [isBare] at he
    exact bare_of_map_container (ih he) .lower h
  case inter =>
    intro es ih he t h
    rw [denote] at h
    rw [isBare] at he
    exact bare_of_map_container (ih he) .upper h
  case nil =>
    intro _ ts h
    cases h
    exact fun t ht => (List.not_mem_nil ht).elim
  case cons =>
    intro e es ih ihs he ts h
    rw [allBare, Bool.and_eq_true] at he
    rw [denoteAll] at h
    obtain ⟨t, ht, h⟩ := Universe.except_bind_eq_ok h
    obtain ⟨ts', hts', h⟩ := Universe.except_bind_eq_ok h
    cases h
    exact List.forall_mem_cons.2 ⟨ih he.1 ht, ihs he.2 hts'⟩

/-- **Reading** an expression without convertibles. -/
theorem bare_of_read (hu : u.Sound) {text : String}
    (hbare : (ofChars? (Text.trim text.toList)).all isBare) {t : Ty} (h : read u g text = .ok t) :
    t.Bare := by
  unfold read at h
  dsimp only at h
  split at h
  · cases h
  · cases h
  · cases h
  · split at h
    · cases h
    · rename_i e he
      rw [he, Option.all_some] at hbare
      exact bare_of_denote hu e hbare h

end TypeExpr

/-! ## Operations as calls -/

/-- A call as the operations of a problem make it, with bare types. -/
def Call.Operates : Call → Prop
  | addLower _ t => t.Bare
  | addUpper _ t => t.Bare
  | addRef _ _ => True
  | fixVariable _ => True
  | fixParameter _ => True
  | merge _ _ => True
  | _ => False

namespace Operation

/-- Whether there is no convertible in the type of the operation, if it has one. -/
def isBare (o : Operation) : Bool :=
  match o.op with
  | .lower => (TypeExpr.ofChars? (Text.trim o.type.toList)).all TypeExpr.isBare
  | .upper => (TypeExpr.ofChars? (Text.trim o.type.toList)).all TypeExpr.isBare
  | _ => true

/-- Whether the operation fixes a variable. -/
def fixes (o : Operation) : Bool := o.op = .fix || o.op = .fixParameter

/-- **The call** that an operation makes. -/
def call (u : Universe) (g : Graph) (o : Operation) : Except Failure Call :=
  match o.op with
  | .lower => ((TypeExpr.read u g o.type).mapError .expression).map (.bound .lower o.var)
  | .upper => ((TypeExpr.read u g o.type).mapError .expression).map (.bound .upper o.var)
  | .ref => .ok (.addRef o.var (some { id := o.ref, fixed := o.fixed }))
  | .fix => .ok (.fixVariable o.var)
  | .fixParameter => .ok (.fixParameter o.var)
  | .merge => .ok (.merge o.var o.ref)
  | .other word => .error (.unknown word)

/-- What is told of the outcome of that call. -/
def answer (o : Operation) (out : Outcome) : Except Failure (Option Effect) × Graph :=
  match out.fault with
  | some f => (.error (.fault f), out.graph)
  | none =>
    (.ok (if o.op = .lower ∨ o.op = .upper ∨ o.op = .ref then some out.effect else none), out.graph)

theorem ofOutcome_eq_answer {o : Operation} (ho : o.op = .lower ∨ o.op = .upper ∨ o.op = .ref)
    (out : Outcome) : ofOutcome out = o.answer out := by
  unfold ofOutcome answer
  cases out.fault with
  | some f => rfl
  | none => rw [if_pos ho]

theorem ofChange_eq_answer {o : Operation} (ho : ¬(o.op = .lower ∨ o.op = .upper ∨ o.op = .ref))
    (g : Graph) (r : Except Misuse Graph) : ofChange g r = o.answer (g.attempt r) := by
  rw [answer, if_neg ho]
  cases r <;> rfl

/-- **Operations are calls.** -/
theorem apply_eq (u : Universe) (o : Operation) (g : Graph) : o.apply u g =
    match o.call u g with
    | .error e => (.error e, g)
    | .ok c => o.answer (c.outcome g) := by
  unfold apply call
  cases hop : o.op with
  | lower =>
    cases TypeExpr.read u g o.type with
    | error e => rfl
    | ok t => exact ofOutcome_eq_answer (.inl hop) _
  | upper =>
    cases TypeExpr.read u g o.type with
    | error e => rfl
    | ok t => exact ofOutcome_eq_answer (.inr (.inl hop)) _
  | ref => exact ofOutcome_eq_answer (.inr (.inr hop)) _
  | fix => exact ofChange_eq_answer (by simp [hop]) g _
  | fixParameter => exact ofChange_eq_answer (by simp [hop]) g _
  | merge =>
    dsimp only [ofOutcome, answer, Call.outcome]
    rw [if_neg (by simp [hop])]
    cases (g.merge o.var o.ref).fault <;> rfl
  | other word => rfl

theorem operates_of_read {u : Universe} (hu : u.Sound) {o : Operation} {g : Graph}
    {c : Call} (side : Side)
    (hbare : (TypeExpr.ofChars? (Text.trim o.type.toList)).all TypeExpr.isBare)
    (h : ((TypeExpr.read u g o.type).mapError Failure.expression).map (.bound side o.var) = .ok c) :
    c.Operates ∧ ¬c.Fixes := by
  cases ht : TypeExpr.read u g o.type with
  | error e =>
    rw [ht] at h
    cases h
  | ok t =>
    have htype := TypeExpr.bare_of_read hu hbare ht
    rw [ht] at h
    cases h
    cases side with
    | lower => exact ⟨htype, id⟩
    | upper => exact ⟨htype, id⟩

/-- An operation without convertibles makes a call with bare types. -/
theorem operates_of_call {u : Universe} (hu : u.Sound) {o : Operation} (ho : o.isBare)
    {g : Graph} {c : Call} (h : o.call u g = .ok c) : c.Operates ∧ (c.Fixes → o.fixes) := by
  unfold call at h
  unfold isBare at ho
  unfold fixes
  cases hop : o.op with
  | lower =>
    rw [hop] at h ho
    exact (operates_of_read hu .lower ho h).imp_right fun hnot hfixes => absurd hfixes hnot
  | upper =>
    rw [hop] at h ho
    exact (operates_of_read hu .upper ho h).imp_right fun hnot hfixes => absurd hfixes hnot
  | ref =>
    rw [hop] at h
    cases h
    exact ⟨trivial, False.elim⟩
  | fix =>
    rw [hop] at h
    cases h
    exact ⟨trivial, fun _ => rfl⟩
  | fixParameter =>
    rw [hop] at h
    cases h
    exact ⟨trivial, fun _ => rfl⟩
  | merge =>
    rw [hop] at h
    cases h
    exact ⟨trivial, False.elim⟩
  | other word =>
    rw [hop] at h
    cases h

end Operation

/-! ## The policy aside -/

/-- The outcome with upper bounds out of sight. -/
def Outcome.veil (D : List VarId) (out : Outcome) : Outcome :=
  { out with graph := out.graph.veil D }

theorem Misuse.under_veil (D : List VarId) (m : Misuse) : m.under (.veil D) = m := by
  cases m with
  | unbindable e => cases e <;> rfl
  | _ => rfl

theorem Outcome.under_veil (D : List VarId) (out : Outcome) : out.under (.veil D) = out.veil D := by
  have hfault : Fault.under (.veil D) = id := by
    funext f
    cases f with
    | misuse m => exact congrArg Fault.misuse (Misuse.under_veil D m)
    | contradiction c => cases c <;> rfl
    | ref id r c => cases c <;> rfl
  rw [Outcome.under, hfault, Option.map_id, Effect.under_veil]
  rfl

namespace Graph

variable {g : Graph}

theorem run_veil {m : Infer Unit} {D : List VarId} (blame : Contradiction → Fault)
    (hm : m ({ graph := g : Progress }.veil []) =
      ((m { graph := g }).1, (m { graph := g }).2.veil D)) :
    (g.veil []).run blame m = (g.run blame m).veil D := by
  have hm : m ⟨g.veil [], {}⟩ = _ := hm
  unfold run
  rw [hm]
  rcases m { graph := g } with ⟨e | _, s⟩ <;> rfl

theorem attempt_veil {r r' : Except Misuse Graph} (hr : r' = r.map (veil [])) :
    (g.veil []).attempt r' = (g.attempt r).veil [] := by
  rw [hr]
  cases r <;> rfl

end Graph

/-- **Calls.** -/
theorem Call.outcome_veil {c : Call} (hc : c.Operates) {g : Graph} (h : g.Bare) :
    c.outcome (g.veil []) = (c.outcome g).veil [] := by
  have hsuits := Graph.suits_calm []
  have howned (t : Ty) :
      (g.veil []).requireOwned t = (g.requireOwned t).mapError (Misuse.under (.veil [])) := by
    have hsame : (g.veil []).requireOwned t = g.requireOwned t := by
      rw [Graph.veil_nil]
      rfl
    rw [hsame]
    cases g.requireOwned t with
    | error m => exact congrArg Except.error (Misuse.under_veil [] m).symm
    | ok _ => rfl
  rw [← Outcome.under_veil]
  cases c with
  | addLower x t =>
    exact Graph.addBound_under hsuits.toSuits h.calm List.not_mem_nil hc .lower (howned t)
  | addUpper x t =>
    exact Graph.addBound_under hsuits.toSuits h.calm List.not_mem_nil hc .upper (howned t)
  | addRef x r =>
    exact Graph.addRef_under hsuits h.calm List.not_mem_nil fun _ _ => List.not_mem_nil
  | merge old new => exact Graph.merge_under hsuits h.calm List.not_mem_nil List.not_mem_nil
  | fixVariable name =>
    rw [Outcome.under_veil]
    exact Graph.attempt_veil (Graph.fixVariable_under fun _ _ => rfl)
  | fixParameter x =>
    rw [Outcome.under_veil]
    exact Graph.attempt_veil (Graph.fixParameter_under fun _ _ => rfl)
  | _ => exact hc.elim

/-! ## As long as nothing fails -/

namespace Graph

variable {g g' : Graph} {x : VarId} {b : Bounds} {P : Prop} {l : Lattice} {c : Call}

/-- What fixing fills in does not disturb anything but the levels. -/
theorem Even.filled (h : g.Even P) (hP : ¬P) (hwf : g'.WellFormed)
    (hlattice : g'.lattice = g.lattice) (hfilled : Filled x b g g') : g'.Even P := by
  have hmember (side : Side) {y : VarId} {m : String × Ty} (hm : m ∈ (g'.boundsOf y).side side) :
      m ∈ (g.boundsOf y).side side ∨
      m ∈ Members.ofTypes (side.parts (g.boundsOf x).resolved.copy) := by
    by_cases hy : y = x
    · rw [hy, hfilled.here] at hm
      rw [hy]
      rcases hfilled.filled side with hside | ⟨-, hside⟩
      · exact .inl (hside ▸ hm)
      · exact .inr (hside ▸ hm)
    · rw [hfilled.elsewhere y hy] at hm
      exact .inl hm
  refine ⟨⟨⟨hlattice ▸ h.bare.plain, fun side y m hm => ?_⟩, hwf, fun y m hm => ?_⟩,
    fun hp => absurd hp hP⟩
  · rcases hmember side hm with hm | hm
    · exact h.bare.stored side y m hm
    · exact Members.forall_mem_ofTypes
        (fun t ht => (h.bare.type h.bare x).copy.of_mem_parts side ht) m hm
  · rcases hmember .upper hm with hm | hm
    · exact h.flat y m hm
    · exact Side.ne_container_of_mem_parts ((Members.labelled_ofTypes _).2 m hm)

/-- **What the graph of a problem is like** as long as nothing fails, and levelled if `P`. -/
structure Replayed (l : Lattice) (P : Prop) (g : Graph) : Prop extends g.Even P where
  lattice : g.lattice = l
  closed : g.Closed

theorem Replayed.empty (tag : Nat) (hl : l.Plain) (policy : Policy) (P : Prop) :
    Replayed l P { tag, lattice := l, policy } where
  bare := ⟨hl, fun side x m hm => by cases side <;> cases hm⟩
  wellFormed := WellFormed.empty tag l policy
  flat x m hm := by cases hm
  levelled _ x y hxy := by cases hxy
  lattice := rfl
  closed := Closed.empty tag l policy

/-- **One call.** Fixing is not expected to keep levels. -/
theorem Even.outcome (h : g.Even P) (hc : c.Operates) (hfixes : c.Fixes → ¬P)
    (hok : (c.outcome g).fault = none) : (c.outcome g).graph.Even P := by
  have hfilled (hc : c.Fixes) : (c.outcome g).graph.Even P := by
    obtain ⟨x, b, -, hlattice, hfilled⟩ := Call.filled_outcome h.wellFormed hc hok
    exact h.filled (hfixes hc) (c.wellFormed_outcome h.wellFormed) hlattice hfilled
  cases c with
  | addLower x t => exact h.addBound hc hok
  | addUpper x t => exact h.addBound hc hok
  | addRef x r => exact h.addRef hok
  | fixVariable name => exact hfilled trivial
  | fixParameter x => exact hfilled trivial
  | merge old new => exact h.merge hok
  | _ => exact hc.elim

theorem Replayed.outcome (h : g.Replayed l P) (hc : c.Operates) (hfixes : c.Fixes → ¬P)
    (hok : (c.outcome g).fault = none) : (c.outcome g).graph.Replayed l P where
  toEven := h.toEven.outcome hc hfixes hok
  lattice := (c.sameLattice_outcome g).trans h.lattice
  closed := c.closed_outcome h.wellFormed h.closed

end Graph

/-! ## Operations -/

section

open TypeBounds.Graph

variable {u : Universe} {o : Operation} {g g' : Graph} {l : Lattice} {P : Prop}

/-- **What an expression denotes** depends on nothing of the graph but its tag and its variables. -/
theorem TypeExpr.denote_congr (htag : g'.tag = g.tag)
    (hvars : ∀ x, g'.hasTypeVariable x = g.hasTypeVariable x) (e : TypeExpr) :
    denote u g' e = denote u g e := by
  refine denote.induct g (fun e => denote u g' e = denote u g e)
    (fun es => denoteAll u g' es = denoteAll u g es) ?name ?var ?fixed ?target ?group ?union
    ?inter ?nil ?cons e
  case var | fixed =>
    intro n hn
    simp only [denote, hvars, htag]
  case cons =>
    intro e es ih ihs
    simp only [denoteAll, ih, ihs]
  all_goals intros; simp only [denote, denoteAll, *]

theorem Operation.call_veil (u : Universe) (o : Operation) (g : Graph) :
    o.call u (g.veil []) = o.call u g := by
  have hdenote : TypeExpr.denote u (g.veil []) = TypeExpr.denote u g :=
    funext (TypeExpr.denote_congr rfl fun _ => contains_bounds_under)
  have hread (text : String) : TypeExpr.read u (g.veil []) text = TypeExpr.read u g text := by
    simp only [TypeExpr.read, hdenote]
  unfold call
  rw [hread]

theorem Operation.answer_veil (o : Operation) (out : Outcome) :
    o.answer (out.veil []) = ((o.answer out).1, (o.answer out).2.veil []) := by
  unfold answer
  cases hfault : out.fault <;> simp [Outcome.veil, hfault]

/-- **One operation** does the same under either policy, also if it fails. -/
theorem Operation.apply_veil (hu : u.Sound) (ho : o.isBare) (h : g.Bare) :
    o.apply u (g.veil []) = ((o.apply u g).1, (o.apply u g).2.veil []) := by
  rw [apply_eq, apply_eq, call_veil]
  cases hc : o.call u g with
  | error e => rfl
  | ok c =>
    dsimp only
    rw [Call.outcome_veil (operates_of_call hu ho hc).1 h, answer_veil]

theorem Graph.Replayed.apply (h : g.Replayed l P) (hu : u.Sound) (ho : o.isBare)
    (hfixes : o.fixes → ¬P) {e : Option Effect} (hrun : o.apply u g = (.ok e, g')) :
    g'.Replayed l P := by
  rw [Operation.apply_eq] at hrun
  cases hc : o.call u g with
  | error e =>
    rw [hc] at hrun
    cases hrun
  | ok c =>
    obtain ⟨hoperates, hfixes'⟩ := Operation.operates_of_call hu ho hc
    rw [hc] at hrun
    dsimp only [Operation.answer] at hrun
    cases hok : (c.outcome g).fault with
    | some f =>
      rw [hok] at hrun
      cases hrun
    | none =>
      rw [hok] at hrun
      cases hrun
      exact h.outcome hoperates (fun hc => hfixes (hfixes' hc)) hok

/-! ## Problems -/

/-- The solution with upper bounds out of sight. -/
def Solution.veil (D : List VarId) (s : Solution) : Solution := { s with graph := s.graph.veil D }

namespace Problem

/-- **The replay** is the same under either policy. If it gets to its end, the graph is as the first
one was, where levels are concerned if nothing was fixed. -/
theorem replay_veil (hu : u.Sound) {os : List Operation} (hos : ∀ o ∈ os, o.isBare)
    (hfixes : ∀ o ∈ os, o.fixes → ¬P) {s : Solution} (h : s.graph.Replayed l P) (index : Nat) :
    replay u index os (s.veil []) = ((replay u index os s).1.veil [], (replay u index os s).2) ∧
      ((replay u index os s).2 = none → (replay u index os s).1.graph.Replayed l P) := by
  induction os generalizing s index with
  | nil => exact ⟨rfl, fun _ => h⟩
  | cons o os ih =>
    obtain ⟨ho, hos⟩ := List.forall_mem_cons.1 hos
    obtain ⟨hfix, hfixes⟩ := List.forall_mem_cons.1 hfixes
    have hveil : o.apply u (s.veil []).graph = _ := Operation.apply_veil hu ho h.bare
    unfold replay
    rw [hveil]
    rcases hrun : o.apply u s.graph with ⟨e | effect, g'⟩
    · -- the graph of a failed operation is not asked for anything
      exact ⟨rfl, fun hnone => by cases hnone⟩
    · exact ih hos hfixes (s := { s with graph := g', steps := s.steps ++ [(o, effect)] })
        (h.apply hu ho hfix hrun) _

theorem declareVariable_veil (g : Graph) (d : VariableDecl) :
    declareVariable (g.veil []) d = (declareVariable g d).map (Graph.veil []) := by
  unfold declareVariable
  by_cases hid : d.id = ""
  · rw [if_pos hid, if_pos hid]
    exact addVariable_under (G := .veil []) (g := g.mint.1)
  · rw [if_neg hid, if_neg hid]
    exact addVariable_under

theorem foldlM_declareVariable_veil (ds : List VariableDecl) (g : Graph) :
    ds.foldlM declareVariable (g.veil []) = (ds.foldlM declareVariable g).map (Graph.veil []) := by
  induction ds generalizing g with
  | nil => rfl
  | cons d ds ih =>
    rw [List.foldlM_cons, List.foldlM_cons, declareVariable_veil]
    cases declareVariable g d with
    | error m => rfl
    | ok g' => exact ih g'

/-- **The start** is the same, too. -/
theorem start_veil (p : Problem) : { p with flavor := "plain" }.start =
    ({ p with flavor := "overload" }.start).map (Prod.map id (Graph.veil [])) := by
  change ((Universe.ofDecls p.types).mapError Failure.types >>= fun u => _) =
    Except.map _ ((Universe.ofDecls p.types).mapError Failure.types >>= fun u => _)
  cases Universe.ofDecls p.types with
  | error e => rfl
  | ok u =>
    change ((u.lattice p.conversions).mapError Failure.conversions >>= fun l => _) =
      Except.map _ ((u.lattice p.conversions).mapError Failure.conversions >>= fun l => _)
    cases u.lattice p.conversions with
    | error e => rfl
    | ok l =>
      have hdeclared :=
        foldlM_declareVariable_veil p.vars { tag := 1, lattice := l, policy := .overload }
      change ((p.vars.foldlM declareVariable { tag := 1, lattice := l, policy := .plain }).mapError
          Failure.declaration >>= fun g => _) =
            Except.map _ ((p.vars.foldlM declareVariable _).mapError
          Failure.declaration >>= fun g => _)
      rw [veil_nil] at hdeclared
      rw [hdeclared]
      cases p.vars.foldlM declareVariable { tag := 1, lattice := l, policy := .overload } <;> rfl

theorem declareVariable_replayed (h : g.Replayed l P) {d : VariableDecl}
    (hg : declareVariable g d = .ok g') : g'.Replayed l P := by
  have hadd {g₀ : Graph} (h₀ : g₀.Replayed l P) {r : Reference}
      (hg : g₀.addVariable d.name (some r) = .ok g') : g'.Replayed l P := by
    refine ⟨h₀.toEven.addVariable hg, ?_, h₀.closed.addVariable hg⟩
    obtain ⟨r', -, -, rfl⟩ := addVariable_eq_ok.1 hg
    exact h₀.lattice
  have hmint : g.mint.1.Replayed l P :=
    ⟨h.toEven.of_bounds rfl rfl rfl, h.lattice, h.closed⟩
  unfold declareVariable at hg
  by_cases hid : d.id = ""
  · rw [if_pos hid] at hg
    exact hadd hmint hg
  · rw [if_neg hid] at hg
    exact hadd h hg

theorem foldlM_declareVariable_replayed {ds : List VariableDecl} (h : g.Replayed l P)
    (hg : ds.foldlM declareVariable g = .ok g') : g'.Replayed l P := by
  induction ds generalizing g with
  | nil =>
    cases hg
    exact h
  | cons d ds ih =>
    rw [List.foldlM_cons] at hg
    obtain ⟨g₁, hg₁, hg⟩ := Universe.except_bind_eq_ok hg
    exact ih (declareVariable_replayed h hg₁) hg

theorem mapError_eq_ok {ε ε' α : Type} {f : ε → ε'} {x : Except ε α} {a : α}
    (h : x.mapError f = .ok a) : x = .ok a := by
  cases x with
  | error e => cases h
  | ok b =>
    cases h
    rfl

theorem start_eq_ok {p : Problem} (h : p.start = .ok (u, g)) :
    ∃ policy l, Universe.ofDecls p.types = .ok u ∧
    u.lattice p.conversions = .ok l ∧
    p.vars.foldlM declareVariable { tag := 1, lattice := l, policy } = .ok g := by
  unfold start at h
  cases hpolicy : Policy.ofName? p.flavor with
  | none =>
    rw [hpolicy] at h
    cases h
  | some policy =>
    simp only [hpolicy, pure_bind] at h
    obtain ⟨u', hu, h⟩ := Universe.except_bind_eq_ok h
    obtain ⟨l, hl, h⟩ := Universe.except_bind_eq_ok h
    obtain ⟨g', hg, h⟩ := Universe.except_bind_eq_ok h
    cases h
    exact ⟨policy, l, mapError_eq_ok hu, mapError_eq_ok hl, mapError_eq_ok hg⟩

/-- **The graph to begin with.** -/
theorem start_replayed {p : Problem} (h : p.start = .ok (u, g)) (P : Prop) :
    u.Sound ∧ ∃ l, u.lattice p.conversions = .ok l ∧ g.Replayed l P := by
  obtain ⟨policy, l, hu, hl, hg⟩ := start_eq_ok h
  have hsound := Universe.sound_of_ofDecls hu
  have hplain : l.Plain := fun c hc => by
    obtain ⟨hsource, htarget⟩ := hsound.converts hl c hc
    exact ⟨Ty.bare_iff.1 (hsound.bare hsource), Ty.bare_iff.1 (hsound.bare htarget)⟩
  exact ⟨hsound, l, hl, foldlM_declareVariable_replayed (.empty 1 hplain policy P) hg⟩

end Problem

end

end TypeBounds
