import TypeBounds.Proofs.Merging

/-!
# Graphs in use

A graph starts empty and then sees calls, some of which fail and leave it half changed. A `Call` is
an operation with its arguments, `Graph.after` what becomes of a graph under a list of calls. Main
statement: `edges_and_names_of_after`, the structure that every such graph has. It comes from
`Call.wellFormed_outcome`, which says what one call preserves, and `Graph.WellFormed.after`, which
says it of all of them.
-/

namespace TypeBounds

open Infer Relation

/-- An operation on a graph with its arguments. -/
inductive Call where
  | addVariable (name : String) (r : Option Reference)
  | mint
  /-- binds a convertible, in the bounds of the graph too if it lives in a cell -/
  | bind (t : Ty) (vars : List VarId)
  /-- a convertible that the bounds share is bound, possibly to another graph -/
  | rebind (cell owner : Nat) (var : VarId)
  | addLower (id : VarId) (t : Ty)
  | addUpper (id : VarId) (t : Ty)
  | addRef (id : VarId) (r : Option Reference)
  | fixVariable (name : String)
  | fixParameter (id : VarId)
  | merge (old new : VarId)
  | generalize (search : Search) (params : List VarId)
  /-- goes on with a fork of the graph -/
  | fork (tag : Nat)
  | setOverload (name : String) (f : FunctionType)

/-- The outcome of an operation that changes nothing when it fails. -/
def Graph.attempt (g : Graph) : Except Misuse Graph → Outcome
  | .ok g' => { graph := g' }
  | .error m => g.refuse m

/-- The graph once a type is bound. -/
def Graph.rebound (g : Graph) : Ty → Graph
  | .asVar (some cell) owner var => g.rebindCell cell owner var
  | _ => g

/-- **The outcome of a call.** -/
def Call.outcome : Call → Graph → Outcome
  | addVariable name r, g => g.attempt (g.addVariable name r)
  | mint, g => { graph := g.mint.1 }
  | bind t vars, g => g.attempt ((g.bind t vars).map g.rebound)
  | rebind cell owner var, g => { graph := g.rebindCell cell owner var }
  | addLower id t, g => g.addLower id t
  | addUpper id t, g => g.addUpper id t
  | addRef id r, g => g.addRef id r
  | fixVariable name, g => g.attempt (g.fixVariable name)
  | fixParameter id, g => g.attempt (g.fixParameter id)
  | merge old new, g => g.merge old new
  | generalize search params, g => g.generalize search.find params
  | fork tag, g => { graph := g.fork tag }
  | setOverload name f, g => g.attempt (g.setOverload name f)

namespace Graph

/-- What a list of calls makes of a graph. After a failed call the next one finds what it left. -/
def after (g : Graph) (calls : List Call) : Graph := calls.foldl (fun g c => (c.outcome g).graph) g

theorem after_concat {g : Graph} {calls : List Call} {c : Call} :
    g.after (calls ++ [c]) = (c.outcome (g.after calls)).graph := List.foldl_append

/-- The name that a call adds to a graph, if it adds one. -/
def newName? (g : Graph) : Call → Option String
  | .addVariable name r => if (g.addVariable name r).isOk then some name else none
  | _ => none

/-- The names that a list of calls adds, in order. -/
def newNames : Graph → List Call → List String
  | _, [] => []
  | g, c :: cs => (g.newName? c).toList ++ newNames (c.outcome g).graph cs

variable {search : Search} {g g' : Graph} {id : VarId}

/-! ## What one call preserves -/

theorem graph_run (blame : Contradiction → Fault) (m : Infer Unit) :
    (g.run blame m).graph = (m { graph := g }).2.graph := by
  unfold run
  split <;> simp_all

/-- What held before, and holds of every success, holds of the outcome. -/
theorem attempt_keeps {I : Graph → Prop} (h : I g) {r : Except Misuse Graph}
    (hr : ∀ g', r = .ok g' → I g') : I (g.attempt r).graph := by
  cases r with
  | error m => exact h
  | ok g' => exact hr g' rfl

/-- **Adding a type**, also in vain. -/
theorem addBound_keeps {I : Graph → Prop} (h : I g) {side : Side} {t : Ty}
    (hspread : g.checkBound id t = .ok () → I (spread side id t { graph := g }).2.graph) :
    I (g.addBound side id t).graph := by
  unfold Graph.addBound
  split
  · exact h
  · rename_i hcheck
    split
    · exact h
    · rw [graph_run]
      exact hspread hcheck

/-- **Adding a reference**, also in vain. -/
theorem addRef_keeps {I : Graph → Prop} (h : I g) {r : Option Reference}
    (hspread :
      ∀ x, I (spread .lower id (Ty.union (g.boundsOf x).lower).copy { graph := g }).2.graph)
    (hself : id ∈ g.ids → I (g.link id id))
    (hedge : ∀ x ∈ g.ids, id ∈ g.ids → I (addEdge x id { graph := g }).2.graph) :
    I (g.addRef id r).graph := by
  unfold Graph.addRef
  split
  · exact h
  · exact h
  · rename_i b r hid
    have hid : id ∈ g.ids := mem_ids_of_require hid
    split
    · exact h
    · rename_i rb hr
      split
      · split
        · exact h
        · rw [graph_run, ← boundsOf_of_require hr]
          exact hspread r.id
      · split
        · split
          · exact h
          · exact hself hid
        · rw [graph_run]
          exact hedge r.id (mem_ids_of_require hr) hid

/-- **Merging**, also in vain. -/
theorem merge_keeps {I : Graph → Prop} (h : I g) {old new : VarId}
    (hmerge : old ≠ new → new ∈ g.ids → I (mergeInto old new { graph := g }).2.graph) :
    I (g.merge old new).graph := by
  unfold Graph.merge
  split
  · exact h
  · exact h
  · rename_i hnew
    split
    · exact h
    · rename_i hne
      rw [graph_run]
      exact hmerge hne (mem_ids_of_require hnew)

/-- **Generalising**, also in vain. -/
theorem generalize_keeps {I : Graph → Prop} (h : I g) {params : List VarId}
    (hall : I (generalizeAll search.find params { graph := g }).2.graph) :
    I (g.generalize search.find params).graph := by
  unfold Graph.generalize
  split
  · exact h
  · rw [graph_run]
    exact hall

theorem addEdge_keeps {lower upper : VarId} {s : Progress} (hl : lower ∈ s.graph.ids)
    (hu : upper ∈ s.graph.ids) : Along (Keeps WellFormed) (addEdge lower upper) s :=
  along_addEdge spread_keeps fun h => (h.linkAcross hl hu).1

theorem WellFormed.addBound (h : g.WellFormed) (side : Side) (id : VarId) (t : Ty) :
    (g.addBound side id t).graph.WellFormed := addBound_keeps h fun _ => spread_keeps side id t _ h

theorem WellFormed.addRef (h : g.WellFormed) (id : VarId) (r : Option Reference) :
    (g.addRef id r).graph.WellFormed :=
  addRef_keeps h (fun _ => spread_keeps .lower id _ _ h) (fun hid => h.link hid hid) fun _ hx hid =>
    addEdge_keeps (s := { graph := g }) hx hid h

theorem WellFormed.merge (h : g.WellFormed) (old new : VarId) :
    (g.merge old new).graph.WellFormed :=
  merge_keeps h fun hne hnew => mergeInto_wellFormed (s := { graph := g }) hne hnew h

theorem WellFormed.generalize (h : g.WellFormed) (params : List VarId) :
    (g.generalize search.find params).graph.WellFormed :=
  generalize_keeps h (generalizeAll_wellFormed params _ h)

theorem bind_eq (t : Ty) (vars : List VarId) : g.bind t vars = (do
    vars.forM fun id => (g.require id).map fun _ => ()
    (t.bind g.tag vars).mapError .unbindable) := by
  unfold bind bindTo
  cases vars.forM fun id => (g.require id).map fun _ => () with
  | error m => rfl
  | ok _ =>
    unfold Ty.bind
    simp only [EStateM.adaptExcept]
    cases Ty.bindTo g.tag vars t <;> rfl

/-- A failure to bind leaves the convertible alone. -/
theorem bindTo_eq_error {t t' : Ty} {vars : List VarId} {m : Misuse}
    (h : g.bindTo vars t = .error m t') : t' = t := by
  unfold bindTo at h
  cases hvars : vars.forM fun id => (g.require id).map fun _ => () with
  | error m =>
    rw [hvars] at h
    cases h
    rfl
  | ok _ =>
    rw [hvars] at h
    simp only [EStateM.adaptExcept] at h
    cases hbind : Ty.bindTo g.tag vars t with
    | ok _ _ =>
      rw [hbind] at h
      cases h
    | error e t₁ =>
      rw [hbind] at h
      cases h
      exact Ty.bindTo_eq_error hbind

/-- Binding a convertible changes the graph, if at all, where it holds the cell of the
convertible. -/
theorem rebound_of_bind {t : Ty} {vars : List VarId} (hg : (g.bind t vars).map g.rebound = .ok g') :
    g' = g ∨ ∃ cell owner var, g' = g.rebindCell cell owner var := by
  cases hb : g.bind t vars with
  | error m => rw [hb] at hg; cases hg
  | ok t' =>
    rw [hb] at hg
    cases hg
    unfold rebound
    split
    · exact .inr ⟨_, _, _, rfl⟩
    · exact .inl rfl

/-- **Binding a convertible**, also in vain. -/
theorem bind_keeps {I : Graph → Prop} (h : I g) {t : Ty} {vars : List VarId}
    (hrebind : ∀ cell owner var, I (g.rebindCell cell owner var)) :
    I (g.attempt ((g.bind t vars).map g.rebound)).graph := by
  refine attempt_keeps h fun g' hg => ?_
  obtain rfl | ⟨cell, owner, var, rfl⟩ := rebound_of_bind hg
  · exact h
  · exact hrebind cell owner var

/-- **Giving a name an overload**, also in vain. -/
theorem setOverload_keeps {I : Graph → Prop} (h : I g) {name : String} {f : FunctionType}
    (hset : ∀ overloads, I { g with overloads }) : I (g.attempt (g.setOverload name f)).graph := by
  refine attempt_keeps h fun g' hg => ?_
  obtain ⟨-, rfl⟩ := setOverload_eq_ok.1 hg
  exact hset _

end Graph

open TypeBounds.Graph

/-- **One call**, successful or not, keeps a graph well formed. -/
theorem Call.wellFormed_outcome (c : Call) {g : Graph} (h : g.WellFormed) :
    (c.outcome g).graph.WellFormed := by
  cases c with
  | addVariable name r => exact attempt_keeps h fun _ hg => h.addVariable hg
  | mint => exact h.of_sameEdges_of_names ⟨rfl, fun _ => rfl, fun _ => rfl⟩ rfl
  | bind t vars => exact bind_keeps h h.rebindCell
  | rebind cell owner var => exact h.rebindCell cell owner var
  | addLower id t => exact h.addBound .lower id t
  | addUpper id t => exact h.addBound .upper id t
  | addRef id r => exact h.addRef id r
  | fixVariable name => exact attempt_keeps h fun _ hg => h.fixVariable hg
  | fixParameter id => exact attempt_keeps h fun _ hg => h.fixParameter hg
  | merge old new => exact h.merge old new
  | generalize search params => exact h.generalize params
  | fork tag => exact h.fork tag
  | setOverload name f =>
    exact setOverload_keeps h fun _ => h.of_sameEdges_of_names ⟨rfl, fun _ => rfl, fun _ => rfl⟩ rfl

/-- **All calls** keep what each of them keeps. -/
theorem Graph.after_keeps {I : Graph → Prop} {K : Call → Prop}
    (hstep : ∀ c g, K c → I g → I (c.outcome g).graph) {g : Graph} (h : I g) {calls : List Call}
    (hcalls : ∀ c ∈ calls, K c) : I (g.after calls) := by
  unfold Graph.after
  induction calls generalizing g with
  | nil => exact h
  | cons c calls ih =>
    obtain ⟨hc, hcalls⟩ := List.forall_mem_cons.1 hcalls
    exact ih (hstep c g hc h) hcalls

theorem Graph.WellFormed.after {g : Graph} (h : g.WellFormed) (calls : List Call) :
    (g.after calls).WellFormed :=
  after_keeps (K := fun _ => True) (fun c _ _ h => c.wellFormed_outcome h) h fun _ _ => trivial

theorem Graph.WellFormed.empty (tag : Nat) (lattice : Lattice) (policy : Policy) :
    WellFormed { tag, lattice, policy } where
  ids_nodup := List.nodup_nil
  names_nodup := List.nodup_nil
  below_nodup _ := List.nodup_nil
  above_nodup _ := List.nodup_nil
  mirrored s t := ⟨fun h => (List.not_mem_nil h).elim, fun h => (List.not_mem_nil h).elim⟩
  denoted _ _ h := by cases h

/-! ## Calls along a relation -/

section

variable {search : Search} {R : Graph → Graph → Prop} {g : Graph}

theorem along_run {blame : Contradiction → Fault} {m : Infer Unit} (hm : Along R m { graph := g }) :
    R g (g.run blame m).graph := by
  rw [graph_run]
  exact hm

variable [IsPreorder Graph R]

theorem along_attempt {r : Except Misuse Graph} (hr : ∀ g', r = .ok g' → R g g') :
    R g (g.attempt r).graph := by
  cases r with
  | error m => exact refl_of R g
  | ok g' => exact hr g' rfl

theorem along_addBound (hspread : ∀ side id t s, Along R (spread side id t) s)
    (side : Side) (id : VarId) (t : Ty) : R g (g.addBound side id t).graph :=
  addBound_keeps (refl_of R g) fun _ => hspread side id t { graph := g }

theorem along_addRef (hspread : ∀ side id t s, Along R (spread side id t) s)
    (hself : ∀ id, R g (g.link id id)) (hlink : ∀ x y, R g (g.linkAcross x y)) (id : VarId)
    (r : Option Reference) : R g (g.addRef id r).graph :=
  addRef_keeps (refl_of R g) (fun _ => hspread .lower id _ { graph := g }) (fun _ => hself id)
    fun x _ _ =>
    along_addEdge (s := { graph := g }) hspread (hlink x id)

theorem along_merge (hmerge : ∀ old new s, Along R (mergeInto old new) s) (old new : VarId) :
    R g (g.merge old new).graph :=
  merge_keeps (refl_of R g) fun _ _ => hmerge old new { graph := g }

theorem along_generalize (hall : ∀ params s, Along R (generalizeAll search.find params) s)
    (params : List VarId) :
    R g (g.generalize search.find params).graph :=
  generalize_keeps (refl_of R g) (hall params { graph := g })

/-- **The steps of calls** go along the relation, all but the registration of a variable, minting,
and an edge from a variable to itself. -/
structure Steps (R : Graph → Graph → Prop) : Prop where
  spread : ∀ side id t s, Along R (spread side id t) s
  linkAcross : ∀ x y g, R g (g.linkAcross x y)
  cutOff : ∀ old new g, R g (g.cutOff old new)
  inheritFrozen : ∀ old new g, R g (Graph.inheritFrozen old new g)
  unregister : ∀ id g, R g (g.unregister id)
  settle : ∀ id g, R g (Graph.settle id g)
  detach : ∀ id g, R g (Graph.detach id g)
  pruneSelfEdges : ∀ g, R g g.pruneSelfEdges
  fixVariable : ∀ name g g', g.fixVariable name = .ok g' → R g g'
  fixParameter : ∀ id g g', g.fixParameter id = .ok g' → R g g'
  rebindCell : ∀ cell owner var g, R g (g.rebindCell cell owner var)
  fork : ∀ tag g, R g (g.fork tag)
  setOverload : ∀ overloads g, R g { g with overloads }

namespace Steps

theorem mergeInto (h : Steps R) (old new : VarId) (s : Progress) : Along R (mergeInto old new) s :=
  along_mergeInto h.spread (h.cutOff old new) (h.inheritFrozen old new) h.linkAcross
    (h.unregister old) s

theorem freeze (h : Steps R) (id : VarId) (s : Progress) : Along R (freeze id) s :=
  along_freeze h.spread (h.settle id) (h.detach id) s

/-- **One call**, successful or not. -/
theorem outcome (h : Steps R) (c : Call) (hmint : c = .mint → R g (c.outcome g).graph)
    (hadd : ∀ name r, c = .addVariable name r → R g (c.outcome g).graph)
    (href : ∀ id r, c = .addRef id r → R g (c.outcome g).graph) : R g (c.outcome g).graph := by
  cases c with
  | addVariable name r => exact hadd name r rfl
  | mint => exact hmint rfl
  | bind t vars =>
    exact bind_keeps (refl_of R g) fun cell owner var => h.rebindCell cell owner var g
  | rebind cell owner var => exact h.rebindCell cell owner var g
  | addLower id t => exact along_addBound h.spread .lower id t
  | addUpper id t => exact along_addBound h.spread .upper id t
  | addRef id r => exact href id r rfl
  | fixVariable name => exact along_attempt (h.fixVariable name g)
  | fixParameter id => exact along_attempt (h.fixParameter id g)
  | merge old new => exact along_merge h.mergeInto old new
  | generalize search params =>
    exact along_generalize (along_generalizeAll h.pruneSelfEdges h.mergeInto h.freeze) params
  | fork tag => exact h.fork tag g
  | setOverload name f =>
    exact setOverload_keeps (refl_of R g) fun overloads => h.setOverload overloads g

end Steps

end

/-! ## Names, conversions and the counter of ids -/

/-- The same names are in use, whatever they denote. -/
def SameNames (g g' : Graph) : Prop := g'.names.keys = g.names.keys

/-- The two graphs have the same types and conversions. -/
def SameLattice (g g' : Graph) : Prop := g'.lattice = g.lattice

/-- The same names and conversions, and as many ids minted. -/
structure SameSetting (g g' : Graph) : Prop where
  names : SameNames g g'
  lattice : SameLattice g g'
  minted : g'.minted = g.minted

instance : IsPreorder Graph SameSetting where
  refl _ := ⟨rfl, rfl, rfl⟩
  trans _ _ _ h h' := ⟨h'.names.trans h.names, h'.lattice.trans h.lattice, h'.minted.trans h.minted⟩

theorem SameFrame.sameSetting {g g' : Graph} (h : SameFrame g g') : SameSetting g g' :=
  ⟨congrArg Table.keys h.names, h.lattice, h.minted⟩

/-- **The setting stays** as it is, unless a call adds a variable or mints an id. -/
theorem steps_sameSetting : Steps SameSetting where
  spread side id t s := SameFrame.sameSetting (sameShape_spread side id t s).toSameFrame
  linkAcross _ _ _ := sameTypes_linkAcross.toSameFrame.sameSetting
  cutOff _ _ _ := ⟨(congrArg Table.keys sameFrame_cutOff.names).trans (Table.keys_mapValues ..),
    sameFrame_cutOff.lattice, sameFrame_cutOff.minted⟩
  inheritFrozen _ _ _ := by
    unfold Graph.inheritFrozen
    split <;> exact ⟨rfl, rfl, rfl⟩
  unregister _ _ := ⟨rfl, rfl, rfl⟩
  settle _ _ := ⟨rfl, rfl, rfl⟩
  detach id g := by
    have hsame : SameTypes g (g.isolate id) := sameTypes_isolate
    exact ⟨(Table.keys_mapValues ..).trans (congrArg Table.keys hsame.names),
      hsame.lattice, hsame.minted⟩
  pruneSelfEdges _ := ⟨rfl, rfl, rfl⟩
  fixVariable _ _ _ hg := by
    -- a name that has been added can be fixed, and is still there
    obtain ⟨r, hr, rfl⟩ := fixVariable_eq_ok.1 hg
    exact ⟨(Table.keys_insert ..).trans (if_pos (Table.mem_keys_of_get? hr)), rfl, rfl⟩
  fixParameter _ _ _ hg := by
    obtain ⟨-, rfl⟩ := fixParameter_eq_ok.1 hg
    exact ⟨Table.keys_mapValues .., rfl, rfl⟩
  rebindCell _ _ _ _ := ⟨rfl, rfl, rfl⟩
  fork _ _ := ⟨rfl, rfl, rfl⟩
  setOverload _ _ := ⟨rfl, rfl, rfl⟩

theorem sameSetting_addRef (id : VarId) (r : Option Reference) (g : Graph) :
    SameSetting g (g.addRef id r).graph :=
  along_addRef steps_sameSetting.spread (fun _ => sameTypes_link.toSameFrame.sameSetting)
    (fun x y => steps_sameSetting.linkAcross x y g) id r

/-- The names after one call. -/
theorem Call.names_outcome (c : Call) (g : Graph) :
    (c.outcome g).graph.names.keys = g.names.keys ++ (g.newName? c).toList := by
  by_cases hadd : ∃ name r, c = .addVariable name r
  · obtain ⟨name, r, rfl⟩ := hadd
    rw [Call.outcome, newName?]
    cases hg : g.addVariable name r with
    | error m => exact (List.append_nil _).symm
    | ok g' =>
      obtain ⟨r', -, hname, rfl⟩ := addVariable_eq_ok.1 hg
      exact (Table.keys_insert ..).trans (if_neg hname)
  · have hnone : g.newName? c = none := by
      unfold newName?
      split
      · exact absurd ⟨_, _, rfl⟩ hadd
      · rfl
    rw [hnone, Option.toList_none, List.append_nil]
    by_cases hmint : c = .mint
    · subst hmint
      rfl
    · refine (steps_sameSetting.outcome c (absurd · hmint)
        (fun name r hc => absurd ⟨name, r, hc⟩ hadd) ?_).names
      rintro id r rfl
      exact sameSetting_addRef id r g

theorem Graph.names_after (g : Graph) (calls : List Call) :
    (g.after calls).names.keys = g.names.keys ++ g.newNames calls := by
  induction calls generalizing g with
  | nil => exact (List.append_nil _).symm
  | cons c calls ih =>
    calc ((c.outcome g).graph.after calls).names.keys
        = (c.outcome g).graph.names.keys ++ (c.outcome g).graph.newNames calls := ih _
      _ = g.names.keys ++ (g.newName? c).toList ++ (c.outcome g).graph.newNames calls := by
        rw [c.names_outcome g]
      _ = g.names.keys ++ g.newNames (c :: calls) := List.append_assoc ..

/-- **The conversions stay** as they are, whatever is called. -/
theorem Call.sameLattice_outcome (c : Call) (g : Graph) : SameLattice g (c.outcome g).graph := by
  cases c with
  | addVariable name r =>
    refine attempt_keeps (I := SameLattice g) rfl fun g' hg => ?_
    obtain ⟨r', -, -, rfl⟩ := addVariable_eq_ok.1 hg
    rfl
  | mint => rfl
  | addRef id r => exact (sameSetting_addRef id r g).lattice
  | _ =>
    exact (steps_sameSetting.outcome _ (by rintro ⟨⟩) (by rintro _ _ ⟨⟩) (by rintro _ _ ⟨⟩)).lattice

theorem Graph.lattice_after (g : Graph) (calls : List Call) :
    (g.after calls).lattice = g.lattice := by
  induction calls generalizing g with
  | nil => rfl
  | cons c calls ih => exact (ih _).trans (c.sameLattice_outcome g)

/-! ## The structure of every graph -/

/-- One look-up leads to another: from a variable to its neighbours. -/
def Graph.Leads (g : Graph) (x y : VarId) : Prop :=
  y ∈ (g.boundsOf x).below ∨ y ∈ (g.boundsOf x).above

/-- **No look-up misses.** Whatever is met on the way from a registered variable has a record. -/
theorem Graph.WellFormed.exists_of_leads {g : Graph} (h : g.WellFormed) {x y : VarId}
    (hx : x ∈ g.ids) (hxy : ReflTransGen g.Leads x y) : ∃ b, g.bounds.get? y = some b := by
  refine Table.exists_get? (?_ : y ∈ g.ids)
  induction hxy with
  | refl => exact hx
  | tail _ hstep _ =>
    rcases hstep with hstep | hstep
    · exact h.mem_ids_of_mem_below hstep
    · exact h.mem_ids_of_mem_above hstep

/-- **The structure of a graph in use**, after any calls whatsoever, failed ones included: edges are
the same seen from both ends, they and the names lead to registered variables, and every name that
was added is listed once, in order. So no look-up that starts at a name or a registered variable and
follows edges can miss. -/
theorem edges_and_names_of_after (tag : Nat) (lattice : Lattice) (policy : Policy)
    (calls : List Call) :
    let g₀ : Graph := { tag, lattice, policy }
    let g := g₀.after calls
    (∀ s t, s ∈ (g.boundsOf t).below ↔ t ∈ (g.boundsOf s).above) ∧
    (∀ x y, g.Leads x y → g.hasTypeVariable x ∧ g.hasTypeVariable y) ∧
    (∀ name r, g.names.get? name = some r → g.hasTypeVariable r.id) ∧
    (g.names.keys = g₀.newNames calls ∧ g.names.keys.Nodup) ∧
    (∀ x y, (g.hasTypeVariable x ∨ ∃ name r, g.names.get? name = some r ∧ r.id = x) →
      ReflTransGen g.Leads x y → ∃ b, g.bounds.get? y = some b) := by
  intro g₀ g
  have hwf : g.WellFormed := (WellFormed.empty tag lattice policy).after calls
  refine ⟨hwf.mirrored, fun x y hxy => ?_, fun name r hr => ?_, ⟨?_, hwf.names_nodup⟩,
    fun x y hx hxy => hwf.exists_of_leads ?_ hxy⟩
  · rw [← Graph.mem_ids, ← Graph.mem_ids]
    rcases hxy with hxy | hxy
    · exact ⟨mem_ids_of_mem_below_of hxy, hwf.mem_ids_of_mem_below hxy⟩
    · exact ⟨mem_ids_of_mem_above_of hxy, hwf.mem_ids_of_mem_above hxy⟩
  · exact Graph.mem_ids.1 (hwf.denoted name r hr)
  · exact g₀.names_after calls
  · rcases hx with hx | ⟨name, r, hr, rfl⟩
    · exact Graph.mem_ids.2 hx
    · exact hwf.denoted name r hr

end TypeBounds
