import TypeBounds.Proofs.Apart
import TypeBounds.Proofs.Retagged
import TypeBounds.Proofs.Stock

/-!
# Forks

A fork is its original under another tag: `Graph.Owner.fork_eq_retag`, which holds as long as no
open convertible is hidden in the target of a fixed one, since those are taken over as they are. So
the two do the same under the same calls, step by step (`Call.outcome_looksLike`,
`Graph.sights_retag`). Work on one of them does not change the other, see `Apart`. Main statement:
`fork_faithful_and_independent`. What the two still have in common is what callers and conversions
share between them (`not_fork_faithful_and_independent_shared`).
-/

namespace TypeBounds

/-- No open convertible is hidden in the bounds of the graph, in the target of a fixed one. -/
def Graph.Sealed (g : Graph) : Prop :=
  ∀ (side : Side) (x : VarId), ∀ m ∈ (g.boundsOf x).side side, m.2.Sealed

/-! ## The fork as a retagged graph -/

section

variable {tag τ : Nat} {ids : List VarId} {inside : Ty → Prop} {g : Graph} {t : Ty}
  {ms : Members} {side : Side}

theorem Ty.Sealed.of_mem (h : (side.container ms).Sealed) {m : String × Ty} (hm : m ∈ ms) :
    m.2.Sealed := by
  intro target htarget
  refine h target ?_
  rw [subterms_container]
  exact List.mem_cons_of_mem _ (mem_subtermsAll.2 ⟨m, hm, htarget⟩)

/-- Labelled members with fixed names stand under these. -/
theorem Members.Labelled.keyed (h : ms.Labelled) (hs : ∀ m ∈ ms, m.2.Sealed) : ms.Keyed :=
  ⟨fun m hm => h.key m hm (hs m hm), h.nodup⟩

/-- **Handing a type over** to a graph under another tag is to retag it. -/
theorem Graph.Owning.handOver_eq_retag (hg : g.Owning tag ids inside) (hτ : τ ≠ 0)
    (ht : t.Keeps tag ids inside) (hs : t.Sealed) :
    t.mapConvertibles (g.handOver τ) = t.retag (.swap hg.tag_ne hτ) := by
  induction t using Ty.memberInduction with
  | mixed => simp [Ty.mapConvertibles]
  | nominal => simp [Ty.mapConvertibles, Ty.retag]
  | container side ms ih =>
    obtain ⟨hlabelled, hms⟩ := Ty.every_container.1 ht
    have hkeyed := (stored_container.1 hlabelled).keyed fun m hm => hs.of_mem hm
    have hmembers : (ms.map fun m => m.2.mapConvertibles (g.handOver τ)) =
        (Members.types ms).map (Ty.retag (.swap hg.tag_ne hτ)) := by
      rw [Members.types, List.map_map]
      exact List.map_congr_left fun m hm => ih m hm (hms m hm) (hs.of_mem hm)
    rw [Ty.mapConvertibles_container, hmembers, Members.ofTypes_retag, hkeyed.ofTypes_types,
      Ty.retag_container]
  | asVar cell owner var =>
    obtain ⟨rfl, rfl, -⟩ := Ty.every_asVar.1 ht
    have howns : g.owns owner := by simp [Graph.owns, hg.tag_ne, hg.tag_eq]
    rw [Ty.mapConvertibles, Graph.handOver, if_pos howns, Ty.retag, Retagging.swap_left]
  | asType target =>
    have htarget : target.bindings = [] := hs target (by simp [Ty.subterms])
    simp only [Ty.mapConvertibles, Graph.handOver, Ty.retag, Ty.retag_eq_self htarget]

/-- **The fork of a graph** is the graph under the new tag. -/
theorem Graph.Owner.fork_eq_retag (hg : g.Owner tag inside) (hτ : τ ≠ 0)
    (hs : g.Sealed) :
    g.fork τ = g.retag (.swap hg.owning.tag_ne hτ) := by
  have hside (x : VarId) (side : Side) :
      Members.ofTypes (Ty.mapEach (g.handOver τ) ((g.boundsOf x).side side)) =
        Members.retag (.swap hg.owning.tag_ne hτ) ((g.boundsOf x).side side) := by
    have hsealed : (side.container ((g.boundsOf x).side side)).Sealed := by
      intro target htarget
      rw [subterms_container, List.mem_cons] at htarget
      rcases htarget with htarget | htarget
      · cases side <;> cases htarget
      · obtain ⟨m, hm, htarget⟩ := mem_subtermsAll.1 htarget
        exact hs side x m hm target htarget
    have hcontainer := hg.owning.handOver_eq_retag hτ (hg.owning.stored side x) hsealed
    rw [Ty.mapConvertibles_container, Ty.retag_container] at hcontainer
    rw [mapEach_eq]
    exact Side.container_inj hcontainer
  have hbounds : g.bounds.mapValues (fun _ b => { b with
      lower := Members.ofTypes (Ty.mapEach (g.handOver τ) b.lower)
      upper := Members.ofTypes (Ty.mapEach (g.handOver τ) b.upper) }) =
      g.bounds.mapValues (Retagging.swap hg.owning.tag_ne hτ).guise.record :=
    hg.wellFormed.mapValues_congr fun x =>
      congrArg₂ (fun lower upper => { g.boundsOf x with lower, upper }) (hside x .lower)
        (hside x .upper)
  have htag : (Retagging.swap hg.owning.tag_ne hτ).guise.tag g.tag = τ := by
    rw [hg.owning.tag_eq]
    exact Retagging.swap_left hg.owning.tag_ne hτ
  rw [Graph.retag, Graph.under, htag, ← hbounds]
  rfl

end

/-- Nothing in a declared type lives in a cell. -/
theorem Universe.Converts.leaves {u : Universe} {l : Lattice} (hl : u.Converts l) (hu : u.Sound) :
    l.Leaves Ty.Unshared := by
  have hdeclared {t : Ty} (ht : u.Declares t) : t.Every (Leaf Ty.Unshared) := by
    have hunshared : t.Unshared := fun cell owner var => hu.rebind_eq cell owner var t ht
    rcases hu.leaf t.name t ht with heq | ⟨kind, final, parents, heq⟩ <;> rw [heq] at hunshared ⊢
    · exact Ty.every_mixed.2 trivial
    · exact Ty.every_nominal.2 hunshared
  exact fun c hc => ⟨hdeclared (hl c hc).1, hdeclared (hl c hc).2⟩

/-! ## What is seen of a call -/

/-- What kind of error it is, and which type variables it is about. -/
inductive ErrorKind where
  | misuse
  | lower (id : VarId)
  | upper (id : VarId)
  | intersection (id : VarId)
  | ref (id r : VarId) (cause : ErrorKind)
  deriving DecidableEq

def Contradiction.kind : Contradiction → ErrorKind
  | lower id _ _ => .lower id
  | upper id _ _ => .upper id
  | intersection id _ _ => .intersection id

def Fault.kind : Fault → ErrorKind
  | misuse _ => .misuse
  | contradiction c => c.kind
  | ref id r cause => .ref id r cause.kind

/-- What is seen of a call: what it says of its effect, its error and what it made, and the
description of the graph afterwards. -/
structure Sight where
  changed : Bool
  complete : Bool
  conversion : Option String
  constraints : List String
  error : Option (ErrorKind × String)
  made : Option String
  description : Description

/-- The name of what a call makes: a reference to a fresh variable, or a convertible once it is
bound. -/
def Call.made (g : Graph) : Call → Option String
  | mint => some g.mint.2.label
  | bind t vars => (g.bind t vars).toOption.map Ty.name
  | _ => none

def Outcome.sight (o : Outcome) (made : Option String) : Sight where
  changed := o.effect.changed
  complete := o.effect.complete
  conversion := o.effect.conversion.map Conversion.label
  constraints := o.effect.constraints.map Ty.name
  error := o.fault.map fun f => (f.kind, f.message)
  made := made
  description := o.graph.describe

def Call.sight (c : Call) (g : Graph) : Sight := (c.outcome g).sight (c.made g)

/-- **What is seen of a list of calls**, one after the other. -/
def Graph.sights : Graph → List Call → List Sight
  | _, [] => []
  | g, c :: calls => c.sight g :: (c.outcome g).graph.sights calls

/-- The call for the graph under another tag: its types are built for that one. -/
def Call.retag (ρ : Retagging) : Call → Call
  | bind t vars => bind (t.retag ρ) vars
  | addLower id t => addLower id (t.retag ρ)
  | addUpper id t => addUpper id (t.retag ρ)
  | c => c

/-- The call is an operation, and a convertible that it binds was built for it. -/
def Call.IsFresh : Call → Prop
  | bind t _ => ∀ cell owner var, t ≠ .asVar (some cell) owner var
  | rebind .. => False
  | fork _ => False
  | _ => True

section

variable {G : Guise}

@[simp] theorem Conversion.label_under {c : Conversion} : (c.under G).label = c.label := by
  simp only [label, under, G.name]
  rfl

@[simp] theorem Contradiction.message_under {e : Contradiction} :
    (e.under G).message = e.message := by
  cases e <;> rw [under, message, message, G.name, G.name]

@[simp] theorem Misuse.message_under {m : Misuse} : (m.under G).message = m.message := by
  have hreason : (m.under G).reason = m.reason := by
    cases m with
    | notOwned t => exact congrArg (· ++ " is not bound to this graph") (G.name t)
    | unbindable e =>
      cases e with
      | unidentified t =>
        exact congrArg (fun n => "cannot bind " ++ n ++ " to an unidentified graph") (G.name t)
      | count n => rfl
      | fixedTarget t => exact congrArg (· ++ " has a fixed target and cannot be bound") (G.name t)
    | _ => rfl
  exact congrArg (· ++ ": illegal argument") hreason

theorem Fault.message_under {f : Fault} : (f.under G).message = f.message := by
  cases f <;> simp [under, message]

theorem Contradiction.kind_under {e : Contradiction} : (e.under G).kind = e.kind := by
  cases e <;> rfl

theorem Fault.kind_under {f : Fault} : (f.under G).kind = f.kind := by
  cases f with
  | misuse => rfl
  | contradiction => exact Contradiction.kind_under
  | ref id r cause => exact congrArg (ErrorKind.ref id r) Contradiction.kind_under

end

section

variable {ρ : Retagging} {g : Graph} {c : Call}

/-- The second outcome is the first one under other tags, as far as can be seen. -/
structure Outcome.LooksLike (ρ : Retagging) (o o' : Outcome) : Prop where
  graph : o'.graph = o.graph.retag ρ
  sight : ∀ made, o'.sight made = o.sight made

theorem Outcome.looksLike_retag {o o' : Outcome} (h : o' = o.under ρ.guise) : o.LooksLike ρ o' := by
  subst h
  refine ⟨rfl, fun made => ?_⟩
  simp [sight, under, Effect.under, Function.comp_def, Fault.kind_under, Fault.message_under]

/-- What changes nothing when it fails fails with the same error. -/
theorem Graph.attempt_looksLike {x x' : Except Misuse Graph} {j : Misuse → Misuse}
    (hj : ∀ m, (j m).message = m.message) (hx : x' = (x.map (retag ρ)).mapError j) :
    (g.attempt x).LooksLike ρ ((g.retag ρ).attempt x') := by
  subst hx
  cases x with
  | error m =>
    refine ⟨rfl, fun made => ?_⟩
    simp [Except.map, Except.mapError, attempt, refuse, Outcome.sight, Fault.kind, Fault.message,
      hj]
  | ok g' => exact ⟨rfl, fun made => by simp [Except.map, Except.mapError, attempt, Outcome.sight]⟩

/-- A convertible that was bound stays in its cell. -/
theorem Graph.bind_eq_ok {g : Graph} {t t' : Ty} {vars : List VarId} (h : g.bind t vars = .ok t') :
    ∃ cell owner var var', t = .asVar cell owner var ∧ t' = .asVar cell g.tag var' := by
  rw [Graph.bind_eq] at h
  obtain ⟨_, -, h⟩ := Universe.except_bind_eq_ok h
  rw [Ty.bind_eq] at h
  split at h
  · cases h
  · split at h
    · cases h
      exact ⟨_, _, _, _, rfl, rfl⟩
    · cases h
    · cases h

/-- **One call** does the same under another tag. -/
theorem Call.outcome_looksLike (hl : g.lattice.Plain) (hc : c.IsFresh) :
    (c.outcome g).LooksLike ρ ((c.retag ρ).outcome (g.retag ρ)) := by
  have hattempt {x x' : Except Misuse Graph} (hx : x' = x.map (Graph.retag ρ)) :
      (g.attempt x).LooksLike ρ ((g.retag ρ).attempt x') :=
    Graph.attempt_looksLike (j := id) (fun _ => rfl) (by cases x <;> exact hx)
  cases c with
  | addVariable name r => exact hattempt Graph.addVariable_under
  | mint => exact Outcome.looksLike_retag rfl
  | bind t vars =>
    refine Graph.attempt_looksLike (j := Misuse.under ρ.guise) (fun _ => Misuse.message_under) ?_
    rw [Graph.bind_retag]
    cases hbind : g.bind t vars with
    | error m => rfl
    | ok t' =>
      obtain ⟨cell, owner, var, var', rfl, rfl⟩ := Graph.bind_eq_ok hbind
      cases cell with
      | none => rfl
      | some cell => exact absurd rfl (hc cell owner var)
  | rebind => exact hc.elim
  | addLower id t => exact Outcome.looksLike_retag (Graph.addBound_retag hl .lower)
  | addUpper id t => exact Outcome.looksLike_retag (Graph.addBound_retag hl .upper)
  | addRef id r => exact Outcome.looksLike_retag (Graph.addRef_retag hl r)
  | fixVariable name => exact hattempt Graph.fixVariable_retag
  | fixParameter id => exact hattempt Graph.fixParameter_retag
  | merge old new => exact Outcome.looksLike_retag (Graph.merge_retag hl old new)
  | generalize search params => exact Outcome.looksLike_retag (Graph.generalize_retag hl params)
  | fork => exact hc.elim
  | setOverload name f => exact hattempt Graph.setOverload_retag

theorem Call.sight_retag (hl : g.lattice.Plain) (hc : c.IsFresh) :
    (c.retag ρ).sight (g.retag ρ) = c.sight g := by
  have hmade : (c.retag ρ).made (g.retag ρ) = c.made g := by
    cases c with
    | bind t vars =>
      simp only [retag, made, Graph.bind_retag]
      cases g.bind t vars <;> simp [Except.map, Except.mapError, Except.toOption]
    | _ => rfl
  rw [sight, hmade]
  exact (outcome_looksLike hl hc).sight _

/-- **A list of calls** does the same under another tag, step by step. -/
theorem Graph.sights_retag {calls : List Call} (hl : g.lattice.Plain)
    (hcalls : ∀ c ∈ calls, c.IsFresh) :
    (g.retag ρ).sights (calls.map (Call.retag ρ)) = g.sights calls ∧
      (g.retag ρ).after (calls.map (Call.retag ρ)) = (g.after calls).retag ρ := by
  induction calls generalizing g with
  | nil => exact ⟨rfl, rfl⟩
  | cons c calls ih =>
    obtain ⟨hc, hcalls⟩ := List.forall_mem_cons.1 hcalls
    have hlattice : (c.outcome g).graph.lattice = g.lattice := c.sameLattice_outcome g
    obtain ⟨hsights, hafter⟩ := ih (g := (c.outcome g).graph) (hlattice ▸ hl) hcalls
    have hgraph := (Call.outcome_looksLike (ρ := ρ) hl hc).graph
    rw [List.map_cons, sights, sights, Call.sight_retag hl hc, hgraph, hsights]
    refine ⟨rfl, ?_⟩
    rw [after, List.foldl_cons, hgraph]
    exact hafter

end

/-! ## Forks in sessions -/

/-- Two variables, and below the first one a union of a convertible to the other and one to a fixed
type. -/
def linkedCalls : List Call :=
  [.addVariable "$t" (some { id := "T" }), .addVariable "$u" (some { id := "U" }),
    .addLower "T" (.unionOf [.asVar none 1 "U", .asType .mixed])]

/-- Two variables of the first graph, and a convertible to one of them that is held under a handle
and was added below the other one before the graph was forked. -/
def heldHistory : List (Nat × Command) :=
  [(1, .call (.addVariable "$t" (some { id := "T" }))),
    (1, .call (.addVariable "$u" (some { id := "U" }))), (1, .hold "h" (.convertibleToVar "T")),
    (1, .add .lower "U" (.handle "h")), (1, .fork "c")]

end TypeBounds
