import TypeBounds.Proofs.Bare
import TypeBounds.Proofs.Consistency
import TypeBounds.Proofs.Growth

/-!
# What bounds are stocked with

Much of what is true of bounds does not rest on the names of types. Types without convertibles are
compared in the same way in every graph, whether their names tell them apart or not, and an
insertion takes out what it takes out by what the graph itself says. So an invariant of graphs whose
bounds hold types of one kind needs a proof for the two insertions only:

* `Stocks`: the kinds of members that bounds may be stocked with;
* `Graph.Stocked`: declared conversions, and bounds that are keyed and hold members of the kind;
* `Upholds`: what an invariant of stocked graphs has to survive. Then calls that build a graph up or
  merge variables keep it, **failed or not** (`Upholds.outcome`, `Upholds.after`).
-/

namespace TypeBounds

open Infer

theorem ConvertibleFree.bare {u : Universe} (hu : u.Sound) {t : Ty} (ht : ConvertibleFree u t) :
    t.Bare :=
  fun _ hs => (ht.of_mem_subterms hu hs).isConvertible_eq hu

theorem Universe.Declares.bare {u : Universe} {t : Ty} (ht : u.Declares t) (hu : u.Sound) :
    t.Bare :=
  (ConvertibleFree.declared ht).bare hu

theorem Universe.Converts.plain {u : Universe} {l : Lattice} (hl : u.Converts l) (hu : u.Sound) :
    l.Plain :=
  fun c hc => ⟨Ty.bare_iff.1 ((hl c hc).1.bare hu), Ty.bare_iff.1 ((hl c hc).2.bare hu)⟩

/-- **Kinds of members.** All declared types may be members, but neither convertibles nor what a
bound would take apart. -/
structure Stocks (u : Universe) (P : Side → Ty → Prop) : Prop where
  sound : u.Sound
  settled : ∀ side t, P side t → Settled u side t
  declared : ∀ side t, u.Declares t → P side t

theorem stocks_settled {u : Universe} (hu : u.Sound) : Stocks u (Settled u) where
  sound := hu
  settled _ _ h := h
  declared side _ ht := ⟨.declared ht, hu.ne_container ht side⟩

theorem stocks_named {u : Universe} (hu : u.Sound) : Stocks u (Named u) where
  sound := hu
  settled side _ ht := ⟨.declared ht, hu.ne_container ht side⟩
  declared _ _ ht := ht

/-- What a bound takes the type apart into is of the kind. -/
def PartsOf (P : Side → Ty → Prop) (side : Side) (t : Ty) : Prop := ∀ p ∈ side.parts t, P side p

section

variable {u : Universe} {P : Side → Ty → Prop} {side : Side} {m t : Ty}

theorem Stocks.convertibleFree (hP : Stocks u P) (ht : P side t) : ConvertibleFree u t :=
  (hP.settled side t ht).convertibleFree

theorem Stocks.bare (hP : Stocks u P) (ht : P side t) : t.Bare :=
  (hP.convertibleFree ht).bare hP.sound

theorem Stocks.partsOf_declared (hP : Stocks u P) (ht : u.Declares t) (side : Side) :
    PartsOf P side t := by
  intro p hp
  rw [Side.parts_declared hP.sound ht, List.mem_singleton] at hp
  exact hp ▸ hP.declared side t ht

end

namespace Graph

variable {u : Universe} {P : Side → Ty → Prop} {g g' : Graph} {side side' : Side}
  {id x : VarId} {m t : Ty}

/-- Conversions are between declared types, and all members of bounds are as `P` says. -/
structure Stocked (u : Universe) (P : Side → Ty → Prop) (g : Graph) : Prop where
  converts : u.Converts g.lattice
  tidy : g.Tidy P

theorem Stocked.of_sides (h : g.Stocked u P) (hlattice : g'.lattice = g.lattice)
    (hsides : ∀ side x, (g'.boundsOf x).side side = (g.boundsOf x).side side) : g'.Stocked u P :=
  ⟨hlattice ▸ h.converts, h.tidy.of_sides hsides⟩

theorem Stocked.empty (tag : Nat) {lattice : Lattice} (policy : Policy) (hl : u.Converts lattice) :
    Stocked u P { tag, lattice, policy } where
  converts := hl
  tidy := .empty ..

/-- Members are dropped one after the other, but the answers do not depend on what was dropped. -/
theorem insertLower_eq_of_bare (hbare : ∀ e ∈ g.has .lower id, e.Bare) (hm : m.Bare)
    (hcopy : m.copy = m) : g.insertLower id m = g.inserted .lower id m := by
  have hsame : ∀ g' : Graph, ∀ e ∈ g.has .lower id, g'.isSubtype e m = g.isSubtype e m :=
    fun g' e he =>
    isSubtype_eq (hbare e he) hm
  have hfold : (Members.types (g.boundsOf id).lower).foldl (dropCovered id m) g = _ :=
    foldl_dropCovered hsame
  rw [Graph.insertLower_eq, hfold, update_update, hcopy]
  rfl

theorem Stocked.insertLower_eq (hP : Stocks u P) (h : g.Stocked u P) (hm : P .lower m) :
    g.insertLower id m = g.inserted .lower id m :=
  insertLower_eq_of_bare (fun e he => hP.bare (h.tidy.admissible .lower id e he)) (hP.bare hm)
    ((hP.convertibleFree hm).copy_eq hP.sound)

theorem Stocked.mem_inserted (h : g.Stocked u P) (hid : id ∈ g.ids) :
    t ∈ (g.inserted side id m).has side id ↔ t ∈ g.has side id ∧ ¬g.supersedes side m t ∨ t = m :=
  (has_inserted (h.tidy.keyed side id) hid).2 t

/-- What a bound holds after an insertion, wherever that was: what it held before and the new member
does not supersede, and the new member. -/
theorem Tidy.mem_or_eq (h : g.Tidy P) (ht : t ∈ (g.inserted side id m).has side' x) :
    t ∈ g.has side' x ∧ (side' = side → x = id → ¬g.supersedes side m t) ∨ side' = side ∧
      x = id ∧ t = m := by
  by_cases hid : id ∈ g.ids
  · by_cases hx : side' = side ∧ x = id
    · obtain ⟨rfl, rfl⟩ := hx
      rcases ((has_inserted (h.keyed side' x) hid).2 t).1 ht with ⟨ht, hsup⟩ | rfl
      · exact .inl ⟨ht, fun _ _ => hsup⟩
      · exact .inr ⟨rfl, rfl, rfl⟩
    · rw [has_inserted_ne (not_and_or.1 hx)] at ht
      exact .inl ⟨ht, fun hside hxid => absurd ⟨hside, hxid⟩ hx⟩
  · rw [has, boundsOf_inserted_of_not_mem hid] at ht
    refine .inl ⟨ht, fun _ hx => ?_⟩
    rw [hx, boundsOf_of_not_mem hid] at ht
    cases side' <;> cases ht

theorem Stocked.mem_or_eq (h : g.Stocked u P) (ht : t ∈ (g.inserted side id m).has side' x) :
    t ∈ g.has side' x ∧ (side' = side → x = id → ¬g.supersedes side m t) ∨ side' = side ∧
      x = id ∧ t = m :=
  h.tidy.mem_or_eq ht

/-- What a bound held, it holds after an insertion as well, unless the new member supersedes it. -/
theorem Stocked.mem_or_supersedes (h : g.Stocked u P) (ht : t ∈ g.has side' x)
    (side : Side) (id : VarId) (m : Ty) :
    t ∈ (g.inserted side id m).has side' x ∨
      side' = side ∧ g.supersedes side m t ∧ m ∈ (g.inserted side id m).has side' x := by
  by_cases hid : id ∈ g.ids
  · by_cases hx : side' = side ∧ x = id
    · obtain ⟨rfl, rfl⟩ := hx
      by_cases hsup : g.supersedes side' m t
      · exact .inr ⟨rfl, hsup, (h.mem_inserted hid).2 (.inr rfl)⟩
      · exact .inl ((h.mem_inserted hid).2 (.inl ⟨ht, hsup⟩))
    · rw [has_inserted_ne (not_and_or.1 hx)]
      exact .inl ht
  · rw [has, boundsOf_inserted_of_not_mem hid]
    exact .inl ht

/-- **An insertion** of a member of the kind. -/
theorem Tidy.insert (h : g.Tidy P) (hm : P side m) (id : VarId) :
    (g.inserted side id m).Tidy P := by
  refine ⟨fun side' x => ?_, fun side' x t ht => ?_⟩
  · by_cases hx : side' = side ∧ x = id ∧ id ∈ g.ids
    · obtain ⟨rfl, rfl, hid⟩ := hx
      exact (has_inserted (h.keyed side' x) hid).1
    · have hsame : ((g.inserted side id m).boundsOf x).side side' = (g.boundsOf x).side side' := by
        by_cases hid : id ∈ g.ids
        · exact side_boundsOf_inserted (by tauto)
        · rw [boundsOf_inserted_of_not_mem hid]
      rw [hsame]
      exact h.keyed side' x
  · rcases h.mem_or_eq ht with ⟨ht, -⟩ | ⟨rfl, -, rfl⟩
    · exact h.admissible side' x t ht
    · exact hm

theorem Stocked.inserted (h : g.Stocked u P) (hm : P side m) (id : VarId) :
    (g.inserted side id m).Stocked u P := by
  have hshape : SameShape g (g.inserted side id m) := sameShape_inserted
  exact ⟨hshape.lattice ▸ h.converts, h.tidy.insert hm id⟩

/-- A bound that is handed on is taken apart into its members again. -/
theorem Stocked.partsOf (hP : Stocks u P) (h : g.Stocked u P) (side : Side) (x : VarId) :
    PartsOf P side (side.container ((g.boundsOf x).side side)).copy := by
  have hmember : ∀ t ∈ Members.types ((g.boundsOf x).side side), P side t :=
    h.tidy.admissible side x
  have hkeyed := h.tidy.keyed side x
  have hcf : ConvertibleFree u (side.container ((g.boundsOf x).side side)) := by
    refine .container side hkeyed.key hkeyed.nodup fun m hm => ?_
    exact hP.convertibleFree (hmember m.2 (Members.mem_types.2 ⟨m, hm, rfl⟩))
  rw [PartsOf, hcf.copy_eq hP.sound,
    Side.parts_container fun t ht => (hP.settled side t (hmember t ht)).ne_container]
  exact hmember

theorem Stocked.bare (hP : Stocks u P) (h : g.Stocked u P) : g.Bare where
  plain := h.converts.plain hP.sound
  stored side x m hm := hP.bare (h.tidy.admissible side x m.2 (Members.mem_types.2 ⟨m, hm, rfl⟩))

end Graph

/-! ## Invariants of stocked graphs -/

/-- A call that builds a graph up, with types as `T` says, or merges two variables. -/
def Call.BuildsOrMerges (T : Ty → Prop) (c : Call) : Prop :=
  c.Builds T ∨ ∃ old new, c = merge old new

/-- **An invariant of stocked graphs** that looks at bounds only, survives the two insertions and
does not mind that variables go. -/
structure Upholds (u : Universe) (P : Side → Ty → Prop) (I : Graph → Prop) : Prop where
  stocks : Stocks u P
  stocked : ∀ g, I g → g.Stocked u P
  insertLower : ∀ m, P .lower m → ∀ depth id s s', I s.graph → ¬s.graph.lowerAbsorbs id m →
    checkUpper (spreadWithin depth .upper) id m s = (.ok (), s') → I s'.graph →
    I (s'.graph.inserted .lower id m)
  insertUpper : ∀ m, P .upper m → ∀ id (g g' : Graph), I g → ¬g.upperAbsorbs id m →
    g.insertUpper id m = .ok g' → I g'
  sides : ∀ g g' : Graph, g'.lattice = g.lattice →
    (∀ side x, (g'.boundsOf x).side side = (g.boundsOf x).side side) → I g → I g'
  unregister : ∀ g x, I g → I (Graph.unregister g x)

namespace Upholds

open TypeBounds.Graph

variable {u : Universe} {P : Side → Ty → Prop} {I : Graph → Prop} {g : Graph} {T : Ty → Prop}

theorem handles (h : Upholds u P I) : Handles (PartsOf P) I where
  conversion g hI c hc _ := by
    have hdeclared := (h.stocked g hI).converts c hc
    exact ⟨h.stocks.partsOf_declared hdeclared.1 .lower,
      h.stocks.partsOf_declared hdeclared.2 .upper⟩
  insertLower t ht m hm depth id _ _ _ s s' hI habs hcheck hI' := by
    rw [(h.stocked _ hI').insertLower_eq h.stocks (ht m hm)]
    exact h.insertLower m (ht m hm) depth id s s' hI habs hcheck hI'
  insertUpper t ht m hm id _ _ _ s _ s' g' _ habs hcheck hg' hI' := by
    rw [(checkLower_passed hcheck).1] at hg' hI'
    exact h.insertUpper m (ht m hm) id s.graph g' hI' habs hg'

theorem handsOn (h : Upholds u P I) : HandsOn (PartsOf P) I where
  spread _ _ ht id s := h.handles.spread ht id s
  bound g hI := (h.stocked g hI).partsOf h.stocks
  same g g' hsame hI := h.sides g g' hsame.lattice hsame.sides hI
  unregister := h.unregister

theorem cutOff (h : Upholds u P I) (hI : I g) (old new : VarId) : I (g.cutOff old new) :=
  h.sides g _ sameFrame_cutOff.lattice (((h.stocked g hI).bare h.stocks).side_cutOff old new) hI

/-- **One call**, successful or not. -/
theorem outcome (h : Upholds u P I) (hI : I g) (hT : ∀ t, T t → ∀ side, PartsOf P side t) {c : Call}
    (hc : c.BuildsOrMerges T) : I (c.outcome g).graph := by
  rcases hc with hc | ⟨old, new, rfl⟩
  · cases c with
    | addVariable name r =>
      refine attempt_keeps hI fun g' hg => ?_
      obtain ⟨r', -, -, rfl⟩ := addVariable_eq_ok.1 hg
      exact h.sides g _ rfl (fun side x => congrArg (Bounds.side · side) boundsOf_register) hI
    | addLower id t => exact h.handsOn.addBound hI (hT t hc .lower) id
    | addUpper id t => exact h.handsOn.addBound hI (hT t hc .upper) id
    | addRef id r => exact h.handsOn.addRef hI id r
    | _ => exact hc.elim
  · exact h.handsOn.merge (fun _ old new hI => h.cutOff hI old new) hI old new

/-- **All calls**, one after the other. -/
theorem after (h : Upholds u P I) (hI : I g) (hT : ∀ t, T t → ∀ side, PartsOf P side t)
    {calls : List Call} (hcalls : ∀ c ∈ calls, c.BuildsOrMerges T) : I (g.after calls) :=
  Graph.after_keeps (I := I) (fun _ _ hc hI => h.outcome hI hT hc) hI hcalls

end Upholds

/-- To be stocked is such an invariant itself. -/
theorem Graph.upholds_stocked {u : Universe} {P : Side → Ty → Prop} (hP : Stocks u P) :
    Upholds u P (Stocked u P) where
  stocks := hP
  stocked _ h := h
  insertLower _ hm _ id _ _ _ _ _ h := h.inserted hm id
  insertUpper _ hm id _ _ h _ hg :=
    insertUpper_eq_inserted hP.sound (hP.convertibleFree hm) hg ▸ h.inserted hm id
  sides _ _ hlattice hsides h := h.of_sides hlattice hsides
  unregister _ x h := ⟨h.converts, h.tidy.unregister x⟩

end TypeBounds
