import TypeBounds.Graph.Description
import TypeBounds.Proofs.Tags

/-!
# Graphs under other tags

`Graph.retag` gives a graph and the owners of all its convertibles new tags. That is a guise
(`Retagging.guise`), and one under which all bounds can be seen. What can be seen of a graph does
not change: its questions have the same answers and its description is the same text.

A computation cannot tell which tags there are either (`Retagging.suits`): propagation, merging and
generalisation do the same on the retagged graph, step by step, and so do the operations
(`Graph.addBound_retag` and the following ones). The conversions of the graph have to be plain,
since a conversion keeps the tags it was declared with.
-/

namespace TypeBounds

open Infer

/-- **The guise of new tags.** -/
def Retagging.guise (ρ : Retagging) : Guise where
  type := Ty.retag ρ
  tag := ρ.tag
  policy policy := policy
  lower _ := Members.retag ρ
  upper _ := Members.retag ρ
  name _ := Ty.name_retag
  size _ := Ty.size_retag
  copy _ := Ty.copy_retag
  clashes a b := by simp [Graph.clashes]
  container _ _ := Ty.retag_container
  parts side t := by cases side <;> simp [Side.parts]
  lower_nil _ := rfl
  upper_nil _ := rfl

/-- **The graph under a new tag**, with new tags for all graphs that its convertibles are bound
to. -/
abbrev Graph.retag (ρ : Retagging) (g : Graph) : Graph := g.under ρ.guise

@[simp] theorem Retagging.guise_type {ρ : Retagging} {t : Ty} : ρ.guise.type t = t.retag ρ := rfl

/-- The record with new tags in its bounds. -/
def Bounds.retag (ρ : Retagging) (b : Bounds) : Bounds :=
  { b with lower := Members.retag ρ b.lower, upper := Members.retag ρ b.upper }

theorem Lattice.Plain.under_conversion {l : Lattice} (hl : l.Plain) {ρ : Retagging} {c : Conversion}
    (hc : c ∈ l.conversions) : c.under ρ.guise = c := by
  simp [Conversion.under, Retagging.guise, hl.retag_source hc, hl.retag_target hc]

namespace Bounds

variable {ρ : Retagging} {b : Bounds} {x : VarId}

@[simp] theorem record_guise : ρ.guise.record x b = b.retag ρ := rfl

@[simp] theorem lower_retag : (b.retag ρ).lower = Members.retag ρ b.lower := rfl

@[simp] theorem upper_retag : (b.retag ρ).upper = Members.retag ρ b.upper := rfl

@[simp] theorem below_retag : (b.retag ρ).below = b.below := rfl

@[simp] theorem above_retag : (b.retag ρ).above = b.above := rfl

@[simp] theorem lowerName_retag : (b.retag ρ).lowerName = b.lowerName := by simp [lowerName]

@[simp] theorem upperName_retag : (b.retag ρ).upperName = b.upperName := by simp [upperName]

@[simp] theorem size_retag : (b.retag ρ).size = b.size := by simp [size]

/-- A type where the record resolves to it, and no type where it resolves to a whole bound. -/
theorem resolution_retag : (b.retag ρ).resolution = match b.resolution with
    | .lowerBound => .lowerBound
    | .upperBound => .upperBound
    | .exactly t => .exactly (t.retag ρ) := by
  unfold resolution
  simp only [lower_retag, upper_retag]
  rcases b.lower with _ | ⟨_, _ | _⟩ <;> rcases b.upper with _ | ⟨_, _ | _⟩ <;> simp

@[simp] theorem resolved_retag : (b.retag ρ).resolved = b.resolved.retag ρ := by
  simp only [resolved, resolution_retag]
  cases b.resolution <;> simp [Resolution.type]

@[simp] theorem standsFor?_retag : (b.retag ρ).standsFor? = b.standsFor?.map (Ty.retag ρ) := by
  have hsettled (ms : Members) :
      Members.ofTypes ((Members.types (Members.retag ρ ms)).filter (!·.isConvertible)) =
        Members.retag ρ (Members.ofTypes ((Members.types ms).filter (!·.isConvertible))) := by
    rw [← Members.ofTypes_retag, Members.types_retag, List.filter_map]
    simp [Function.comp_def]
  simp only [standsFor?, lower_retag, upper_retag, hsettled]
  generalize Members.ofTypes ((Members.types b.lower).filter (!·.isConvertible)) = ls
  generalize Members.ofTypes ((Members.types b.upper).filter (!·.isConvertible)) = us
  rcases ls with _ | ⟨m, ls⟩
  · rcases us with _ | ⟨m, us⟩
    · rfl
    · exact congrArg some (Members.collapse_retag .upper)
  · exact congrArg some (Members.collapse_retag .lower)

@[simp] theorem setLower_retag {t : Ty} :
    (b.retag ρ).setLower (t.retag ρ) = (b.setLower t).retag ρ := by
  simp [setLower, retag]

@[simp] theorem setUpper_retag {t : Ty} :
    (b.retag ρ).setUpper (t.retag ρ) = (b.setUpper t).retag ρ := by
  simp [setUpper, retag]

@[simp] theorem completed_retag : (b.retag ρ).completed = b.completed.retag ρ := by
  unfold completed
  simp only [lower_retag, upper_retag]
  rcases b.lower with _ | _ <;> rcases b.upper with _ | _ <;> simp

@[simp] theorem defaulted_retag : (b.retag ρ).defaulted = b.defaulted.retag ρ := by
  unfold defaulted
  simp only [lower_retag, upper_retag, completed_retag]
  rcases b.lower with _ | _ <;> rcases b.upper with _ | _ <;>
    simp [retag, Members.ofTypes, Members.add, Members.holds]

@[simp] theorem settled_retag {policy : Policy} :
    (b.retag ρ).settled policy = (b.settled policy).retag ρ := by
  simp only [settled, lower_retag, upper_retag, Members.isEmpty_retag]
  cases b.lower.isEmpty <;> cases decide (policy = .overload) && b.upper.isEmpty <;> simp

end Bounds

namespace Graph

variable {ρ : Retagging} {g : Graph} {id : VarId} {a b t : Ty}

/-! ## Questions -/

@[simp] theorem owns_retag {owner : Nat} : (g.retag ρ).owns (ρ.tag owner) = g.owns owner := by
  simp [owns, under, Retagging.guise]

theorem resolver_retag : g.resolver.Retagged ρ (g.retag ρ).resolver where
  resolve owner var := by
    simp only [resolver, owns_retag, get?_bounds_under]
    split
    · cases g.bounds.get? var <;> simp
    · simp
  extent := by simp [resolver, under, Table.mapValues, List.foldr_map]

theorem isSubtype_retag (hl : g.lattice.Plain) :
    (g.retag ρ).isSubtype (a.retag ρ) (b.retag ρ) = g.isSubtype a b :=
  Lattice.isSubtype_retag hl resolver_retag a b

theorem implicit?_retag (hl : g.lattice.Plain) :
    (g.retag ρ).implicit? (a.retag ρ) (b.retag ρ) =
      (g.implicit? a b).map (Conversion.under ρ.guise) := by
  refine (Lattice.implicit?_retag hl resolver_retag a b).trans ?_
  rw [implicit?]
  cases h : g.lattice.implicit? g.resolver a b with
  | none => simp
  | some c => simp [hl.under_conversion (Lattice.mem_of_bridge? h)]

@[simp] theorem isSelf_retag : (g.retag ρ).isSelf id (t.retag ρ) = g.isSelf id t := by
  cases t <;> simp [Ty.retag, isSelf]

@[simp] theorem isUnresolved_retag : (g.retag ρ).isUnresolved (t.retag ρ) = g.isUnresolved t := by
  simp [isUnresolved, resolver_retag.target?]

@[simp] theorem pointsAt_retag {ms : Members} :
    (g.retag ρ).pointsAt (Members.retag ρ ms) id = g.pointsAt ms id := by
  simp [pointsAt, Ty.subtermsAll_retag fun _ _ => Ty.subterms_retag, Function.comp_def]

/-- **Descriptions** do not show tags. -/
@[simp] theorem describe_retag : (g.retag ρ).describe = g.describe := by
  have hstatus (id : VarId) : (g.retag ρ).status id = g.status id := by simp [status]
  have hnames : (g.retag ρ).names = g.names := rfl
  have hpolicy : (g.retag ρ).policy = g.policy := rfl
  simp [describe, hstatus, hnames, hpolicy]

theorem renameMembers_retag {holder old new : VarId} {ms : Members} :
    (g.retag ρ).renameMembers holder old new (Members.retag ρ ms) =
      Members.retag ρ (g.renameMembers holder old new ms) := by
  have hopen (s : Ty) :
      (g.retag ρ).renameOpen old new (s.retag ρ) = (g.renameOpen old new s).retag ρ := by
    cases s with
    | asVar cell owner var =>
      simp only [Ty.retag, renameOpen, owns_retag]
      split <;> simp [Ty.retag]
    | _ => simp [Ty.retag, renameOpen]
  simp only [renameMembers, pointsAt_retag]
  split
  · simp only [Ty.mapEach_retag hopen, Members.ofTypes_retag, Members.types_retag, List.filter_map,
      Function.comp_def, isSelf_retag]
    exact Members.eraseAll_under (G := ρ.guise) _
  · rfl

end Graph

/-! ## Computations -/

namespace Retagging

theorem recheckMember_mimics (ρ : Retagging) {x : VarId} {checkable : Members} {l : Ty} :
    Mimics ρ.guise (·.lattice.Plain) id (recheckMember x checkable l)
      (recheckMember x (Members.retag ρ checkable) (l.retag ρ)) := by
  refine Mimics.graph_bind fun g hl => ?_
  simp only [Graph.isUnresolved_retag, Ty.inter_retag, Graph.isSubtype_retag hl,
    Graph.implicit?_retag hl]
  split
  · exact Mimics.pure ()
  · rcases g.implicit? l (.inter checkable) with _ | c
    · simp only [Option.map_none, Graph.boundsOf_under, Bounds.record_guise, Bounds.upper_retag,
        Ty.inter_retag, Ty.copy_retag]
      exact Mimics.fail _
    · exact Mimics.noteConversion c

theorem recheck_mimics (ρ : Retagging) (x : VarId) :
    Mimics ρ.guise (·.lattice.Plain) id (recheck x) (recheck x) := by
  refine Mimics.graph_bind fun g hl => ?_
  have hcheckable (y : VarId) :
      (g.retag ρ).checkableUpper y = Members.retag ρ (g.checkableUpper y) := by
    simp [Graph.checkableUpper, ← Members.ofTypes_retag, List.filter_map, Function.comp_def]
  rw [Graph.typeVariables_under]
  refine Mimics.forM_same fun y _ => ?_
  simp only [Graph.boundsOf_under, Bounds.record_guise, Bounds.lower_retag, Bounds.upper_retag,
    Graph.pointsAt_retag, hcheckable, Members.isEmpty_retag, Members.types_retag]
  split
  · exact Mimics.forM fun l _ => ρ.recheckMember_mimics
  · exact Mimics.pure ()

/-- **New tags suit propagation and merging** in a graph with plain conversions. -/
theorem suits (ρ : Retagging) :
    ρ.guise.SuitsMerging (fun _ => True) (fun _ => True) (·.lattice.Plain) where
  lower _ := rfl
  upper _ := rfl
  isSelf _ _ _ := Graph.isSelf_retag
  isUnresolved _ _ := Graph.isUnresolved_retag
  isSubtype hl hlattice _ _ := Graph.isSubtype_retag (hlattice.symm ▸ hl)
  implicit? hl _ _ := Graph.implicit?_retag hl
  parts _ _ _ := trivial
  container _ _ _ := trivial
  copy _ := trivial
  stored _ _ _ _ _ := trivial
  conversion _ _ := ⟨trivial, trivial⟩
  insertLower {_ _ m} hl _ _ := (Graph.sameShape_insertLower m).lattice.symm ▸ hl
  insertUpper hl _ _ hg := (Graph.sameShape_insertUpper hg).lattice.symm ▸ hl
  recheck := ρ.recheck_mimics
  onward _ _ _ _ _ _ := trivial
  narrow _ _ _ _ := trivial
  widen _ := trivial
  linkAcross hl _ _ := Graph.sameTypes_linkAcross.lattice.symm ▸ hl
  inheritFrozen hl _ := by
    unfold Graph.inheritFrozen
    split <;> exact hl
  cutOff hl := by
    refine ⟨Graph.sameFrame_cutOff.lattice.symm ▸ hl, Graph.cutOff_under ?_ ?_⟩ <;>
      exact fun _ _ _ _ => Graph.renameMembers_retag
  unregister hl _ := hl
  coalescesInto? params x hl := by
    simp [Graph.coalescesInto?, Graph.nearestBelow, Graph.isIndistinguishable]
  inSight _ _ := trivial

theorem freeze_mimics (ρ : Retagging) (x : VarId) :
    Mimics ρ.guise (·.lattice.Plain) id (freeze x) (freeze x) := by
  rw [freeze_eq]
  refine Mimics.graph_bind fun g hl => ?_
  rw [Graph.boundsOf_under, Bounds.record_guise, Bounds.above_retag]
  have hsettle (g : Graph) : (g.retag ρ).settle x = (g.settle x).retag ρ :=
    Graph.update_under fun _ => Bounds.settled_retag
  have hmodify : Mimics ρ.guise (·.lattice.Plain) id (modify (·.settle x)) (modify (·.settle x)) :=
    Mimics.modify fun g hl => ⟨hl, hsettle g⟩
  refine hmodify.bind fun _ => ?_
  refine (ρ.suits.passOn (fun _ _ => trivial) fun g' _ => ⟨trivial, ?_⟩).bind fun _ => ?_
  · rw [Bounds.resolution_retag, Graph.boundsOf_under]
    cases (g.boundsOf x).resolution <;> simp [Resolution.type]
  · refine Mimics.modify fun g hl => ⟨?_, Graph.detach_under⟩
    have hsame : SameTypes g (g.isolate x) := Graph.sameTypes_isolate
    exact hsame.lattice.symm ▸ hl

theorem freezeRounds_mimics (ρ : Retagging) (params : List VarId) (rounds : Nat)
    (done : List VarId) :
    Mimics ρ.guise (·.lattice.Plain) id (freezeRounds params rounds done)
      (freezeRounds params rounds done) := by
  induction rounds generalizing done with
  | zero => exact Mimics.pure ()
  | succ rounds ih =>
    refine Mimics.graph_bind fun g hl => ?_
    have hfixable : (g.retag ρ).fixable params done = g.fixable params done := by
      simp [Graph.fixable, Graph.isFixable]
    rw [hfixable]
    split
    · exact Mimics.pure ()
    · exact (Mimics.forM_same fun x _ => ρ.freeze_mimics x).bind fun _ => ih _

/-- **Generalisation** cannot tell which tags there are. -/
theorem generalizeAll_mimics (ρ : Retagging) {search : Search} (params : List VarId) :
    Mimics ρ.guise (·.lattice.Plain) id (generalizeAll search.find params)
      (generalizeAll search.find params) := by
  rw [generalizeAll_eq]
  have hprune :
      Mimics ρ.guise (·.lattice.Plain) id (modify Graph.pruneSelfEdges)
      (modify Graph.pruneSelfEdges) :=
    Mimics.modify fun g hl => ⟨hl, Graph.pruneSelfEdges_under⟩
  refine hprune.bind fun _ => ?_
  refine Mimics.graph_bind fun g hl => ?_
  rw [Graph.cycles_under]
  refine (ρ.suits.collapse (fun _ _ _ _ => trivial) _).bind fun params =>
    Mimics.graph_bind fun g hl => ?_
  rw [Graph.ids_under]
  refine (ρ.freezeRounds_mimics params _ _).bind fun _ => Mimics.graph_bind fun g hl => ?_
  rw [Graph.ids_under]
  exact ρ.suits.coalesceRounds params _

end Retagging

/-! ## Operations -/

namespace Graph

variable {ρ : Retagging} {g : Graph} {id : VarId} {t : Ty}

/-- Registered variables are registered under any tag, and the others are refused for the same
reason. -/
theorem isRegistered_retag (id : VarId) : (((g.retag ρ).require id).map fun _ => ()) =
    ((g.require id).map fun _ => ()).mapError (Misuse.under ρ.guise) := by
  rw [isRegistered_under]
  cases h : g.require id with
  | error m => exact congrArg Except.error (under_error_require h).symm
  | ok b => rfl

theorem forM_retag {α : Type} {j : α → α} {check check' : α → Except Misuse Unit}
    (hcheck : ∀ a, check' (j a) = (check a).mapError (Misuse.under ρ.guise)) (as : List α) :
    (as.map j).forM check' = (as.forM check).mapError (Misuse.under ρ.guise) := by
  induction as with
  | nil => rfl
  | cons a as ih =>
    change (check' (j a) >>= fun _ => (as.map j).forM check') =
        (check a >>= fun _ => as.forM check).mapError _
    rw [hcheck, ih]
    cases check a <;> rfl

theorem requireOwned_retag :
    (g.retag ρ).requireOwned (t.retag ρ) = (g.requireOwned t).mapError (Misuse.under ρ.guise) := by
  rw [requireOwned, Ty.convertibles_retag]
  refine forM_retag (fun c => ?_) _
  cases c with
  | asVar cell owner var =>
    simp only [Ty.retag, owns_retag]
    split
    · exact isRegistered_retag var
    · simp only [Except.mapError, Misuse.under, Retagging.guise, Ty.retag]
  | _ =>
    simp only [Ty.retag]
    rfl

theorem addBound_retag (hl : g.lattice.Plain) (side : Side) :
    (g.retag ρ).addBound side id (t.retag ρ) = (g.addBound side id t).under ρ.guise :=
  addBound_under ρ.suits.toSuits hl trivial trivial side requireOwned_retag

theorem addRef_retag (hl : g.lattice.Plain) (r : Option Reference) :
    (g.retag ρ).addRef id r = (g.addRef id r).under ρ.guise :=
  addRef_under ρ.suits hl trivial fun _ _ => trivial

theorem merge_retag (hl : g.lattice.Plain) (old new : VarId) :
    (g.retag ρ).merge old new = (g.merge old new).under ρ.guise :=
  merge_under ρ.suits hl trivial trivial

theorem generalize_retag {search : Search} (hl : g.lattice.Plain) (params : List VarId) :
    (g.retag ρ).generalize search.find params =
      (g.generalize search.find params).under ρ.guise := by
  have hparams := forM_retag (j := fun x => x) (isRegistered_retag (ρ := ρ) (g := g)) params
  rw [List.map_id'] at hparams
  simp only [generalize, hparams]
  rcases params.forM fun x => (g.require x).map fun _ => () with m | _
  · rfl
  · exact run_under hl (fun _ => rfl) (ρ.generalizeAll_mimics params)

theorem fixVariable_retag {name : String} :
    (g.retag ρ).fixVariable name = (g.fixVariable name).map (retag ρ) :=
  fixVariable_under (G := ρ.guise) fun _ _ => Bounds.completed_retag

theorem fixParameter_retag : (g.retag ρ).fixParameter id = (g.fixParameter id).map (retag ρ) :=
  fixParameter_under fun _ _ => Bounds.defaulted_retag

theorem setOverload_retag {name : String} {f : FunctionType} :
    (g.retag ρ).setOverload name f = (g.setOverload name f).map (retag ρ) := by
  have hnames : (g.retag ρ).names.contains name = g.names.contains name := rfl
  rw [setOverload, setOverload]
  by_cases h : g.names.contains name
  · rw [if_pos h, if_pos (hnames.trans h)]
    rfl
  · rw [if_neg h, if_neg (hnames ▸ h)]
    rfl

theorem bind_retag {vars : List VarId} :
    (g.retag ρ).bind (t.retag ρ) vars = ((g.bind t vars).map (Ty.retag ρ)).mapError
      (Misuse.under ρ.guise) := by
  have hvars := forM_retag (j := fun x => x) (isRegistered_retag (ρ := ρ) (g := g)) vars
  rw [List.map_id'] at hvars
  have htag : (g.retag ρ).tag = ρ.tag g.tag := rfl
  have hbind : (t.retag ρ).bind (ρ.tag g.tag) vars =
      ((t.bind g.tag vars).map (Ty.retag ρ)).mapError (Ty.BindError.under ρ.guise) := by
    simp only [Ty.bind_eq, Retagging.tag_eq_zero]
    split
    · rfl
    · rcases vars with _ | ⟨var, _ | ⟨var', vars⟩⟩
      · rfl
      · cases t <;> simp only [Ty.retag] <;> rfl
      · rfl
  simp only [Graph.bind_eq, hvars, htag, hbind]
  cases vars.forM fun x => (g.require x).map fun _ => () with
  | error m => rfl
  | ok _ => cases t.bind g.tag vars <;> rfl

end Graph

end TypeBounds
