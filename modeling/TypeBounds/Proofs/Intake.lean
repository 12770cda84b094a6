import TypeBounds.Proofs.Calls
import TypeBounds.Proofs.Nodes
import TypeBounds.Proofs.Quiet
import TypeBounds.Proofs.Resolved

/-!
# Taking in types of one kind

An invariant of graphs that does not survive every propagation may survive those of types of one
kind. The kind has to contain the parts of its types, and the sources and targets of conversions.
What is let into upper bounds may be of another kind than what is let into lower ones.

* `Handles`: what the two insertions have to keep, after the checks in front of them.
  `Handles.spread` says the same of a whole propagation;
* `Takes`: the insertions keep it **whatever the checks say**;
* `HandsOn`: what is handed on from one variable to another is of the kind as well. So edges and
  merges keep the invariant;
* `Freezes`: so is what is fixed, and generalisation keeps the invariant, too.
-/

namespace TypeBounds

open Infer

/-! ## Conversions -/

namespace Lattice

variable {l : Lattice} {sub : Ty → Ty → Bool} {a b : Ty} {c : Conversion}

/-- A bridge is one of the conversions, and made without being asked for. -/
theorem bridge?_eq_some (h : l.bridge? sub a b = some c) :
    c ∈ l.conversions ∧ c.implicit = true := by
  have hfind {a : Ty} {c : Conversion} (ha : ∀ ms, a ≠ .union ms) (h : l.bridge? sub a b = some c) :
      c ∈ l.conversions ∧ c.implicit = true := by
    rw [bridge?_eq_find? ha] at h
    refine ⟨mem_conversions_of_mem_candidates (List.mem_of_find?_eq_some h), ?_⟩
    have hfound := List.find?_some h
    exact (Bool.and_eq_true_iff.1 hfound).1
  induction a using Ty.memberInduction generalizing c with
  | container side ms ih =>
    cases side with
    | upper => exact hfind (fun _ hms => by cases hms) h
    | lower =>
      rw [Side.container, bridge?] at h
      have hmembers (last : Option Conversion)
          (hlast : ∀ c, last = some c → c ∈ l.conversions ∧ c.implicit = true)
          (hrun : l.bridgeMembers? sub ms b last = some c) : c ∈ l.conversions ∧
          c.implicit = true := by
        clear h
        induction ms generalizing last with
        | nil =>
          rw [bridgeMembers?] at hrun
          exact hlast c hrun
        | cons m ms ihms =>
          obtain ⟨hm, hms⟩ := List.forall_mem_cons.1 ih
          rw [bridgeMembers?] at hrun
          split at hrun
          · exact ihms hms last hlast hrun
          · split at hrun
            · cases hrun
            · rename_i c' hc'
              refine ihms hms (some c') (fun c hc => ?_) hrun
              cases hc
              exact hm hc'
      exact hmembers none (fun c hc => by cases hc) h
  | _ => exact hfind (fun _ hms => by cases hms) h

theorem mem_of_bridge? (h : l.bridge? sub a b = some c) : c ∈ l.conversions := (bridge?_eq_some h).1

end Lattice

theorem Infer.Along.assuming {α : Type} {I : Graph → Prop} {m : Infer α} {s : Progress}
    (h : I s.graph → Along (Keeps I) m s) : Along (Keeps I) m s := fun hI => h hI hI

/-- What a new upper member relies on are sources of implicit conversions. -/
theorem mem_of_checkLower {id : VarId} {m : Ty} {sources : List Ty} {s s' : Progress}
    (hrun : checkLower id m s = (.ok sources, s')) :
    ∀ t ∈ sources, ∃ c ∈ s.graph.lattice.conversions, c.implicit ∧ c.source = t := by
  intro t ht
  obtain ⟨-, -, hsources⟩ := checkLower_passed hrun
  obtain ⟨l, -, -, c, hc, hsource⟩ := hsources t ht
  obtain ⟨hmem, himplicit⟩ := Lattice.bridge?_eq_some hc
  exact ⟨c, hmem, himplicit, hsource⟩

/-! ## Propagation -/

/-- **Parts of types of the kind `P` may be put in**, after the checks that they passed, without an
end to `I`. They are no convertibles to the variable itself in the graph `g` that the type came to.
What is converted is of the kind as well. -/
structure Handles (P : Side → Ty → Prop) (I : Graph → Prop) : Prop where
  conversion : ∀ g, I g → ∀ c ∈ g.lattice.conversions, c.implicit → P .lower c.source ∧
    P .upper c.target
  insertLower : ∀ t, P .lower t → ∀ m ∈ t.unionParts, ∀ depth id g, I g → ¬g.isSelf id m → ∀ s s',
    I s.graph → ¬s.graph.lowerAbsorbs id m → checkUpper (spreadWithin depth .upper) id m s =
    (.ok (), s') → I s'.graph →
    I (s'.graph.insertLower id m)
  insertUpper : ∀ t, P .upper t → ∀ m ∈ t.interParts, ∀ id g, I g → ¬g.isSelf id m →
    ∀ s sources s' g', I s.graph → ¬s.graph.upperAbsorbs id m →
    checkLower id m s = (.ok sources, s') → s'.graph.insertUpper id m = .ok g' →
    I s'.graph → I g'

namespace Handles

variable {P : Side → Ty → Prop} {I : Graph → Prop} {side : Side} {id : VarId} {m t : Ty} {g : Graph}
  {s : Progress} {depth : Nat}

section

variable (h : Handles P I)

include h

theorem checkUpper {narrow : VarId → Ty → Infer Unit}
    (hnarrow : ∀ id t, P .upper t → ∀ s, Along (Keeps I) (narrow id t) s) (id : VarId) (m : Ty)
    (s : Progress) : Along (Keeps I) (checkUpper narrow id m) s := by
  refine Along.assuming fun hI => Along.graph_bind ?_
  dsimp only
  split
  · exact Along.pure _
  · split
    · exact Along.fail _
    · rename_i c hc
      obtain ⟨hmem, himplicit⟩ := Lattice.bridge?_eq_some hc
      have htarget := (h.conversion _ hI c hmem himplicit).2
      exact Along.note_bind fun s' _ => hnarrow _ _ htarget s'

theorem joinMember
    (hnarrow : ∀ id t, P .upper t → ∀ s, Along (Keeps I) (spreadWithin depth .upper id t) s)
    (ht : P .lower t) (hm : m ∈ t.unionParts) (hg : I g) (hself : ¬g.isSelf id m) (s : Progress) :
    Along (Keeps I) (joinMember (spreadWithin depth .upper) id m) s := by
  refine Along.assuming fun hI => Along.graph_bind ?_
  split
  · exact Along.pure _
  · rename_i habs
    refine (h.checkUpper hnarrow id m s).bind fun _ s' hcheck => ?_
    refine (Along.modify ?_).bind fun _ _ _ => Along.pure _
    exact h.insertLower t ht m hm _ _ g hg hself s s' hI habs hcheck

theorem meetMember {widen : VarId → Ty → Infer Unit}
    (hwiden : ∀ id t, P .lower t → ∀ s, Along (Keeps I) (widen id t) s) (ht : P .upper t)
    (hm : m ∈ t.interParts) (hg : I g) (hself : ¬g.isSelf id m) (s : Progress) :
    Along (Keeps I) (meetMember widen id m) s := by
  refine Along.assuming fun hI => Along.graph_bind ?_
  split
  · exact Along.pure _
  · rename_i habs
    refine (Along.composes.checkLower id m s).bind fun sources s' hsources => Along.graph_bind ?_
    split
    · exact Along.fail _
    · rename_i g' hg'
      have hput := h.insertUpper t ht m hm id g hg hself s sources s' g' hI habs hsources hg'
      refine (Along.modify hput).bind fun _ s'' _ => ?_
      refine (Along.composes.forM (fun source hsource s => ?_) s'').bind fun _ _ _ => Along.pure _
      obtain ⟨c, hc, himplicit, rfl⟩ := mem_of_checkLower hsources source hsource
      exact Along.note_bind fun s' _ => hwiden _ _ (h.conversion _ hI c hc himplicit).1 s'

theorem member
    (hnested : ∀ side id t, P side t → ∀ s, Along (Keeps I) (spreadWithin depth side id t) s)
    (ht : P side t) (hm : m ∈ side.parts t) (hg : I g) (hself : ¬g.isSelf id m) (s : Progress) :
    Along (Keeps I) (member (spreadWithin depth) side id m) s := by
  cases side with
  | lower => exact h.joinMember (hnested .upper) ht hm hg hself s
  | upper => exact h.meetMember (hnested .lower) ht hm hg hself s

theorem enter
    (hnested : ∀ side id t, P side t → ∀ s, Along (Keeps I) (spreadWithin depth side id t) s)
    (side : Side) (ht : P side t) (id : VarId) (s : Progress) :
    Along (Keeps I) (enter (spreadWithin depth) side t id) s := by
  rw [enter_eq]
  refine Along.assuming fun hI => Along.graph_bind (Along.composes.anyNew (fun m hm s' => ?_) s)
  obtain ⟨hm, hself⟩ := List.mem_filter.1 hm
  exact h.member hnested ht hm hI (by simpa using hself) s'

theorem visit
    (hnested : ∀ side id t, P side t → ∀ s, Along (Keeps I) (spreadWithin depth side id t) s)
    (side : Side) (ht : P side t) (id : VarId) (s : Progress) :
    Along (Keeps I) (visit (spreadWithin depth) side t id) s := by
  rw [visit_eq]
  refine (h.enter hnested side ht id s).bind fun new s' _ => ?_
  split
  · refine Along.note_bind fun s'' _ => (Along.composes.recheck id s'').bind fun _ s₃ _ => ?_
    exact Along.graph_bind (Along.pure _)
  · exact Along.pure _

theorem spreadWithin (depth : Nat) :
    ∀ side start t, P side t → ∀ s, Along (Keeps I) (spreadWithin depth side start t) s := by
  induction depth with
  | zero => exact fun _ _ _ _ s => Along.note _
  | succ depth ih =>
    intro side start t ht s
    exact Along.graph_bind (Along.composes.exploreM (h.visit ih side ht) _ _ _ s)

/-- **Propagation** of a type of the kind. -/
theorem spread (ht : P side t) (start : VarId) (s : Progress) :
    Along (Keeps I) (spread side start t) s :=
  Along.graph_bind (h.spreadWithin _ side start t ht s)

end

end Handles

/-! ## Insertions -/

/-- **Types of the kind `P` may be taken in** without an end to `I`, whatever the checks say. -/
structure Takes (P : Side → Ty → Prop) (I : Graph → Prop) : Prop where
  parts : ∀ (side : Side) (t : Ty), P side t → ∀ p ∈ side.parts t, P side p
  conversion : ∀ g, I g → ∀ c ∈ g.lattice.conversions, P .lower c.source ∧ P .upper c.target
  insertLower : ∀ g id m, P .lower m → I g → I (g.insertLower id m)
  insertUpper : ∀ g g' id m, P .upper m → g.insertUpper id m = .ok g' → I g → I g'

namespace Takes

variable {P : Side → Ty → Prop} {I : Graph → Prop} {side : Side} {t : Ty}

theorem handles (h : Takes P I) : Handles P I where
  conversion g hI c hc _ := h.conversion g hI c hc
  insertLower t ht m hm _ _ _ _ _ _ _ _ _ _ := h.insertLower _ _ _ (h.parts .lower t ht m hm)
  insertUpper t ht m hm _ _ _ _ _ _ _ _ _ _ _ hg' :=
    h.insertUpper _ _ _ _ (h.parts .upper t ht m hm) hg'

/-- **Propagation** of a type of the kind. -/
theorem spread (h : Takes P I) (ht : P side t) (start : VarId) (s : Progress) :
    Along (Keeps I) (spread side start t) s :=
  h.handles.spread ht start s

end Takes

/-! ## Handing on -/

/-- The two graphs have the same variables with the same members in their bounds. -/
structure Graph.SameMembers (g g' : Graph) : Prop where
  tag : g'.tag = g.tag
  lattice : g'.lattice = g.lattice
  ids : g'.ids = g.ids
  sides : ∀ side x, (g'.boundsOf x).side side = (g.boundsOf x).side side

theorem SameTypes.sameMembers {g g' : Graph} (h : SameTypes g g') : g.SameMembers g' where
  tag := h.tag
  lattice := h.lattice
  ids := h.ids
  sides side x := by
    cases side with
    | lower => exact h.lower x
    | upper => exact h.upper x

namespace Graph

variable {g g' : Graph} {id old new : VarId}

theorem SameMembers.trans {g'' : Graph} (h : SameMembers g g') (h' : SameMembers g' g'') :
    SameMembers g g'' where
  tag := h'.tag.trans h.tag
  lattice := h'.lattice.trans h.lattice
  ids := h'.ids.trans h.ids
  sides side x := (h'.sides side x).trans (h.sides side x)

theorem sameMembers_frozen : SameMembers g (g.update id fun b => { b with frozen := true }) where
  tag := rfl
  lattice := rfl
  ids := ids_update _
  sides side x := by
    refine field_update (Bounds.side · side) fun b => ?_
    cases side <;> rfl

theorem sameMembers_inheritFrozen : SameMembers g (inheritFrozen old new g) := by
  unfold inheritFrozen
  split
  · exact sameMembers_frozen
  · exact ⟨rfl, rfl, rfl, fun _ _ => rfl⟩

theorem sameMembers_detach : SameMembers g (detach id g) := by
  have hflagged : SameMembers g ((g.isolate id).update id fun b => { b with frozen := true }) :=
    sameTypes_isolate.sameMembers.trans sameMembers_frozen
  exact ⟨hflagged.tag, hflagged.lattice, hflagged.ids, hflagged.sides⟩

end Graph

/-- **What bounds are handed on as is of the kind `P`**, and taking it in is no end to `I`. -/
structure HandsOn (P : Side → Ty → Prop) (I : Graph → Prop) : Prop where
  spread : ∀ side t, P side t → ∀ id s, Along (Keeps I) (spread side id t) s
  bound : ∀ g, I g → ∀ (side : Side) (x : VarId),
    P side (side.container ((g.boundsOf x).side side)).copy
  same : ∀ g g' : Graph, g.SameMembers g' → I g → I g'
  unregister : ∀ g id, I g → I (Graph.unregister g id)

/-- **What variables are fixed to is of the kind `P`** as well. -/
structure Freezes (P : Side → Ty → Prop) (I : Graph → Prop) : Prop extends HandsOn P I where
  resolved : ∀ g g' : Graph, I g → I g' → ∀ x,
    P .lower ((g.boundsOf x).resolution.type (g'.boundsOf x)).copy
  settle : ∀ g id, I g → I (Graph.settle id g)

namespace HandsOn

open TypeBounds.Graph

variable {search : Search} {P : Side → Ty → Prop} {I : Graph → Prop} {side : Side} {old new : VarId}
  {ms : Members} {s : Progress}

section

variable (h : HandsOn P I)

include h

theorem handOn (hms : P side (side.container ms).copy) (id : VarId) (s : Progress) :
    Along (Infer.Keeps I) (handOn side id ms) s := by
  unfold TypeBounds.handOn
  split
  · exact Along.pure _
  · exact h.spread side _ hms id s

/-- **A new edge.** -/
theorem addEdge (x y : VarId) (s : Progress) : Along (Infer.Keeps I) (addEdge x y) s := by
  rw [addEdge_eq]
  refine Along.assuming fun hI => Along.graph_bind ?_
  split
  · exact Along.pure _
  · refine (Along.modify (h.same _ _ sameTypes_linkAcross.sameMembers)).bind fun _ s₁ _ => ?_
    refine Along.note_bind fun s₂ _ => (h.handOn (h.bound _ hI .lower x) y s₂).bind fun _ s₃ _ => ?_
    exact Along.assuming fun hI₃ => Along.graph_bind (h.handOn (h.bound _ hI₃ .upper y) x s₃)

theorem takeOver (old new : VarId) (lowers uppers : List VarId) (s : Progress) :
    Along (Infer.Keeps I) (takeOver old new lowers uppers) s := by
  refine Along.assuming fun hI => Along.graph_bind ?_
  refine (h.handOn (h.bound _ hI .lower old) new s).bind fun _ s₁ _ => ?_
  refine Along.assuming fun hI₁ => Along.graph_bind ?_
  refine (h.handOn (h.bound _ hI₁ .upper old) new s₁).bind fun _ s₂ _ => ?_
  refine (Along.modify (h.same _ _ sameMembers_inheritFrozen)).bind fun _ s₃ _ => ?_
  exact (Along.composes.forM (fun x _ s => h.addEdge x new s) s₃).bind fun _ s₄ _ =>
    Along.composes.forM (fun y _ s => h.addEdge new y s) s₄

/-- **A merge**, whether it comes to its end or not, once cutting off the old variable is no end to
it. -/
theorem mergeInto (hcut : I (s.graph.cutOff old new)) : I (mergeInto old new s).2.graph := by
  have hrest : Along (Infer.Keeps I)
      (do
        TypeBounds.takeOver old new (others old new (s.graph.below old))
          (others old new (s.graph.above old))
        if s.graph.isPinned old then pure () else modify fun g => g.unregister old)
      { s with graph := s.graph.cutOff old new } := by
    refine (h.takeOver old new _ _ _).bind fun _ s₂ _ => ?_
    split
    · exact Along.pure _
    · exact Along.modify (h.unregister _ old)
  rw [mergeInto_eq, graph_bind_apply, modify_bind_apply]
  exact hrest hcut

/-- **Adding a type of the kind**, also in vain. -/
theorem addBound {g : Graph} (hI : I g) {t : Ty} (ht : P side t) (id : VarId) :
    I (g.addBound side id t).graph := Graph.addBound_keeps hI fun _ => h.spread side t ht id _ hI

/-- **Adding a reference**, also in vain. -/
theorem addRef {g : Graph} (hI : I g) (id : VarId) (r : Option Reference) :
    I (g.addRef id r).graph :=
  Graph.addRef_keeps hI (fun x => h.spread .lower _ (h.bound g hI .lower x) id _ hI)
    (fun _ => h.same _ _ sameTypes_link.sameMembers hI) fun x _ _ => h.addEdge x id _ hI

/-- **Merging**, also in vain. -/
theorem merge (hcut : ∀ g old new, I g → I (g.cutOff old new)) {g : Graph} (hI : I g)
    (old new : VarId) : I (g.merge old new).graph :=
  Graph.merge_keeps hI fun _ _ => h.mergeInto (hcut g old new hI)

/-- **Generalising**, also in vain. -/
theorem generalize (hcut : ∀ g old new, I g → I (g.cutOff old new))
    (hfreeze : ∀ x s, Along (Infer.Keeps I) (freeze x) s) {g : Graph}
    (hwf : g.WellFormed) (hI : I g) (params : List VarId) :
    I (g.generalize search.find params).graph := by
  have hkeeps :
      Along (Infer.Keeps fun g => g.WellFormed ∧ I g) (generalizeAll search.find params)
      { graph := g } := by
    refine generalizeAll_keeps (fun _ h => h.1) (fun g hg => ?_) (fun old new s hne hnew hs => ?_)
      (fun x s hs => ?_) params _
    · exact ⟨hg.1.pruneSelfEdges.1, h.same _ _ sameTypes_pruneSelfEdges.sameMembers hg.2⟩
    · exact ⟨mergeInto_wellFormed hne hnew hs.1, h.mergeInto (hcut _ old new hs.2)⟩
    · exact ⟨freeze_keeps x s hs.1, hfreeze x s hs.2⟩
  exact Graph.generalize_keeps hI (hkeeps ⟨hwf, hI⟩).2

end

end HandsOn

/-- **Fixing one variable** in a generalisation. -/
theorem Freezes.freeze {P : Side → Ty → Prop} {I : Graph → Prop} (h : Freezes P I) (id : VarId)
    (s : Progress) : Along (Infer.Keeps I) (freeze id) s := by
  rw [freeze_eq]
  refine Along.assuming fun hI => Along.graph_bind ?_
  refine (Along.modify (h.settle _ id)).bind fun _ s₁ _ => ?_
  refine (Along.composes.forM (fun y _ s => Along.assuming fun hs => Along.graph_bind ?_) s₁).bind
    fun _ s₂ _ => ?_
  · exact h.spread .lower _ (h.resolved _ _ hI hs id) y s
  · exact Along.modify (h.same _ _ Graph.sameMembers_detach)

end TypeBounds
