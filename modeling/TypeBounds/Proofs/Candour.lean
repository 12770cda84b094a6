import TypeBounds.Proofs.Locked
import TypeBounds.Proofs.Wording

/-!
# Graphs with candid bounds

If conversions and whatever else comes in are candid, then all members of bounds are candid, and
stay so (`Graph.Candid`). Bounds are handed on as a whole and taken apart into the same members
again. There is one exception: a variable without a lower bound is fixed to its upper bound, and
that goes into the lower bounds above it as one intersection. It has several members when this is
decided, but conversions may narrow it while it is handed on. If one member is left in the end, it
was put there by a conversion (`Graph.Unmasking`). So targets of conversions must not be unions of
several members (`Lattice.Candid`): an intersection around one of these would be written like the
union.

* `handsOn_candid`, `freeze_candid`: propagation, merging and fixing;
* `Graph.Candid.outcome`, `Graph.Candid.after`: calls, **failed or not**.
-/

namespace TypeBounds

open Infer

/-- A candid type that an intersection may have as its only member. The same goes for its parts. -/
structure Ty.CandidTarget (t : Ty) : Prop where
  candid : t.Candid
  part : ∀ p ∈ t.interParts, ¬Side.lower.Spells p.name

/-- Conversions are between candid types, and no part of a target is written like a union of several
members. -/
def Lattice.Candid (l : Lattice) : Prop :=
  ∀ c ∈ l.conversions, c.source.Candid ∧ c.target.CandidTarget

theorem Ty.IsClass.candidTarget {t : Ty} (h : t.IsClass) : t.CandidTarget := by
  refine ⟨.leaf h, fun p hp hspells => ?_⟩
  obtain rfl : p = t := List.mem_singleton.1 (h.parts_eq .upper ▸ hp)
  exact hspells.not_plain h.isPlainChar

theorem Ty.Candid.partsOf {t : Ty} (h : t.Candid) (side : Side) : PartsOf Ty.CandidIn side t :=
  fun _ hp => h.of_mem_parts hp

namespace Graph

variable {g g' : Graph} {side : Side} {id x : VarId} {m t : Ty}

/-- **Candid graphs**: conversions are between candid types, and bounds have candid members. -/
structure Candid (g : Graph) : Prop where
  conversions : g.lattice.Candid
  tidy : g.Tidy Ty.CandidIn

namespace Candid

theorem candidIn (h : g.Candid) (side : Side) {m : String × Ty}
    (hm : m ∈ (g.boundsOf x).side side) : m.2.CandidIn side :=
  h.tidy.admissible side x m.2 (Members.mem_types.2 ⟨m, hm, rfl⟩)

theorem bare (h : g.Candid) : g.Bare where
  plain c hc := by
    obtain ⟨hsource, htarget⟩ := h.conversions c hc
    exact ⟨Ty.bare_iff.1 hsource.bare, Ty.bare_iff.1 htarget.candid.bare⟩
  stored side _ _ hm := (h.candidIn side hm).candid.bare

theorem of_sides (h : g.Candid) (hlattice : g'.lattice = g.lattice)
    (hsides : ∀ side x, (g'.boundsOf x).side side = (g.boundsOf x).side side) : g'.Candid :=
  ⟨hlattice ▸ h.conversions, h.tidy.of_sides hsides⟩

theorem of_sameMembers (h : g.Candid) (hsame : g.SameMembers g') : g'.Candid :=
  h.of_sides hsame.lattice hsame.sides

theorem empty (tag : Nat) {lattice : Lattice} (policy : Policy) (hl : lattice.Candid) :
    Candid { tag, lattice, policy } where
  conversions := hl
  tidy := .empty ..

/-! ## Insertions -/

theorem inserted (h : g.Candid) (hm : m.CandidIn side) (id : VarId) :
    (g.inserted side id m).Candid := by
  have hshape : SameShape g (g.inserted side id m) := sameShape_inserted
  exact ⟨hshape.lattice ▸ h.conversions, h.tidy.insert hm id⟩

theorem insertLower (h : g.Candid) (hm : m.CandidIn .lower) (id : VarId) :
    (g.insertLower id m).Candid := by
  have hbare : ∀ e ∈ g.has .lower id, e.Bare :=
    fun e he => (h.tidy.admissible .lower id e he).candid.bare
  rw [insertLower_eq_of_bare hbare hm.candid.bare hm.candid.copy_eq]
  exact h.inserted hm id

theorem insertUpper (h : g.Candid) (hm : m.CandidIn .upper) (hg : g.insertUpper id m = .ok g') :
    g'.Candid := by
  rw [insertUpper_eq_inserted_of_copy_eq hm.candid.copy_eq hg]
  exact h.inserted hm id

/-! ## What is handed on -/

/-- A bound does not change when it is copied. -/
theorem copy_container (h : g.Candid) (side : Side) (x : VarId) :
    (side.container ((g.boundsOf x).side side)).copy = side.container ((g.boundsOf x).side side) :=
  Ty.mapConvertibles_container_eq (h.tidy.keyed side x) fun _ hm =>
    (h.candidIn side hm).candid.mapConvertibles_eq _

theorem parts_container (h : g.Candid) (side : Side) (x : VarId) :
    side.parts (side.container ((g.boundsOf x).side side)) = g.has side x :=
  Side.parts_container fun t ht => (h.tidy.admissible side x t ht).ne_container

theorem cutOff (h : g.Candid) (old new : VarId) : (g.cutOff old new).Candid :=
  h.of_sides sameFrame_cutOff.lattice (h.bare.side_cutOff old new)

/-- A bound of several members, as one type. -/
theorem container (h : g.Candid) (side : Side) (x : VarId)
    (hlen : ((g.boundsOf x).side side).length ≠ 1) :
    (side.container ((g.boundsOf x).side side)).Candid :=
  Ty.candid_container_of_length_ne_one side (h.tidy.keyed side x)
    (fun _ hm => (h.candidIn side hm).candid) hlen

theorem of_exactly (h : g.Candid) (hres : (g.boundsOf x).resolution = .exactly t) : t.Candid := by
  rcases (g.boundsOf x).resolution_cases with
    ⟨-, ⟨-, heq⟩ | ⟨m, hm, heq⟩ | ⟨-, heq⟩⟩ | ⟨-, ⟨m, hm, heq⟩ | heq⟩ <;>
      rw [hres] at heq <;> cases heq
  · exact .leaf trivial
  · exact (h.candidIn .upper hm).candid
  · have hmem : m ∈ (g.boundsOf x).lower := hm ▸ List.mem_singleton_self m
    exact (h.candidIn .lower hmem).candid

theorem resolved (h : g.Candid) (x : VarId) : (g.boundsOf x).resolved.Candid :=
  Bounds.type_of_sides (.leaf trivial) (fun side _ hm => (h.candidIn side hm).candid)
    fun side hlen =>
    h.container side x (Nat.ne_of_gt hlen)

/-- A record may be filled in with what it resolves to. -/
theorem fill (h : g.Candid) {f : Bounds → Bounds}
    (hf : Bounds.Fills f) : (g.update id f).Candid := by
  refine ⟨h.conversions, h.tidy.fillWith (fun side x p hp => ?_) hf⟩
  rw [(h.resolved x).copy_eq] at hp
  exact (h.resolved x).of_mem_parts hp

theorem settle (h : g.Candid) (id : VarId) : (settle id g).Candid :=
  h.fill (Bounds.side_settled g.policy)

theorem unregister (h : g.Candid) (x : VarId) : (g.unregister x).Candid :=
  ⟨h.conversions, h.tidy.unregister x⟩

end Candid

end Graph

open TypeBounds.Graph

theorem handles_candid : Handles (PartsOf Ty.CandidIn) Candid where
  conversion g h c hc _ := by
    obtain ⟨hsource, htarget⟩ := h.conversions c hc
    exact ⟨hsource.partsOf .lower, htarget.candid.partsOf .upper⟩
  insertLower _ ht m hm _ id _ _ _ _ _ _ _ _ h' := h'.insertLower (ht m hm) id
  insertUpper _ ht m hm _ _ _ _ _ _ _ _ _ _ _ hg' h' := h'.insertUpper (ht m hm) hg'

theorem handsOn_candid : HandsOn (PartsOf Ty.CandidIn) Candid where
  spread _ _ ht := handles_candid.spread ht
  bound g h side x := by
    rw [h.copy_container, PartsOf, h.parts_container]
    exact h.tidy.admissible side x
  same _ _ hsame h := h.of_sameMembers hsame
  unregister _ x h := h.unregister x

/-! ## Fixing -/

/-- If the upper bound has one member only, then that is not written like a union of several
members. -/
def Graph.Unmasking (g : Graph) (x : VarId) : Prop :=
  ∀ k, Members.keys (g.boundsOf x).upper = [k] → ¬Side.lower.Spells k

/-- What comes into bounds while a variable is fixed: candid types into lower bounds, and targets of
conversions into upper bounds. -/
def Narrowing : Side → Ty → Prop
  | .lower, t => PartsOf Ty.CandidIn .lower t
  | .upper, t => t.CandidTarget

section

variable {g g' : Graph} {id x : VarId} {m : Ty} {P : Prop}

theorem Members.name_mem_keys_add (ms : Members) (t : Ty) : t.name ∈ keys (add ms t) := by
  unfold add
  split
  · rename_i hholds
    obtain ⟨m, hm, hkey⟩ := List.any_eq_true.1 hholds
    exact List.mem_map.2 ⟨m, hm, of_decide_eq_true hkey⟩
  · simp [keys]

theorem Graph.Unmasking.insertUpper (h : g.Unmasking x) (hm : m.Candid)
    (hname : ¬Side.lower.Spells m.name) (hg : g.insertUpper id m = .ok g') : g'.Unmasking x := by
  rw [insertUpper_eq_inserted_of_copy_eq hm.copy_eq hg]
  by_cases hx : x = id ∧ x ∈ g.ids
  · obtain ⟨rfl, hid⟩ := hx
    intro k hk
    -- the new member is the one that is left
    have hnew : m.name ∈ Members.keys ((g.inserted .upper x m).boundsOf x).upper := by
      unfold inserted
      rw [boundsOf_update_self hid]
      exact Members.name_mem_keys_add _ m
    rw [hk, List.mem_singleton] at hnew
    exact hnew ▸ hname
  · intro k hk
    unfold inserted at hk
    rw [boundsOf_update, if_neg hx] at hk
    exact h k hk

theorem handles_narrowing (x : VarId) :
    Handles Narrowing fun g => g.Candid ∧ (P → g.Unmasking x) where
  conversion g h c hc _ := by
    obtain ⟨hsource, htarget⟩ := h.1.conversions c hc
    exact ⟨hsource.partsOf .lower, htarget⟩
  insertLower _ ht m hm _ id _ _ _ _ s' _ _ _ h' := by
    refine ⟨h'.1.insertLower (ht m hm) id, fun hP k hk => h'.2 hP k ?_⟩
    rwa [upper_insertLower] at hk
  insertUpper t ht m hm _ _ _ _ _ _ _ _ _ _ _ hg' h' := by
    have htarget : t.CandidTarget := ht
    have hcandid : m.CandidIn .upper := htarget.candid.of_mem_parts hm
    exact ⟨h'.1.insertUpper hcandid hg',
      fun hP => (h'.2 hP).insertUpper hcandid.candid (htarget.part m hm) hg'⟩

/-- What a variable was to be resolved to, also if it is looked up later. -/
theorem Graph.Candid.type (h : g.Candid) (h' : g'.Candid)
    (hlone : (g.boundsOf x).resolution = .upperBound → g'.Unmasking x) :
    PartsOf Ty.CandidIn .lower ((g.boundsOf x).resolution.type (g'.boundsOf x)).copy := by
  cases hres : (g.boundsOf x).resolution with
  | exactly t =>
    have hcandid := h.of_exactly hres
    rw [Resolution.type, hcandid.copy_eq]
    exact hcandid.partsOf .lower
  | upperBound =>
    have hmembers : ∀ m ∈ (g'.boundsOf x).upper, m.2.Candid :=
      fun _ hm => (h'.candidIn .upper hm).candid
    have hcandid : (Ty.inter (g'.boundsOf x).upper).Candid :=
      Ty.candid_container .upper (h'.tidy.keyed .upper x) hmembers (hlone hres)
    rw [Resolution.type, hcandid.copy_eq]
    exact hcandid.partsOf .lower
  | lowerBound => exact handsOn_candid.bound g' h' .lower x

/-- When a variable is settled, the upper bound that it is resolved to has several members. -/
theorem Graph.unmasking_settle (hres : (g.boundsOf x).resolution = .upperBound) :
    (settle x g).Unmasking x := by
  have hlen := Bounds.length_of_resolution hres
  have hupper : ((settle x g).boundsOf x).upper = (g.boundsOf x).upper := by
    unfold settle
    rw [boundsOf_update]
    split
    · rw [Bounds.upper_settled, if_neg]
      rintro ⟨-, hnil⟩
      rw [hnil] at hlen
      cases hlen
    · rfl
  intro k hk
  rw [hupper] at hk
  rw [← Members.length_keys, hk, List.length_singleton] at hlen
  omega

/-- **Fixing one variable** in a generalisation. -/
theorem freeze_candid (id : VarId) (s : Progress) : Along (Keeps Candid) (freeze id) s := by
  intro h
  have hspread (y : VarId) (s' : Progress) :
      Along (Keeps fun g => g.Candid ∧
        ((s.graph.boundsOf id).resolution = .upperBound → g.Unmasking id)) (do
          let g ← graph
          spread .lower y ((s.graph.boundsOf id).resolution.type (g.boundsOf id)).copy) s' := by
    refine Along.assuming fun h' => Along.graph_bind ?_
    have htype :
        Narrowing .lower ((s.graph.boundsOf id).resolution.type (s'.graph.boundsOf id)).copy :=
      h.type h'.1 h'.2
    exact (handles_narrowing id).spread htype y s'
  have hrest :
      Along (Keeps fun g => g.Candid ∧
        ((s.graph.boundsOf id).resolution = .upperBound → g.Unmasking id)) (do
        passOn id (s.graph.boundsOf id).resolution (Natural.sort (s.graph.boundsOf id).above)
        modify (detach id))
      { s with graph := settle id s.graph } := by
    refine (Along.composes.forM (fun y _ s' => hspread y s') _).bind fun _ s₂ _ =>
      Along.modify fun h₂ => ?_
    refine ⟨h₂.1.of_sameMembers sameMembers_detach, fun hres k hk => h₂.2 hres k ?_⟩
    have hupper : ((detach id s₂.graph).boundsOf id).upper = (s₂.graph.boundsOf id).upper :=
      sameMembers_detach.sides .upper id
    rwa [hupper] at hk
  rw [freeze_eq, graph_bind_apply, modify_bind_apply]
  exact (hrest ⟨h.settle id, fun hres => unmasking_settle hres⟩).1

end

/-! ## Calls -/

namespace Graph.Candid

variable {g g' : Graph} {id : VarId} {calls : List Call}

/-- Members that are bound or handed over stay candid, so bounds do. -/
theorem mapMembers (h : g.Candid) (hlattice : g'.lattice = g.lattice) (f : Members → Members)
    (hb : g'.bounds = g.bounds.mapValues fun _ b =>
      { b with lower := f b.lower, upper := f b.upper })
    (hf : ∀ (side : Side) (ms : Members), ms.Keyed → (∀ m ∈ ms, m.2.CandidIn side) →
      (f ms).Keyed ∧ ∀ m ∈ f ms, m.2.CandidIn side) : g'.Candid := by
  have hids := ids_mapValues hb
  have hsides (side : Side) (x : VarId) : ((g'.boundsOf x).side side).Keyed ∧
      ∀ m ∈ (g'.boundsOf x).side side, m.2.CandidIn side := by
    by_cases hx : x ∈ g.ids
    · rw [boundsOf_mapValues hb hx]
      cases side with
      | lower => exact hf .lower _ (h.tidy.keyed .lower x) fun m hm => h.candidIn .lower hm
      | upper => exact hf .upper _ (h.tidy.keyed .upper x) fun m hm => h.candidIn .upper hm
    · rw [boundsOf_of_not_mem (hids ▸ hx)]
      cases side <;> exact ⟨.nil, fun m hm => (List.not_mem_nil hm).elim⟩
  refine ⟨hlattice ▸ h.conversions, fun side x => (hsides side x).1, fun side x t ht => ?_⟩
  obtain ⟨m, hm, rfl⟩ := Members.mem_types.1 ht
  exact (hsides side x).2 m hm

theorem rebindCell (h : g.Candid) (cell owner : Nat) (var : VarId) :
    (g.rebindCell cell owner var).Candid := by
  refine h.mapMembers rfl (Ty.rebindMembers cell owner var) rfl fun side ms hkeyed hms => ?_
  rw [Ty.rebindMembers_eq]
  refine ⟨⟨fun m hm => ?_, ?_⟩, fun m hm => ?_⟩
  · obtain ⟨e, he, rfl⟩ := List.mem_map.1 hm
    exact (hkeyed.key e he).trans ((hms e he).candid.rebind cell owner var).2.symm
  · rw [Members.keys, List.map_map]
    exact hkeyed.nodup
  · obtain ⟨e, he, rfl⟩ := List.mem_map.1 hm
    exact (hms e he).rebind cell owner var

theorem fork (h : g.Candid) (tag : Nat) : (g.fork tag).Candid := by
  refine h.mapMembers rfl (fun ms => Members.ofTypes (Ty.mapEach (g.handOver tag) ms)) rfl
    fun side ms hkeyed hms => ?_
  have hsame : Ty.mapEach (g.handOver tag) ms = Members.types ms := by
    rw [mapEach_eq]
    exact List.map_congr_left fun m hm => (hms m hm).candid.mapConvertibles_eq _
  rw [hsame, hkeyed.ofTypes_types]
  exact ⟨hkeyed, hms⟩

theorem filledIn (h : g.Candid) (hg : g.FilledIn g') : g'.Candid := by
  obtain ⟨names, x, f, hf, rfl⟩ := hg
  have hnamed : Candid { g with names } := h.of_sides rfl fun _ _ => rfl
  exact hnamed.fill hf

theorem mergeInto {s : Progress} (h : s.graph.Candid) (old new : VarId) :
    (mergeInto old new s).2.graph.Candid :=
  handsOn_candid.mergeInto (h.cutOff old new)

theorem of_mergeInto {old new : VarId} {s s' : Progress} (h : s.graph.Candid)
    (hrun : TypeBounds.mergeInto old new s = (.ok (), s')) : s'.graph.Candid := by
  have hkept := h.mergeInto old new
  rwa [hrun] at hkept

/-- **One call**, successful or not, with candid types. -/
theorem outcome (hwf : g.WellFormed) (h : g.Candid) {c : Call} (hc : c.DealsIn Ty.Candid) :
    (c.outcome g).graph.Candid := by
  cases c with
  | addVariable name r =>
    refine attempt_keeps h fun g' hg => ?_
    obtain ⟨r, -, -, rfl⟩ := addVariable_eq_ok.1 hg
    exact h.of_sides rfl fun side x => congrArg (Bounds.side · side) boundsOf_register
  | mint => exact h.of_sides rfl fun _ _ => rfl
  | addLower x t => exact handsOn_candid.addBound h (Ty.Candid.partsOf hc .lower) x
  | addUpper x t => exact handsOn_candid.addBound h (Ty.Candid.partsOf hc .upper) x
  | addRef x r => exact handsOn_candid.addRef h x r
  | fixVariable name => exact attempt_keeps h fun _ hg => h.filledIn (filledIn_of_fixVariable hg)
  | fixParameter x => exact attempt_keeps h fun _ hg => h.filledIn (filledIn_of_fixParameter hg)
  | merge old new => exact handsOn_candid.merge (fun _ old new h => h.cutOff old new) h old new
  | generalize search params =>
    exact handsOn_candid.generalize (fun _ old new h => h.cutOff old new) freeze_candid hwf h params
  | setOverload name f => exact setOverload_keeps h fun _ => h.of_sides rfl fun _ _ => rfl
  | bind t vars => exact bind_keeps h h.rebindCell
  | rebind cell owner var => exact h.rebindCell cell owner var
  | fork tag => exact h.fork tag

/-- **All calls**, one after the other. -/
theorem after (hwf : g.WellFormed) (h : g.Candid) (hcalls : ∀ c ∈ calls, c.DealsIn Ty.Candid) :
    (g.after calls).Candid := by
  induction calls generalizing g with
  | nil => exact h
  | cons c calls ih =>
    obtain ⟨hc, hcalls⟩ := List.forall_mem_cons.1 hcalls
    exact ih (c.wellFormed_outcome hwf) (h.outcome hwf hc) hcalls

end Graph.Candid

end TypeBounds
