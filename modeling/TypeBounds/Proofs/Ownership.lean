import TypeBounds.Proofs.Accepted
import TypeBounds.Proofs.Intake

/-!
# Who owns the convertibles in a graph

Types that come into a graph are checked, copied, rebuilt when a variable is merged away and taken
over by forks. All of that goes through the nodes of types, so what it keeps is a property of nodes:

* `Offered`: a node that the check lets through. An open convertible is bound to a variable of the
  graph;
* `Stored`: a node of a bound. Such a convertible is also out of reach, in no cell, and containers
  are labelled with the names of their members;
* `Graph.Owning`: all nodes of all bounds are like that. `takes_owning` is about propagation,
  `mergeInto_owning` and `Call.owner_outcome` about what a merge and a call keep, **failed or not**.

The target of a fixed convertible is no node, and nothing of this goes into it.
`convertibles_owned_of_after` says what holds for the nodes of bounds, and that it holds at any
depth once nothing is hidden in the targets of the types that come in;
`not_convertibles_owned_hidden` shows that it does not otherwise.
-/

namespace TypeBounds

open Infer

/-! ## Nodes -/

variable {tag : Nat} {ids ids' : List VarId} {inside : Ty → Prop}

/-- What nominal types and the targets of fixed convertibles are like is for `inside` to say. Nobody
looks into them once they have come in. -/
def Leaf (inside : Ty → Prop) : Ty → Prop
  | .nominal name kind final parents => inside (.nominal name kind final parents)
  | .asType target => inside target
  | _ => True

/-- A node of a type that may come into the graph tagged `tag` with the variables `ids`. -/
def Offered (tag : Nat) (ids : List VarId) (inside : Ty → Prop) : Ty → Prop
  | .asVar _ owner var => owner = tag ∧ var ∈ ids
  | t => Leaf inside t

/-- A node of a bound of such a graph. -/
def Stored (tag : Nat) (ids : List VarId) (inside : Ty → Prop) : Ty → Prop
  | .asVar cell owner var => cell = none ∧ owner = tag ∧ var ∈ ids
  | .union ms => Members.Labelled ms
  | .inter ms => Members.Labelled ms
  | t => Leaf inside t

theorem stored_container {side : Side} {ms : Members} :
    Stored tag ids inside (side.container ms) ↔ ms.Labelled := by
  cases side <;> rfl

/-- What is stored has no cell, which is more than is asked of what comes in. -/
theorem Stored.offered {t : Ty} (h : Stored tag ids inside t) : Offered tag ids inside t := by
  cases t with
  | asVar => exact h.2
  | union => trivial
  | inter => trivial
  | _ => exact h

theorem Stored.mono {t : Ty} (hids : ∀ x ∈ ids, x ∈ ids') (h : Stored tag ids inside t) :
    Stored tag ids' inside t := by
  cases t with
  | asVar => exact ⟨h.1, h.2.1, hids _ h.2.2⟩
  | _ => exact h

namespace Ty

variable {t : Ty} {ts : List Ty} {ms : Members} {side : Side}

/-- The type may come into the graph. -/
abbrev Offers (tag : Nat) (ids : List VarId) (inside : Ty → Prop) (t : Ty) : Prop :=
  t.Every (Offered tag ids inside)

/-- The type may be in a bound of the graph. -/
abbrev Keeps (tag : Nat) (ids : List VarId) (inside : Ty → Prop) (t : Ty) : Prop :=
  t.Every (Stored tag ids inside)

/-- What the convertibles in a type are replaced by decides what the rebuilt type is like. -/
theorem Keeps.of_mapConvertibles {f : Ty → Ty} {L : Ty → Prop} (h : t.Every L)
    (hnominal : ∀ name kind final parents, L (.nominal name kind final parents) →
      inside (.nominal name kind final parents))
    (hf : ∀ s, s.isConvertible → L s → (f s).Keeps tag ids inside) :
    (t.mapConvertibles f).Keeps tag ids inside :=
  h.mapConvertibles trivial hnominal
    (fun _ _ _ => stored_container.2 (Members.labelled_ofTypes _).1) hf

/-- Copying takes open convertibles out of their cells, and bounds hold copies only. -/
theorem Offers.copy (h : t.Offers tag ids inside) : t.copy.Keeps tag ids inside := by
  refine Keeps.of_mapConvertibles h (fun _ _ _ _ h => h) fun s hs hoffered => ?_
  cases s with
  | asVar cell owner var => exact every_asVar.2 ⟨rfl, hoffered⟩
  | asType target => exact every_asType.2 hoffered
  | _ => cases hs

theorem Keeps.ofTypes (h : ∀ t ∈ ts, t.Keeps tag ids inside) (side : Side) :
    (side.container (Members.ofTypes ts)).Keeps tag ids inside := by
  obtain ⟨hlabelled, hmem⟩ := Members.labelled_ofTypes ts
  exact every_container.2 ⟨stored_container.2 hlabelled, fun m hm => h m.2 (hmem m hm)⟩

theorem Keeps.add (h : (side.container ms).Keeps tag ids inside) (ht : t.Keeps tag ids inside) :
    (side.container (Members.add ms t)).Keeps tag ids inside := by
  obtain ⟨hlabelled, hms⟩ := every_container.1 h
  refine every_container.2 ⟨stored_container.2 ((stored_container.1 hlabelled).add t),
    fun m hm => ?_⟩
  rcases Members.mem_add hm with hm | rfl
  · exact hms m hm
  · exact ht

theorem Keeps.erase (h : (side.container ms).Keeps tag ids inside) (key : String) :
    (side.container (Members.erase ms key)).Keeps tag ids inside := by
  obtain ⟨hlabelled, hms⟩ := every_container.1 h
  refine every_container.2 ⟨stored_container.2 ((stored_container.1 hlabelled).erase key),
    fun m hm => ?_⟩
  exact hms m (List.mem_of_mem_filter hm)

theorem Keeps.eraseAll (h : (side.container ms).Keeps tag ids inside) (ts : List Ty) :
    (side.container (ts.foldl (fun ms e => Members.erase ms e.name) ms)).Keeps tag ids inside := by
  induction ts generalizing ms with
  | nil => exact h
  | cons e ts ih => exact ih (h.erase e.name)

theorem Keeps.nil (side : Side) : (side.container []).Keeps tag ids inside :=
  every_container.2 ⟨stored_container.2 .nil, fun _ hm => (List.not_mem_nil hm).elim⟩

/-- The parts of a copy make up a bound. -/
theorem Offers.bound (h : t.Offers tag ids inside) (side side' : Side) :
    (side'.container (Members.ofTypes (side.parts t.copy))).Keeps tag ids inside :=
  Keeps.ofTypes (fun _ hp => h.copy.of_mem_parts hp) side'

/-- Binding a convertible in a cell goes past the nodes of bounds. -/
theorem Keeps.rebind (hinside : ∀ cell owner var t, inside t → inside (t.rebind cell owner var))
    (h : t.Keeps tag ids inside) (cell owner : Nat) (var : String) :
    (t.rebind cell owner var).Keeps tag ids inside := by
  induction t using memberInduction with
  | container side ms ih =>
    obtain ⟨hlabelled, hms⟩ := every_container.1 h
    rw [stored_container] at hlabelled
    rw [rebind_container]
    refine every_container.2 ⟨stored_container.2 ⟨?_, ?_⟩,
      List.forall_mem_map.2 fun m hm => ih m hm (hms m hm)⟩
    · have hkeys : Members.keys (ms.map fun m => (m.1, m.2.rebind cell owner var)) =
          Members.keys ms := by
        rw [Members.keys, Members.keys, List.map_map]
        rfl
      rw [hkeys]
      exact hlabelled.nodup
    · rw [List.forall_mem_map]
      intro m hm hsealed
      have hsealed := sealed_rebind.1 hsealed
      have hcells (c o : Nat) (v : String) : .asVar (some c) o v ∉ m.2.subterms := by
        intro hs
        have hcell := (hms m hm _ hs).1
        cases hcell
      rw [name_rebind hsealed hcells]
      exact hlabelled.key m hm hsealed
  | asVar c o v =>
    have hcell := (every_asVar.1 h).1
    rw [Ty.rebind, if_neg (by simp [hcell])]
    exact h
  | asType target =>
    rw [Ty.rebind]
    exact every_asType.2 (hinside _ _ _ _ (every_asType.1 h))
  | mixed =>
    rw [Ty.rebind]
    exact h
  | nominal name kind final parents =>
    have hstored : Stored tag ids inside (.nominal name kind final parents) := every_nominal.1 h
    have hrebound := hinside cell owner var _ hstored
    rw [Ty.rebind] at hrebound ⊢
    exact every_nominal.2 hrebound

/-- If nominal types are as they should be anyway, it is the targets that count. -/
theorem every_leaf (hnominal : ∀ name kind final parents, inside (.nominal name kind final parents))
    (h : ∀ target, .asType target ∈ t.subterms → inside target) : t.Every (Leaf inside) := by
  intro s hs
  cases s with
  | nominal => exact hnominal ..
  | asType target => exact h target hs
  | _ => trivial

/-- A type without convertibles may come in anywhere. -/
theorem offers_of_convertibles (h : t.convertibles = []) (hleaves : t.Every (Leaf inside)) :
    t.Offers tag ids inside := by
  intro s hs
  have hnone : s.isConvertible = false := by
    rw [← Bool.not_eq_true]
    intro hc
    have hmem : s ∈ t.convertibles := List.mem_filter.2 ⟨hs, hc⟩
    rw [h] at hmem
    cases hmem
  cases s with
  | asVar => cases hnone
  | _ => exact hleaves _ hs

end Ty

/-! ## Graphs -/

/-- No conversion is between convertibles. -/
def Lattice.Plain (l : Lattice) : Prop :=
  ∀ c ∈ l.conversions, c.source.convertibles = [] ∧ c.target.convertibles = []

/-- The leaves of conversions are as `inside` says. -/
def Lattice.Leaves (inside : Ty → Prop) (l : Lattice) : Prop :=
  ∀ c ∈ l.conversions, c.source.Every (Leaf inside) ∧ c.target.Every (Leaf inside)

theorem Lattice.Plain.leaves {l : Lattice} (h : l.Plain)
    (hnominal : ∀ name kind final parents, inside (.nominal name kind final parents)) :
    l.Leaves inside := by
  have hbare {t : Ty} (ht : t.convertibles = []) : t.Every (Leaf inside) := by
    refine Ty.every_leaf hnominal fun target htarget => ?_
    have hmem : .asType target ∈ t.convertibles := List.mem_filter.2 ⟨htarget, rfl⟩
    rw [ht] at hmem
    cases hmem
  exact fun c hc => ⟨hbare (h c hc).1, hbare (h c hc).2⟩

namespace Graph

variable {g g' : Graph} {side : Side} {id old new x : VarId} {m t : Ty}

/-- **The graph owns its convertibles**: every node of its bounds is as it should be. -/
structure Owning (tag : Nat) (ids : List VarId) (inside : Ty → Prop) (g : Graph) : Prop where
  tag_ne : tag ≠ 0
  tag_eq : g.tag = tag
  conversions : g.lattice.Plain ∧ g.lattice.Leaves inside
  stored : ∀ (side : Side) (x : VarId),
    (side.container ((g.boundsOf x).side side)).Keeps tag ids inside

section

variable (h : g.Owning tag ids inside)

include h

theorem Owning.mono (hids : ∀ x ∈ ids, x ∈ ids') : g.Owning tag ids' inside :=
  ⟨h.tag_ne, h.tag_eq, h.conversions,
    fun side x => (h.stored side x).mono fun _ => Stored.mono hids⟩

theorem Owning.of_sameMembers (hsame : g.SameMembers g') : g'.Owning tag ids inside := by
  refine ⟨h.tag_ne, hsame.tag.trans h.tag_eq, hsame.lattice ▸ h.conversions, fun side x => ?_⟩
  rw [hsame.sides]
  exact h.stored side x

theorem Owning.of_sameTypes (hsame : SameTypes g g') :
    g'.Owning tag ids inside :=
  h.of_sameMembers hsame.sameMembers

/-- Changing one record, as long as both its sides stay as they should be. -/
theorem Owning.update {f : Bounds → Bounds}
    (hf : ∀ side : Side, (side.container ((f (g.boundsOf id)).side side)).Keeps tag ids inside) :
    (g.update id f).Owning tag ids inside := by
  refine ⟨h.tag_ne, h.tag_eq, h.conversions, fun side x => ?_⟩
  rw [boundsOf_update]
  split
  · rename_i hx
    rw [hx.1]
    exact hf side
  · exact h.stored side x

theorem Owning.dropCovered (id : VarId) (m e : Ty) :
    (dropCovered id m g e).Owning tag ids inside := by
  unfold Graph.dropCovered
  split
  · refine h.update fun side => ?_
    cases side with
    | lower => exact (h.stored .lower id).erase e.name
    | upper => exact h.stored .upper id
  · exact h

theorem Owning.insertLower (hm : m.Offers tag ids inside) (id : VarId) :
    (g.insertLower id m).Owning tag ids inside := by
  have hdropped := along_foldl (Infer.Keeps (Owning tag ids inside))
    (fun g e (hg : g.Owning tag ids inside) => hg.dropCovered id m e)
    (Members.types (g.boundsOf id).lower) h
  rw [insertLower_eq]
  refine hdropped.update fun side => ?_
  cases side with
  | lower => exact (hdropped.stored .lower id).add hm.copy
  | upper => exact hdropped.stored .upper id

theorem Owning.insertUpper (hm : m.Offers tag ids inside)
    (hg : g.insertUpper id m = .ok g') : g'.Owning tag ids inside := by
  unfold Graph.insertUpper at hg
  dsimp only at hg
  split at hg
  · cases hg
  · cases hg
    refine h.update fun side => ?_
    cases side with
    | lower => exact h.stored .lower id
    | upper => exact ((h.stored .upper id).eraseAll _).add hm.copy

end

theorem takes_owning : Takes (fun _ => Ty.Offers tag ids inside) (Owning tag ids inside) where
  parts _ _ ht _ hp := ht.of_mem_parts hp
  conversion _ hg c hc :=
    ⟨Ty.offers_of_convertibles (hg.conversions.1 c hc).1 (hg.conversions.2 c hc).1,
      Ty.offers_of_convertibles (hg.conversions.1 c hc).2 (hg.conversions.2 c hc).2⟩
  insertLower _ id _ hm hg := hg.insertLower hm id
  insertUpper _ _ _ _ hm hg' hg := hg.insertUpper hm hg'

/-- A bound may come in wherever it was stored. -/
theorem Owning.offers (h : g.Owning tag ids inside) (side : Side) (x : VarId) :
    (side.container ((g.boundsOf x).side side)).copy.Offers tag ids inside := by
  have hoffers : (side.container ((g.boundsOf x).side side)).Offers tag ids inside :=
    (h.stored side x).mono fun _ => Stored.offered
  exact hoffers.copy.mono fun _ => Stored.offered

end Graph

/-! ## Merging and fixing -/

section

open TypeBounds.Graph

variable {search : Search} {g : Graph} {side : Side} {id old new x y : VarId} {ms : Members}
  {s : Progress}

section

variable (h : g.Owning tag ids inside)

include h

theorem Graph.Owning.unregister (id : VarId) :
    (g.unregister id).Owning tag ids inside := by
  refine ⟨h.tag_ne, h.tag_eq, h.conversions, fun side x => ?_⟩
  rw [boundsOf_unregister]
  split
  · cases side <;> exact Ty.Keeps.nil _
  · exact h.stored side x

/-- The members of all bounds may be replaced, each bound by itself. -/
theorem Graph.Owning.mapMembers {g' : Graph} {tag' : Nat}
    (htag : tag' ≠ 0) (htag' : g'.tag = tag') (hlattice : g'.lattice = g.lattice)
    (f : VarId → Members → Members)
    (hb : g'.bounds = g.bounds.mapValues fun id b =>
      { b with lower := f id b.lower, upper := f id b.upper })
    (hf : ∀ (side : Side) (id : VarId) (ms : Members), (side.container ms).Keeps tag ids inside →
      (side.container (f id ms)).Keeps tag' ids' inside) : g'.Owning tag' ids' inside := by
  refine ⟨htag, htag', hlattice ▸ h.conversions, fun side x => ?_⟩
  by_cases hx : x ∈ g.ids
  · rw [boundsOf_mapValues hb hx]
    cases side with
    | lower => exact hf .lower x _ (h.stored .lower x)
    | upper => exact hf .upper x _ (h.stored .upper x)
  · rw [boundsOf_of_not_mem (ids_mapValues hb ▸ hx)]
    cases side <;> exact Ty.Keeps.nil _

theorem Graph.Owning.rebindCell
    (hinside : ∀ cell owner var t, inside t → inside (t.rebind cell owner var)) (cell owner : Nat)
    (var : VarId) : (g.rebindCell cell owner var).Owning tag ids inside := by
  refine h.mapMembers h.tag_ne h.tag_eq rfl (fun _ => Ty.rebindMembers cell owner var) rfl
    fun side _ ms hms => ?_
  have hrebound := hms.rebind hinside cell owner var
  rwa [Ty.rebind_container, ← Ty.rebindMembers_eq] at hrebound

/-- **A fork** owns what the graph owned. -/
theorem Graph.Owning.fork {tag' : Nat} (htag : tag' ≠ 0) :
    (g.fork tag').Owning tag' ids inside := by
  refine h.mapMembers htag rfl rfl (fun _ ms => Members.ofTypes (Ty.mapEach (g.handOver tag') ms))
    rfl fun side _ ms hms => ?_
  rw [mapEach_eq, ← Ty.mapConvertibles_container]
  refine Ty.Keeps.of_mapConvertibles hms (fun _ _ _ _ h => h) fun s hs hstored => ?_
  cases s with
  | asVar cell owner var =>
    obtain ⟨-, howner, hvar⟩ := hstored
    refine Ty.every_asVar.2 ⟨rfl, if_pos ?_, hvar⟩
    simp [owns, howner, h.tag_eq, h.tag_ne]
  | asType target => exact Ty.every_asType.2 hstored
  | _ => cases hs

/-- All convertibles in the bounds have the tag of the graph, so the variable alone decides. -/
theorem Graph.Owning.isSelf_iff {cell : Option Nat} {var : VarId} :
    g.isSelf x (.asVar cell tag var) ↔ var = x := by
  simp [isSelf, owns, h.tag_eq, h.tag_ne]

end

/-- Where nothing points at the old variable, nothing depends on it. -/
theorem stored_of_ne {t : Ty} (h : Stored tag ids inside t)
    (hne : ∀ cell var, t = .asVar cell tag var → var ≠ old) :
    Stored tag (ids.filter (· ≠ old)) inside t := by
  cases t with
  | asVar cell owner var =>
    obtain ⟨hcell, rfl, hvar⟩ := h
    exact ⟨hcell, rfl, List.mem_filter.2 ⟨hvar, decide_eq_true (hne cell var rfl)⟩⟩
  | _ => exact h

theorem Graph.Owning.renameMembers (h : g.Owning tag ids inside) (hne : old ≠ new)
    (hnew : new ∈ ids) (holder : VarId) {side : Side} {ms : Members}
    (hms : (side.container ms).Keeps tag ids inside) :
    (side.container (g.renameMembers holder old new ms)).Keeps tag
      (ids.filter (· ≠ old)) inside := by
  unfold Graph.renameMembers
  split
  · refine Ty.Keeps.eraseAll ?_ _
    rw [mapEach_eq, ← Ty.mapConvertibles_container]
    refine Ty.Keeps.of_mapConvertibles hms (fun _ _ _ _ h => h) fun s hs hstored => ?_
    cases s with
    | asVar cell owner var =>
      obtain ⟨hcell, rfl, hvar⟩ := hstored
      rw [renameOpen]
      split
      · exact Ty.every_asVar.2 ⟨rfl, rfl, List.mem_filter.2 ⟨hnew, decide_eq_true hne.symm⟩⟩
      · rename_i hold
        have hold : var ≠ old := by simpa [owns, h.tag_eq, h.tag_ne] using hold
        exact Ty.every_asVar.2 ⟨hcell, rfl, List.mem_filter.2 ⟨hvar, decide_eq_true hold⟩⟩
    | asType target => exact Ty.every_asType.2 hstored
    | _ => cases hs
  · rename_i hnone
    rw [pointsAt, Bool.not_eq_true, List.any_eq_false] at hnone
    refine fun s hs => stored_of_ne (hms s hs) fun cell var heq => ?_
    rw [subterms_container] at hs
    rcases List.mem_cons.1 hs with rfl | hs
    · cases side <;> cases heq
    · rw [heq] at hs
      exact fun hvar => hnone _ hs (h.isSelf_iff.2 hvar)

/-- Once the old variable is cut off, no convertible points at it. -/
theorem Graph.Owning.cutOff (h : g.Owning tag ids inside) (hne : old ≠ new) (hnew : new ∈ ids) :
    (g.cutOff old new).Owning tag (ids.filter (· ≠ old)) inside := by
  have hisolated : ((g.redirect old new).isolate old).Owning tag ids inside :=
    Owning.of_sameTypes (g := g.redirect old new) ⟨h.tag_ne, h.tag_eq, h.conversions,
      h.stored⟩ sameTypes_isolate
  exact hisolated.mapMembers hisolated.tag_ne hisolated.tag_eq rfl
    (fun id => Graph.renameMembers _ (if id = old then new else id) old new) rfl
    fun side id ms hms => hisolated.renameMembers hne hnew _ hms

/-- What a record resolves to may come in, also if it is read off a later record. -/
theorem Graph.Owning.resolution {g' : Graph} (h : g.Owning tag ids inside)
    (h' : g'.Owning tag ids inside) (x : VarId) :
    ((g.boundsOf x).resolution.type (g'.boundsOf x)).Offers tag ids inside := by
  refine Bounds.type_of_sides (Ty.every_mixed.2 trivial) (fun side m hm => ?_) fun side _ => ?_
  · exact ((Ty.every_container.1 (h.stored side x)).2 m hm).mono fun _ => Stored.offered
  · exact (h'.stored side x).mono fun _ => Stored.offered

/-- A record whose sides are as they were, or filled in with what it resolves to. -/
theorem Graph.Owning.fill (h : g.Owning tag ids inside) {f : Bounds → Bounds}
    (hf : Bounds.Fills f) : (g.update id f).Owning tag ids inside := by
  refine h.update fun side => ?_
  rcases hf (g.boundsOf id) side with hside | ⟨-, hside⟩ <;> rw [hside]
  · exact h.stored side id
  · exact (h.resolution h id).bound side side

/-- **What is handed on** may come in. -/
theorem handsOn_owning : HandsOn (fun _ => Ty.Offers tag ids inside) (Owning tag ids inside) where
  spread _ _ ht := takes_owning.spread ht
  bound _ h := h.offers
  same _ _ hsame h := h.of_sameMembers hsame
  unregister _ id h := h.unregister id

theorem freezes_owning : Freezes (fun _ => Ty.Offers tag ids inside) (Owning tag ids inside) where
  toHandsOn := handsOn_owning
  resolved _ _ h h' x := (h.resolution h' x).copy.mono fun _ => Stored.offered
  settle g _ h := h.fill (Bounds.side_settled g.policy)

/-- **A merge**, whether it comes to its end or not. -/
theorem mergeInto_owning (hwf : s.graph.WellFormed) (hne : old ≠ new) (hnew : new ∈ s.graph.ids)
    (h : s.graph.Owning tag s.graph.ids inside) :
    (mergeInto old new s).2.graph.Owning tag (mergeInto old new s).2.graph.ids inside := by
  have hend : (mergeInto old new s).2.graph.Owning tag (s.graph.ids.filter (· ≠ old)) inside :=
    handsOn_owning.mergeInto (h.cutOff hne hnew)
  have hholding : Holding (s.graph.ids.filter (· ≠ old)) (mergeInto old new s).2.graph := by
    refine mergeInto_keeps hne ?_ ?_ s ⟨hwf, fun x hx => List.mem_of_mem_filter hx⟩
    · exact List.mem_filter.2 ⟨hnew, decide_eq_true hne.symm⟩
    · simp
  exact hend.mono hholding.mem_ids

/-! ### Fixing -/

/-- The graph owns its convertibles, each of them bound to a registered variable. -/
structure Graph.Owner (tag : Nat) (inside : Ty → Prop) (g : Graph) : Prop where
  wellFormed : g.WellFormed
  owning : g.Owning tag g.ids inside

/-- The same variables are registered. -/
def Graph.SameIds (g g' : Graph) : Prop := g'.ids = g.ids

instance : IsPreorder Graph SameIds where
  refl _ := rfl
  trans _ _ _ h h' := h'.trans h

theorem sameIds_spread (side : Side) (id : VarId) (t : Ty) (s : Progress) :
    Along SameIds (spread side id t) s :=
  (sameShape_spread side id t s).ids

/-- What registers and removes nothing keeps variables registered. -/
theorem Graph.Owner.of_sameIds {m : Infer Unit} (hwf : Along (Infer.Keeps WellFormed) m s)
    (hids : Along SameIds m s) (h : Along (Infer.Keeps (Owning tag s.graph.ids inside)) m s) :
    Along (Infer.Keeps (Owner tag inside)) m s := by
  intro ho
  have hids : (m s).2.graph.ids = s.graph.ids := hids
  refine ⟨hwf ho.wellFormed, ?_⟩
  rw [hids]
  exact h ho.owning

theorem freeze_owner (id : VarId) (s : Progress) :
    Along (Infer.Keeps (Owner tag inside)) (freeze id) s := by
  refine .of_sameIds (freeze_keeps id s) ?_ (freezes_owning.freeze id s)
  refine along_freeze sameIds_spread (fun g => sameShape_settle.ids) (fun g => ?_) s
  exact (ids_update _).trans sameTypes_isolate.ids

theorem Graph.Owner.pruneSelfEdges (h : g.Owner tag inside) :
    g.pruneSelfEdges.Owner tag inside := by
  refine ⟨h.wellFormed.pruneSelfEdges.1, ?_⟩
  rw [ids_pruneSelfEdges]
  exact h.owning.of_sameTypes sameTypes_pruneSelfEdges

theorem generalizeAll_owner (params : List VarId) (s : Progress) :
    Along (Infer.Keeps (Owner tag inside)) (generalizeAll search.find params) s := by
  refine generalizeAll_keeps (fun _ h => h.wellFormed) (fun g h => h.pruneSelfEdges)
    (fun old new s hne hnew h => ?_) freeze_owner params s
  exact ⟨mergeInto_wellFormed hne hnew h.wellFormed,
    mergeInto_owning h.wellFormed hne hnew h.owning⟩

end

/-! ## Calls -/

namespace Graph

variable {search : Search} {g g' : Graph} {id : VarId} {t : Ty}

/-- **The check on entry** lets nothing through but what may come in. -/
theorem Owning.offers_of_requireOwned (h : g.Owning tag ids inside)
    (hok : g.requireOwned t = .ok ()) (ht : t.Every (Leaf inside)) : t.Offers tag g.ids inside := by
  intro s hs
  cases s with
  | asVar cell owner var =>
    obtain ⟨howns, hvar⟩ := requireOwned_iff.1 hok cell owner var hs
    simp only [owns, Bool.and_eq_true, decide_eq_true_eq] at howns
    exact ⟨howns.2.trans h.tag_eq, hvar⟩
  | _ => exact ht _ hs

section

variable (h : g.Owner tag inside)

include h

theorem Owner.addBound (side : Side) (id : VarId) (ht : t.Every (Leaf inside)) :
    (g.addBound side id t).graph.Owner tag inside := by
  refine addBound_keeps h fun hcheck => ?_
  have hoffers := h.owning.offers_of_requireOwned (checkBound_iff.1 hcheck).2 ht
  exact Owner.of_sameIds (spread_keeps side id t _) (sameIds_spread side id t _)
    (takes_owning.spread hoffers id _) h

theorem Owner.addRef (id : VarId) (r : Option Reference) :
    (g.addRef id r).graph.Owner tag inside := by
  have hids : (g.addRef id r).graph.ids = g.ids :=
    along_addRef (R := SameIds) sameIds_spread (fun _ => sameTypes_link.ids)
      (fun _ _ => sameTypes_linkAcross.ids) id r
  refine ⟨h.wellFormed.addRef id r, ?_⟩
  rw [hids]
  exact handsOn_owning.addRef h.owning id r

theorem Owner.merge (old new : VarId) : (g.merge old new).graph.Owner tag inside :=
  merge_keeps h fun hne hnew => ⟨mergeInto_wellFormed (s := { graph := g }) hne hnew h.wellFormed,
    mergeInto_owning h.wellFormed hne hnew h.owning⟩

theorem Owner.generalize (params : List VarId) :
    (g.generalize search.find params).graph.Owner tag inside :=
  generalize_keeps h (generalizeAll_owner params _ h)

theorem Owner.filledIn (hwf : g'.WellFormed) (hg : g.FilledIn g') : g'.Owner tag inside := by
  obtain ⟨names, x, f, hf, rfl⟩ := hg
  have hnamed : Owning tag g.ids inside { g with names } :=
    ⟨h.owning.tag_ne, h.owning.tag_eq, h.owning.conversions, h.owning.stored⟩
  refine ⟨hwf, ?_⟩
  rw [ids_update]
  exact hnamed.fill hf

theorem Owner.fixVariable {name : String} (hg : g.fixVariable name = .ok g') :
    g'.Owner tag inside := h.filledIn (h.wellFormed.fixVariable hg) (filledIn_of_fixVariable hg)

theorem Owner.fixParameter (hg : g.fixParameter id = .ok g') : g'.Owner tag inside :=
  h.filledIn (h.wellFormed.fixParameter hg) (filledIn_of_fixParameter hg)

theorem Owner.addVariable {name : String} {r : Option Reference}
    (hg : g.addVariable name r = .ok g') : g'.Owner tag inside := by
  refine ⟨h.wellFormed.addVariable hg, ?_⟩
  obtain ⟨r, -, -, rfl⟩ := addVariable_eq_ok.1 hg
  have hregistered : (g.register r.id).Owning tag g.ids inside := by
    refine ⟨h.owning.tag_ne, h.owning.tag_eq, h.owning.conversions, fun side x => ?_⟩
    rw [boundsOf_register]
    exact h.owning.stored side x
  have hgrown : (g.register r.id).Owning tag (g.register r.id).ids inside :=
    hregistered.mono fun x hx => mem_ids_register.2 (.inl hx)
  exact ⟨hgrown.tag_ne, hgrown.tag_eq, hgrown.conversions, hgrown.stored⟩

theorem Owner.rebindCell
    (hinside : ∀ cell owner var t, inside t → inside (t.rebind cell owner var)) (cell owner : Nat)
    (var : VarId) : (g.rebindCell cell owner var).Owner tag inside := by
  have hsame : SameEdges g (g.rebindCell cell owner var) :=
    sameEdges_mapMembers (fun _ => Ty.rebindMembers _ _ _) rfl
  refine ⟨h.wellFormed.rebindCell cell owner var, ?_⟩
  rw [hsame.ids]
  exact h.owning.rebindCell hinside cell owner var

theorem Owner.mint : g.mint.1.Owner tag inside :=
  ⟨h.wellFormed.of_sameEdges_of_names ⟨rfl, fun _ => rfl, fun _ => rfl⟩ rfl,
    h.owning.tag_ne, h.owning.tag_eq, h.owning.conversions, h.owning.stored⟩

/-- The fork owns what it holds, as its convertibles were handed over to it. -/
theorem Owner.fork {tag' : Nat} (htag : tag' ≠ 0) : (g.fork tag').Owner tag' inside := by
  have hsame : SameEdges g (g.fork tag') :=
    sameEdges_mapMembers (fun _ ms => Members.ofTypes (Ty.mapEach (g.handOver tag') ms)) rfl
  refine ⟨h.wellFormed.fork tag', ?_⟩
  rw [hsame.ids]
  exact h.owning.fork htag

end

end Graph

/-- What the leaves of the types of a call are like; and a fork needs a tag of its own. -/
def Call.Offers (inside : Ty → Prop) : Call → Prop
  | addLower _ t => t.Every (Leaf inside)
  | addUpper _ t => t.Every (Leaf inside)
  | fork tag => tag ≠ 0
  | _ => True

section

variable (hinside : ∀ cell owner var t, inside t → inside (t.rebind cell owner var))

include hinside

/-- **One call**, successful or not, on a graph that stays the same one. -/
theorem Call.owner_of_ne_fork {c : Call}
    (hc : c.Offers inside) (hfork : ∀ tag, c ≠ .fork tag) {g : Graph} {tag : Nat}
    (h : g.Owner tag inside) : (c.outcome g).graph.Owner tag inside := by
  cases c with
  | addVariable name r => exact Graph.attempt_keeps h fun _ hg => h.addVariable hg
  | mint => exact h.mint
  | bind t vars => exact Graph.bind_keeps h (h.rebindCell hinside)
  | rebind cell owner var => exact h.rebindCell hinside cell owner var
  | addLower id t => exact h.addBound .lower id hc
  | addUpper id t => exact h.addBound .upper id hc
  | addRef id r => exact h.addRef id r
  | fixVariable name => exact Graph.attempt_keeps h fun _ hg => h.fixVariable hg
  | fixParameter id => exact Graph.attempt_keeps h fun _ hg => h.fixParameter hg
  | merge old new => exact h.merge old new
  | generalize search params => exact h.generalize params
  | fork tag => exact absurd rfl (hfork tag)
  | setOverload name f =>
    refine Graph.setOverload_keeps h fun _ =>
      ⟨?_, h.owning.tag_ne, h.owning.tag_eq, h.owning.conversions, h.owning.stored⟩
    exact h.wellFormed.of_sameEdges_of_names ⟨rfl, fun _ => rfl, fun _ => rfl⟩ rfl

/-- **One call**, which may go on with a fork. -/
theorem Call.owner_outcome {c : Call}
    (hc : c.Offers inside) {g : Graph} (h : g.Owner g.tag inside) :
    (c.outcome g).graph.Owner (c.outcome g).graph.tag inside := by
  by_cases hfork : ∃ tag, c = .fork tag
  · obtain ⟨tag, rfl⟩ := hfork
    exact h.fork hc
  · have hkept := Call.owner_of_ne_fork hinside hc (fun tag heq => hfork ⟨tag, heq⟩) h
    rw [hkept.owning.tag_eq]
    exact hkept

/-- **All calls.** -/
theorem Graph.Owner.after {g : Graph}
    (h : g.Owner g.tag inside) {calls : List Call} (hcalls : ∀ c ∈ calls, c.Offers inside) :
    (g.after calls).Owner (g.after calls).tag inside :=
  after_keeps (I := fun g => g.Owner g.tag inside)
    (fun _ _ hc h => Call.owner_outcome hinside hc h) h hcalls

end

theorem Graph.Owner.empty {tag : Nat} (htag : tag ≠ 0) {lattice : Lattice} (hl : lattice.Plain)
    (hleaves : lattice.Leaves inside) (policy : Policy) :
    Owner tag inside { tag, lattice, policy } where
  wellFormed := .empty tag lattice policy
  owning := ⟨htag, rfl, ⟨hl, hleaves⟩, fun side _ => by cases side <;> exact Ty.Keeps.nil _⟩

theorem Graph.Owner.stored {g : Graph} {tag : Nat} (h : g.Owner tag inside) {x : VarId} {t : Ty}
    (ht : t ∈ Members.types (g.boundsOf x).lower ++ Members.types (g.boundsOf x).upper) :
    t.Keeps tag g.ids inside := by
  have hside (side : Side) (ht : t ∈ Members.types ((g.boundsOf x).side side)) :
      t.Keeps tag g.ids inside := by
    obtain ⟨m, hm, rfl⟩ := Members.mem_types.1 ht
    exact (Ty.every_container.1 (h.owning.stored side x)).2 m hm
  rcases List.mem_append.1 ht with ht | ht
  · exact hside .lower ht
  · exact hside .upper ht

/-- **A graph owns the convertibles in its bounds**, whatever calls it has seen, failed ones, merges
and forks included: an open convertible that is a node of a bound is bound to a registered variable
of this very graph. If no added type hides open convertibles in the targets of fixed ones, then this
holds of every open convertible in a bound, at any depth. -/
theorem convertibles_owned_of_after {tag : Nat} (htag : tag ≠ 0) {lattice : Lattice}
    (hl : lattice.Plain) (policy : Policy) {calls : List Call}
    (hforks : ∀ tag', .fork tag' ∈ calls → tag' ≠ 0) :
    let g := Graph.after { tag, lattice, policy } calls
    ∀ x, ∀ t ∈ Members.types (g.boundsOf x).lower ++ Members.types (g.boundsOf x).upper,
      (∀ cell owner var, .asVar cell owner var ∈ t.convertibles → owner = g.tag ∧
        g.hasTypeVariable var) ∧
      ((∀ id t', .addLower id t' ∈ calls ∨ .addUpper id t' ∈ calls → t'.Sealed) →
        ∀ b ∈ t.bindings, b.1 = g.tag ∧ g.hasTypeVariable b.2) := by
  intro g x t ht
  have howner (inside : Ty → Prop) (hinside : ∀ cell owner var t, inside t →
      inside (t.rebind cell owner var))
        (hnominal : ∀ name kind final parents, inside (.nominal name kind final parents))
      (htypes : ∀ id t', .addLower id t' ∈ calls ∨ .addUpper id t' ∈ calls →
        ∀ target, .asType target ∈ t'.subterms → inside target) : t.Keeps g.tag g.ids inside := by
    refine ((Graph.Owner.empty htag hl (hl.leaves hnominal) policy).after hinside
      fun c hc => ?_).stored ht
    cases c with
    | addLower id t' => exact Ty.every_leaf hnominal (htypes id t' (.inl hc))
    | addUpper id t' => exact Ty.every_leaf hnominal (htypes id t' (.inr hc))
    | fork tag' => exact hforks tag' hc
    | _ => trivial
  have hnode {inside : Ty → Prop} (h : t.Keeps g.tag g.ids inside) {cell : Option Nat} {owner : Nat}
      {var : VarId} (hs : .asVar cell owner var ∈ t.subterms) : owner = g.tag ∧
      g.hasTypeVariable var := by
    obtain ⟨-, howner, hvar⟩ := h _ hs
    exact ⟨howner, Graph.mem_ids.1 hvar⟩
  refine ⟨fun cell owner var hs => ?_, fun hsealed b hb => ?_⟩
  · have hkept :=
      howner (fun _ => True) (fun _ _ _ _ _ => trivial) (fun _ _ _ _ => trivial)
        fun _ _ _ _ _ => trivial
    exact hnode hkept (List.mem_of_mem_filter hs)
  · have hkept := howner (fun t => t.bindings = []) (fun _ _ _ _ => Ty.bindings_rebind_eq_nil.2)
      (fun _ _ _ _ => by simp [Ty.bindings]) hsealed
    rcases Ty.mem_bindings hb with ⟨cell, hs⟩ | ⟨target, hs, hb⟩
    · exact hnode hkept hs
    · have hnone : target.bindings = [] := hkept _ hs
      rw [hnone] at hb
      cases hb

/-- Three variables, a type below the first, and the second one merged into the third. -/
def mergedBelow (t : Ty) : List Call :=
  [.addVariable "$t" (some { id := "T" }), .addVariable "$u" (some { id := "U" }),
    .addVariable "$v" (some { id := "V" }), .addLower "T" t, .merge "U" "V"]

theorem convertibles_owned_of_after_mergedBelow :
    let g := Graph.after { tag := 1 } (mergedBelow (.unionOf [.asVar none 1 "U", .asType .mixed]))
    .asVar none 1 "V" ∈ Members.types (g.boundsOf "T").lower ∧ 1 = g.tag ∧
      g.hasTypeVariable "V" := by
  have hl : Lattice.Plain {} := fun _ hc => (List.not_mem_nil hc).elim
  have hlower : Members.types ((Graph.after { tag := 1 }
      (mergedBelow (.unionOf [.asVar none 1 "U", .asType .mixed]))).boundsOf "T").lower =
      [.asVar none 1 "V", .asType .mixed] := by rfl
  have hmem := hlower ▸ List.mem_cons_self ..
  refine ⟨hmem, ?_⟩
  have hforks : ∀ tag', .fork tag' ∈ mergedBelow (.unionOf [.asVar none 1 "U", .asType .mixed]) →
      tag' ≠ 0 := by
    simp [mergedBelow]
  have howned :=
    convertibles_owned_of_after Nat.one_ne_zero hl .plain hforks "T" _ (List.mem_append_left _ hmem)
  exact howned.1 none 1 "V" (by simp [Ty.convertibles, Ty.subterms, Ty.isConvertible])

/-- **What is hidden in a target is not looked after**: the convertible to `U` outlives `U`. -/
theorem not_convertibles_owned_hidden :
    let g := Graph.after { tag := 1 } (mergedBelow (.asType (.asVar none 1 "U")))
    Graph.accepts { tag := 1 } (mergedBelow (.asType (.asVar none 1 "U"))) ∧
      (∃ t ∈ Members.types (g.boundsOf "T").lower, (1, "U") ∈ t.bindings) ∧
      g.hasTypeVariable "U" = false := by
  decide +kernel

end TypeBounds
