import TypeBounds.Proofs.Agreement
import TypeBounds.Proofs.Coherence

/-!
# The order of calls

Steady calls are all accepted in one order if and only if they all are in any other order. What
decides is what they give to the variables:

* `Graph.Steadied`: a graph that has accepted some of the calls. All that it holds fits together,
  and it holds just what those calls demand. One more accepted call keeps that (`Steadied.outcome`),
  and so do all of them (`Steadied.after`);
* `Steadied.consistent`: once all calls were accepted, all that they give is consistent;
* `Steadied.accepts`: if all that they give is consistent, nothing is refused;
* `orderFree_of_steady`: the result. For each condition of `Steady` there are calls that fail it and
  whose order matters.
-/

namespace TypeBounds

open Infer Relation TypeBounds.Graph

/-! ## Calls on registered variables -/

/-- A call that registers a variable. -/
def Call.Registers : Call → Prop
  | addVariable _ _ => True
  | _ => False

/-- A call that constrains registered variables, by a type or by a mutable reference. -/
def Call.Constrains : Call → Prop
  | addLower _ _ => True
  | addUpper _ _ => True
  | addRef id r => (addRef id r).IsMutable
  | _ => False

/-- The graph knows the variables that a call is about, and the convertibles in its type are its
own. -/
def Call.Admitted (g : Graph) : Call → Prop
  | addLower id t => id ∈ g.ids ∧ g.requireOwned t = .ok ()
  | addUpper id t => id ∈ g.ids ∧ g.requireOwned t = .ok ()
  | addRef id r => id ∈ g.ids ∧ ∃ r', r = some r' ∧ r'.id ∈ g.ids
  | _ => True

instance : IsPreorder Graph SameFrame where
  refl _ := .rfl
  trans _ _ _ := .trans

namespace Call

variable {g g' : Graph} {c : Call}

theorem sameFrame_outcome (hc : c.Constrains) (g : Graph) : SameFrame g (c.outcome g).graph := by
  have hspread (side : Side) (id : VarId) (t : Ty) (s : Progress) :
      Along SameFrame (spread side id t) s :=
    (sameShape_spread side id t s).toSameFrame
  cases c with
  | addLower id t => exact along_addBound hspread .lower id t
  | addUpper id t => exact along_addBound hspread .upper id t
  | addRef id r =>
    refine along_addRef hspread (fun id => ?_) (fun x y => ?_) id r
    · exact sameTypes_link.toSameFrame
    · exact sameTypes_linkAcross.toSameFrame
  | _ => exact hc.elim

theorem Admitted.of_eq (hids : g'.ids = g.ids) (htag : g'.tag = g.tag) (hc : c.Admitted g) :
    c.Admitted g' := by
  have howned {t : Ty} (ht : g.requireOwned t = .ok ()) : g'.requireOwned t = .ok () := by
    rw [requireOwned_iff] at ht ⊢
    unfold Graph.owns at ht ⊢
    rw [hids, htag]
    exact ht
  cases c with
  | addLower id t => exact ⟨hids ▸ hc.1, howned hc.2⟩
  | addUpper id t => exact ⟨hids ▸ hc.1, howned hc.2⟩
  | addRef id r =>
    obtain ⟨hid, r', hr, hr'⟩ := hc
    exact ⟨hids ▸ hid, r', hr, hids ▸ hr'⟩
  | _ => exact hc

/-- What is accepted was admitted. -/
theorem admitted_of_fault (hc : c.Constrains) (h : (c.outcome g).fault = none) : c.Admitted g := by
  cases c with
  | addLower id t => exact checkBound_iff.1 (checkBound_of_addBound h)
  | addUpper id t => exact checkBound_iff.1 (checkBound_of_addBound h)
  | addRef id r =>
    obtain ⟨r', hr, hid, hr', -⟩ := addRef_accepted h
    exact ⟨hid, r', hr, hr'⟩
  | _ => exact hc.elim

end Call

/-- What is accepted one by one could all have been admitted at the start. -/
theorem admitted_of_accepts {g : Graph} {calls : List Call} (hcalls : ∀ c ∈ calls, c.Constrains)
    (h : g.accepts calls) : ∀ c ∈ calls, c.Admitted g := by
  induction calls generalizing g with
  | nil => exact fun c hc => (List.not_mem_nil hc).elim
  | cons c calls ih =>
    obtain ⟨hc, hcalls⟩ := List.forall_mem_cons.1 hcalls
    obtain ⟨hfirst, hrest⟩ := accepts_cons.1 h
    have hframe := Call.sameFrame_outcome hc g
    refine List.forall_mem_cons.2 ⟨Call.admitted_of_fault hc hfirst, fun c' hc' => ?_⟩
    exact (ih hcalls hrest c' hc').of_eq hframe.ids.symm hframe.tag.symm

/-! ## Graphs that have accepted some of the calls -/

/-- The parts of a type as they are stored. -/
def Side.stored (side : Side) (t : Ty) : Ty :=
  side.container (((side.parts t).map Ty.copy).map fun p => (p.name, p))

/-- One of the calls adds a type at `x` that is stored as `t`. -/
def Stores (calls : List Call) (side : Side) (x : VarId) (t : Ty) : Prop :=
  ∃ t', AddsBound calls side x t' ∧ t = side.stored t'

/-- **A graph that has accepted some of the calls**: all that it holds fits together, and it is what
those calls demand. -/
structure Graph.Steadied (u : Universe) (l : Lattice) (tag : Nat)
    (calls done : List Call) (g : Graph) :
    Prop extends Exact (Part u tag) (AddsEdge done) (Stores done) g,
      Fitted l tag calls (fun _ => False) g where
  among : ∀ c ∈ done, c ∈ calls

section

variable {u : Universe} {l : Lattice} {tag : Nat} {calls done rest : List Call}
  {g : Graph} {side : Side} {id x : VarId} {m t : Ty} {c : Call}

/-- The parts of a type are given to the variable that it is added to. -/
theorem AddsBound.given (hadd : AddsBound calls side id t) :
    ∀ p ∈ side.parts t, Given calls side id p :=
  fun p hp => ⟨id, t, p, hadd, .refl side _ id, hp, .inl rfl⟩

theorem Steady.parts_stored (hu : u.Sound) (hs : Steady u l tag calls)
    (hadd : AddsBound calls side id t) :
    side.parts (side.stored t) = (side.parts t).map Ty.copy := by
  have htypes : Members.types (((side.parts t).map Ty.copy).map fun p => (p.name, p)) =
      (side.parts t).map Ty.copy := by
    rw [Members.types, List.map_map]
    exact List.map_id _
  refine (Side.parts_container ?_).trans htypes
  rw [htypes]
  intro e he
  obtain ⟨p, hp, rfl⟩ := List.mem_map.1 he
  exact hs.ne_container hu (hs.given_copy hu (hadd.given p hp))

/-- No type that is added is a convertible to the variable itself. -/
theorem Steady.isSelf_bound (hu : u.Sound) (hs : Steady u l tag calls)
    (hadd : AddsBound calls side id t) (g : Graph) : g.isSelf id t = false := by
  cases t with
  | asVar cell owner var =>
    refine hs.isSelf_eq hu (hadd.given _ ?_) g
    cases side <;> exact List.mem_singleton_self _
  | _ => rfl

namespace Graph.Steadied

/-- Where the graph leads, something is given. -/
theorem given_of_onward (h : g.Steadied u l tag calls done) (hadd : AddsBound calls side id t)
    (hx : ReflTransGen (fun x y => y ∈ g.onward side x) id x) :
    ∀ p ∈ side.parts t, Given calls side x p := by
  intro p hp
  have hleads := leads_of_reflTransGen (fun _ _ => h.leads) hx
  exact (hadd.given p hp).of_leads (hleads.addsEdge_mono h.among)

theorem among_concat (h : g.Steadied u l tag calls done) (hc : c ∈ calls) :
    ∀ c' ∈ done ++ [c], c' ∈ calls := by
  intro c' hc'
  rcases List.mem_append.1 hc' with hc' | hc'
  · exact h.among c' hc'
  · rw [List.mem_singleton.1 hc']
    exact hc

/-- With a new edge, nothing leads anywhere but along the edges of all calls. -/
theorem leads_of_linkAcross (h : g.Steadied u l tag calls done) {a b : VarId} (ha : a ∈ g.ids)
    (hb : b ∈ g.ids) (hab : AddsEdge calls a b) (side : Side) (x y : VarId)
    (hxy : y ∈ (g.linkAcross a b).onward side x) : side.Leads (AddsEdge calls) x y := by
  have hdone : ∀ x y, AddsEdge done x y → AddsEdge calls x y := fun x y hxy =>
    hxy.imp fun r hr => hr.imp_right (h.among _)
  refine (h.wellFormed.crosses ha hb side).leads (fun x y hxy => (h.leads hxy).mono hdone) ?_ hxy
  cases side <;> exact .single hab

variable (hs : Regular u l tag calls)

include hs

/-- An accepted type. -/
theorem bound (h : g.Steadied u l tag calls done) (side : Side)
    (hadd : AddsBound calls side id t) (hacc : (g.addBound side id t).fault = none) :
    (g.addBound side id t).graph.Steadied u l tag calls (done ++ [.bound side id t]) := by
  have hu := hs.legible.toSound
  obtain ⟨hid, s, hspread, hgraph⟩ := addBound_accepted (hs.isSelf_bound hu hadd g) hacc
  obtain ⟨hfitted, harr⟩ :=
    spread_fitted hs h.toFitted h.wellFormed hid (fun x => h.given_of_onward hadd) hspread
  rw [← hs.parts_stored hu hadd] at harr
  rw [hgraph]
  refine ⟨(h.toExact.addBound harr).congr (fun x y => ?_) fun side' x t' => ?_, hfitted,
    h.among_concat hadd⟩
  · rw [addsEdge_concat]
    simp [Call.bound_ne_addRef]
  · simp only [Stores, addsBound_concat, Call.bound_inj]
    grind

/-- An accepted reference. -/
theorem addRef (h : g.Steadied u l tag calls done) {r : Option Reference}
    (hc : .addRef id r ∈ calls) (hm : (Call.addRef id r).IsMutable)
    (hacc : (g.addRef id r).fault = none) :
    (g.addRef id r).graph.Steadied u l tag calls (done ++ [.addRef id r]) := by
  obtain ⟨r, rfl, hid, hr, hcases⟩ := addRef_accepted hacc
  have hab : AddsEdge calls r.id id := ⟨r, rfl, hc⟩
  have hrecord {g' : Graph} (hfitted : g'.Fitted l tag calls fun _ => False)
      (hexact : Exact (Part u tag) (fun x y => AddsEdge done x y ∨ x = r.id ∧
        y = id) (Stores done) g') :
      g'.Steadied u l tag calls (done ++ [.addRef id (some r)]) := by
    refine ⟨hexact.congr (fun x y => ?_) fun side x t => ?_, hfitted, h.among_concat hc⟩
    · rw [addsEdge_concat]
      grind
    · simp only [Stores, addsBound_concat, Call.bound_ne_addRef.symm, or_false]
  have hknown (hab : ReflTransGen (AddsEdge done) r.id id) :
      Exact (Part u tag) (fun x y => AddsEdge done x y ∨ x = r.id ∧ y = id) (Stores done) g :=
    h.toExact.addKnownEdge hab
  rcases hcases with ⟨hself, hgraph | hgraph⟩ | ⟨hne, s, hgraph, hrun⟩
  · rw [hgraph]
    exact hrecord h.toFitted (hknown (hself ▸ .refl))
  · rw [hgraph]
    exact hrecord (h.toFitted.of_sameTypes sameTypes_link) ((hknown (hself ▸ .refl)).linkSelf hid)
  · rw [hgraph]
    rw [show r.fixed = false from hm] at hrun
    obtain ⟨hfitted, ⟨hedge, hs'⟩ | ⟨-, g₁, hlower, hupper⟩⟩ :=
      addEdge_fitted (s := { graph := g }) hs h.toFitted h.wellFormed hr hid hab
        (h.leads_of_linkAcross hr hid hab) hrun
    · rw [hs']
      exact hrecord h.toFitted (hknown ((h.edges r.id id hne).1 hedge))
    · exact hrecord hfitted (h.toExact.addEdge hr hid hlower hupper)

/-- **One accepted call.** -/
theorem outcome (h : g.Steadied u l tag calls done) (hc : c ∈ calls)
    (hcon : c.Constrains) (hacc : (c.outcome g).fault = none) :
    (c.outcome g).graph.Steadied u l tag calls (done ++ [c]) := by
  cases c with
  | addLower id t => exact h.bound hs .lower hc hacc
  | addUpper id t => exact h.bound hs .upper hc hacc
  | addRef id r => exact h.addRef hs hc hcon hacc
  | _ => exact hcon.elim

/-- **All accepted calls.** -/
theorem after (h : g.Steadied u l tag calls done)
    (hrest : ∀ c ∈ rest, c ∈ calls ∧ c.Constrains) (hacc : g.accepts rest) :
    (g.after rest).Steadied u l tag calls (done ++ rest) := by
  induction rest generalizing g done with
  | nil =>
    rw [List.append_nil]
    exact h
  | cons c rest ih =>
    obtain ⟨⟨hc, hcon⟩, hrest⟩ := List.forall_mem_cons.1 hrest
    obtain ⟨hfirst, hacc⟩ := accepts_cons.1 hacc
    rw [List.append_cons]
    exact ih (h.outcome hs hc hcon hfirst) hrest hacc

/-! ## Nothing is refused -/

variable (hcons : Consistent l calls)

include hcons

theorem bound_accepted
    (h : g.Steadied u l tag calls done) (side : Side) (hadd : AddsBound calls side id t)
    (hid : id ∈ g.ids) (howned : g.requireOwned t = .ok ()) :
    (g.addBound side id t).fault = none := by
  obtain ⟨s, hspread⟩ :=
    hcons.spread_runs (s := { graph := g }) hs h.toWithin fun x => h.given_of_onward hadd
  rw [addBound_eq_run (hs.isSelf_bound hs.legible.toSound hadd g) (checkBound_iff.2 ⟨hid, howned⟩),
    run, hspread]

theorem addRef_accepted
    (h : g.Steadied u l tag calls done) {r : Reference} (hc : .addRef id (some r) ∈ calls)
    (hfixed : r.fixed = false) (hid : id ∈ g.ids) (hr : r.id ∈ g.ids) :
    (g.addRef id (some r)).fault = none := by
  have hab : AddsEdge calls r.id id := ⟨r, rfl, hc⟩
  obtain ⟨b, hb⟩ := Table.exists_get? hid
  obtain ⟨rb, hrb⟩ := Table.exists_get? hr
  obtain ⟨s, hedge⟩ := hcons.addEdge_runs (s := { graph := g }) hs h.toFitted h.wellFormed hr hid
    hab (h.leads_of_linkAcross hr hid hab)
  simp only [Graph.addRef, require_eq_ok.2 hb, require_eq_ok.2 hrb, hfixed,
    Bool.false_eq_true, if_false]
  split
  · split <;> rfl
  · rw [run, hedge]

/-- **Where all that is given is consistent**, no call is refused. -/
theorem accepts (h : g.Steadied u l tag calls done)
    (hrest : ∀ c ∈ rest, c ∈ calls ∧ c.Constrains) (hadm : ∀ c ∈ rest, c.Admitted g) :
    g.accepts rest := by
  induction rest generalizing g done with
  | nil => rfl
  | cons c rest ih =>
    obtain ⟨⟨hc, hcon⟩, hrest⟩ := List.forall_mem_cons.1 hrest
    obtain ⟨hfirst, hadm⟩ := List.forall_mem_cons.1 hadm
    have hacc : (c.outcome g).fault = none := by
      cases c with
      | addLower id t => exact h.bound_accepted hs hcons .lower hc hfirst.1 hfirst.2
      | addUpper id t => exact h.bound_accepted hs hcons .upper hc hfirst.1 hfirst.2
      | addRef id r =>
        obtain ⟨hid, r, rfl, hr⟩ := hfirst
        exact h.addRef_accepted hs hcons hc hcon hid hr
      | _ => exact hcon.elim
    -- what is registered does not change, so the other calls are still admitted
    have hframe := Call.sameFrame_outcome hcon g
    refine accepts_cons.2 ⟨hacc, ih (h.outcome hs hc hcon hacc) hrest fun c' hc' => ?_⟩
    exact (hadm c' hc').of_eq hframe.ids hframe.tag

end Graph.Steadied

/-! ## Once all calls were accepted -/

theorem Compatible.symm {a b : Ty} (h : Compatible a b) : Compatible b a := by
  intro hclash
  rw [clashes_comm] at hclash
  exact (h hclash).symm

/-- No part of a plain type is under a convertible. -/
theorem ConvertibleFree.not_under_asVar (hu : u.Legible) (hp : ConvertibleFree u m)
    {cell : Option Nat} {owner : Nat} {var : String} : ¬Under m (.asVar cell owner var) := by
  intro h
  cases h with
  | same hname => exact hp.name_ne_asVar hu cell owner var hname

/-- Subtyping goes on from a plain type, whatever is in between. -/
theorem Plain.sub_trans (hu : u.Legible) {a b e : Ty} (he : Plain u e) (ha : Part u tag side a)
    (hb : Part u tag side b) (hea : Sub e a) (hab : Sub a b) : Sub e b := by
  rcases ha with ha | ⟨var, rfl⟩
  · rcases hb with hb | ⟨var, rfl⟩
    · exact hea.trans hu he ha.1.convertibleFree hb.1.convertibleFree hab
    · -- then neither of them has any parts
      intro p hp
      obtain ⟨hplain, hfree⟩ := he.of_mem_unionParts hu.toSound hp
      obtain ⟨q, hq, -⟩ :=
        (hea p hp).exists_part hu hplain.convertibleFree hfree.firm ha.1.convertibleFree
      have hqcf := (ha.1.of_mem_unionParts hu.toSound hq).1.convertibleFree
      exact absurd (hab q hq) (hqcf.not_under_asVar hu)
  · intro p hp
    have hpcf := (he.of_mem_unionParts hu.toSound hp).1.convertibleFree
    exact absurd (hea p hp) (hpcf.not_under_asVar hu)

/-- There is no need for members in between two plain types. -/
theorem Side.Implied.covered_of_plain (hu : u.Legible) {a b : Ty}
    (h : side.Implied (Part u tag) a b) (ha : Plain u a) (hb : Plain u b) : side.Covered a b := by
  cases side with
  | lower =>
    clear hb
    induction h with
    | refl => exact ha.convertibleFree.sub_refl hu.toSound
    | tail _ hlast ih => exact ha.sub_trans hu hlast.1 hlast.2.1 ih hlast.2.2
  | upper =>
    clear ha
    induction h using ReflTransGen.head_induction_on with
    | refl => exact hb.convertibleFree.sub_refl hu.toSound
    | head hfirst _ ih => exact hb.sub_trans hu hfirst.2.1 hfirst.1 ih hfirst.2.2

/-- Where one convertible is given, all that is given is a convertible to the same variable. -/
theorem Steady.asVar_of_isConvertible (hu : u.Sound) (hs : Steady u l tag calls) {e : Ty}
    (he : Given calls side x e) (hconv : e.isConvertible) :
    ∃ var, ∀ m, Given calls side x m → ∃ cell, m = .asVar cell tag var := by
  rcases hs.uniform side x with hplain | ⟨var, -, hopen⟩
  · rw [(hplain e he).convertibleFree.isConvertible_eq hu] at hconv
    cases hconv
  · exact ⟨var, hopen⟩

/-- Where one plain type is given, all that is given is plain. -/
theorem Steady.plain_of_isConvertible (hs : Steady u l tag calls) {e : Ty}
    (he : Given calls side x e) (hconv : e.isConvertible = false) :
    ∀ m, Given calls side x m → Plain u m := by
  rcases hs.uniform side x with hplain | ⟨var, -, hopen⟩
  · exact hplain
  · obtain ⟨cell, rfl⟩ := hopen e he
    cases hconv

/-- Given members in the place of which there are two of the same name fit together. -/
theorem Graph.Within.fits_of_name_eq (hs : Regular u l tag calls) (h : g.Within l tag calls)
    {p p' q q' : Ty} (hp : Given calls .lower x p) (hq : Given calls .upper x q)
    (hp' : p' ∈ g.has .lower x) (hq' : q' ∈ g.has .upper x) (hpp' : Sub p p') (hqq' : Sub q' q)
    (hname : p'.name = q'.name) : l.Fits (GivenPlain calls) p q := by
  have hu := hs.legible
  have hpgiven := (h.given .lower x p' hp').1
  have hqgiven := (h.given .upper x q' hq').1
  cases hpconv : p'.isConvertible with
  | true =>
    obtain ⟨var, hpopen⟩ := hs.asVar_of_isConvertible hu.toSound hpgiven hpconv
    obtain ⟨cell, rfl⟩ := hpopen p' hpgiven
    cases hqconv : q'.isConvertible with
    | true =>
      obtain ⟨var', hqopen⟩ := hs.asVar_of_isConvertible hu.toSound hqgiven hqconv
      obtain ⟨cell', rfl⟩ := hqopen q' hqgiven
      obtain ⟨cell₁, rfl⟩ := hpopen p hp
      obtain ⟨cell₂, rfl⟩ := hqopen q hq
      exact .inl hname
    | false =>
      have hqcf := (hs.plain_of_isConvertible hqgiven hqconv q' hqgiven).convertibleFree
      exact absurd hname.symm (hqcf.name_ne_asVar hu cell tag var)
  | false =>
    have hpplain := hs.plain_of_isConvertible hpgiven hpconv
    rcases hs.plain_or_asVar hqgiven with hq'plain | ⟨cell, var, -, rfl⟩
    · have hqplain :=
        hs.plain_of_isConvertible hqgiven (hq'plain.convertibleFree.isConvertible_eq hu.toSound)
      have hpcf := (hpplain p' hpgiven).convertibleFree
      have hpq' : Sub p' q' := (sub_iff_under (hs.ne_container hu.toSound hpgiven)).2 (.same hname)
      refine ((hpplain p hp).fits_iff hu (hs.ne_container hu.toSound hp) (hqplain q hq)).2 ?_
      have hpq := hpp'.trans hu (hpplain p hp) hpcf hq'plain.convertibleFree hpq'
      exact hpq.trans hu (hpplain p hp) hq'plain.convertibleFree (hqplain q hq).convertibleFree hqq'
    · exact absurd hname ((hpplain p' hpgiven).convertibleFree.name_ne_asVar hu cell tag var)

namespace Graph.Steadied

variable {e : Ty} (hs : Regular u l tag calls) (h : g.Steadied u l tag calls done)
  (hall : ∀ c ∈ calls, c ∈ done)

include hs h hall

/-- What is given is covered by what the graph holds. -/
theorem covers (hm : Given calls side x m) : ∃ e ∈ g.has side x, side.Covered m e := by
  have hu := hs.legible
  have hgiven := hm
  obtain ⟨y, t, p, hadd, hyx, hp, hmp⟩ := hm
  have hstored : p.copy ∈ side.parts (side.stored t) := by
    rw [hs.parts_stored hu.toSound hadd]
    exact List.mem_map_of_mem hp
  have hasserted := (h.supplied side).asserted y _ ⟨t, hall _ hadd, rfl⟩ p.copy hstored
  obtain ⟨e, he, hpe⟩ := h.entails_of_leads (hyx.addsEdge_mono hall) hasserted
  refine ⟨e, he, ?_⟩
  rcases hs.uniform side x with hplain | ⟨var, -, hopen⟩
  · have hpgiven : Plain u p := hplain p ⟨y, t, p, hadd, hyx, hp, .inl rfl⟩
    rw [hpgiven.copy_eq hu.toSound] at hmp hpe
    rw [or_self] at hmp
    rw [hmp]
    exact hpe.covered_of_plain hu hpgiven (hplain e (h.given side x e he).1)
  · obtain ⟨cell, rfl⟩ := hopen m hgiven
    obtain ⟨cell', rfl⟩ := hopen e (h.given side x e he).1
    cases side <;> exact (sub_iff_under fun _ h => by cases h).2 (.same rfl)

/-- **What a given member stands for** is covered by what a member in its place stands for. -/
theorem exists_standsFor (hm : Given calls side x m) (he : e ∈ g.has side x)
    (hcov : side.Covered m e) {f : Ty} (hf : StandsFor (GivenPlain calls) m f) :
    ∃ f', StandsFor g.Settles e f' ∧ Plain u f ∧ Plain u f' ∧ side.Covered f f' := by
  have hu := hs.legible.toSound
  have hgiven := (h.given side x e he).1
  cases hconv : m.isConvertible with
  | false =>
    have hplain := hs.plain_of_isConvertible hm hconv
    have hmcf := (hplain m hm).convertibleFree
    have hecf := (hplain e hgiven).convertibleFree
    obtain rfl := (hmcf.standsFor_iff hu).1 hf
    exact ⟨e, (hecf.standsFor_iff hu).2 rfl, hplain f hm, hplain e hgiven, hcov⟩
  | true =>
    obtain ⟨var, hopen⟩ := hs.asVar_of_isConvertible hu hm hconv
    obtain ⟨cell, rfl⟩ := hopen m hm
    obtain ⟨cell', rfl⟩ := hopen e hgiven
    obtain ⟨hfconv, side', hfgiven⟩ := hf
    have hplain := hs.plain_of_isConvertible hfgiven hfconv
    obtain ⟨f', hf', hff'⟩ := h.covers hs hall hfgiven
    have hf'given := (h.given side' var f' hf').1
    have hf'conv := (hplain f' hf'given).convertibleFree.isConvertible_eq hu
    refine ⟨f', ⟨hf'conv, side', hf'⟩, hplain f hfgiven, hplain f' hf'given, ?_⟩
    -- what comes in on this side only can have grown; what is one type is still that type
    rcases hs.aligned side x cell var hm with hother | hone
    · obtain rfl := hfgiven.side_eq hother hfconv
      exact hff'
    · rw [hone f f' ⟨hfconv, side', hfgiven⟩ ⟨hf'conv, side', hf'given⟩]
      exact side.covered_refl hu (hplain f' hf'given).convertibleFree

/-- **Once all calls were accepted**, all that they give is consistent. -/
theorem consistent : Consistent l calls where
  fits x p q hp hq := by
    obtain ⟨p', hp', hpp'⟩ := h.covers hs hall hp
    obtain ⟨q', hq', hqq'⟩ := h.covers hs hall hq
    have hfits := h.fits x p' hp' q' hq' fun _ _ => id
    refine hfits.of_covered hs.legible hs.converts (fun e he => ?_) (fun f hf => ?_)
      (fun hconv => ?_) fun hname => ?_
    · exact h.exists_standsFor hs hall hp hp' hpp' he
    · exact h.exists_standsFor hs hall hq hq' hqq' hf
    · obtain ⟨var, hopen⟩ :=
        hs.asVar_of_isConvertible hs.legible.toSound (h.given .upper x q' hq').1 hconv
      obtain ⟨cell, rfl⟩ := hopen q hq
      rfl
    · exact h.toWithin.fits_of_name_eq hs hp hq hp' hq' hpp' hqq' hname
  apart x q q' hq hq' := by
    obtain ⟨e, he, hqe⟩ := h.covers hs hall hq
    obtain ⟨e', he', hqe'⟩ := h.covers hs hall hq'
    have hgiven := (h.given .upper x e he).1
    have hgiven' := (h.given .upper x e' he').1
    -- what the graph holds stands together, and so does what it has taken the place of
    have hee' : Compatible e e' := by
      intro hclash
      rw [h.apart x e he e' he' hclash]
      exact .inl (hs.sub_refl hs.legible.toSound hgiven')
    have hqe'' := hs.coherent x e q e' hgiven hq hgiven' hqe hee'
    exact (hs.coherent x e' q' q hgiven' hq' hq hqe' hqe''.symm).symm

end Graph.Steadied

/-! ## Any order -/

/-- Registering variables touches no bounds. -/
theorem boundsOf_registered {registered : List Call} (hreg : ∀ c ∈ registered, c.Registers) :
    (∀ x, (g.after registered).boundsOf x = g.boundsOf x) ∧
      (g.after registered).lattice = g.lattice ∧
      (g.after registered).tag = g.tag := by
  induction registered generalizing g with
  | nil => exact ⟨fun x => rfl, rfl, rfl⟩
  | cons c registered ih =>
    obtain ⟨hc, hreg⟩ := List.forall_mem_cons.1 hreg
    obtain ⟨hbounds, hlattice, htag⟩ := ih (g := (c.outcome g).graph) hreg
    suffices hfirst : (∀ x, (c.outcome g).graph.boundsOf x = g.boundsOf x) ∧
        (c.outcome g).graph.lattice = g.lattice ∧ (c.outcome g).graph.tag = g.tag by
      exact ⟨fun x => (hbounds x).trans (hfirst.1 x), hlattice.trans hfirst.2.1,
        htag.trans hfirst.2.2⟩
    cases c with
    | addVariable name r =>
      rw [Call.outcome]
      cases hg : g.addVariable name r with
      | error m => exact ⟨fun x => rfl, rfl, rfl⟩
      | ok g' =>
        obtain ⟨r', -, -, rfl⟩ := addVariable_eq_ok.1 hg
        exact ⟨fun x => boundsOf_register, rfl, rfl⟩
    | _ => exact hc.elim

/-- Registered variables, before any of the calls. -/
theorem Graph.Steadied.registered (u : Universe) (l : Lattice) (tag : Nat) (policy : Policy)
    (calls : List Call) {registered : List Call} (hreg : ∀ c ∈ registered, c.Registers) :
    (Graph.after { tag, lattice := l, policy } registered).Steadied u l tag calls [] := by
  obtain ⟨hbounds, hlattice, htag⟩ := boundsOf_registered (g := { tag, lattice := l, policy }) hreg
  have hnone (side : Side) (x : VarId) :
      (Graph.after { tag, lattice := l, policy } registered).has side x = [] := by
    rw [has, hbounds]
    cases side <;> rfl
  have hmem {side : Side} {x : VarId} {e : Ty} {P : Prop}
      (he : e ∈ (Graph.after { tag, lattice := l, policy } registered).has side x) : P := by
    rw [hnone] at he
    exact (List.not_mem_nil he).elim
  have hempty : Exact (Part u tag) (AddsEdge []) (Stores []) { tag, lattice := l, policy } := by
    refine .empty tag l policy ?_ ?_
    · rintro x y ⟨r, -, hr⟩
      exact List.not_mem_nil hr
    · rintro side x t ⟨t', hadd, -⟩
      exact List.not_mem_nil hadd
  have hexact := hempty.of_boundsOf_eq (.after (.empty tag l policy) registered) hbounds
  refine ⟨hexact, ⟨⟨hlattice, htag, ?_, ?_⟩, ?_, ?_⟩, ?_⟩
  · intro side x
    rw [hbounds]
    cases side <;> exact .nil
  · exact fun side x e he => hmem he
  · exact fun x p hp => hmem hp
  · exact fun x q hq => hmem hq
  · exact fun c hc => (List.not_mem_nil hc).elim

/-- **All that the calls give decides**, and not the order in which they come. -/
theorem accepts_iff_consistent (hs : Regular u l tag calls) (hcalls : ∀ c ∈ calls, c.Constrains)
    (h : g.Steadied u l tag calls []) (hrest : ∀ c, c ∈ rest ↔ c ∈ calls) :
    g.accepts rest ↔ (∀ c ∈ calls, c.Admitted g) ∧ Consistent l calls := by
  have hamong : ∀ c ∈ rest, c ∈ calls ∧ c.Constrains := by
    intro c hc
    have hc := (hrest c).1 hc
    exact ⟨hc, hcalls c hc⟩
  constructor
  · intro hacc
    refine ⟨fun c hc => ?_, (h.after hs hamong hacc).consistent hs fun c hc => (hrest c).2 hc⟩
    exact admitted_of_accepts (fun c hc => (hamong c hc).2) hacc c ((hrest c).2 hc)
  · rintro ⟨hadm, hcons⟩
    exact h.accepts hs hcons hamong fun c hc => hadm c (hamong c hc).1

end

/-- Whether the calls are all accepted does not depend on their order. -/
def Graph.OrderFree (g : Graph) (calls : List Call) : Prop :=
  ∀ calls', calls'.Perm calls → (g.accepts calls' ↔ g.accepts calls)

/-- **The order of steady calls does not matter.** Whatever variables are registered, type bounds
and mutable references are all accepted in one order if and only if they are in every other order:
exactly if the graph knows the variables they are about and all that they give is consistent. -/
theorem orderFree_of_steady {decls : List TypeDecl} {u : Universe}
    (hu : Universe.ofDecls decls = .ok u)
    (hnames : ∀ name ∈ u.types.keys, IsIdentifier name ∧ name ≠ "nothing") {tag : Nat}
    (htag : tag ≠ 0) {lattice : Lattice} (hl : u.Converts lattice) (policy : Policy)
    {registered calls : List Call} (hreg : ∀ c ∈ registered, c.Registers)
    (hcalls : ∀ c ∈ calls, c.Constrains) (hsteady : Steady u lattice tag calls) :
    let g := Graph.after { tag, lattice, policy } registered
    (g.accepts calls ↔ (∀ c ∈ calls, c.Admitted g) ∧ Consistent lattice calls) ∧
      g.OrderFree calls := by
  intro g
  have hlegible := Universe.legible_of_ofDecls hu hnames
  have hs : Regular u lattice tag calls := ⟨hsteady, hlegible, hl, htag⟩
  have hstart : g.Steadied u lattice tag calls [] := .registered u lattice tag policy calls hreg
  have hiff {rest : List Call} (hrest : ∀ c, c ∈ rest ↔ c ∈ calls) :=
    accepts_iff_consistent hs hcalls hstart hrest
  refine ⟨hiff fun c => .rfl, fun calls' hperm => ?_⟩
  exact (hiff fun c => hperm.mem_iff).trans (hiff fun c => .rfl).symm

/-- Three variables. -/
def threeVariables : List Call :=
  [.addVariable "$t" (some { id := "T" }), .addVariable "$u" (some { id := "U" }),
    .addVariable "$v" (some { id := "V" })]

/-- A convertible that comes before there is anything it stands for, and goes on along an edge. -/
def relay : List Call :=
  [.addLower "T" (.asVar none 1 "U"), .addRef "V" (some { id := "T" }), .addUpper "V" shape,
    .addLower "U" circle]

theorem given_relay {side : Side} {x : VarId} {m : Ty} (h : Given relay side x m) :
    side = .lower ∧ (x = "T" ∨ x = "V") ∧ m = .asVar none 1 "U" ∨ side = .lower ∧
      x = "U" ∧ m = circle ∨
      side = .upper ∧ (x = "V" ∨ x = "T") ∧ m = shape := by
  obtain ⟨y, t, p, hadd, hyx, hp, hm⟩ := h
  have hedge {a b : VarId} (h : ReflTransGen (AddsEdge relay) a b) : a = b ∨ a = "T" ∧ b = "V" := by
    induction h with
    | refl => exact .inl rfl
    | tail _ hlast ih =>
      obtain ⟨r, rfl, hr⟩ := hlast
      simp only [relay, List.mem_cons, List.not_mem_nil, or_false, reduceCtorEq, false_or,
        Call.addRef.injEq, Option.some.injEq] at hr
      obtain ⟨rfl, rfl⟩ := hr
      rcases ih with rfl | ⟨rfl, h⟩
      · exact .inr ⟨rfl, rfl⟩
      · exact absurd h (by decide)
  cases side with
  | lower =>
    simp only [AddsBound, Call.bound, relay, List.mem_cons, List.not_mem_nil, or_false,
      reduceCtorEq, false_or, Call.addLower.injEq] at hadd
    rcases hadd with ⟨rfl, rfl⟩ | ⟨rfl, rfl⟩ <;> rw [List.mem_singleton.1 hp] at hm
    · refine .inl ⟨rfl, ?_, hm.elim id id⟩
      exact (hedge hyx).imp Eq.symm And.right
    · refine .inr (.inl ⟨rfl, ?_, hm.elim id id⟩)
      exact ((hedge hyx).resolve_right fun h => absurd h.1 (by decide)).symm
  | upper =>
    simp only [AddsBound, Call.bound, relay, List.mem_cons, List.not_mem_nil, or_false,
      reduceCtorEq, false_or, Call.addUpper.injEq] at hadd
    obtain ⟨rfl, rfl⟩ := hadd
    rw [List.mem_singleton.1 hp] at hm
    exact .inr (.inr ⟨rfl, (hedge hyx).imp id And.left, hm.elim id id⟩)

theorem steady_relay : Steady shapes {} 1 relay := by
  refine ⟨fun side x => ?_, fun side x cell var h => ?_, ?_, fun x e q q' _ hq hq' _ _ _ => ?_⟩
  · by_cases hopen : side = .lower ∧ (x = "T" ∨ x = "V")
    · obtain ⟨rfl, hx⟩ := hopen
      refine .inr ⟨"U", ?_, fun p hp => ?_⟩
      · rcases hx with rfl | rfl <;> decide
      · rcases given_relay hp with ⟨-, -, rfl⟩ | ⟨-, rfl, -⟩ | ⟨h, -⟩
        · exact ⟨none, rfl⟩
        · rcases hx with hx | hx <;> exact absurd hx (by decide)
        · cases h
    · refine .inl fun p hp => ?_
      rcases given_relay hp with ⟨hside, hx, -⟩ | ⟨-, -, rfl⟩ | ⟨-, -, rfl⟩
      · exact absurd ⟨hside, hx⟩ hopen
      · exact plain_circle
      · exact plain_shape
  · rcases given_relay h with ⟨rfl, -, h⟩ | ⟨-, -, h⟩ | ⟨-, -, h⟩
    · obtain ⟨-, -, rfl⟩ := Ty.asVar.inj h
      refine .inl fun e he => ?_
      rcases given_relay he with ⟨h, -⟩ | ⟨h, -⟩ | ⟨-, h, -⟩
      · cases h
      · cases h
      · rcases h with h | h <;> exact absurd h (by decide)
    · cases h
    · cases h
  · exact fun _ _ _ _ _ _ _ c hc => (List.not_mem_nil hc).elim
  · have hup {q : Ty} (hq : Given relay .upper x q) : q = shape := by
      rcases given_relay hq with ⟨h, -⟩ | ⟨h, -⟩ | ⟨-, -, h⟩
      · cases h
      · cases h
      · exact h
    rw [hup hq, hup hq']
    exact .inl (plain_shape.convertibleFree.sub_refl (Universe.sound_of_ofDecls ofDecls_shapes))

theorem orderFree_of_steady_relay :
    let g := Graph.after { tag := 1 } threeVariables
    g.accepts relay ∧ g.accepts relay.reverse ∧ Consistent {} relay := by
  intro g
  have hcalls : ∀ c ∈ relay, c.Constrains := by
    simp [relay, Call.Constrains, Call.IsMutable]
  have hreg : ∀ c ∈ threeVariables, c.Registers := by
    simp [threeVariables, Call.Registers]
  obtain ⟨hiff, horder⟩ := orderFree_of_steady ofDecls_shapes (by decide) (by decide)
    (fun _ hc => (List.not_mem_nil hc).elim) .plain hreg hcalls steady_relay
  have hacc : g.accepts relay := by decide +kernel
  exact ⟨hacc, (horder relay.reverse relay.reverse_perm).2 hacc, (hiff.1 hacc).2⟩

/-! ## Where the order matters -/

/-- What comes first in one order comes last in another. -/
theorem Graph.not_orderFree {g : Graph} (first last : List Call) (hacc : g.accepts (first ++ last))
    (hrefused : g.accepts (last ++ first) = false) : ¬g.OrderFree (first ++ last) := by
  intro h
  rw [(h (last ++ first) List.perm_append_comm).2 hacc] at hrefused
  cases hrefused

/-- **Calls that are not quiet.** The two upper bounds are met one after the other by what is below
them already, and both at once by what comes later: then no single conversion will do. -/
theorem not_orderFree_number :
    ¬(Graph.after { tag := 1, lattice := facetLattice } threeVariables).OrderFree
    [.addLower "T" number, .addUpper "T" countable, .addUpper "T" printable] :=
  not_orderFree [.addLower "T" number] [.addUpper "T" countable, .addUpper "T" printable]
    (by decide +kernel) (by decide +kernel)

/-- **Calls that are not aligned.** Above a variable, a convertible accepts the more the more it
stands for. It is asked at once and not again. -/
theorem not_orderFree_int : ¬(Graph.after { tag := 1 } threeVariables).OrderFree
    [.addLower "U" int, .addLower "U" text, .addLower "T" int, .addUpper "T" (.asVar none 1 "U")] :=
  not_orderFree [.addLower "U" int]
    [.addLower "U" text, .addLower "T" int, .addUpper "T" (.asVar none 1 "U")]
    (by decide +kernel) (by decide +kernel)

/-- **Calls that are not coherent.** Two classes clash unless a class below both of them is there
before. -/
theorem not_orderFree_ramp : ¬(Graph.after { tag := 1 } threeVariables).OrderFree
    [.addUpper "T" ramp, .addUpper "T" door, .addUpper "T" top] :=
  not_orderFree [.addUpper "T" ramp] [.addUpper "T" door, .addUpper "T" top]
    (by decide +kernel) (by decide +kernel)

/-- **Calls that are not uniform.** A convertible is left out while another one, or a type beside
it, stands for the same, and what it comes to stand for later is not looked at. One inside an
intersection is looked at before it stands for anything. And an intersection with a union in it fits
under the intersection as a whole, but not under one member after the other. -/
theorem not_orderFree_mixed :
    let g := Graph.after { tag := 1 } threeVariables
    ¬g.OrderFree [.addLower "U" int, .addLower "V" int, .addLower "T" (.asVar none 1 "U"),
      .addLower "T" (.asVar none 1 "V"), .addUpper "T" int, .addLower "V" text] ∧
    ¬g.OrderFree [.addLower "U" int, .addLower "T" int, .addLower "T" (.asVar none 1 "U"),
      .addUpper "T" int, .addLower "U" text] ∧
    ¬g.OrderFree [.addLower "U" named, .addUpper "T" named,
      .addLower "T" (.inter [("Aged", aged), ("\x7bas U\x7d", .asVar none 1 "U")])] ∧
    ¬g.OrderFree [.addUpper "T" (.inter namedShipOrAged),
      .addLower "T" (.inter namedShipOrAged)] := by
  refine ⟨not_orderFree [.addLower "U" int, .addLower "V" int, .addLower "T" (.asVar none 1 "U"),
      .addLower "T" (.asVar none 1 "V"), .addUpper "T" int] [.addLower "V" text] ?_ ?_,
    not_orderFree [.addLower "U" int, .addLower "T" int, .addLower "T" (.asVar none 1 "U"),
      .addUpper "T" int] [.addLower "U" text] ?_ ?_,
    not_orderFree [.addLower "U" named] [.addUpper "T" named,
      .addLower "T" (.inter [("Aged", aged), ("\x7bas U\x7d", .asVar none 1 "U")])] ?_ ?_,
    not_orderFree [.addUpper "T" (.inter namedShipOrAged)]
    [.addLower "T" (.inter namedShipOrAged)] ?_ ?_⟩
  all_goals decide +kernel

end TypeBounds
