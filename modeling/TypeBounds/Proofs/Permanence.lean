import TypeBounds.Proofs.Generalized

/-!
# What is fixed stays fixed

A fixed reference is never redirected, and the flag of a frozen variable is never taken back: a
merge passes it on, and all that can happen to it otherwise is that the record goes away as a whole.
Every step of every operation goes along `Lasting`, also of an operation that fails halfway. The one
call that registers variables is apart from the rest (`Graph.addVariable_lasting`), since a variable
that comes back starts with a clean record. Main statement: `fixed_of_after`.
-/

namespace TypeBounds

open Infer

/-- **Lasting.** The fixed references of `g` are those of `g'` too, and what was frozen is frozen if
it is still registered. No variable is registered anew. -/
structure Lasting (g g' : Graph) : Prop where
  references : ∀ name r, g.names.get? name = some r → r.fixed → g'.names.get? name = some r
  registered : ∀ x ∈ g'.ids, x ∈ g.ids
  frozen : ∀ x ∈ g'.ids, (g.boundsOf x).frozen → (g'.boundsOf x).frozen

instance : IsPreorder Graph Lasting where
  refl _ := ⟨fun _ _ h _ => h, fun _ h => h, fun _ _ h => h⟩
  trans _ _ _ h h' :=
    { references := fun name r hr hfixed =>
        h'.references name r (h.references name r hr hfixed) hfixed
      registered := fun x hx => h.registered x (h'.registered x hx)
      frozen := fun x hx hfrozen => h'.frozen x hx (h.frozen x (h'.registered x hx) hfrozen) }

namespace Graph

variable {g g' : Graph} {id old new : VarId} {name : String}

/-! ## The steps -/

theorem lasting_of_sameFrame (h : SameFrame g g') : Lasting g g' where
  references name r hr _ := by rw [h.names]; exact hr
  registered x hx := h.ids ▸ hx
  frozen x _ hfrozen := by rw [h.frozen x]; exact hfrozen

/-- Only mutable references are changed, variables stay and no flag is taken back. -/
theorem lasting_of_mapNames {f : String → Reference → Reference}
    (hf : ∀ name r, r.fixed → f name r = r) (hnames : g'.names = g.names.mapValues f)
    (hids : g'.ids = g.ids) (hfrozen : ∀ x, (g.boundsOf x).frozen → (g'.boundsOf x).frozen) :
    Lasting g g' where
  references name r hr hfixed := by
    rw [hnames, Table.get?_mapValues, hr, Option.map_some, hf name r hfixed]
  registered x hx := hids ▸ hx
  frozen x _ := hfrozen x

theorem lasting_of_names (hnames : g'.names = g.names) (hids : g'.ids = g.ids)
    (hfrozen : ∀ x, (g.boundsOf x).frozen → (g'.boundsOf x).frozen) : Lasting g g' where
  references name r hr _ := by rw [hnames]; exact hr
  registered x hx := hids ▸ hx
  frozen x _ := hfrozen x

/-- A change of members in every record. -/
theorem lasting_mapMembers {f : VarId → Members → Members} (hnames : g'.names = g.names)
    (hbounds : g'.bounds = g.bounds.mapValues fun id b =>
      { b with lower := f id b.lower, upper := f id b.upper }) : Lasting g g' := by
  refine lasting_of_names hnames (ids_mapValues hbounds) fun x hfrozen => ?_
  rwa [field_mapValues Bounds.frozen hbounds fun _ _ => rfl]

/-- Freezing one variable. -/
theorem lasting_update {f : Bounds → Bounds} (hf : ∀ b, (f b).frozen = true) :
    Lasting g (g.update id f) := by
  refine lasting_of_names rfl (ids_update _) fun x hfrozen => ?_
  rw [boundsOf_update]
  split
  · exact hf _
  · exact hfrozen

theorem lasting_pin : Lasting g (g.pin id) := by
  have hnames : (g.pin id).names =
      g.names.mapValues fun _ r => if r.id = id then { r with fixed := true } else r := rfl
  refine lasting_of_mapNames (fun _ r hfixed => ?_) hnames rfl fun _ h => h
  obtain ⟨rid, fixed⟩ := r
  subst hfixed
  split <;> rfl

theorem lasting_cutOff : Lasting g (g.cutOff old new) := by
  have hnames : (g.cutOff old new).names =
      g.names.mapValues fun _ => Reference.follow (successor old new) :=
    sameFrame_cutOff.names.trans names_redirect
  refine lasting_of_mapNames (fun _ r hfixed => ?_) hnames sameFrame_cutOff.ids fun x hfrozen => ?_
  · unfold Reference.follow
    rw [if_pos hfixed]
  · exact (sameFrame_cutOff.frozen x).trans hfrozen

theorem lasting_inheritFrozen : Lasting g (inheritFrozen old new g) := by
  unfold inheritFrozen
  split
  · exact lasting_update fun _ => rfl
  · exact refl_of Lasting g

theorem lasting_unregister : Lasting g (g.unregister old) where
  references _ _ hr _ := hr
  registered x hx := by
    rw [ids_unregister] at hx
    exact List.mem_of_mem_filter hx
  frozen x hx hfrozen := by
    rw [ids_unregister] at hx
    have hne : x ≠ old := by simpa using List.of_mem_filter hx
    rwa [boundsOf_unregister, if_neg hne]

theorem lasting_pruneSelfEdges : Lasting g g.pruneSelfEdges := by
  refine lasting_of_names rfl ids_pruneSelfEdges fun x hfrozen => ?_
  rw [boundsOf_pruneSelfEdges, withoutSelf]
  split <;> exact hfrozen

theorem lasting_detach : Lasting g (detach id g) := by
  have hisolated : Lasting g (g.isolate id) := lasting_of_sameFrame sameTypes_isolate.toSameFrame
  have hflagged :
      Lasting (g.isolate id) ((g.isolate id).update id fun b => { b with frozen := true }) :=
    lasting_update fun _ => rfl
  exact trans_of Lasting (trans_of Lasting hisolated hflagged) lasting_pin

theorem lasting_fixVariable (hg : g.fixVariable name = .ok g') : Lasting g g' := by
  obtain ⟨r, hr, rfl⟩ := fixVariable_eq_ok.1 hg
  have hnamed : Lasting g { g with names := g.names.insert name { r with fixed := true } } := by
    refine ⟨fun name' r' hr' hfixed => ?_, fun _ hx => hx, fun _ _ h => h⟩
    rw [Table.get?_insert]
    split
    · -- a reference that is fixed once more is the one there was
      rename_i hname
      rw [hname, hr] at hr'
      cases hr'
      obtain ⟨rid, fixed⟩ := r
      subst hfixed
      rfl
    · exact hr'
  exact trans_of Lasting hnamed (lasting_update fun _ => rfl)

theorem lasting_fixParameter (hg : g.fixParameter id = .ok g') : Lasting g g' := by
  obtain ⟨-, rfl⟩ := fixParameter_eq_ok.1 hg
  have hpinned : Lasting g (g.pin id) := lasting_pin
  exact trans_of Lasting hpinned (lasting_update fun _ => rfl)

/-- **Adding a name.** It is a new one, and the variables there were keep their records. -/
theorem addVariable_lasting {r : Option Reference} (hg : g.addVariable name r = .ok g') :
    (∀ name r, g.names.get? name = some r → r.fixed → g'.names.get? name = some r) ∧
      ∀ x, (g.boundsOf x).frozen → (g'.boundsOf x).frozen := by
  obtain ⟨r, -, hname, rfl⟩ := addVariable_eq_ok.1 hg
  refine ⟨fun name' r' hr' _ => ?_, fun x hfrozen => ?_⟩
  · have hne : name' ≠ name := fun h => hname (h ▸ Table.mem_keys_of_get? hr')
    rw [Table.get?_insert, if_neg hne]
    exact hr'
  · change ((g.register r.id).boundsOf x).frozen = true
    rwa [boundsOf_register]

end Graph

open TypeBounds.Graph

/-! ## The operations -/

theorem steps_lasting : Steps Lasting where
  spread side id t s := lasting_of_sameFrame (sameShape_spread side id t s).toSameFrame
  linkAcross _ _ _ := lasting_of_sameFrame sameTypes_linkAcross.toSameFrame
  cutOff _ _ _ := lasting_cutOff
  inheritFrozen _ _ _ := lasting_inheritFrozen
  unregister _ _ := lasting_unregister
  settle _ _ := lasting_of_sameFrame sameShape_settle.toSameFrame
  detach _ _ := lasting_detach
  pruneSelfEdges _ := lasting_pruneSelfEdges
  fixVariable _ _ _ hg := lasting_fixVariable hg
  fixParameter _ _ _ hg := lasting_fixParameter hg
  rebindCell cell owner var _ :=
    lasting_mapMembers (f := fun _ => Ty.rebindMembers cell owner var) rfl rfl
  fork tag g :=
    lasting_mapMembers (f := fun _ ms => Members.ofTypes (Ty.mapEach (g.handOver tag) ms)) rfl rfl
  setOverload _ _ := lasting_of_names rfl rfl fun _ h => h

theorem lasting_addRef (id : VarId) (r : Option Reference) (g : Graph) :
    Lasting g (g.addRef id r).graph :=
  along_addRef steps_lasting.spread (fun _ => lasting_of_sameFrame sameTypes_link.toSameFrame)
    (fun x y => steps_lasting.linkAcross x y g) id r

/-- **One call**, successful or not, keeps the fixed references and takes no flag back. -/
theorem Call.lasting_outcome (c : Call) (g : Graph) :
    Lasting g (c.outcome g).graph ∨ ∃ name r, g.addVariable name r = .ok (c.outcome g).graph := by
  cases c with
  | addVariable name r =>
    rw [outcome]
    cases hg : g.addVariable name r with
    | error m => exact .inl (refl_of Lasting g)
    | ok g' => exact .inr ⟨name, r, hg⟩
  | mint => exact .inl (lasting_of_names rfl rfl fun _ h => h)
  | addRef id r => exact .inl (lasting_addRef id r g)
  | _ => exact .inl (steps_lasting.outcome _ (by rintro ⟨⟩) (by rintro _ _ ⟨⟩) (by rintro _ _ ⟨⟩))

theorem Call.reference_outcome (c : Call) {g : Graph} {name : String} {r : Reference}
    (hr : g.names.get? name = some r) (hfixed : r.fixed) :
    (c.outcome g).graph.names.get? name = some r := by
  rcases c.lasting_outcome g with h | ⟨_, _, hg⟩
  · exact h.references name r hr hfixed
  · exact (addVariable_lasting hg).1 name r hr hfixed

/-- A variable is frozen by its own flag or by a fixed reference to it, and neither goes away as
long as the variable does not. -/
theorem Call.isFrozen_outcome (c : Call) {g : Graph} (hwf : g.WellFormed) {x : VarId}
    (hx : x ∈ (c.outcome g).graph.ids) (hfrozen : g.isFrozen x) :
    (c.outcome g).graph.isFrozen x := by
  rw [isFrozen_eq, Bool.or_eq_true] at hfrozen ⊢
  rcases hfrozen with hflag | hpin
  · left
    rcases c.lasting_outcome g with h | ⟨_, _, hg⟩
    · exact h.frozen x hx hflag
    · exact (addVariable_lasting hg).2 x hflag
  · right
    obtain ⟨⟨name, r⟩, he, hr⟩ := List.any_eq_true.1 hpin
    obtain ⟨hid, hfixed⟩ : r.id = x ∧ r.fixed = true := by simpa using hr
    have hget : g.names.get? name = some r := Table.get?_of_mem_entries hwf.names_nodup he
    have hmem := Table.mem_entries_of_get? (c.reference_outcome hget hfixed)
    exact List.any_eq_true.2 ⟨(name, r), hmem, by simpa using ⟨hid, hfixed⟩⟩

/-! ## Every run -/

theorem Graph.reference_after {g : Graph} {name : String} {r : Reference}
    (hr : g.names.get? name = some r) (hfixed : r.fixed) (calls : List Call) :
    (g.after calls).names.get? name = some r := by
  unfold Graph.after
  induction calls generalizing g with
  | nil => exact hr
  | cons c calls ih => exact ih (c.reference_outcome hr hfixed)

theorem Graph.isFrozen_after {g : Graph} (hwf : g.WellFormed) {x : VarId} (hfrozen : g.isFrozen x)
    (calls : List Call) (hstays : ∀ n, x ∈ (g.after (calls.take n)).ids) :
    (g.after calls).isFrozen x := by
  induction calls generalizing g with
  | nil => exact hfrozen
  | cons c calls ih =>
    have hx : x ∈ (c.outcome g).graph.ids := hstays 1
    exact ih (c.wellFormed_outcome hwf) (c.isFrozen_outcome hwf hx hfrozen) fun n => hstays (n + 1)

/-- **Fixed for good.** Take the graph after any calls and go on with any others, failed ones
included. A name whose reference is fixed still has that very reference, and the variable that it
denotes is registered. A variable in state `fixed` is still in that state, as long as it was
registered all the time in between. -/
theorem fixed_of_after (tag : Nat) (lattice : Lattice) (policy : Policy) (calls later : List Call) :
    let g := Graph.after { tag, lattice, policy } calls
    let g' := g.after later
    (∀ name r, g.names.get? name = some r → r.fixed →
      g'.names.get? name = some r ∧ g'.hasTypeVariable r.id) ∧
    (∀ id, g.status id = .fixed → (∀ n, (g.after (later.take n)).hasTypeVariable id) →
      g'.status id = .fixed) := by
  intro g g'
  have hwf : g.WellFormed := (WellFormed.empty tag lattice policy).after calls
  have hwf' : g'.WellFormed := hwf.after later
  refine ⟨fun name r hr hfixed => ?_, fun id hfixed hstays => ?_⟩
  · have hr' : g'.names.get? name = some r := reference_after hr hfixed later
    exact ⟨hr', mem_ids.1 (hwf'.denoted name r hr')⟩
  · rw [status_eq_fixed] at hfixed ⊢
    exact isFrozen_after hwf hfixed later fun n => mem_ids.2 (hstays n)

end TypeBounds
