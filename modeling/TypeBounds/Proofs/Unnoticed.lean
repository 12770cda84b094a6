import TypeBounds.Proofs.Calm
import TypeBounds.Proofs.Levelled

/-!
# What fixing fills in goes unnoticed

With one of the policies, fixing a variable fills in its upper bound while its neighbours are still
there. For a moment they could notice. A variable without an upper bound hands its type on to the
variables above it, and no further: the edges are closed and there are no cycles, so what is above
it does not lead back to it. Only a conversion there would turn around and come down, narrowing the
upper bounds below. It does not come to that if nothing is converted implicitly, or if nothing above
has an upper bound that a type could need a conversion for, as in a levelled graph.

* `Graph.Window`: the moment between filling in and taking out, and where propagation may go then;
* `Infer.Hides`: more and more upper bounds are out of sight, and the computation does the same;
* `Graph.Discreet.freeze`, `freezeRounds_hides` and `generalizeAll_hides`: fixing and generalising.
-/

namespace TypeBounds

open Infer

/-! ## Settled records -/

namespace Bounds

variable {D : List VarId} {x : VarId} {b b' : Bounds} {policy : Policy}

theorem settled_of_upper (h : b.upper ≠ []) : b.settled policy = b.settled .plain := by
  unfold settled
  simp [h]

/-- But for the upper bound, a record is settled in the same way whatever the policy is. -/
theorem settled_of_upper_nil (h : b.upper = []) :
    { b.settled policy with upper := [] } = b.settled .plain := by
  obtain ⟨lower, upper, below, above, frozen⟩ := b
  obtain rfl : upper = [] := h
  cases policy <;> cases lower <;> rfl

theorem lower_settled_ne_nil (h : b.upper = []) : (b.settled policy).lower ≠ [] := by
  rw [lower_settled]
  split
  · rename_i hlower
    have hres : b.resolved = .mixed := by
      rw [resolved, resolution, hlower, h]
      rfl
    have hparts : Ty.mixed.copy.unionParts = [.mixed] := by
      simp [Ty.copy, Ty.mapConvertibles, Ty.unionParts]
    rw [hres, hparts]
    exact fun hnil => List.cons_ne_nil _ _ (Members.eq_nil_of_ofTypes hnil)
  · assumption

/-- What is found below is found without looking at the upper bound. -/
theorem type_veil_of_upper_nil (h : b.upper = []) :
    b.resolution.type ((Guise.veil D).record x b') = b.resolution.type b' := by
  rcases b.resolution_cases with
    ⟨-, ⟨-, hres⟩ | ⟨m, hm, -⟩ | ⟨hupper, -⟩⟩ | ⟨-, ⟨m, -, hres⟩ | hres⟩
  · rw [hres]
    rfl
  · rw [h] at hm
    cases hm
  · exact absurd h hupper
  · rw [hres]
    rfl
  · rw [hres]
    rfl

theorem resolved_veil (h : b.lower ≠ []) : ((Guise.veil D).record x b).resolved = b.resolved := by
  by_cases hx : x ∈ D
  · rw [Guise.record_veil_of_mem hx]
    obtain ⟨lower, upper, below, above, frozen⟩ := b
    match lower, h with
    | [m], _ => rfl
    | m :: m' :: lower, _ => rfl
  · rw [Guise.record_veil_of_not_mem hx]

end Bounds

namespace Graph

variable {D D' : List VarId} {g g' : Graph} {x y : VarId}

/-- **Settling** a variable in sight. Its upper bound may be out of sight afterwards. -/
theorem settle_veil (h : g.WellFormed) (hD : ∀ y, y ≠ x → (y ∈ D' ↔ y ∈ D))
    (hx : ((Guise.veil D).record x (g.boundsOf x)).settled .plain =
      (Guise.veil D').record x ((g.boundsOf x).settled g.policy)) :
    settle x (g.veil D) = (settle x g).veil D' := by
  have hentry (e : String × Bounds) (he : e ∈ g.bounds.entries) :
      (if e.1 = x then (e.1, ((Guise.veil D).record e.1 e.2).settled .plain)
        else (e.1, (Guise.veil D).record e.1 e.2)) =
        ((if e.1 = x then (e.1, e.2.settled g.policy) else e).1,
          (Guise.veil D').record (if e.1 = x then (e.1, e.2.settled g.policy) else e).1
            (if e.1 = x then (e.1, e.2.settled g.policy) else e).2) := by
    by_cases hex : e.1 = x
    · have hrecord : g.boundsOf x = e.2 :=
        boundsOf_eq (hex ▸ Table.get?_of_mem_entries h.ids_nodup he)
      rw [hrecord] at hx
      simp only [hex, if_true, hx]
    · simp only [hex, if_false, Guise.record, Guise.veil, hD e.1 hex]
  simp only [settle, update, under, Table.modify, Table.mapValues, List.map_map, Function.comp_def]
  exact congrArg (fun es => ({ g with policy := .plain, bounds := ⟨es⟩ } : Graph))
    (List.map_congr_left fun e he => hentry e he)

theorem Calm.detach (h : Calm D g) (hx : x ∉ D) : Calm D (detach x g) := by
  have hfrozen : Calm D ((g.isolate x).update x fun b => { b with frozen := true }) := by
    refine (h.isolate x).update hx (fun _ => ⟨rfl, rfl⟩) fun side => ?_
    cases side with
    | lower => exact (h.isolate x).bare.stored .lower x
    | upper => exact (h.isolate x).bare.stored .upper x
  exact hfrozen.of_boundsOf rfl fun _ => rfl

/-! ## The moment between -/

/-- **The moment** between filling in the upper bound of `x` and taking `x` out: types come in above
`x` only, from below. -/
structure Window (D : List VarId) (x : VarId) (g₀ g : Graph) : Prop where
  bare : g.Bare
  shape : SameShape g₀ g
  upper : ∀ y, y ≠ x → (g.boundsOf y).upper = (g₀.boundsOf y).upper
  lower : ∀ y ∈ D, (g.boundsOf y).lower = (g₀.boundsOf y).lower
  filled : (g.boundsOf x).lower ≠ []

theorem Calm.window (h : Calm D g) (hx : x ∉ D) (hid : x ∈ g.ids)
    (hupper : (g.boundsOf x).upper = []) : Window D x g (settle x g) := by
  refine ⟨h.bare.settle x, sameShape_settle, fun y hy => ?_, fun y hy => ?_, ?_⟩
  · rw [settle, boundsOf_update_ne hy]
  · rw [settle, boundsOf_update_ne (ne_of_mem_of_not_mem hy hx)]
  · rw [settle, boundsOf_update_self hid]
    exact Bounds.lower_settled_ne_nil hupper

/-- Nothing above the variable turns a type around. -/
def Mild (g : Graph) (x : VarId) : Prop :=
  g.lattice.Quiet ∨ ∀ y ∈ (g.boundsOf x).above, (g.boundsOf y).upper = []

theorem Calm.not_mem_of_above (h : Calm D g) (hwf : g.WellFormed)
    (hacyclic : g.Acyclic) (hx : x ∉ D) (hy : y ∈ (g.boundsOf x).above) : y ∉ x :: D := by
  rw [List.mem_cons, not_or]
  refine ⟨?_, h.not_mem_above hx hy⟩
  rintro rfl
  have hself := (hwf.mirrored y y).2 hy
  exact hacyclic y y hself hself

/-- **Where propagation may go** meanwhile: to what is above, from below. -/
theorem Calm.shelters_window (hcalm : Calm D g) (hwf : g.WellFormed) (hclosed : g.Closed)
    (hacyclic : g.Acyclic) (hmild : g.Mild x) (hx : x ∉ D) :
    Shelters (x :: D) (fun side y => side = .lower ∧ y ∈ (g.boundsOf x).above) (Window D x g) where
  bare _ h := h.bare
  out _ _ hy := hcalm.not_mem_of_above hwf hacyclic hx hy.2
  onward g' side y h hy z hz := by
    obtain ⟨rfl, hy⟩ := hy
    have hxy := (hwf.mirrored x y).2 hy
    have hyz : y ∈ (g.boundsOf z).below := by
      rw [hwf.mirrored, ← h.shape.above]
      exact mem_onward.1 hz
    have hne : x ≠ z := by
      rintro rfl
      exact hacyclic x y hxy hyz
    exact ⟨rfl, (hwf.mirrored x z).1 (hclosed x y z hxy hyz hne)⟩
  narrow g' y m c h hy hupper hc := by
    rcases hmild with hquiet | hnone
    · obtain ⟨hmem, himplicit⟩ := Lattice.bridge?_eq_some hc
      rw [h.shape.lattice] at hmem
      rw [hquiet c hmem] at himplicit
      cases himplicit
    · have hout := hcalm.not_mem_of_above hwf hacyclic hx hy.2
      rw [h.upper y fun hyx => hout (hyx ▸ List.mem_cons_self ..)] at hupper
      exact absurd (hnone y hy.2) hupper
  widen y hy := by
    obtain ⟨hside, -⟩ := hy
    cases hside
  insertLower g' y m hm hy h := by
    have hout := hcalm.not_mem_of_above hwf hacyclic hx hy.2
    have hne {z : VarId} (hz : z ∈ x :: D) : (g'.insertLower y m).boundsOf z = g'.boundsOf z :=
      boundsOf_insertLower_ne (ne_of_mem_of_not_mem hz hout)
    refine ⟨h.bare.insertLower hm y, trans_of SameShape h.shape (sameShape_insertLower m),
      fun z hz => ?_, fun z hz => ?_, ?_⟩
    · rw [upper_insertLower, h.upper z hz]
    · rw [hne (List.mem_cons_of_mem _ hz), h.lower z hz]
    · rw [hne (List.mem_cons_self ..)]
      exact h.filled
  insertUpper g' g'' y m hm hy hg h := by
    obtain ⟨hside, -⟩ := hy
    cases hside

/-- Nothing in the graph gives away what is filled in next. -/
structure Discreet (D : List VarId) (g : Graph) : Prop where
  calm : Calm D g
  wellFormed : g.WellFormed
  closed : g.Closed
  acyclic : g.Acyclic
  mild : g.lattice.Quiet ∨ (g.veil D).Even True

/-- In a levelled graph nothing above a variable without an upper bound has one. -/
theorem Discreet.mild_of_upper_nil (h : Discreet D g) (hx : x ∉ D)
    (hupper : (g.boundsOf x).upper = []) : g.Mild x := by
  refine h.mild.imp_right fun heven y hy => ?_
  have hbelow : x ∈ ((g.veil D).boundsOf y).below := by
    rw [boundsOf_under, Guise.below_record, h.wellFormed.mirrored]
    exact hy
  have hlevel := heven.levelled trivial x y hbelow
  rw [Capped, Capped, boundsOf_veil_of_not_mem hx,
    boundsOf_veil_of_not_mem (h.calm.not_mem_above hx hy)] at hlevel
  by_contra hne
  exact hlevel hne hupper

/-- **After the moment**, the variable is out of sight. -/
theorem Window.detach (hcalm : Calm D g) (hwf : g.WellFormed) (hid : x ∈ g.ids)
    (h : Window D x g g') : Calm (x :: D) (detach x g') := by
  have hdetached := (hwf.of_sameShape h.shape).detached x
  -- a neighbour that is left was a neighbour before
  have hedge {y z : VarId} (hyz : y ∈ ((Graph.detach x g').boundsOf z).below) :
      y ∈ (g.boundsOf z).below ∧ y ≠ x ∧ z ≠ x := by
    rw [hdetached.edges, h.shape.below, List.mem_singleton, List.mem_singleton] at hyz
    exact hyz
  have hlower (y : VarId) : ((Graph.detach x g').boundsOf y).lower = (g'.boundsOf y).lower := by
    have hsame : SameTypes g' (g'.isolate x) := sameTypes_isolate
    have hfield : ((Graph.detach x g').boundsOf y).lower = ((g'.isolate x).boundsOf y).lower :=
      field_update Bounds.lower fun _ => rfl
    exact hfield.trans (hsame.lower y)
  refine ⟨h.bare.detach x, fun side y hy z hz => ?_, fun y hy => ?_⟩
  · rw [List.mem_cons, not_or] at hy ⊢
    cases side with
    | lower =>
      obtain ⟨hyz, -, hne⟩ := hedge ((hdetached.wellFormed.mirrored y z).2 (mem_onward.1 hz))
      exact ⟨hne, hcalm.not_mem_above hy.2 ((hwf.mirrored y z).1 hyz)⟩
    | upper =>
      obtain ⟨hzy, hne, -⟩ := hedge (mem_onward.1 hz)
      exact ⟨hne, hcalm.not_mem_below hy.2 hzy⟩
  · rw [hlower]
    rcases List.mem_cons.1 hy with rfl | hy
    · rw [hdetached.frozen y (h.shape.ids ▸ hid)]
      exact ⟨by simp, h.filled⟩
    · obtain ⟨hfrozen, hne⟩ := hcalm.done y hy
      have hy' : y ∈ g.ids := by
        by_contra hnot
        rw [boundsOf_of_not_mem hnot] at hfrozen
        cases hfrozen
      rw [hdetached.frozen y (h.shape.ids ▸ hy'), h.shape.frozen, hfrozen, h.lower y hy]
      exact ⟨rfl, hne⟩

end Graph

/-! ## Hiding -/

namespace Infer

variable {α β : Type} {D : List VarId} {E E' : List VarId → Graph → Prop} {s : Progress}

/-- **Hiding.** On the veiled graph the computation does the same, **also when it fails**. What is
out of sight then, if it comes to its end, is as `E` says. -/
def Hides (D : List VarId) (E : List VarId → Graph → Prop) (m : Infer α) (s : Progress) : Prop :=
  ∃ D', m (s.veil D) = ((m s).1, (m s).2.veil D') ∧ ∀ a s', m s = (.ok a, s') → E D' s'.graph

theorem Hides.pure (h : E D s.graph) (a : α) : Hides D E (pure a) s := by
  refine ⟨D, rfl, fun b s' hrun => ?_⟩
  obtain ⟨-, rfl⟩ := pure_eq_ok.1 hrun
  exact h

theorem Hides.bind {m : Infer α} {k : α → Infer β} (hm : Hides D E m s)
    (hk : ∀ a s' D', m s = (.ok a, s') → E D' s'.graph → Hides D' E' (k a) s') :
    Hides D E' (m >>= k) s := by
  obtain ⟨D', hrun, hend⟩ := hm
  rcases hout : m s with ⟨e | a, s₁⟩
  · refine ⟨D', ?_, fun b s' hs' => ?_⟩
    · rw [bind_apply, bind_apply, hrun, hout]
    · rw [bind_apply, hout] at hs'
      cases hs'
  · obtain ⟨D'', hrun', hend'⟩ := hk a s₁ D' hout (hend a s₁ hout)
    refine ⟨D'', ?_, ?_⟩
    · rw [bind_apply, bind_apply, hrun, hout]
      exact hrun'
    · rw [bind_apply, hout]
      exact hend'

theorem Hides.mono {m : Infer α} (h : Hides D E m s) (hE : ∀ D' g, E D' g → E' D' g) :
    Hides D E' m s := by
  obtain ⟨D', hrun, hend⟩ := h
  exact ⟨D', hrun, fun a s' hs' => hE D' _ (hend a s' hs')⟩

theorem Hides.graph_bind {k : Graph → Infer α} (hk : k (s.graph.veil D) = k s.graph)
    (h : Hides D E (k s.graph) s) : Hides D E (graph >>= k) s := by
  obtain ⟨D', hrun, hend⟩ := h
  refine ⟨D', ?_, hend⟩
  rw [graph_bind_apply, graph_bind_apply]
  exact (congrFun hk _).trans hrun

theorem Hides.modify_bind {d : Graph → Graph} {m : Infer α}
    (hd : d (s.graph.veil D) = (d s.graph).veil D) (h : Hides D E m { s with graph := d s.graph }) :
    Hides D E (modify d >>= fun _ => m) s := by
  obtain ⟨D', hrun, hend⟩ := h
  refine ⟨D', ?_, hend⟩
  rw [modify_bind_apply, modify_bind_apply, ← hrun]
  exact congrArg (fun g => m { s with graph := g }) hd

/-- What is out of sight stays out of sight. -/
theorem Hides.of_overlooks {J : Graph → Prop} {m : Infer α} (h : Overlooks D J m) (hJ : J s.graph)
    (hE : ∀ a s', m s = (.ok a, s') → J s'.graph → E D s'.graph) : Hides D E m s := by
  refine ⟨D, h.run hJ, fun a s' hs' => hE a s' hs' ?_⟩
  have hkept := (h s hJ).1
  rwa [hs'] at hkept

end Infer

/-! ## Fixing one variable -/

section

open TypeBounds.Graph

variable {search : Search} {D D' : List VarId} {x : VarId} {s s' : Progress}
  {R : Side → VarId → Prop} {J : Graph → Prop}

/-- **Fixing a variable**, as far as passing its type on overlooks what is out of sight. -/
theorem freeze_hides (hx : x ∉ D) (hsettle : settle x (s.graph.veil D) = (settle x s.graph).veil D')
    (hJ : J (settle x s.graph)) (hpass : Overlooks D' J
      (passOn x (s.graph.boundsOf x).resolution (Natural.sort (s.graph.boundsOf x).above))) :
    Hides D (fun D'' g => D'' = D' ∧ ∃ g', J g' ∧ g = detach x g') (freeze x) s := by
  set pass := passOn x (s.graph.boundsOf x).resolution (Natural.sort (s.graph.boundsOf x).above)
  set s₀ : Progress := { s with graph := settle x s.graph }
  have hrest : Hides D' (fun D'' g => D'' = D' ∧ ∃ g', J g' ∧ g = detach x g')
      (pass >>= fun _ => modify (detach x)) s₀ := by
    have hpassed : Hides D' (fun D'' g => D'' = D' ∧ J g) pass s₀ :=
      Hides.of_overlooks hpass hJ fun _ _ _ hg => ⟨rfl, hg⟩
    refine hpassed.bind fun _ s₁ D₁ _ ⟨hD₁, hg⟩ => ⟨D₁, ?_, fun _ s' hs' => ?_⟩
    · simp only [modify_apply, Progress.veil, detach_under]
    · obtain rfl : { s₁ with graph := detach x s₁.graph } = s' := congrArg Prod.snd hs'
      exact ⟨hD₁, s₁.graph, hg, rfl⟩
  obtain ⟨D'', hrun, hend⟩ := hrest
  refine ⟨D'', ?_, hend⟩
  have hstart : ({ s.veil D with graph := settle x (s.graph.veil D) } : Progress) = s₀.veil D' := by
    rw [hsettle]
    rfl
  have hrecord : (s.veil D).graph.boundsOf x = s.graph.boundsOf x := boundsOf_veil_of_not_mem hx
  rw [freeze_eq, graph_bind_apply, modify_bind_apply, hrecord]
  exact (congrArg (pass >>= fun _ => modify (detach x)) hstart).trans hrun

/-- **Whether there is an upper bound to fill in or not**, fixing a variable goes unnoticed. -/
theorem Graph.Discreet.freeze_calm (h : Discreet D s.graph) (hx : x ∉ D) (hid : x ∈ s.graph.ids) :
    Hides D (fun D' g => D' ⊆ x :: D ∧ Calm D' g) (freeze x) s := by
  have hbare := h.calm.bare
  have hrecord : (Guise.veil D).record x (s.graph.boundsOf x) = s.graph.boundsOf x :=
    Guise.record_veil_of_not_mem hx
  by_cases hupper : (s.graph.boundsOf x).upper = []
  · -- filled in or not, the upper bound is out of sight from now on
    have hsettle : settle x (s.graph.veil D) = (settle x s.graph).veil (x :: D) := by
      refine settle_veil h.wellFormed (fun y hy => ?_) ?_
      · rw [List.mem_cons, or_iff_right hy]
      · rw [hrecord, Guise.record_veil_of_mem (List.mem_cons_self ..),
          Bounds.settled_of_upper_nil hupper]
    have hshelters :=
      h.calm.shelters_window h.wellFormed h.closed h.acyclic (h.mild_of_upper_nil hx hupper) hx
    have hpass := hshelters.suits.passOn (fun y hy => ⟨rfl, Natural.mem_sort.1 hy⟩) fun g hg =>
      ⟨hbare.type hg.bare x, by rw [boundsOf_under, Bounds.type_veil_of_upper_nil hupper]; rfl⟩
    refine (freeze_hides hx hsettle (h.calm.window hx hid hupper) hpass).mono ?_
    rintro D' g ⟨rfl, g', hwindow, rfl⟩
    exact ⟨List.Subset.refl _, hwindow.detach h.calm h.wellFormed hid⟩
  · -- there is one already, and the policy does not matter
    have hsettle : settle x (s.graph.veil D) = (settle x s.graph).veil D := by
      refine settle_veil h.wellFormed (fun _ _ => Iff.rfl) ?_
      rw [hrecord, Guise.record_veil_of_not_mem hx]
      exact (Bounds.settled_of_upper hupper).symm
    have hstart : Calm D (settle x s.graph) := by
      refine h.calm.of_sameShape (hbare.settle x) sameShape_settle fun y hy => ?_
      rw [settle, boundsOf_update_ne (ne_of_mem_of_not_mem hy hx)]
    have hpass := (shelters_calm D).suits.passOn
      (fun y hy => h.calm.not_mem_above hx (Natural.mem_sort.1 hy)) fun g hg =>
      ⟨hbare.type hg.bare x, by rw [boundsOf_veil_of_not_mem hx]; rfl⟩
    refine (freeze_hides hx hsettle hstart hpass).mono ?_
    rintro D' g ⟨rfl, g', hcalm, rfl⟩
    exact ⟨List.subset_cons_self _ _, hcalm.detach hx⟩

/-- **Fixing a variable** goes unnoticed, and so may the next one. -/
theorem Graph.Discreet.freeze (h : Discreet D s.graph) (hx : x ∉ D) (hid : x ∈ s.graph.ids) :
    Hides D (fun D' g => D' ⊆ x :: D ∧ Discreet D' g) (freeze x) s := by
  obtain ⟨D', hrun, hend⟩ := h.freeze_calm hx hid
  refine ⟨D', hrun, fun _ s' hs' => ?_⟩
  obtain ⟨hD', hcalm⟩ := hend () s' hs'
  have hdetached := freeze_detached h.wellFormed hs'
  refine ⟨hD', hcalm, hdetached.wellFormed, hdetached.closed h.closed, fun y z hyz hzy => ?_, ?_⟩
  · exact h.acyclic y z ((hdetached.edges y z).1 hyz).1 ((hdetached.edges z y).1 hzy).1
  · refine h.mild.imp (fun hquiet => ?_) fun heven => ?_
    · rwa [SameSetting.lattice ((steps_sameSetting.freeze x s).of_eq hs')]
    · rw [hs'] at hrun
      exact Even.freeze (s := s.veil D) heven rfl hrun

/-! ## Fixing many -/

theorem forM_freeze_hides {xs : List VarId} (h : Discreet D s.graph) (hnodup : xs.Nodup)
    (hxs : ∀ x ∈ xs, x ∉ D ∧ x ∈ s.graph.ids) :
    Hides D (fun D' g => D' ⊆ D ++ xs ∧ Discreet D' g) (xs.forM freeze) s := by
  induction xs generalizing D s with
  | nil => exact Hides.pure ⟨List.subset_append_left _ _, h⟩ _
  | cons x xs ih =>
    obtain ⟨hx, hnodup⟩ := List.nodup_cons.1 hnodup
    obtain ⟨⟨hxD, hid⟩, hxs⟩ := List.forall_mem_cons.1 hxs
    refine (h.freeze hxD hid).bind fun _ s₁ D₁ hs₁ ⟨hD₁, h₁⟩ => ?_
    have hids := (freeze_detached h.wellFormed hs₁).ids
    have hrest : ∀ y ∈ xs, y ∉ D₁ ∧ y ∈ s₁.graph.ids := by
      intro y hy
      refine ⟨fun hmem => ?_, hids ▸ (hxs y hy).2⟩
      rcases List.mem_cons.1 (hD₁ hmem) with rfl | hyD
      · exact hx hy
      · exact (hxs y hy).1 hyD
    refine (ih h₁ hnodup hrest).mono fun D₂ g ⟨hD₂, h₂⟩ => ⟨fun y hy => ?_, h₂⟩
    have hy := hD₂ hy
    have hD₁ := @hD₁ y
    simp only [List.mem_append, List.mem_cons] at hy hD₁ ⊢
    tauto

/-- **All rounds.** What is out of sight was fixed in an earlier round, so it is not looked at
again. -/
theorem freezeRounds_hides {done : List VarId} (params : List VarId) (rounds : Nat)
    (h : Discreet D s.graph) (hD : D ⊆ done) :
    Hides D Discreet (freezeRounds params rounds done) s := by
  induction rounds generalizing D s done with
  | zero => exact Hides.pure h _
  | succ rounds ih =>
    have hfixable : (s.graph.veil D).fixable params done = s.graph.fixable params done :=
      fixable_veil hD
    refine Hides.graph_bind (by rw [hfixable]) ?_
    cases hxs : s.graph.fixable params done with
    | nil => exact Hides.pure h _
    | cons x xs =>
      have hmem {y : VarId} (hy : y ∈ x :: xs) : y ∈ s.graph.ids ∧ y ∉ done := by
        obtain ⟨hid, hnew, -⟩ := mem_fixable.1 (hxs ▸ hy)
        exact ⟨hid, hnew⟩
      have hround := forM_freeze_hides h (hxs ▸ h.wellFormed.nodup_fixable) fun y hy =>
        ⟨fun hyD => (hmem hy).2 (hD hyD), (hmem hy).1⟩
      refine hround.bind fun _ s₁ D₁ _ ⟨hD₁, h₁⟩ => ih h₁ fun y hy => ?_
      exact List.mem_append.2 ((List.mem_append.1 (hD₁ hy)).imp_left fun hyD => hD hyD)

/-! ## Generalisation -/

theorem Graph.even_veil_nil {P : Prop} {g : Graph} (h : g.Even P) : (g.veil []).Even P := by
  rw [veil_nil]
  exact h.of_bounds rfl rfl rfl

/-- **Merging** leaves the conversions and the even graphs alone. -/
theorem mergesKeep_mild : MergesKeep fun g => g.lattice.Quiet ∨ g.Even True := by
  intro old new s s' hne hnew h hrun
  refine h.imp (fun hquiet => ?_) fun heven => mergesKeep_even old new s s' hne hnew heven hrun
  rwa [SameSetting.lattice ((steps_sameSetting.mergeInto old new s).of_eq hrun)]

/-- **Generalisation.** Before the first variable is fixed nothing is out of sight, and what is out
of sight in the end has no neighbours. -/
theorem generalizeAll_hides (params : List VarId) (hbare : s.graph.Bare) (hwf : s.graph.WellFormed)
    (hclosed : s.graph.Closed) (hmild : s.graph.lattice.Quiet ∨ s.graph.Even True) :
    Hides [] Calm (generalizeAll search.find params) s := by
  set s₀ : Progress := { s with graph := s.graph.pruneSelfEdges }
  have hbare₀ : s₀.graph.Bare := hbare.of_sameTypes sameTypes_pruneSelfEdges
  have hcollapse :
      Hides [] (fun D g => D = [] ∧ Discreet [] g)
      (collapse (s₀.graph.cycles search) params.eraseDups) s₀ := by
    refine Hides.of_overlooks ((suits_calm []).collapse (fun _ _ _ _ => List.not_mem_nil) _)
      hbare₀.calm ?_
    intro params' s₁ hs₁ hcalm
    obtain ⟨hcol, hclosed₁, hacyclic₁, -, hkept⟩ :=
      collapse_cycles_ok mergesKeep_mild hwf hclosed hs₁
    refine ⟨rfl, hcalm, hcol.wellFormed, hclosed₁, hacyclic₁, ?_⟩
    exact (hkept (hmild.imp id Even.pruneSelfEdges)).imp_right even_veil_nil
  rw [generalizeAll_eq]
  refine Hides.modify_bind pruneSelfEdges_under (Hides.graph_bind (by rw [cycles_under]) ?_)
  refine hcollapse.bind fun params' s₁ D₁ _ ⟨hD₁, h₁⟩ => ?_
  subst hD₁
  refine Hides.graph_bind (by rw [ids_under]) ?_
  refine (freezeRounds_hides params' _ h₁ (List.Subset.refl _)).bind fun _ s₂ D₂ _ h₂ => ?_
  refine Hides.graph_bind (by rw [ids_under]) ?_
  exact Hides.of_overlooks ((suits_calm D₂).coalesceRounds params' _) h₂.calm
    fun _ _ _ hcalm => hcalm

end

end TypeBounds
