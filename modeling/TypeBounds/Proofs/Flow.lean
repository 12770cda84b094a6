import TypeBounds.Proofs.Merging
import TypeBounds.Proofs.Quiet

/-!
# What a propagation achieves

A type that spreads from a variable stops wherever it is covered already. That is enough: if what
was in the bounds had flowed along the edges before, then it has flowed again once the propagation
is over. The argument is an invariant of the search (`Searching`): whatever has not yet flowed along
an edge is a part of the new type, and the end of that edge is still to be visited.

* `Graph.Widened`: what a propagation can do to the bounds on its side, whether to one or to many;
* `visit_ok`: one visit; `Searching.step`, `Searching.run`: one step of the search and all of them,
  whatever the visits are made of (`exploreM_ok`);
* `Graph.Flows`, `arrived_of_exploreM` and `spread_ok`: what holds after a propagation.
-/

namespace TypeBounds

open Infer Relation

/-- By way of admissible members, `old` is covered by `new`. -/
def Side.Implied (side : Side) (P : Side → Ty → Prop) : Ty → Ty → Prop :=
  ReflTransGen fun old new => P side old ∧ P side new ∧ side.Covered old new

/-- On this side, being covered goes on from member to member. -/
def Side.Chains (side : Side) (P : Side → Ty → Prop) : Prop :=
  ∀ a b c, P side a → P side b → P side c → side.Covered a b → side.Covered b c → side.Covered a c

theorem Side.covered_refl {u : Universe} (hu : u.Sound) {t : Ty} (ht : ConvertibleFree u t)
    (side : Side) : side.Covered t t := by
  cases side <;> exact ht.sub_refl hu

/-- Where being covered is transitive there is no need for members in between. -/
theorem Side.Implied.covered {u : Universe} {P : Side → Ty → Prop} {side : Side} (hP : Admits u P)
    (hc : side.Chains P) {a b : Ty} (ha : P side a) (h : side.Implied P a b) :
    side.Covered a b := by
  induction h with
  | refl => exact side.covered_refl hP.legible.toSound (hP.convertibleFree ha)
  | tail _ hlast ih => exact hc _ _ _ ha hlast.1 hlast.2.1 ih hlast.2.2

section

variable {u : Universe} {P : Side → Ty → Prop} {g g' g'' : Graph} {side : Side} {id x y : VarId}
  {m t : Ty} {ms : List Ty} {s s' : Progress} {nested : Side → VarId → Ty → Infer Unit}

namespace Graph

/-- Something in the bound implies the type. -/
def Entails (P : Side → Ty → Prop) (g : Graph) (side : Side) (x : VarId) (t : Ty) : Prop :=
  ∃ e ∈ g.has side x, side.Implied P t e

/-- **The bounds on one side got wider**: what they said is still said, and what is new is among
`ms`. Nothing else has changed. -/
structure Widened (P : Side → Ty → Prop) (side : Side) (ms : List Ty) (g g' : Graph) : Prop where
  shape : SameShape g g'
  tidy : g'.Tidy P
  antichain : ∀ side', g.Antichain side' → g'.Antichain side'
  other : ∀ x, (g'.boundsOf x).side side.other = (g.boundsOf x).side side.other
  origin : ∀ x, ∀ t ∈ g'.has side x, t ∈ g.has side x ∨ t ∈ ms
  entails : ∀ x, ∀ t ∈ g.has side x, g'.Entails P side x t

theorem Entails.of_mem (ht : t ∈ g.has side x) : g.Entails P side x t := ⟨t, ht, .refl⟩

theorem Entails.of_covers (htidy : g.Tidy P) (ht : P side t) (h : g.Covers side x t) :
    g.Entails P side x t := by
  obtain ⟨e, he, hte⟩ := h
  exact ⟨e, he, .single ⟨ht, htidy.admissible side x e he, hte⟩⟩

theorem Widened.refl (h : g.Tidy P) : Widened P side ms g g :=
  ⟨refl_of SameShape g, h, fun _ => id, fun _ => rfl, fun _ _ => .inl, fun _ _ => .of_mem⟩

/-- What a bound entailed it still entails. -/
theorem Widened.entails_of_entails (h : Widened P side ms g g') (ht : g.Entails P side x t) :
    g'.Entails P side x t := by
  obtain ⟨e, he, hte⟩ := ht
  obtain ⟨e', he', hee'⟩ := h.entails x e he
  exact ⟨e', he', hte.trans hee'⟩

theorem Widened.trans (h : Widened P side ms g g') (h' : Widened P side ms g' g'') :
    Widened P side ms g g'' where
  shape := trans_of SameShape h.shape h'.shape
  tidy := h'.tidy
  antichain side' ha := h'.antichain side' (h.antichain side' ha)
  other x := (h'.other x).trans (h.other x)
  origin x t ht := by
    rcases h'.origin x t ht with ht | ht
    · exact h.origin x t ht
    · exact .inr ht
  entails x t ht := h'.entails_of_entails (h.entails x t ht)

/-- What putting in a member does that was not covered. -/
theorem Inserts.widened (hins : g.Inserts side id m) (h : g.Tidy P) (hm : P side m)
    (hnew : ¬g.Covers side id m) (hms : m ∈ ms) : Widened P side ms g (g.inserted side id m) := by
  refine ⟨sameShape_inserted, hins.tidy h hm, fun _ ha => hins.antichain ha hnew,
    fun x => side_boundsOf_inserted (.inl side.other_ne), fun x t ht => ?_, fun x t ht => ?_⟩
  · by_cases hx : x = id
    · rw [hx, hins.mem] at ht
      rcases ht with ⟨ht, -⟩ | rfl
      · exact .inl (hx ▸ ht)
      · exact .inr hms
    · rw [has_inserted_ne (.inr hx)] at ht
      exact .inl ht
  · by_cases hx : x = id
    · subst hx
      by_cases hcov : side.Covered t m
      · exact ⟨m, (hins.mem m).2 (.inr rfl), .single ⟨h.admissible side x t ht, hm, hcov⟩⟩
      · exact .of_mem ((hins.mem t).2 (.inl ⟨ht, hcov⟩))
    · refine .of_mem ?_
      rw [has_inserted_ne (.inr hx)]
      exact ht

/-- What was put in is covered. -/
theorem Tidy.covers_inserted (hP : Admits u P) (h : g.Tidy P) (hm : P side m) (hid : id ∈ g.ids) :
    (g.inserted side id m).Covers side id m := by
  have hcf := hP.convertibleFree hm
  have hins := h.mem_inserted hP side hcf hid
  exact ⟨m, (hins.mem m).2 (.inr rfl), side.covered_refl hP.legible.toSound hcf⟩

theorem Inserts.entails (hins : g.Inserts side id m) : (g.inserted side id m).Entails P side id m :=
  .of_mem ((hins.mem m).2 (.inr rfl))

end Graph

open TypeBounds.Graph

/-! ## One variable -/

/-- What a type does to one bound: it widens that bound and no other until all of it is covered. -/
structure Entered (P : Side → Ty → Prop) (side : Side) (ms : List Ty) (id : VarId) (g g' : Graph) :
    Prop
    extends Widened P side ms g g' where
  elsewhere : ∀ x, x ≠ id → (g'.boundsOf x).side side = (g.boundsOf x).side side

theorem Entered.refl (h : g.Tidy P) : Entered P side ms id g g := ⟨.refl h, fun _ _ => rfl⟩

theorem Entered.trans (h : Entered P side ms id g g') (h' : Entered P side ms id g' g'') :
    Entered P side ms id g g'' :=
  ⟨h.toWidened.trans h'.toWidened, fun x hx => (h'.elsewhere x hx).trans (h.elsewhere x hx)⟩

/-- **Members one after the other**, where each is in the bound as `stored` says once its turn was.
What the single members keep holds all along. -/
theorem entered_of_anyNew (stored : Ty → Ty) {each : Ty → Infer Bool} {J : Graph → Prop}
    (htidy : s.graph.Tidy P) (hJ : J s.graph) {todo : List Ty}
    (heach : ∀ m ∈ todo, ∀ s₁ s₂ new, SameShape s.graph s₁.graph → s₁.graph.Tidy P → J s₁.graph →
      each m s₁ = (.ok new, s₂) → J s₂.graph ∧ Entered P side ms id s₁.graph s₂.graph ∧
        s₂.graph.Entails P side id (stored m) ∧ (new = false → s₂.graph = s₁.graph)) {new : Bool}
    (h : anyNew each todo s = (.ok new, s')) :
    J s'.graph ∧ Entered P side ms id s.graph s'.graph ∧
      (∀ m ∈ todo, s'.graph.Entails P side id (stored m)) ∧ (new = false → s'.graph = s.graph) := by
  induction todo generalizing s new with
  | nil =>
    obtain ⟨rfl, rfl⟩ := pure_eq_ok.1 h
    exact ⟨hJ, .refl htidy, fun m hm => (List.not_mem_nil hm).elim, fun _ => rfl⟩
  | cons m todo ih =>
    obtain ⟨n₁, s₁, hm, h⟩ := bind_eq_ok.1 h
    obtain ⟨n₂, s₂, htail, h⟩ := bind_eq_ok.1 h
    obtain ⟨rfl, rfl⟩ := pure_eq_ok.1 h
    obtain ⟨hJ₁, h₁, hent₁, heq₁⟩ :=
      heach m (List.mem_cons_self ..) s s₁ n₁ (refl_of SameShape s.graph) htidy hJ hm
    obtain ⟨hJ₂, h₂, hent₂, heq₂⟩ := ih h₁.tidy hJ₁ (fun m hm s₃ s₄ new hshape =>
      heach m (List.mem_cons_of_mem _ hm) s₃ s₄ new (trans_of SameShape h₁.shape hshape)) htail
    refine ⟨hJ₂, h₁.trans h₂, ?_, fun hn => ?_⟩
    · exact List.forall_mem_cons.2 ⟨h₂.entails_of_entails hent₁, hent₂⟩
    · rw [Bool.or_eq_false_iff] at hn
      exact (heq₂ hn.2).trans (heq₁ hn.1)

/-- A member that was not covered is put in. -/
theorem Graph.Inserts.entered (hins : g.Inserts side id m) (h : g.Tidy P) (hm : P side m)
    (hnew : ¬g.Covers side id m) (hms : m ∈ ms) : Entered P side ms id g (g.inserted side id m) :=
  ⟨hins.widened h hm hnew hms, fun _ hx => side_boundsOf_inserted (.inr hx)⟩

theorem anyNew_ok (hP : Admits u P) (hq : s.graph.lattice.Quiet)
    (htidy : s.graph.Tidy P) (hid : id ∈ s.graph.ids) {todo : List Ty}
    (htodo : ∀ m ∈ todo, P side m ∧ m ∈ ms) {new : Bool}
    (h : anyNew (member nested side id) todo s = (.ok new, s')) :
    Entered P side ms id s.graph s'.graph ∧ (∀ m ∈ todo, s'.graph.Entails P side id m) ∧
      (new = false → s'.graph = s.graph) := by
  refine (entered_of_anyNew (fun m => m) (J := fun _ => True) htidy trivial ?_ h).2
  intro m hm s₁ s₂ new hshape htidy _ hmember
  obtain ⟨hPm, hms⟩ := htodo m hm
  rcases member_ok hP (hshape.lattice ▸ hq) htidy hPm hmember with ⟨hcov, -,
    hs₂⟩ | ⟨hcov, hnew, hs₂⟩
  · rw [hs₂]
    exact ⟨trivial, .refl htidy, .of_covers htidy hPm hcov, fun _ => rfl⟩
  · have hins := htidy.mem_inserted hP side (hP.convertibleFree hPm) (hshape.ids ▸ hid)
    rw [hs₂]
    refine ⟨trivial, hins.entered htidy hPm hcov hms, hins.entails, fun hn => ?_⟩
    rw [hn] at hnew
    cases hnew

theorem Graph.onward_eq_of_sameShape (h : SameShape g g') (side : Side) (x : VarId) :
    g'.onward side x = g.onward side x := by
  cases side with
  | lower => rw [onward, above, h.above]; rfl
  | upper => rw [onward, below, h.below]; rfl

/-- What a visit of a variable does: all of the type is covered there afterwards, and it goes on
from there if something was new. -/
structure Visited (P : Side → Ty → Prop) (side : Side) (ms : List Ty) (id : VarId)
    (found : List VarId) (g g' : Graph) : Prop extends Entered P side ms id g g' where
  absorbed : ∀ m ∈ ms, g'.Entails P side id m
  found : found = g'.onward side id ∨ found = [] ∧ g' = g

/-- **One visit.** -/
theorem visit_ok (hP : Admits u P) (hq : s.graph.lattice.Quiet)
    (htidy : s.graph.Tidy P) (hid : id ∈ s.graph.ids) (ht : ∀ m ∈ side.parts t, P side m)
    {found : List VarId} (h : visit nested side t id s = (.ok found, s')) :
    Visited P side (side.parts t) id found s.graph s'.graph := by
  obtain ⟨new, s₁, hnew, hs', rfl⟩ := visit_cases hP ht h
  obtain ⟨hent, hcov, heq⟩ := anyNew_ok hP hq htidy hid (fun m hm => ⟨ht m hm, hm⟩) hnew
  rw [hs' hent.tidy]
  refine ⟨hent, hcov, ?_⟩
  cases new with
  | false => exact .inr ⟨rfl, heq rfl⟩
  | true => exact .inl rfl

/-! ## The search -/

/-- **The state of a search** for the places that the parts `ms` of a type have to get to from
`start` on. `E` are edges along which everything had flowed in `g₀`, and `R` holds wherever the type
can get to. -/
structure Searching (P : Side → Ty → Prop) (side : Side) (ms : List Ty) (start : VarId)
    (E : VarId → VarId → Prop) (R : VarId → Prop) (g₀ : Graph) (unvisited stack : List VarId)
    (g : Graph) : Prop where
  widened : Widened P side ms g₀ g
  within : ∀ x ∈ stack, R x
  untouched : ∀ x, ¬R x → (g.boundsOf x).side side = (g₀.boundsOf x).side side
  visited : ∀ x ∈ g₀.ids, x ∉ unvisited → ∀ m ∈ ms, g.Entails P side x m
  pending : ∀ x y, E x y → ∀ e ∈ g.has side x,
    g.Entails P side y e ∨ e ∈ ms ∧ y ∈ stack ∧ y ∈ unvisited
  arriving : ∀ e ∈ ms, g.Entails P side start e ∨ e ∈ ms ∧ start ∈ stack ∧ start ∈ unvisited

section

variable {start : VarId} {E : VarId → VarId → Prop} {R : VarId → Prop} {g₀ : Graph}
  {unvisited stack : List VarId}

/-- **One step of the search.** -/
theorem Searching.step (hE : ∀ x y, E x y → y ∈ g₀.onward side x ∧ y ∈ g₀.ids)
    (hR : ∀ x y, R x → y ∈ g₀.onward side x → R y) {n : VarId} {rest found : List VarId}
    (hstack : n ∈ stack) (hrest : ∀ y ∈ rest, y ∈ stack)
    (hcover : ∀ y ∈ stack, y ∈ unvisited → y = n ∨ y ∈ rest)
    (h : Searching P side ms start E R g₀ unvisited stack g)
    (hent : Visited P side ms n found g g') :
    Searching P side ms start E R g₀ (unvisited.erase n) (found.reverse ++ rest) g' := by
  have hshape := h.widened.shape
  have hcov := hent.absorbed
  have hRn : R n := h.within n hstack
  have honward : g'.onward side n = g₀.onward side n :=
    Graph.onward_eq_of_sameShape (trans_of SameShape hshape hent.shape) side n
  have hvisited : ∀ x ∈ g₀.ids, x ∉ unvisited.erase n → ∀ m ∈ ms,
      g'.Entails P side x m := by
    intro x hx hnot m hm
    by_cases hxn : x = n
    · rw [hxn]
      exact hcov m hm
    · have hnot : x ∉ unvisited := fun hx => hnot ((List.mem_erase_of_ne hxn).2 hx)
      exact hent.entails_of_entails (h.visited x hx hnot m hm)
  -- what was on the way to `y` has arrived there, or `y` is still on the stack
  have hwaiting {y : VarId} {e : Ty} (he : e ∈ ms) (hstack : y ∈ stack)
      (hy : y ∈ unvisited) :
      g'.Entails P side y e ∨ e ∈ ms ∧ y ∈ found.reverse ++ rest ∧ y ∈ unvisited.erase n := by
    by_cases hyn : y = n
    · rw [hyn]
      exact .inl (hcov e he)
    · refine .inr ⟨he, List.mem_append_right _ ?_, (List.mem_erase_of_ne hyn).2 hy⟩
      exact (hcover y hstack hy).resolve_left hyn
  have hkept {x y : VarId} {e : Ty} (hxy : E x y) (he : e ∈ g.has side x) :
      g'.Entails P side y e ∨ e ∈ ms ∧ y ∈ found.reverse ++ rest ∧ y ∈ unvisited.erase n := by
    rcases h.pending x y hxy e he with hent' | ⟨hms, hstack, hy⟩
    · exact .inl (hent.entails_of_entails hent')
    · exact hwaiting hms hstack hy
  refine ⟨h.widened.trans hent.toWidened, fun x hx => ?_, fun x hx => ?_, hvisited, ?_, ?_⟩
  · rcases List.mem_append.1 hx with hx | hx
    · rcases hent.found with rfl | ⟨rfl, -⟩
      · rw [List.mem_reverse, honward] at hx
        exact hR n x hRn hx
      · cases hx
    · exact h.within x (hrest x hx)
  · have hxn : x ≠ n := fun hxn => hx (hxn ▸ hRn)
    exact (hent.elsewhere x hxn).trans (h.untouched x hx)
  · intro x y hxy e he
    rcases hent.found with rfl | ⟨rfl, heq⟩
    · by_cases hxn : x = n
      · subst hxn
        rcases hent.origin x e he with he | hms
        · exact hkept hxy he
        · by_cases hy : y ∈ unvisited.erase x
          · refine .inr ⟨hms, List.mem_append_left _ ?_, hy⟩
            rw [List.mem_reverse, honward]
            exact (hE x y hxy).1
          · exact .inl (hvisited y (hE x y hxy).2 hy e hms)
      · have hsame : g'.has side x = g.has side x := by
          rw [has, has, hent.elsewhere x hxn]
        rw [hsame] at he
        exact hkept hxy he
    · rw [heq] at he
      exact hkept hxy he
  · intro e he
    rcases h.arriving e he with hent' | ⟨-, hstack, hy⟩
    · exact .inl (hent.entails_of_entails hent')
    · exact hwaiting he hstack hy

/-- Nothing is pending once all that is on the stack was visited. -/
theorem Searching.finish (h : Searching P side ms start E R g₀ unvisited stack g)
    (hnone : ∀ y ∈ stack, y ∉ unvisited) : Searching P side ms start E R g₀ unvisited [] g := by
  refine ⟨h.widened, fun _ hx => (List.not_mem_nil hx).elim, h.untouched, h.visited, ?_, ?_⟩
  · intro x y hxy e he
    rcases h.pending x y hxy e he with hcov | ⟨-, hstack, hy⟩
    · exact .inl hcov
    · exact absurd hy (hnone y hstack)
  · intro e he
    rcases h.arriving e he with hcov | ⟨-, hstack, hy⟩
    · exact .inl hcov
    · exact absurd hy (hnone start hstack)

/-- **What holds after a search**: an invariant of its steps, with nothing on the stack left to
visit. -/
theorem exploreM_ok {visit : VarId → Infer (List VarId)}
    {I : List VarId → List VarId → Graph → Prop}
    (hstep : ∀ unvisited stack n rest found s s', I unvisited stack s.graph →
      n ∈ unvisited → n ∈ stack →
      (∀ y ∈ rest, y ∈ stack) → (∀ y ∈ stack, y ∈ unvisited → y = n ∨ y ∈ rest) →
      visit n s = (.ok found, s') → I (unvisited.erase n) (found.reverse ++ rest) s'.graph)
    {count : Nat} (hcount : unvisited.length ≤ count) (h : I unvisited stack s.graph)
    (hrun : exploreM visit count unvisited stack s = (.ok (), s')) :
    ∃ left stack, I left stack s'.graph ∧ ∀ y ∈ stack, y ∉ left := by
  induction count generalizing unvisited stack s with
  | zero =>
    obtain ⟨-, rfl⟩ := pure_eq_ok.1 hrun
    refine ⟨unvisited, stack, h, fun y _ hy => ?_⟩
    have hpos := List.length_pos_of_mem hy
    omega
  | succ count ih =>
    rw [exploreM] at hrun
    rcases hdrop : stack.dropWhile fun n => !unvisited.contains n with _ | ⟨n, rest⟩
    · rw [hdrop] at hrun
      obtain ⟨-, rfl⟩ := pure_eq_ok.1 hrun
      exact ⟨unvisited, stack, h, dropWhile_unvisited_nil hdrop⟩
    · rw [hdrop] at hrun
      obtain ⟨hn, hstack, hrest, hcover⟩ := dropWhile_unvisited hdrop
      obtain ⟨found, s₁, hfirst, hrun⟩ := bind_eq_ok.1 hrun
      refine ih ?_ (hstep unvisited stack n rest found s s₁ h hn hstack hrest hcover hfirst) hrun
      rw [List.length_erase_of_mem hn]
      omega

/-- The first visit of a search is where it starts. -/
theorem exploreM_start {visit : VarId → Infer (List VarId)} {ids : List VarId} (hid : id ∈ ids) :
    exploreM visit ids.length ids [id] =
      visit id >>= fun found =>
      exploreM visit (ids.length - 1) (ids.erase id) (found.reverse ++ []) := by
  obtain ⟨count, hcount⟩ := Nat.exists_eq_add_of_le' (List.length_pos_of_mem hid)
  have hdrop : [id].dropWhile (fun n => !ids.contains n) = [id] :=
    List.dropWhile_cons_of_neg (by simpa using hid)
  rw [hcount, exploreM, hdrop]
  rfl

theorem exploreM_nil {visit : VarId → Infer (List VarId)} (count : Nat) (unvisited : List VarId) :
    exploreM visit count unvisited [] = pure () := by
  cases count <;> rfl

/-- **How a search ends**: with what its visits keep, or where one of them fails. `R` holds wherever
the search gets to. -/
theorem exploreM_ends {visit : VarId → Infer (List VarId)} {J : Graph → Prop}
    {E : Contradiction → Progress → Prop} (hvisit : ∀ n s, R n → n ∈ g.ids → J s.graph →
      Ends (visit n) s (fun found s' => J s'.graph ∧ ∀ y ∈ found, R y) E)
    {count : Nat} (hunvisited : ∀ n ∈ unvisited, n ∈ g.ids) (hstack : ∀ n ∈ stack, R n)
    (hJ : J s.graph) :
    Ends (exploreM visit count unvisited stack) s (fun _ s' => J s'.graph) E := by
  -- on the visits left: `R` holds of all that waits on the stack, whatever was found on the way
  induction count generalizing unvisited stack s with
  | zero => exact .pure hJ
  | succ count ih =>
    rw [exploreM]
    rcases hdrop : stack.dropWhile fun n => !unvisited.contains n with _ | ⟨n, rest⟩
    · exact .pure hJ
    · obtain ⟨hn, hmem, hrest, -⟩ := dropWhile_unvisited hdrop
      refine (hvisit n s (hstack n hmem) (hunvisited n hn) hJ).bind fun found s₁ hkept => ?_
      obtain ⟨hJ₁, hfound⟩ := hkept
      refine ih (fun n hn => hunvisited n (List.mem_of_mem_erase hn)) (fun y hy => ?_) hJ₁
      rcases List.mem_append.1 hy with hy | hy
      · exact hfound y (List.mem_reverse.1 hy)
      · exact hstack y (hrest y hy)

/-- **The whole search**: in the end nothing is pending. What the visits keep holds all along. -/
theorem Searching.run {visit : VarId → Infer (List VarId)} {J : Graph → Prop}
    (hE : ∀ x y, E x y → y ∈ g₀.onward side x ∧ y ∈ g₀.ids)
    (hR : ∀ x y, R x → y ∈ g₀.onward side x → R y)
    (hvisit : ∀ n found s s', R n → n ∈ g₀.ids → SameShape g₀ s.graph → J s.graph →
      visit n s = (.ok found, s') → J s'.graph ∧ Visited P side ms n found s.graph s'.graph)
    {count : Nat} (hcount : unvisited.length ≤ count) (hsub : ∀ x ∈ unvisited, x ∈ g₀.ids)
    (h : Searching P side ms start E R g₀ unvisited stack s.graph) (hJ : J s.graph)
    (hrun : exploreM visit count unvisited stack s = (.ok (), s')) :
    J s'.graph ∧ ∃ left, Searching P side ms start E R g₀ left [] s'.graph := by
  have hend := exploreM_ok (I := fun unvisited stack g => (∀ x ∈ unvisited, x ∈ g₀.ids) ∧ J g ∧
    Searching P side ms start E R g₀ unvisited stack g)
      (fun unvisited stack n rest found s s₁ hI hn hstack hrest hcover hfirst => ?_) hcount
      ⟨hsub, hJ, h⟩ hrun
  · obtain ⟨left, stack', ⟨-, hJ', h'⟩, hnone⟩ := hend
    exact ⟨hJ', left, h'.finish hnone⟩
  · obtain ⟨hsub, hJ, h⟩ := hI
    obtain ⟨hJ₁, hvisited⟩ :=
      hvisit n found s s₁ (h.within n hstack) (hsub n hn) h.widened.shape hJ hfirst
    exact ⟨fun x hx => hsub x (List.mem_of_mem_erase hx), hJ₁,
      h.step hE hR hstack hrest hcover hvisited⟩

end

/-! ## Propagation -/

/-- Along the given edges, whatever a bound holds is covered at the other end. -/
def Graph.Flows (P : Side → Ty → Prop) (side : Side) (E : VarId → VarId → Prop) (g : Graph) :
    Prop :=
  ∀ x y, E x y → ∀ t ∈ g.has side x, g.Entails P side y t

/-- **What a propagation achieves**: the type arrives at the start, gets nowhere but where the edges
lead, and along every set of edges where everything had flowed, everything has flowed again. -/
structure Graph.Arrived (P : Side → Ty → Prop) (side : Side) (ms : List Ty) (start : VarId)
    (g g' : Graph) : Prop extends Widened P side ms g g' where
  absorbed : ∀ m ∈ ms, g'.Entails P side start m
  untouched : ∀ x, ¬ReflTransGen (fun x y => y ∈ g.onward side x) start x →
    (g'.boundsOf x).side side = (g.boundsOf x).side side
  flows : ∀ E : VarId → VarId → Prop, (∀ x y, E x y → y ∈ g.onward side x) →
    g.Flows P side E → g'.Flows P side E

theorem Graph.WellFormed.mem_ids_of_mem_onward (h : g.WellFormed) (hy : y ∈ g.onward side x) :
    y ∈ g.ids := by
  cases side with
  | lower => exact h.mem_ids_of_mem_above (Natural.mem_sort.1 hy)
  | upper => exact h.mem_ids_of_mem_below (Natural.mem_sort.1 hy)

theorem Graph.one_le_spreadDepth : 1 ≤ g.spreadDepth t := by
  unfold spreadDepth
  exact Nat.mul_pos (Nat.mul_pos (by decide) (Nat.succ_pos _)) (Nat.succ_pos _)

/-- There is always at least one level, so a propagation is a search. -/
theorem exists_spread_eq (side : Side) (start : VarId) (t : Ty) (s : Progress) : ∃ depth,
    spread side start t s = exploreM (visit (spreadWithin depth) side t) s.graph.ids.length
      s.graph.ids [start] s := by
  obtain ⟨depth, hdepth⟩ :=
    Nat.exists_eq_add_of_le' (Graph.one_le_spreadDepth (g := s.graph) (t := t))
  refine ⟨depth, ?_⟩
  unfold spread
  rw [graph_bind_apply, hdepth]
  rfl

/-- **What a search achieves** whose visits take `ms` in wherever it gets to. -/
theorem arrived_of_exploreM {visit : VarId → Infer (List VarId)} {J : Graph → Prop}
    (htidy : s.graph.Tidy P) (hwf : s.graph.WellFormed) {start : VarId}
    (hstart : start ∈ s.graph.ids)
    (hvisit : ∀ n found s₁ s₂, ReflTransGen (fun x y => y ∈ s.graph.onward side x) start n →
      n ∈ s.graph.ids → SameShape s.graph s₁.graph → J s₁.graph → visit n s₁ = (.ok found, s₂) →
      J s₂.graph ∧ Visited P side ms n found s₁.graph s₂.graph)
    (hJ : J s.graph) (h : exploreM visit s.graph.ids.length s.graph.ids [start] s = (.ok (), s')) :
    J s'.graph ∧ Arrived P side ms start s.graph s'.graph := by
  set R := ReflTransGen (fun x y => y ∈ s.graph.onward side x) start
  have hrun (E : VarId → VarId → Prop) (hE : ∀ x y, E x y → y ∈ s.graph.onward side x)
      (hflows : s.graph.Flows P side E) :
      J s'.graph ∧ ∃ left, Searching P side ms start E R s.graph left [] s'.graph := by
    have hbegin : Searching P side ms start E R s.graph s.graph.ids [start] s.graph := by
      refine ⟨.refl htidy, fun x hx => ?_, fun _ _ => rfl, fun x hx hnot => absurd hx hnot,
        fun x y hxy e he => .inl (hflows x y hxy e he), fun e he => ?_⟩
      · rw [List.mem_singleton.1 hx]
      · exact .inr ⟨he, List.mem_singleton_self _, hstart⟩
    exact hbegin.run (fun x y hxy => ⟨hE x y hxy, hwf.mem_ids_of_mem_onward (hE x y hxy)⟩)
      (fun x y hx hy => hx.tail hy) hvisit le_rfl (fun x hx => hx) hJ h
  obtain ⟨hJ', _, hplain⟩ := hrun (fun _ _ => False) (fun _ _ h => h.elim) (fun _ _ h => h.elim)
  refine ⟨hJ', hplain.widened, fun m hm => ?_, hplain.untouched, fun E hE hflows x y hxy e he => ?_⟩
  · exact (hplain.arriving m hm).resolve_right fun h => List.not_mem_nil h.2.1
  · obtain ⟨-, _, hfull⟩ := hrun E hE hflows
    exact (hfull.pending x y hxy e he).resolve_right fun h => List.not_mem_nil h.2.1

theorem spread_ok (hP : Admits u P) (hq : s.graph.lattice.Quiet)
    (htidy : s.graph.Tidy P) (hwf : s.graph.WellFormed) {start : VarId}
    (hstart : start ∈ s.graph.ids) (ht : ∀ m ∈ side.parts t, P side m)
    (h : spread side start t s = (.ok (), s')) :
    Arrived P side (side.parts t) start s.graph s'.graph := by
  obtain ⟨depth, hspread⟩ := exists_spread_eq side start t s
  rw [hspread] at h
  refine (arrived_of_exploreM (J := (·.Tidy P)) htidy hwf hstart ?_ htidy h).2
  intro n found s₁ s₂ _ hn hshape htidy₁ hvisit
  have hvisited := visit_ok hP (hshape.lattice ▸ hq) htidy₁ (hshape.ids ▸ hn) ht hvisit
  exact ⟨hvisited.tidy, hvisited⟩

/-! ## Whole bounds -/

/-- Members of a bound are the parts of the container that they make up. -/
theorem Side.parts_container {ms : Members}
    (h : ∀ t ∈ Members.types ms, ∀ ms', t ≠ side.container ms') :
    side.parts (side.container ms) = Members.types ms := by
  rw [parts_flatMap, Members.types, List.map_eq_flatMap]
  exact List.flatMap_congr fun m hm => parts_eq side (h m.2 (List.mem_map_of_mem hm))

/-- Handing a whole bound on is to propagate a type with the same parts. -/
theorem handOn_cases (hP : Admits u P) {ms : Members} (hkeyed : ms.Keyed)
    (hms : ∀ t ∈ Members.types ms, P side t) (h : handOn side id ms s = (.ok (), s')) :
    ms = [] ∧ s' = s ∨ ∃ t, side.parts t = Members.types ms ∧
      spread side id t s = (.ok (), s') := by
  unfold handOn at h
  split at h
  · rename_i hempty
    obtain ⟨-, rfl⟩ := pure_eq_ok.1 h
    exact .inl ⟨List.isEmpty_iff.1 hempty, rfl⟩
  · have hcf : ConvertibleFree u (side.container ms) := by
      refine .container side hkeyed.key hkeyed.nodup fun m hm => ?_
      exact hP.convertibleFree (hms m.2 (Members.mem_types.2 ⟨m, hm, rfl⟩))
    rw [hcf.copy_eq hP.legible.toSound] at h
    exact .inr ⟨_, Side.parts_container fun t ht => (hP.settled side t (hms t ht)).ne_container, h⟩

theorem handOn_ok (hP : Admits u P) (hq : s.graph.lattice.Quiet) (htidy : s.graph.Tidy P)
    (hwf : s.graph.WellFormed) (hid : id ∈ s.graph.ids) {ms : Members} (hkeyed : ms.Keyed)
    (hms : ∀ t ∈ Members.types ms, P side t) (h : handOn side id ms s = (.ok (), s')) :
    Arrived P side (Members.types ms) id s.graph s'.graph := by
  rcases handOn_cases hP hkeyed hms h with ⟨rfl, rfl⟩ | ⟨t, hparts, hspread⟩
  · exact ⟨.refl htidy, fun m hm => (List.not_mem_nil hm).elim, fun _ _ => rfl, fun _ _ hE => hE⟩
  · rw [← hparts] at hms ⊢
    exact spread_ok hP hq htidy hwf hid hms hspread

theorem Graph.side_boundsOf_of_sameTypes (h : SameTypes g g') (side : Side) (x : VarId) :
    (g'.boundsOf x).side side = (g.boundsOf x).side side := by
  cases side with
  | lower => exact h.lower x
  | upper => exact h.upper x

theorem Graph.has_of_sameTypes (h : SameTypes g g') (side : Side) (x : VarId) :
    g'.has side x = g.has side x := by
  rw [has, side_boundsOf_of_sameTypes h, has]

theorem Graph.Tidy.of_sides (htidy : g.Tidy P)
    (hsides : ∀ side x, (g'.boundsOf x).side side = (g.boundsOf x).side side) : g'.Tidy P where
  keyed side x := hsides side x ▸ htidy.keyed side x
  admissible side x t ht := htidy.admissible side x t (by rwa [has, ← hsides side x])

theorem Graph.Tidy.of_sameTypes (htidy : g.Tidy P) (h : SameTypes g g') : g'.Tidy P :=
  htidy.of_sides (side_boundsOf_of_sameTypes h)

/-- A new edge is linked across, and then both bounds are handed on. -/
theorem addEdge_cases {lower upper : VarId} (h : addEdge lower upper s = (.ok (), s')) :
    lower ∈ (s.graph.boundsOf upper).below ∧ s' = s ∨
      lower ∉ (s.graph.boundsOf upper).below ∧ ∃ s₁ s₂, s₁.graph = s.graph.linkAcross lower upper ∧
        handOn .lower upper (s.graph.boundsOf lower).lower s₁ = (.ok (), s₂) ∧
        handOn .upper lower (s₂.graph.boundsOf upper).upper s₂ = (.ok (), s') := by
  rw [addEdge_eq, graph_bind_apply] at h
  by_cases hedge : lower ∈ (s.graph.boundsOf upper).below
  · rw [if_pos (List.contains_iff_mem.2 hedge)] at h
    obtain ⟨-, rfl⟩ := pure_eq_ok.1 h
    exact .inl ⟨hedge, rfl⟩
  · rw [if_neg fun hc => hedge (List.contains_iff_mem.1 hc)] at h
    obtain ⟨_, s₀, hmodify, h⟩ := bind_eq_ok.1 h
    obtain ⟨_, s₁, hnote, h⟩ := bind_eq_ok.1 h
    obtain ⟨_, s₂, hlower, h⟩ := bind_eq_ok.1 h
    refine .inr ⟨hedge, s₁, s₂, ?_, hlower, h⟩
    cases hmodify
    cases hnote
    rfl

/-- **A new edge**: the lower bound of its lower end arrives at its upper end, and the upper bound
of its upper end at its lower end. -/
theorem addEdge_ok (hP : Admits u P) (hq : s.graph.lattice.Quiet) (htidy : s.graph.Tidy P)
    (hwf : s.graph.WellFormed) {lower upper : VarId} (hl : lower ∈ s.graph.ids)
    (hu : upper ∈ s.graph.ids) (h : addEdge lower upper s = (.ok (), s')) :
    lower ∈ (s.graph.boundsOf upper).below ∧ s'.graph = s.graph ∨
      lower ∉ (s.graph.boundsOf upper).below ∧ ∃ g₁,
        Arrived P .lower (s.graph.has .lower lower) upper (s.graph.linkAcross lower upper) g₁ ∧
        Arrived P .upper (g₁.has .upper upper) lower g₁ s'.graph := by
  rcases addEdge_cases h with ⟨hedge, rfl⟩ | ⟨hedge, s₁, s₂, hs₁, hlower, hupper⟩
  · exact .inl ⟨hedge, rfl⟩
  · have hsame : SameTypes s.graph s₁.graph := hs₁ ▸ sameTypes_linkAcross
    have hwf₁ : s₁.graph.WellFormed := hs₁ ▸ (hwf.linkAcross hl hu).1
    have hq₁ : s₁.graph.lattice.Quiet := hsame.lattice ▸ hq
    have harr := handOn_ok hP hq₁ (htidy.of_sameTypes hsame) hwf₁ (hsame.ids ▸ hu)
      (htidy.keyed .lower lower) (htidy.admissible .lower lower) hlower
    have hshape := harr.shape
    refine .inr ⟨hedge, s₂.graph, hs₁ ▸ harr, ?_⟩
    exact handOn_ok hP (hshape.lattice ▸ hq₁) harr.tidy (hwf₁.of_sameShape hshape)
      (hshape.ids ▸ hsame.ids ▸ hl) (harr.tidy.keyed .upper upper)
      (harr.tidy.admissible .upper upper)
      hupper

end

end TypeBounds
