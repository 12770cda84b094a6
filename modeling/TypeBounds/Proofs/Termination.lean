import Mathlib.Data.Finset.Prod
import TypeBounds.Proofs.Freezing
import TypeBounds.Proofs.Recording
import TypeBounds.Proofs.Redundancy

/-!
# Propagation comes to an end

The limits on propagation are never met. Whether two runs with different limits agree is asked of
the runs as they go (`Concur`): they do the same as long as the propagations inside do. So it has to
be shown that these get shallower. Every one of them is for a source or a target of a conversion,
and a target that comes into an upper bound is implied there from then on, whatever takes its place.
What is left to come in gets less each time:

* `Graph.Implies`, `Ladder`: a type is implied by an upper member of some kind, such that this is
  for good;
* `Raises`: what came into upper bounds, each named type once;
* `Graph.Lacks`: how many targets of conversions are not yet implied by the upper bounds of how many
  variables. One less after each nested upper propagation that does anything (`Lacks.raise`);
* `concur_lower`, `concur_upper`: by induction on what is lacking, the runs agree.

Main statement: `propagation_ends`.
-/

namespace TypeBounds

open Infer Recorded

/-! ## What is left alone -/

/-- Run from `s`, the computation leaves the graph alone and no limit is met. -/
def Infer.Still {α : Type} (m : Infer α) (s : Progress) : Prop :=
  (m s).2.graph = s.graph ∧ (m s).2.effect.complete = s.effect.complete

namespace Infer.Still

variable {α β : Type} {m : Infer α} {s : Progress}

theorem pure (a : α) : Still (pure a : Infer α) s := ⟨rfl, rfl⟩

theorem fail (e : Contradiction) : Still (fail e : Infer α) s := ⟨rfl, rfl⟩

theorem note {f : Effect → Effect} (hf : ∀ e, (f e).complete = e.complete) : Still (note f) s :=
  ⟨rfl, hf _⟩

theorem graph_bind {f : Graph → Infer β} (h : Still (f s.graph) s) : Still (graph >>= f) s := h

theorem bind {f : α → Infer β} (hm : Still m s) (hf : ∀ a s', m s = (.ok a, s') → Still (f a) s') :
    Still (m >>= f) s := by
  unfold Still at hm ⊢
  rw [bind_apply]
  rcases hrun : m s with ⟨e | a, s'⟩ <;> rw [hrun] at hm
  · exact hm
  · obtain ⟨hgraph, hcomplete⟩ := hf a s' hrun
    exact ⟨hgraph.trans hm.1, hcomplete.trans hm.2⟩

theorem composes : Composes Still :=
  ⟨pure, fail, fun _ => note fun _ => rfl, graph_bind, bind⟩

end Infer.Still

theorem still_onwards (side : Side) (id : VarId) (s : Progress) : Still (onwards side id) s := by
  refine .bind (.note fun _ => rfl) fun _ s' _ => ?_
  exact (Still.composes.recheck id s').bind fun _ _ _ => .graph_bind (.pure _)

/-! ## Runs that agree -/

mutual

/-- The types that came into upper bounds, in order, those in propagations inside included. -/
def Event.raised : Event → List (VarId × Ty)
  | raise id m => [(id, m)]
  | spread _ _ _ events => raisedIn events

def Event.raisedIn : List Event → List (VarId × Ty)
  | [] => []
  | e :: events => raised e ++ raisedIn events

end

open Event

theorem raisedIn_append (events events' : List Event) :
    raisedIn (events ++ events') = raisedIn events ++ raisedIn events' := by
  induction events with
  | nil => rfl
  | cons e events ih => simp [raisedIn, ih]

theorem raisedIn_spread (side : Side) (start : VarId) (t : Ty) (events : List Event) :
    raisedIn [.spread side start t events] = raisedIn events := by
  rw [raisedIn, raised, raisedIn, List.append_nil]

/-- **Two computations agree** when run from `s`. They do the same and meet no limit; `J` holds of
the graph they leave, and `T` of what comes into upper bounds from the one graph to the other. -/
structure Concur {α : Type} (J : Graph → Prop) (T : Graph → List (VarId × Ty) → Graph → Prop)
    (m m' : Recorded α) (s : Progress) : Prop where
  same : m s = m' s
  keeps : J (m s).2.2.graph
  told : T s.graph (raisedIn (m s).1) (m s).2.2.graph
  complete : (m s).2.2.effect.complete = s.effect.complete

/-- What can be said of the graphs along a run, and of what comes into upper bounds on the way.
Lower members do no harm. -/
structure Follows (u : Universe) (J : Graph → Prop) (T : Graph → List (VarId × Ty) → Graph → Prop) :
    Prop where
  stocked : ∀ g, J g → g.Stocked u fun _ => ConvertibleFree u
  nil : ∀ g, T g [] g
  append : ∀ g g' g'' rs rs', T g rs g' → T g' rs' g'' → T g (rs ++ rs') g''
  lower : ∀ g id m, J g → ConvertibleFree u m → J (g.inserted .lower id m) ∧
    T g [] (g.inserted .lower id m)

namespace Concur

variable {α β : Type} {u : Universe} {J J' : Graph → Prop}
  {T T' : Graph → List (VarId × Ty) → Graph → Prop} {m m' : Recorded α} {f f' : α → Recorded β}
  {s : Progress}

theorem mono (h : Concur J T m m' s) (hJ : ∀ g, J g → J' g)
    (hT : ∀ g rs g', T g rs g' → T' g rs g') : Concur J' T' m m' s :=
  ⟨h.same, hJ _ h.keeps, hT _ _ _ h.told, h.complete⟩

theorem pure (h : Follows u J T) (hJ : J s.graph) (a : α) : Concur J T (pure a) (pure a) s :=
  ⟨rfl, hJ, h.nil _, rfl⟩

theorem silent (h : Follows u J T) (hJ : J s.graph) {m : Infer α} (hm : Still m s) :
    Concur J T (silent m) (silent m) s := by
  refine ⟨rfl, ?_, ?_, hm.2⟩
  · change J (m s).2.graph
    rwa [hm.1]
  · change T s.graph [] (m s).2.graph
    rw [hm.1]
    exact h.nil _

theorem bind (h : Follows u J T) (hm : Concur J T m m' s)
    (hf : ∀ a s', m s = ((m s).1, .ok a, s') → J s'.graph → Concur J T (f a) (f' a) s') :
    Concur J T (m >>= f) (m' >>= f') s := by
  obtain ⟨hsame, hkeeps, htold, hcomplete⟩ := hm
  have happly {m : Recorded α} {f : α → Recorded β} : (m >>= f) s = Recorded.bind m f s := rfl
  rcases hrun : m s with ⟨events, e | a, s'⟩
  · rw [hrun] at hkeeps htold hcomplete
    have hleft : (m >>= f) s = (events, .error e, s') := by rw [happly, Recorded.bind, hrun]
    have hright : (m' >>= f') s = (events, .error e, s') := by
      rw [happly, Recorded.bind, ← hsame, hrun]
    refine ⟨hleft.trans hright.symm, ?_, ?_, ?_⟩ <;> rw [hleft]
    · exact hkeeps
    · exact htold
    · exact hcomplete
  · obtain ⟨hsame', hkeeps', htold', hcomplete'⟩ := hf a s' (by rw [hrun]) (by rwa [hrun] at hkeeps)
    rw [hrun] at htold hcomplete
    have hleft : (m >>= f) s = (events ++ (f a s').1, (f a s').2) := by
      rw [happly, Recorded.bind, hrun]
    have hright : (m' >>= f') s = (events ++ (f' a s').1, (f' a s').2) := by
      rw [happly, Recorded.bind, ← hsame, hrun]
    refine ⟨by rw [hleft, hright, hsame'], ?_, ?_, ?_⟩ <;> rw [hleft]
    · exact hkeeps'
    · rw [raisedIn_append]
      exact h.append _ _ _ _ _ htold htold'
    · exact hcomplete'.trans hcomplete

theorem silent_bind (h : Follows u J T) (hJ : J s.graph) {m : Infer α} (hm : Still m s)
    (hf : ∀ a s', m s = (.ok a, s') → J s'.graph → s'.graph = s.graph →
      Concur J T (f a) (f' a) s') :
    Concur J T (Recorded.silent m >>= f) (Recorded.silent m >>= f') s := by
  refine (silent h hJ hm).bind h fun a s' hrun hJ' => ?_
  have hok : m s = (.ok a, s') := congrArg Prod.snd hrun
  exact hf a s' hok hJ' (by rw [← hm.1, hok])

theorem graph_bind (h : Follows u J T) (hJ : J s.graph) {f f' : Graph → Recorded β}
    (hf : Concur J T (f s.graph) (f' s.graph) s) :
    Concur J T (Recorded.silent graph >>= f) (Recorded.silent graph >>= f') s := by
  refine silent_bind h hJ ⟨rfl, rfl⟩ fun g s' hrun _ _ => ?_
  cases hrun
  exact hf

theorem inside (side : Side) (start : VarId) (t : Ty) {m m' : Recorded Unit}
    (h : Concur J T m m' s) : Concur J T (inside side start t m) (inside side start t m') s where
  same := by rw [Recorded.inside, Recorded.inside, h.same]
  keeps := h.keeps
  told := by
    change T s.graph (raisedIn [.spread side start t (m s).1]) (m s).2.2.graph
    rw [raisedIn_spread]
    exact h.told
  complete := h.complete

end Concur

/-! ## One propagation

Two runs of a propagation agree if the propagations inside do. -/

section

variable {u : Universe} {J J' : Graph → Prop} {T : Graph → List (VarId × Ty) → Graph → Prop}
  {side : Side} {id : VarId} {m t : Ty} {s : Progress}
  {nested nested' : Side → VarId → Ty → Recorded Unit}

/-- A lower member: what is nested narrows an upper bound to the target of a conversion. -/
theorem concur_joinMember (hu : u.Sound) (h : Follows u J T)
    (hnested : ∀ id s, J s.graph → ∀ c ∈ s.graph.lattice.conversions,
      Concur J T (nested .upper id c.target) (nested' .upper id c.target) s)
    (hm : ConvertibleFree u m) (hJ : J s.graph) :
    Concur J T (Recorded.joinMember (nested .upper) id m)
      (Recorded.joinMember (nested' .upper) id m) s := by
  refine .graph_bind h hJ ?_
  split
  · exact .pure h hJ _
  have hcheck :
      Concur J T (Recorded.checkUpper (nested .upper) id m)
      (Recorded.checkUpper (nested' .upper) id m) s := by
    refine .graph_bind h hJ ?_
    dsimp only
    split
    · exact .pure h hJ _
    · split
      · exact .silent h hJ (.fail _)
      · rename_i c hc
        refine .silent_bind h hJ (.note fun _ => rfl) fun _ s' _ hJ' hgraph =>
          hnested id s' hJ' c ?_
        rw [hgraph]
        exact Lattice.mem_of_bridge? hc
  refine hcheck.bind h fun _ s' _ hJ' => ?_
  have hbare : ∀ e ∈ s'.graph.has .lower id, e.Bare := fun e he =>
    ((h.stocked _ hJ').tidy.admissible .lower id e he).bare hu
  have hinserted := Graph.insertLower_eq_of_bare hbare (hm.bare hu) (hm.copy_eq hu)
  obtain ⟨hkeeps, htold⟩ := h.lower s'.graph id m hJ' hm
  rw [← hinserted] at hkeeps htold
  have hput :
      Concur J T (silent (modify fun g => g.insertLower id m))
      (silent (modify fun g => g.insertLower id m)) s' :=
    ⟨rfl, hkeeps, htold, rfl⟩
  exact hput.bind h fun _ s'' _ hJ'' => .pure h hJ'' _

/-- An upper member: once it is in, what is nested widens a lower bound to the source of a
conversion. -/
theorem concur_meetMember (hu : u.Sound) (h : Follows u J T) (h' : Follows u J' T)
    (hJ' : ∀ g, J' g → J g) (hnested : ∀ id t s, ConvertibleFree u t → J' s.graph →
      Concur J' T (nested .lower id t) (nested' .lower id t) s)
    (hinsert : ∀ g, J g → ¬g.upperAbsorbs id m →
      J' (g.inserted .upper id m) ∧ T g [(id, m)] (g.inserted .upper id m))
    (hm : ConvertibleFree u m) (hJ : J s.graph) :
    Concur J T (Recorded.meetMember (nested .lower) id m)
      (Recorded.meetMember (nested' .lower) id m) s := by
  have hwiden (sources : List Ty) (hsources : ∀ t ∈ sources, ConvertibleFree u t) (s : Progress)
      (hs : J' s.graph) :
      Concur J' T (widenAll (nested .lower) id sources)
      (widenAll (nested' .lower) id sources) s := by
    induction sources generalizing s with
    | nil => exact .pure h' hs _
    | cons source sources ih =>
      obtain ⟨hsource, hsources⟩ := List.forall_mem_cons.1 hsources
      refine .silent_bind h' hs (.note fun _ => rfl) fun _ s₁ _ hs₁ _ => ?_
      exact (hnested id source s₁ hsource hs₁).bind h' fun _ s₂ _ hs₂ => ih hsources s₂ hs₂
  refine .graph_bind h hJ ?_
  split
  · exact .pure h hJ _
  rename_i hnew
  refine .silent_bind h hJ (Still.composes.checkLower id m s) fun sources s₁ hcheck hJ₁ hgraph =>
    .graph_bind h hJ₁ ?_
  rcases hg' : s₁.graph.insertUpper id m with e | g'
  · exact .silent h hJ₁ (.fail _)
  · have hsources : ∀ t ∈ sources, ConvertibleFree u t := by
      intro t ht
      obtain ⟨c, hc, -, rfl⟩ := mem_of_checkLower hcheck t ht
      exact .declared ((h.stocked _ hJ).converts c hc).1
    obtain ⟨hkeeps, htold⟩ := hinsert s₁.graph hJ₁ (by rwa [hgraph])
    rw [← Graph.insertUpper_eq_inserted hu hm hg'] at hkeeps htold
    have hput : Concur J' T (Recorded.raise id m g') (Recorded.raise id m g') s₁ :=
      ⟨rfl, hkeeps, htold, rfl⟩
    have hrest := hput.bind h' fun _ s₂ _ hs₂ =>
      (hwiden sources hsources s₂ hs₂).bind h' fun _ s₃ _ hs₃ => Concur.pure h' hs₃ true
    exact hrest.mono hJ' fun _ _ _ hT => hT

/-- **One variable.** -/
theorem concur_visit (h : Follows u J T) (hmember : ∀ m ∈ side.parts t, ∀ s, J s.graph →
      Concur J T (Recorded.member nested side id m) (Recorded.member nested' side id m) s)
    (hJ : J s.graph) :
    Concur J T (Recorded.visit nested side t id) (Recorded.visit nested' side t id) s := by
  have hall (ms : List Ty) (hms : ∀ m ∈ ms, m ∈ side.parts t) (s : Progress) (hs : J s.graph) :
      Concur J T (Recorded.anyNew (Recorded.member nested side id) ms)
        (Recorded.anyNew (Recorded.member nested' side id) ms) s := by
    induction ms generalizing s with
    | nil => exact .pure h hs _
    | cons m ms ih =>
      obtain ⟨hm, hms⟩ := List.forall_mem_cons.1 hms
      refine (hmember m hm s hs).bind h fun _ s₁ _ hs₁ => ?_
      exact (ih hms s₁ hs₁).bind h fun _ s₂ _ hs₂ => .pure h hs₂ _
  refine .graph_bind h hJ ((hall _ (fun m hm => (List.mem_filter.1 hm).1) s hJ).bind h
    fun new s' _ hJ' => ?_)
  split
  · exact .silent h hJ' (still_onwards side id s')
  · exact .pure h hJ' _

/-- **One propagation**, with limits that leave at least one level. -/
theorem concur_spreadWithin (h : Follows u J T) {rounds depth depth' : Nat} {start : VarId}
    (hmember : ∀ id ∈ s.graph.ids, ∀ m ∈ side.parts t, ∀ s, J s.graph →
      Concur J T (Recorded.member (Recorded.spreadWithin rounds depth) side id m)
        (Recorded.member (Recorded.spreadWithin rounds depth') side id m) s) (hJ : J s.graph) :
    Concur J T (Recorded.spreadWithin rounds (depth + 1) side start t)
      (Recorded.spreadWithin rounds (depth' + 1) side start t) s := by
  have hexplore (count : Nat) (unvisited stack : List VarId)
      (hids : ∀ id ∈ unvisited, id ∈ s.graph.ids) (s' : Progress) (hs' : J s'.graph) :
      Concur J T
        (exploreM (Recorded.visit (Recorded.spreadWithin rounds depth) side t)
          count unvisited stack)
        (exploreM (Recorded.visit (Recorded.spreadWithin rounds depth') side t)
          count unvisited stack) s' := by
    induction count generalizing unvisited stack s' with
    | zero => exact .pure h hs' _
    | succ count ih =>
      rw [exploreM, exploreM]
      rcases hdrop : stack.dropWhile fun n => !unvisited.contains n with _ | ⟨n, rest⟩
      · exact .pure h hs' _
      · obtain ⟨hn, -⟩ := dropWhile_unvisited hdrop
        refine (concur_visit h (hmember n (hids n hn)) hs').bind h fun found s₁ _ hs₁ => ?_
        exact ih _ _ (fun id hid => hids id (List.mem_of_mem_erase hid)) s₁ hs₁
  exact .inside side start t (.graph_bind h hJ (hexplore _ _ _ (fun _ hid => hid) s hJ))

end

/-! ## What is implied -/

/-- In every graph the one type is a subtype of the other. -/
def Ty.Beneath (a b : Ty) : Prop := ∀ g : Graph, g.isSubtype a b

theorem Ty.Bare.beneath {a b : Ty} (ha : a.Bare) (hb : b.Bare) {g : Graph} (h : g.isSubtype a b) :
    a.Beneath b :=
  fun _ => (Graph.isSubtype_eq ha hb).symm.trans h

/-- **A ladder** of types without convertibles, the declared ones among them: what is below one of
them is below the declared types that this one is below. -/
structure Ladder (u : Universe) (Q : Ty → Prop) : Prop where
  sound : u.Sound
  convertibleFree : ∀ t, Q t → ConvertibleFree u t
  declared : ∀ t, u.Declares t → Q t
  trans : ∀ a b c, Q a → Q b → u.Declares c → a.Beneath b → b.Beneath c → a.Beneath c

theorem ladder_declares {u : Universe} (hu : u.Sound) : Ladder u u.Declares where
  sound := hu
  convertibleFree _ ht := .declared ht
  declared _ ht := ht
  trans a b c ha hb hc hab hbc g := by
    refine (hu.isSubtype_iff ha hc).2 (hu.sub_trans ha hb hc ?_ ?_)
    · exact (hu.isSubtype_iff ha hb).1 (hab g)
    · exact (hu.isSubtype_iff hb hc).1 (hbc g)

/-- What is under a type is under the declared types above it, also where a union inside an
intersection keeps subtyping from being transitive. -/
theorem ladder_convertibleFree {u : Universe} (hu : u.Legible) : Ladder u (ConvertibleFree u) where
  sound := hu.toSound
  convertibleFree _ ht := ht
  declared _ ht := .declared ht
  trans a b c ha hb hc hab hbc g := by
    have hsub : Sub a b := (isSubtype_iff hu ha hb).1 (hab g)
    have hsub' : Sub b c := (isSubtype_iff hu hb (.declared hc)).1 (hbc g)
    refine (isSubtype_iff hu ha (.declared hc)).2 fun p hp => ?_
    have hpcf := (ha.of_mem_unionParts hu.toSound hp).1
    rcases hu.toSound.leaf _ _ hc with rfl | ⟨kind, final, parents, hc'⟩
    · exact .mixed
    · rw [hc'] at hc hsub' ⊢
      have hnominal : b.isNominalSubtype (.nominal c.name kind final parents) :=
        (hb.isNominalSubtype_iff_parts hu.toSound).2 fun q hq =>
          (under_nominal_iff hu (hb.of_mem_unionParts hu.toSound hq).1 hc).1 (hsub' q hq)
      exact .nominal ((hsub p hp).isNominalSubtype hu hpcf hb hnominal)

namespace Graph

variable {u : Universe} {Q : Ty → Prop} {g g' : Graph} {x id : VarId} {m t : Ty}

/-- An upper member of the kind `Q` implies the type. -/
def Implies (Q : Ty → Prop) (g : Graph) (x : VarId) (t : Ty) : Prop :=
  ∃ e ∈ g.has .upper x, Q e ∧ e.Beneath t

theorem Implies.upperAbsorbs (h : g.Implies Q x t) : g.upperAbsorbs x t := by
  obtain ⟨e, he, -, hbelow⟩ := h
  have habsorbs : g.absorbs .upper x t := by
    rw [absorbs_eq, List.any_eq_true]
    exact ⟨e, he, hbelow g⟩
  exact habsorbs

/-- What is implied is so for good. -/
theorem Implies.inserted (hQ : Ladder u Q) (hg : g.Stocked u fun _ => ConvertibleFree u) (hm : Q m)
    (ht : u.Declares t) (h : g.Implies Q x t) : (g.inserted .upper id m).Implies Q x t := by
  obtain ⟨e, he, hQe, hbelow⟩ := h
  rcases hg.mem_or_supersedes he .upper id m with he' | ⟨-, hsup, hm'⟩
  · exact ⟨e, he', hQe, hbelow⟩
  · have hbare := (hQ.convertibleFree m hm).bare hQ.sound
    have hbelow' : m.Beneath e := hbare.beneath ((hQ.convertibleFree e hQe).bare hQ.sound) hsup
    exact ⟨m, hm', hm, hQ.trans m e t hm hQe ht hbelow' hbelow⟩

/-- **What came into upper bounds** from one graph to another: of named types, only what was not
implied. It is implied now, and so is what was implied before; so none of them came in twice. -/
structure Raises (u : Universe) (Q : Ty → Prop) (g : Graph) (rs : List (VarId × Ty)) (g' : Graph) :
    Prop where
  kept : ∀ x t, u.Declares t → g.Implies Q x t → g'.Implies Q x t
  fresh : ∀ r ∈ rs, u.Declares r.2 → ¬g.Implies Q r.1 r.2 ∧ g'.Implies Q r.1 r.2
  once : rs.Pairwise fun r r' => u.Declares r.2 → r ≠ r'

theorem Raises.refl (h : ∀ x, g'.has .upper x = g.has .upper x) : Raises u Q g [] g' where
  kept x t _ ht := by
    unfold Implies at ht ⊢
    rwa [h]
  fresh _ hr := (List.not_mem_nil hr).elim
  once := .nil

theorem Raises.append {g'' : Graph} {rs rs' : List (VarId × Ty)} (h : Raises u Q g rs g')
    (h' : Raises u Q g' rs' g'') : Raises u Q g (rs ++ rs') g'' where
  kept x t ht hold := h'.kept x t ht (h.kept x t ht hold)
  fresh r hr hdecl := by
    rcases List.mem_append.1 hr with hr | hr
    · exact ⟨(h.fresh r hr hdecl).1, h'.kept _ _ hdecl (h.fresh r hr hdecl).2⟩
    · exact ⟨fun hold => (h'.fresh r hr hdecl).1 (h.kept _ _ hdecl hold), (h'.fresh r hr hdecl).2⟩
  once := by
    refine List.pairwise_append.2 ⟨h.once, h'.once, fun r hr r' hr' hdecl heq => ?_⟩
    subst heq
    exact (h'.fresh r hr' hdecl).1 (h.fresh r hr hdecl).2

theorem Raises.raise (hQ : Ladder u Q) (hg : g.Stocked u fun _ => ConvertibleFree u)
    (hid : id ∈ g.ids) (hm : Q m) (hnew : ¬g.upperAbsorbs id m) :
    Raises u Q g [(id, m)] (g.inserted .upper id m) where
  kept x t ht hold := hold.inserted hQ hg hm ht
  fresh r hr hdecl := by
    obtain rfl := List.mem_singleton.1 hr
    refine ⟨fun hold => hnew hold.upperAbsorbs, m, (hg.mem_inserted hid).2 (.inr rfl),
      hm, fun g => ?_⟩
    exact g.lattice.isSubtype_of_name_eq g.resolver rfl
  once := List.pairwise_singleton ..

/-! ## What is lacking -/

/-- **What is lacking**: fewer than `k` targets of conversions, counted for each variable, are not
yet implied. The graph has the shape of `g₀`. -/
structure Lacks (u : Universe) (Q : Ty → Prop) (g₀ : Graph) (k : Nat) (g : Graph) : Prop where
  stocked : g.Stocked u fun _ => ConvertibleFree u
  shape : SameShape g₀ g
  missing : ∃ missing : Finset (VarId × Ty), missing.card < k ∧
    ∀ x ∈ g.ids, ∀ c ∈ g.lattice.conversions, (x, c.target) ∈ missing ∨ g.Implies Q x c.target

variable {g₀ : Graph} {k : Nat} {side : Side}

/-- At most everything is lacking. -/
theorem Lacks.of_sameShape (hg : g.Stocked u fun _ => ConvertibleFree u) (hshape : SameShape g₀ g)
    (hk : g₀.ids.length * g₀.lattice.conversions.length < k) : Lacks u Q g₀ k g := by
  classical
  let targets := g.lattice.conversions.map Conversion.target
  refine ⟨hg, hshape, g.ids.toFinset ×ˢ targets.toFinset, ?_, fun x hx c hc => .inl ?_⟩
  · rw [Finset.card_product]
    refine (Nat.mul_le_mul (List.toFinset_card_le _) (List.toFinset_card_le _)).trans_lt ?_
    rwa [List.length_map, hshape.ids, hshape.lattice]
  · exact Finset.mem_product.2 ⟨List.mem_toFinset.2 hx,
      List.mem_toFinset.2 (List.mem_map_of_mem hc)⟩

/-- An insertion that keeps what is implied makes nothing lack. -/
theorem Lacks.inserted (h : Lacks u Q g₀ k g) (hm : ConvertibleFree u m) {rs : List (VarId × Ty)}
    (hraises : Raises u Q g rs (g.inserted side id m)) : Lacks u Q g₀ k (g.inserted side id m) := by
  have hshape : SameShape g (g.inserted side id m) := sameShape_inserted
  obtain ⟨missing, hcard, hmissing⟩ := h.missing
  refine ⟨h.stocked.inserted hm id, trans_of SameShape h.shape hshape, missing, hcard,
    fun x hx c hc => ?_⟩
  rw [hshape.lattice] at hc
  exact (hmissing x (hshape.ids ▸ hx) c hc).imp_right
    (hraises.kept x c.target (h.stocked.converts c hc).2)

/-- **A target that comes in** is not lacking any more. -/
theorem Lacks.raise (hQ : Ladder u Q) (h : Lacks u Q g₀ (k + 1) g) (hid : id ∈ g.ids)
    {c : Conversion} (hc : c ∈ g.lattice.conversions) (hnew : ¬g.upperAbsorbs id c.target) :
    Lacks u Q g₀ k (g.inserted .upper id c.target) := by
  classical
  have htarget := (h.stocked.converts c hc).2
  have hraises := Raises.raise hQ h.stocked hid (hQ.declared _ htarget) hnew
  obtain ⟨hstocked, hshape, -⟩ := h.inserted (.declared htarget) hraises
  obtain ⟨missing, hcard, hmissing⟩ := h.missing
  have hin : (id, c.target) ∈ missing :=
    (hmissing id hid c hc).resolve_right fun hold => hnew hold.upperAbsorbs
  have hless : (missing.erase (id, c.target)).card < k :=
    (Finset.card_erase_lt_of_mem hin).trans_le (Nat.le_of_lt_succ hcard)
  refine ⟨hstocked, hshape, _, hless, fun x hx c' hc' => ?_⟩
  have hsame : SameShape g (g.inserted .upper id c.target) := sameShape_inserted
  rw [hsame.lattice] at hc'
  by_cases heq : (x, c'.target) = (id, c.target)
  · obtain ⟨rfl, ht⟩ := Prod.mk.inj heq
    rw [ht]
    exact .inr (hraises.fresh _ (List.mem_singleton_self _) htarget).2
  · rcases hmissing x (hsame.ids ▸ hx) c' hc' with hmem | hold
    · exact .inl (Finset.mem_erase.2 ⟨heq, hmem⟩)
    · exact .inr (hraises.kept x c'.target (h.stocked.converts c' hc').2 hold)

theorem follows_lacks (u : Universe) (Q : Ty → Prop) (g₀ : Graph) (k : Nat) :
    Follows u (Lacks u Q g₀ k) (Raises u Q) where
  stocked _ h := h.stocked
  nil _ := .refl fun _ => rfl
  append _ _ _ _ _ h h' := h.append h'
  lower g id m h hm := by
    have hraises : Raises u Q g [] (g.inserted .lower id m) :=
      .refl fun x => has_inserted_ne (.inl (by decide))
    exact ⟨h.inserted hm hraises, hraises⟩

end Graph

open TypeBounds.Graph

/-! ## All propagations -/

section

variable {u : Universe} {Q : Ty → Prop} {g₀ : Graph} {rounds depth depth' k : Nat} {start : VarId}
  {t : Ty} {s : Progress}

/-- Lower propagations agree if the upper ones inside do. -/
theorem concur_lower_of_upper (hQ : Ladder u Q)
    (hupper : ∀ id s, Lacks u Q g₀ k s.graph → ∀ c ∈ s.graph.lattice.conversions,
      Concur (Lacks u Q g₀ k) (Raises u Q) (Recorded.spreadWithin rounds depth .upper id c.target)
        (Recorded.spreadWithin rounds depth' .upper id c.target) s)
    (ht : ConvertibleFree u t) (hs : Lacks u Q g₀ k s.graph) :
    Concur (Lacks u Q g₀ k) (Raises u Q) (Recorded.spreadWithin rounds (depth + 1) .lower start t)
      (Recorded.spreadWithin rounds (depth' + 1) .lower start t) s := by
  have h := follows_lacks u Q g₀ k
  refine concur_spreadWithin h (fun id _ m hm s' hs' => ?_) hs
  exact concur_joinMember hQ.sound h hupper (ht.of_mem_unionParts hQ.sound hm).1 hs'

/-- **Upper propagations to targets agree**, with two levels for each target that is lacking. What
comes in is not lacking afterwards, so the lower propagations inside have fewer levels to go. -/
theorem concur_upper (hQ : Ladder u Q) (hdepth : 2 * k ≤ depth + 1) (hdepth' : 2 * k ≤ depth' + 1)
    (hs : Lacks u Q g₀ k s.graph) {c : Conversion} (hc : c ∈ s.graph.lattice.conversions) :
    Concur (Lacks u Q g₀ k) (Raises u Q) (Recorded.spreadWithin rounds depth .upper start c.target)
      (Recorded.spreadWithin rounds depth' .upper start c.target) s := by
  induction k generalizing depth depth' start s c with
  | zero =>
    obtain ⟨missing, hcard, -⟩ := hs.missing
    exact absurd hcard (Nat.not_lt_zero _)
  | succ k ih =>
    obtain ⟨depth, rfl⟩ := Nat.exists_eq_add_of_le' (show 1 ≤ depth by omega)
    obtain ⟨depth', rfl⟩ := Nat.exists_eq_add_of_le' (show 1 ≤ depth' by omega)
    have htarget := (hs.stocked.converts c hc).2
    have h := follows_lacks u Q g₀ (k + 1)
    have hfewer (g : Graph) (hg : Lacks u Q g₀ k g) : Lacks u Q g₀ (k + 1) g := by
      obtain ⟨missing, hcard, hmissing⟩ := hg.missing
      exact ⟨hg.stocked, hg.shape, missing, hcard.trans (Nat.lt_succ_self k), hmissing⟩
    refine concur_spreadWithin h (fun id hid m hm s' hs' => ?_) hs
    rw [Side.parts_declared hQ.sound htarget, List.mem_singleton] at hm
    subst hm
    refine concur_meetMember hQ.sound h (follows_lacks u Q g₀ k) hfewer (fun id t s ht hs => ?_)
      (fun g hg hnew => ?_) (.declared htarget) hs'
    · -- something is lacking still, so there are two levels left
      obtain ⟨missing, hcard, -⟩ := hs.missing
      obtain ⟨depth, rfl⟩ := Nat.exists_eq_add_of_le' (show 1 ≤ depth by omega)
      obtain ⟨depth', rfl⟩ := Nat.exists_eq_add_of_le' (show 1 ≤ depth' by omega)
      refine concur_lower_of_upper hQ (fun id s hs c hc => ?_) ht hs
      exact ih (by omega) (by omega) hs hc
    · have hids : g.ids = s.graph.ids := hg.shape.ids.trans hs.shape.ids.symm
      have hlattice : g.lattice = s.graph.lattice := hg.shape.lattice.trans hs.shape.lattice.symm
      refine ⟨hg.raise hQ (hids ▸ hid) (hlattice ▸ hc) hnew, ?_⟩
      exact .raise hQ hg.stocked (hids ▸ hid) (hQ.declared _ htarget) hnew

/-- **Lower propagations agree.** -/
theorem concur_lower (hQ : Ladder u Q) (hdepth : 2 * k ≤ depth) (hdepth' : 2 * k ≤ depth')
    (ht : ConvertibleFree u t) (hs : Lacks u Q g₀ k s.graph) :
    Concur (Lacks u Q g₀ k) (Raises u Q) (Recorded.spreadWithin rounds depth .lower start t)
      (Recorded.spreadWithin rounds depth' .lower start t) s := by
  obtain ⟨missing, hcard, -⟩ := hs.missing
  obtain ⟨depth, rfl⟩ := Nat.exists_eq_add_of_le' (show 1 ≤ depth by omega)
  obtain ⟨depth', rfl⟩ := Nat.exists_eq_add_of_le' (show 1 ≤ depth' by omega)
  refine concur_lower_of_upper hQ (fun id s hs c hc => ?_) ht hs
  exact concur_upper hQ (by omega) (by omega) hs hc

/-- **Upper propagations of any type agree**, whatever `T` says of what comes in with its parts. -/
theorem concur_meet (hQ : Ladder u Q) {T : Graph → List (VarId × Ty) → Graph → Prop}
    (h : Follows u (Lacks u Q g₀ k) T) (hT : ∀ g rs g', Raises u Q g rs g' → T g rs g')
    (hinsert : ∀ m ∈ t.interParts, ∀ id ∈ s.graph.ids, ∀ g, Lacks u Q g₀ k g →
      ¬g.upperAbsorbs id m →
      Lacks u Q g₀ k (g.inserted .upper id m) ∧ T g [(id, m)] (g.inserted .upper id m))
    (hdepth : 2 * k < depth) (hdepth' : 2 * k < depth') (ht : ConvertibleFree u t)
    (hs : Lacks u Q g₀ k s.graph) :
    Concur (Lacks u Q g₀ k) T (Recorded.spreadWithin rounds depth .upper start t)
      (Recorded.spreadWithin rounds depth' .upper start t) s := by
  obtain ⟨depth, rfl⟩ := Nat.exists_eq_add_of_le' (Nat.one_le_of_lt hdepth)
  obtain ⟨depth', rfl⟩ := Nat.exists_eq_add_of_le' (Nat.one_le_of_lt hdepth')
  refine concur_spreadWithin h (fun id hid m hm s' hs' => ?_) hs
  refine concur_meetMember hQ.sound h h (fun _ hg => hg) (fun id t s ht hs => ?_)
    (hinsert m hm id hid) (ht.of_mem_interParts hQ.sound hm).1 hs'
  exact (concur_lower hQ (Nat.le_of_lt_succ hdepth) (Nat.le_of_lt_succ hdepth') ht hs).mono
    (fun _ hg => hg) hT

/-- How much can be lacking at most, and one more. -/
def Graph.levels (g : Graph) : Nat := g.ids.length * g.lattice.conversions.length + 1

theorem Graph.levels_lt_spreadDepth (g : Graph) (t : Ty) : 2 * g.levels < g.spreadDepth t := by
  rw [levels, spreadDepth, Nat.mul_assoc]
  simp only [Nat.mul_add, Nat.add_mul]
  omega

/-- **Propagations agree** from `spreadDepth` on. Whatever comes into upper bounds is of the
kind. -/
theorem concur_spread (hQ : Ladder u Q) (hs : s.graph.Stocked u fun _ => ConvertibleFree u)
    (rounds : Nat) (side : Side) (start : VarId) (ht : ConvertibleFree u t)
    (hparts : side = .upper → ∀ m ∈ t.interParts, Q m) (hdepth : s.graph.spreadDepth t ≤ depth)
    (hdepth' : s.graph.spreadDepth t ≤ depth') :
    Concur (Lacks u Q s.graph s.graph.levels) (Raises u Q)
      (Recorded.spreadWithin rounds depth side start t)
      (Recorded.spreadWithin rounds depth' side start t) s := by
  have hlevels := s.graph.levels_lt_spreadDepth t
  have hlacks : Lacks u Q s.graph s.graph.levels s.graph :=
    .of_sameShape hs (refl_of SameShape s.graph) (Nat.lt_succ_self _)
  cases side with
  | lower => exact concur_lower hQ (by omega) (by omega) ht hlacks
  | upper =>
    refine concur_meet hQ (follows_lacks u Q s.graph _) (fun _ _ _ hT => hT)
      (fun m hm id hid g hg hnew => ?_) (by omega) (by omega) ht hlacks
    have hraises : Raises u Q g [(id, m)] (g.inserted .upper id m) :=
      .raise hQ hg.stocked (hg.shape.ids ▸ hid) (hparts rfl m hm) hnew
    exact ⟨hg.inserted (ht.of_mem_interParts hQ.sound hm).1 hraises, hraises⟩

/-- **Propagations agree, whatever comes in.** A member in the place of others may imply less, but
no more than everything is lacking then. -/
theorem concur_spread_of_sound (hu : u.Sound) (hs : s.graph.Stocked u fun _ => ConvertibleFree u)
    (rounds : Nat) (side : Side) (start : VarId) (ht : ConvertibleFree u t)
    (hdepth : s.graph.spreadDepth t ≤ depth) (hdepth' : s.graph.spreadDepth t ≤ depth') :
    Concur (Lacks u u.Declares s.graph s.graph.levels) (fun _ _ _ => True)
      (Recorded.spreadWithin rounds depth side start t)
      (Recorded.spreadWithin rounds depth' side start t) s := by
  have hladder := ladder_declares hu
  cases side with
  | lower =>
    have hlower :=
      concur_spread hladder hs rounds .lower start ht (fun h => by cases h) hdepth hdepth'
    exact hlower.mono (fun _ hg => hg) fun _ _ _ _ => trivial
  | upper =>
    have hlevels := s.graph.levels_lt_spreadDepth t
    have hlacks (g : Graph) (hg : g.Stocked u fun _ => ConvertibleFree u)
        (hshape : SameShape s.graph g) : Lacks u u.Declares s.graph s.graph.levels g :=
      .of_sameShape hg hshape (Nat.lt_succ_self _)
    have hfollows : Follows u (Lacks u u.Declares s.graph s.graph.levels) fun _ _ _ => True :=
      { stocked := fun _ hg => hg.stocked
        nil := fun _ => trivial
        append := fun _ _ _ _ _ _ _ => trivial
        lower := fun g id m hg hm => ⟨((follows_lacks u u.Declares s.graph _).lower g id m hg hm).1,
          trivial⟩ }
    refine concur_meet hladder hfollows (fun _ _ _ _ => trivial) (fun m hm id hid g hg _ => ?_)
      (by omega) (by omega) ht (hlacks _ hs (refl_of SameShape s.graph))
    have hstocked : (g.inserted .upper id m).Stocked u fun _ => ConvertibleFree u :=
      hg.stocked.inserted (ht.of_mem_interParts hu hm).1 id
    exact ⟨hlacks _ hstocked (trans_of SameShape hg.shape sameShape_inserted), trivial⟩

end

/-! ## Main statement -/

/-- **Propagation comes to an end.** Let all bounds and the type be without convertibles, and let
conversions be between declared types, in circles or not. Then there is one record of what happens:
it is the same, and the outcome is that of `spread`, with any number of rounds and levels from
`spreadDepth` on, and no limit is met. In this record a lower propagation starts inside an upper one
only at a variable whose upper bound a type just came into, and only upper propagations start inside
a lower one. No named type comes into the upper bound of a variable twice if the propagation is a
lower one or that of a named type, and in any case if the names of types are identifiers other than
`nothing`. -/
theorem propagation_ends {decls : List TypeDecl} {u : Universe}
    (hu : Universe.ofDecls decls = .ok u) {s : Progress}
    (hs : s.graph.Stocked u fun _ => ConvertibleFree u) (side : Side) (start : VarId) {t : Ty}
    (ht : ConvertibleFree u t) : ∃ events,
      (∀ rounds depth, s.graph.spreadDepth t ≤ depth →
        Recorded.spreadWithin rounds depth side start t s =
        ([.spread side start t events], spread side start t s)) ∧
      (spread side start t s).2.effect.complete = s.effect.complete ∧
      Lawful side none events ∧
      (side = .lower ∨ u.Declares t ∨
        (∀ name ∈ u.types.keys, IsIdentifier name ∧ name ≠ "nothing") →
        (raisedIn events).Pairwise fun r r' => u.Declares r.2 → r ≠ r') := by
  have hsound := Universe.sound_of_ofDecls hu
  have herase : (Recorded.spreadWithin 0 (s.graph.spreadDepth t) side start t s).2 =
      spread side start t s := by
    rw [spread, graph_bind_apply, ← erase_spreadWithin 0, erase]
  have hlevels := s.graph.levels_lt_spreadDepth t
  obtain ⟨levels, hdeep⟩ := Nat.exists_eq_add_of_le' (Nat.one_le_of_lt hlevels)
  obtain ⟨events, hevents, hlawful⟩ := (nests_spreadWithin 0 levels).succ side start t s
  rw [← hdeep] at hevents
  refine ⟨events, fun rounds depth hdepth => ?_, ?_, hlawful none, fun hkind => ?_⟩
  · have hsame := (concur_spread_of_sound hsound hs 0 side start ht le_rfl hdepth).same
    rw [spreadWithin_rounds, ← hsame, ← herase, ← hevents]
  · rw [← herase]
    exact (concur_spread_of_sound hsound hs 0 side start ht le_rfl le_rfl).complete
  · have honce {Q : Ty → Prop} (hQ : Ladder u Q)
        (hparts : side = .upper → ∀ m ∈ t.interParts, Q m) :
        (raisedIn events).Pairwise fun r r' => u.Declares r.2 → r ≠ r' := by
      have htold := (concur_spread hQ hs 0 side start ht hparts le_rfl le_rfl).told
      rw [hevents, raisedIn_spread] at htold
      exact htold.once
    rcases hkind with rfl | htype | hnames
    · exact honce (ladder_declares hsound) fun h => by cases h
    · refine honce (ladder_declares hsound) fun _ m hm => ?_
      rw [interParts_eq (hsound.ne_container htype .upper), List.mem_singleton] at hm
      exact hm ▸ htype
    · refine honce (ladder_convertibleFree (Universe.legible_of_ofDecls hu hnames)) fun _ m hm => ?_
      exact (ht.of_mem_interParts hsound hm).1

/-! ## Pages back to storage -/

/-- What is stored can be converted to a page, and a page to what is stored. -/
def thereAndBack : List ConversionDecl :=
  toPage ++ [{ source := "Page", target := "Stored", implicit := true }]

def unpaging : Conversion := ⟨page, stored, true, "Page->Stored"⟩

/-- Notes that are shown. -/
def shelved : Progress :=
  { graph := Graph.after { tag := 1, lattice := ⟨[paging, unpaging]⟩ }
      [.addVariable "$x" (some { id := "T" }), .addLower "T" note, .addUpper "T" shown] }

/-- The file is shown as a page only, the notes are then anything that is stored, and that is shown
as a page once more. This time nothing comes in, so it ends here. -/
theorem propagation_ends_archive :
    ∃ events,
      (∀ rounds depth, shelved.graph.spreadDepth file ≤ depth →
        Recorded.spreadWithin rounds depth .lower "T" file shelved =
          ([.spread .lower "T" file events], spread .lower "T" file shelved)) ∧
      (spread .lower "T" file shelved).2.effect.complete ∧ Lawful .lower none events ∧
      (raisedIn events).Pairwise (fun r r' => archive.Declares r.2 → r ≠ r') ∧
      raisedIn events = [("T", page)] := by
  have hu : Universe.ofDecls archiveDecls = .ok archive := rfl
  have hl : archive.lattice thereAndBack = .ok ⟨[paging, unpaging]⟩ := rfl
  have hsound := Universe.sound_of_ofDecls hu
  have hupholds := Graph.upholds_excused hsound
  have hnote : archive.Declares note := rfl
  have hshown : archive.Declares shown := rfl
  have hs : shelved.graph.Excused archive :=
    hupholds.after (.empty 1 .plain (hsound.converts hl))
      (fun t ht side => hupholds.stocks.partsOf_declared ht side)
      (by simp [Call.BuildsOrMerges, Call.Builds, hnote, hshown])
  have hfree : shelved.graph.Stocked archive fun _ => ConvertibleFree archive :=
    ⟨hs.converts, hs.tidy.keyed, fun side x m hm => .declared (hs.tidy.admissible side x m hm)⟩
  obtain ⟨events, hrun, hcomplete, hlawful, honce⟩ :=
    propagation_ends hu hfree .lower "T" (t := file) (.declared rfl)
  refine ⟨events, hrun, hcomplete, hlawful, honce (.inl rfl), ?_⟩
  have hraised : raisedIn (Recorded.spreadWithin 0 (shelved.graph.spreadDepth file)
      .lower "T" file shelved).1 = raisedIn events := by
    rw [hrun 0 _ le_rfl, raisedIn_spread]
  rw [← hraised]
  rfl

/-! ## A name for a union -/

/-- An interface with the name of a union, but without the parent that both parts of the union
have. -/
def pairedDecls : List TypeDecl :=
  [{ name := "Z", kind := "interface" }, { name := "W", kind := "interface" },
    { name := "A", kind := "interface", parents := ["Z"] },
    { name := "B", kind := "interface", parents := ["Z"] },
    { name := "(A | B)", kind := "interface" },
    { name := "D", kind := "interface", parents := ["A"] }]

def ifaceZ : Ty := .nominal "Z" .interface false []

def ifaceW : Ty := .nominal "W" .interface false []

def partA : Ty := .nominal "A" .interface false [ifaceZ]

def partB : Ty := .nominal "B" .interface false [ifaceZ]

def eitherAB : Ty := .nominal "(A | B)" .interface false []

def partD : Ty := .nominal "D" .interface false [partA]

def paired : Universe :=
  ⟨⟨[("mixed", .mixed), ("Z", ifaceZ), ("W", ifaceW), ("A", partA), ("B", partB),
    ("(A | B)", eitherAB), ("D", partD)]⟩⟩

/-- `Z & (A | B) & ((A | B) | D) & (Z & W)`, where the interface is in the second union. -/
def pairedUpper : Ty :=
  .interOf [ifaceZ, .unionOf [partA, partB], .unionOf [eitherAB, partD], .interOf [ifaceZ, ifaceW]]

theorem convertibleFree_pairedUpper : ConvertibleFree paired pairedUpper := by
  have hof (side : Side) {ts : List Ty} (h : ∀ t ∈ ts, ConvertibleFree paired t) :
      ConvertibleFree paired (side.container (Members.ofTypes ts)) := by
    have hkeyed := Members.keyed_ofTypes ts
    refine .container side hkeyed.key hkeyed.nodup fun m hm => h m.2 ?_
    exact Members.mem_of_mem_types_ofTypes (List.mem_map_of_mem hm)
  have hunion {a b : Ty} (ha : paired.Declares a) (hb : paired.Declares b) :
      ConvertibleFree paired (.unionOf [a, b]) :=
    hof .lower (by simp [ConvertibleFree.declared ha, ConvertibleFree.declared hb])
  have hZ : ConvertibleFree paired ifaceZ := .declared rfl
  have hW : ConvertibleFree paired ifaceW := .declared rfl
  have hboth : ConvertibleFree paired (.interOf [ifaceZ, ifaceW]) := hof .upper (by simp [hZ, hW])
  have hAB : ConvertibleFree paired (.unionOf [partA, partB]) := hunion rfl rfl
  have hD : ConvertibleFree paired (.unionOf [eitherAB, partD]) := hunion rfl rfl
  exact hof .upper (by simp [hZ, hAB, hD, hboth])

/-- The union takes the place of `Z`, and the other union, which contains a namesake of the first,
takes the place of that one. Nothing implies `Z` any more, and so it comes in a second time. -/
theorem raised_twice_paired :
    let s : Progress :=
      { graph := Graph.after { tag := 1 } [.addVariable "$t" (some { id := "T" })] }
    Universe.ofDecls pairedDecls = .ok paired ∧ ConvertibleFree paired pairedUpper ∧
      paired.Declares ifaceZ ∧
      raisedIn (Recorded.spreadWithin 0 (s.graph.spreadDepth pairedUpper)
          .upper "T" pairedUpper s).1 =
        [("T", ifaceZ), ("T", .unionOf [partA, partB]), ("T", .unionOf [eitherAB, partD]),
          ("T", ifaceZ), ("T", ifaceW)] :=
  ⟨rfl, convertibleFree_pairedUpper, rfl, rfl⟩

end TypeBounds
