import Mathlib.Order.Defs.Unbundled
import TypeBounds.Graph.Spread

/-!
# What a computation can do to a graph

A computation leaves a graph also when it fails, so what it can do to the graph is said for every
outcome: `Infer.Along R m s` says that `m`, run from `s`, takes the graph along the relation `R`,
whether it succeeds or not. For a preorder `R` this is closed under everything that computations are
built from (`Composes`), so one fact about the two insertions gives the same fact about a whole
propagation (`along_spreadWithin`). To keep a property is to go along such a relation (`Keeps`).
What holds only after success is read off with the inversions `bind_eq_ok` and `pure_eq_ok`.
-/

namespace TypeBounds

namespace Infer

variable {α β : Type} {R : Graph → Graph → Prop} {s s' : Progress}

/-! ## Inversion -/

theorem bind_eq_ok {m : Infer α} {f : α → Infer β} {b : β} :
    (m >>= f) s = (.ok b, s') ↔ ∃ a s₁, m s = (.ok a, s₁) ∧ f a s₁ = (.ok b, s') := by
  rw [bind_apply]
  constructor
  · intro h
    rcases hm : m s with ⟨_ | a, s₁⟩
    · rw [hm] at h
      cases h
    · rw [hm] at h
      exact ⟨a, s₁, rfl, h⟩
  · rintro ⟨a, s₁, hm, hf⟩
    rw [hm]
    exact hf

theorem pure_eq_ok {a b : α} : (pure a : Infer α) s = (.ok b, s') ↔ a = b ∧ s = s' := by
  simp

theorem graph_bind_apply (f : Graph → Infer β) : (graph >>= f) s = f s.graph s := rfl

theorem modify_bind_apply (h : Graph → Graph) (f : Unit → Infer β) :
    (modify h >>= f) s = f () { s with graph := h s.graph } := rfl

/-- A loop in which no step does anything does nothing. -/
theorem forM_pure {f : α → Infer PUnit} {xs : List α} (h : ∀ a ∈ xs, f a s = (.ok (), s)) :
    xs.forM f s = (.ok (), s) := by
  induction xs with
  | nil => rfl
  | cons x xs ih =>
    change (f x >>= fun _ => xs.forM f) s = _
    rw [bind_apply, h x (List.mem_cons_self ..)]
    exact ih fun a ha => h a (List.mem_cons_of_mem _ ha)

/-! ## How a computation ends -/

/-- Run from `s`, the computation ends as `Q` says if it succeeds and as `E` says if it fails. -/
structure Ends (m : Infer α) (s : Progress) (Q : α → Progress → Prop)
    (E : Contradiction → Progress → Prop) : Prop where
  ok : ∀ a s', m s = (.ok a, s') → Q a s'
  error : ∀ e s', m s = (.error e, s') → E e s'

namespace Ends

variable {m : Infer α} {f : α → Infer β} {a : α} {Q Q' : α → Progress → Prop}
  {Q₁ : β → Progress → Prop} {E : Contradiction → Progress → Prop}

theorem pure (h : Q a s) : Ends (pure a) s Q E :=
  ⟨fun _ _ hrun => by cases hrun; exact h, fun _ _ hrun => by cases hrun⟩

theorem fail {e : Contradiction} (h : E e s) : Ends (fail e : Infer α) s Q E :=
  ⟨fun _ _ hrun => (by cases hrun), fun _ _ hrun => by cases hrun; exact h⟩

theorem bind (hm : Ends m s Q E) (hf : ∀ a s', Q a s' → Ends (f a) s' Q₁ E) :
    Ends (m >>= f) s Q₁ E := by
  constructor
  · intro b s' hrun
    obtain ⟨a, s₁, ha, hrun⟩ := bind_eq_ok.1 hrun
    exact (hf a s₁ (hm.ok a s₁ ha)).ok b s' hrun
  · intro e s' hrun
    rw [bind_apply] at hrun
    rcases ha : m s with ⟨e₁ | a, s₁⟩
    · rw [ha] at hrun
      cases hrun
      exact hm.error e s' ha
    · rw [ha] at hrun
      exact (hf a s₁ (hm.ok a s₁ ha)).error e s' hrun

theorem graph_bind {f : Graph → Infer β} (h : Ends (f s.graph) s Q₁ E) :
    Ends (graph >>= f) s Q₁ E :=
  ⟨h.ok, h.error⟩

theorem mono (h : Ends m s Q E) (hQ : ∀ a s', m s = (.ok a, s') → Q a s' → Q' a s') :
    Ends m s Q' E :=
  ⟨fun a s' hrun => hQ a s' hrun (h.ok a s' hrun), h.error⟩

theorem congr {m' : Infer α} (h : m s = m' s) (hm : Ends m' s Q E) : Ends m s Q E :=
  ⟨fun a s' hrun => hm.ok a s' (h.symm.trans hrun),
    fun e s' hrun => hm.error e s' (h.symm.trans hrun)⟩

/-- What cannot fail succeeds. -/
theorem exists_ok (h : Ends m s Q fun _ _ => False) : ∃ a s', m s = (.ok a, s') := by
  rcases hrun : m s with ⟨e | a, s'⟩
  · exact (h.error e s' hrun).elim
  · exact ⟨a, s', rfl⟩

end Ends

/-! ## Along a relation -/

/-- Run from `s`, the computation takes the graph along `R`, whatever its outcome. -/
def Along (R : Graph → Graph → Prop) (m : Infer α) (s : Progress) : Prop :=
  R s.graph (m s).2.graph

theorem Along.of_eq {m : Infer α} {r : Except Contradiction α} (h : Along R m s)
    (hm : m s = (r, s')) : R s.graph s'.graph := by
  unfold Along at h
  rw [hm] at h
  exact h

theorem Along.graph_bind {f : Graph → Infer β} (h : Along R (f s.graph) s) :
    Along R (graph >>= f) s := h

theorem Along.modify {f : Graph → Graph} (h : R s.graph (f s.graph)) : Along R (modify f) s := h

theorem Along.note_bind {f : Effect → Effect} {k : Unit → Infer β}
    (h : ∀ s', s'.graph = s.graph → Along R (k ()) s') : Along R (Infer.note f >>= k) s :=
  h { s with effect := f s.effect } rfl

/-- If the property holds of the one graph, it holds of the other. -/
def Keeps (I : Graph → Prop) (g g' : Graph) : Prop := I g → I g'

instance (I : Graph → Prop) : IsPreorder Graph (Keeps I) where
  refl _ h := h
  trans _ _ _ h h' hi := h' (h hi)

section

variable [IsPreorder Graph R]

theorem Along.pure (a : α) : Along R (pure a : Infer α) s := refl_of R s.graph

theorem Along.fail (e : Contradiction) : Along R (fail e : Infer α) s := refl_of R s.graph

theorem Along.note (f : Effect → Effect) : Along R (note f) s := refl_of R s.graph

theorem Along.bind {m : Infer α} {f : α → Infer β} (hm : Along R m s)
    (hf : ∀ a s', m s = (.ok a, s') → Along R (f a) s') : Along R (m >>= f) s := by
  unfold Along at hm ⊢
  rw [bind_apply]
  rcases h : m s with ⟨_ | a, s'⟩
  · rw [h] at hm
    exact hm
  · rw [h] at hm
    exact trans_of R hm (hf a s' h)

end

/-! ## One after the other -/

/-- **What is closed under sequencing**: it holds of computations that give up or do no more than
note a conversion, and of one after the other, if it holds of both. -/
structure Composes (C : ∀ {α : Type}, Infer α → Progress → Prop) : Prop where
  pure : ∀ {α s} (a : α), C (Pure.pure a : Infer α) s
  fail : ∀ {α s} (e : Contradiction), C (Infer.fail e : Infer α) s
  note : ∀ {s} (c : Conversion), C (noteConversion c) s
  look : ∀ {β s} {f : Graph → Infer β}, C (f s.graph) s → C (graph >>= f) s
  bind : ∀ {α β s} {m : Infer α} {f : α → Infer β}, C m s →
    (∀ a s', m s = (.ok a, s') → C (f a) s') → C (m >>= f) s

theorem Along.composes [IsPreorder Graph R] : Composes (Along R) :=
  ⟨.pure, .fail, fun _ => .note _, .graph_bind, .bind⟩

namespace Composes

variable {C : ∀ {α : Type}, Infer α → Progress → Prop}

theorem forM (h : Composes C) {f : α → Infer PUnit} {xs : List α} (hf : ∀ a ∈ xs, ∀ s, C (f a) s) :
    ∀ s, C (xs.forM f) s := by
  induction xs with
  | nil => exact fun s => h.pure _
  | cons x xs ih =>
    intro s
    obtain ⟨hx, hxs⟩ := List.forall_mem_cons.1 hf
    change C (f x >>= fun _ => xs.forM f) s
    exact h.bind (hx s) fun _ s' _ => ih hxs s'

theorem mapM (h : Composes C) {f : α → Infer β} (hf : ∀ a s, C (f a) s) (xs : List α) :
    ∀ s, C (xs.mapM f) s := by
  induction xs with
  | nil => exact fun s => h.pure _
  | cons x xs ih =>
    intro s
    rw [List.mapM_cons]
    exact h.bind (hf x s) fun _ s' _ => h.bind (ih s') fun _ s'' _ => h.pure _

theorem anyNew (h : Composes C) {each : Ty → Infer Bool} {ms : List Ty}
    (hms : ∀ m ∈ ms, ∀ s, C (each m) s) : ∀ s, C (anyNew each ms) s := by
  induction ms with
  | nil => exact fun s => h.pure _
  | cons m ms ih =>
    intro s
    obtain ⟨hm, hms⟩ := List.forall_mem_cons.1 hms
    exact h.bind (hm s) fun _ s' _ => h.bind (ih hms s') fun _ s'' _ => h.pure _

theorem exploreM (h : Composes C) {visit : String → Infer (List String)}
    (hvisit : ∀ n s, C (visit n) s) (count : Nat) :
    ∀ unvisited stack s, C (exploreM visit count unvisited stack) s := by
  induction count with
  | zero => exact fun _ _ s => h.pure _
  | succ count ih =>
    intro unvisited stack s
    rw [TypeBounds.exploreM]
    split
    · exact h.pure _
    · exact h.bind (hvisit _ s) fun _ s' _ => ih _ _ s'

/-- A second look at the bounds notes conversions at most. -/
theorem recheck (h : Composes C) (id : VarId) (s : Progress) : C (recheck id) s := by
  refine h.look (h.forM (fun dependent _ s => ?_) s)
  dsimp only
  split
  · refine h.forM (fun l _ s => h.look ?_) s
    split
    · exact h.pure _
    · split
      · exact h.fail _
      · exact h.note _
  · exact h.pure _

/-- So does the check of a new upper member. -/
theorem checkLower (h : Composes C) (id : VarId) (m : Ty) (s : Progress) :
    C (checkLower id m) s := by
  refine h.look ?_
  split
  · exact h.pure _
  · refine h.bind (h.mapM (fun l s => h.look ?_) _ s) fun _ _ _ => h.pure _
    split
    · exact h.pure _
    · split
      · exact h.fail _
      · exact h.bind (h.note _) fun _ _ _ => h.pure _

end Composes

end Infer

/-! ## Propagation

Everything but the two insertions leaves the graph alone, so what these keep is kept. -/

section

open Infer

variable {R : Graph → Graph → Prop} [IsPreorder Graph R]

theorem along_checkUpper {narrow : VarId → Ty → Infer Unit}
    (h : ∀ id t s, Along R (narrow id t) s) (id : VarId) (m : Ty) (s : Progress) :
    Along R (checkUpper narrow id m) s := by
  refine Along.graph_bind ?_
  dsimp only
  split
  · exact Along.pure _
  · split
    · exact Along.fail _
    · exact Along.note_bind fun s' _ => h _ _ s'

theorem along_joinMember {narrow : VarId → Ty → Infer Unit}
    (lower : ∀ g id m, R g (g.insertLower id m)) (h : ∀ id t s, Along R (narrow id t) s)
    (id : VarId) (m : Ty) (s : Progress) : Along R (joinMember narrow id m) s := by
  refine Along.graph_bind ?_
  split
  · exact Along.pure _
  · refine (along_checkUpper h id m s).bind fun _ s' _ => ?_
    exact (Along.modify (lower _ _ _)).bind fun _ _ _ => Along.pure _

theorem along_meetMember {widen : VarId → Ty → Infer Unit}
    (upper : ∀ g g' id m, g.insertUpper id m = .ok g' → R g g')
    (h : ∀ id t s, Along R (widen id t) s) (id : VarId) (m : Ty) (s : Progress) :
    Along R (meetMember widen id m) s := by
  refine Along.graph_bind ?_
  split
  · exact Along.pure _
  · refine (Along.composes.checkLower id m s).bind fun sources s' _ => Along.graph_bind ?_
    split
    · exact Along.fail _
    · rename_i g' hg'
      refine (Along.modify (upper _ _ _ _ hg')).bind fun _ s'' _ => ?_
      refine (Along.composes.forM (fun source _ s => ?_) s'').bind fun _ _ _ => Along.pure _
      exact Along.note_bind fun s' _ => h _ _ s'

/-- The container that the members of a bound make up. -/
def Side.container : Side → Members → Ty
  | .lower => .union
  | .upper => .inter

theorem Side.container_inj {side : Side} {ms ms' : Members}
    (h : side.container ms = side.container ms') : ms = ms' := by
  cases side <;> cases h <;> rfl

/-- Takes a type into one bound of one variable. -/
def enter (nested : Side → VarId → Ty → Infer Unit) (side : Side) (t : Ty) (id : VarId) :
    Infer Bool :=
  match side with
  | .lower => joinLower (nested .upper) id t
  | .upper => meetUpper (nested .lower) id t

/-- Where a type goes from the bound of a variable. -/
def Graph.onward (g : Graph) (side : Side) (id : VarId) : List VarId :=
  match side with
  | .lower => g.above id
  | .upper => g.below id

theorem visit_eq (nested : Side → VarId → Ty → Infer Unit) (side : Side) (t : Ty) (id : VarId) :
    visit nested side t id = enter nested side t id >>= fun new =>
      if new then noteChanged >>= fun _ => recheck id >>= fun _ => graph >>= fun g =>
        pure (g.onward side id)
      else pure [] := by
  cases side <;> rfl

theorem along_enter {nested : Side → VarId → Ty → Infer Unit}
    (lower : ∀ g id m, R g (g.insertLower id m))
    (upper : ∀ g g' id m, g.insertUpper id m = .ok g' → R g g')
    (h : ∀ side id t s, Along R (nested side id t) s) (side : Side) (t : Ty) (id : VarId)
    (s : Progress) : Along R (enter nested side t id) s := by
  cases side with
  | lower =>
    exact Along.graph_bind
      (Along.composes.anyNew (fun m _ => along_joinMember lower (h .upper) id m) s)
  | upper =>
    exact Along.graph_bind
      (Along.composes.anyNew (fun m _ => along_meetMember upper (h .lower) id m) s)

theorem along_visit {nested : Side → VarId → Ty → Infer Unit}
    (lower : ∀ g id m, R g (g.insertLower id m))
    (upper : ∀ g g' id m, g.insertUpper id m = .ok g' → R g g')
    (h : ∀ side id t s, Along R (nested side id t) s) (side : Side) (t : Ty) (id : VarId)
    (s : Progress) : Along R (visit nested side t id) s := by
  rw [visit_eq]
  refine (along_enter lower upper h side t id s).bind fun new s' _ => ?_
  split
  · refine Along.note_bind fun s'' _ => (Along.composes.recheck id s'').bind fun _ s₃ _ => ?_
    exact Along.graph_bind (Along.pure _)
  · exact Along.pure _

theorem along_spreadWithin (lower : ∀ g id m, R g (g.insertLower id m))
    (upper : ∀ g g' id m, g.insertUpper id m = .ok g' → R g g') (depth : Nat) :
    ∀ side start t s, Along R (spreadWithin depth side start t) s := by
  induction depth with
  | zero => exact fun _ _ _ s => Along.note _
  | succ depth ih =>
    intro side start t s
    exact Along.graph_bind (Along.composes.exploreM (along_visit lower upper ih side t) _ _ _ s)

end

end TypeBounds
