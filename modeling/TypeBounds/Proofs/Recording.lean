import TypeBounds.Proofs.Quiet

/-!
# Propagations with a record of what happens

A propagation starts others: a lower member that needs a conversion narrows the upper bound, and an
upper member that lower members are converted for widens the lower bound. To say in which order that
happens, propagation is run once more with a record of the types that come into upper bounds and of
the propagations inside (`Event`):

* `Recorded`: computations that tell what happened. They are the ones without a record, built in the
  same way from the same parts;
* `Recorded.spreadWithin`: propagation with limits on the depth of nesting and on the rounds of
  every search. Without the record it is `spreadWithin`, however many rounds there are beyond one
  for each variable (`erase_spreadWithin`, `spreadWithin_rounds`);
* `Lawful`: the order of events. `nests_spreadWithin` says that every record has it.
-/

namespace TypeBounds

/-- What happens in the course of a propagation. -/
inductive Event where
  /-- A type is put into the upper bound of a variable. -/
  | raise (id : VarId) (m : Ty)
  /-- A propagation, with everything that happens in it. -/
  | spread (side : Side) (start : VarId) (t : Ty) (events : List Event)

/-- A computation on a graph that tells what happened, also when it fails. -/
def Recorded (α : Type) : Type := Progress → List Event × Except Contradiction α × Progress

namespace Recorded

open Infer

variable {α β : Type}

protected def pure (a : α) : Recorded α := fun s => ([], .ok a, s)

protected def bind (m : Recorded α) (f : α → Recorded β) : Recorded β := fun s =>
  match m s with
  | (events, .ok a, s') => (events ++ (f a s').1, (f a s').2)
  | (events, .error e, s') => (events, .error e, s')

instance : Monad Recorded where
  pure := Recorded.pure
  bind := Recorded.bind

/-- A computation in which nothing happens that is recorded. -/
def silent (m : Infer α) : Recorded α := fun s => ([], m s)

/-- Goes on with the graph in which the type is in the upper bound of the variable. -/
def raise (id : VarId) (m : Ty) (g : Graph) : Recorded Unit :=
  fun s => ([.raise id m], .ok (), { s with graph := g })

/-- Everything that happens belongs to one propagation. -/
def inside (side : Side) (start : VarId) (t : Ty) (m : Recorded Unit) : Recorded Unit := fun s =>
  ([.spread side start t (m s).1], (m s).2)

/-! ## Propagation -/

def checkUpper (narrow : VarId → Ty → Recorded Unit) (id : VarId) (m : Ty) : Recorded Unit := do
  let g ← silent graph
  let checkable := g.checkableUpper id
  if g.isUnresolved m || checkable.isEmpty || g.isSubtype m (.inter checkable) then pure ()
  else match g.implicit? m (.inter checkable) with
    | none => silent (fail (.upper id m (Ty.inter (g.boundsOf id).upper).copy))
    | some c => do
      silent (noteConversion c)
      narrow id c.target

def joinMember (narrow : VarId → Ty → Recorded Unit) (id : VarId) (m : Ty) : Recorded Bool := do
  let g ← silent graph
  if g.lowerAbsorbs id m then pure false
  else do
    checkUpper narrow id m
    silent (modify fun g => g.insertLower id m)
    pure true

/-- Widens the lower bound of a variable to all the sources in order. -/
def widenAll (widen : VarId → Ty → Recorded Unit) (id : VarId) : List Ty → Recorded Unit
  | [] => pure ()
  | source :: sources => do
    silent (noteConstraint source)
    widen id source
    widenAll widen id sources

def meetMember (widen : VarId → Ty → Recorded Unit) (id : VarId) (m : Ty) : Recorded Bool := do
  let g ← silent graph
  if g.upperAbsorbs id m then pure false
  else do
    let sources ← silent (checkLower id m)
    let g ← silent graph
    match g.insertUpper id m with
    | .error e => silent (fail e)
    | .ok g' => do
      raise id m g'
      widenAll widen id sources
      pure true

def member (nested : Side → VarId → Ty → Recorded Unit) (side : Side) (id : VarId) (m : Ty) :
    Recorded Bool :=
  match side with
  | .lower => joinMember (nested .upper) id m
  | .upper => meetMember (nested .lower) id m

def anyNew (each : Ty → Recorded Bool) : List Ty → Recorded Bool
  | [] => pure false
  | m :: ms => do
    let new ← each m
    let newer ← anyNew each ms
    pure (new || newer)

/-- What follows once something was new: what depends on the variable is checked again. -/
def onwards (side : Side) (id : VarId) : Infer (List VarId) := do
  noteChanged
  recheck id
  let g ← graph
  pure (g.onward side id)

def visit (nested : Side → VarId → Ty → Recorded Unit) (side : Side) (t : Ty) (id : VarId) :
    Recorded (List VarId) := do
  let g ← silent graph
  let new ← anyNew (member nested side id) ((side.parts t).filter (!g.isSelf id ·))
  if new then silent (onwards side id) else pure []

/-- **Propagation with a record.** Every search may take `rounds` rounds more than there are
variables. -/
def spreadWithin (rounds : Nat) : Nat → Side → VarId → Ty → Recorded Unit
  | 0 => fun _ _ _ => silent noteCutOff
  | depth + 1 => fun side start t => inside side start t do
    let g ← silent graph
    exploreM (visit (spreadWithin rounds depth) side t) (g.ids.length + rounds) g.ids [start]

/-! ## Without the record -/

/-- The computation without its record. -/
def erase (m : Recorded α) : Infer α := fun s => (m s).2

variable {nested : Side → VarId → Ty → Recorded Unit} {side : Side} {id : VarId} {m t : Ty}
  {s : Progress}

@[simp] theorem erase_pure (a : α) : erase (pure a) = pure a := rfl

@[simp] theorem erase_silent (m : Infer α) : erase (silent m) = m := rfl

@[simp] theorem erase_raise (g : Graph) : erase (raise id m g) = modify fun _ => g := rfl

@[simp] theorem erase_inside {start : VarId} (m : Recorded Unit) :
    erase (inside side start t m) = erase m := rfl

@[simp] theorem erase_bind (m : Recorded α) (f : α → Recorded β) :
    erase (m >>= f) = erase m >>= fun a => erase (f a) := by
  funext s
  rw [bind_apply]
  change (Recorded.bind m f s).2 = _
  rw [Recorded.bind, erase]
  rcases m s with ⟨events, e | a, s'⟩ <;> rfl

theorem erase_checkUpper (narrow : VarId → Ty → Recorded Unit) :
    erase (checkUpper narrow id m) =
      TypeBounds.checkUpper (fun id t => erase (narrow id t)) id m := by
  rw [checkUpper, TypeBounds.checkUpper, erase_bind, erase_silent]
  refine congrArg _ (funext fun g => ?_)
  dsimp only
  split
  · rfl
  · cases g.implicit? m (.inter (g.checkableUpper id)) with
    | none => rfl
    | some c => exact erase_bind _ _

theorem erase_joinMember (narrow : VarId → Ty → Recorded Unit) :
    erase (joinMember narrow id m) =
      TypeBounds.joinMember (fun id t => erase (narrow id t)) id m := by
  rw [joinMember, TypeBounds.joinMember, erase_bind, erase_silent]
  refine congrArg _ (funext fun g => ?_)
  split
  · rfl
  · simp only [erase_bind, erase_silent, erase_pure, erase_checkUpper]

theorem erase_widenAll (widen : VarId → Ty → Recorded Unit) (sources : List Ty) :
    erase (widenAll widen id sources) =
      sources.forM fun source => noteConstraint source >>= fun _ => erase (widen id source) := by
  induction sources with
  | nil => rfl
  | cons source sources ih =>
    change _ = (noteConstraint source >>= fun _ => erase (widen id source)) >>= fun _ =>
      sources.forM _
    simp only [widenAll, erase_bind, erase_silent, ih, bind_assoc]

theorem erase_meetMember (widen : VarId → Ty → Recorded Unit) :
    erase (meetMember widen id m) =
      TypeBounds.meetMember (fun id t => erase (widen id t)) id m := by
  rw [meetMember, TypeBounds.meetMember, erase_bind, erase_silent]
  refine congrArg _ (funext fun g => ?_)
  split
  · rfl
  · rw [erase_bind, erase_silent]
    refine congrArg _ (funext fun sources => ?_)
    rw [erase_bind, erase_silent]
    refine congrArg _ (funext fun g => ?_)
    cases g.insertUpper id m with
    | error e => rfl
    | ok g' => simp only [erase_bind, erase_raise, erase_widenAll, erase_pure]

theorem erase_member (nested : Side → VarId → Ty → Recorded Unit) (side : Side) :
    erase (member nested side id m) = TypeBounds.member (fun side id t => erase (nested side id t))
      side id m := by
  cases side with
  | lower => exact erase_joinMember _
  | upper => exact erase_meetMember _

theorem erase_anyNew (each : Ty → Recorded Bool) (ms : List Ty) :
    erase (anyNew each ms) = TypeBounds.anyNew (fun m => erase (each m)) ms := by
  induction ms with
  | nil => rfl
  | cons m ms ih => simp only [anyNew, TypeBounds.anyNew, erase_bind, erase_pure, ih]

theorem erase_visit (nested : Side → VarId → Ty → Recorded Unit) (side : Side) (t : Ty)
    (id : VarId) :
    erase (visit nested side t id) = TypeBounds.visit (fun side id t => erase (nested side id t))
      side t id := by
  rw [visit, visit_eq, enter_eq]
  simp only [erase_bind, erase_silent, erase_anyNew, erase_member, bind_assoc]
  refine congrArg _ (funext fun g => congrArg _ (funext fun new => ?_))
  split <;> rfl

theorem erase_exploreM (visit : VarId → Recorded (List VarId)) (count : Nat)
    (unvisited stack : List VarId) :
    erase (exploreM visit count unvisited stack) =
      exploreM (fun n => erase (visit n)) count unvisited stack := by
  induction count generalizing unvisited stack with
  | zero => rfl
  | succ count ih =>
    rw [exploreM, exploreM]
    split
    · rfl
    · simp only [erase_bind, ih]

/-- Once every node was visited, there is nothing to do in further rounds. -/
theorem exploreM_rounds {M : Type → Type} [Monad M] (visit : VarId → M (List VarId)) (rounds : Nat)
    (unvisited stack : List VarId) :
    exploreM visit (unvisited.length + rounds) unvisited stack =
      exploreM visit unvisited.length unvisited stack := by
  induction hlength : unvisited.length generalizing unvisited stack with
  | zero =>
    obtain rfl := List.length_eq_zero_iff.1 hlength
    cases rounds with
    | zero => rfl
    | succ rounds =>
      have hnone : stack.dropWhile (fun n => !([] : List VarId).contains n) = [] :=
        List.dropWhile_eq_nil_iff.2 fun n _ => rfl
      rw [Nat.zero_add, exploreM, exploreM, hnone]
  | succ count ih =>
    rw [Nat.succ_add, exploreM, exploreM]
    rcases hdrop : stack.dropWhile fun n => !unvisited.contains n with _ | ⟨n, rest⟩
    · rfl
    · obtain ⟨hn, -⟩ := dropWhile_unvisited hdrop
      have hleft : (unvisited.erase n).length = count := by
        rw [List.length_erase_of_mem hn, hlength, Nat.add_sub_cancel]
      exact congrArg _ (funext fun found => ih _ _ hleft)

theorem spreadWithin_rounds (rounds depth : Nat) :
    spreadWithin rounds depth = spreadWithin 0 depth := by
  induction depth with
  | zero => rfl
  | succ depth ih =>
    funext side start t
    rw [spreadWithin, spreadWithin, ih]
    simp only [exploreM_rounds, Nat.add_zero]

theorem erase_spreadWithin (rounds depth : Nat) (side : Side) (start : VarId) (t : Ty) :
    erase (spreadWithin rounds depth side start t) =
      TypeBounds.spreadWithin depth side start t := by
  induction depth generalizing side start t with
  | zero => rfl
  | succ depth ih =>
    rw [spreadWithin, TypeBounds.spreadWithin, erase_inside, erase_bind, erase_silent]
    simp only [exploreM_rounds, erase_exploreM, erase_visit, ih]

end Recorded

/-! ## The order of events -/

/-- **The order of events** in a propagation, where `last` is the variable whose upper bound a type
came into last. All that happens in a lower propagation are upper ones. In an upper propagation
types come into upper bounds, and a lower propagation starts only where one just did. -/
inductive Lawful : Side → Option VarId → List Event → Prop
  | nil {side : Side} {last : Option VarId} : Lawful side last []
  | narrow {last : Option VarId} {id : VarId} {t : Ty} {inner rest : List Event}
    (hinner : Lawful .upper none inner)
    (hrest : Lawful .lower last rest) : Lawful .lower last (.spread .upper id t inner :: rest)
  | raise {last : Option VarId} {id : VarId} {m : Ty} {rest : List Event}
    (hrest : Lawful .upper (some id) rest) :
    Lawful .upper last (.raise id m :: rest)
  | widen {id : VarId} {t : Ty} {inner rest : List Event} (hinner : Lawful .lower none inner)
    (hrest : Lawful .upper (some id) rest) : Lawful .upper (some id)
      (.spread .lower id t inner :: rest)

theorem Lawful.append {side : Side} {last : Option VarId} {events events' : List Event}
    (h : Lawful side last events) (h' : ∀ last, Lawful side last events') :
    Lawful side last (events ++ events') := by
  induction h with
  | nil => exact h' _
  | narrow hinner _ _ ih => exact .narrow hinner (ih h')
  | raise _ ih => exact .raise (ih h')
  | widen hinner _ _ ih => exact .widen hinner (ih h')

namespace Recorded

variable {α β : Type} {nested : Side → VarId → Ty → Recorded Unit} {side : Side}
  {last : Option VarId} {id : VarId} {m t : Ty} {s : Progress}

/-- Run from `s`, the computation leaves a record that is in order. -/
def InOrder (side : Side) (last : Option VarId) (m : Recorded α) (s : Progress) : Prop :=
  Lawful side last (m s).1

theorem InOrder.pure (a : α) : InOrder side last (pure a : Recorded α) s := .nil

theorem InOrder.silent (m : Infer α) : InOrder side last (silent m) s := .nil

theorem InOrder.bind {m : Recorded α} {f : α → Recorded β} (hm : InOrder side last m s)
    (hf : ∀ a s' last, InOrder side last (f a) s') : InOrder side last (m >>= f) s := by
  change Lawful side last (Recorded.bind m f s).1
  rw [InOrder] at hm
  rw [Recorded.bind]
  rcases hrun : m s with ⟨events, e | a, s'⟩ <;> rw [hrun] at hm
  · exact hm
  · exact hm.append (hf a s')

theorem InOrder.silent_bind {m : Infer α} {f : α → Recorded β}
    (hf : ∀ a s', InOrder side last (f a) s') : InOrder side last (Recorded.silent m >>= f) s := by
  change Lawful side last (Recorded.bind (Recorded.silent m) f s).1
  rw [Recorded.bind, Recorded.silent]
  rcases m s with ⟨e | a, s'⟩
  · exact .nil
  · exact hf a s'

/-- What the nested computations do is one propagation, and in order. -/
def Nests (nested : Side → VarId → Ty → Recorded Unit) : Prop :=
  ∀ side id t s, (nested side id t s).1 = [] ∨
    ∃ inner, (nested side id t s).1 = [.spread side id t inner] ∧ ∀ last, Lawful side last inner

theorem inOrder_checkUpper (h : Nests nested) (id : VarId) (m : Ty) (s : Progress)
    (last : Option VarId) : InOrder .lower last (checkUpper (nested .upper) id m) s := by
  refine .silent_bind fun g s' => ?_
  dsimp only
  split
  · exact .pure _
  · split
    · exact .silent _
    · rename_i c _
      refine .silent_bind fun _ s'' => ?_
      rcases h .upper id c.target s'' with hnone | ⟨inner, hinner, hlawful⟩
      · rw [InOrder, hnone]
        exact .nil
      · rw [InOrder, hinner]
        exact .narrow (hlawful none) .nil

theorem inOrder_widenAll (h : Nests nested) (id : VarId) (sources : List Ty) (s : Progress) :
    InOrder .upper (some id) (widenAll (nested .lower) id sources) s := by
  induction sources generalizing s with
  | nil => exact .pure _
  | cons source sources ih =>
    refine .silent_bind fun _ s' => ?_
    change Lawful _ _ (Recorded.bind (nested .lower id source) _ s').1
    rw [Recorded.bind]
    have hfirst := h .lower id source s'
    rcases hrun : nested .lower id source s' with ⟨events, e | a, s''⟩ <;> rw [hrun] at hfirst
    · rcases hfirst with rfl | ⟨inner, rfl, hlawful⟩
      · exact .nil
      · exact .widen (hlawful none) .nil
    · rcases hfirst with rfl | ⟨inner, rfl, hlawful⟩
      · exact ih s''
      · exact .widen (hlawful none) (ih s'')

theorem inOrder_member (h : Nests nested) (side : Side) (id : VarId) (m : Ty) (s : Progress)
    (last : Option VarId) : InOrder side last (member nested side id m) s := by
  cases side with
  | lower =>
    refine .silent_bind fun g s' => ?_
    split
    · exact .pure _
    · exact (inOrder_checkUpper h id m s' last).bind fun _ s₁ last =>
        .silent_bind fun _ _ => .pure _
  | upper =>
    refine .silent_bind fun g s' => ?_
    split
    · exact .pure _
    · refine .silent_bind fun sources s₁ => .silent_bind fun g s₂ => ?_
      split
      · exact .silent _
      · exact .raise ((inOrder_widenAll h id sources _).bind fun _ _ _ => .pure _)

theorem inOrder_anyNew {each : Ty → Recorded Bool}
    (heach : ∀ m s last, InOrder side last (each m) s) (ms : List Ty) :
    ∀ s last, InOrder side last (anyNew each ms) s := by
  induction ms with
  | nil => exact fun _ _ => .pure _
  | cons m ms ih =>
    exact fun s last => (heach m s last).bind fun _ s' last =>
      (ih s' last).bind fun _ _ _ => .pure _

theorem inOrder_visit (h : Nests nested) (side : Side) (t : Ty) (id : VarId) (s : Progress)
    (last : Option VarId) : InOrder side last (visit nested side t id) s := by
  refine .silent_bind fun g s' => ?_
  refine (inOrder_anyNew (inOrder_member h side id) _ s' last).bind fun new s₁ last => ?_
  split
  · exact .silent _
  · exact .pure _

theorem inOrder_exploreM {visit : VarId → Recorded (List VarId)}
    (hvisit : ∀ n s last, InOrder side last (visit n) s) (count : Nat) :
    ∀ unvisited stack s last, InOrder side last (exploreM visit count unvisited stack) s := by
  induction count with
  | zero => exact fun _ _ _ _ => .pure _
  | succ count ih =>
    intro unvisited stack s last
    rw [exploreM]
    split
    · exact .pure _
    · exact (hvisit _ s last).bind fun _ s' last => ih _ _ s' last

theorem Nests.succ {rounds depth : Nat} (h : Nests (spreadWithin rounds depth)) (side : Side)
    (start : VarId) (t : Ty) (s : Progress) :
    ∃ events, (spreadWithin rounds (depth + 1) side start t s).1 = [.spread side start t events] ∧
      ∀ last, Lawful side last events := by
  refine ⟨_, rfl, fun last => ?_⟩
  exact InOrder.silent_bind fun g s' => inOrder_exploreM (inOrder_visit h side t) _ _ _ s' last

/-- **Every record is in order.** -/
theorem nests_spreadWithin (rounds depth : Nat) : Nests (spreadWithin rounds depth) := by
  induction depth with
  | zero => exact fun _ _ _ _ => .inl rfl
  | succ depth ih => exact fun side start t s => .inr (ih.succ side start t s)

end Recorded

end TypeBounds
