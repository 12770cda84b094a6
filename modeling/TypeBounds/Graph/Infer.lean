import TypeBounds.Graph.Fault

/-!
# Computations on a graph that may meet a contradiction

A `Infer` takes a graph and leaves a graph, **also when it fails**: what was done before the
contradiction stays done. Beside the graph it carries the `Effect`, which tells what a call did.
The equations `pure_apply`, `bind_apply` and the like are all that proofs need of it.
-/

namespace TypeBounds

/-- What a bound-adding call did. `conversion` is the last implicit conversion it relied on,
`constraints` the sources of conversions that lower bounds were restricted to. `complete` says that
no propagation was cut off at its depth limit. -/
structure Effect where
  changed : Bool := false
  conversion : Option Conversion := none
  constraints : List Ty := []
  complete : Bool := true

instance : Inhabited Effect := ⟨{}⟩

/-- A graph and what has been done to it so far. -/
structure Progress where
  graph : Graph
  effect : Effect := {}

/-- A computation on a graph. -/
def Infer (α : Type) : Type := Progress → Except Contradiction α × Progress

namespace Infer

variable {α β : Type}

/-- Changes nothing. -/
protected def pure (a : α) : Infer α := fun s => (.ok a, s)

/-- Goes on with `f` where `m` left off, unless `m` failed. -/
protected def bind (m : Infer α) (f : α → Infer β) : Infer β := fun s =>
  match m s with
  | (.ok a, s') => f a s'
  | (.error e, s') => (.error e, s')

instance : Monad Infer where
  pure := Infer.pure
  bind := Infer.bind

instance : LawfulMonad Infer := LawfulMonad.mk' Infer
  (fun m => by
    funext s
    simp only [Functor.map, Infer.bind, Function.comp_apply, id_eq]
    rcases m s with ⟨_ | _, _⟩ <;> rfl)
  (fun _ _ => rfl)
  (fun m f g => by
    funext s
    simp only [bind, Infer.bind]
    rcases m s with ⟨_ | _, _⟩ <;> rfl)

/-- Fails where it stands. -/
def fail (e : Contradiction) : Infer α := fun s => (.error e, s)

/-- The graph as it is now. -/
def graph : Infer Graph := fun s => (.ok s.graph, s)

/-- Changes the graph. -/
def modify (f : Graph → Graph) : Infer Unit := fun s => (.ok (), { s with graph := f s.graph })

/-- Notes something about the call. -/
def note (f : Effect → Effect) : Infer Unit := fun s => (.ok (), { s with effect := f s.effect })

/-- Notes that a bound or an edge is new. -/
def noteChanged : Infer Unit := note fun e => { e with changed := true }

/-- Notes that an implicit conversion was needed. -/
def noteConversion (c : Conversion) : Infer Unit := note fun e => { e with conversion := some c }

/-- Notes that a lower bound was restricted to the source of a conversion. -/
def noteConstraint (t : Ty) : Infer Unit :=
  note fun e => { e with constraints := e.constraints ++ [t] }

/-- Notes that a propagation was cut off. -/
def noteCutOff : Infer Unit := note fun e => { e with complete := false }

@[simp] theorem pure_apply (a : α) (s : Progress) : (pure a : Infer α) s = (.ok a, s) := rfl

theorem bind_apply (m : Infer α) (f : α → Infer β) (s : Progress) :
    (m >>= f) s = match m s with
      | (.ok a, s') => f a s'
      | (.error e, s') => (.error e, s') := rfl

@[simp] theorem fail_apply (e : Contradiction) (s : Progress) :
    (fail e : Infer α) s = (.error e, s) := rfl

@[simp] theorem graph_apply (s : Progress) : graph s = (.ok s.graph, s) := rfl

@[simp] theorem modify_apply (f : Graph → Graph) (s : Progress) :
    modify f s = (.ok (), { s with graph := f s.graph }) := rfl

@[simp] theorem note_apply (f : Effect → Effect) (s : Progress) :
    note f s = (.ok (), { s with effect := f s.effect }) := rfl

end Infer

/-- The outcome of an operation on a graph. The graph is there also after a fault. -/
structure Outcome where
  graph : Graph
  effect : Effect := {}
  fault : Option Fault := none

namespace Graph

/-- Refuses a call and leaves the graph alone. -/
def refuse (g : Graph) (m : Misuse) : Outcome := { graph := g, fault := some (.misuse m) }

/-- Runs a computation; `blame` says what becomes of a contradiction. -/
def run (g : Graph) (blame : Contradiction → Fault) (m : Infer Unit) : Outcome :=
  match m { graph := g } with
  | (.ok (), s) => { graph := s.graph, effect := s.effect }
  | (.error e, s) => { graph := s.graph, effect := s.effect, fault := some (blame e) }

end Graph

end TypeBounds
