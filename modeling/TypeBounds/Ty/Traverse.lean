import TypeBounds.Ty.Basic

/-!
# Walking through and rebuilding types

* `Ty.subterms` lists a type and the members below it, parents before members and left to right;
* `Ty.mapConvertibles` rebuilds a type with its convertibles replaced. Containers are built anew by
  adding, so their keys are up to date afterwards and members whose names have become equal fall
  together. Neither looks into the target of a fixed convertible;
* `Ty.rebind` changes the open convertibles that live in one cell, wherever they occur. It keeps
  keys as they are: a container does not notice. `Ty.release` takes convertibles out of their cells,
  so that nothing can change them any more.
-/

namespace TypeBounds.Ty

mutual

/-- The type and everything nested in it as a member, in order of a depth-first walk. -/
def subterms : Ty → List Ty
  | union ms => .union ms :: subtermsAll ms
  | inter ms => .inter ms :: subtermsAll ms
  | t => [t]

/-- The subterms of the members in order. -/
def subtermsAll : Members → List Ty
  | [] => []
  | (_, t) :: ms => subterms t ++ subtermsAll ms

end

/-- The convertibles nested in a type, in order of the walk. -/
def convertibles (t : Ty) : List Ty := t.subterms.filter isConvertible

/-- **A walk that may be stopped.** Visits the subterms in order and stops at the `stop`-th visit,
or never if `stop` is `0`. Gives the types visited and whether the walk came to its end. -/
def walk (t : Ty) (stop : Nat) : List Ty × Bool :=
  let all := t.subterms
  if stop = 0 || all.length < stop then (all, true) else (all.take stop, false)

mutual

/-- The members of nested unions in order; a type that is no union is its own part. -/
def unionParts : Ty → List Ty
  | union ms => unionPartsAll ms
  | t => [t]

/-- The parts of each member in order. -/
def unionPartsAll : Members → List Ty
  | [] => []
  | (_, t) :: ms => unionParts t ++ unionPartsAll ms

end

mutual

/-- The members of nested intersections in order; a type that is none is its own part. -/
def interParts : Ty → List Ty
  | inter ms => interPartsAll ms
  | t => [t]

/-- The parts of each member in order. -/
def interPartsAll : Members → List Ty
  | [] => []
  | (_, t) :: ms => interParts t ++ interPartsAll ms

end

mutual

/-- Replaces the convertibles nested in a type. -/
def mapConvertibles (f : Ty → Ty) : Ty → Ty
  | union ms => unionOf (mapEach f ms)
  | inter ms => interOf (mapEach f ms)
  | asVar cell owner var => f (.asVar cell owner var)
  | asType t => f (.asType t)
  | mixed => .mixed
  | nominal name kind final parents => .nominal name kind final parents

/-- The rebuilt members in order. -/
def mapEach (f : Ty → Ty) : Members → List Ty
  | [] => []
  | (_, t) :: ms => mapConvertibles f t :: mapEach f ms

end

/-- The same convertible in no cell: nobody else can bind it again. -/
def detach : Ty → Ty
  | asVar _ owner var => .asVar none owner var
  | t => t

/-- **A copy** of a type whose convertibles are its own. The target of a fixed convertible is taken
over as it is, so a cell inside it is still shared. -/
def copy (t : Ty) : Ty := t.mapConvertibles detach

/-- Redirects an open convertible from one variable to another. -/
def rename (old new : String) : Ty → Ty
  | asVar cell owner var => .asVar cell owner (if var = old then new else var)
  | t => t

mutual

/-- Binds the open convertible that lives in a cell, wherever it occurs, targets and parents
included. -/
def rebind (cell owner : Nat) (var : String) : Ty → Ty
  | mixed => .mixed
  | nominal name kind final parents =>
    .nominal name kind final (rebindParents cell owner var parents)
  | union ms => .union (rebindMembers cell owner var ms)
  | inter ms => .inter (rebindMembers cell owner var ms)
  | asVar c o v => if c = some cell then .asVar c owner var else .asVar c o v
  | asType t => .asType (rebind cell owner var t)

def rebindMembers (cell owner : Nat) (var : String) : Members → Members
  | [] => []
  | (key, t) :: ms => (key, rebind cell owner var t) :: rebindMembers cell owner var ms

def rebindParents (cell owner : Nat) (var : String) : List Ty → List Ty
  | [] => []
  | t :: ts => rebind cell owner var t :: rebindParents cell owner var ts

end

mutual

/-- Takes the open convertibles in the cells from `n` on out of them, wherever they occur: those
cells are given up, and whatever lives there later is something else. -/
def release (n : Nat) : Ty → Ty
  | mixed => .mixed
  | nominal name kind final parents => .nominal name kind final parents
  | union ms => .union (releaseMembers n ms)
  | inter ms => .inter (releaseMembers n ms)
  | asVar cell owner var => .asVar (cell.filter (· < n)) owner var
  | asType t => .asType (release n t)

def releaseMembers (n : Nat) : Members → Members
  | [] => []
  | (key, t) :: ms => (key, release n t) :: releaseMembers n ms

end

/-! ## Binding -/

/-- Why a convertible cannot be bound. -/
inductive BindError where
  | unidentified (t : Ty)
  | count (n : Nat)
  | fixedTarget (t : Ty)

def BindError.message : BindError → String
  | unidentified t => "cannot bind " ++ t.name ++ " to an unidentified graph"
  | count n => "a convertible type is bound to exactly one type variable, got " ++ toString n
  | fixedTarget t => t.name ++ " has a fixed target and cannot be bound"

/-- Gives an open convertible another owner. -/
def setOwner (owner : Nat) : Ty → Ty
  | asVar cell _ var => .asVar cell owner var
  | t => t

/-- Points an open convertible at another variable. -/
def setVariable (var : String) : Ty → Ty
  | asVar cell owner _ => .asVar cell owner var
  | t => t

/-- **Binding in place** an open convertible to one variable of the graph tagged `owner`. Nothing is
written before everything is found to be in order. -/
def bindTo (owner : Nat) (vars : List String) : EStateM BindError Ty Unit := do
  let t ← get
  if owner = 0 then throw (.unidentified t)
  match vars, t with
  | [var], .asVar .. => do
    modify (setOwner owner)
    modify (setVariable var)
  | [_], t => throw (.fixedTarget t)
  | vars, _ => throw (.count vars.length)

/-- What becomes of a convertible that is bound. -/
def bind (t : Ty) (owner : Nat) (vars : List String) : Except BindError Ty :=
  match bindTo owner vars t with
  | .ok _ t => .ok t
  | .error e _ => .error e

theorem bind_eq (t : Ty) (owner : Nat) (vars : List String) : t.bind owner vars =
    if owner = 0 then .error (.unidentified t)
    else match vars, t with
      | [var], .asVar cell _ _ => .ok (.asVar cell owner var)
      | [_], t => .error (.fixedTarget t)
      | vars, _ => .error (.count vars.length) := by
  by_cases howner : owner = 0
  · subst howner
    rfl
  · simp only [bind, bindTo, if_neg howner]
    rcases vars with _ | ⟨var, _ | ⟨var', vars⟩⟩ <;> cases t <;> rfl

/-- **A failure to bind** writes nothing. -/
theorem bindTo_eq_error {t t' : Ty} {owner : Nat} {vars : List String} {e : BindError}
    (h : bindTo owner vars t = .error e t') : t' = t := by
  by_cases howner : owner = 0
  · subst howner
    cases h
    rfl
  · simp only [bindTo, if_neg howner] at h
    rcases vars with _ | ⟨var, _ | ⟨var', vars⟩⟩ <;> cases t <;> cases h <;> rfl

end TypeBounds.Ty
