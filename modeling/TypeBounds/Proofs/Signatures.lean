import TypeBounds.Graph.Signature
import TypeBounds.Proofs.Finality
import TypeBounds.Proofs.Rounds

/-!
# What signatures list

The constraints of a signature are texts. Behind them is a list of `Constraint`s, about the
variables that are connected to those which the signature mentions. Connected variables are the
least set (`Graph.Connected`) with the mentioned ones and their neighbours; fixed variables are not
in it, and nothing is connected through them. Main statements:

* `Graph.mem_parametricPart_iff`: the search finds exactly that set;
* `Graph.constraints_eq`: the texts are those of the constraints, in that order.
-/

namespace TypeBounds

/-! ## Lists in natural order -/

/-- The ids with the property, each of them once, and in natural order as far as that is an order
among the given ids. -/
structure Natural.Lists (among : List String) (p : String → Prop) (ids : List String) : Prop where
  mem_iff : ∀ id, id ∈ ids ↔ p id
  nodup : ids.Nodup
  sorted : Natural.Orders among → ids.Pairwise fun a b => (Natural.compare a b).isLE

-- it is not one among all ids: the first two are compared by number, the other pairs as strings
example : ¬Natural.Orders ["a2", "a10", "a1b"] := by decide +kernel

theorem Natural.lists_sort {ids : List String} (h : ids.Nodup) :
    Natural.Lists ids (· ∈ ids) (Natural.sort ids) where
  mem_iff _ := Natural.mem_sort
  nodup := (sortBy_perm _ _).nodup_iff.2 h
  sorted := sortBy_pairwise Natural.isLE_total

theorem Natural.Lists.filter {among ids : List String} {p : String → Prop}
    (h : Natural.Lists among p ids) (q : String → Bool) :
    Natural.Lists among (fun id => p id ∧ q id) (ids.filter q) where
  mem_iff id := by rw [List.mem_filter, h.mem_iff]
  nodup := h.nodup.filter _
  sorted ho := (h.sorted ho).filter _

/-! ## Constraints -/

/-- What a signature says of a parametric variable: the types it lies between, or a variable that it
lies below. A bound without members says nothing. -/
inductive Constraint where
  | types (lower : Members) (id : VarId) (upper : Members)
  | edge (id high : VarId)

namespace Constraint

/-- The type variables that a constraint is about. -/
def ids : Constraint → List VarId
  | types _ id _ => [id]
  | edge id high => [id, high]

/-- How a constraint is written: from the lowest to the highest. -/
def text : Constraint → String
  | types lower id upper =>
    (if lower.isEmpty then "" else (Ty.union lower).name ++ " < ") ++ id ++
      if upper.isEmpty then "" else " < " ++ (Ty.inter upper).name
  | edge id high => id ++ " < " ++ high

end Constraint

namespace Graph

variable {g : Graph} {mentioned part : List VarId} {higher : VarId → List VarId} {id x y : VarId}

/-- **The parametric part** of a signature: the variables it mentions and all their neighbours, but
for those that are fixed. -/
inductive Connected (g : Graph) (mentioned : List VarId) : VarId → Prop
  | mentioned {x : VarId} (hx : x ∈ mentioned)
    (hopen : g.status x ≠ .fixed) : Connected g mentioned x
  | neighbour {x y : VarId} (hx : Connected g mentioned x)
      (hy : y ∈ (g.boundsOf x).below ∨ y ∈ (g.boundsOf x).above) (hopen : g.status y ≠ .fixed) :
      Connected g mentioned y

/-- How a variable is written in a signature: a fixed one as the type it resolves to, any other as
its id. -/
def Writes (g : Graph) (id : VarId) (text : String) : Prop :=
  if g.status id = .fixed then ∃ t, g.resolvedType id = .ok t ∧ text = t.name else text = id

/-- The constraints of one variable: that of its types, if it has any, and one for each higher
variable. -/
def constraintsOf (g : Graph) (higher : VarId → List VarId) (id : VarId) : List Constraint :=
  let b := g.boundsOf id
  (if b.lower.isEmpty && b.upper.isEmpty then [] else [.types b.lower id b.upper]) ++
    (higher id).map (.edge id)

theorem Connected.status_ne (h : g.Connected mentioned x) : g.status x ≠ .fixed := by
  cases h with
  | mentioned _ hopen => exact hopen
  | neighbour _ _ hopen => exact hopen

theorem status_ne_fixed : g.status x ≠ .fixed ↔ g.isFrozen x = false := by
  rw [ne_eq, status_eq_fixed, Bool.not_eq_true]

/-! ## The search for the parametric part -/

/-- **The search** finds what is connected. -/
theorem mem_parametricPart_iff (h : g.WellFormed) (hmentioned : ∀ x ∈ mentioned, x ∈ g.ids) :
    x ∈ g.parametricPart mentioned ↔ g.Connected mentioned x := by
  have hopen {x : VarId} : x ∈ g.ids.filter (!g.isFrozen ·) ↔ x ∈ g.ids ∧ g.status x ≠ .fixed := by
    rw [List.mem_filter, Bool.not_eq_true', status_ne_fixed]
  rw [parametricPart, Natural.mem_sort, mem_reachable (h.ids_nodup.filter _)]
  constructor
  · rintro ⟨a, ha, hparametric, hpath⟩
    induction hpath with
    | refl => exact .mentioned ha (hopen.1 hparametric).2
    | tail _ hop ih => exact .neighbour ih (List.mem_append.1 hop.1) (hopen.1 hop.2).2
  · intro hx
    induction hx with
    | mentioned hx hstatus => exact ⟨_, hx, hopen.2 ⟨hmentioned _ hx, hstatus⟩, .refl⟩
    | @neighbour x y _ hy hstatus ih =>
      obtain ⟨a, ha, hparametric, hpath⟩ := ih
      have hids : y ∈ g.ids := hy.elim h.mem_ids_of_mem_below h.mem_ids_of_mem_above
      exact ⟨a, ha, hparametric, hpath.tail ⟨List.mem_append.2 hy, hopen.2 ⟨hids, hstatus⟩⟩⟩

theorem lists_parametricPart (h : g.WellFormed) (hmentioned : ∀ x ∈ mentioned, x ∈ g.ids) :
    Natural.Lists (g.parametricPart mentioned) (g.Connected mentioned)
      (g.parametricPart mentioned) where
  mem_iff _ := mem_parametricPart_iff h hmentioned
  nodup := (sortBy_perm _ _).nodup_iff.2 (nodup_explore (h.ids_nodup.filter _) (Nat.le_refl _))
  sorted ho := by
    refine sortBy_pairwise Natural.isLE_total fun a ha b hb c hc => ?_
    exact ho a (mem_sortBy.2 ha) b (mem_sortBy.2 hb) c (mem_sortBy.2 hc)

/-! ## The constraints and their texts -/

theorem boundConstraint_eq (g : Graph) (id : VarId) : g.boundConstraint id =
    (if (g.boundsOf id).lower.isEmpty && (g.boundsOf id).upper.isEmpty then []
      else [Constraint.types (g.boundsOf id).lower id (g.boundsOf id).upper]).map
      Constraint.text := by
  unfold boundConstraint Bounds.lowerName Bounds.upperName
  cases hlower : (g.boundsOf id).lower.isEmpty <;> cases hupper : (g.boundsOf id).upper.isEmpty <;>
    simp [Constraint.text, hlower, hupper, String.append_assoc]

/-- The higher variables that the constraints of a variable name. -/
def higherIn (g : Graph) (part : List VarId) (id : VarId) : List VarId :=
  (g.above id).filter fun y => y ≠ id && part.contains y

/-- **The texts** are those of the constraints. -/
theorem constraints_eq (g : Graph) (part : List VarId) :
    g.constraints part = (part.flatMap (g.constraintsOf (g.higherIn part))).map
      Constraint.text := by
  rw [constraints, List.map_flatMap]
  refine List.flatMap_congr fun id _ => ?_
  rw [boundConstraint_eq, constraintsOf, List.map_append, List.map_map]
  rfl

theorem lists_higherIn (h : g.WellFormed) (part : List VarId) (id : VarId) :
    Natural.Lists (g.boundsOf id).above
    (fun y => y ∈ (g.boundsOf id).above ∧ y ∈ part ∧ y ≠ id) (g.higherIn part id) := by
  have hlists := (Natural.lists_sort (h.above_nodup id)).filter fun y => y ≠ id && part.contains y
  refine ⟨fun y => (hlists.mem_iff y).trans ?_, hlists.nodup, hlists.sorted⟩
  simp [and_comm]

theorem ids_of_mem_constraintsOf {c : Constraint} (hc : c ∈ g.constraintsOf higher id) :
    c.ids.head? = some id ∧ ∀ y ∈ c.ids, y = id ∨ y ∈ higher id := by
  rcases List.mem_append.1 hc with hc | hc
  · split at hc
    · cases hc
    · obtain rfl := List.mem_singleton.1 hc
      exact ⟨rfl, by simp [Constraint.ids]⟩
  · obtain ⟨y, hy, rfl⟩ := List.mem_map.1 hc
    exact ⟨rfl, by simp [Constraint.ids, hy]⟩

theorem edge_mem_constraintsOf :
    .edge x y ∈ g.constraintsOf higher id ↔ x = id ∧ y ∈ higher id := by
  have htypes :
      .edge x y ∉ (if (g.boundsOf id).lower.isEmpty &&
        (g.boundsOf id).upper.isEmpty then [] else [Constraint.types (g.boundsOf id).lower id
          (g.boundsOf id).upper]) := by
    split <;> simp
  rw [constraintsOf, List.mem_append, or_iff_right htypes, List.mem_map]
  simp [and_comm, eq_comm]

theorem nodup_constraintsOf (h : (higher id).Nodup) : (g.constraintsOf higher id).Nodup := by
  have hedges : ((higher id).map (Constraint.edge id)).Nodup := h.map fun _ _ h => by cases h; rfl
  refine List.nodup_append.2 ⟨by split <;> simp, hedges, fun c hc d hd => ?_⟩
  obtain ⟨y, -, rfl⟩ := List.mem_map.1 hd
  split at hc
  · cases hc
  · rw [List.mem_singleton.1 hc]
    exact fun h => by cases h

/-- No constraint is listed twice: the first id tells which variable it belongs to. -/
theorem nodup_flatMap_constraintsOf (hpart : part.Nodup) (h : ∀ id ∈ part, (higher id).Nodup) :
    (part.flatMap (g.constraintsOf higher)).Nodup := by
  refine List.nodup_flatMap.2 ⟨fun id hid => nodup_constraintsOf (h id hid),
    hpart.imp fun {x y} hne c hx hy => ?_⟩
  have hhead := (ids_of_mem_constraintsOf hx).1.symm.trans (ids_of_mem_constraintsOf hy).1
  exact hne (Option.some_inj.1 hhead)

theorem writes_typeText (hid : id ∈ g.ids) : g.Writes id (g.typeText id) := by
  unfold Writes typeText
  by_cases hfrozen : g.isFrozen id
  · rw [if_pos (status_eq_fixed.2 hfrozen), if_pos hfrozen]
    exact ⟨_, resolvedType_eq hid, rfl⟩
  · rw [if_neg (fun h => hfrozen (status_eq_fixed.1 h)), if_neg hfrozen]

end Graph

/-! ## Signatures -/

/-- The names are known, and denote what is behind these references. -/
def Graph.Denotes (g : Graph) (names : List String) (rs : List Reference) : Prop :=
  List.Forall₂ (fun name r => g.names.get? name = some r) names rs

theorem Graph.Denotes.mapM_reference {g : Graph} {names : List String} {rs : List Reference}
    (h : g.Denotes names rs) :
    names.mapM (fun name => (g.reference name).map Reference.id) = .ok (rs.map Reference.id) := by
  induction h with
  | nil => rfl
  | cons hname _ ih =>
    rw [List.mapM_cons, ih, Graph.reference, hname]
    rfl

theorem Graph.Denotes.mem_ids {g : Graph} (hwf : g.WellFormed) {names : List String}
    {rs : List Reference} (h : g.Denotes names rs) : ∀ r ∈ rs, r.id ∈ g.ids := by
  induction h with
  | nil => exact List.forall_mem_nil _
  | cons hname _ ih => exact List.forall_mem_cons.2 ⟨hwf.denoted _ _ hname, ih⟩

/-- The signature of a function whose names are known. -/
theorem FunctionType.signature_eq {f : FunctionType} {g : Graph} {params : List Reference}
    {result : Reference} (hparams : g.Denotes f.parameters params)
    (hresult : g.names.get? f.result = some result) :
    let texts := params.map fun r => g.typeText r.id
    let constraints := g.constraints (g.parametricPart ((params ++ [result]).map Reference.id))
    f.signature g = .ok ((if texts.isEmpty then "void" else " x ".intercalate texts) ++ " -> " ++
      g.typeText result.id ++ if constraints.isEmpty then "" else " \\ " ++
      ", ".intercalate constraints) := by
  intro texts constraints
  have hresult : (g.reference f.result).map Reference.id = .ok result.id := by
    rw [Graph.reference, hresult]
    rfl
  have htexts : (params.map Reference.id).map g.typeText = texts := List.map_map
  have hempty : (params.map Reference.id).isEmpty = texts.isEmpty := by
    rw [List.isEmpty_map, List.isEmpty_map]
  have hmentioned :
      params.map Reference.id ++ [result.id] = (params ++ [result]).map Reference.id := by
    rw [List.map_append, List.map_singleton]
  rw [signature, hparams.mapM_reference, hresult, ← hempty, ← htexts]
  simp only [constraints, ← hmentioned]
  rfl

/-- **What a signature lists.** In every graph in use, for a function whose names are known: the
parameters and the result are written as their ids, or as the types they resolve to if they are
fixed. The constraints are those of the parametric part, variable after variable in natural order.
First comes what its types say about a variable, then that it is below the other variables of the
part that are above it. No constraint is about a fixed variable, none is repeated, and none puts a
variable below itself. -/
theorem signature_lists_constraints (tag : Nat) (lattice : Lattice) (policy : Policy)
    (calls : List Call) (f : FunctionType) (params : List Reference) (result : Reference) :
    let g := Graph.after { tag, lattice, policy } calls
    let connected := g.Connected ((params ++ [result]).map Reference.id)
    g.Denotes f.parameters params → g.names.get? f.result = some result →
    ∃ (texts : List String) (text : String) (part : List VarId) (higher : VarId → List VarId),
      List.Forall₂ (fun r text => g.Writes r.id text) params texts ∧ g.Writes result.id text ∧
      Natural.Lists part connected part ∧
      (∀ id ∈ part, Natural.Lists (g.boundsOf id).above
        (fun y => y ∈ (g.boundsOf id).above ∧ connected y ∧ y ≠ id) (higher id)) ∧
      let constraints := part.flatMap (g.constraintsOf higher)
      f.signature g =
      .ok ((if texts.isEmpty then "void" else " x ".intercalate texts) ++ " -> " ++ text ++
        if constraints.isEmpty then "" else " \\ " ++ ", ".intercalate
        (constraints.map Constraint.text)) ∧
      constraints.Nodup ∧
      ∀ c ∈ constraints, (∀ id ∈ c.ids, g.status id ≠ .fixed) ∧ ∀ id, c ≠ .edge id id := by
  intro g connected hparams hresult
  have hwf : g.WellFormed := (Graph.WellFormed.empty tag lattice policy).after calls
  have hids : ∀ r ∈ params ++ [result], r.id ∈ g.ids :=
    List.forall_mem_append.2 ⟨hparams.mem_ids hwf,
      List.forall_mem_singleton.2 (hwf.denoted _ _ hresult)⟩
  have hlists := Graph.lists_parametricPart hwf (List.forall_mem_map.2 hids)
  obtain ⟨hresultId, hparamIds⟩ := (List.forall_mem_append.1 hids).symm
  set part := g.parametricPart ((params ++ [result]).map Reference.id)
  have hhigher (id : VarId) : Natural.Lists (g.boundsOf id).above
      (fun y => y ∈ (g.boundsOf id).above ∧ connected y ∧ y ≠ id) (g.higherIn part id) := by
    have h := Graph.lists_higherIn hwf part id
    exact ⟨fun y => by rw [h.mem_iff, hlists.mem_iff], h.nodup, h.sorted⟩
  refine ⟨params.map fun r => g.typeText r.id, g.typeText result.id, part, g.higherIn part, ?_,
    Graph.writes_typeText (hresultId _ (List.mem_singleton_self _)), hlists, fun id _ =>
    hhigher id, ?_,
    Graph.nodup_flatMap_constraintsOf hlists.nodup fun id _ => (hhigher id).nodup, fun c hc => ?_⟩
  · exact List.forall₂_map_right_iff.2
      (List.forall₂_same.2 fun r hr => Graph.writes_typeText (hparamIds r hr))
  · simp only [FunctionType.signature_eq hparams hresult, Graph.constraints_eq,
      List.isEmpty_map, part]
  · obtain ⟨id, hid, hc⟩ := List.mem_flatMap.1 hc
    refine ⟨fun y hy => ?_, ?_⟩
    · rcases (Graph.ids_of_mem_constraintsOf hc).2 y hy with rfl | hy
      · exact ((hlists.mem_iff _).1 hid).status_ne
      · exact (((hhigher id).mem_iff y).1 hy).2.1.status_ne
    · rintro x rfl
      obtain ⟨rfl, hx⟩ := Graph.edge_mem_constraintsOf.1 hc
      exact (((hhigher x).mem_iff x).1 hx).2.2 rfl

/-- Two variables on a cycle with a result above them, and a fixed variable that is above them as
well. -/
def fixedAboveCycle : List Call :=
  [.addVariable "$x" (some { id := "T2" }), .addVariable "$y" (some { id := "T10" }),
    .addVariable "$k" (some { id := "T3" }), .addVariable "$r" (some { id := "T1" }),
    .addRef "T10" (some { id := "T2" }), .addRef "T2" (some { id := "T10" }), .addLower "T2" circle,
    .addRef "T3" (some { id := "T2" }), .addRef "T1" (some { id := "T10" }), .addUpper "T1" shape,
    .fixVariable "$k"]

def pick : FunctionType :=
  { name := "pick", graph := 1, parameters := ["$x", "$k"], result := "$r" }

theorem signature_lists_constraints_pick :
    let g := Graph.after { tag := 1 } fixedAboveCycle
    let params : List Reference := [{ id := "T2" }, { id := "T3", fixed := true }]
    let result : Reference := { id := "T1" }
    g.Denotes pick.parameters params ∧ g.names.get? pick.result = some result ∧
      (pick.signature g).toOption = some ("T2 x Circle -> T1 \\ Circle < T1 < Shape, " ++
        "Circle < T2 < Shape, T2 < T1, T2 < T10, Circle < T10 < Shape, T10 < T1, T10 < T2") ∧
      ∃ (part : List VarId) (higher : VarId → List VarId),
        Natural.Lists part (g.Connected ((params ++ [result]).map Reference.id)) part ∧
        (part.flatMap (g.constraintsOf higher)).Nodup ∧
        ∀ c ∈ part.flatMap (g.constraintsOf higher), (∀ id ∈ c.ids, g.status id ≠ .fixed) ∧
          ∀ id, c ≠ .edge id id := by
  intro g params result
  have hparams : g.Denotes pick.parameters params :=
    .cons (by decide +kernel) (.cons (by decide +kernel) .nil)
  have hresult : g.names.get? pick.result = some result := by decide +kernel
  obtain ⟨-, -, part, higher, -, -, hpart, -, -, hnodup, hopen⟩ :=
    signature_lists_constraints 1 {} .plain fixedAboveCycle pick params result hparams hresult
  exact ⟨hparams, hresult, by decide +kernel, part, higher, hpart, hnodup, hopen⟩

end TypeBounds
