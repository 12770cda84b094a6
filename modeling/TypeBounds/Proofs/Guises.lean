import TypeBounds.Graph.Signature
import TypeBounds.Proofs.Bare

/-!
# Graphs under a guise

A `Guise` shows a graph with other types, another tag and another policy, and with other records
that have the same neighbours and the same mark. Whoever looks at edges only cannot tell the
difference, and what is done to edges can be done under the guise as well.

A computation **mimics** another one if, run under the guise, it does the same, step by step, and
ends in the graph under the guise, **also when it fails** (`Infer.Mimics`). Mimicry is closed under
everything that computations are built from. So propagation and merging mimic themselves wherever
they get to see all bounds and questions about types have the same answers under the guise
(`Guise.Suits.spread`, `Guise.SuitsMerging.mergeInto`).
-/

namespace TypeBounds

open Infer

/-- **A guise.** Types keep their names and what they are made of. What is shown of a bound may
depend on the variable. -/
structure Guise where
  type : Ty → Ty
  tag : Nat → Nat
  policy : Policy → Policy
  lower : VarId → Members → Members
  upper : VarId → Members → Members
  name : ∀ t, (type t).name = t.name
  size : ∀ t, (type t).size = t.size
  copy : ∀ t, (type t).copy = type t.copy
  clashes : ∀ a b, Graph.clashes (type a) (type b) = Graph.clashes a b
  container : ∀ (side : Side) (ms : Members),
    type (side.container ms) = side.container (ms.map fun m => (m.1, type m.2))
  parts : ∀ (side : Side) (t : Ty), side.parts (type t) = (side.parts t).map type
  lower_nil : ∀ x, lower x [] = []
  upper_nil : ∀ x, upper x [] = []

variable {G : Guise}

def Members.under (G : Guise) (ms : Members) : Members := ms.map fun m => (m.1, G.type m.2)

/-- What is shown of the record of a variable. -/
def Guise.record (G : Guise) (x : VarId) (b : Bounds) : Bounds :=
  { b with lower := G.lower x b.lower, upper := G.upper x b.upper }

/-- The record with all its types under the guise. -/
def Bounds.under (G : Guise) (b : Bounds) : Bounds :=
  { b with lower := Members.under G b.lower, upper := Members.under G b.upper }

/-- **The graph under a guise.** -/
def Graph.under (G : Guise) (g : Graph) : Graph :=
  { g with tag := G.tag g.tag, policy := G.policy g.policy, bounds := g.bounds.mapValues G.record }

def Conversion.under (G : Guise) (c : Conversion) : Conversion :=
  { c with source := G.type c.source, target := G.type c.target }

def Contradiction.under (G : Guise) : Contradiction → Contradiction
  | lower x new old => .lower x (G.type new) (G.type old)
  | upper x new old => .upper x (G.type new) (G.type old)
  | intersection x new conflicting => .intersection x (G.type new) (G.type conflicting)

def Effect.under (G : Guise) (e : Effect) : Effect :=
  { e with
    conversion := e.conversion.map (Conversion.under G)
    constraints := e.constraints.map G.type }

def Progress.under (G : Guise) (s : Progress) : Progress := ⟨s.graph.under G, s.effect.under G⟩

/-! ## Members and records -/

namespace Members

variable {ms : Members} {t : Ty}

@[simp] theorem isEmpty_under : (under G ms).isEmpty = ms.isEmpty := by simp [under]

@[simp] theorem types_under : types (under G ms) = (types ms).map G.type := by simp [types, under]

/-- What keeps names goes through the adding of a member. -/
theorem add_map {f : Ty → Ty} (hf : ∀ t, (f t).name = t.name) :
    add (ms.map fun m => (m.1, f m.2)) (f t) = (add ms t).map fun m => (m.1, f m.2) := by
  have hholds : holds (ms.map fun m => (m.1, f m.2)) t.name = holds ms t.name := by
    simp [holds, Function.comp_def]
  simp only [add, hf, hholds]
  split <;> simp

theorem ofTypes_map {f : Ty → Ty} (hf : ∀ t, (f t).name = t.name) (ts : List Ty) :
    ofTypes (ts.map f) = (ofTypes ts).map fun m => (m.1, f m.2) := by
  have hfold (ms : Members) : (ts.map f).foldl add (ms.map fun m => (m.1, f m.2)) =
      (ts.foldl add ms).map fun m => (m.1, f m.2) := by
    induction ts generalizing ms with
    | nil => rfl
    | cons t ts ih => rw [List.map_cons, List.foldl_cons, List.foldl_cons, add_map hf, ih]
  exact hfold []

theorem add_under : add (under G ms) (G.type t) = under G (add ms t) := add_map G.name

theorem erase_under {key : String} : erase (under G ms) key = under G (erase ms key) := by
  simp [erase, under, List.filter_map, Function.comp_def]

theorem eraseAll_under (ts : List Ty) :
    (ts.map G.type).foldl (fun ms e => erase ms e.name) (under G ms) =
      under G (ts.foldl (fun ms e => erase ms e.name) ms) := by
  induction ts generalizing ms with
  | nil => rfl
  | cons t ts ih => rw [List.map_cons, List.foldl_cons, List.foldl_cons, G.name, erase_under, ih]

theorem ofTypes_under (ts : List Ty) : ofTypes (ts.map G.type) = under G (ofTypes ts) :=
  ofTypes_map G.name ts

end Members

namespace Guise

variable {b : Bounds} {x : VarId}

@[simp] theorem below_record : (G.record x b).below = b.below := rfl

@[simp] theorem above_record : (G.record x b).above = b.above := rfl

@[simp] theorem frozen_record : (G.record x b).frozen = b.frozen := rfl

end Guise

/-! ## Edges -/

namespace Graph

variable {g : Graph} {x y lower upper old new : VarId}

@[simp] theorem get?_bounds_under :
    (g.under G).bounds.get? x = (g.bounds.get? x).map (G.record x) := Table.get?_mapValues ..

@[simp] theorem ids_under : (g.under G).ids = g.ids := ids_mapValues rfl

@[simp] theorem typeVariables_under : (g.under G).typeVariables = g.typeVariables := by
  simp [typeVariables]

@[simp] theorem contains_bounds_under :
    (g.under G).bounds.contains x = g.bounds.contains x := by simp [Table.contains]

@[simp] theorem boundsOf_under : (g.under G).boundsOf x = G.record x (g.boundsOf x) := by
  rw [boundsOf, get?_bounds_under, boundsOf]
  cases g.bounds.get? x with
  | none =>
    rw [Option.map_none, Option.getD_none, Guise.record, G.lower_nil, G.upper_nil]
  | some b => rfl

@[simp] theorem below_under : (g.under G).below x = g.below x := by simp [below]

@[simp] theorem above_under : (g.under G).above x = g.above x := by simp [above]

@[simp] theorem onward_under {side : Side} : (g.under G).onward side x = g.onward side x := by
  cases side <;> simp [onward]

@[simp] theorem isPinned_under : (g.under G).isPinned x = g.isPinned x := rfl

@[simp] theorem isFrozen_under : (g.under G).isFrozen x = g.isFrozen x := by
  rw [isFrozen, isFrozen, boundsOf_under]
  rfl

@[simp] theorem spreadDepth_under {t : Ty} :
    (g.under G).spreadDepth (G.type t) = g.spreadDepth t := by
  rw [spreadDepth, spreadDepth, ids_under, G.size]
  rfl

@[simp] theorem reachesParameter_under {params : List VarId} :
    (g.under G).reachesParameter params x = g.reachesParameter params x := by
  simp [reachesParameter]

@[simp] theorem cycles_under {search : Search} :
    (g.under G).cycles search = g.cycles search := by
  have habove : (g.under G).above = g.above := funext fun _ => above_under
  rw [cycles, cycles, typeVariables_under, habove]

theorem update_under {f f' : Bounds → Bounds} (hf : ∀ b, f' (G.record x b) = G.record x (f b)) :
    (g.under G).update x f' = (g.update x f).under G := by
  have hentry (e : String × Bounds) :
      (if e.1 = x then (e.1, f' (G.record e.1 e.2)) else (e.1, G.record e.1 e.2)) =
        ((if e.1 = x then (e.1, f e.2) else e).1,
          G.record (if e.1 = x then (e.1, f e.2) else e).1
          (if e.1 = x then (e.1, f e.2) else e).2) := by
    by_cases he : e.1 = x
    · simp only [he, if_true, hf]
    · simp only [he, if_false]
  simp [update, under, Table.modify, Table.mapValues, Function.comp_def, hentry]

theorem mapValues_under {f f' : String → Bounds → Bounds}
    (hf : ∀ x b, f' x (G.record x b) = G.record x (f x b)) :
    ({ g.under G with bounds := (g.under G).bounds.mapValues f' } : Graph) =
      ({ g with bounds := g.bounds.mapValues f } : Graph).under G := by
  simp [under, Table.mapValues, Function.comp_def, hf]

theorem foldl_under {α : Type} {f f' : Graph → α → Graph} {as : List α}
    (hf : ∀ g, ∀ a ∈ as, f' (g.under G) a = (f g a).under G) :
    as.foldl f' (g.under G) = (as.foldl f g).under G := by
  induction as generalizing g with
  | nil => rfl
  | cons a as ih =>
    rw [List.foldl_cons, List.foldl_cons, hf g a (List.mem_cons_self ..)]
    exact ih fun g b hb => hf g b (List.mem_cons_of_mem _ hb)

@[simp] theorem link_under : (g.under G).link lower upper = (g.link lower upper).under G := by
  refine (congrArg (update · lower _) (update_under ?_)).trans (update_under ?_) <;>
    exact fun b => rfl

@[simp] theorem unlink_under : (g.under G).unlink lower upper = (g.unlink lower upper).under G := by
  refine (congrArg (update · lower _) (update_under ?_)).trans (update_under ?_) <;>
    exact fun b => rfl

@[simp] theorem linkAcross_under :
    (g.under G).linkAcross lower upper = (g.linkAcross lower upper).under G := by
  simp only [linkAcross, below_under, above_under]
  refine foldl_under fun g' x _ => ?_
  refine foldl_under fun g' y _ => ?_
  split <;> simp

@[simp] theorem isolate_under : (g.under G).isolate x = (g.isolate x).under G := by
  simp only [isolate, below_under, above_under]
  rw [foldl_under fun g x _ => unlink_under, foldl_under fun g y _ => unlink_under]

@[simp] theorem pruneSelfEdges_under : (g.under G).pruneSelfEdges = g.pruneSelfEdges.under G := by
  refine mapValues_under fun x b => ?_
  dsimp only [Guise.record]
  split <;> rfl

@[simp] theorem unregister_under : (g.under G).unregister x = (g.unregister x).under G := by
  simp [unregister, under, Table.erase, Table.mapValues, List.filter_map, Function.comp_def]

@[simp] theorem inheritFrozen_under :
    (g.under G).inheritFrozen old new = (g.inheritFrozen old new).under G := by
  simp only [inheritFrozen, boundsOf_under, Guise.frozen_record]
  split
  · refine update_under ?_
    exact fun b => rfl
  · rfl

@[simp] theorem detach_under : (g.under G).detach x = (g.detach x).under G := by
  rw [detach, isolate_under]
  refine (congrArg (pin · x) (update_under ?_)).trans rfl
  exact fun b => rfl

/-- Cutting a variable off, where renaming commutes with what is shown of bounds. -/
theorem cutOff_under
    (hlower : ∀ (g : Graph) holder x ms, (g.under G).renameMembers holder old new (G.lower x ms) =
      G.lower x (g.renameMembers holder old new ms))
    (hupper : ∀ (g : Graph) holder x ms, (g.under G).renameMembers holder old new (G.upper x ms) =
      G.upper x (g.renameMembers holder old new ms)) :
    (g.under G).cutOff old new = (g.cutOff old new).under G := by
  have hisolated : ((g.under G).redirect old new).isolate old =
      ((g.redirect old new).isolate old).under G := isolate_under (g := g.redirect old new)
  rw [cutOff, hisolated]
  refine mapValues_under fun x b => ?_
  simp only [Guise.record, hlower, hupper]

end Graph

/-! ## Mimicry -/

namespace Infer

variable {α α' β β' γ γ' : Type} {J : Graph → Prop}

/-- **Mimicry.** Wherever `J` holds, the second computation does under the guise what the first one
does, and gives what `f` makes of its result. `J` holds afterwards. -/
def Mimics (G : Guise) (J : Graph → Prop) (f : α → α') (m : Infer α) (m' : Infer α') : Prop :=
  ∀ s : Progress, J s.graph → J (m s).2.graph ∧
    m' (s.under G) = (match (m s).1 with
      | .ok a => .ok (f a)
      | .error e => .error (e.under G), (m s).2.under G)

namespace Mimics

variable {f : α → α'} {h : β → β'} {m : Infer α} {m' : Infer α'}

theorem pure (a : α) : Mimics G J f (pure a) (pure (f a)) := fun _ hJ => ⟨hJ, rfl⟩

theorem fail (e : Contradiction) : Mimics G J f (fail e) (fail (e.under G)) := fun _ hJ => ⟨hJ, rfl⟩

/-- How the computation goes on may depend on what its result is like. -/
theorem bind_of {k : α → Infer β} {k' : α' → Infer β'} (hm : Mimics G J f m m')
    (hk : ∀ a s s', J s.graph → m s = (.ok a, s') → Mimics G J h (k a) (k' (f a))) :
    Mimics G J h (m >>= k) (m' >>= k') := by
  intro s hJ
  obtain ⟨hJ', hrun⟩ := hm s hJ
  rw [bind_apply, bind_apply, hrun]
  rcases hms : m s with ⟨e | a, s'⟩
  · rw [hms] at hJ'
    exact ⟨hJ', rfl⟩
  · rw [hms] at hJ'
    exact hk a s s' hJ hms s' hJ'

theorem bind {k : α → Infer β} {k' : α' → Infer β'} (hm : Mimics G J f m m')
    (hk : ∀ a, Mimics G J h (k a) (k' (f a))) : Mimics G J h (m >>= k) (m' >>= k') :=
  hm.bind_of fun a _ _ _ _ => hk a

/-- What is asked of the graph is asked of the one under the guise. -/
theorem graph_bind {k : Graph → Infer β} {k' : Graph → Infer β'}
    (hk : ∀ g, J g → Mimics G J h (k g) (k' (g.under G))) :
    Mimics G J h (graph >>= k) (graph >>= k') := fun s hJ => hk s.graph hJ s hJ

theorem modify {d d' : Graph → Graph} (hd : ∀ g, J g → J (d g) ∧ d' (g.under G) = (d g).under G) :
    Mimics G J id (modify d) (modify d') := by
  intro s hJ
  obtain ⟨hJ', hrun⟩ := hd s.graph hJ
  refine ⟨hJ', ?_⟩
  simp only [modify_apply, Progress.under, hrun]

theorem note {n n' : Effect → Effect} (hn : ∀ e, n' (e.under G) = (n e).under G) :
    Mimics G J id (note n) (note n') := by
  intro s hJ
  refine ⟨hJ, ?_⟩
  simp only [note_apply, Progress.under, hn]

theorem noteChanged : Mimics G J id noteChanged noteChanged := note fun _ => rfl

theorem noteCutOff : Mimics G J id noteCutOff noteCutOff := note fun _ => rfl

theorem noteConversion (c : Conversion) :
    Mimics G J id (noteConversion c) (noteConversion (c.under G)) := note fun _ => rfl

theorem noteConstraint (t : Ty) : Mimics G J id (noteConstraint t) (noteConstraint (G.type t)) :=
  note fun e => by simp [Effect.under]

theorem forM {j : γ → γ'} {k : γ → Infer PUnit} {k' : γ' → Infer PUnit} {xs : List γ}
    (hk : ∀ x ∈ xs, Mimics G J id (k x) (k' (j x))) :
    Mimics G J id (xs.forM k) ((xs.map j).forM k') := by
  induction xs with
  | nil => exact pure _
  | cons x xs ih =>
    obtain ⟨hx, hxs⟩ := List.forall_mem_cons.1 hk
    exact hx.bind fun _ => ih hxs

theorem forM_same {k k' : γ → Infer PUnit} {xs : List γ}
    (hk : ∀ x ∈ xs, Mimics G J id (k x) (k' x)) : Mimics G J id (xs.forM k) (xs.forM k') := by
  have h := forM (j := fun x => x) hk
  rwa [List.map_id'] at h

theorem mapM {j : γ → γ'} {k : γ → Infer α} {k' : γ' → Infer α'} {xs : List γ}
    (hk : ∀ x ∈ xs, Mimics G J f (k x) (k' (j x))) :
    Mimics G J (List.map f) (xs.mapM k) ((xs.map j).mapM k') := by
  induction xs with
  | nil => exact pure _
  | cons x xs ih =>
    obtain ⟨hx, hxs⟩ := List.forall_mem_cons.1 hk
    rw [List.map_cons, List.mapM_cons, List.mapM_cons]
    exact hx.bind fun a => (ih hxs).bind fun as => pure (a :: as)

theorem anyNew {each each' : Ty → Infer Bool} {ts : List Ty}
    (heach : ∀ t ∈ ts, Mimics G J id (each t) (each' (G.type t))) :
    Mimics G J id (anyNew each ts) (anyNew each' (ts.map G.type)) := by
  induction ts with
  | nil => exact pure _
  | cons t ts ih =>
    obtain ⟨ht, hts⟩ := List.forall_mem_cons.1 heach
    exact ht.bind fun new => (ih hts).bind fun newer => pure _

/-- A search that stays within `S`. -/
theorem exploreM {visit visit' : VarId → Infer (List VarId)} {S : VarId → Prop}
    (hvisit : ∀ n, S n → Mimics G J id (visit n) (visit' n))
    (hfound : ∀ n s found s', S n → J s.graph → visit n s = (.ok found, s') → ∀ y ∈ found, S y)
    {count : Nat} {unvisited stack : List VarId} (hstack : ∀ n ∈ stack, S n) :
    Mimics G J id (exploreM visit count unvisited stack)
      (exploreM visit' count unvisited stack) := by
  induction count generalizing unvisited stack with
  | zero => exact pure _
  | succ count ih =>
    unfold TypeBounds.exploreM
    rcases hdrop : stack.dropWhile fun n => !unvisited.contains n with _ | ⟨n, rest⟩
    · exact pure _
    · have hmem : ∀ y ∈ n :: rest, S y :=
        fun y hy => hstack y ((List.dropWhile_sublist _).subset (hdrop ▸ hy))
      obtain ⟨hn, hrest⟩ := List.forall_mem_cons.1 hmem
      refine (hvisit n hn).bind_of fun found s s' hJ hrun => ih fun y hy => ?_
      rcases List.mem_append.1 hy with hy | hy
      · exact hfound n s found s' hn hJ hrun y (List.mem_reverse.1 hy)
      · exact hrest y hy

end Mimics

end Infer

/-! ## Propagation -/

namespace Guise

open TypeBounds.Graph

/-- **Where a guise suits propagation.** Types as in `P` are asked about, and the answers are the
same under the guise. The types of one side stay within `R` of that side, and so does what a
conversion sets off on the other side; all of the bounds can be seen there. -/
structure Suits (G : Guise) (P : Ty → Prop) (R : Side → VarId → Prop) (J : Graph → Prop) :
    Prop where
  lower : ∀ {side x}, R side x → G.lower x = Members.under G
  upper : ∀ {side x}, R side x → G.upper x = Members.under G
  isSelf : ∀ (g : Graph) x t, (g.under G).isSelf x (G.type t) = g.isSelf x t
  isUnresolved : ∀ {g : Graph} {t}, J g → P t → (g.under G).isUnresolved (G.type t) =
    g.isUnresolved t
  isSubtype : ∀ {g g' : Graph} {a b}, J g → g'.lattice = g.lattice → P a → P b →
    (g'.under G).isSubtype (G.type a) (G.type b) = g'.isSubtype a b
  implicit? : ∀ {g : Graph} {a b}, J g → P a → P b →
    (g.under G).implicit? (G.type a) (G.type b) = (g.implicit? a b).map (Conversion.under G)
  parts : ∀ {side : Side} {t}, P t → ∀ m ∈ side.parts t, P m
  container : ∀ (side : Side) {ms : Members}, (∀ m ∈ ms, P m.2) → P (side.container ms)
  copy : ∀ {t : Ty}, P t → P t.copy
  stored : ∀ {g : Graph}, J g → ∀ (side : Side) x, ∀ m ∈ (g.boundsOf x).side side, P m.2
  conversion : ∀ {g : Graph} {c}, J g → c ∈ g.lattice.conversions → P c.source ∧ P c.target
  insertLower : ∀ {g : Graph} {x m}, J g → R .lower x → P m → J (g.insertLower x m)
  insertUpper : ∀ {g g' : Graph} {x m}, J g → R .upper x → P m → g.insertUpper x m = .ok g' → J g'
  recheck : ∀ x, Mimics G J id (recheck x) (recheck x)
  onward : ∀ {g : Graph} (side) {x}, J g → R side x → ∀ y ∈ g.onward side x, R side y
  narrow : ∀ {g : Graph} {x m c}, J g → R .lower x → (g.boundsOf x).upper ≠ [] →
    g.implicit? m (.inter (g.checkableUpper x)) = some c → R .upper x
  widen : ∀ {x}, R .upper x → R .lower x

namespace Suits

variable {P : Ty → Prop} {R : Side → VarId → Prop} {J : Graph → Prop} {x : VarId} {m t : Ty}
  {side : Side} {nested : Side → VarId → Ty → Infer Unit} {g : Graph} (h : G.Suits P R J)

include h

theorem bound (hJ : J g) (side : Side) (x : VarId) :
    P (side.container ((g.boundsOf x).side side)).copy :=
  h.copy (h.container side (h.stored hJ side x))

theorem boundsOf (hx : R side x) :
    (g.under G).boundsOf x = (g.boundsOf x).under G := by
  rw [boundsOf_under, Guise.record, h.lower hx, h.upper hx, Bounds.under]

theorem insertLower_under (hJ : J g) (hx : R .lower x) (hm : P m) :
    (g.under G).insertLower x (G.type m) = (g.insertLower x m).under G := by
  have hdrop {e : Ty} (he : P e) {g' : Graph} (hlattice : g'.lattice = g.lattice) :
      dropCovered x (G.type m) (g'.under G) (G.type e) = (dropCovered x m g' e).under G := by
    simp only [dropCovered, h.isSubtype hJ hlattice he hm]
    split
    · exact update_under fun b => by
        simp only [Guise.record, h.lower hx, G.name, Members.erase_under]
    · rfl
  have hfold (es : List Ty) (hes : ∀ e ∈ es, P e) {g' : Graph} (hlattice : g'.lattice = g.lattice) :
      (es.map G.type).foldl (dropCovered x (G.type m)) (g'.under G) =
        (es.foldl (dropCovered x m) g').under G := by
    induction es generalizing g' with
    | nil => rfl
    | cons e es ih =>
      obtain ⟨he, hes⟩ := List.forall_mem_cons.1 hes
      rw [List.map_cons, List.foldl_cons, List.foldl_cons, hdrop he hlattice]
      exact ih hes ((sameShape_dropCovered m e).lattice.trans hlattice)
  have hstored : ∀ e ∈ Members.types (g.boundsOf x).lower, P e := by
    intro e he
    obtain ⟨m', hm', rfl⟩ := Members.mem_types.1 he
    exact h.stored hJ .lower x m' hm'
  rw [insertLower_eq, insertLower_eq, h.boundsOf hx, Bounds.under, Members.types_under,
    hfold _ hstored rfl]
  exact update_under fun b => by simp only [Guise.record, h.lower hx, G.copy, Members.add_under]

theorem insertUpper_under (hJ : J g) (hx : R .upper x) (hm : P m) :
    (g.under G).insertUpper x (G.type m) = match g.insertUpper x m with
      | .ok g' => .ok (g'.under G)
      | .error e => .error (e.under G) := by
  have hsub : ∀ e ∈ Members.types (g.boundsOf x).upper,
      (g.under G).isSubtype (G.type m) (G.type e) = g.isSubtype m e := by
    intro e he
    obtain ⟨m', hm', rfl⟩ := Members.mem_types.1 he
    exact h.isSubtype hJ rfl hm (h.stored hJ .upper x m' hm')
  have hfind : (Members.types (g.boundsOf x).upper).find?
      (fun e => !(g.under G).isSubtype (G.type m) (G.type e) && Graph.clashes
        (G.type e) (G.type m)) =
      (Members.types (g.boundsOf x).upper).find? fun e => !g.isSubtype m e && Graph.clashes e m :=
    List.find?_congr fun e he => by rw [hsub e he, G.clashes]
  have hfilter : ((Members.types (g.boundsOf x).upper).filter fun e =>
      (g.under G).isSubtype (G.type m) (G.type e)) =
      (Members.types (g.boundsOf x).upper).filter fun e => g.isSubtype m e := List.filter_congr hsub
  unfold Graph.insertUpper
  simp only [h.boundsOf hx, Bounds.under, Members.types_under, List.find?_map, List.filter_map,
    Function.comp_def, hfind, hfilter]
  cases (Members.types (g.boundsOf x).upper).find? fun e =>
    !g.isSubtype m e && Graph.clashes e m with
  | some e => rfl
  | none =>
    refine congrArg Except.ok (update_under fun b => ?_)
    simp only [Guise.record, h.upper hx, G.copy, Members.eraseAll_under, Members.add_under]

theorem checkableUpper (hJ : J g) (hx : R side x) :
    (g.under G).checkableUpper x = Members.under G (g.checkableUpper x) := by
  have hfilter : (Members.types (g.boundsOf x).upper).filter
      (fun t => !(g.under G).isUnresolved (G.type t)) =
      (Members.types (g.boundsOf x).upper).filter (!g.isUnresolved ·) := by
    refine List.filter_congr fun t ht => ?_
    obtain ⟨m, hm, rfl⟩ := Members.mem_types.1 ht
    rw [h.isUnresolved hJ (h.stored hJ .upper x m hm)]
  rw [Graph.checkableUpper, h.boundsOf hx, Bounds.under, Members.types_under, List.filter_map,
    Function.comp_def, hfilter, Members.ofTypes_under, Graph.checkableUpper]

theorem checkable (hJ : J g) (x : VarId) : P (.inter (g.checkableUpper x)) := by
  refine h.container .upper (Members.forall_mem_ofTypes fun t ht => ?_)
  obtain ⟨m, hm, rfl⟩ := Members.mem_types.1 (List.mem_of_mem_filter ht)
  exact h.stored hJ .upper x m hm

theorem checkUpper {narrow : VarId → Ty → Infer Unit} (hx : R .lower x) (hm : P m)
    (hnarrow : ∀ t, R .upper x → P t → Mimics G J id (narrow x t) (narrow x (G.type t))) :
    Mimics G J id (checkUpper narrow x m) (checkUpper narrow x (G.type m)) := by
  refine Mimics.graph_bind fun g hJ => ?_
  have hinter :
      Ty.inter (Members.under G (g.checkableUpper x)) = G.type (.inter (g.checkableUpper x)) :=
    (G.container .upper _).symm
  have hcheckable := h.checkable hJ x
  simp only [h.isUnresolved hJ hm, h.checkableUpper hJ hx, Members.isEmpty_under, hinter,
    h.isSubtype hJ rfl hm hcheckable, h.implicit? hJ hm hcheckable]
  split
  · exact Mimics.pure ()
  · rename_i hneeded
    cases hc : g.implicit? m (.inter (g.checkableUpper x)) with
    | none =>
      have hcopy : (Ty.inter ((g.under G).boundsOf x).upper).copy =
          G.type (Ty.inter (g.boundsOf x).upper).copy := by
        rw [h.boundsOf hx, ← G.copy]
        exact congrArg Ty.copy (G.container .upper _).symm
      simp only [Option.map_none, hcopy]
      exact Mimics.fail _
    | some c =>
      have hupper : (g.boundsOf x).upper ≠ [] := by
        intro hempty
        simp [Graph.checkableUpper, hempty, Members.types, Members.ofTypes] at hneeded
      refine (Mimics.noteConversion c).bind fun _ => hnarrow c.target (h.narrow hJ hx hupper hc) ?_
      exact (h.conversion hJ (Lattice.mem_of_bridge? hc)).2

theorem bridgeLower (hx : R side x) (hm : P m) (ht : P t) :
    Mimics G J (Option.map (Conversion.under G)) (bridgeLower x m t)
      (bridgeLower x (G.type m) (G.type t)) := by
  refine Mimics.graph_bind fun g hJ => ?_
  simp only [h.isUnresolved hJ ht, h.isSubtype hJ rfl ht hm, h.implicit? hJ ht hm]
  split
  · exact Mimics.pure none
  · cases g.implicit? t m with
    | none =>
      have hcopy : (Ty.union ((g.under G).boundsOf x).lower).copy =
          G.type (Ty.union (g.boundsOf x).lower).copy := by
        rw [h.boundsOf hx, ← G.copy]
        exact congrArg Ty.copy (G.container .lower _).symm
      simp only [Option.map_none, hcopy]
      exact Mimics.fail _
    | some c => exact (Mimics.noteConversion c).bind fun _ => Mimics.pure (some c)

theorem checkLower (hx : R side x) (hm : P m) :
    Mimics G J (List.map G.type) (checkLower x m) (checkLower x (G.type m)) := by
  refine Mimics.graph_bind fun g hJ => ?_
  have hlower : ((g.under G).boundsOf x).lower = Members.under G (g.boundsOf x).lower := by
    rw [h.boundsOf hx, Bounds.under]
  simp only [h.isUnresolved hJ hm, hlower, Members.types_under]
  split
  · exact Mimics.pure []
  · have hbridge : ∀ l ∈ Members.types (g.boundsOf x).lower,
        Mimics G J (Option.map (Conversion.under G)) (TypeBounds.bridgeLower x m l)
        (TypeBounds.bridgeLower x (G.type m) (G.type l)) := by
      intro l hl
      obtain ⟨e, he, rfl⟩ := Members.mem_types.1 hl
      exact h.bridgeLower hx hm (h.stored hJ .lower x e he)
    refine (Mimics.mapM hbridge).bind fun found => ?_
    have hsources :
        ((found.map (Option.map (Conversion.under G))).filterMap fun c => c.map Conversion.source) =
          (found.filterMap fun c => c.map Conversion.source).map G.type := by
      simp [List.filterMap_map, List.map_filterMap, Function.comp_def, Conversion.under]
    rw [hsources]
    exact Mimics.pure _

theorem joinMember {narrow : VarId → Ty → Infer Unit} (hx : R .lower x) (hm : P m)
    (hnarrow : ∀ t, R .upper x → P t → Mimics G J id (narrow x t) (narrow x (G.type t))) :
    Mimics G J id (joinMember narrow x m) (joinMember narrow x (G.type m)) := by
  refine Mimics.graph_bind fun g hJ => ?_
  have habsorbs : (g.under G).lowerAbsorbs x (G.type m) = g.lowerAbsorbs x m := by
    rw [lowerAbsorbs, h.boundsOf hx]
    refine (List.any_map ..).trans ?_
    exact any_congr_of_mem fun e he => h.isSubtype hJ rfl hm (h.stored hJ .lower x e he)
  rw [habsorbs]
  split
  · exact Mimics.pure false
  · refine (h.checkUpper hx hm hnarrow).bind fun _ => ?_
    refine (Mimics.modify fun g hJ => ?_).bind fun _ => Mimics.pure true
    exact ⟨h.insertLower hJ hx hm, h.insertLower_under hJ hx hm⟩

theorem meetMember {widen : VarId → Ty → Infer Unit} (hx : R .upper x) (hm : P m)
    (hwiden : ∀ t, R .lower x → P t → Mimics G J id (widen x t) (widen x (G.type t))) :
    Mimics G J id (meetMember widen x m) (meetMember widen x (G.type m)) := by
  refine Mimics.graph_bind fun g hJ => ?_
  have habsorbs : (g.under G).upperAbsorbs x (G.type m) = g.upperAbsorbs x m := by
    rw [upperAbsorbs, h.boundsOf hx]
    refine (List.any_map ..).trans ?_
    exact any_congr_of_mem fun e he => h.isSubtype hJ rfl (h.stored hJ .upper x e he) hm
  rw [habsorbs]
  split
  · exact Mimics.pure false
  · refine (h.checkLower hx hm).bind_of fun sources s s' hJ hsources =>
      Mimics.graph_bind fun g' hJ' => ?_
    rw [h.insertUpper_under hJ' hx hm]
    cases hg : g'.insertUpper x m with
    | error e => exact Mimics.fail e
    | ok g'' =>
      have hset : Mimics G J id (modify fun _ => g'') (modify fun _ => g''.under G) :=
        Mimics.modify fun _ _ => ⟨h.insertUpper hJ' hx hm hg, rfl⟩
      refine hset.bind fun _ => (Mimics.forM fun source hsource => ?_).bind fun _ =>
        Mimics.pure true
      -- what has to widen is the source of a conversion
      obtain ⟨c, hc, -, rfl⟩ := mem_of_checkLower hsources source hsource
      exact (Mimics.noteConstraint _).bind fun _ => hwiden _ (h.widen hx) (h.conversion hJ hc).1

theorem visit (hx : R side x) (ht : P t)
    (hnested : ∀ side t, R side x → P t →
      Mimics G J id (nested side x t) (nested side x (G.type t))) :
    Mimics G J id (visit nested side t x) (visit nested side (G.type t) x) := by
  have henter : Mimics G J id (enter nested side t x) (enter nested side (G.type t) x) := by
    rw [enter_eq, enter_eq]
    refine Mimics.graph_bind fun g hJ => ?_
    rw [G.parts, List.filter_map]
    simp only [Function.comp_def, h.isSelf]
    refine Mimics.anyNew fun m hm => ?_
    have hP := h.parts ht m (List.mem_of_mem_filter hm)
    cases side with
    | lower => exact h.joinMember hx hP (hnested .upper)
    | upper => exact h.meetMember hx hP (hnested .lower)
  rw [visit_eq, visit_eq]
  refine henter.bind fun new => ?_
  rw [id_eq]
  split
  · refine Mimics.noteChanged.bind fun _ => (h.recheck x).bind fun _ =>
      Mimics.graph_bind fun g hJ => ?_
    rw [onward_under]
    exact Mimics.pure _
  · exact Mimics.pure []

/-- A visit goes on to neighbours only. -/
theorem mem_of_visit (hx : R side x) {s s' : Progress} {found : List VarId}
    (hvisit : Mimics G J id (TypeBounds.visit nested side t x)
      (TypeBounds.visit nested side (G.type t) x))
    (hJ : J s.graph) (hrun : TypeBounds.visit nested side t x s = (.ok found, s')) :
    ∀ y ∈ found, R side y := by
  have hJ' := (hvisit s hJ).1
  rw [hrun] at hJ'
  rw [visit_eq] at hrun
  obtain ⟨new, s₁, -, hrun⟩ := bind_eq_ok.1 hrun
  split at hrun
  · obtain ⟨_, s₂, -, hrun⟩ := bind_eq_ok.1 hrun
    obtain ⟨_, s₃, -, hrun⟩ := bind_eq_ok.1 hrun
    rw [graph_bind_apply] at hrun
    obtain ⟨rfl, rfl⟩ := pure_eq_ok.1 hrun
    exact h.onward side hJ' hx
  · obtain ⟨rfl, -⟩ := pure_eq_ok.1 hrun
    exact fun y hy => (List.not_mem_nil hy).elim

theorem spreadWithin (depth : Nat) (hx : R side x) (ht : P t) :
    Mimics G J id (spreadWithin depth side x t) (spreadWithin depth side x (G.type t)) := by
  induction depth generalizing side x t with
  | zero => exact Mimics.noteCutOff
  | succ depth ih =>
    refine Mimics.graph_bind fun g hJ => ?_
    rw [ids_under]
    have hvisit (n : VarId) (hn : R side n) := h.visit hn ht fun side t hn ht => ih hn ht
    refine Mimics.exploreM (S := R side) hvisit (fun n s found s' hn hJ hrun => ?_) fun n hn => ?_
    · exact h.mem_of_visit hn (hvisit n hn) hJ hrun
    · rwa [List.mem_singleton.1 hn]

/-- **Propagation** mimics itself. -/
theorem spread (hx : R side x) (ht : P t) :
    Mimics G J id (spread side x t) (spread side x (G.type t)) := by
  refine Mimics.graph_bind fun g hJ => ?_
  rw [spreadDepth_under]
  exact h.spreadWithin _ hx ht

theorem handOn (side : Side) {y : VarId} (hJ : J g) (hx : R side x) (hy : R side y) :
    Mimics G J id (handOn side x ((g.boundsOf y).side side))
      (handOn side x (((g.under G).boundsOf y).side side)) := by
  have hside :
      (((g.under G).boundsOf y).side side) = Members.under G ((g.boundsOf y).side side) := by
    rw [h.boundsOf hy]
    cases side <;> rfl
  have hcopy : (side.container (Members.under G ((g.boundsOf y).side side))).copy =
      G.type (side.container ((g.boundsOf y).side side)).copy := by
    rw [← G.copy, G.container]
    rfl
  rw [hside]
  simp only [TypeBounds.handOn, Members.isEmpty_under, hcopy]
  split
  · exact Mimics.pure ()
  · exact h.spread hx (h.bound hJ side y)

/-- What is passed on is a type under the guise, whenever it is looked up. -/
theorem passOn {res res' : Resolution} {ys : List VarId} (hys : ∀ y ∈ ys, R .lower y)
    (hres : ∀ g, J g → P (res.type (g.boundsOf x)) ∧
      res'.type ((g.under G).boundsOf x) = G.type (res.type (g.boundsOf x))) :
    Mimics G J id (passOn x res ys) (passOn x res' ys) := by
  refine Mimics.forM_same fun y hy => Mimics.graph_bind fun g hJ => ?_
  obtain ⟨hP, htype⟩ := hres g hJ
  rw [htype, G.copy]
  exact h.spread (hys y hy) (h.copy hP)

end Suits

/-! ## Merging -/

/-- **Where a guise suits merging**, of variables as in `Q`. -/
structure SuitsMerging (G : Guise) (P : Ty → Prop) (Q : VarId → Prop) (J : Graph → Prop) : Prop
    extends G.Suits P (fun _ => Q) J where
  linkAcross : ∀ {g : Graph} {x y}, J g → Q x → Q y → J (g.linkAcross x y)
  inheritFrozen : ∀ {g : Graph} {old new}, J g → Q new → J (inheritFrozen old new g)
  cutOff : ∀ {g : Graph} {old new}, J g →
    J (g.cutOff old new) ∧ (g.under G).cutOff old new = (g.cutOff old new).under G
  unregister : ∀ {g : Graph} {x}, J g → Q x → J (g.unregister x)
  coalescesInto? : ∀ {g : Graph} params x, J g →
    (g.under G).coalescesInto? params x = g.coalescesInto? params x
  inSight : ∀ {g : Graph} {x}, J g → g.isFrozen x = false → Q x

namespace SuitsMerging

variable {P : Ty → Prop} {Q : VarId → Prop} {J : Graph → Prop} {lower upper old new : VarId}
  (h : G.SuitsMerging P Q J)

include h

theorem addEdge (hl : Q lower) (hu : Q upper) :
    Mimics G J id (addEdge lower upper) (addEdge lower upper) := by
  rw [addEdge_eq]
  refine Mimics.graph_bind fun g hg => ?_
  have hbelow : ((g.under G).boundsOf upper).below = (g.boundsOf upper).below := by
    rw [boundsOf_under, Guise.record]
  rw [hbelow]
  split
  · exact Mimics.pure ()
  · refine (Mimics.modify fun g hg => ⟨h.linkAcross hg hl hu, linkAcross_under⟩).bind fun _ => ?_
    refine Mimics.noteChanged.bind fun _ => (h.handOn .lower hg hu hl).bind fun _ => ?_
    exact Mimics.graph_bind fun g hg => h.handOn .upper hg hl hu

theorem takeOver (hold : Q old) (hnew : Q new) {lowers uppers : List VarId}
    (hlowers : ∀ x ∈ lowers, Q x) (huppers : ∀ y ∈ uppers, Q y) :
    Mimics G J id (takeOver old new lowers uppers) (takeOver old new lowers uppers) := by
  refine Mimics.graph_bind fun g hg => (h.handOn .lower hg hnew hold).bind fun _ => ?_
  refine Mimics.graph_bind fun g hg => (h.handOn .upper hg hnew hold).bind fun _ => ?_
  refine (Mimics.modify fun g hg => ⟨h.inheritFrozen hg hnew, inheritFrozen_under⟩).bind fun _ => ?_
  refine (Mimics.forM_same fun x hx => ?_).bind fun _ => Mimics.forM_same fun y hy => ?_
  · exact h.addEdge (hlowers x hx) hnew
  · exact h.addEdge hnew (huppers y hy)

/-- **Merging** mimics itself. -/
theorem mergeInto (hold : Q old) (hnew : Q new) :
    Mimics G J id (mergeInto old new) (mergeInto old new) := by
  rw [mergeInto_eq]
  refine Mimics.graph_bind fun g hg => ?_
  rw [below_under, above_under, isPinned_under]
  refine (Mimics.modify fun g hg => h.cutOff hg).bind fun _ => ?_
  -- what is taken over were neighbours, in the graph before the variable was cut off
  refine (h.takeOver hold hnew (fun x hx => ?_) fun y hy => ?_).bind fun _ => ?_
  · exact h.onward .upper hg hold x (List.mem_of_mem_filter hx)
  · exact h.onward .lower hg hold y (List.mem_of_mem_filter hy)
  · split
    · exact Mimics.pure ()
    · exact Mimics.modify fun g hg => ⟨h.unregister hg hold, unregister_under⟩

theorem mergeAll {rep : VarId} (hrep : Q rep) {ids : List VarId}
    (hids : ∀ x ∈ ids, Q x) (params : List VarId) :
    Mimics G J id (mergeAll rep ids params) (mergeAll rep ids params) := by
  induction ids generalizing params with
  | nil => exact Mimics.pure params
  | cons x ids ih =>
    obtain ⟨hx, hids⟩ := List.forall_mem_cons.1 hids
    exact (h.mergeInto hx hrep).bind fun _ => ih hids _

theorem collapse {cs : List (List VarId)} (hcs : ∀ c ∈ cs, ∀ x ∈ c, Q x)
    (params : List VarId) : Mimics G J id (collapse cs params) (collapse cs params) := by
  induction cs generalizing params with
  | nil => exact Mimics.pure params
  | cons c cs ih =>
    obtain ⟨hc, hcs⟩ := List.forall_mem_cons.1 hcs
    rw [collapse_cons]
    split
    · exact ih hcs params
    · rename_i rep hrep
      have hrep : Q rep := hc rep (Natural.mem_sort.1 (mem_of_representative hrep))
      refine (h.mergeAll hrep (fun x hx => ?_) params).bind fun params => ih hcs params
      exact hc x (Natural.mem_sort.1 (List.mem_of_mem_filter hx))

/-- **Coalescing** mimics itself, since what is merged is not fixed and so in sight. -/
theorem coalesceRounds (params : List VarId) (merges : Nat) :
    Mimics G J id (coalesceRounds params merges) (coalesceRounds params merges) := by
  induction merges with
  | zero => exact Mimics.pure ()
  | succ merges ih =>
    refine Mimics.graph_bind fun g hg => ?_
    simp only [typeVariables_under, h.coalescesInto? params _ hg]
    split
    · exact Mimics.pure ()
    · rename_i x param hfound
      obtain ⟨-, hco⟩ := coalescesInto?_of_nextMerge? hfound
      obtain ⟨-, hopen, -, hbelow⟩ := coalescesInto?_eq_some hco
      have hx : Q x := h.inSight hg hopen
      have hparam := h.onward .upper hg hx param (Natural.mem_sort.2 hbelow)
      exact (h.mergeInto hx hparam).bind fun _ => ih

end SuitsMerging

end Guise

/-! ## Operations -/

def Ty.BindError.under (G : Guise) : Ty.BindError → Ty.BindError
  | unidentified t => .unidentified (G.type t)
  | count n => .count n
  | fixedTarget t => .fixedTarget (G.type t)

def Misuse.under (G : Guise) : Misuse → Misuse
  | notOwned t => .notOwned (G.type t)
  | unbindable e => .unbindable (e.under G)
  | m => m

def Fault.under (G : Guise) : Fault → Fault
  | misuse m => .misuse (m.under G)
  | contradiction c => .contradiction (c.under G)
  | ref id r cause => .ref id r (cause.under G)

def Outcome.under (G : Guise) (o : Outcome) : Outcome :=
  ⟨o.graph.under G, o.effect.under G, o.fault.map (Fault.under G)⟩

namespace Graph

variable {P : Ty → Prop} {Q : VarId → Prop} {J : Graph → Prop} {g : Graph}
  {x old new : VarId} {t : Ty}

theorem require_under : (g.under G).require x = (g.require x).map (G.record x) := by
  simp only [require, get?_bounds_under]
  cases g.bounds.get? x <;> rfl

/-- The same variables are registered. -/
theorem isRegistered_under :
    (((g.under G).require x).map fun _ => ()) = (g.require x).map fun _ => () := by
  rw [require_under]
  cases g.require x <;> rfl

theorem under_error_require {m : Misuse} (h : g.require x = .error m) : m.under G = m := by
  unfold require at h
  split at h <;> cases h
  rfl

theorem run_under (hJ : J g) {blame : Contradiction → Fault} {m m' : Infer Unit}
    (hblame : ∀ e, blame (e.under G) = (blame e).under G) (hm : Mimics G J id m m') :
    (g.under G).run blame m' = (g.run blame m).under G := by
  obtain ⟨-, hrun⟩ := hm ⟨g, {}⟩ hJ
  have hrun : m' ⟨g.under G, {}⟩ = _ := hrun
  unfold run
  rw [hrun]
  rcases m ⟨g, {}⟩ with ⟨e | _, s⟩
  · simp [Outcome.under, Progress.under, hblame]
  · rfl

theorem addBound_under (h : G.Suits P (fun _ => Q) J) (hJ : J g) (hx : Q x) (ht : P t) (side : Side)
    (howned : (g.under G).requireOwned (G.type t) = (g.requireOwned t).mapError (Misuse.under G)) :
    (g.under G).addBound side x (G.type t) = (g.addBound side x t).under G := by
  have hcheck :
      (g.under G).checkBound x (G.type t) = (g.checkBound x t).mapError (Misuse.under G) := by
    simp only [checkBound, require_under, howned]
    cases hrequire : g.require x with
    | error m => exact congrArg Except.error (under_error_require hrequire).symm
    | ok b => rfl
  simp only [addBound, hcheck, h.isSelf]
  cases g.checkBound x t with
  | error m => rfl
  | ok _ =>
    change (if g.isSelf x t then _ else _) = Outcome.under G (if g.isSelf x t then _ else _)
    split
    · rfl
    · exact run_under hJ (fun _ => rfl) (h.spread hx ht)

theorem addRef_under (h : G.SuitsMerging P Q J) (hJ : J g) (hx : Q x) {r : Option Reference}
    (hr : ∀ r' ∈ r, Q r'.id) : (g.under G).addRef x r = (g.addRef x r).under G := by
  unfold addRef
  rw [require_under]
  rcases hrequire : g.require x with m | b
  · exact congrArg (refuse _) (under_error_require hrequire).symm
  rcases r with _ | r
  · rfl
  simp only [Except.map, require_under]
  rcases hrequire' : g.require r.id with m | rb
  · exact congrArg (refuse _) (under_error_require hrequire').symm
  have hlower : G.lower r.id = Members.under G :=
    @Guise.Suits.lower _ _ _ _ h.toSuits .lower _ (hr r rfl)
  have hrb : (G.record r.id rb).lower = Members.under G rb.lower := congrFun hlower _
  have hcopy : (Ty.union (Members.under G rb.lower)).copy = G.type (Ty.union rb.lower).copy := by
    rw [← G.copy]
    exact congrArg Ty.copy (G.container .lower _).symm
  simp only [hrb, Members.isEmpty_under, hcopy]
  split
  · split
    · rfl
    · rw [← boundsOf_of_require hrequire']
      have hspread : Mimics G J id (spread .lower x _) (spread .lower x _) :=
        h.spread hx (h.bound hJ .lower r.id)
      exact run_under hJ (fun _ => rfl) hspread
  · split
    · have hbelow : (G.record x b).below.contains x = b.below.contains x := rfl
      by_cases hself : b.below.contains x
      · rw [if_pos hself, if_pos (hbelow.trans hself)]
        rfl
      · rw [if_neg hself, if_neg (hbelow ▸ hself), link_under]
        rfl
    · exact run_under hJ (fun _ => rfl) (h.addEdge (hr r rfl) hx)

theorem merge_under (h : G.SuitsMerging P Q J) (hJ : J g) (hold : Q old) (hnew : Q new) :
    (g.under G).merge old new = (g.merge old new).under G := by
  simp only [merge, require_under]
  rcases hrequire : g.require old with m | b
  · exact congrArg (refuse _) (under_error_require hrequire).symm
  rcases hrequire' : g.require new with m | b'
  · exact congrArg (refuse _) (under_error_require hrequire').symm
  simp only [Except.map]
  split
  · rfl
  · exact run_under hJ (fun _ => rfl) (h.mergeInto hold hnew)

theorem addVariable_under {name : String} {r : Option Reference} :
    (g.under G).addVariable name r = (g.addVariable name r).map (under G) := by
  rcases r with _ | r
  · rfl
  have hrecord :
      (g.under G).bounds.insert r.id {} = (g.bounds.insert r.id {}).mapValues G.record := by
    simp only [Table.insert, contains_bounds_under]
    split
    · have hupdate : (g.under G).update r.id (fun _ => {}) = (g.update r.id fun _ => {}).under G :=
        update_under fun _ => by rw [Guise.record, G.lower_nil, G.upper_nil]
      exact congrArg Graph.bounds hupdate
    · simp [under, Table.mapValues, Guise.record, G.lower_nil, G.upper_nil]
  have hnames : (g.under G).names = g.names := rfl
  simp only [addVariable, hnames, contains_bounds_under, hrecord]
  split
  · rfl
  · split <;> rfl

theorem fixVariable_under (hG : ∀ x b, (G.record x b).completed = G.record x b.completed)
    {name : String} : (g.under G).fixVariable name = (g.fixVariable name).map (under G) := by
  have hreference : (g.under G).reference name = g.reference name := rfl
  simp only [fixVariable, hreference]
  cases g.reference name with
  | error m => rfl
  | ok r =>
    refine congrArg Except.ok ?_
    refine update_under (g := { g with names := g.names.insert name { r with fixed := true } }) ?_
    intro b
    rw [hG]
    rfl

theorem fixParameter_under (hG : ∀ x b, (G.record x b).defaulted = G.record x b.defaulted) :
    (g.under G).fixParameter x = (g.fixParameter x).map (under G) := by
  simp only [fixParameter, require_under]
  cases g.require x with
  | error m => rfl
  | ok b =>
    refine congrArg Except.ok ?_
    refine update_under (g := g.pin x) ?_
    intro b
    rw [hG]
    rfl

end Graph

end TypeBounds
