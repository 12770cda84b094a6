import TypeBounds.Proofs.Generalized
import TypeBounds.Proofs.Guises

/-!
# Upper bounds out of sight

`Graph.veil D` takes the upper bounds of the variables in `D` out of a graph, and its policy with
them. As long as nothing but bare types comes in and propagation does not get to a variable in `D`,
a computation cannot tell the difference: it mimics itself on the veiled graph (`Infer.Overlooks`).

`Shelters` says where propagation may go, so that it overlooks the upper bounds in `D`.
-/

namespace TypeBounds

open Infer

/-- The guise without the policy and without the upper bounds of the variables in `D`. -/
def Guise.veil (D : List VarId) : Guise where
  type t := t
  tag := id
  policy _ := .plain
  lower _ ms := ms
  upper x ms := if x ∈ D then [] else ms
  name _ := rfl
  size _ := rfl
  copy _ := rfl
  clashes _ _ := rfl
  container side ms := by simp
  parts side t := by simp
  lower_nil _ := rfl
  upper_nil _ := ite_self _

/-- **The veiled graph.** -/
abbrev Graph.veil (D : List VarId) (g : Graph) : Graph := g.under (.veil D)

def Progress.veil (D : List VarId) (s : Progress) : Progress := { s with graph := s.graph.veil D }

/-- **Overlooking.** Wherever `J` holds, the computation mimics itself on the veiled graph. -/
abbrev Infer.Overlooks {α : Type} (D : List VarId) (J : Graph → Prop) (m : Infer α) : Prop :=
  Mimics (.veil D) J id m m

theorem Effect.under_veil (D : List VarId) (e : Effect) : e.under (.veil D) = e := by
  have hconversion : e.conversion.map (Conversion.under (.veil D)) = e.conversion := Option.map_id'
  have hconstraints : e.constraints.map (Guise.veil D).type = e.constraints := List.map_id' _
  rw [Effect.under, hconversion, hconstraints]

theorem Progress.under_veil (D : List VarId) (s : Progress) : s.under (.veil D) = s.veil D := by
  rw [Progress.under, Effect.under_veil]
  rfl

/-- What is done on the veiled graph is what is done on the graph. -/
theorem Infer.Overlooks.run {α : Type} {D : List VarId} {J : Graph → Prop} {m : Infer α}
    {s : Progress} (h : Overlooks D J m) (hJ : J s.graph) :
    m (s.veil D) = ((m s).1, (m s).2.veil D) := by
  have hrun := (h s hJ).2
  rw [Progress.under_veil, Progress.under_veil] at hrun
  rw [hrun]
  rcases (m s).1 with e | a
  · cases e <;> rfl
  · rfl

namespace Guise

variable {D : List VarId} {x : VarId} {b : Bounds}

theorem record_veil_of_not_mem (h : x ∉ D) : (veil D).record x b = b := by
  simp only [record, veil, if_neg h]

theorem record_veil_of_mem (h : x ∈ D) : (veil D).record x b = { b with upper := [] } := by
  simp only [record, veil, if_pos h]

end Guise

namespace Graph

variable {D : List VarId} {g : Graph} {x y old new : VarId} {t : Ty}

/-- With nothing out of sight, only the policy differs. -/
theorem veil_nil (g : Graph) : g.veil [] = { g with policy := .plain } := by
  have hbounds : g.bounds.mapValues (Guise.veil []).record = g.bounds := by
    rw [Table.mapValues]
    exact congrArg Table.mk ((List.map_congr_left fun e _ => rfl).trans (List.map_id _))
  rw [veil, under, hbounds]
  rfl

theorem boundsOf_veil_of_not_mem (h : x ∉ D) : (g.veil D).boundsOf x = g.boundsOf x := by
  rw [boundsOf_under, Guise.record_veil_of_not_mem h]

theorem isSelf_veil : (g.veil D).isSelf x t = g.isSelf x t := by cases t <;> rfl

theorem cutOff_veil : (g.veil D).cutOff old new = (g.cutOff old new).veil D := by
  have hrename (g : Graph) (holder : VarId) (ms : Members) :
      (g.veil D).renameMembers holder old new ms = g.renameMembers holder old new ms := by
    have hself (x : VarId) : (g.veil D).isSelf x = g.isSelf x := funext fun t => isSelf_veil
    have hopen : (g.veil D).renameOpen old new = g.renameOpen old new :=
      funext fun t => by cases t <;> rfl
    rw [renameMembers, renameMembers, pointsAt, pointsAt, hself, hself, hopen]
  refine cutOff_under (fun g holder _ ms => hrename g holder ms) fun g holder x ms => ?_
  rw [hrename]
  simp only [Guise.veil]
  split <;> rfl

/-! ## Bare graphs -/

theorem Bare.veil (h : g.Bare) (D : List VarId) : (g.veil D).Bare := by
  refine ⟨h.plain, fun side x m hm => h.stored side x m ?_⟩
  rw [boundsOf_under] at hm
  cases side with
  | lower => exact hm
  | upper =>
    by_cases hx : x ∈ D
    · rw [Guise.record_veil_of_mem hx] at hm
      cases hm
    · rwa [Guise.record_veil_of_not_mem hx] at hm

end Graph

/-! ## Propagation -/

/-- **Where propagation may go** so that it overlooks the upper bounds in `D`. The types of one side
stay within `R` of that side, and so does what a conversion sets off on the other side. -/
structure Shelters (D : List VarId) (R : Side → VarId → Prop) (J : Graph → Prop) : Prop where
  bare : ∀ g, J g → g.Bare
  out : ∀ side x, R side x → x ∉ D
  onward : ∀ g side x, J g → R side x → ∀ y ∈ g.onward side x, R side y
  narrow : ∀ g x m c, J g → R .lower x → (g.boundsOf x).upper ≠ [] →
    g.implicit? m (.inter (g.checkableUpper x)) = some c → R .upper x
  widen : ∀ x, R .upper x → R .lower x
  insertLower : ∀ g x m, m.Bare → R .lower x → J g → J (g.insertLower x m)
  insertUpper : ∀ g g' x m, m.Bare → R .upper x → g.insertUpper x m = .ok g' → J g → J g'

theorem Shelters.suits {D : List VarId} {R : Side → VarId → Prop} {J : Graph → Prop}
    (h : Shelters D R J) : (Guise.veil D).Suits Ty.Bare R J where
  lower _ := funext fun ms => (List.map_id' ms).symm
  upper {side x} hx := by
    funext ms
    exact (if_neg (h.out side x hx)).trans (List.map_id' ms).symm
  isSelf _ _ _ := Graph.isSelf_veil
  isUnresolved _ ht := (Graph.isUnresolved_of_bare ht).trans (Graph.isUnresolved_of_bare ht).symm
  isSubtype _ _ ha hb := Graph.isSubtype_eq ha hb
  implicit? {g a b} hJ ha hb := by
    have hsame : (g.veil D).implicit? a b = g.implicit? a b := (h.bare g hJ).implicit?_eq rfl ha hb
    exact hsame.trans Option.map_id'.symm
  parts ht m hm := ht.of_mem_parts _ hm
  container side _ hms := (Ty.bare_container side).2 hms
  copy ht := ht.copy
  stored hJ := (h.bare _ hJ).stored
  conversion hJ hc := (h.bare _ hJ).conversion hc
  insertLower {g x m} hJ hx hm := h.insertLower g x m hm hx hJ
  insertUpper {g g' x m} hJ hx hm hg := h.insertUpper g g' x m hm hx hg hJ
  recheck x s hJ := by
    -- no convertible points here, so there is nothing to check again
    have hbare := h.bare _ hJ
    rw [recheck_of_bare hbare, recheck_of_bare (s := s.under (.veil D)) (hbare.veil D)]
    exact ⟨hJ, rfl⟩
  onward {g} side x hJ hx := h.onward g side x hJ hx
  narrow hJ hx hupper hc := h.narrow _ _ _ _ hJ hx hupper hc
  widen hx := h.widen _ hx

end TypeBounds
