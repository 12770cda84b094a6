import Mathlib.Data.List.Find
import Mathlib.Logic.Equiv.Basic
import TypeBounds.Proofs.Guises
import TypeBounds.Proofs.Ownership

/-!
# Types under other tags

Nothing that is asked about types depends on which numbers the graphs have. `Ty.retag` gives the
graphs new tags, one to one, wherever a type mentions them; keys and cells stay as they are. Every
function of types then gives the retagged answer to the retagged question, and answers that hold no
open convertible are the same:

* names, sizes, parts and copies of types, and members coming into a container;
* subtyping and conversions (`Lattice.isSubtype_retag`, `Lattice.implicit?_retag`), with a resolver
  that was retagged as well.
-/

namespace TypeBounds

/-- New tags for graphs, one to one. Tag `0` stays what it is, no graph at all. -/
structure Retagging where
  tag : Nat → Nat
  injective : Function.Injective tag
  zero : tag 0 = 0

namespace Retagging

@[simp] theorem tag_inj (ρ : Retagging) {a b : Nat} : ρ.tag a = ρ.tag b ↔ a = b :=
  ρ.injective.eq_iff

@[simp] theorem tag_eq_zero (ρ : Retagging) {a : Nat} : ρ.tag a = 0 ↔ a = 0 := by
  rw [← ρ.zero, tag_inj, ρ.zero]

/-- Two graphs trade tags. -/
def swap {a b : Nat} (ha : a ≠ 0) (hb : b ≠ 0) : Retagging where
  tag := Equiv.swap a b
  injective := (Equiv.swap a b).injective
  zero := Equiv.swap_apply_of_ne_of_ne ha.symm hb.symm

theorem swap_left {a b : Nat} (ha : a ≠ 0) (hb : b ≠ 0) : (swap ha hb).tag a = b :=
  Equiv.swap_apply_left a b

end Retagging

namespace Ty

mutual

/-- The type with new tags for the owners of its open convertibles, at any depth. -/
def retag (ρ : Retagging) : Ty → Ty
  | mixed => .mixed
  | nominal name kind final parents => .nominal name kind final parents
  | union ms => .union (retagAll ρ ms)
  | inter ms => .inter (retagAll ρ ms)
  | asVar cell owner var => .asVar cell (ρ.tag owner) var
  | asType t => .asType (retag ρ t)

/-- The retagged members, each under the key it had. -/
def retagAll (ρ : Retagging) : Members → Members
  | [] => []
  | (key, t) :: ms => (key, retag ρ t) :: retagAll ρ ms

end

end Ty

/-- The members with new tags. -/
def Members.retag (ρ : Retagging) (ms : Members) : Members := ms.map fun m => (m.1, m.2.retag ρ)

/-! ## Shape -/

namespace Ty

variable {ρ : Retagging} {t a b : Ty} {ms : Members} {side : Side}

theorem retagAll_eq : retagAll ρ ms = Members.retag ρ ms := by
  induction ms with
  | nil => simp [retagAll, Members.retag]
  | cons m ms ih => simpa [retagAll, Members.retag] using ih

@[simp] theorem union_retag : Ty.union (Members.retag ρ ms) = (Ty.union ms).retag ρ := by
  rw [retag, retagAll_eq]

@[simp] theorem inter_retag : Ty.inter (Members.retag ρ ms) = (Ty.inter ms).retag ρ := by
  rw [retag, retagAll_eq]

theorem retag_container : (side.container ms).retag ρ = side.container (Members.retag ρ ms) := by
  cases side <;> simp [Side.container]

@[simp] theorem retag_mixed : Ty.mixed.retag ρ = .mixed := by simp [retag]

/-- Tags are not written, so nothing that goes by names can tell them apart. -/
@[simp] theorem name_retag : (t.retag ρ).name = t.name := by
  induction t using memberInduction with
  | container side ms => rw [retag_container, Members.retag, name_container_map]
  | asType target ih => simp [retag, name, ih]
  | _ => simp [retag, name]

@[simp] theorem isConvertible_retag : (t.retag ρ).isConvertible = t.isConvertible := by
  cases t <;> simp [retag, isConvertible]

/-- A type without open convertibles, in the targets of fixed ones neither, mentions no tag. -/
theorem retag_eq_self (h : t.bindings = []) : t.retag ρ = t := by
  induction t using memberInduction with
  | container side ms ih =>
    have hmembers : Members.retag ρ ms = ms := by
      refine (List.map_congr_left fun m hm => ?_).trans (List.map_id ms)
      rw [ih m hm (bindings_container_eq_nil.1 h m hm)]
      rfl
    rw [retag_container, hmembers]
  | asVar => simp [bindings] at h
  | asType target ih => rw [retag, ih (by simpa [bindings] using h)]
  | _ => simp [retag]

theorem bindings_eq_nil_of_convertibles (h : t.convertibles = []) : t.bindings = [] := by
  refine List.eq_nil_iff_forall_not_mem.2 fun b hb => ?_
  have hnone {s : Ty} (hs : s ∈ t.subterms) : s.isConvertible = false := by
    simpa using List.filter_eq_nil_iff.1 h s hs
  rcases mem_bindings hb with ⟨cell, hs⟩ | ⟨target, hs, -⟩ <;> cases hnone hs

end Ty

namespace Members

variable {ρ : Retagging} {ms : Members} {t : Ty}

@[simp] theorem retag_nil : retag ρ [] = [] := rfl

@[simp] theorem retag_cons {m : String × Ty} :
    retag ρ (m :: ms) = (m.1, m.2.retag ρ) :: retag ρ ms := rfl

@[simp] theorem isEmpty_retag : (retag ρ ms).isEmpty = ms.isEmpty := by simp [retag]

@[simp] theorem types_retag : types (retag ρ ms) = (types ms).map (Ty.retag ρ) := by
  simp [types, retag]

@[simp] theorem ofTypes_retag {ts : List Ty} :
    ofTypes (ts.map (Ty.retag ρ)) = retag ρ (ofTypes ts) :=
  ofTypes_map (fun _ => Ty.name_retag) ts

theorem collapse_retag (side : Side) :
    collapse side.container (retag ρ ms) = (collapse side.container ms).retag ρ := by
  match ms with
  | [] => simp [collapse, Ty.retag_container]
  | [m] => simp [collapse]
  | m :: m' :: ms => simp [collapse, Ty.retag_container]

end Members

namespace Ty

variable {ρ : Retagging} {t a b : Ty} {ms : Members} {side : Side}

/-- Questions are unrolled to the same depth. -/
@[simp] theorem size_retag : (t.retag ρ).size = t.size := by
  induction t using memberInduction with
  | container side ms ih =>
    rw [retag_container, size_container, size_container]
    congr 1
    induction ms with
    | nil => simp
    | cons m ms ihms =>
      simp [sizeAll, ih m (List.mem_cons_self ..),
        ihms fun m hm => ih m (List.mem_cons_of_mem _ hm)]
  | asType target ih => simp [retag, size, ih]
  | _ => simp [retag, size]

@[simp] theorem isFinal_retag : (t.retag ρ).isFinal = t.isFinal := by
  induction t using memberInduction with
  | container side ms ih =>
    have hmembers : anyFinal (Members.retag ρ ms) = anyFinal ms := by
      induction ms with
      | nil => simp
      | cons m ms ihms =>
        simp [anyFinal, ih m (List.mem_cons_self ..),
          ihms fun m hm => ih m (List.mem_cons_of_mem _ hm)]
    rw [retag_container]
    cases side <;> simp only [Side.container, isFinal, hmembers]
  | _ => simp [retag, isFinal]

@[simp] theorem isCombinable_retag : (t.retag ρ).isCombinable = t.isCombinable := by
  induction t using memberInduction with
  | container side ms ih =>
    have hmembers : allCombinable (Members.retag ρ ms) = allCombinable ms := by
      induction ms with
      | nil => simp
      | cons m ms ihms =>
        simp [allCombinable, ih m (List.mem_cons_self ..),
          ihms fun m hm => ih m (List.mem_cons_of_mem _ hm)]
    rw [retag_container]
    cases side <;> simp only [Side.container, isCombinable, hmembers]
  | _ => simp [retag, isCombinable]

/-! ## Parts and copies -/

theorem subtermsAll_retag (h : ∀ m ∈ ms, (m.2.retag ρ).subterms = m.2.subterms.map (retag ρ)) :
    subtermsAll (Members.retag ρ ms) = (subtermsAll ms).map (retag ρ) := by
  induction ms with
  | nil => simp [subtermsAll]
  | cons m ms ih =>
    simp [subtermsAll, h m (List.mem_cons_self ..), ih fun m hm => h m (List.mem_cons_of_mem _ hm)]

@[simp] theorem subterms_retag : (t.retag ρ).subterms = t.subterms.map (retag ρ) := by
  induction t using memberInduction with
  | container side ms ih =>
    rw [retag_container, subterms_container, subterms_container, subtermsAll_retag ih,
      List.map_cons, retag_container]
  | _ => simp [retag, subterms]

@[simp] theorem convertibles_retag : (t.retag ρ).convertibles = t.convertibles.map (retag ρ) := by
  simp [convertibles, List.filter_map, Function.comp_def]

theorem parts_retag (side : Side) : side.parts (t.retag ρ) = (side.parts t).map (retag ρ) := by
  induction t using memberInduction with
  | container side' ms ih =>
    by_cases hside : side' = side
    · subst hside
      rw [retag_container, Side.parts_flatMap, Side.parts_flatMap, Members.retag, List.flatMap_map,
        List.map_flatMap]
      exact List.flatMap_congr ih
    · have hne (ms ms' : Members) : side'.container ms ≠ side.container ms' := by
        cases side <;> cases side' <;> first | exact absurd rfl hside | exact fun h => by cases h
      rw [retag_container, Side.parts_eq _ (hne _), Side.parts_eq _ (hne _), List.map_singleton,
        retag_container]
  | _ => cases side <;> simp [retag, Side.parts, unionParts, interParts]

@[simp] theorem unionParts_retag : (t.retag ρ).unionParts = t.unionParts.map (retag ρ) :=
  parts_retag .lower

@[simp] theorem interParts_retag : (t.retag ρ).interParts = t.interParts.map (retag ρ) :=
  parts_retag .upper

/-- Rebuilding a type: only what the convertibles are replaced by matters. -/
theorem mapConvertibles_retag {f f' : Ty → Ty} (hf : ∀ s, f' (s.retag ρ) = (f s).retag ρ) :
    (t.retag ρ).mapConvertibles f' = (t.mapConvertibles f).retag ρ := by
  induction t using memberInduction with
  | container side ms ih =>
    rw [retag_container, mapConvertibles_container, mapConvertibles_container, retag_container,
      ← Members.ofTypes_retag]
    congr 2
    simpa [Members.retag] using ih
  | asVar cell owner var =>
    have hvar := hf (.asVar cell owner var)
    simpa [retag, mapConvertibles] using hvar
  | asType target =>
    have htype := hf (.asType target)
    simpa [retag, mapConvertibles] using htype
  | _ => simp [retag, mapConvertibles]

theorem mapEach_retag {f f' : Ty → Ty} (hf : ∀ s, f' (s.retag ρ) = (f s).retag ρ) :
    mapEach f' (Members.retag ρ ms) = (mapEach f ms).map (retag ρ) := by
  simp [mapEach_eq, Members.retag, mapConvertibles_retag hf]

@[simp] theorem copy_retag : (t.retag ρ).copy = t.copy.retag ρ := by
  refine mapConvertibles_retag fun s => ?_
  cases s <;> simp [retag, detach]

end Ty

/-! ## Subtyping and conversions -/

/-- The second resolver gives the retagged answers of the first. -/
structure Resolver.Retagged (ρ : Retagging) (r r' : Resolver) : Prop where
  resolve : ∀ owner var, r'.resolve (ρ.tag owner) var = (r.resolve owner var).map (Ty.retag ρ)
  extent : r'.extent = r.extent

/-- A convertible stands for the same type, under the other tags. -/
theorem Resolver.Retagged.target? {ρ : Retagging} {r r' : Resolver} (h : r.Retagged ρ r') (t : Ty) :
    r'.target? (t.retag ρ) = (r.target? t).map (Ty.retag ρ) := by
  cases t <;> simp [Ty.retag, Resolver.target?, h.resolve]

namespace Lattice

variable {ρ : Retagging} {l : Lattice} {r r' : Resolver} {sub sub' : Ty → Ty → Bool}

section

variable (hl : l.Plain)

include hl

theorem Plain.retag_source {c : Conversion} (hc : c ∈ l.conversions) :
    c.source.retag ρ = c.source := Ty.retag_eq_self (Ty.bindings_eq_nil_of_convertibles (hl c hc).1)

theorem Plain.retag_target {c : Conversion} (hc : c ∈ l.conversions) :
    c.target.retag ρ = c.target := Ty.retag_eq_self (Ty.bindings_eq_nil_of_convertibles (hl c hc).2)

section

variable (hsub : ∀ a b, sub' (a.retag ρ) (b.retag ρ) = sub a b)

include hsub

theorem candidates_retag (a : Ty) :
    l.candidates sub' (a.retag ρ) = l.candidates sub a :=
  candidates_congr Ty.name_retag fun c hc => by rw [← hsub, hl.retag_source hc]

theorem bridge?_retag (a b : Ty) :
    l.bridge? sub' (a.retag ρ) (b.retag ρ) = l.bridge? sub a b := by
  refine bridge?_congr (P := fun _ => True)
    (fun ms _ => ⟨Ty.union_retag.symm, fun m _ => ⟨trivial, hsub ..⟩⟩)
    (fun a _ hne => ⟨fun ms h => ?_, ?_⟩) trivial
  · cases a with
    | union ms => exact hne ms rfl
    | _ => cases h
  · rw [candidates_retag hl hsub]
    refine List.find?_congr fun c hc => ?_
    rw [← hsub, hl.retag_target (mem_conversions_of_mem_candidates hc)]

theorem explicits_retag (a : Ty) :
    l.explicits sub' (a.retag ρ) = l.explicits sub a := by
  simp [explicits, candidates_retag hl hsub]

theorem isConvertible_retag (a b : Ty) :
    l.isConvertible sub' (a.retag ρ) (b.retag ρ) = l.isConvertible sub a b := by
  have hany : (l.explicits sub a).any (fun c => sub' c.target (b.retag ρ)) =
      (l.explicits sub a).any fun c => sub c.target b := by
    refine any_congr_of_mem fun c hc => ?_
    rw [← hsub, hl.retag_target (mem_conversions_of_mem_candidates (List.mem_of_mem_filter hc))]
  simp [isConvertible, bridge?_retag hl hsub, explicits_retag hl hsub, hany]

end

/-- **One step of the rules**: they look at names and members, and at owners only through the
resolver. -/
theorem subtypeStep_retag (hr : r.Retagged ρ r')
    (hsub : ∀ a b, sub' (a.retag ρ) (b.retag ρ) = sub a b) (a b : Ty) :
    l.subtypeStep r' sub' (a.retag ρ) (b.retag ρ) = l.subtypeStep r sub a b := by
  have hleft (t : Ty) : sub' (a.retag ρ) (t.retag ρ) = sub a t := hsub a t
  have hright (t : Ty) : sub' (t.retag ρ) (b.retag ρ) = sub t b := hsub t b
  have hconvertible (t : Ty) := isConvertible_retag hl hsub a t
  simp only [subtypeStep, Ty.name_retag]
  -- the questions passed on are about `a` or `b` as a whole, so these are opened with their
  -- retagged forms
  generalize ha : a.retag ρ = a' at *
  generalize hb : b.retag ρ = b' at *
  split
  · rfl
  · cases a <;> cases b <;> simp only [Ty.retag, Ty.retagAll_eq, Members.retag] at ha hb <;> subst
      ha hb <;> simp [hr.resolve, hleft, hright, hconvertible, Option.any_map, Function.comp_def]

theorem subtypeWithin_retag (hr : r.Retagged ρ r') (depth : Nat) (a b : Ty) :
    l.subtypeWithin r' depth (a.retag ρ) (b.retag ρ) = l.subtypeWithin r depth a b := by
  induction depth generalizing a b with
  | zero => rfl
  | succ depth ih => exact subtypeStep_retag hl hr ih a b

/-- **Subtyping** does not depend on tags. -/
theorem isSubtype_retag (hr : r.Retagged ρ r') (a b : Ty) :
    l.isSubtype r' (a.retag ρ) (b.retag ρ) = l.isSubtype r a b := by
  simp [isSubtype, depth, hr.extent, subtypeWithin_retag hl hr]

theorem implicit?_retag (hr : r.Retagged ρ r') (a b : Ty) :
    l.implicit? r' (a.retag ρ) (b.retag ρ) = l.implicit? r a b :=
  bridge?_retag hl (isSubtype_retag hl hr) a b

end

end Lattice

end TypeBounds
