import TypeBounds.Proofs.Exactness
import TypeBounds.Proofs.Fitting
import TypeBounds.Proofs.Nodes

/-!
# Bounds that settle the same way in every order

What a convertible stands for changes while bounds come in, and so do the answers to the questions
about it. They settle the same way in every order if no answer is ever given up (`Steady`): a
variable gets plain types or one convertible on a side, what a convertible stands for grows on the
side where the convertible is or is given once and for all, and no conversion is made without being
asked for.

* `Given calls side x p`: what the calls give to a variable, by way of all edges;
* `Graph.Within`: a graph that holds nothing but what is given, and then `Within.read`: its resolver
  agrees with its bounds on what a member stands for.
-/

namespace TypeBounds

open Infer Relation

/-! ## What calls give to a variable -/

/-- **What calls give to a variable**: the parts of all types that lead to it, as they come and as
they are stored. -/
def Given (calls : List Call) (side : Side) (x : VarId) (m : Ty) : Prop :=
  ∃ y t p, AddsBound calls side y t ∧ side.Leads (AddsEdge calls) y x ∧ p ∈ side.parts t ∧
    (m = p ∨ m = p.copy)

/-- The plain types that are given to a variable, on whichever side: what a convertible to it comes
to stand for. -/
def GivenPlain (calls : List Call) (x : VarId) (e : Ty) : Prop :=
  e.isConvertible = false ∧ ∃ side, Given calls side x e

/-- **Two types can stand together** above a variable: they do not clash, or one makes the other
superfluous. -/
def Compatible (a b : Ty) : Prop := Graph.clashes a b → Sub a b ∨ Sub b a

/-- **Steady calls.** -/
structure Steady (u : Universe) (l : Lattice) (tag : Nat) (calls : List Call) : Prop where
  /-- On each side a variable is given plain types, or one convertible to another variable. -/
  uniform : ∀ side x, (∀ p, Given calls side x p → Plain u p) ∨
    ∃ var, var ≠ x ∧ ∀ p, Given calls side x p → ∃ cell, p = .asVar cell tag var
  /-- A convertible is to a variable that is given plain types on the same side only, or just
  one. -/
  aligned : ∀ side x cell var, Given calls side x (.asVar cell tag var) →
    (∀ e, Given calls side.other var e → e.isConvertible) ∨
      ∀ e f, GivenPlain calls var e → GivenPlain calls var f → e = f
  /-- No implicit conversion accepts what stands in a lower bound. -/
  quiet : ∀ x p, Given calls .lower x p → ∀ e, StandsFor (GivenPlain calls) p e →
  ∀ a ∈ e.unionParts,
    ∀ c ∈ l.conversions, c.implicit → ¬Sub a c.source
  /-- A type that makes another one superfluous stands together with nothing that the other does
  not. -/
  coherent : ∀ x e q q', Given calls .upper x e → Given calls .upper x q → Given calls .upper x q' →
    Sub e q → Compatible e q' → Compatible q q'

/-- Steady calls to a graph that can tell apart the names of all types and owns what has its tag. -/
structure Regular (u : Universe) (l : Lattice) (tag : Nat) (calls : List Call) : Prop extends
    Steady u l tag calls where
  legible : u.Legible
  converts : u.Converts l
  tag_ne : tag ≠ 0

section

variable {u : Universe} {l : Lattice} {tag : Nat} {calls calls' : List Call}
  {side : Side} {x y : VarId} {a b e m p q t : Ty} {cell : Option Nat} {var : VarId}

theorem Side.Leads.addsEdge_mono (hsub : ∀ c ∈ calls, c ∈ calls')
    (h : side.Leads (AddsEdge calls) x y) : side.Leads (AddsEdge calls') x y :=
  h.mono fun _ _ ⟨r, hr, hadd⟩ => ⟨r, hr, hsub _ hadd⟩

/-- What is given goes on along the edges. -/
theorem Given.of_leads (h : Given calls side x m) (hxy : side.Leads (AddsEdge calls) x y) :
    Given calls side y m := by
  obtain ⟨z, t, p, hadd, hzx, hp, hm⟩ := h
  exact ⟨z, t, p, hadd, hzx.trans hxy, hp, hm⟩

/-- Where plain types are given on one side only, it is that side. -/
theorem Given.side_eq {side' : Side} (hother : ∀ e, Given calls side.other x e → e.isConvertible)
    (hm : Given calls side' x m) (hconv : m.isConvertible = false) : side' = side := by
  rcases side.eq_or_eq_other side' with hside | rfl
  · exact hside
  · rw [hother m hm] at hconv
    cases hconv

/-- A stored convertible has no cell: who binds the symbol later does not change the bound. -/
theorem copy_asVar (cell : Option Nat) (owner : Nat) (var : VarId) :
    (Ty.asVar cell owner var).copy = .asVar none owner var := by
  simp [Ty.copy, Ty.mapConvertibles, Ty.detach]

theorem Plain.copy_eq (hu : u.Sound) (hp : Plain u p) : p.copy = p := hp.convertibleFree.copy_eq hu

namespace Steady

/-- What is given is plain, or a convertible to another variable. -/
theorem plain_or_asVar (hs : Steady u l tag calls) (hm : Given calls side x m) :
    Plain u m ∨ ∃ cell var, var ≠ x ∧ m = .asVar cell tag var := by
  rcases hs.uniform side x with hplain | ⟨var, hne, hopen⟩
  · exact .inl (hplain m hm)
  · obtain ⟨cell, rfl⟩ := hopen m hm
    exact .inr ⟨cell, var, hne, rfl⟩

/-- What is given to one variable on one side is compared in the same way by all graphs. -/
theorem isSubtype_iff (hu : u.Legible) (hs : Steady u l tag calls) (ha : Given calls side x a)
    (hb : Given calls side x b) (g : Graph) : g.isSubtype a b ↔ Sub a b := by
  rcases hs.uniform side x with hplain | ⟨var, -, hopen⟩
  · exact TypeBounds.isSubtype_iff hu (hplain a ha).convertibleFree (hplain b hb).convertibleFree
  · obtain ⟨cell, rfl⟩ := hopen a ha
    obtain ⟨cell', rfl⟩ := hopen b hb
    refine iff_of_true ?_ ((sub_iff_under fun _ h => by cases h).2 (.same rfl))
    exact g.lattice.isSubtype_of_name_eq g.resolver rfl

variable (hu : u.Sound) (hs : Steady u l tag calls)

include hu hs

/-- What was stored once is stored as it is. -/
theorem copy_copy (hm : Given calls side x m) :
    m.copy.copy = m.copy := by
  rcases hs.plain_or_asVar hm with hm | ⟨cell, var, -, rfl⟩
  · rw [hm.copy_eq hu]
    exact hm.copy_eq hu
  · rw [copy_asVar, copy_asVar]

/-- What is given is also given as it is stored. -/
theorem given_copy (hm : Given calls side x m) :
    Given calls side x m.copy := by
  have hm' := hm
  obtain ⟨y, t, p, hadd, hyx, hp, rfl | rfl⟩ := hm
  · exact ⟨y, t, m, hadd, hyx, hp, .inr rfl⟩
  · have hself : Given calls side x p := ⟨y, t, p, hadd, hyx, hp, .inl rfl⟩
    rw [hs.copy_copy hu hself]
    exact hm'

/-- Types are taken apart before they are stored, so no member is a container of its own side. -/
theorem ne_container (hm : Given calls side x m) (ms : Members) :
    m ≠ side.container ms := by
  obtain ⟨y, t, p, hadd, hyx, hp, hm⟩ := hm
  have hgiven : Given calls side x p := ⟨y, t, p, hadd, hyx, hp, .inl rfl⟩
  rcases hs.plain_or_asVar hgiven with hplain | ⟨cell, var, -, rfl⟩
  · rw [hplain.copy_eq hu, or_self] at hm
    rw [hm]
    exact side.ne_container_of_mem_parts hp ms
  · rw [copy_asVar] at hm
    rcases hm with rfl | rfl <;> cases side <;> exact fun h => by cases h

/-- No convertible leads back to its own variable. -/
theorem isSelf_eq (hm : Given calls side x m) (g : Graph) :
    g.isSelf x m = false := by
  rcases hs.plain_or_asVar hm with hm | ⟨cell, var, hne, rfl⟩
  · exact hm.convertibleFree.isSelf_eq hu
  · rw [Graph.isSelf, decide_eq_false hne, Bool.and_false]

/-- A copy is as good as what it is a copy of. -/
theorem sub_copy_iff (ha : Given calls side x a)
    (hb : Given calls side x b) : (Sub a b.copy ↔ Sub a b) ∧ (Sub a.copy b ↔ Sub a b) := by
  rcases hs.uniform side x with hplain | ⟨var, -, hopen⟩
  · rw [(hplain a ha).copy_eq hu, (hplain b hb).copy_eq hu]
    exact ⟨.rfl, .rfl⟩
  · obtain ⟨cell, rfl⟩ := hopen a ha
    obtain ⟨cell', rfl⟩ := hopen b hb
    have hall (cell cell' : Option Nat) : Sub (.asVar cell tag var) (.asVar cell' tag var) :=
      (sub_iff_under fun _ h => by cases h).2 (.same rfl)
    rw [copy_asVar, copy_asVar]
    exact ⟨iff_of_true (hall _ _) (hall _ _), iff_of_true (hall _ _) (hall _ _)⟩

/-- Also for convertibles, which are compared by their names. -/
theorem sub_refl (ha : Given calls side x a) : Sub a a := by
  rcases hs.plain_or_asVar ha with ha | ⟨cell, var, -, rfl⟩
  · exact ha.convertibleFree.sub_refl hu
  · exact (sub_iff_under fun _ h => by cases h).2 (.same rfl)

end Steady

/-! ## What a convertible resolves to -/

namespace Members

variable {ms : Members} {f : Ty → Bool}

theorem types_filter : types (ms.filter fun m => f m.2) = (types ms).filter f := by
  rw [types, types, List.filter_map]
  rfl

/-- Members keep their keys, so fewer of them are still told apart. -/
theorem Keyed.filter (h : Keyed ms) (f : Ty → Bool) : Keyed (ms.filter fun m => f m.2) where
  key m hm := h.key m (List.mem_of_mem_filter hm)
  nodup := h.nodup.sublist (List.filter_sublist.map _)

/-- Picking members out of a container keeps them in their places. -/
theorem Keyed.ofTypes_filter (h : Keyed ms) (f : Ty → Bool) :
    ofTypes ((types ms).filter f) = ms.filter fun m => f m.2 := by
  rw [← types_filter]
  exact (h.filter f).ofTypes_types

/-- The members that are no convertibles. -/
def settled (ms : Members) : Members := ms.filter fun m => !m.2.isConvertible

theorem mem_types_settled : e ∈ types (settled ms) ↔ e ∈ types ms ∧ e.isConvertible = false := by
  rw [settled, types_filter (f := fun e => !e.isConvertible), List.mem_filter, Bool.not_eq_true']

/-- A container whose members are all the same has one member. -/
theorem Keyed.eq_singleton (h : Keyed ms) (hne : ms ≠ [])
    (hall : ∀ e ∈ types ms, ∀ f ∈ types ms, e = f) : ∃ k e, ms = [(k, e)] := by
  match ms, h, hne, hall with
  | [(k, e)], _, _, _ => exact ⟨k, e, rfl⟩
  | m :: m' :: ms, h, _, hall =>
    have hsame : m.2 = m'.2 :=
      hall m.2 (List.mem_cons_self ..) m'.2 (List.mem_cons_of_mem _ (List.mem_cons_self ..))
    -- equal members would have equal keys
    have hkey : m.1 = m'.1 := by
      rw [h.key m (List.mem_cons_self ..),
        h.key m' (List.mem_cons_of_mem _ (List.mem_cons_self ..)), hsame]
    have hnodup := h.nodup
    rw [keys, List.map_cons, List.map_cons, hkey, List.nodup_cons] at hnodup
    exact absurd (List.mem_cons_self ..) hnodup.1

/-- The size limits how deep a question is unrolled, and fewer members do not raise it. -/
theorem sizeAll_le_of_sublist {ms' : Members} (h : ms.Sublist ms') :
    Ty.sizeAll ms ≤ Ty.sizeAll ms' := by
  induction h with
  | slnil => exact le_rfl
  | cons m _ ih =>
    rw [Ty.sizeAll]
    omega
  | cons_cons m _ ih =>
    rw [Ty.sizeAll, Ty.sizeAll]
    omega

end Members

/-- A convertible stands for the members of one bound that are no convertibles, if there are any. -/
theorem Bounds.standsFor?_cases {b : Bounds} (hkeyed : ∀ side, (b.side side).Keyed) :
    (∀ side, Members.settled (b.side side) = []) ∧ b.standsFor? = none ∨
      ∃ side, Members.settled (b.side side) ≠ [] ∧
        b.standsFor? = some (Members.collapse side.container (Members.settled (b.side side))) := by
  have hlower : Members.ofTypes ((Members.types b.lower).filter (!·.isConvertible)) =
      Members.settled b.lower :=
    (hkeyed .lower).ofTypes_filter _
  have hupper : Members.ofTypes ((Members.types b.upper).filter (!·.isConvertible)) =
      Members.settled b.upper :=
    (hkeyed .upper).ofTypes_filter _
  unfold Bounds.standsFor?
  dsimp only
  rw [hlower, hupper]
  rcases hls : Members.settled b.lower with _ | ⟨m, ls⟩
  · rcases hus : Members.settled b.upper with _ | ⟨m, us⟩
    · refine .inl ⟨fun side => ?_, rfl⟩
      cases side
      · exact hls
      · exact hus
    · refine .inr ⟨.upper, ?_⟩
      rw [Bounds.side, hus]
      exact ⟨List.cons_ne_nil m us, rfl⟩
  · refine .inr ⟨.lower, ?_⟩
    rw [Bounds.side, hls]
    exact ⟨List.cons_ne_nil m ls, rfl⟩

/-- A single member stands for itself, which is smaller than a container around it. -/
theorem size_collapse_le (side : Side) (ms : Members) :
    (Members.collapse side.container ms).size ≤ (side.container ms).size := by
  rw [size_container]
  match ms with
  | [] => rw [Members.collapse, size_container]; simp
  | [m] =>
    rw [Members.collapse, Ty.sizeAll, Ty.sizeAll]
    omega
  | m :: m' :: ms =>
    rw [Members.collapse, size_container]
    simp

/-- One type says what it says. -/
theorem Side.sums_singleton (side : Side) (he : Plain u e) : side.Sums u (· = e) e := by
  cases side with
  | lower => exact ⟨he, fun a => by simp⟩
  | upper => exact ⟨he.convertibleFree, fun a _ _ => by simp⟩

/-- **The members of a bound, put together**, say what they say together. -/
theorem Side.sums_collapse (hu : u.Legible) (side : Side) {ms : Members} (hkeyed : ms.Keyed)
    (hplain : ∀ e ∈ Members.types ms, Plain u e) :
    side.Sums u (· ∈ Members.types ms) (Members.collapse side.container ms) := by
  have hmember {m : String × Ty} (hm : m ∈ ms) : Plain u m.2 :=
    hplain m.2 (Members.mem_types.2 ⟨m, hm, rfl⟩)
  have hcontainer : side.Sums u (· ∈ Members.types ms) (side.container ms) := by
    cases side with
    | lower =>
      refine ⟨.union hkeyed.key hkeyed.nodup fun m => hmember, fun a => ?_⟩
      simp only [Side.container, mem_unionParts_union, Members.mem_types]
      constructor
      · rintro ⟨m, hm, ha⟩
        exact ⟨m.2, ⟨m, hm, rfl⟩, ha⟩
      · rintro ⟨_, ⟨m, hm, rfl⟩, ha⟩
        exact ⟨m, hm, ha⟩
    | upper =>
      have hcf : ConvertibleFree u (.inter ms) :=
        .container .upper hkeyed.key hkeyed.nodup fun m hm => (hmember hm).convertibleFree
      refine ⟨hcf, fun a ha _ => ?_⟩
      rw [Side.container, sub_inter_iff hu ha hcf]
      simp only [Members.mem_types, forall_exists_index, and_imp, forall_apply_eq_imp_iff₂]
  rcases ms with _ | ⟨⟨k, e⟩, _ | ⟨m', ms⟩⟩
  · exact hcontainer
  · have hiff : (· ∈ Members.types [(k, e)]) = (· = e) := by
      funext a
      exact propext List.mem_singleton
    rw [hiff]
    exact side.sums_singleton (hplain e (List.mem_singleton_self e))
  · exact hcontainer

/-! ## Graphs that hold what is given -/

/-- The plain types that a variable holds, on whichever side. -/
def Graph.Settles (g : Graph) (x : VarId) (e : Ty) : Prop :=
  e.isConvertible = false ∧ ∃ side, e ∈ g.has side x

/-- **The graph holds nothing but what is given.** -/
structure Graph.Within (l : Lattice) (tag : Nat) (calls : List Call) (g : Graph) : Prop where
  lattice : g.lattice = l
  tag : g.tag = tag
  keyed : ∀ side x, ((g.boundsOf x).side side).Keyed
  given : ∀ side x, ∀ e ∈ g.has side x, Given calls side x e ∧ e.copy = e

namespace Graph.Within

variable {g g' : Graph}

/-- The graph holds nothing but what is given, so it settles on nothing else. -/
theorem givenPlain (h : g.Within l tag calls) (he : g.Settles x e) : GivenPlain calls x e := by
  obtain ⟨hconv, side, he⟩ := he
  exact ⟨hconv, side, (h.given side x e he).1⟩

/-- **The kind of a bound**: all its members are plain, or it has one convertible and nothing
else. -/
theorem uniform (hs : Steady u l tag calls) (h : g.Within l tag calls) (side : Side) (x : VarId) :
    (∀ e ∈ g.has side x, Plain u e) ∨ ∃ var, ∀ e ∈ g.has side x, e = .asVar none tag var := by
  rcases hs.uniform side x with hplain | ⟨var, -, hopen⟩
  · exact .inl fun e he => hplain e (h.given side x e he).1
  · refine .inr ⟨var, fun e he => ?_⟩
    obtain ⟨hgiven, hcopy⟩ := h.given side x e he
    obtain ⟨cell, rfl⟩ := hopen e hgiven
    rw [← hcopy, copy_asVar]

/-- What a convertible to a variable resolves to. -/
theorem resolve_eq (htag : tag ≠ 0) (h : g.Within l tag calls) (var : VarId) :
    g.resolver.resolve tag var = (g.boundsOf var).standsFor? := by
  have howns : g.owns tag = true := by
    rw [Graph.owns, h.tag]
    simp [htag]
  change (if g.owns tag then (g.bounds.get? var).bind Bounds.standsFor? else none) = _
  rw [if_pos howns, Graph.boundsOf]
  cases g.bounds.get? var <;> rfl

/-- What a convertible resolves to is no larger than all bounds together. -/
theorem size_le_extent {ms : Members} (hms : ms.Sublist ((g.boundsOf var).side side))
    (hne : ms ≠ []) : (Members.collapse side.container ms).size ≤ g.resolver.extent := by
  -- a variable that is not registered has no members
  have hvar : var ∈ g.ids := by
    by_contra hvar
    rw [Graph.boundsOf_of_not_mem hvar] at hms
    apply hne
    cases side <;> exact List.sublist_nil.1 hms
  obtain ⟨b, hb⟩ := Table.exists_get? hvar
  have hbounds : g.boundsOf var = b := by
    rw [Graph.boundsOf, hb, Option.getD_some]
  rw [hbounds] at hms
  have hle : b.size ≤ g.resolver.extent :=
    le_foldr_add (fun e : VarId × Bounds => e.2.size) (Table.mem_entries_of_get? hb)
  have hside : (side.container (b.side side)).size ≤ b.size := by
    cases side
    · exact Nat.le_add_right ..
    · exact Nat.le_add_left ..
  have hall := Members.sizeAll_le_of_sublist hms
  have hcollapse := size_collapse_le side ms
  rw [size_container] at hcollapse hside
  omega

/-- **What a member stands for** is what the bounds of its variable say. -/
theorem read (hs : Regular u l tag calls) (h : g.Within l tag calls) (hp : Given calls side x p) :
    Read u g g.Settles side p := by
  have hu := hs.legible
  rcases hs.plain_or_asVar hp with hplain | ⟨cell, var, -, rfl⟩
  · exact .plain hplain (hs.ne_container hu.toSound hp)
  have hmem (side : Side) (e : Ty) :
      e ∈ Members.types (Members.settled ((g.boundsOf var).side side)) ↔ e ∈ g.has side var ∧
      e.isConvertible = false := Members.mem_types_settled
  have hplain {e : Ty} (he : g.Settles var e) : Plain u e := by
    obtain ⟨hconv, side, he⟩ := he
    rcases hs.plain_or_asVar (h.given side var e he).1 with he | ⟨_, _, -, rfl⟩
    · exact he
    · cases hconv
  rcases Bounds.standsFor?_cases fun side => h.keyed side var with ⟨hnil, hres⟩ | ⟨side', hne, hres⟩
  · refine .idle ((h.resolve_eq hs.tag_ne var).trans hres) ?_
    rintro e ⟨hconv, side, he⟩
    have he := (hmem side e).2 ⟨he, hconv⟩
    rw [hnil] at he
    exact List.not_mem_nil he
  refine .resolved ((h.resolve_eq hs.tag_ne var).trans hres)
    (size_le_extent List.filter_sublist hne) ?_
  have hkeyed : (Members.settled ((g.boundsOf var).side side')).Keyed :=
    (h.keyed side' var).filter fun e => !e.isConvertible
  have hsettles {e : Ty} (he : e ∈ Members.types (Members.settled ((g.boundsOf var).side side'))) :
      g.Settles var e :=
    ⟨((hmem side' e).1 he).2, side', ((hmem side' e).1 he).1⟩
  rcases hs.aligned side x cell var hp with hother | hone
  · -- there are plain types on the side of the convertible only, and they are put together
    have hside {side'' : Side} {e : Ty} (he : e ∈ g.has side'' var)
    (hconv : e.isConvertible = false) :
        side'' = side := (h.given side'' var e he).1.side_eq hother hconv
    obtain ⟨m, hm⟩ := List.exists_mem_of_ne_nil _ hne
    obtain ⟨he, hconv⟩ := (hmem side' m.2).1 (Members.mem_types.2 ⟨m, hm, rfl⟩)
    obtain rfl := hside he hconv
    have hiff :
    g.Settles var = (· ∈ Members.types (Members.settled ((g.boundsOf var).side side'))) := by
      funext e
      refine propext ⟨?_, hsettles⟩
      rintro ⟨hconv', side'', he'⟩
      obtain rfl := hside he' hconv'
      exact (hmem side'' e).2 ⟨he', hconv'⟩
    rw [hiff]
    exact side'.sums_collapse hu hkeyed fun e he => hplain (hsettles he)
  · -- there is one plain type only, whichever side it is on
    have hsame {e f : Ty} (he : g.Settles var e) (hf : g.Settles var f) : e = f :=
      hone e f (h.givenPlain he) (h.givenPlain hf)
    obtain ⟨k, e, hms⟩ := hkeyed.eq_singleton hne fun e he f hf => hsame (hsettles he) (hsettles hf)
    rw [hms] at hsettles ⊢
    have he := hsettles (List.mem_singleton_self e)
    have hiff : g.Settles var = (· = e) := by
      funext f
      refine propext ⟨fun hf => hsame hf he, ?_⟩
      rintro rfl
      exact he
    rw [hiff]
    exact side.sums_singleton (hplain he)

end Graph.Within

end

end TypeBounds
