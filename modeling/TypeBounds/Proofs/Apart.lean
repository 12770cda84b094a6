import TypeBounds.Proofs.Locked
import TypeBounds.Proofs.Ownership
import TypeBounds.Proofs.Sharing

/-!
# Working side by side

Several people work in one session, each on a graph. They may share symbols: a graph stores copies
of what it is given, and the convertibles in its bounds are its own. The one thing that is taken
over as it is is the target of a fixed convertible. As long as nothing in there lives in a cell
(`Ty.Unshared`), and references are not handed from one graph to another, nobody can change a graph
but by work on that very graph:

* `Command` is what somebody can do in a session, `Session.run` what becomes of the session;
* `Session.Apart`: what keeps graphs apart;
* `Session.Apart.perform`: **one command** leaves all graphs alone but the one it is for;
* `Session.Apart.run`: so do any number of them.
-/

namespace TypeBounds

/-- No open convertible in the type lives in a cell: binding a symbol that somebody holds does not
change it. -/
def Ty.Unshared (t : Ty) : Prop := ∀ cell owner var, t.rebind cell owner var = t

/-- What somebody who works on a graph can do in a session. -/
inductive Command where
  | new (name : String) (policy : Policy)
  | fork (name : String)
  /-- an operation that takes no type -/
  | call (c : Call)
  | add (side : Side) (id : VarId) (spec : TypeSpec)
  /-- builds a symbol and keeps it under a handle -/
  | hold (handle : String) (spec : TypeSpec)
  /-- binds the symbol under a handle, whoever built it and wherever it is used -/
  | bind (handle : String) (vars : List VarId)
  /-- asks for a bound and keeps it under a handle -/
  | view (handle : String) (id : VarId) (side : Side)
  /-- gives the reference of a variable to another one -/
  | share (name name' : String)

/-- The operation neither takes a type nor goes on with another graph. -/
def Call.isLocal : Call → Bool
  | bind .. | rebind .. | addLower .. | addUpper .. | fork .. => false
  | _ => true

namespace Session

/-- What a call on a graph takes out of the hands of those who hold it. -/
def loosened (s : Session) (tag : Nat) : Call → Session
  | .fixVariable name => s.untie (tag, name)
  | .merge .. | .generalize .. => s.detach tag
  | _ => s

/-- **What becomes of the session** when a command is given for a graph. A command that fails may
have changed the graph, and nothing else. -/
def serve (s : Session) (g : Graph) : Command → Session
  | .new name policy => s.newGraph name policy
  | .fork name => s.forkGraph g name
  | .call c => (s.loosened g.tag c).keep (c.outcome g).graph
  | .add side id spec =>
    match s.type g spec with
    | .ok t => s.keep (g.addBound side id t).graph
    | .error _ => s
  | .hold handle spec =>
    match s.letHandle g handle spec with
    | .ok (s', _) => s'
    | .error _ => s
  | .bind handle vars =>
    match s.bindHandle g handle vars with
    | .ok s' => s'
    | .error _ => s
  | .view handle id side => s.letBound g handle id side
  | .share name name' =>
    match s.share g name g name' with
    | .ok s' => s'
    | .error _ => s

/-- A command for the graph with the given tag, if there is one. -/
def perform (s : Session) (tag : Nat) (command : Command) : Session :=
  match s.tagged? tag with
  | some g => s.serve g command
  | none => s

/-- **Commands for several graphs**, one after the other. -/
def run (s : Session) (work : List (Nat × Command)) : Session :=
  work.foldl (fun s w => s.perform w.1 w.2) s

/-- A type that is added has nothing in the targets of its fixed convertibles that somebody could
bind. -/
def Permits (s : Session) (tag : Nat) : Command → Prop
  | .call c => c.isLocal
  | .add _ _ spec => ∀ g t, s.tagged? tag = some g → s.type g spec = .ok t →
    t.Every (Leaf Ty.Unshared)
  | _ => True

/-- All commands are permitted when it is their turn. -/
def Permitted : Session → List (Nat × Command) → Prop
  | _, [] => True
  | s, w :: work => w.1 ≠ 0 ∧ s.Permits w.1 w.2 ∧ (s.perform w.1 w.2).Permitted work

/-- **Graphs are kept apart.** They own what is in their bounds, and no reference is in the hands of
two of them. -/
structure Apart (s : Session) : Prop where
  plain : s.lattice.Plain
  leaves : s.lattice.Leaves Ty.Unshared
  numbered : ∀ i g, s.graphs[i]? = some g → g.tag = i + 1
  graphs : ∀ g ∈ s.graphs, g.Owner g.tag Ty.Unshared
  ties : ∀ holders ∈ s.ties, ∀ a ∈ holders, ∀ b ∈ holders, a.1 = b.1

end Session

theorem Ty.Unshared.rebind {t : Ty} (h : t.Unshared) (cell owner : Nat) (var : String) :
    (t.rebind cell owner var).Unshared := by
  rw [h cell owner var]
  exact h

/-- **Binding a symbol** does not change a graph that owns what is in its bounds. -/
theorem Graph.Owner.rebindCell_eq {g : Graph} {tag : Nat} (h : g.Owner tag Ty.Unshared)
    (cell owner : Nat) (var : VarId) : g.rebindCell cell owner var = g := by
  have hnodes {t : Ty} (ht : t.Keeps tag g.ids Ty.Unshared) : t.rebind cell owner var = t := by
    induction t using Ty.memberInduction with
    | mixed => rfl
    | nominal =>
      have hstored : Stored tag g.ids Ty.Unshared _ := Ty.every_nominal.1 ht
      exact hstored cell owner var
    | container side ms ih =>
      rw [Ty.rebind_container]
      refine congrArg side.container ((List.map_congr_left fun m hm => ?_).trans ms.map_id)
      rw [ih m hm ((Ty.every_container.1 ht).2 m hm), id]
    | asVar c o v =>
      rw [Ty.rebind, (Ty.every_asVar.1 ht).1]
      rfl
    | asType target =>
      have hstored : Stored tag g.ids Ty.Unshared _ := Ty.every_asType.1 ht
      exact congrArg Ty.asType (hstored cell owner var)
  have hmembers (side : Side) (x : VarId) :
      Ty.rebindMembers cell owner var ((g.boundsOf x).side side) = (g.boundsOf x).side side := by
    have hsame := hnodes (h.owning.stored side x)
    rw [Ty.rebind_container, ← Ty.rebindMembers_eq] at hsame
    exact Side.container_inj hsame
  have hbounds : g.bounds.mapValues (fun _ b => { b with
      lower := Ty.rebindMembers cell owner var b.lower
      upper := Ty.rebindMembers cell owner var b.upper }) = g.bounds.mapValues fun _ b => b :=
    h.wellFormed.mapValues_congr fun x =>
      congrArg₂ (fun lower upper => { g.boundsOf x with lower, upper }) (hmembers .lower x)
        (hmembers .upper x)
  rw [Graph.rebindCell, hbounds, Table.mapValues, List.map_id']

/-! ## One command -/

namespace Session

variable {s s' : Session} {g g' : Graph} {tag : Nat} {name : String}

/-- **Work on one graph** keeps graphs apart, and leaves the others as they are. -/
structure Moves (tag : Nat) (s s' : Session) : Prop where
  apart : s'.Apart
  spared : ∀ other g, other ≠ 0 → other ≠ tag → s.tagged? other = some g → s'.tagged? other = some g

section

variable (hs : s.Apart)

include hs

theorem Apart.stays (tag : Nat) : Moves tag s s := ⟨hs, fun _ _ _ _ hg => hg⟩

/-- What does not touch graphs and references. -/
theorem Apart.of_graphs (hlattice : s'.lattice = s.lattice) (hgraphs : s'.graphs = s.graphs)
    (hties : s'.ties = s.ties) (tag : Nat) : Moves tag s s' := by
  refine ⟨⟨hlattice ▸ hs.plain, hlattice ▸ hs.leaves, hgraphs ▸ hs.numbered, hgraphs ▸ hs.graphs,
    hties ▸ hs.ties⟩, fun other g _ _ hg => ?_⟩
  rw [tagged?, hgraphs]
  exact hg

theorem Apart.owner (hg : s.tagged? tag = some g) (htag : tag ≠ 0) :
    g.tag = tag ∧ g.Owner tag Ty.Unshared := by
  have hnumber := hs.numbered _ _ hg
  have heq : g.tag = tag := by omega
  exact ⟨heq, heq ▸ hs.graphs g (List.mem_of_getElem? hg)⟩

/-- No reference is in the hands of another graph. -/
theorem Apart.followed_eq {other : Graph} (hne : other.tag ≠ g'.tag) :
    s.followed g' other = other := by
  have htied (name : String) : s.tied? g' (other.tag, name) = none := by
    have hfind :
        (s.ties.filter (·.contains (other.tag, name))).flatten.find? (·.1 = g'.tag) = none := by
      refine List.find?_eq_none.2 fun holder hholder => ?_
      obtain ⟨holders, hholders, hmem⟩ := List.mem_flatten.1 hholder
      obtain ⟨hties, hcontains⟩ := List.mem_filter.1 hholders
      have hsame := hs.ties holders hties _ (List.contains_iff_mem.1 hcontains) holder hmem
      simpa [← hsame] using hne
    unfold tied?
    rw [hfind]
    rfl
  simp [followed, Table.mapValues, htied]

/-- **What has become of a graph** is kept in its place. -/
theorem Apart.keep (hg : s.tagged? tag = some g) (htag : tag ≠ 0)
    (howner : g'.Owner tag Ty.Unshared) : Moves tag s (s.keep g') := by
  have htag' : g'.tag = tag := howner.owning.tag_eq
  obtain ⟨hlt, -⟩ := List.getElem?_eq_some_iff.1 hg
  have hgraphs (i : Nat) :
      (s.keep g').graphs[i]? = if i = tag - 1 then some g' else s.graphs[i]? := by
    refine List.getElem?_set.trans ?_
    rw [htag', List.length_map]
    split
    · rename_i heq
      rw [if_pos heq.symm]
    · rename_i hne
      rw [if_neg (Ne.symm hne), List.getElem?_map]
      cases hother : s.graphs[i]? with
      | none => rfl
      | some other =>
        have hnumber := hs.numbered i other hother
        exact congrArg some (hs.followed_eq (by omega))
  refine ⟨⟨hs.plain, hs.leaves, fun i g₁ hg₁ => ?_, fun g₁ hg₁ => ?_, hs.ties⟩,
    fun other g₁ hpos hne hg₁ => ?_⟩
  · rw [hgraphs] at hg₁
    split at hg₁
    · cases hg₁
      omega
    · exact hs.numbered i g₁ hg₁
  · obtain ⟨i, hi⟩ := List.mem_iff_getElem?.1 hg₁
    rw [hgraphs] at hi
    split at hi
    · cases hi
      exact htag' ▸ howner
    · exact hs.graphs g₁ (List.mem_of_getElem? hi)
  · exact (hgraphs (other - 1)).trans ((if_neg (by omega)).trans hg₁)

/-- **A new graph** comes after all the others. -/
theorem Apart.put (tag : Nat) (name : String) (howner : g'.Owner s.nextTag Ty.Unshared) :
    Moves tag s (s.put name g') := by
  have htag : g'.tag = s.graphs.length + 1 := howner.owning.tag_eq
  refine ⟨⟨hs.plain, hs.leaves, fun i g hg => ?_, ?_, hs.ties⟩, fun other g _ _ hg => ?_⟩
  · rw [Session.put, List.getElem?_append] at hg
    split at hg
    · exact hs.numbered i g hg
    · rw [List.getElem?_singleton] at hg
      split at hg
      · cases hg
        omega
      · cases hg
  · exact List.forall_mem_append.2 ⟨hs.graphs, List.forall_mem_singleton.2 (htag ▸ howner)⟩
  · obtain ⟨hlt, -⟩ := List.getElem?_eq_some_iff.1 hg
    exact (List.getElem?_append_left hlt).trans hg

/-- **Binding a symbol** changes no graph at all. -/
theorem Apart.bindHandle {vars : List VarId} (hbind : s.bindHandle g name vars = .ok s')
    (tag : Nat) : Moves tag s s' := by
  unfold Session.bindHandle at hbind
  split at hbind
  · cases hbind
    exact hs.stays tag
  · split at hbind
    · cases hbind
    · rename_i loc _ _ cell owner var _
      cases hbind
      have hgraphs : (s.graphs.map fun g => g.rebindCell loc owner var) = s.graphs :=
        (List.map_congr_left fun g hg => (hs.graphs g hg).rebindCell_eq loc owner var).trans
          (List.map_id' _)
      exact hs.of_graphs (by rfl) (by exact hgraphs) (by rfl) tag
    · cases hbind
      exact hs.stays tag

/-- **Sharing a reference** inside of a graph. -/
theorem Apart.share (hg : s.tagged? g.tag = some g) (htag : g.tag ≠ 0) {name' : String}
    (hshare : s.share g name g name' = .ok s') : Moves g.tag s s' := by
  obtain ⟨r, -, hshare⟩ := Universe.except_bind_eq_ok hshare
  obtain ⟨g', hg', hshare⟩ := Universe.except_bind_eq_ok hshare
  cases hshare
  have howner := (hs.owner hg htag).2
  -- whatever was tied to the variable is a variable of the graph as well
  have hmine (holder : Holder)
      (h : holder ∈ (g.tag, name') :: (g.tag, name) ::
        (s.ties.partition (·.contains (g.tag, name))).1.flatten) :
      holder.1 = g.tag := by
    rw [List.partition_eq_filter_filter, List.mem_cons, List.mem_cons] at h
    rcases h with rfl | rfl | h
    · rfl
    · rfl
    · obtain ⟨holders, hholders, hmem⟩ := List.mem_flatten.1 h
      obtain ⟨hties, hcontains⟩ := List.mem_filter.1 hholders
      exact hs.ties holders hties holder hmem _ (List.contains_iff_mem.1 hcontains)
  have hapart : Apart { s with ties := ((g.tag, name') :: (g.tag, name) ::
      (s.ties.partition (·.contains (g.tag, name))).1.flatten) ::
        (s.ties.partition (·.contains (g.tag, name))).2 } := by
    refine { hs with
      ties := List.forall_mem_cons.2 ⟨fun a ha b hb => ?_, fun holders hholders => ?_⟩ }
    · exact (hmine a ha).trans (hmine b hb).symm
    · rw [List.partition_eq_filter_filter] at hholders
      exact hs.ties holders (List.mem_of_mem_filter hholders)
  have hkept := hapart.keep hg htag (howner.addVariable hg')
  exact ⟨hkept.apart, hkept.spared⟩

/-- Letting go of something leaves graphs and the other ties. -/
theorem Apart.loosened (tag : Nat) (c : Call) : Moves tag s (s.loosened tag c) := by
  cases c with
  | fixVariable name =>
    refine ⟨{ hs with ties := fun holders hholders a ha b hb => ?_ }, fun _ _ _ _ hg => hg⟩
    obtain ⟨holders', hmem, rfl⟩ := List.mem_map.1 hholders
    exact hs.ties holders' hmem a (List.mem_of_mem_filter ha) b (List.mem_of_mem_filter hb)
  | merge => exact hs.of_graphs (by rfl) (by rfl) (by rfl) tag
  | generalize => exact hs.of_graphs (by rfl) (by rfl) (by rfl) tag
  | _ => exact hs.stays tag

/-- **One command** leaves all graphs alone but the one it is for. -/
theorem Apart.perform (htag : tag ≠ 0) {command : Command} (hpermits : s.Permits tag command) :
    Moves tag s (s.perform tag command) := by
  unfold Session.perform
  split
  · rename_i g hg
    obtain ⟨rfl, howner⟩ := hs.owner hg htag
    cases command with
    | new name policy =>
      exact hs.put g.tag name (.empty (Nat.succ_ne_zero _) hs.plain hs.leaves policy)
    | fork name => exact hs.put g.tag name (howner.fork (Nat.succ_ne_zero _))
    | call c =>
      have hkept : (c.outcome g).graph.Owner g.tag Ty.Unshared := by
        refine Call.owner_of_ne_fork (fun _ _ _ _ ht => ht.rebind _ _ _) ?_ ?_ howner
        · cases c <;> trivial
        · rintro tag rfl
          cases hpermits
      have hloosened := hs.loosened g.tag c
      have hsame : (s.loosened g.tag c).tagged? g.tag = s.tagged? g.tag := by cases c <;> rfl
      have hmoved := hloosened.apart.keep (hsame.trans hg) htag hkept
      exact ⟨hmoved.apart, fun other g' hpos hne hg' => hmoved.spared other g' hpos hne
        (hloosened.spared other g' hpos hne hg')⟩
    | add side id spec =>
      simp only [serve]
      split
      · rename_i t ht
        exact hs.keep hg htag (howner.addBound side id (hpermits g t hg ht))
      · exact hs.stays g.tag
    | hold handle spec =>
      simp only [serve]
      split
      · rename_i s' _ hlet
        unfold letHandle at hlet
        cases hbuild : s.build g s.heap spec with
        | error e =>
          rw [hbuild] at hlet
          cases hlet
        | ok r =>
          rw [hbuild] at hlet
          cases hlet
          exact hs.of_graphs (by rfl) (by rfl) (by rfl) g.tag
      · exact hs.stays g.tag
    | bind handle vars =>
      simp only [serve]
      split
      · rename_i s' hbind
        exact hs.bindHandle hbind g.tag
      · exact hs.stays g.tag
    | view handle id side =>
      refine hs.of_graphs ?_ ?_ ?_ g.tag <;> simp only [serve, letBound] <;> split <;> split <;> rfl
    | share name name' =>
      simp only [serve]
      split
      · rename_i s' hshare
        exact hs.share hg htag hshare
      · exact hs.stays g.tag
  · exact hs.stays tag

end

/-! ## Any number of commands -/

/-- **Any number of commands** keep graphs apart, and leave a graph alone that none of them is
for. -/
theorem Apart.run (hs : s.Apart) {work : List (Nat × Command)} (hwork : s.Permitted work) :
    (s.run work).Apart ∧ ∀ other g, other ≠ 0 → (∀ w ∈ work, w.1 ≠ other) →
      s.tagged? other = some g →
      (s.run work).tagged? other = some g := by
  induction work generalizing s with
  | nil => exact ⟨hs, fun _ _ _ _ hg => hg⟩
  | cons w work ih =>
    obtain ⟨htag, hpermits, hwork⟩ := hwork
    have hmoved := hs.perform htag hpermits
    obtain ⟨hs', hspared⟩ := ih hmoved.apart hwork
    refine ⟨hs', fun other g hpos hall hg => ?_⟩
    obtain ⟨hne, hall⟩ := List.forall_mem_cons.1 hall
    exact hspared other g hpos hall (hmoved.spared other g hpos hne.symm hg)

theorem permitted_append {work more : List (Nat × Command)} :
    s.Permitted (work ++ more) ↔ s.Permitted work ∧ (s.run work).Permitted more := by
  induction work generalizing s with
  | nil => simp [Permitted, Session.run]
  | cons w work ih => simp [Permitted, ih, and_assoc, Session.run]

end Session

end TypeBounds
