import TypeBounds.Proofs.Insertion
import TypeBounds.Session

/-!
# What a session shows

The symbols that callers hold live in the heap of a session, and some of them are bounds of its
graphs. `Session.keep` shows a changed graph to all of them. This module says what that comes to:

* `Session.Shows`: every bound that was handed out looks like the bound it is, and it stays so
  (`Session.Shows.keep`);
* `Session.Shows.cells_keep`: a symbol changes only if it is a bound that has changed;
* `Session.tagged?_keep`: another graph changes only in references that it has in common with the
  graph.
-/

namespace TypeBounds

/-- Writing to places leaves alone what is not among them, and what is written there anyway. -/
theorem getElem?_foldl_set {vs : List View} {f : View → Cell} {cells : List Cell} {loc : Loc}
    (h : ∀ v ∈ vs, v.loc = loc → cells[loc]? = some (f v)) :
    (vs.foldl (fun cells v => cells.set v.loc (f v)) cells)[loc]? = cells[loc]? := by
  induction vs generalizing cells with
  | nil => rfl
  | cons v vs ih =>
    obtain ⟨hv, hvs⟩ := List.forall_mem_cons.1 h
    have hset : (cells.set v.loc (f v))[loc]? = cells[loc]? := by
      by_cases hloc : v.loc = loc
      · subst hloc
        obtain ⟨hlt, -⟩ := List.getElem?_eq_some_iff.1 (hv rfl)
        rw [List.getElem?_set_self hlt, hv rfl]
      · exact List.getElem?_set_ne hloc
    rw [List.foldl_cons, ih fun w hw hloc => hset.trans (hvs w hw hloc), hset]

theorem getElem?_foldl_set_of_mem {vs : List View} {f : View → Cell} {cells : List Cell} {v : View}
    (hnodup : (vs.map View.loc).Nodup) (hv : v ∈ vs) (hlt : v.loc < cells.length) :
    (vs.foldl (fun cells v => cells.set v.loc (f v)) cells)[v.loc]? = some (f v) := by
  induction vs generalizing cells with
  | nil => cases hv
  | cons w vs ih =>
    obtain ⟨hw, hnodup⟩ := List.nodup_cons.1 hnodup
    rw [List.foldl_cons]
    rcases List.mem_cons.1 hv with rfl | hv
    · have hrest (w : View) (hmem : w ∈ vs) (hloc : w.loc = v.loc) :
          (cells.set v.loc (f v))[v.loc]? = some (f w) := absurd (List.mem_map.2 ⟨w, hmem, hloc⟩) hw
      rw [getElem?_foldl_set hrest, List.getElem?_set_self hlt]
    · exact ih hnodup hv (by rwa [List.length_set])

namespace Session

variable {s s' : Session} {g g' other : Graph} {tag : Nat} {v : View} {loc : Loc}

/-- **The session shows its graphs as they are.** They are numbered in order, and every bound that
was handed out is a symbol of its own which looks like the bound. -/
structure Shows (s : Session) : Prop where
  numbered : ∀ i g, s.graphs[i]? = some g → g.tag = i + 1
  distinct : (s.views.map View.loc).Nodup
  shown : ∀ v ∈ s.views, v.tag ≠ 0 ∧ s.heap.cells[v.loc]? = some (.constant (s.bound v))

theorem bound_eq (hg : s.tagged? v.tag = some g) :
    s.bound v = v.side.container ((g.boundsOf v.id).side v.side) := by
  unfold bound
  rw [hg]
  cases v.side <;> rfl

/-- What was shown is shown again, whatever has become of the graphs. -/
theorem shows_refresh (hnumbered : ∀ i g, s.graphs[i]? = some g → g.tag = i + 1)
    (hdistinct : (s.views.map View.loc).Nodup)
    (hshown : ∀ v ∈ s.views, v.tag ≠ 0 ∧ v.loc < s.heap.cells.length) : s.refresh.Shows where
  numbered := hnumbered
  distinct := hdistinct
  shown v hv := ⟨(hshown v hv).1, getElem?_foldl_set_of_mem hdistinct hv (hshown v hv).2⟩

/-- A symbol stays as it is if the bounds that it shows do. -/
theorem getElem?_refresh
    (h : ∀ v ∈ s.views, v.loc = loc → s.heap.cells[loc]? = some (.constant (s.bound v))) :
    s.refresh.heap.cells[loc]? = s.heap.cells[loc]? :=
  getElem?_foldl_set h

theorem tagged?_keep_self (hg : s.tagged? g'.tag = some g) :
    (s.keep g').tagged? g'.tag = some g' := by
  obtain ⟨hlt, -⟩ := List.getElem?_eq_some_iff.1 hg
  exact List.getElem?_set_self (by simpa using hlt)

/-- **Another graph** follows where it has references in common with the graph. -/
theorem tagged?_keep (hne : g'.tag ≠ tag) (hg' : g'.tag ≠ 0) (htag : tag ≠ 0) :
    (s.keep g').tagged? tag = (s.tagged? tag).map (s.followed g') := by
  have hindex : g'.tag - 1 ≠ tag - 1 := by omega
  exact (List.getElem?_set_ne hindex).trans List.getElem?_map

/-- **Variables that are tied** to each other have the same reference. -/
def Tied (s : Session) : Prop :=
  ∀ g ∈ s.graphs, ∀ other ∈ s.graphs, ∀ e ∈ other.names.entries, ∀ r,
    s.tied? g (other.tag, e.1) = some r → r = e.2

/-- A graph that has kept its references changes no other one. -/
theorem Tied.tagged?_keep (h : s.Tied) (hg : s.tagged? g.tag = some g) (htags : g'.tag = g.tag)
    (hnames : g'.names = g.names) (hne : tag ≠ g.tag) (hg' : g.tag ≠ 0) (htag : tag ≠ 0) :
    (s.keep g').tagged? tag = s.tagged? tag := by
  have htied (holder : Holder) : s.tied? g' holder = s.tied? g holder := by
    unfold tied?
    rw [htags, hnames]
  rw [Session.tagged?_keep (htags ▸ hne.symm) (htags ▸ hg') htag]
  cases hother : s.tagged? tag with
  | none => rfl
  | some other =>
    have hmem : other ∈ s.graphs := List.mem_of_getElem? hother
    have hentries :
        (other.names.entries.map fun e => (e.1, (s.tied? g' (other.tag, e.1)).getD e.2)) =
        other.names.entries := by
      refine (List.map_congr_left fun e he => ?_).trans (List.map_id _)
      rw [htied]
      cases hr : s.tied? g (other.tag, e.1) with
      | none => rfl
      | some r => rw [h g (List.mem_of_getElem? hg) other hmem e he r hr, Option.getD_some, id]
    rw [Option.map_some, followed, Table.mapValues, hentries]

theorem Shows.keep (h : s.Shows) (hg' : g'.tag ≠ 0) : (s.keep g').Shows := by
  refine shows_refresh (fun i g₁ hg₁ => ?_) h.distinct fun v hv => ?_
  · rw [List.getElem?_set] at hg₁
    split at hg₁
    · split at hg₁
      · cases hg₁
        omega
      · cases hg₁
    · rw [List.getElem?_map] at hg₁
      obtain ⟨g₂, hg₂, rfl⟩ := Option.map_eq_some_iff.1 hg₁
      exact h.numbered i g₂ hg₂
  · obtain ⟨htag, hcell⟩ := h.shown v hv
    exact ⟨htag, (List.getElem?_eq_some_iff.1 hcell).1⟩

/-- **What callers hold** changes only where it is a bound of the graph that has changed. -/
theorem Shows.cells_keep (h : s.Shows) (hg : s.tagged? g'.tag = some g) (hg' : g'.tag ≠ 0)
    (hsame : ∀ v ∈ s.views, v.loc = loc → v.tag = g'.tag →
      (g'.boundsOf v.id).side v.side = (g.boundsOf v.id).side v.side) :
    (s.keep g').heap.cells[loc]? = s.heap.cells[loc]? := by
  refine getElem?_refresh fun v hv hloc => ?_
  obtain ⟨htag, hcell⟩ := h.shown v hv
  rw [← hloc, hcell, Option.some.injEq, Cell.constant.injEq]
  by_cases hmine : v.tag = g'.tag
  · have hself : (s.keep g').tagged? v.tag = some g' := hmine ▸ tagged?_keep_self hg
    have hnow : (s.keep g').bound v = _ := bound_eq hself
    rw [bound_eq (hmine ▸ hg), ← hsame v hv hloc hmine, ← hnow]
    rfl
  · have hother : (s.keep g').tagged? v.tag = (s.tagged? v.tag).map (s.followed g') :=
      tagged?_keep (Ne.symm hmine) hg' htag
    have hnow : s.bound v = (s.keep g').bound v := by
      unfold bound
      rw [hother, Option.map_map]
      rfl
    exact hnow

end Session

end TypeBounds
