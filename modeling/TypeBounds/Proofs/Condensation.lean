import Mathlib.Data.List.Induction
import Mathlib.Data.List.Pairwise
import Mathlib.Data.List.Perm.Subperm
import TypeBounds.Components
import TypeBounds.Proofs.Reach
import TypeBounds.Table

/-!
# The condensation of a graph

What a list of strongly connected components has to be (`IsCondensation`) does not depend on what
the nodes are. It is asked of the search on numbers, `ComponentSearch.Lawful`, and proved of the
names that `stronglyConnected` gives back, for every lawful search:

* `reachable_lt`: an edge into another component leads to strictly fewer nodes. Sorting by that
  number is what puts successors first in `Digraph.components`, which is lawful (`Search.standard`);
* `filterMap_ofNodes`: numbering the nodes drops repetitions only;
* `path_ofNodes`: paths through listed names are paths through their numbers, though the edges from
  a node to itself are gone;
* `IsCondensation.subset`: the components are determined by the paths. Two lawful searches differ in
  the order of components only (`Search.stronglyConnected_perm`).
-/

namespace TypeBounds

open Relation

/-- **The condensation** of the graph with the given nodes and successors: its components,
successors first. Paths only go through nodes that are listed. -/
structure IsCondensation {α : Type} [BEq α] (nodes : List α) (next : α → List α)
    (cs : List (List α)) : Prop where
  /-- each of the distinct nodes is in one component, and in one place of it -/
  partition : cs.flatten.Perm nodes.eraseDups
  /-- there are no empty components -/
  nonempty : [] ∉ cs
  /-- a component holds the nodes that lead to each other -/
  connected : ∀ m ∈ nodes, ∀ n ∈ nodes,
    (∃ c ∈ cs, m ∈ c ∧ n ∈ c) ↔ Path nodes next m n ∧ Path nodes next n m
  /-- no edge leads to a later component: what a component leads to comes before it -/
  successors : cs.Pairwise fun c d => ∀ n ∈ c, ∀ m ∈ next n, m ∉ d

/-- The nodes of each component are in the order of their first occurrence. -/
def InOrder {α : Type} [BEq α] (nodes : List α) (cs : List (List α)) : Prop :=
  ∀ c ∈ cs, c.Pairwise fun m n => nodes.idxOf m < nodes.idxOf n

/-! ## What determines a condensation -/

namespace IsCondensation

variable {α : Type} [BEq α] [LawfulBEq α] {nodes : List α} {next : α → List α}
  {cs cs' : List (List α)} {c : List α} {m n : α}

section

variable (h : IsCondensation nodes next cs)

include h

theorem mem_nodes (hc : c ∈ cs) (hn : n ∈ c) : n ∈ nodes :=
  List.mem_eraseDups.1 (h.partition.mem_iff.1 (List.mem_flatten.2 ⟨c, hc, hn⟩))

theorem nodup_flatten : cs.flatten.Nodup :=
  h.partition.nodup_iff.2 (nodup_eraseDups nodes)

theorem pairwise_disjoint : cs.Pairwise List.Disjoint :=
  (List.nodup_flatten.1 h.nodup_flatten).2

/-- No component is listed twice: it would not be disjoint from itself. -/
theorem nodup : cs.Nodup := by
  refine h.pairwise_disjoint.imp_of_mem fun {c d} hc _ hdisjoint hcd => ?_
  subst hcd
  obtain ⟨n, hn⟩ := List.exists_mem_of_ne_nil c fun hnil => h.nonempty (hnil ▸ hc)
  exact hdisjoint hn hn

theorem path (hc : c ∈ cs) (hm : m ∈ c) (hn : n ∈ c) :
    Path nodes next m n :=
  ((h.connected m (h.mem_nodes hc hm) n (h.mem_nodes hc hn)).1 ⟨c, hc, hm, hn⟩).1

/-- A component is what one of its nodes leads to and back from. -/
theorem mem_iff (hc : c ∈ cs) (hn : n ∈ c) :
    m ∈ c ↔ m ∈ nodes ∧ Path nodes next m n ∧ Path nodes next n m := by
  have hnodes := h.mem_nodes hc hn
  constructor
  · intro hm
    exact ⟨h.mem_nodes hc hm, h.path hc hm hn, h.path hc hn hm⟩
  · rintro ⟨hm, hpaths⟩
    obtain ⟨d, hd, hmd, hnd⟩ := (h.connected m hm n hnodes).2 hpaths
    have hcd : d = c := by
      by_contra hne
      have : Std.Symm (@List.Disjoint α) := ⟨fun _ _ hdisjoint => hdisjoint.symm⟩
      exact h.pairwise_disjoint.forall hd hc hne hnd hn
    exact hcd ▸ hmd

/-- **Components are determined** by the paths, and the places in them by the order of the nodes. -/
theorem subset (ho : InOrder nodes cs)
    (h' : IsCondensation nodes next cs') (ho' : InOrder nodes cs') : cs ⊆ cs' := by
  intro c hc
  obtain ⟨n, hn⟩ := List.exists_mem_of_ne_nil c fun hnil => h.nonempty (hnil ▸ hc)
  obtain ⟨c', hc', hn', -⟩ :=
    (h'.connected n (h.mem_nodes hc hn) n (h.mem_nodes hc hn)).2 ⟨.refl, .refl⟩
  have hnodup {d : List α} (hd : d.Pairwise fun m n => nodes.idxOf m < nodes.idxOf n) : d.Nodup :=
    hd.imp fun hlt heq => absurd (heq ▸ hlt) (Nat.lt_irrefl _)
  have hperm : c.Perm c' := by
    refine (List.perm_ext_iff_of_nodup (hnodup (ho c hc)) (hnodup (ho' c' hc'))).2 fun m => ?_
    rw [h.mem_iff hc hn, h'.mem_iff hc' hn']
  have hcc : c = c' := by
    refine hperm.eq_of_pairwise (fun a b _ _ hab hba => ?_) (ho c hc) (ho' c' hc')
    exact absurd hab (Nat.lt_asymm hba)
  exact hcc ▸ hc'

theorem perm (ho : InOrder nodes cs)
    (h' : IsCondensation nodes next cs') (ho' : InOrder nodes cs') : cs.Perm cs' := by
  refine (List.perm_ext_iff_of_nodup h.nodup h'.nodup).2 fun c => ?_
  exact ⟨fun hc => h.subset ho h' ho' hc, fun hc => h'.subset ho' h ho hc⟩

end

end IsCondensation

/-! ## Searching on numbers -/

/-- The nodes are distinct, and edges lead from nodes to other nodes. -/
structure Digraph.Simple (d : Digraph) : Prop where
  nodup : d.nodes.Nodup
  source : ∀ e ∈ d.edges, e.1 ∈ d.nodes
  target : ∀ e ∈ d.edges, e.2 ∈ d.nodes
  loopless : ∀ e ∈ d.edges, e.1 ≠ e.2

/-- **What is known of a search**: it condenses every graph of this kind. -/
def ComponentSearch.Lawful (search : ComponentSearch) : Prop :=
  ∀ d : Digraph, d.Simple → IsCondensation d.nodes d.next (search d)

namespace Digraph

section

variable {d : Digraph} {m n : Nat} {c c' : List Nat}

theorem mem_next : m ∈ d.next n ↔ (n, m) ∈ d.edges := by
  simp [next]

/-- The nodes that lead to `n` and back. -/
def componentOf (d : Digraph) (n : Nat) : List Nat :=
  let reached :=
    fun n => ((d.nodes.map fun n => (n, reachable d.nodes d.next [n])).lookup n).getD []
  d.nodes.filter fun m => (reached n).contains m && (reached m).contains n

theorem lookup_map_self {β : Type} {nodes : List Nat} (f : Nat → β) (h : n ∈ nodes) :
    (nodes.map fun n => (n, f n)).lookup n = some (f n) := by
  induction nodes with
  | nil => cases h
  | cons k nodes ih =>
    rw [List.map_cons, List.lookup_cons]
    by_cases hk : n = k
    · simp [hk]
    · rw [beq_false_of_ne hk]
      exact ih ((List.mem_cons.1 h).resolve_left hk)

section

variable (hd : d.nodes.Nodup) (hn : n ∈ d.nodes)

include hd hn

theorem mem_reachable_singleton :
    m ∈ reachable d.nodes d.next [n] ↔ Path d.nodes d.next n m := by
  simp [mem_reachable hd, hn]

theorem mem_componentOf :
    m ∈ d.componentOf n ↔
      m ∈ d.nodes ∧ Path d.nodes d.next n m ∧ Path d.nodes d.next m n := by
  simp only [componentOf, List.mem_filter, Bool.and_eq_true, List.contains_iff_mem]
  refine and_congr_right fun hm => ?_
  rw [lookup_map_self _ hn, lookup_map_self _ hm, Option.getD_some, Option.getD_some,
    mem_reachable_singleton hd hn, mem_reachable_singleton hd hm]

theorem mem_componentOf_self : n ∈ d.componentOf n :=
  (mem_componentOf hd hn).2 ⟨hn, .refl, .refl⟩

/-- Whoever is in a component has the same component. -/
theorem componentOf_eq (hm : m ∈ d.componentOf n) :
    d.componentOf m = d.componentOf n := by
  obtain ⟨hmn, hto, hfrom⟩ := (mem_componentOf hd hn).1 hm
  have hfilter (k : Nat) : d.componentOf k = d.nodes.filter (· ∈ d.componentOf k) := by
    refine List.filter_congr fun x hx => ?_
    simp [componentOf, hx]
  rw [hfilter m, hfilter n]
  refine List.filter_congr fun x hx => ?_
  rw [decide_eq_decide, mem_componentOf hd hmn, mem_componentOf hd hn]
  refine and_congr_right fun _ => ⟨fun h => ?_, fun h => ?_⟩
  · exact ⟨hto.trans h.1, h.2.trans hfrom⟩
  · exact ⟨hfrom.trans h.1, h.2.trans hto⟩

end

theorem mem_components : c ∈ d.components ↔ ∃ n ∈ d.nodes, c = d.componentOf n := by
  simp only [components, mem_sortBy, List.mem_eraseDups, List.mem_map, componentOf]
  exact exists_congr fun n => and_congr_right fun _ => eq_comm

theorem eq_componentOf (hd : d.nodes.Nodup) (hc : c ∈ d.components) (hn : n ∈ c) :
    n ∈ d.nodes ∧ c = d.componentOf n := by
  obtain ⟨m, hm, rfl⟩ := mem_components.1 hc
  exact ⟨((mem_componentOf hd hm).1 hn).1, (componentOf_eq hd hm hn).symm⟩

theorem ne_nil_of_mem_components (hd : d.nodes.Nodup) (hc : c ∈ d.components) : c ≠ [] := by
  obtain ⟨n, hn, rfl⟩ := mem_components.1 hc
  exact List.ne_nil_of_mem (mem_componentOf_self hd hn)

theorem nodup_components : d.components.Nodup :=
  (sortBy_perm _ _).nodup_iff.2 (nodup_eraseDups _)

theorem flatten_components (hd : d.nodes.Nodup) : d.components.flatten.Perm d.nodes := by
  have hdisjoint : d.components.Pairwise List.Disjoint := by
    refine nodup_components.imp_of_mem fun {c c'} hc hc' hne x hxc hxc' => hne ?_
    rw [(eq_componentOf hd hc hxc).2, (eq_componentOf hd hc' hxc').2]
  have hnodup : d.components.flatten.Nodup := by
    refine List.nodup_flatten.2 ⟨fun c hc => ?_, hdisjoint⟩
    obtain ⟨n, -, rfl⟩ := mem_components.1 hc
    exact hd.filter _
  refine (List.perm_ext_iff_of_nodup hnodup hd).2 fun n => ?_
  rw [List.mem_flatten]
  constructor
  · rintro ⟨c, hc, hn⟩
    exact (eq_componentOf hd hc hn).1
  · intro hn
    exact ⟨_, mem_components.2 ⟨n, hn, rfl⟩, mem_componentOf_self hd hn⟩

/-! ### How many nodes are reached -/

/-- **A path that does not lead back** leads to strictly fewer nodes. -/
theorem reachable_lt (hd : d.nodes.Nodup) (hn : n ∈ d.nodes) (hto : Path d.nodes d.next n m)
    (hback : ¬Path d.nodes d.next m n) :
    (reachable d.nodes d.next [m]).length < (reachable d.nodes d.next [n]).length := by
  have hm : m ∈ d.nodes := hto.mem hn
  have hnodup : (n :: reachable d.nodes d.next [m]).Nodup :=
    List.nodup_cons.2 ⟨fun h => hback ((mem_reachable_singleton hd hm).1 h),
      nodup_explore hd (Nat.le_refl _)⟩
  have hsub : n :: reachable d.nodes d.next [m] ⊆ reachable d.nodes d.next [n] := by
    intro x hx
    rcases List.mem_cons.1 hx with rfl | hx
    · exact (mem_reachable_singleton hd hn).2 .refl
    · exact (mem_reachable_singleton hd hn).2 (hto.trans ((mem_reachable_singleton hd hm).1 hx))
  exact (List.subperm_of_subset hnodup hsub).length_le

/-- How many nodes a component reaches, read off the same table as in `componentOf`. -/
def weight (d : Digraph) (c : List Nat) : Nat :=
  let reached :=
    fun n => ((d.nodes.map fun n => (n, reachable d.nodes d.next [n])).lookup n).getD []
  (c.head?.map fun n => (reached n).length).getD 0

theorem weight_cons (hn : n ∈ d.nodes) :
    d.weight (n :: c) = (reachable d.nodes d.next [n]).length := by
  simp [weight, lookup_map_self _ hn]

/-- **Components are sorted** by how many nodes they reach. -/
theorem components_sorted : d.components.Pairwise fun c c' => d.weight c ≤ d.weight c' := by
  have hsorted : d.components.Pairwise fun c c' => decide (d.weight c ≤ d.weight c') := by
    refine sortBy_pairwise (fun c c' => ?_) (fun a _ b _ c _ hab hbc => ?_)
    · simpa using Nat.le_total _ _
    · exact decide_eq_true ((of_decide_eq_true hab).trans (of_decide_eq_true hbc))
  exact hsorted.imp of_decide_eq_true

/-- An edge into another component: that one reaches strictly fewer nodes. -/
theorem weight_lt (hd : d.nodes.Nodup) (hc : c ∈ d.components) (hc' : c' ∈ d.components)
    (hne : c ≠ c') (hn : n ∈ c) (hnm : m ∈ d.next n) (hm : m ∈ c') :
    d.weight c' < d.weight c := by
  obtain ⟨p, cs, rfl⟩ := List.exists_cons_of_ne_nil (ne_nil_of_mem_components hd hc)
  obtain ⟨q, cs', rfl⟩ := List.exists_cons_of_ne_nil (ne_nil_of_mem_components hd hc')
  obtain ⟨hp, hpc⟩ := eq_componentOf hd hc (List.mem_cons_self ..)
  obtain ⟨hmd, hmc⟩ := eq_componentOf hd hc' hm
  have hpn : Path d.nodes d.next p n := ((mem_componentOf hd hp).1 (hpc ▸ hn)).2.1
  have hmq : Path d.nodes d.next m q :=
    ((mem_componentOf hd hmd).1 (hmc ▸ List.mem_cons_self ..)).2.1
  have hto : Path d.nodes d.next p q := (hpn.tail ⟨hnm, hmd⟩).trans hmq
  rw [weight_cons hp, weight_cons (hto.mem hp)]
  refine reachable_lt hd hp hto fun hback => hne ?_
  -- a path back puts both heads into one component
  have hpq : q ∈ d.componentOf p := (mem_componentOf hd hp).2 ⟨hto.mem hp, hto, hback⟩
  calc p :: cs = d.componentOf p := hpc
    _ = d.componentOf q := (componentOf_eq hd hp hpq).symm
    _ = q :: cs' := (eq_componentOf hd hc' (List.mem_cons_self ..)).2.symm

end

/-- **The search to run the program with** is lawful. -/
theorem lawful_components : ComponentSearch.Lawful components := by
  intro d hd
  have hnodup := hd.nodup
  refine ⟨?_, fun hc => ne_nil_of_mem_components hnodup hc rfl, fun m hm n hn => ?_, ?_⟩
  · rw [eraseDups_of_nodup hnodup]
    exact flatten_components hnodup
  · constructor
    · rintro ⟨c, hc, hmc, hnc⟩
      have hn' := (mem_componentOf hnodup hm).1 ((eq_componentOf hnodup hc hmc).2 ▸ hnc)
      exact hn'.2
    · intro h
      exact ⟨_, mem_components.2 ⟨m, hm, rfl⟩, mem_componentOf_self hnodup hm,
        (mem_componentOf hnodup hm).2 ⟨hn, h⟩⟩
  · refine (components_sorted.and nodup_components).imp_of_mem ?_
    rintro c c' hc hc' ⟨hle, hne⟩ n hn m hnm hm
    exact absurd (weight_lt hnodup hc hc' hne hn hnm hm) (Nat.not_lt.2 hle)

end Digraph

/-! ## Names and numbers -/

section

variable {nodes : List String} {next : String → List String} {m n : String} {i j : Nat}

theorem mem_nodes_ofNodes :
    i ∈ (Digraph.ofNodes nodes next).nodes ↔ ∃ n ∈ nodes, nodes.idxOf n = i := by
  simp [Digraph.ofNodes]

theorem mem_edges_ofNodes : (i, j) ∈ (Digraph.ofNodes nodes next).edges ↔
    ∃ n ∈ nodes, ∃ m ∈ next n, m ∈ nodes ∧ m ≠ n ∧ nodes.idxOf n = i ∧ nodes.idxOf m = j := by
  simp only [Digraph.ofNodes, List.mem_flatMap, List.mem_map, List.mem_filter, Bool.and_eq_true,
    List.contains_iff_mem, bne_iff_ne, Prod.mk.injEq, and_assoc]

theorem simple_ofNodes (nodes : List String) (next : String → List String) :
    (Digraph.ofNodes nodes next).Simple := by
  have hedge (e : Nat × Nat) (he : e ∈ (Digraph.ofNodes nodes next).edges) :
      ∃ n ∈ nodes, ∃ m ∈ next n, m ∈ nodes ∧ m ≠ n ∧ nodes.idxOf n = e.1 ∧ nodes.idxOf m = e.2 :=
    mem_edges_ofNodes.1 he
  refine ⟨?_, fun e he => ?_, fun e he => ?_, fun e he heq => ?_⟩
  · refine List.Nodup.map_on (fun a ha b hb hab => ?_) (nodup_eraseDups nodes)
    exact (List.idxOf_inj (List.mem_eraseDups.1 ha)).1 hab
  · obtain ⟨n, hn, _, _, _, _, hi, _⟩ := hedge e he
    exact mem_nodes_ofNodes.2 ⟨n, hn, hi⟩
  · obtain ⟨_, _, m, _, hm, _, _, hj⟩ := hedge e he
    exact mem_nodes_ofNodes.2 ⟨m, hm, hj⟩
  · obtain ⟨n, hn, m, _, hm, hne, hi, hj⟩ := hedge e he
    exact hne ((List.idxOf_inj hm).1 (hj.trans (heq.symm.trans hi.symm)))

/-- **Paths by number.** An edge from a node to itself adds nothing to a path. -/
theorem path_ofNodes (hm : m ∈ nodes) :
    Path (Digraph.ofNodes nodes next).nodes (Digraph.ofNodes nodes next).next
      (nodes.idxOf m) (nodes.idxOf n) ↔ Path nodes next m n := by
  constructor
  · intro hp
    suffices h : ∀ j, Path (Digraph.ofNodes nodes next).nodes (Digraph.ofNodes nodes next).next
        (nodes.idxOf m) j → ∃ k ∈ nodes, nodes.idxOf k = j ∧ Path nodes next m k by
      obtain ⟨k, hk, hkn, hp⟩ := h _ hp
      exact (List.idxOf_inj hk).1 hkn ▸ hp
    intro j hp
    induction hp with
    | refl => exact ⟨m, hm, rfl, .refl⟩
    | tail _ hop ih =>
      obtain ⟨k, hk, rfl, hp⟩ := ih
      obtain ⟨k', hk', l, hl, hln, -, hkk, hlj⟩ := mem_edges_ofNodes.1 (Digraph.mem_next.1 hop.1)
      obtain rfl := (List.idxOf_inj hk').1 hkk
      exact ⟨l, hln, hlj, hp.tail ⟨hl, hln⟩⟩
  · intro hp
    induction hp with
    | refl => exact .refl
    | @tail k l hpath hop ih =>
      by_cases hlk : l = k
      · rw [hlk]
        exact ih
      · refine ih.tail ⟨Digraph.mem_next.2 (mem_edges_ofNodes.2 ?_), mem_nodes_ofNodes.2 ?_⟩
        · exact ⟨k, Path.mem hpath hm, l, hop.1, hop.2, hlk, rfl, rfl⟩
        · exact ⟨l, hop.2, rfl⟩

theorem getElem?_idxOf_eq (hn : n ∈ nodes) : nodes[nodes.idxOf n]? = some n := by
  rw [List.getElem?_eq_getElem (List.idxOf_lt_length_iff.2 hn), List.getElem_idxOf]

/-- The names of a component of numbers, in order. -/
def namesOf (nodes : List String) (component : List Nat) : List String :=
  (sortBy (fun i j => decide (i ≤ j)) component).filterMap (nodes[·]?)

theorem namesOf_perm (nodes : List String) (c : List Nat) :
    (namesOf nodes c).Perm (c.filterMap (nodes[·]?)) :=
  (sortBy_perm _ c).filterMap _

theorem mem_namesOf {c : List Nat} (hc : ∀ i ∈ c, i ∈ (Digraph.ofNodes nodes next).nodes) :
    n ∈ namesOf nodes c ↔ n ∈ nodes ∧ nodes.idxOf n ∈ c := by
  rw [(namesOf_perm nodes c).mem_iff, List.mem_filterMap]
  constructor
  · rintro ⟨i, hi, hn⟩
    obtain ⟨m, hm, rfl⟩ := mem_nodes_ofNodes.1 (hc i hi)
    rw [getElem?_idxOf_eq hm, Option.some.injEq] at hn
    exact hn ▸ ⟨hm, hi⟩
  · rintro ⟨hn, hi⟩
    exact ⟨_, hi, getElem?_idxOf_eq hn⟩

/-- Numbers in order are names in the order of their first occurrence. -/
theorem pairwise_namesOf {c : List Nat} (hc : ∀ i ∈ c, i ∈ (Digraph.ofNodes nodes next).nodes)
    (hnodup : c.Nodup) : (namesOf nodes c).Pairwise fun m n => nodes.idxOf m < nodes.idxOf n := by
  have hsorted : (sortBy (fun i j => decide (i ≤ j)) c).Pairwise fun i j => decide (i ≤ j) := by
    refine sortBy_pairwise (fun i j => by simpa using Nat.le_total i j)
      fun i _ j _ k _ hij hjk => ?_
    exact decide_eq_true ((of_decide_eq_true hij).trans (of_decide_eq_true hjk))
  have hdistinct := (sortBy_perm (fun i j => decide (i ≤ j)) c).nodup_iff.2 hnodup
  refine List.pairwise_filterMap.2 ((hsorted.and hdistinct).imp_of_mem ?_)
  rintro i j hi hj ⟨hle, hne⟩ m hm n hn
  obtain ⟨a, ha, rfl⟩ := mem_nodes_ofNodes.1 (hc i (mem_sortBy.1 hi))
  obtain ⟨b, hb, rfl⟩ := mem_nodes_ofNodes.1 (hc j (mem_sortBy.1 hj))
  rw [getElem?_idxOf_eq ha, Option.some.injEq] at hm
  rw [getElem?_idxOf_eq hb, Option.some.injEq] at hn
  subst hm hn
  exact Nat.lt_of_le_of_ne (of_decide_eq_true hle) hne

theorem flatten_map_namesOf_perm (nodes : List String) (cs : List (List Nat)) :
    (cs.map (namesOf nodes)).flatten.Perm (cs.flatten.filterMap (nodes[·]?)) := by
  induction cs with
  | nil => exact .nil
  | cons c cs ih =>
    rw [List.map_cons, List.flatten_cons, List.flatten_cons, List.filterMap_append]
    exact (namesOf_perm nodes c).append ih

/-- Numbering the distinct nodes and looking the numbers up gives the distinct nodes. -/
theorem filterMap_ofNodes (nodes : List String) (next : String → List String) :
    (Digraph.ofNodes nodes next).nodes.filterMap (nodes[·]?) = nodes.eraseDups := by
  have hback : ∀ n ∈ nodes.eraseDups, nodes[nodes.idxOf n]? = some n :=
    fun n hn => getElem?_idxOf_eq (List.mem_eraseDups.1 hn)
  rw [Digraph.ofNodes, List.filterMap_map]
  exact (List.filterMap_congr hback).trans List.filterMap_some

variable {search : ComponentSearch}

/-- **The names of a condensation** on numbers are a condensation. -/
theorem ComponentSearch.Lawful.isCondensation (hsearch : search.Lawful) (nodes : List String)
    (next : String → List String) :
    IsCondensation nodes next (stronglyConnected search nodes next) ∧
      InOrder nodes (stronglyConnected search nodes next) := by
  have hsimple := simple_ofNodes nodes next
  have hcs := hsearch _ hsimple
  have hsub {c : List Nat} (hc : c ∈ search (.ofNodes nodes next)) :
      ∀ i ∈ c, i ∈ (Digraph.ofNodes nodes next).nodes := fun i hi => hcs.mem_nodes hc hi
  refine ⟨⟨?_, fun hnil => ?_, fun m hm n hn => ?_, ?_⟩, fun c' hc' => ?_⟩
  · refine (flatten_map_namesOf_perm nodes _).trans ?_
    rw [← filterMap_ofNodes nodes next]
    have hpartition := hcs.partition
    rw [eraseDups_of_nodup hsimple.nodup] at hpartition
    exact hpartition.filterMap _
  · obtain ⟨c, hc, hnames⟩ := List.mem_map.1 hnil
    obtain ⟨i, hi⟩ := List.exists_mem_of_ne_nil c fun hnil => hcs.nonempty (hnil ▸ hc)
    obtain ⟨n, hn, rfl⟩ := mem_nodes_ofNodes.1 (hsub hc i hi)
    have hmem : n ∈ namesOf nodes c := (mem_namesOf (hsub hc)).2 ⟨hn, hi⟩
    exact List.ne_nil_of_mem hmem hnames
  · rw [← path_ofNodes hm, ← path_ofNodes hn, ← hcs.connected _ (mem_nodes_ofNodes.2 ⟨m, hm, rfl⟩)
      _ (mem_nodes_ofNodes.2 ⟨n, hn, rfl⟩)]
    constructor
    · rintro ⟨c', hc', hmc, hnc⟩
      obtain ⟨c, hc, rfl⟩ := List.mem_map.1 hc'
      exact ⟨c, hc, ((mem_namesOf (hsub hc)).1 hmc).2, ((mem_namesOf (hsub hc)).1 hnc).2⟩
    · rintro ⟨c, hc, hmc, hnc⟩
      exact ⟨_, List.mem_map_of_mem hc, (mem_namesOf (hsub hc)).2 ⟨hm, hmc⟩,
        (mem_namesOf (hsub hc)).2 ⟨hn, hnc⟩⟩
  · refine List.pairwise_map.2 ((hcs.successors.and hcs.pairwise_disjoint).imp_of_mem ?_)
    rintro c d hc hd ⟨hnone, hdisjoint⟩ n hn m hnm hm
    obtain ⟨hnodes, hi⟩ := (mem_namesOf (hsub hc)).1 hn
    obtain ⟨hmnodes, hj⟩ := (mem_namesOf (hsub hd)).1 hm
    -- the components are disjoint, so the edge is not one from a node to itself
    have hne : m ≠ n := fun hmn => hdisjoint hi (hmn ▸ hj)
    refine hnone _ hi _ (Digraph.mem_next.2 (mem_edges_ofNodes.2 ?_)) hj
    exact ⟨n, hnodes, m, hnm, hmnodes, hne, rfl, rfl⟩
  · obtain ⟨c, hc, rfl⟩ := List.mem_map.1 hc'
    exact pairwise_namesOf (hsub hc) ((List.nodup_flatten.1 hcs.nodup_flatten).1 c hc)

end

/-! ## Lawful searches -/

/-- **A search** that is known to be lawful. -/
structure Search where
  find : ComponentSearch
  lawful : find.Lawful

namespace Search

/-- The search to run the program with. -/
def standard : Search := ⟨Digraph.components, Digraph.lawful_components⟩

variable (search : Search)

theorem isCondensation (nodes : List String) (next : String → List String) :
    IsCondensation nodes next (stronglyConnected search.find nodes next) :=
  (search.lawful.isCondensation nodes next).1

/-- Searches differ in the order of components only. -/
theorem stronglyConnected_perm (search' : Search) (nodes : List String)
    (next : String → List String) :
    (stronglyConnected search.find nodes next).Perm (stronglyConnected search'.find nodes next) :=
  (search.isCondensation nodes next).perm (search.lawful.isCondensation nodes next).2
    (search'.isCondensation nodes next) (search'.lawful.isCondensation nodes next).2

end Search

/-- **Strongly connected components.** Whatever the search on numbers, as long as it lists the
components of a graph successors first: for all nodes, repeated or not, and all successors, listed
or not, the result partitions the distinct nodes, holds together what leads to each other along
listed nodes, keeps the order of first occurrences inside components and puts what a component leads
to before it. Any other list like this has the same components. -/
theorem stronglyConnected_condenses {search : ComponentSearch} (hsearch : search.Lawful)
    (nodes : List String) (next : String → List String) :
    IsCondensation nodes next (stronglyConnected search nodes next) ∧
      InOrder nodes (stronglyConnected search nodes next) ∧
      ∀ cs, IsCondensation nodes next cs → InOrder nodes cs →
        cs.Perm (stronglyConnected search nodes next) := by
  obtain ⟨hcs, hinOrder⟩ := hsearch.isCondensation nodes next
  exact ⟨hcs, hinOrder, fun cs h ho => h.perm ho hcs hinOrder⟩

/-- A repeated node, an edge from a node to itself and an edge to a node that is not listed: the
search finds the cycle of `c` and `a` below `b`. -/
theorem stronglyConnected_condenses_loop :
    let nodes := ["b", "c", "a", "c"]
    let next := fun n => if n = "b" then ["a", "b"] else if n = "a" then ["c", "z"] else ["a"]
    Digraph.components (.ofNodes nodes next) = [[1, 2], [0]] ∧
      IsCondensation nodes next [["c", "a"], ["b"]] := by
  intro nodes next
  have hfound : Digraph.components (.ofNodes nodes next) = [[1, 2], [0]] := by decide +kernel
  refine ⟨hfound, ?_⟩
  have hnames : stronglyConnected Digraph.components nodes next = [["c", "a"], ["b"]] := by
    decide +kernel
  rw [← hnames]
  exact (stronglyConnected_condenses Digraph.lawful_components nodes next).1

end TypeBounds
