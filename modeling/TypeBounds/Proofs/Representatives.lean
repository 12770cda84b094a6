import TypeBounds.Proofs.Generalized

/-!
# One representative for every cycle

Generalising collapses every cycle into one of its variables, a parameter if there is one on it.
What comes later never parts the names that were brought together: fixing leaves them where they
are, and coalescing sends all names of a variable to the same place (`Graph.Sends`).

* `Graph.StronglyConnected`, `Graph.WellFormed.heir_eq`: variables that flow into each other have
  one heir;
* `Graph.WellFormed.heir_mem`: it is a parameter if one of them is;
* `denote_one_of_generalize`: what the names on a cycle denote afterwards.
-/

namespace TypeBounds

open Infer Relation

theorem mem_of_representative_of_mem {params c : List VarId} {p rep : VarId}
    (hp : p ∈ params) (hc : p ∈ c) (h : representative params c = some rep) : rep ∈ params := by
  have hsome : (c.find? params.contains).isSome := by
    rw [List.find?_isSome]
    exact ⟨p, hc, List.contains_iff_mem.2 hp⟩
  obtain ⟨q, hq⟩ := Option.isSome_iff_exists.1 hsome
  unfold representative at h
  rw [hq, Option.some_or, Option.some.injEq] at h
  rw [← h]
  exact List.contains_iff_mem.1 (List.find?_some hq)

namespace Graph

variable {g : Graph} {params : List VarId} {p x y : VarId}

/-- Each of the two variables flows into the other. -/
def StronglyConnected (g : Graph) (x y : VarId) : Prop :=
  ReflTransGen (fun a b => a ∈ (g.boundsOf b).below) x y ∧
    ReflTransGen (fun a b => a ∈ (g.boundsOf b).below) y x

/-- **Variables that flow into each other** have one heir. -/
theorem WellFormed.heir_eq (h : g.WellFormed) (hclosed : g.Closed) (hxy : g.StronglyConnected x y)
    (params : List VarId) : g.heir params x = g.heir params y := by
  by_cases hne : x = y
  · rw [hne]
  · obtain ⟨hup, hdown⟩ := hxy
    have hbelow : x ∈ (g.boundsOf y).below := (hclosed.mem_below_of_flow hup).resolve_left hne
    have habove : y ∈ (g.boundsOf x).below :=
      (hclosed.mem_below_of_flow hdown).resolve_left (Ne.symm hne)
    -- an edge between two variables is no loop, so it is still there when loops are gone
    obtain ⟨hwf₀, hprune⟩ := h.pruneSelfEdges
    apply hwf₀.heirIn_cycles_eq .standard hne
    · exact (hprune x y).2 ⟨hbelow, hne⟩
    · exact (hprune y x).2 ⟨habove, Ne.symm hne⟩

/-- **The heir of a parameter** is a parameter. -/
theorem heir_mem (hp : p ∈ params) : g.heir params p ∈ params := by
  by_cases hcycle : ∃ c ∈ g.pruneSelfEdges.cycles .standard, p ∈ c
  · obtain ⟨c, hc, hpc⟩ := hcycle
    have hpc' : p ∈ Natural.sort c := Natural.mem_sort.2 hpc
    rcases hrep : representative params (Natural.sort c) with _ | rep
    · rw [eq_nil_of_representative hrep] at hpc'
      cases hpc'
    · rw [heir, heirIn_of_mem pairwise_disjoint_cycles hc hrep hpc]
      exact mem_of_representative_of_mem hp hpc' hrep
  · have hself : g.heir params p = p := heirIn_of_not_mem fun c hc hmem => hcycle ⟨c, hc, hmem⟩
    rw [hself]
    exact hp

end Graph

/-- **Every cycle is resolved to one variable**, whatever calls the graph has seen before, failed
ones included, whatever parameters it is generalised for and in whatever order its cycles are found.
Mutable references to variables that are below each other denote one and the same variable
afterwards, and that is one of the given parameters if there is a parameter in the strongly
connected component of theirs. -/
theorem denote_one_of_generalize (tag : Nat) (lattice : Lattice) (policy : Policy)
    (calls : List Call) (search : Search) (params : List VarId)
    (hok : ((Graph.after { tag, lattice, policy } calls).generalize search.find params).fault =
      none) :
    let g := Graph.after { tag, lattice, policy } calls
    let g' := (g.generalize search.find params).graph
    ∀ name name' r r', g.names.get? name = some r → g.names.get? name' = some r' →
      r.fixed = false → r'.fixed = false →
      r.id ∈ (g.boundsOf r'.id).below → r'.id ∈ (g.boundsOf r.id).below →
      ∃ x, (g'.names.get? name).map Reference.id = some x ∧
        (g'.names.get? name').map Reference.id = some x ∧
        ((∃ p ∈ params, g.StronglyConnected p r.id) → x ∈ params) := by
  intro g g' name name' r r' hr hr' hmutable hmutable' hbelow hbelow'
  have hwf : g.WellFormed := (Graph.WellFormed.empty tag lattice policy).after calls
  have hclosed : g.Closed :=
    (Graph.Closed.empty tag lattice policy).after (.empty tag lattice policy) calls
  obtain ⟨s, hrun, hgraph⟩ := Graph.generalize_accepted hok
  replace hgraph : g' = s.graph := hgraph
  obtain ⟨-, -, f, hf, hnames⟩ := generalizeAll_sends (s := { graph := g }) hwf hclosed hrun
  rw [← hgraph] at hnames
  have hheirs : g.heir params r.id = g.heir params r'.id :=
    hwf.heir_eq hclosed ⟨.single hbelow, .single hbelow'⟩ params
  refine ⟨f (g.heir params r.id), hnames name r hr hmutable, ?_, ?_⟩
  · rw [hheirs]
    exact hnames name' r' hr' hmutable'
  · rintro ⟨p, hp, hconnected⟩
    -- the heir of the parameter stays where it is, being a parameter in turn
    have hheir : g.heir params r.id = g.heir params p :=
      (hwf.heir_eq hclosed hconnected params).symm
    rw [hheir, hf _ (List.mem_map_of_mem hp)]
    exact Graph.heir_mem hp

theorem denote_one_of_generalize_loop :
    let g := Graph.after { tag := 1 } loop
    let g' := (g.generalize Search.standard.find ["T2"]).graph
    (g.generalize Search.standard.find ["T2"]).fault = none ∧
      ∃ x, (g'.names.get? "$w").map Reference.id = some x ∧
        (g'.names.get? "$x").map Reference.id = some x ∧
        x ∈ ["T2"] := by
  have hok :
      ((Graph.after { tag := 1 } loop).generalize Search.standard.find ["T2"]).fault = none :=
    Option.isNone_iff_eq_none.1 (by decide +kernel)
  obtain ⟨x, hw, hx, hparam⟩ := denote_one_of_generalize 1 {} .plain loop .standard
    ["T2"] hok "$w" "$x" { id := "T1" } { id := "T2" } (by decide +kernel)
    (by decide +kernel) rfl rfl (by decide +kernel) (by decide +kernel)
  refine ⟨hok, x, hw, hx, hparam ⟨"T2", List.mem_singleton_self _, ?_, ?_⟩⟩
  · exact .single (by decide +kernel)
  · exact .single (by decide +kernel)

end TypeBounds
