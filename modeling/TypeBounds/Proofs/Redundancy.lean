import TypeBounds.Proofs.Overtaking

/-!
# Lower bounds with members to spare

A type that a lower bound covers is absorbed, and a new member takes the place of what it covers. So
no member of a lower bound should be below another one. But whether a member is covered is asked
before its check, and the check may narrow the upper bound, widen the lower one and come back. What
it brings into the lower bound are sources of implicit conversions, and they alone can be above the
member that comes in next.

* `Graph.Narrowed`: what a narrowing can do to the bounds of a graph;
* `Graph.Excused`: a member that is below another one is below a source, and does not fit under the
  upper bound as it is. That is an invariant (`Graph.upholds_excused`);
* `spare_lower_members_below_sources`: the invariant, absorption, and how a spare member does come
  about.
-/

namespace TypeBounds

open Infer

/-- The type is the source of a conversion that is made without being asked for. -/
def Lattice.IsSource (l : Lattice) (t : Ty) : Prop := ∃ c ∈ l.conversions, c.implicit ∧ c.source = t

namespace Graph

variable {u : Universe} {g₀ g g' : Graph} {side : Side} {id x : VarId} {a b m t v : Ty}
  {depth : Nat} {s s' : Progress}

/-! ## Narrowing -/

/-- **What narrowing leads to** from the graph `g₀`: nothing but sources of conversions comes into
lower bounds, and upper bounds say no less than they did. -/
structure Narrowed (u : Universe) (g₀ g : Graph) : Prop extends Stocked u (Named u) g where
  lattice : g.lattice = g₀.lattice
  sources : ∀ x, ∀ t ∈ g.has .lower x, t ∈ g₀.has .lower x ∨ g₀.lattice.IsSource t
  implied : ∀ x, ∀ v ∈ g₀.has .upper x, ∃ w ∈ g.has .upper x, Sub w v

theorem Narrowed.refl (hu : u.Sound) (h : g.Stocked u (Named u)) : Narrowed u g g where
  toStocked := h
  lattice := rfl
  sources _ _ ht := .inl ht
  implied x v hv := ⟨v, hv, hu.sub_refl (h.tidy.admissible .upper x v hv)⟩

theorem Narrowed.inserted (hu : u.Sound) (h₀ : g₀.Stocked u (Named u)) (h : Narrowed u g₀ g)
    (hm : u.Declares m) (hsource : side = .lower → g₀.lattice.IsSource m) (id : VarId) :
    Narrowed u g₀ (g.inserted side id m) where
  toStocked := h.toStocked.inserted hm id
  lattice := sameShape_inserted.lattice.trans h.lattice
  sources x t ht := by
    rcases h.mem_or_eq ht with ⟨ht, -⟩ | ⟨hside, -, rfl⟩
    · exact h.sources x t ht
    · exact .inr (hsource hside.symm)
  implied x v hv := by
    obtain ⟨w, hw, hwv⟩ := h.implied x v hv
    rcases h.mem_or_supersedes hw side id m with hw' | ⟨rfl, hsup, hm'⟩
    · exact ⟨w, hw', hwv⟩
    · -- the new member stands for the one that it supersedes
      have hw : u.Declares w := h.tidy.admissible .upper x w hw
      have hmw : Sub m w := (hu.isSubtype_iff hm hw).1 hsup
      exact ⟨m, hm', hu.sub_trans hm hw (h₀.tidy.admissible .upper x v hv) hmw hwv⟩

/-- The declared types are let into upper bounds, and the sources of conversions into lower
bounds. -/
theorem handles_narrowed (hu : u.Sound) (h₀ : g₀.Stocked u (Named u)) :
    Handles (fun side t => u.Declares t ∧ (side = .lower → g₀.lattice.IsSource t))
      (Narrowed u g₀) where
  conversion g h c hc himplicit := by
    have hdeclared := h.converts c hc
    exact ⟨⟨hdeclared.1, fun _ => ⟨c, h.lattice ▸ hc, himplicit, rfl⟩⟩, hdeclared.2,
      fun hside => by cases hside⟩
  insertLower t ht m hm depth id _ _ _ s s' _ _ _ h := by
    rw [unionParts_eq (hu.ne_container ht.1 .lower), List.mem_singleton] at hm
    subst hm
    rw [h.insertLower_eq (stocks_named hu) ht.1]
    exact h.inserted hu h₀ ht.1 ht.2 id
  insertUpper t ht m hm id _ _ _ s _ s' g' _ _ _ hg' h := by
    rw [interParts_eq (hu.ne_container ht.1 .upper), List.mem_singleton] at hm
    subst hm
    rw [insertUpper_eq_inserted hu (.declared ht.1) hg']
    exact h.inserted hu h₀ ht.1 (fun hside => by cases hside) id

/-- **The check of a lower member** does nothing, or it narrows because the member does not fit as
it is. -/
theorem Stocked.narrowed_of_checkUpper (hu : u.Sound) (h : s.graph.Stocked u (Named u))
    (hm : u.Declares m) (hrun : checkUpper (spreadWithin depth .upper) id m s = (.ok (), s')) :
    s' = s ∨ Narrowed u s.graph s'.graph ∧ ∃ v ∈ s.graph.has .upper id, ¬Sub m v := by
  have hhandles := handles_narrowed hu h
  have hkept : Narrowed u s.graph s'.graph :=
    (hhandles.checkUpper (hhandles.spreadWithin depth .upper) id m s).of_eq hrun (.refl hu h)
  rw [checkUpper, graph_bind_apply, h.checkableUpper_eq hu] at hrun
  split at hrun
  · exact .inl (pure_eq_ok.1 hrun).2.symm
  · rename_i hneeded
    refine .inr ⟨hkept, ?_⟩
    by_contra hall
    push Not at hall
    refine hneeded (Bool.or_eq_true_iff.2 (.inr ?_))
    have hbare : ∀ e ∈ (s.graph.boundsOf id).upper, e.2.Bare :=
      (h.bare (stocks_named hu)).stored .upper id
    have hown : m.Bare := hm.bare hu
    refine (Lattice.isSubtype_inter_iff_of_bare hown (hu.ne_container hm .lower) hbare).2
      (.inr fun e he => ?_)
    have he' : e.2 ∈ s.graph.has .upper id := Members.mem_types.2 ⟨e, he, rfl⟩
    exact (hu.isSubtype_iff hm (h.tidy.admissible .upper id e.2 he')).2 (hall e.2 he')

/-! ## Members that are spare -/

/-- **Spare members**: whatever is below another member of a lower bound is below the source of a
conversion and does not fit under the upper bound as it is. -/
structure Excused (u : Universe) (g : Graph) : Prop extends Stocked u (Named u) g where
  spare : ∀ x, ∀ a ∈ g.has .lower x, ∀ b ∈ g.has .lower x, a ≠ b → Sub a b →
    g.lattice.IsSource b ∧ ∃ v ∈ g.has .upper x, ¬Sub a v

theorem Excused.of_sides (h : g.Excused u) (hlattice : g'.lattice = g.lattice)
    (hsides : ∀ side x, (g'.boundsOf x).side side = (g.boundsOf x).side side) : g'.Excused u := by
  refine ⟨h.toStocked.of_sides hlattice hsides, fun x => ?_⟩
  rw [has, has, hsides, hsides, hlattice]
  exact h.spare x

theorem Excused.unregister (h : g.Excused u) (y : VarId) : (g.unregister y).Excused u := by
  refine ⟨⟨h.converts, h.tidy.unregister y⟩, fun x => ?_⟩
  rw [has, has, boundsOf_unregister]
  split
  · exact fun a ha => (List.not_mem_nil ha).elim
  · exact h.spare x

/-- **A new lower member** is spare only if something came in during its check, which is a
source. -/
theorem Excused.insertLower (hu : u.Sound) (h : s.graph.Excused u) (hm : u.Declares m)
    (hnew : ¬s.graph.lowerAbsorbs id m)
    (hrun : checkUpper (spreadWithin depth .upper) id m s = (.ok (), s'))
    (h' : s'.graph.Excused u) : (s'.graph.inserted .lower id m).Excused u := by
  refine ⟨h'.toStocked.inserted hm id, fun x a ha b hb hne hab => ?_⟩
  have hdeclares {e : Ty} (he : e ∈ s'.graph.has .lower x) : u.Declares e :=
    h'.tidy.admissible .lower x e he
  have hupper : (s'.graph.inserted .lower id m).has .upper x = s'.graph.has .upper x :=
    has_inserted_ne (.inl (by decide))
  have hlattice : (s'.graph.inserted .lower id m).lattice = s'.graph.lattice :=
    sameShape_inserted.lattice
  rw [hupper, hlattice]
  rcases h'.mem_or_eq ha with ⟨hold, hstays⟩ | ⟨-, rfl, rfl⟩
  · rcases h'.mem_or_eq hb with ⟨hold', -⟩ | ⟨-, hx, rfl⟩
    · exact h'.spare x a hold b hold' hne hab
    · exact absurd ((hu.isSubtype_iff (hdeclares hold) hm).2 hab) (hstays rfl hx)
  · obtain ⟨hb, -⟩ := (h'.mem_or_eq hb).resolve_right fun hb => hne hb.2.2.symm
    have hfresh : b ∉ s.graph.has .lower x := by
      intro hold
      have habsorbs : s.graph.absorbs .lower x a := by
        rw [absorbs_eq, List.any_eq_true]
        exact ⟨b, hold, (hu.isSubtype_iff hm (h.tidy.admissible .lower x b hold)).2 hab⟩
      exact hnew habsorbs
    rcases h.narrowed_of_checkUpper hu hm hrun with rfl | ⟨hnarrowed, v, hv, hav⟩
    · exact absurd hb hfresh
    · refine ⟨hnarrowed.lattice ▸ (hnarrowed.sources x b hb).resolve_left hfresh, ?_⟩
      obtain ⟨w, hw, hwv⟩ := hnarrowed.implied x v hv
      refine ⟨w, hw, fun haw => hav ?_⟩
      exact hu.sub_trans hm (h'.tidy.admissible .upper x w hw)
        (h.tidy.admissible .upper x v hv) haw hwv

/-- **A new upper member** that takes the place of one which a spare member does not fit under does
not let it fit. -/
theorem Excused.insertUpper (hu : u.Sound) (h : g.Excused u) (hm : u.Declares m)
    (hg : g.insertUpper id m = .ok g') : g'.Excused u := by
  rw [insertUpper_eq_inserted hu (.declared hm) hg]
  refine ⟨h.toStocked.inserted hm id, fun x a ha b hb hne hab => ?_⟩
  have hlattice : (g.inserted .upper id m).lattice = g.lattice := sameShape_inserted.lattice
  rw [has_inserted_ne (.inl (by decide))] at ha hb
  obtain ⟨hsource, v, hv, hav⟩ := h.spare x a ha b hb hne hab
  refine ⟨hlattice ▸ hsource, ?_⟩
  rcases h.mem_or_supersedes hv .upper id m with hv' | ⟨-, hsup, hm'⟩
  · exact ⟨v, hv', hav⟩
  · have hv : u.Declares v := h.tidy.admissible .upper x v hv
    refine ⟨m, hm', fun ham => hav ?_⟩
    exact hu.sub_trans (h.tidy.admissible .lower x a ha) hm hv ham ((hu.isSubtype_iff hm hv).1 hsup)

theorem upholds_excused (hu : u.Sound) : Upholds u (Named u) (Excused u) where
  stocks := stocks_named hu
  stocked _ h := h.toStocked
  insertLower _ hm _ _ _ _ h hnew hrun h' := h.insertLower hu hm hnew hrun h'
  insertUpper _ hm _ _ _ h _ hg := h.insertUpper hu hm hg
  sides _ _ hlattice hsides h := h.of_sides hlattice hsides
  unregister _ x h := h.unregister x

theorem Excused.empty (tag : Nat) {lattice : Lattice} (policy : Policy) (hl : u.Converts lattice) :
    Excused u { tag, lattice, policy } where
  toStocked := .empty tag policy hl
  spare _ _ ha := (List.not_mem_nil ha).elim

/-- **A type that is covered** is absorbed. -/
theorem addLower_eq_of_covered (hu : u.Sound) (ht : u.Declares t)
    (hcovered : ∃ b ∈ Members.types (g.boundsOf x).lower, g.isSubtype t b) :
    (Call.addLower x t).outcome g = { graph := g } := by
  have hcf : ConvertibleFree u t := .declared ht
  have hx : x ∈ g.ids := by
    by_contra hx
    obtain ⟨b, hb, -⟩ := hcovered
    rw [boundsOf_of_not_mem hx] at hb
    cases hb
  have habsorbs : ∀ m ∈ Side.lower.parts t, g.absorbs .lower x m := by
    rw [Side.parts_declared hu ht, List.forall_mem_singleton, absorbs_eq, List.any_eq_true]
    exact hcovered
  change g.addBound .lower x t = _
  rw [addBound_eq_run (hcf.isSelf_eq hu) (checkBound_iff.2 ⟨hx, requireOwned_eq_ok hu hcf⟩)]
  exact run_eq_of_idle (spread_eq_of_absorbs (s := { graph := g }) hx habsorbs)

end Graph

/-- **Spare members of lower bounds.** In a graph that variables, declared types and references were
added to and whose variables were merged, successfully or not, with any conversions between declared
types: a member of a lower bound is below another one only if that is the source of an implicit
conversion and some upper member is not above it. A type that the lower bound covers is absorbed
without a trace. And a member that is overtaken on its way is accepted and stays below the
source. -/
theorem spare_lower_members_below_sources {decls : List TypeDecl} {u : Universe}
    (hu : Universe.ofDecls decls = .ok u) {conversions : List ConversionDecl} {lattice : Lattice}
    (hl : u.lattice conversions = .ok lattice) (tag : Nat) (policy : Policy) :
    (∀ calls : List Call, (∀ c ∈ calls, c.BuildsOrMerges u.Declares) →
      let g := Graph.after { tag, lattice, policy } calls
      ∀ x,
        (∀ a ∈ Members.types (g.boundsOf x).lower, ∀ b ∈ Members.types (g.boundsOf x).lower, a ≠ b →
          g.isSubtype a b → (∃ c ∈ lattice.conversions, c.implicit ∧ c.source = b) ∧
            ∃ v ∈ Members.types (g.boundsOf x).upper, ¬g.isSubtype a v) ∧
        ∀ t, u.Declares t → (∃ b ∈ Members.types (g.boundsOf x).lower, g.isSubtype t b) →
          (Call.addLower x t).outcome g = { graph := g }) ∧
    ∀ name x first late top c d e, u.Declares first → u.Declares late → u.Declares top →
      lattice.Overtakes first late top c d e →
      let calls :=
        [.addVariable name (some { id := x }), .addLower x first, .addUpper x top, .addLower x late]
      let g := Graph.after { tag, lattice, policy } calls
      Graph.accepts { tag, lattice, policy } calls ∧ g.isSubtype late d.source ∧ late ≠ d.source ∧
        ∀ t, t ∈ Members.types (g.boundsOf x).lower ↔ t = d.source ∨ t = late := by
  have hsound := Universe.sound_of_ofDecls hu
  have hconverts := hsound.converts hl
  constructor
  · intro calls hcalls g x
    have hupholds := Graph.upholds_excused hsound
    have h : g.Excused u := hupholds.after (.empty tag policy hconverts)
      (fun t ht side => hupholds.stocks.partsOf_declared ht side) hcalls
    refine ⟨fun a ha b hb hne hab => ?_, fun t ht => Graph.addLower_eq_of_covered hsound ht⟩
    have ha' : u.Declares a := h.tidy.admissible .lower x a ha
    rw [Graph.isSubtype, hsound.isSubtype_iff ha' (h.tidy.admissible .lower x b hb)] at hab
    obtain ⟨hsource, v, hv, hav⟩ := h.spare x a ha b hb hne hab
    rw [show g.lattice = lattice from Graph.lattice_after _ calls] at hsource
    exact ⟨hsource, v, hv, (hsound.isSubtype_iff ha' (h.tidy.admissible .upper x v hv)).not.2 hav⟩
  · intro name x first late top c d e hfirst hlate htop ho calls g
    obtain ⟨hacc, h⟩ := Graph.Lone.run hsound hconverts tag policy name x hfirst hlate htop ho
    have hsource : u.Declares d.source := h.declares .lower (List.mem_cons_self ..)
    refine ⟨hacc, ?_, ?_, fun t => ?_⟩
    · exact (hsound.isSubtype_iff hlate hsource).2 ((hsound.isSubtype_iff hlate hsource).1 ho.below)
    · rintro rfl
      exact ho.proper ho.below
    · exact (h.holds .lower t).trans (by simp [Side.either])

/-! ## Notes and files -/

/-- Notes and files are stored, notes are shown as well, and what is stored can be converted to a
page, which is shown. -/
def archiveDecls : List TypeDecl :=
  [{ name := "Shown", kind := "interface" }, { name := "Stored", kind := "interface" },
    { name := "Note", kind := "class", parents := ["Stored", "Shown"] },
    { name := "File", kind := "class", parents := ["Stored"] },
    { name := "Page", kind := "interface", parents := ["Shown"] }]

def shown : Ty := .nominal "Shown" .interface false []

def stored : Ty := .nominal "Stored" .interface false []

def note : Ty := .nominal "Note" .concrete false [stored, shown]

def file : Ty := .nominal "File" .concrete false [stored]

def page : Ty := .nominal "Page" .interface false [shown]

def archive : Universe :=
  ⟨⟨[("mixed", .mixed), ("Shown", shown), ("Stored", stored), ("Note", note), ("File", file),
    ("Page", page)]⟩⟩

def toPage : List ConversionDecl := [{ source := "Stored", target := "Page", implicit := true }]

def paging : Conversion := ⟨stored, page, true, "Stored->Page"⟩

/-- Notes that are shown, and then a file. -/
def filing : List Call :=
  [.addVariable "$x" (some { id := "T" }), .addLower "T" note, .addUpper "T" shown,
    .addLower "T" file]

/-- The file is shown as a page only, so the notes become anything that is stored, and the file
comes in beside that. Another note is absorbed. -/
theorem spare_lower_members_below_sources_archive :
    let g := Graph.after { tag := 1, lattice := ⟨[paging]⟩ } filing
    Graph.accepts { tag := 1, lattice := ⟨[paging]⟩ } filing ∧ g.isSubtype file stored ∧
      file ≠ stored ∧
      (∀ t, t ∈ Members.types (g.boundsOf "T").lower ↔ t = stored ∨ t = file) ∧
      (∃ v ∈ Members.types (g.boundsOf "T").upper, ¬g.isSubtype file v) ∧
      (Call.addLower "T" note).outcome g = { graph := g } := by
  intro g
  have hu : Universe.ofDecls archiveDecls = .ok archive := rfl
  have hl : archive.lattice toPage = .ok ⟨[paging]⟩ := rfl
  have hnote : archive.Declares note := rfl
  have hfile : archive.Declares file := rfl
  have hshown : archive.Declares shown := rfl
  have ho : Lattice.Overtakes ⟨[paging]⟩ note file shown paging paging paging := by
    refine ⟨?_, ?_, rfl, ?_, rfl, ?_, ?_, ?_, rfl, ?_⟩ <;> decide +kernel
  have hcalls : ∀ c ∈ filing, c.BuildsOrMerges archive.Declares := by
    simp [filing, Call.BuildsOrMerges, Call.Builds, hnote, hfile, hshown]
  obtain ⟨hspare, hovertaken⟩ := spare_lower_members_below_sources hu hl 1 .plain
  obtain ⟨hacc, hbelow, hne, hlower⟩ :=
    hovertaken "$x" "T" note file shown paging paging paging hnote hfile hshown ho
  obtain ⟨hsource, habsorbed⟩ := hspare filing hcalls "T"
  refine ⟨hacc, hbelow, hne, hlower, ?_, habsorbed note hnote ?_⟩
  · exact (hsource file ((hlower file).2 (.inr rfl)) stored
      ((hlower stored).2 (.inl rfl)) hne hbelow).2
  · exact ⟨stored, (hlower stored).2 (.inl rfl), by decide +kernel⟩

end TypeBounds
