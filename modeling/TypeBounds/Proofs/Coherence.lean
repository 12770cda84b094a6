import TypeBounds.Proofs.Solitude

/-!
# When accepted bounds are consistent

Accepted bounds are consistent where conversions are coherent (`Graph.Paired.bridges`). Here is the
other direction: if a type fits under each of some types that can stand together, with conversions
of its own, then the calls that make it a lower bound and them upper bounds are accepted one after
the other, since each check is of one new member alone. So unless the type is bridged to all of them
at once, there is an accepted run with an inconsistent outcome.

* `Graph.Lone.addUppers`: the run;
* `bounds_bridged_of_coherent`: what this makes of the coherence of conversions.
-/

namespace TypeBounds

open Infer

/-- **Accepted bounds are consistent**: whatever calls were accepted, every lower member of a
variable fits under its whole upper bound, as it is or after one implicit conversion. -/
def Lattice.KeepsBounds (u : Universe) (l : Lattice) : Prop :=
  ∀ tag policy calls, (∀ c ∈ calls, c.Builds u.Declares) →
    Graph.accepts { tag, lattice := l, policy } calls →
    let g := Graph.after { tag, lattice := l, policy } calls
    ∀ x, (g.boundsOf x).upper ≠ [] → ∀ a ∈ Members.types (g.boundsOf x).lower,
      g.isSubtype a (.inter (g.boundsOf x).upper) ∨
      (g.implicit? a (.inter (g.boundsOf x).upper)).isSome

/-- A type that fits by itself does so as it is, or by a conversion of its own that is found. -/
theorem Lattice.Serves.exists_conversion {u : Universe} {l : Lattice} {a v : Ty} (h : l.Serves a v)
    (hu : u.Legible) (hl : u.Converts l) (ha : u.Declares a) (hv : u.Declares v) :
    ∃ r : Option Conversion,
      (r = none ∧ Sub a v ∨ r.isSome ∧ ¬Sub a v ∧ l.implicit? .none a v = r) ∧
      ∀ c ∈ r, c.source = a := by
  by_cases hsub : Sub a v
  · exact ⟨none, .inl ⟨rfl, hsub⟩, fun c hc => by cases hc⟩
  have hown := h.resolve_left hsub
  obtain ⟨c, hc, himplicit, hsource, htarget⟩ := id hown
  let g : Graph := { tag := 0, lattice := l, policy := .plain }
  have hfits : g.isSubtype c.target v :=
    (isSubtype_iff hu (.declared (hl c hc).2) (.declared hv)).2 htarget
  have hbelow : Sub a c.source := hsource ▸ hu.toSound.sub_refl (hl c hc).1
  have hsome := implicit?_isSome (g := g) hu hl ha hc himplicit hbelow hfits
  have hfound : g.implicit? a v = l.implicit? .none a v := hu.toSound.implicit?_eq hl ha hv
  refine ⟨g.implicit? a v, .inr ⟨hsome, hsub, hfound.symm⟩, fun c' hc' => ?_⟩
  exact source_of_implicit? hl hu ha hv hc' hown

namespace Graph.Lone

variable {u : Universe} {l : Lattice} {g : Graph} {id : VarId} {a : Ty} {vs us : List Ty}

/-- **All upper bounds** are accepted, each for itself. -/
theorem addUppers (hu : u.Legible) (hl : u.Converts l) (h : Lone u l id [a] vs g)
    (hus : ∀ v ∈ us, u.Declares v ∧ l.Serves a v)
    (hapart : (vs ++ us).Pairwise fun v w => ¬Sub v w ∧ ¬Sub w v ∧ ¬clashes v w) :
    g.accepts (us.map (.addUpper id)) ∧
      Lone u l id [a] (vs ++ us) (g.after (us.map (.addUpper id))) := by
  induction us generalizing vs g with
  | nil =>
    rw [List.append_nil]
    exact ⟨rfl, h⟩
  | cons v us ih =>
    obtain ⟨hv, hserves⟩ := hus v (List.mem_cons_self ..)
    have ha : u.Declares a := h.declares .lower (List.mem_singleton_self a)
    have hnew : ∀ w ∈ vs, ¬Sub w v ∧ ¬Sub v w ∧ ¬clashes w v := fun w hw =>
      (List.pairwise_append.1 hapart).2.2 w hw v (List.mem_cons_self ..)
    obtain ⟨r, hr, hsource⟩ := hserves.exists_conversion hu hl ha hv
    obtain ⟨hfault, hlone⟩ := h.addUpper hu.toSound hv r hr hsource hnew
    rw [List.append_cons] at hapart ⊢
    obtain ⟨hacc, hfinal⟩ := ih hlone (fun v hv => hus v (List.mem_cons_of_mem _ hv)) hapart
    exact ⟨accepts_cons.2 ⟨hfault, hacc⟩, hfinal⟩

/-- **A new variable** with one lower bound and several upper bounds. -/
theorem run_of_serves (hu : u.Legible) (hl : u.Converts l) (tag : Nat) (policy : Policy)
    (name : String) (id : VarId) (ha : u.Declares a) (hus : ∀ v ∈ us, u.Declares v ∧ l.Serves a v)
    (hapart : us.Pairwise fun v w => ¬Sub v w ∧ ¬Sub w v ∧ ¬clashes v w) :
    let calls := .addVariable name (some { id }) :: .addLower id a :: us.map (.addUpper id)
    Graph.accepts { tag, lattice := l, policy } calls ∧
      Lone u l id [a] us (Graph.after { tag, lattice := l, policy } calls) := by
  intro calls
  obtain ⟨hfirst, hlattice, hid, hblank⟩ := addVariable_first tag l policy name id
  obtain ⟨hsecond, hlone⟩ := (blank hl hlattice hid hblank).addLower hu.toSound ha
  obtain ⟨hrest, hfinal⟩ := hlone.addUppers hu hl hus hapart
  exact ⟨accepts_cons.2 ⟨hfirst, accepts_cons.2 ⟨hsecond, hrest⟩⟩, hfinal⟩

end Graph.Lone

section

variable {u : Universe} {l : Lattice}

/-- The check of a lower member against the whole upper bound of a variable. -/
theorem Graph.Tidy.fits_iff {g : Graph} {x : VarId} {a : Ty} (hu : u.Legible) (hl : u.Converts l)
    (hlattice : g.lattice = l) (hg : g.Tidy (Named u)) (ha : u.Declares a) :
    g.isSubtype a (.inter (g.boundsOf x).upper) ∨
      (g.implicit? a (.inter (g.boundsOf x).upper)).isSome ↔
      l.Bridges a (g.has .upper x) := by
  subst hlattice
  exact isSubtype_or_implicit?_iff hu hl ha (hg.keyed .upper x) (hg.admissible .upper x)

/-- Coherent conversions are enough. -/
theorem Lattice.KeepsBounds.of_coherent (h : Orderly u l)
    (hmeets : l.MeetCoherent u fun a v => l.Bridges a [v]) : l.KeepsBounds u := by
  intro tag policy calls hcalls hacc g x _ a ha
  have hg : g.Paired u l := (Graph.Paired.empty tag policy).after h hcalls hacc
  rw [hg.tidy.fits_iff h.legible h.converts hg.lattice (hg.tidy.admissible .lower x a ha)]
  exact hg.bridges hmeets ha

/-- Coherence of what fits by itself is needed: the check of each upper bound is of that one
alone. -/
theorem Lattice.KeepsBounds.meetCoherent (hu : u.Legible) (hl : u.Converts l)
    (h : l.KeepsBounds u) : l.MeetCoherent u l.Serves := by
  intro a us ha hus hapart hserves
  by_cases hnil : us = []
  · rw [hnil]
    exact .inl fun v hv => (List.not_mem_nil hv).elim
  obtain ⟨hacc, hlone⟩ := Graph.Lone.run_of_serves hu hl 1 .plain "$x" "T" ha
    (fun v hv => ⟨hus v hv, hserves v hv⟩) hapart
  have hbuilds :
      ∀ c ∈ Call.addVariable "$x" (some { id := "T" }) :: .addLower "T" a :: us.map (.addUpper "T"),
      c.Builds u.Declares := by
    rintro c (_ | ⟨_, _ | ⟨_, hc⟩⟩)
    · trivial
    · exact ha
    · obtain ⟨v, hv, rfl⟩ := List.mem_map.1 hc
      exact hus v hv
  have hlower : a ∈ Graph.has _ .lower "T" := (hlone.holds .lower a).2 (List.mem_singleton_self a)
  obtain ⟨v, hv⟩ := List.exists_mem_of_ne_nil us hnil
  have hupper : Graph.has _ .upper "T" ≠ [] := List.ne_nil_of_mem ((hlone.holds .upper v).2 hv)
  have hbridged :=
    h 1 .plain _ hbuilds hacc "T" (fun hempty => hupper (congrArg Members.types hempty)) a hlower
  rw [hlone.tidy.fits_iff hu hl hlone.lattice ha] at hbridged
  exact hbridged.mono fun v hv => (hlone.holds .upper v).2 hv

/-! ## Where conversions are coherent -/

/-- Meets are coherent if of any two types that can stand together, what gets a type under the one
gets it under the other. -/
theorem Lattice.meetCoherent_of_pairs
    (h : ∀ a v w, u.Declares a → u.Declares v → u.Declares w → Sub v w ∨ Sub w v ∨
      Graph.clashes v w ∨
      (l.Bridges a [w] → (Sub a v → Sub a w) ∧ ∀ c ∈ l.conversions, Sub c.target v →
        Sub c.target w)) :
    l.MeetCoherent u fun a v => l.Bridges a [v] := by
  intro a us ha hus hapart hbridged
  cases us with
  | nil => exact .inl fun v hv => (List.not_mem_nil hv).elim
  | cons v us =>
    obtain ⟨hv, hus⟩ := List.forall_mem_cons.1 hus
    obtain ⟨hfirst, hbridged⟩ := List.forall_mem_cons.1 hbridged
    have hroutes : ∀ w ∈ us, (Sub a v → Sub a w) ∧ ∀ c ∈ l.conversions, Sub c.target v →
        Sub c.target w := by
      intro w hw
      obtain ⟨hvw, hwv, hclash⟩ := (List.pairwise_cons.1 hapart).1 w hw
      have hpair := ((h a v w ha hv (hus w hw)).resolve_left hvw).resolve_left hwv
      exact hpair.resolve_left hclash (hbridged w hw)
    -- the way to the first of them leads to all
    rcases hfirst with hsub | ⟨c, hc, himplicit, hsource, htarget⟩
    · have hav : Sub a v := hsub v (List.mem_singleton_self v)
      exact .inl (List.forall_mem_cons.2 ⟨hav, fun w hw => (hroutes w hw).1 hav⟩)
    · have hcv : Sub c.target v := htarget v (List.mem_singleton_self v)
      exact .inr ⟨c, hc, himplicit, hsource,
        List.forall_mem_cons.2 ⟨hcv, fun w hw => (hroutes w hw).2 c hc hcv⟩⟩

/-- Where nothing else is below the source of an implicit conversion, whatever is bridged fits by
itself. -/
theorem Lattice.Bridges.serves {a v : Ty}
    (hmin : ∀ c ∈ l.conversions, c.implicit → Sub a c.source → a = c.source) (h : l.Bridges a [v]) :
    l.Serves a v := by
  rcases h with h | ⟨c, hc, himplicit, hsource, htarget⟩
  · exact .inl (h v (List.mem_singleton_self v))
  · exact .inr ⟨c, hc, himplicit, (hmin c hc himplicit hsource).symm,
      htarget v (List.mem_singleton_self v)⟩

end

/-- **Accepted bounds and coherent conversions.** For an accepted universe with legible names and
declared conversions: accepted bounds are consistent if conversions are coherent in their meets and
their targets; they are not unless conversions are coherent in the meets of what fits by itself; and
where whatever is bridged fits by itself, they are consistent exactly if meets are coherent. -/
theorem bounds_bridged_of_coherent {decls : List TypeDecl} {u : Universe}
    (hu : Universe.ofDecls decls = .ok u)
    (hnames : ∀ name ∈ u.types.keys, IsIdentifier name ∧ name ≠ "nothing")
    {conversions : List ConversionDecl} {l : Lattice} (hl : u.lattice conversions = .ok l) :
    (l.MeetCoherent u (fun a v => l.Bridges a [v]) → l.TargetCoherent u → l.KeepsBounds u) ∧
    (l.KeepsBounds u → l.MeetCoherent u l.Serves) ∧
    ((∀ a v, u.Declares a → u.Declares v → l.Bridges a [v] → l.Serves a v) →
      (l.KeepsBounds u ↔ l.MeetCoherent u fun a v => l.Bridges a [v])) := by
  have hsound := Universe.sound_of_ofDecls hu
  have hlegible := Universe.legible_of_ofDecls hu hnames
  have hconverts := hsound.converts hl
  have hneeded : l.KeepsBounds u → l.MeetCoherent u l.Serves :=
    fun h => h.meetCoherent hlegible hconverts
  refine ⟨fun hmeets htargets => .of_coherent ⟨hlegible, hconverts, htargets⟩ hmeets, hneeded,
    fun hown => ⟨fun h a us ha hus hapart hbridged => ?_, fun hmeets => ?_⟩⟩
  · exact hneeded h a us ha hus hapart fun v hv => hown a v ha (hus v hv) (hbridged v hv)
  · -- nothing is ever raised, so there are no deep conversions
    refine .of_coherent ⟨hlegible, hconverts, fun _ _ _ d hd => ?_⟩ hmeets
    obtain ⟨hd, -, b, ⟨c, hc, himplicit, rfl, a, v, ha, hv, hac, hcv, hserves⟩, -⟩ := hd
    exact absurd (hown a v ha hv (.of_conversion hc himplicit hac hcv)) hserves

/-! ## Numbers that are text -/

/-- The types of a universe. -/
def Universe.all (u : Universe) : List Ty := u.types.entries.map Prod.snd

theorem Universe.Declares.mem_all {u : Universe} {t : Ty} (ht : u.Declares t) : t ∈ u.all :=
  List.mem_map.2 ⟨_, Table.mem_entries_of_get? ht, rfl⟩

/-- Numbers are converted to text, which can be printed and can be stored. -/
def textDecls : List TypeDecl :=
  [{ name := "Printable", kind := "interface" }, { name := "Storable", kind := "interface" },
    { name := "Text", kind := "class", parents := ["Printable", "Storable"] },
    { name := "int", kind := "primitive", final := true }]

def printable : Ty := .nominal "Printable" .interface false []

def storable : Ty := .nominal "Storable" .interface false []

def text : Ty := .nominal "Text" .concrete false [printable, storable]

def int : Ty := .nominal "int" .primitive true []

def texts : Universe :=
  ⟨⟨[("mixed", .mixed), ("Printable", printable), ("Storable", storable), ("Text", text),
    ("int", int)]⟩⟩

def toText : List ConversionDecl := [{ source := "int", target := "Text", implicit := true }]

def textLattice : Lattice := ⟨[⟨int, text, true, "int->Text"⟩]⟩

/-- Accepted bounds are consistent here. A number may be asked to be printable and to be storable:
it is neither, but the conversion that is found for the one serves for both. -/
theorem bounds_bridged_of_coherent_texts :
    let calls :=
      [Call.addVariable "$x" (some { id := "T" }), .addLower "T" int, .addUpper "T" printable,
      .addUpper "T" storable]
    let g := Graph.after { tag := 1, lattice := textLattice } calls
    Universe.ofDecls textDecls = .ok texts ∧ texts.lattice toText = .ok textLattice ∧
      textLattice.KeepsBounds texts ∧
      Graph.accepts { tag := 1, lattice := textLattice } calls ∧
      (g.boundsOf "T").upper = [("Printable", printable), ("Storable", storable)] ∧
      ¬g.isSubtype int (.inter (g.boundsOf "T").upper) ∧
      (g.implicit? int (.inter (g.boundsOf "T").upper)).isSome := by
  intro calls g
  have hu : Universe.ofDecls textDecls = .ok texts := rfl
  have hl : texts.lattice toText = .ok textLattice := rfl
  have hnames : ∀ name ∈ texts.types.keys, IsIdentifier name ∧ name ≠ "nothing" := by decide
  have hlegible := Universe.legible_of_ofDecls hu hnames
  have hint : texts.Declares int := rfl
  have htext : texts.Declares text := rfl
  have hsub {a b : Ty} (ha : texts.Declares a) (hb : texts.Declares b) :
      textLattice.isSubtype .none a b ↔ Sub a b :=
        isSubtype_iff hlegible (.declared ha) (.declared hb)
  have hbelow : ∀ a ∈ texts.all, textLattice.isSubtype .none a int → a.name = int.name := by
    decide +kernel
  have hpairs : ∀ a ∈ texts.all, ∀ v ∈ texts.all, ∀ w ∈ texts.all, textLattice.isSubtype .none v w ∨
      textLattice.isSubtype .none w v ∨ Graph.clashes v w ∨
      (textLattice.isSubtype .none a w ∨ textLattice.isSubtype .none a int →
        (textLattice.isSubtype .none a v → textLattice.isSubtype .none a w) ∧
        (textLattice.isSubtype .none text v → textLattice.isSubtype .none text w)) := by
          decide +kernel
  have hkeeps : textLattice.KeepsBounds texts := by
    refine ((bounds_bridged_of_coherent hu hnames hl).2.2 fun a v ha hv => ?_).2 ?_
    · refine Lattice.Bridges.serves fun c hc _ hac => ?_
      obtain rfl := List.mem_singleton.1 hc
      exact ha.eq_of_name_eq hint (hbelow a ha.mem_all ((hsub ha hint).2 hac))
    · refine Lattice.meetCoherent_of_pairs fun a v w ha hv hw => ?_
      have hpair := hpairs a ha.mem_all v hv.mem_all w hw.mem_all
      rw [hsub hv hw, hsub hw hv, hsub ha hw, hsub ha hint, hsub ha hv, hsub htext hv,
        hsub htext hw] at hpair
      refine hpair.imp_right (Or.imp_right (Or.imp_right fun hroutes hbridged => ?_))
      have haw : Sub a w ∨ Sub a int := by
        rcases hbridged with hfits | ⟨c, hc, -, hsource, -⟩
        · exact .inl (hfits w (List.mem_singleton_self w))
        · obtain rfl := List.mem_singleton.1 hc
          exact .inr hsource
      exact (hroutes haw).imp_right fun htargets c hc => List.mem_singleton.1 hc ▸ htargets
  have hbuilds : ∀ c ∈ calls, c.Builds texts.Declares := by
    simp only [calls, List.mem_cons, List.not_mem_nil, or_false, forall_eq_or_imp, forall_eq,
      Call.Builds, true_and]
    exact ⟨rfl, rfl, rfl⟩
  have haccepts : Graph.accepts { tag := 1, lattice := textLattice } calls := by decide +kernel
  have hunfit : ¬g.isSubtype int (.inter (g.boundsOf "T").upper) := by decide +kernel
  have hupper : (g.boundsOf "T").upper = [("Printable", printable), ("Storable", storable)] := rfl
  have hlower : Members.types (g.boundsOf "T").lower = [int] := rfl
  have hne : (g.boundsOf "T").upper ≠ [] := hupper ▸ List.cons_ne_nil _ _
  have hbridged :=
    hkeeps 1 .plain calls hbuilds haccepts "T" hne int (hlower ▸ List.mem_singleton_self int)
  exact ⟨hu, hl, hkeeps, haccepts, hupper, hunfit, hbridged.resolve_left hunfit⟩

/-! ## Where accepted bounds are not consistent -/

/-- A number is countable, and it can be converted to something printable. -/
def facetDecls : List TypeDecl :=
  [{ name := "Countable", kind := "interface" }, { name := "Printable", kind := "interface" },
    { name := "int", kind := "primitive", parents := ["Countable"] }]

def countable : Ty := .nominal "Countable" .interface false []

def number : Ty := .nominal "int" .primitive false [countable]

def facets : Universe :=
  ⟨⟨[("mixed", .mixed), ("Countable", countable), ("Printable", printable), ("int", number)]⟩⟩

def toPrintable : List ConversionDecl :=
  [{ source := "int", target := "Printable", implicit := true }]

def facetLattice : Lattice := ⟨[⟨number, printable, true, "int->Printable"⟩]⟩

/-- **Meets that are not coherent.** A number is countable as it is and printable after a
conversion, but it is not both at once; the two upper bounds are accepted all the same. -/
theorem not_keepsBounds_facets : Universe.ofDecls facetDecls = .ok facets ∧
    facets.lattice toPrintable = .ok facetLattice ∧ ¬facetLattice.KeepsBounds facets := by
  refine ⟨rfl, rfl, fun h => ?_⟩
  have hbuilds : ∀ c ∈ [Call.addVariable "$x" (some { id := "T" }), .addLower "T" number,
      .addUpper "T" countable, .addUpper "T" printable], c.Builds facets.Declares := by
    simp only [List.mem_cons, List.not_mem_nil, or_false, forall_eq_or_imp, forall_eq,
      Call.Builds, true_and]
    exact ⟨rfl, rfl, rfl⟩
  have hfits := h 1 .plain _ hbuilds (by decide +kernel) "T" (by decide +kernel)
  revert hfits
  decide +kernel

/-- Three classes in a row, and two from elsewhere that can be converted to the second and to the
last. -/
def stairDecls : List TypeDecl :=
  [{ name := "Top", kind := "class" }, { name := "Middle", kind := "class", parents := ["Top"] },
    { name := "Bottom", kind := "class", parents := ["Middle"] },
    { name := "Door", kind := "class" },
    { name := "Ramp", kind := "class", parents := ["Door", "Top"] },
    { name := "Guest", kind := "class" }]

def top : Ty := .nominal "Top" .concrete false []

def middle : Ty := .nominal "Middle" .concrete false [top]

def bottom : Ty := .nominal "Bottom" .concrete false [middle]

def door : Ty := .nominal "Door" .concrete false []

def ramp : Ty := .nominal "Ramp" .concrete false [door, top]

def guest : Ty := .nominal "Guest" .concrete false []

def stairs : Universe :=
  ⟨⟨[("mixed", .mixed), ("Top", top), ("Middle", middle), ("Bottom", bottom), ("Door", door),
    ("Ramp", ramp), ("Guest", guest)]⟩⟩

def onStairs : List ConversionDecl :=
  [{ source := "Guest", target := "Middle", implicit := true },
    { source := "Door", target := "Bottom", implicit := true }]

def stairLattice : Lattice :=
  ⟨[⟨guest, middle, true, "Guest->Middle"⟩, ⟨door, bottom, true, "Door->Bottom"⟩]⟩

/-- **Targets that are not coherent.** Here no two types can stand together, so meets are coherent.
A guest narrows the upper bound to `Middle`, which raises the lower bound from `Ramp` to `Door`,
which narrows the upper bound further to `Bottom`; and then the guest is put in. -/
theorem not_keepsBounds_stairs : Universe.ofDecls stairDecls = .ok stairs ∧
    stairs.lattice onStairs = .ok stairLattice ∧
    stairLattice.MeetCoherent stairs (fun a v => stairLattice.Bridges a [v]) ∧
    ¬stairLattice.KeepsBounds stairs := by
  have hu : Universe.ofDecls stairDecls = .ok stairs := rfl
  have hlegible : stairs.Legible := ⟨Universe.sound_of_ofDecls hu, by decide, by decide⟩
  have hsub {a b : Ty} (ha : stairs.Declares a) (hb : stairs.Declares b) :
      stairLattice.isSubtype .none a b ↔ Sub a b :=
        isSubtype_iff hlegible (.declared ha) (.declared hb)
  have hclash : ∀ v ∈ stairs.all, ∀ w ∈ stairs.all, stairLattice.isSubtype .none v w ∨
      stairLattice.isSubtype .none w v ∨ Graph.clashes v w := by decide +kernel
  refine ⟨hu, rfl, ?_, fun h => ?_⟩
  · refine Lattice.meetCoherent_of_pairs fun a v w ha hv hw => ?_
    rw [← hsub hv hw, ← hsub hw hv]
    exact (hclash v hv.mem_all w hw.mem_all).imp_right (Or.imp_right .inl)
  · have hbuilds : ∀ c ∈ [Call.addVariable "$x" (some { id := "T" }), .addLower "T" ramp,
        .addUpper "T" top, .addLower "T" guest], c.Builds stairs.Declares := by
      simp only [List.mem_cons, List.not_mem_nil, or_false, forall_eq_or_imp, forall_eq,
        Call.Builds, true_and]
      exact ⟨rfl, rfl, rfl⟩
    have hfits := h 1 .plain _ hbuilds (by decide +kernel) "T" (by decide +kernel)
    revert hfits
    decide +kernel

end TypeBounds
