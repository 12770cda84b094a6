import TypeBounds.Proofs.Bridges
import TypeBounds.Proofs.Meets

/-!
# What fits where convertibles take part

Whether a member of a lower bound fits under a member of an upper bound is a question about plain
types only, once it is said what convertibles stand for. Here `V var e` says that the plain type `e`
is among what a convertible to `var` stands for:

* `Lattice.Fits l V p q`: every part of what `p` stands for is below all that `q` stands for. If `q`
  is a convertible, then being convertible to it is enough. Nothing is asked where one of the two
  stands for nothing;
* `Read`: the resolver of a graph agrees with `V` on a member;
* `subtypeWithin_iff_fits`, `isSubtype_inter_iff_fits`: then the checker decides `Fits`.
-/

namespace TypeBounds

section

variable {u : Universe} {a b e f p q t x : Ty} {ms : Members}

/-! ## Names of convertibles -/

theorem head?_name_asVar (cell : Option Nat) (owner : Nat) (var : String) :
    (Ty.asVar cell owner var).name.toList.head? = some '\x7b' := by
  rw [Ty.name, String.append_assoc, String.toList_append]
  rfl

theorem ConvertibleFree.head?_name (hu : u.Legible) (ht : ConvertibleFree u t) :
    t.name.toList.head? ≠ some '\x7b' := by
  induction ht with
  | declared h =>
    obtain ⟨c, cs, hname, hc, -⟩ := hu.identifiers _ h.mem_keys
    rw [hname]
    rintro ⟨⟩
    cases hc
  | @container side ms hkeys hnodup hms ih =>
    match ms, hkeys, ih with
    | [], _, _ =>
      rw [name_container_nil]
      cases side <;> decide
    | [(k, y)], hkeys, ih =>
      have hk : k = y.name := hkeys _ (List.mem_cons_self ..)
      rw [name_container_one, hk]
      exact ih _ (List.mem_cons_self ..)
    | m :: m' :: ms, _, _ =>
      rw [name_container, toList_joinNames side.toList_separator (by simp [Members.keys])]
      rintro ⟨⟩

/-- The name of a convertible is that of no other type. -/
theorem ConvertibleFree.name_ne_asVar (hu : u.Legible) (ht : ConvertibleFree u t)
    (cell : Option Nat) (owner : Nat) (var : String) : t.name ≠ (Ty.asVar cell owner var).name := by
  intro hname
  apply ht.head?_name hu
  rw [hname, head?_name_asVar]

end

/-! ## Convertibles on either side -/

section

variable {u : Universe} {l : Lattice} {r : Resolver} {a b e f p q t : Ty}
  {cell : Option Nat} {owner : Nat} {var : String} {depth : Nat}

/-- As it is or by a conversion, the type becomes one that is below the target. -/
def Lattice.Accepts (l : Lattice) (target a : Ty) : Prop :=
  Sub a target ∨ ∃ c ∈ l.conversions, Sub a c.source ∧ Sub c.target target

theorem le_foldr_add {α : Type} (f : α → Nat) {a : α} {xs : List α} (ha : a ∈ xs) :
    f a ≤ xs.foldr (fun x n => f x + n) 0 := by
  induction ha with
  | head => exact Nat.le_add_right ..
  | tail _ _ ih => exact ih.trans (Nat.le_add_left ..)

theorem Lattice.size_le_extent {c : Conversion} (hc : c ∈ l.conversions) :
    c.source.size + c.target.size ≤ l.extent :=
  le_foldr_add (fun c : Conversion => c.source.size + c.target.size) hc

/-- Implicit or explicit, any conversion that accepts the type will do. -/
theorem Lattice.isConvertible_iff {sub : Ty → Ty → Bool} (ha : ∀ ms, a ≠ .union ms) :
    l.isConvertible sub a b ↔ ∃ c ∈ l.candidates sub a, sub c.target b := by
  rw [isConvertible, bridge?_eq_find? ha, Bool.or_eq_true, List.find?_isSome, explicits,
    List.any_filter, List.any_eq_true]
  simp only [Bool.and_eq_true, Bool.not_eq_true']
  constructor
  · rintro (⟨c, hc, -, hsub⟩ | ⟨c, hc, -, hsub⟩) <;> exact ⟨c, hc, hsub⟩
  · rintro ⟨c, hc, hsub⟩
    cases himplicit : c.implicit with
    | true => exact .inl ⟨c, hc, himplicit, hsub⟩
    | false => exact .inr ⟨c, hc, himplicit, hsub⟩

/-- **A convertible on the right** accepts a type if it accepts every part of it. -/
theorem subtypeWithin_asVar_iff (hu : u.Legible) (hl : u.Converts l) (ha : ConvertibleFree u a)
    (hf : ConvertibleFree u f) (hres : r.resolve owner var = some f)
    (hdepth : a.size + f.size + l.extent < depth) :
    l.subtypeWithin r depth a (.asVar cell owner var) ↔ ∀ p ∈ a.unionParts, l.Accepts f p := by
  induction depth generalizing a with
  | zero => omega
  | succ depth ih =>
    have hname := ha.name_ne_asVar hu cell owner var
    have hsubtype {a b : Ty} (ha : ConvertibleFree u a) (hb : ConvertibleFree u b)
        (hsize : a.size + b.size ≤ depth) : l.subtypeWithin r depth a b ↔ Sub a b :=
      subtypeWithin_iff hu ha hb hsize
    -- a type that is no union is compared with what the convertible stands for
    have hpart (hne : ∀ ms, a ≠ .union ms)
        (hstep : l.subtypeWithin r (depth + 1) a (.asVar cell owner var) = (r.resolve owner var).any
          fun t => l.subtypeWithin r depth a t || l.isConvertible (l.subtypeWithin r depth) a t) :
        l.subtypeWithin r (depth + 1) a (.asVar cell owner var) ↔ ∀ p ∈ a.unionParts,
        l.Accepts f p := by
      have hcandidate {c : Conversion} (hc : c ∈ l.conversions) :
          l.subtypeWithin r depth a c.source ↔ Sub a c.source := by
        have := Lattice.size_le_extent hc
        exact hsubtype ha (.declared (hl c hc).1) (by omega)
      have hmem (c : Conversion) : c ∈ l.candidates (l.subtypeWithin r depth) a ↔
          c ∈ l.conversions ∧ Sub a c.source := by
        rw [Lattice.mem_candidates fun c hc hname => ?_]
        · exact and_congr_right hcandidate
        · rw [hcandidate hc, sub_iff_under hne]
          exact .same hname.symm
      rw [unionParts_eq hne, List.forall_mem_singleton, hstep, hres, Option.any_some,
        Bool.or_eq_true, hsubtype ha hf (by omega), Lattice.isConvertible_iff hne]
      refine or_congr_right (exists_congr fun c => ?_)
      rw [hmem, and_assoc]
      refine and_congr_right fun hc => and_congr_right fun _ => ?_
      have := Lattice.size_le_extent hc
      exact hsubtype (.declared (hl c hc).2) hf (by omega)
    rcases ha.cases hu.toSound with rfl | ⟨_, _, _, _, rfl⟩ | ⟨ms, rfl⟩ | ⟨ms, rfl⟩
    · refine hpart (fun _ h => by cases h) ?_
      rw [Lattice.subtypeWithin, Lattice.subtypeStep.eq_def, if_neg hname]
    · refine hpart (fun _ h => by cases h) ?_
      rw [Lattice.subtypeWithin, Lattice.subtypeStep.eq_def, if_neg hname]
    · obtain ⟨-, -, hms⟩ := ha.of_container hu.toSound .lower
      rw [Lattice.subtypeWithin, Lattice.subtypeStep.eq_def, if_neg hname, List.all_eq_true]
      simp only [mem_unionParts_union]
      have hmember {m : String × Ty} (hm : m ∈ ms) := ih (hms m hm) (by
        have : m.2.size < (Ty.union ms).size := size_lt_container .lower hm
        omega)
      constructor
      · rintro h p ⟨m, hm, hp⟩
        exact (hmember hm).1 (h m hm) p hp
      · intro h m hm
        exact (hmember hm).2 fun p hp => h p ⟨m, hm, hp⟩
    · refine hpart (fun _ h => by cases h) ?_
      rw [Lattice.subtypeWithin, Lattice.subtypeStep.eq_def, if_neg hname]

/-- **A convertible on the left** is below what it stands for is below. -/
theorem asVar_subtypeWithin_iff (hname : (Ty.asVar cell owner var).name ≠ b.name)
    (hmixed : b ≠ .mixed) (hinter : ∀ ms, b ≠ .inter ms) (hres : r.resolve owner var = some t) :
    l.subtypeWithin r (depth + 1) (.asVar cell owner var) b ↔ l.subtypeWithin r depth t b := by
  rw [Lattice.subtypeWithin, Lattice.subtypeStep.eq_def, if_neg hname]
  cases b with
  | mixed => exact absurd rfl hmixed
  | inter ms => exact absurd rfl (hinter ms)
  | _ => simp only [hres, Option.any_some]

/-! ## Fitting -/

/-- What a member stands for, if a convertible to `var` stands for the plain types of `V var`. -/
def StandsFor (V : String → Ty → Prop) : Ty → Ty → Prop
  | .asVar _ _ var, e => V var e
  | p, e => e = p

/-- **The lower member `p` fits under the upper member `q`.** -/
def Lattice.Fits (l : Lattice) (V : String → Ty → Prop) (p q : Ty) : Prop :=
  p.name = q.name ∨ ∀ e, StandsFor V p e → ∀ a ∈ e.unionParts,
    (∀ f, StandsFor V q f → Sub a f) ∨
      q.isConvertible ∧ ∃ c ∈ l.conversions, Sub a c.source ∧ ∀ f, StandsFor V q f → Sub c.target f

variable {V V' : String → Ty → Prop}

theorem ConvertibleFree.standsFor_iff (hu : u.Sound) (hp : ConvertibleFree u p) :
    StandsFor V p e ↔ e = p := by
  rcases hp.cases hu with rfl | ⟨_, _, _, _, rfl⟩ | ⟨_, rfl⟩ | ⟨_, rfl⟩ <;> rfl

theorem StandsFor.mono (hV : ∀ x e, V x e → V' x e) (h : StandsFor V p e) : StandsFor V' p e := by
  cases p with
  | asVar cell owner var => exact hV var e h
  | _ => exact h

/-- Where less is stood for, more fits. -/
theorem Lattice.Fits.anti (hV : ∀ x e, V' x e → V x e) (h : l.Fits V p q) : l.Fits V' p q := by
  refine h.imp_right fun h e he a ha => ?_
  rcases h e (he.mono hV) a ha with hall | ⟨hq, c, hc, hsource, htarget⟩
  · exact .inl fun f hf => hall f (hf.mono hV)
  · exact .inr ⟨hq, c, hc, hsource, fun f hf => htarget f (hf.mono hV)⟩

/-- **What fits still fits where more is covered**: what the lower member stands for is below what
was there before, and what the upper member stands for is above it. -/
theorem Lattice.Fits.of_covered {p' q' : Ty} (hu : u.Legible) (hl : u.Converts l) (h : l.Fits V p q)
    (hlower : ∀ e', StandsFor V' p' e' →
      ∃ e, StandsFor V p e ∧ TypeBounds.Plain u e' ∧ TypeBounds.Plain u e ∧ Sub e' e)
    (hupper : ∀ f', StandsFor V' q' f' →
      ∃ f, StandsFor V q f ∧ TypeBounds.Plain u f' ∧ TypeBounds.Plain u f ∧ Sub f f')
    (hconv : q.isConvertible → q'.isConvertible) (hname : p.name = q.name → l.Fits V' p' q') :
    l.Fits V' p' q' := by
  rcases h with h | h
  · exact hname h
  refine .inr fun e' he' a ha => ?_
  obtain ⟨e, he, hplain', hplain, hsub⟩ := hlower e' he'
  obtain ⟨haplain, hafree⟩ := hplain'.of_mem_unionParts hu.toSound ha
  obtain ⟨b, hb, hab⟩ :=
    (hsub a ha).exists_part hu haplain.convertibleFree hafree.firm hplain.convertibleFree
  have hbcf := (hplain.of_mem_unionParts hu.toSound hb).1.convertibleFree
  have hab : Sub a b := (sub_iff_under (hafree a (mem_subterms_self a))).2 hab
  rcases h e he b hb with hall | ⟨hq, c, hc, hsource, htarget⟩
  · refine .inl fun f' hf' => ?_
    obtain ⟨f, hf, hfplain', hfplain, hff'⟩ := hupper f' hf'
    have hbf' := hall f hf
    exact (hab.trans hu haplain hbcf hfplain.convertibleFree hbf').trans hu haplain
      hfplain.convertibleFree hfplain'.convertibleFree hff'
  · obtain ⟨hcs, hct⟩ := hl c hc
    refine .inr ⟨hconv hq, c, hc, hab.trans hu haplain hbcf (.declared hcs) hsource,
      fun f' hf' => ?_⟩
    obtain ⟨f, hf, hfplain', hfplain, hff'⟩ := hupper f' hf'
    exact (htarget f hf).trans hu (hu.toSound.plain hct) hfplain.convertibleFree
      hfplain'.convertibleFree hff'

/-- The type that a convertible resolves to says on its side of the bounds what the types `S` say
together: it has their parts, or it is above exactly what is below all of them. -/
def Side.Sums (u : Universe) (side : Side) (S : Ty → Prop) (t : Ty) : Prop :=
  match side with
  | .lower => Plain u t ∧ ∀ a, a ∈ t.unionParts ↔ ∃ e, S e ∧ a ∈ e.unionParts
  | .upper => ConvertibleFree u t ∧ ∀ a, Plain u a → UnionFree a → (Sub a t ↔ ∀ f, S f → Sub a f)

/-- **The graph agrees with `V`** on what a member of a bound stands for, which is plain or a
convertible. -/
inductive Read (u : Universe) (g : Graph) (V : String → Ty → Prop) (side : Side) : Ty → Prop where
  | plain {p : Ty} (hp : Plain u p) (hne : ∀ ms, p ≠ side.container ms) : Read u g V side p
  | idle {cell : Option Nat} {owner : Nat} {var : String} (hres : g.resolver.resolve owner var =
      none) (hV : ∀ e, ¬V var e) : Read u g V side (.asVar cell owner var)
  | resolved {cell : Option Nat} {owner : Nat} {var : String} {t : Ty}
      (hres : g.resolver.resolve owner var = some t) (hsize : t.size ≤ g.resolver.extent)
      (hV : side.Sums u (V var) t) : Read u g V side (.asVar cell owner var)

variable {g : Graph} {side : Side}

/-- Nothing is asked of a member that stands for nothing. -/
theorem Read.not_standsFor (hu : u.Sound) (hp : Read u g V side p) (h : g.isUnresolved p) :
    ¬StandsFor V p e := by
  cases hp with
  | plain hp => 
    rw [hp.convertibleFree.isUnresolved_eq hu] at h
    cases h
  | idle _ hV => exact hV e
  | resolved hres =>
    rw [Graph.isUnresolved, Resolver.target?, hres] at h
    cases h

/-- A member that stands for something and the type it stands for are below the same types. -/
theorem Read.exists_type (hu : u.Sound) (hp : Read u g V .lower p) (hres : g.isUnresolved p = false)
    (depth : Nat) : ∃ t depth', Plain u t ∧ t.size ≤ p.size + g.resolver.extent ∧ depth ≤ depth' ∧
      (∀ a, a ∈ t.unionParts ↔ ∃ e, StandsFor V p e ∧ a ∈ e.unionParts) ∧
      ∀ b, p.name ≠ b.name → b ≠ .mixed → (∀ ms, b ≠ .inter ms) →
        (g.lattice.subtypeWithin g.resolver (depth + 1) p b ↔
          g.lattice.subtypeWithin g.resolver depth' t b) := by
  cases hp with
  | plain hp hne =>
    refine ⟨p, depth + 1, hp, Nat.le_add_right .., Nat.le_succ depth, fun a => ?_,
      fun _ _ _ _ => .rfl⟩
    simp only [hp.convertibleFree.standsFor_iff hu, exists_eq_left]
  | idle hidle =>
    rw [Graph.isUnresolved, Resolver.target?, hidle] at hres
    cases hres
  | @resolved cell owner var t ht hsize hV =>
    exact ⟨t, depth, hV.1, hsize.trans (Nat.le_add_left ..), le_rfl, hV.2,
      fun b hname hmixed hinter => asVar_subtypeWithin_iff hname hmixed hinter ht⟩

/-- An upper member that stands for something accepts exactly what fits under it. -/
theorem Read.subtypeWithin_iff (hu : u.Legible) (hl : u.Converts g.lattice)
    (hq : Read u g V .upper q) (hres : g.isUnresolved q = false) (ht : Plain u t)
    (hdepth : t.size + q.size + g.resolver.extent + g.lattice.extent < depth) :
    g.lattice.subtypeWithin g.resolver depth t q ↔ ∀ a ∈ t.unionParts,
      (∀ f, StandsFor V q f → Sub a f) ∨ q.isConvertible ∧
        ∃ c ∈ g.lattice.conversions, Sub a c.source ∧ ∀ f, StandsFor V q f → Sub c.target f := by
  cases hq with
  | plain hq hne =>
    rw [TypeBounds.subtypeWithin_iff hu ht.convertibleFree hq.convertibleFree (by omega)]
    refine forall₂_congr fun a ha => ?_
    have hne := (ht.convertibleFree.of_mem_unionParts hu.toSound ha).2.1
    simp only [hq.convertibleFree.standsFor_iff hu.toSound,
      hq.convertibleFree.isConvertible_eq hu.toSound, forall_eq, Bool.false_eq_true, false_and,
      or_false, sub_iff_under hne]
  | idle hidle =>
    rw [Graph.isUnresolved, Resolver.target?, hidle] at hres
    cases hres
  | @resolved cell owner var f hf hsize hV =>
    obtain ⟨hfree, hsub⟩ := hV
    rw [subtypeWithin_asVar_iff hu hl ht.convertibleFree hfree hf (by omega)]
    refine forall₂_congr fun a ha => ?_
    obtain ⟨haplain, hafree⟩ := ht.of_mem_unionParts hu.toSound ha
    refine or_congr (hsub a haplain hafree) ?_
    rw [Ty.isConvertible, eq_self, true_and]
    refine exists_congr fun c => and_congr_right fun hc => and_congr_right fun _ => ?_
    exact hsub _ (hu.toSound.plain (hl c hc).2) (hu.toSound.unionFree (hl c hc).2)

/-- **The checker decides what fits**, unrolled deep enough and for members that stand for
something. -/
theorem subtypeWithin_iff_fits (hu : u.Legible) (hl : u.Converts g.lattice)
    (hp : Read u g V .lower p) (hq : Read u g V .upper q) (hpres : g.isUnresolved p = false)
    (hqres : g.isUnresolved q = false)
    (hdepth : p.size + q.size + 2 * g.resolver.extent + g.lattice.extent < depth) :
    g.lattice.subtypeWithin g.resolver (depth + 1) p q ↔ g.lattice.Fits V p q := by
  by_cases hname : p.name = q.name
  · refine iff_of_true ?_ (.inl hname)
    rw [Lattice.subtypeWithin, Lattice.subtypeStep.eq_def, if_pos hname]
  have hinter : ∀ ms, q ≠ .inter ms := by
    cases hq with
    | plain _ hne => exact hne
    | _ => exact fun ms h => by cases h
  obtain ⟨t, depth', ht, hsize, hle, hparts, hiff⟩ := hp.exists_type hu.toSound hpres depth
  have hfits : g.lattice.Fits V p q ↔ ∀ a ∈ t.unionParts, (∀ f, StandsFor V q f → Sub a f) ∨
      q.isConvertible ∧ ∃ c ∈ g.lattice.conversions, Sub a c.source ∧ ∀ f, StandsFor V q f →
      Sub c.target f := by
    rw [Lattice.Fits, or_iff_right hname]
    simp only [hparts]
    constructor
    · rintro h a ⟨e, he, ha⟩
      exact h e he a ha
    · intro h e he a ha
      exact h a ⟨e, he, ha⟩
  rw [hfits]
  by_cases hmixed : q = .mixed
  · subst hmixed
    refine iff_of_true ?_ fun a _ => .inl fun f hf => ?_
    · rw [Lattice.subtypeWithin, Lattice.subtypeStep.eq_def, if_neg hname]
    · rw [show f = .mixed from hf]
      exact fun _ _ => .mixed
  · rw [hiff q hname hmixed hinter]
    exact hq.subtypeWithin_iff hu hl hqres ht (by omega)

/-- A member of a lower bound is no union. -/
theorem Read.ne_union (hp : Read u g V .lower p) : ∀ ms, p ≠ .union ms := by
  cases hp with
  | plain _ hne => exact hne
  | _ => exact fun ms h => by cases h

theorem isSubtype_iff_fits (hu : u.Legible) (hl : u.Converts g.lattice) (hp : Read u g V .lower p)
    (hq : Read u g V .upper q) (hpres : g.isUnresolved p = false)
    (hqres : g.isUnresolved q = false) : g.isSubtype p q ↔ g.lattice.Fits V p q := by
  refine subtypeWithin_iff_fits hu hl hp hq hpres hqres ?_
  have hps := one_le_size p
  have hqs := one_le_size q
  have hsq := Nat.mul_le_mul_right (p.size + q.size + g.resolver.extent + g.lattice.extent)
    (show 2 ≤ p.size + q.size + g.resolver.extent + g.lattice.extent by omega)
  rw [Nat.pow_eq, Nat.pow_two]
  omega

/-- Between plain members, fitting is subtyping. -/
theorem Plain.fits_iff (hu : u.Legible) (hp : Plain u p) (hne : ∀ ms, p ≠ .union ms)
    (hq : Plain u q) : l.Fits V p q ↔ Sub p q := by
  have hpcf := hp.convertibleFree
  have hqcf := hq.convertibleFree
  simp only [Lattice.Fits, hpcf.standsFor_iff hu.toSound, hqcf.standsFor_iff hu.toSound, forall_eq,
    unionParts_eq hne, List.mem_singleton, hqcf.isConvertible_eq hu.toSound,
    Bool.false_eq_true, false_and, or_false, or_iff_right_iff_imp, sub_iff_under hne]
  exact .same

/-- **The check against a whole upper bound**: all of it is plain, or there is one convertible
only. -/
theorem isSubtype_inter_iff_fits {ms : Members} (hu : u.Legible) (hl : u.Converts g.lattice)
    (hp : Read u g V .lower p) (hpres : g.isUnresolved p = false) (hkeyed : ms.Keyed)
    (hms : (∀ q ∈ Members.types ms, Plain u q) ∨ ∃ q : Ty, Members.types ms = [q])
    (hread : ∀ q ∈ Members.types ms, Read u g V .upper q ∧ g.isUnresolved q = false) :
    g.isSubtype p (.inter ms) ↔ ∀ q ∈ Members.types ms, g.lattice.Fits V p q := by
  have hcf (hplain : ∀ q ∈ Members.types ms, Plain u q) : ConvertibleFree u (.inter ms) := by
    refine .container .upper hkeyed.key hkeyed.nodup fun m hm => ?_
    exact (hplain m.2 (Members.mem_types.2 ⟨m, hm, rfl⟩)).convertibleFree
  -- where names coincide by chance, it is a matter of plain types
  by_cases hname : p.name = (Ty.inter ms).name
  · refine iff_of_true (g.lattice.isSubtype_of_name_eq g.resolver hname) ?_
    rcases hms with hplain | ⟨q, hq⟩
    · cases hp with
      | @plain p hp hne =>
        intro q hq
        obtain ⟨m, hm, rfl⟩ := Members.mem_types.1 hq
        rw [hp.fits_iff hu hne (hplain _ hq)]
        exact (sub_inter_iff hu hp (hcf hplain)).1 ((sub_iff_under hne).2 (.same hname)) m hm
      | _ => exact absurd hname.symm ((hcf hplain).name_ne_asVar hu _ _ _)
    · rw [hq, List.forall_mem_singleton]
      obtain ⟨m, rfl, rfl⟩ := List.map_eq_singleton_iff.1 hq
      exact .inl (hname.trans ((name_container_one .upper m.1 m.2).trans
        (hkeyed.key m (List.mem_singleton_self m))))
  · have hstep : g.isSubtype p (.inter ms) ↔ ∀ m ∈ ms, g.lattice.subtypeWithin g.resolver
        ((p.size + (Ty.inter ms).size + g.resolver.extent + g.lattice.extent) *
          (p.size + (Ty.inter ms).size + g.resolver.extent + g.lattice.extent)) p m.2 := by
      rw [Graph.isSubtype, Lattice.isSubtype, Lattice.depth_eq, Lattice.subtypeWithin,
        Lattice.subtypeStep.eq_def, if_neg hname]
      have hne := hp.ne_union
      cases p with
      | union ms => exact absurd rfl (hne ms)
      | _ => exact List.all_eq_true
    rw [hstep]
    simp only [Members.mem_types, forall_exists_index, and_imp, forall_apply_eq_imp_iff₂]
    refine forall₂_congr fun m hm => ?_
    obtain ⟨hq, hqres⟩ := hread m.2 (Members.mem_types.2 ⟨m, hm, rfl⟩)
    have hps := one_le_size p
    have hqs : m.2.size < (Ty.inter ms).size := size_lt_container .upper hm
    obtain ⟨depth, hdepth⟩ : ∃ depth,
        (p.size + (Ty.inter ms).size + g.resolver.extent + g.lattice.extent) *
          (p.size + (Ty.inter ms).size + g.resolver.extent + g.lattice.extent) = depth + 1 :=
      Nat.exists_eq_add_one_of_ne_zero (Nat.mul_ne_zero (by omega) (by omega))
    rw [hdepth]
    refine subtypeWithin_iff_fits hu hl hp hq hpres hqres ?_
    have hsq := Nat.mul_le_mul_right
      (p.size + (Ty.inter ms).size + g.resolver.extent + g.lattice.extent)
      (show 2 ≤ p.size + (Ty.inter ms).size + g.resolver.extent + g.lattice.extent by omega)
    omega

/-- **No implicit conversion** accepts a lower member, if none accepts a part of what it stands
for. -/
theorem Read.implicit?_eq_none (hu : u.Legible) (hl : u.Converts g.lattice)
    (hp : Read u g V .lower p) (hpres : g.isUnresolved p = false)
    (hquiet : ∃ e, StandsFor V p e ∧ ∃ a ∈ e.unionParts, ∀ c ∈ g.lattice.conversions, c.implicit →
      ¬Sub a c.source) :
    g.implicit? p b = none := by
  obtain ⟨e, he, a, ha, hquiet⟩ := hquiet
  rw [Graph.implicit?, Lattice.implicit?, Lattice.bridge?_eq_find? hp.ne_union, List.find?_eq_none]
  intro c hc
  have hconv := Lattice.mem_conversions_of_mem_candidates hc
  have hsource : Read u g V .upper c.source :=
    .plain (hu.toSound.plain (hl c hconv).1) (hu.toSound.ne_container (hl c hconv).1 .upper)
  have hcf : ConvertibleFree u c.source := .declared (hl c hconv).1
  have hsub : g.isSubtype p c.source := by
    refine ((Lattice.mem_candidates fun c _ hname => ?_).1 hc).2
    exact Lattice.isSubtype_of_name_eq _ _ hname.symm
  rw [isSubtype_iff_fits hu hl hp hsource hpres (hcf.isUnresolved_eq hu.toSound)] at hsub
  have haccepts : Sub a c.source := by
    cases hp with
    | plain hp hne =>
      obtain rfl := (hp.convertibleFree.standsFor_iff hu.toSound).1 he
      rw [unionParts_eq hne, List.mem_singleton] at ha
      rw [ha]
      exact (hp.fits_iff hu hne (hu.toSound.plain (hl c hconv).1)).1 hsub
    | _ =>
      rcases hsub with hname | hsub
      · exact absurd hname.symm (hcf.name_ne_asVar hu _ _ _)
      rcases hsub e he a ha with hall | ⟨hconvertible, -⟩
      · exact hall _ ((hcf.standsFor_iff hu.toSound).2 rfl)
      · rw [hcf.isConvertible_eq hu.toSound] at hconvertible
        cases hconvertible
  have himplicit : c.implicit = false :=
    Bool.eq_false_iff.2 fun himplicit => hquiet c hconv himplicit haccepts
  rw [himplicit]
  exact Bool.false_ne_true

end

end TypeBounds
