import Mathlib.Data.Finset.Prod
import TypeBounds.Proofs.Bare
import TypeBounds.Proofs.Conversions

/-!
# Where questions lead

To find out whether one type is a subtype of another, other questions come up: about members, about
what convertibles stand for, and about conversions. `Asks` says which questions a question leads to
directly. What has to be shown is that this comes to an end, although the type that takes the place
of another one may be larger:

* a convertible on the right brings up what it stands for, and whatever converts to that.
  Conversions lead between named types, from which nothing else comes out, so the right side is
  looked at first and then the left one (`acc_subtype`);
* what comes out of a type (`Opens`) comes to an end if variables are ranked
  (`acc_opens_of_ranked`);
* the answer depends on nothing but the questions that come up (`Question.answer_congr`);
* a type has as many constituents as its size says, so the depth to which questions are unrolled is
  enough for all of them (`isSubtype_eq_subtypeStep`).

Main statement: `questions_end`.
-/

namespace TypeBounds

open Relation

/-! ## Definitions -/

/-- The type has a name of its own: it is no container and no convertible. -/
def Ty.IsNamed : Ty → Prop
  | .mixed | .nominal .. => True
  | _ => False

/-- **What comes out of a type** when it is opened: a member of a container, or what a convertible
stands for. -/
inductive Opens (r : Resolver) : Ty → Ty → Prop
  | member {t : Ty} {m : String × Ty} (hm : m ∈ t.members) : Opens r m.2 t
  | target {t target : Ty} (h : r.target? t = some target) : Opens r target t

/-- A question about types. -/
inductive Question where
  /-- Is the first type a subtype of the second one? -/
  | subtype (a b : Ty)
  /-- Does some conversion lead from the first type to the second one? -/
  | convertible (a b : Ty)
  /-- Which implicit conversion leads from the first type to the second one? -/
  | implicit (a b : Ty)
  /-- Which conversions accept the type? -/
  | candidates (a : Ty)

namespace Question

/-- The types that a question is about. -/
def types : Question → List Ty
  | subtype a b | convertible a b | implicit a b => [a, b]
  | candidates a => [a]

/-- What an answer to the question looks like. -/
def Answer : Question → Type
  | subtype .. | convertible .. => Bool
  | implicit .. => Option Conversion
  | candidates _ => List Conversion

/-- The answer to a question, where `sub` answers the questions about subtypes that come up. -/
def answer (l : Lattice) (r : Resolver) (sub : Ty → Ty → Bool) : (q : Question) → q.Answer
  | subtype a b => l.subtypeStep r sub a b
  | convertible a b => l.isConvertible sub a b
  | implicit a b => l.bridge? sub a b
  | candidates a => l.candidates sub a

end Question

/-- **What a question leads to.** The second question asks the first one directly. -/
inductive Asks (l : Lattice) (r : Resolver) : Question → Question → Prop
  | left {a a' b : Ty} (h : Opens r a' a) : Asks l r (.subtype a' b) (.subtype a b)
  | right {a b b' : Ty} (h : Opens r b' b) : Asks l r (.subtype a b') (.subtype a b)
  | converted {a b b' : Ty} (h : r.target? b = some b') : Asks l r (.convertible a b')
    (.subtype a b)
  | implicitly {a b : Ty} : Asks l r (.implicit a b) (.convertible a b)
  | explicitly {a b : Ty} : Asks l r (.candidates a) (.convertible a b)
  | arrives {a b : Ty} {c : Conversion} (hc : c ∈ l.conversions) :
    Asks l r (.subtype c.target b) (.convertible a b)
  | fits {a b : Ty} {m : String × Ty} (hm : m ∈ a.members) : Asks l r (.subtype m.2 b)
    (.implicit a b)
  | bridged {a b : Ty} {m : String × Ty} (hm : m ∈ a.members) : Asks l r (.implicit m.2 b)
    (.implicit a b)
  | accepted {a b : Ty} : Asks l r (.candidates a) (.implicit a b)
  | reaches {a b : Ty} {c : Conversion} (hc : c ∈ l.conversions) : Asks l r (.subtype c.target b)
    (.implicit a b)
  | departs {a : Ty} {c : Conversion} (hc : c ∈ l.conversions) : Asks l r (.subtype a c.source)
    (.candidates a)

section

variable {l : Lattice} {r : Resolver} {a b s t : Ty} {q q' : Question} {sub sub' : Ty → Ty → Bool}

/-! ## What comes out of a type -/

theorem Ty.IsNamed.not_opens (h : t.IsNamed) : ¬Opens r s t := by
  intro hopens
  cases t with
  | mixed | nominal =>
    cases hopens with
    | member hm => cases hm
    | target ht => cases ht
  | _ => exact h

theorem Ty.IsNamed.acc (h : t.IsNamed) : Acc (Opens r) t := ⟨t, fun _ hs => (h.not_opens hs).elim⟩

theorem Opens.container {side : Side} {ms : Members} {m : String × Ty} (hm : m ∈ ms) :
    Opens r m.2 (side.container ms) := by
  refine .member ?_
  cases side <;> exact hm

theorem opens_container_iff {side : Side} {ms : Members} :
    Opens r s (side.container ms) ↔ ∃ m ∈ ms, s = m.2 := by
  constructor
  · intro h
    cases h with
    | member hm => exact ⟨_, by cases side <;> exact hm, rfl⟩
    | target ht => cases side <;> cases ht
  · rintro ⟨m, hm, rfl⟩
    exact .container hm

/-- What a type opens to comes to an end if this is so for the open convertibles in it. -/
theorem acc_opens (h : ∀ p ∈ t.bindings, ∀ cell, Acc (Opens r) (.asVar cell p.1 p.2)) :
    Acc (Opens r) t := by
  induction t using Ty.memberInduction with
  | mixed => exact Ty.IsNamed.acc trivial
  | nominal => exact Ty.IsNamed.acc trivial
  | container side ms ih =>
    refine ⟨_, fun s hs => ?_⟩
    obtain ⟨m, hm, rfl⟩ := opens_container_iff.1 hs
    refine ih m hm fun p hp => h p ?_
    rw [Ty.bindings_container, Ty.mem_bindingsAll]
    exact ⟨m, hm, hp⟩
  | asVar cell owner var => exact h (owner, var) (by simp [Ty.bindings]) cell
  | asType target ih =>
    refine ⟨_, fun s hs => ?_⟩
    cases hs with
    | member hm => cases hm
    | target ht =>
      obtain rfl := Option.some_inj.1 ht
      exact ih fun p hp => h p (by simpa [Ty.bindings] using hp)

/-- **Ranked variables** keep types from opening forever: what a variable stands for mentions
variables of smaller rank only. -/
theorem acc_opens_of_ranked {rank : Nat → String → Option Nat}
    (hrank : ∀ owner var n t, rank owner var = some n → r.resolve owner var = some t →
      ∀ p ∈ t.bindings, ∃ k < n, rank p.1 p.2 = some k)
    (ht : ∀ p ∈ t.bindings, (rank p.1 p.2).isSome) : Acc (Opens r) t := by
  have hvar (n : Nat) : ∀ cell owner var, rank owner var = some n →
      Acc (Opens r) (.asVar cell owner var) := by
    induction n using Nat.strongRecOn with
    | ind n ih =>
      intro cell owner var hn
      refine ⟨_, fun s hs => ?_⟩
      cases hs with
      | member hm => cases hm
      | target hs =>
        refine acc_opens fun p hp cell' => ?_
        obtain ⟨k, hk, hpk⟩ := hrank owner var n s hn hs p hp
        exact ih k hk cell' p.1 p.2 hpk
  refine acc_opens fun p hp cell => ?_
  obtain ⟨n, hn⟩ := Option.isSome_iff_exists.1 (ht p hp)
  exact hvar n cell p.1 p.2 hn

/-! ## Questions come to an end -/

/-- Below a named type only the left side is opened. -/
theorem acc_subtype_of_isNamed (ha : Acc (Opens r) a) (hb : b.IsNamed) :
    Acc (Asks l r) (.subtype a b) := by
  induction ha with
  | intro a _ ih =>
    refine ⟨_, fun q hq => ?_⟩
    cases hq with
    | left h => exact ih _ h
    | right h => exact absurd h hb.not_opens
    | converted h => exact absurd (.target h) hb.not_opens

section

variable (hl : ∀ c ∈ l.conversions, c.source.IsNamed ∧ c.target.IsNamed)
include hl

theorem acc_candidates (ha : Acc (Opens r) a) : Acc (Asks l r) (.candidates a) := by
  refine ⟨_, fun q hq => ?_⟩
  cases hq with
  | departs hc => exact acc_subtype_of_isNamed ha (hl _ hc).1

theorem acc_implicit (hb : ∀ a, Acc (Opens r) a → Acc (Asks l r) (.subtype a b))
    (ha : Acc (Opens r) a) : Acc (Asks l r) (.implicit a b) := by
  induction ha with
  | intro a ha ih =>
    refine ⟨_, fun q hq => ?_⟩
    cases hq with
    | fits hm => exact hb _ (ha _ (.member hm))
    | bridged hm => exact ih _ (.member hm)
    | accepted => exact acc_candidates hl ⟨_, ha⟩
    | reaches hc => exact hb _ (hl _ hc).2.acc

theorem acc_convertible (hb : ∀ a, Acc (Opens r) a → Acc (Asks l r) (.subtype a b))
    (ha : Acc (Opens r) a) : Acc (Asks l r) (.convertible a b) := by
  refine ⟨_, fun q hq => ?_⟩
  cases hq with
  | implicitly => exact acc_implicit hl hb ha
  | explicitly => exact acc_candidates hl ha
  | arrives hc => exact hb _ (hl _ hc).2.acc

/-- **Questions about subtypes come to an end**, by induction on what comes out of the right side
and then on what comes out of the left one. A conversion may put any type on the left, but only
while the right side is opened. -/
theorem acc_subtype (ha : Acc (Opens r) a) (hb : Acc (Opens r) b) :
    Acc (Asks l r) (.subtype a b) := by
  induction hb generalizing a with
  | intro b _ ihb =>
    induction ha with
    | intro a ha iha =>
      refine ⟨_, fun q hq => ?_⟩
      cases hq with
      | left h => exact iha _ h
      | right h => exact ihb _ h ⟨_, ha⟩
      | converted h => exact acc_convertible hl (fun _ ha' => ihb _ (.target h) ha') ⟨_, ha⟩

theorem acc_asks (hq : ∀ t ∈ q.types, Acc (Opens r) t) : Acc (Asks l r) q := by
  cases q with
  | subtype a b =>
    exact acc_subtype hl (hq a (by simp [Question.types])) (hq b (by simp [Question.types]))
  | convertible a b =>
    exact acc_convertible hl (fun _ ha => acc_subtype hl ha (hq b (by simp [Question.types])))
      (hq a (by simp [Question.types]))
  | implicit a b =>
    exact acc_implicit hl (fun _ ha => acc_subtype hl ha (hq b (by simp [Question.types])))
      (hq a (by simp [Question.types]))
  | candidates a => exact acc_candidates hl (hq a (by simp [Question.types]))

end

/-- A property that goes over to what a type opens to, and that conversions have at both ends, stays
with the types that questions are about. -/
theorem Asks.types_of {P : Ty → Prop} (hopens : ∀ s t, Opens r s t → P t → P s)
    (hconv : ∀ c ∈ l.conversions, P c.source ∧ P c.target) (h : Asks l r q' q)
    (hq : ∀ t ∈ q.types, P t) : ∀ t ∈ q'.types, P t := by
  cases h <;> simp only [Question.types, List.forall_mem_cons, List.not_mem_nil, false_imp_iff,
    implies_true, and_true] at hq ⊢
  case left h => exact ⟨hopens _ _ h hq.1, hq.2⟩
  case right h => exact ⟨hq.1, hopens _ _ h hq.2⟩
  case converted h => exact ⟨hq.1, hopens _ _ (.target h) hq.2⟩
  case implicitly => exact hq
  case explicitly => exact hq.1
  case arrives hc => exact ⟨(hconv _ hc).2, hq.2⟩
  case fits hm => exact ⟨hopens _ _ (.member hm) hq.1, hq.2⟩
  case bridged hm => exact ⟨hopens _ _ (.member hm) hq.1, hq.2⟩
  case accepted => exact hq.1
  case reaches hc => exact ⟨(hconv _ hc).2, hq.2⟩
  case departs hc => exact ⟨hq, (hconv _ hc).1⟩

/-! ## The questions asked decide the answer -/

/-- The questions about subtypes that come up below a question, directly or not, are answered
alike. -/
def Agree (l : Lattice) (r : Resolver) (sub sub' : Ty → Ty → Bool) (q : Question) : Prop :=
  ∀ a b, TransGen (Asks l r) (.subtype a b) q → sub a b = sub' a b

theorem Agree.asked (h : Agree l r sub sub' q) (hq : Asks l r q' q) : Agree l r sub sub' q' :=
  fun a b hab => h a b (hab.tail hq)

theorem Agree.eq (h : Agree l r sub sub' q) (hq : Asks l r (.subtype a b) q) : sub a b = sub' a b :=
  h a b (.single hq)

theorem Lattice.candidates_congr_of_agree (h : Agree l r sub sub' (.candidates a)) :
    l.candidates sub a = l.candidates sub' a :=
  candidates_congr rfl fun _ hc => h.eq (.departs hc)

theorem Lattice.bridge?_congr_of_agree (h : Agree l r sub sub' (.implicit a b)) :
    l.bridge? sub a b = l.bridge? sub' a b := by
  refine bridge?_congr (f := id) (P := fun a => Agree l r sub sub' (.implicit a b)) (fun ms h => ?_)
    (fun a h hne => ⟨hne, ?_⟩) h
  · exact ⟨by simp, fun m hm => ⟨h.asked (.bridged hm), h.eq (.fits hm)⟩⟩
  · -- what is no union is bridged by a search among the conversions that accept it
    rw [id, candidates_congr_of_agree (h.asked .accepted)]
    refine List.find?_congr fun c hc => ?_
    rw [h.eq (.reaches (mem_conversions_of_mem_candidates hc))]

theorem Lattice.isConvertible_congr (h : Agree l r sub sub' (.convertible a b)) :
    l.isConvertible sub a b = l.isConvertible sub' a b := by
  rw [isConvertible, isConvertible, explicits, explicits,
    bridge?_congr_of_agree (h.asked .implicitly), candidates_congr_of_agree (h.asked .explicitly)]
  exact congrArg _ (any_congr_of_mem fun c hc =>
    h.eq (.arrives (mem_conversions_of_mem_candidates (List.mem_of_mem_filter hc))))

theorem Lattice.subtypeStep_congr (h : Agree l r sub sub' (.subtype a b)) :
    l.subtypeStep r sub a b = l.subtypeStep r sub' a b := by
  have hconverted {t : Ty} (ht : r.target? b = some t) :
      (sub a t || l.isConvertible sub a t) = (sub' a t || l.isConvertible sub' a t) := by
    rw [h.eq (.right (.target ht)), isConvertible_congr (h.asked (.converted ht))]
  have hany {o : Option Ty} {p p' : Ty → Bool} (hp : ∀ t, o = some t → p t = p' t) :
      o.any p = o.any p' := by
    cases o with
    | none => rfl
    | some t => exact hp t rfl
  rw [subtypeStep.eq_def, subtypeStep.eq_def]
  refine if_congr Iff.rfl rfl ?_
  split
  · rfl
  · exact all_congr_of_mem fun m hm => h.eq (.left (.member hm))
  · exact all_congr_of_mem fun m hm => h.eq (.right (.member hm))
  · exact hany fun t ht => h.eq (.left (.target ht))
  · exact h.eq (.left (.target rfl))
  · exact any_congr_of_mem fun m hm => h.eq (.right (.member hm))
  · exact hany fun t ht => hconverted ht
  · exact hconverted rfl
  · exact any_congr_of_mem fun m hm => h.eq (.left (.member hm))
  · rfl

/-- **Nothing else is asked**: an answer is the same wherever the questions that come up are
answered alike. -/
theorem Question.answer_congr (h : Agree l r sub sub' q) :
    q.answer l r sub = q.answer l r sub' := by
  cases q with
  | subtype a b => exact Lattice.subtypeStep_congr h
  | convertible a b => exact Lattice.isConvertible_congr h
  | implicit a b => exact Lattice.bridge?_congr_of_agree h
  | candidates a => exact Lattice.candidates_congr_of_agree h

/-! ## Deep enough -/

/-- A question that comes to an end does not come up below itself. -/
theorem not_transGen_asks_self (h : Acc (TransGen (Asks l r)) q) : ¬TransGen (Asks l r) q q := by
  induction h with
  | intro q _ ih => exact fun hself => ih q hself hself

/-- Beyond the number of pairs that come up, unrolling the rules deeper changes nothing: no pair
comes up below itself. -/
theorem Lattice.subtypeWithin_eq_of_card_le (pairs : Finset (Ty × Ty)) {depth depth' : Nat}
    (hacc : Acc (TransGen (Asks l r)) (.subtype a b)) (hab : (a, b) ∈ pairs)
    (hpairs : ∀ a' b', TransGen (Asks l r) (.subtype a' b') (.subtype a b) → (a', b') ∈ pairs)
    (hdepth : pairs.card ≤ depth) (hdepth' : pairs.card ≤ depth') :
    l.subtypeWithin r depth a b = l.subtypeWithin r depth' a b := by
  classical
  induction depth generalizing pairs depth' a b with
  | zero => exact absurd hab (by simp [Finset.card_eq_zero.1 (Nat.le_zero.1 hdepth)])
  | succ depth ih =>
    have hpos := Finset.card_pos.2 ⟨_, hab⟩
    obtain ⟨depth', rfl⟩ := Nat.exists_eq_add_of_le' (hpos.trans_le hdepth')
    have hcard := Finset.card_erase_of_mem hab
    refine subtypeStep_congr fun a' b' hbelow => ?_
    have herase {a'' b'' : Ty} (hbelow : TransGen (Asks l r) (.subtype a'' b'') (.subtype a b)) :
        (a'', b'') ∈ pairs.erase (a, b) := by
      refine Finset.mem_erase.2 ⟨?_, hpairs _ _ hbelow⟩
      rintro ⟨⟩
      exact not_transGen_asks_self hacc hbelow
    exact ih (pairs.erase (a, b)) (hacc.inv hbelow) (herase hbelow)
      (fun _ _ h => herase (h.trans hbelow)) (by omega) (by omega)

end

/-! ## Constituents -/

namespace Ty

mutual

/-- The type and everything nested in it, as a member or as the target of a fixed convertible. -/
def constituents : Ty → List Ty
  | union ms => .union ms :: constituentsAll ms
  | inter ms => .inter ms :: constituentsAll ms
  | asType t => .asType t :: constituents t
  | t => [t]

/-- The constituents of the members in order. -/
def constituentsAll : Members → List Ty
  | [] => []
  | (_, t) :: ms => constituents t ++ constituentsAll ms

end

variable {s t : Ty} {ms : Members}

theorem mem_constituentsAll : s ∈ constituentsAll ms ↔ ∃ m ∈ ms, s ∈ m.2.constituents := by
  induction ms with
  | nil => simp [constituentsAll]
  | cons m ms ih => simp [constituentsAll, ih]

theorem constituents_container (side : Side) (ms : Members) :
    (side.container ms).constituents = side.container ms :: constituentsAll ms := by
  cases side <;> simp [Side.container, constituents]

theorem mem_constituents_self (t : Ty) : t ∈ t.constituents := by
  cases t <;> simp [constituents]

/-- A type has as many constituents as its size says. -/
theorem length_constituents (t : Ty) : t.constituents.length = t.size := by
  induction t using memberInduction with
  | container side ms ih =>
    rw [constituents_container, size_container, List.length_cons, Nat.add_comm]
    refine congrArg (1 + ·) ?_
    induction ms with
    | nil => simp [constituentsAll, sizeAll]
    | cons m ms ihms =>
      obtain ⟨hm, hms⟩ := List.forall_mem_cons.1 ih
      simp [constituentsAll, sizeAll, hm, ihms hms]
  | asType target ih => simp [constituents, size, ih, Nat.add_comm]
  | _ => simp [constituents, size]

theorem length_constituentsAll (ms : Members) : (constituentsAll ms).length = sizeAll ms := by
  have h := length_constituents (.union ms)
  simpa [constituents, size, Nat.add_comm] using h

theorem constituents_subset (h : s ∈ t.constituents) : s.constituents ⊆ t.constituents := by
  induction t using memberInduction with
  | container side ms ih =>
    rw [constituents_container, List.mem_cons, mem_constituentsAll] at h
    rcases h with rfl | ⟨m, hm, hs⟩
    · exact List.Subset.refl _
    · intro x hx
      rw [constituents_container]
      exact List.mem_cons_of_mem _ (mem_constituentsAll.2 ⟨m, hm, ih m hm hs hx⟩)
  | asType target ih =>
    rw [constituents, List.mem_cons] at h
    rcases h with rfl | hs
    · exact List.Subset.refl _
    · intro x hx
      rw [constituents]
      exact List.mem_cons_of_mem _ (ih hs hx)
  | _ =>
    simp only [constituents, List.mem_singleton] at h
    rw [h]
    exact List.Subset.refl _

end Ty

/-- The answers of a resolver have no more constituents, all in all, than its extent says. -/
def Resolver.Measured (r : Resolver) : Prop :=
  ∃ pool : List Ty, pool.length ≤ r.extent ∧
    ∀ owner var t, r.resolve owner var = some t → ∀ s ∈ t.constituents, s ∈ pool

section

variable {l : Lattice} {r : Resolver} {a b s t : Ty} {q q' : Question}

/-- What comes out of a type is nested in it, unless an open convertible stands for it. -/
theorem Opens.mem_constituents (h : Opens r s t) :
    s ∈ t.constituents ∨ ∃ owner var, r.resolve owner var = some s := by
  cases h with
  | member hm =>
    left
    cases t with
    | union ms | inter ms =>
      simp only [Ty.constituents]
      exact List.mem_cons_of_mem _ (Ty.mem_constituentsAll.2 ⟨_, hm, Ty.mem_constituents_self _⟩)
    | _ => cases hm
  | target ht =>
    cases t with
    | asVar cell owner var => exact .inr ⟨owner, var, ht⟩
    | asType target =>
      obtain rfl := Option.some_inj.1 ht
      left
      simp only [Ty.constituents]
      exact List.mem_cons_of_mem _ (Ty.mem_constituents_self _)
    | _ => cases ht

/-- The constituents of the two ends of every conversion. -/
def Lattice.ends (l : Lattice) : List Ty :=
  l.conversions.flatMap fun c => c.source.constituents ++ c.target.constituents

theorem Lattice.length_ends (l : Lattice) : l.ends.length = l.extent := by
  obtain ⟨conversions⟩ := l
  simp only [ends, extent]
  induction conversions with
  | nil => rfl
  | cons c cs ih => simp [ih, Ty.length_constituents, Nat.add_assoc]

/-- Types that come up are constituents of those that were there from the start, of answers and of
ends of conversions. -/
theorem Asks.constituents_of {R : Ty → Prop}
    (hanswers : ∀ owner var t, r.resolve owner var = some t → R t)
    (hconv : ∀ c ∈ l.conversions, R c.source ∧ R c.target) (h : TransGen (Asks l r) q' q)
    (hq : ∀ t ∈ q.types, ∃ x, R x ∧ t ∈ x.constituents) :
    ∀ t ∈ q'.types, ∃ x, R x ∧ t ∈ x.constituents := by
  have hstep {q q' : Question} (h : Asks l r q' q) := h.types_of (P := fun t => ∃ x, R x ∧
    t ∈ x.constituents) (by
      rintro s t hopens ⟨x, hx, ht⟩
      rcases hopens.mem_constituents with hs | ⟨owner, var, hs⟩
      · exact ⟨x, hx, Ty.constituents_subset ht hs⟩
      · exact ⟨s, hanswers owner var s hs, s.mem_constituents_self⟩)
    fun c hc => ⟨⟨_, (hconv c hc).1, Ty.mem_constituents_self _⟩, _, (hconv c hc).2,
      Ty.mem_constituents_self _⟩
  induction h using TransGen.head_induction_on with
  | single h => exact hstep h hq
  | head h _ ih => exact hstep h ih

/-- **The pairs that come up** are no more than the depth allows for. -/
theorem Lattice.exists_pairs (hr : r.Measured) (a b : Ty) :
    ∃ pairs : Finset (Ty × Ty), pairs.card < l.depth r a b ∧
    (a, b) ∈ pairs ∧ ∀ a' b', TransGen (Asks l r) (.subtype a' b') (.subtype a b) →
      (a', b') ∈ pairs := by
  classical
  obtain ⟨answers, hlength, hanswers⟩ := hr
  let pool := (a.constituents ++ b.constituents ++ answers ++ l.ends).toFinset
  have hcard : pool.card ≤ a.size + b.size + r.extent + l.extent := by
    refine (List.toFinset_card_le _).trans ?_
    simp only [List.length_append, Ty.length_constituents, length_ends]
    omega
  let R (x : Ty) : Prop := ∀ t ∈ x.constituents, t ∈ pool
  have ha : R a := fun t ht => by simp [pool, ht]
  have hb : R b := fun t ht => by simp [pool, ht]
  have hends (c : Conversion) (hc : c ∈ l.conversions) : R c.source ∧ R c.target := by
    refine ⟨fun t ht => ?_, fun t ht => ?_⟩ <;>
    · have hmem : t ∈ l.ends := List.mem_flatMap.2 ⟨c, hc, by simp [ht]⟩
      simp [pool, hmem]
  have hpairs {a' b' : Ty} (h : TransGen (Asks l r) (.subtype a' b') (.subtype a b)) : a' ∈ pool ∧
      b' ∈ pool := by
    have htypes := Asks.constituents_of (R := R)
      (fun owner var x hx t ht => by simp [pool, hanswers owner var x hx t ht]) hends h (by
        simp only [Question.types, List.forall_mem_cons, List.not_mem_nil, false_imp_iff,
          implies_true, and_true]
        exact ⟨⟨a, ha, a.mem_constituents_self⟩, b, hb, b.mem_constituents_self⟩)
    obtain ⟨x, hx, ha'⟩ := htypes a' (by simp [Question.types])
    obtain ⟨y, hy, hb'⟩ := htypes b' (by simp [Question.types])
    exact ⟨hx _ ha', hy _ hb'⟩
  refine ⟨pool ×ˢ pool, ?_, ?_, fun a' b' h => ?_⟩
  · rw [Finset.card_product, depth_eq]
    exact Nat.lt_succ_of_le (Nat.mul_le_mul hcard hcard)
  · exact Finset.mem_product.2 ⟨ha _ a.mem_constituents_self, hb _ b.mem_constituents_self⟩
  · exact Finset.mem_product.2 (hpairs h)

/-- **Subtyping is what the rules say**: the questions that come up are unrolled deep enough, so it
satisfies the recursion without a bound. -/
theorem Lattice.isSubtype_eq_subtypeStep (hr : r.Measured)
    (hacc : Acc (TransGen (Asks l r)) (.subtype a b)) :
    l.isSubtype r a b = l.subtypeStep r (l.isSubtype r) a b := by
  obtain ⟨pairs, hcard, hab, hpairs⟩ := l.exists_pairs hr a b
  obtain ⟨depth, hdepth⟩ := Nat.exists_eq_add_of_le' (Nat.one_le_of_lt hcard)
  rw [isSubtype, hdepth]
  refine subtypeStep_congr fun a' b' hbelow => ?_
  have hacc' := hacc.inv hbelow
  obtain ⟨pairs', hcard', hab', hpairs'⟩ := l.exists_pairs hr a' b'
  -- both depths are enough, each for a reason of its own; the larger one connects them
  calc l.subtypeWithin r depth a' b'
      = l.subtypeWithin r (max depth (l.depth r a' b')) a' b' :=
        subtypeWithin_eq_of_card_le pairs hacc' (hpairs _ _ hbelow)
          (fun _ _ h => hpairs _ _ (h.trans hbelow)) (by omega) (by omega)
    _ = l.subtypeWithin r (l.depth r a' b') a' b' :=
        subtypeWithin_eq_of_card_le pairs' hacc' hab' hpairs' (by omega) (by omega)

end

/-! ## What a graph resolves to -/

/-- Whatever a convertible to a variable may stand for is among the constituents of the bounds,
except that the convertibles among the members are left out of the container. -/
def Bounds.constituents (b : Bounds) : List Ty :=
  [Side.lower, .upper].flatMap fun side =>
    side.container (Members.ofTypes ((Members.types (b.side side)).filter (!·.isConvertible))) ::
      Ty.constituentsAll (b.side side)

theorem Bounds.length_constituents (b : Bounds) : b.constituents.length = b.size := by
  simp only [constituents, Bounds.side, List.flatMap_cons, List.flatMap_nil, List.length_append,
    List.length_cons, List.length_nil, Ty.length_constituentsAll, size, Ty.size]
  omega

theorem Bounds.mem_constituents_of_standsFor? {b : Bounds} {s t : Ty} (h : b.standsFor? = some t)
    (hs : s ∈ t.constituents) : s ∈ b.constituents := by
  have hcollapse {side : Side} {ms : Members} (hms : ∀ m ∈ ms, m.2 ∈ Members.types (b.side side))
      (hs : s ∈ (Members.collapse side.container ms).constituents) :
      s = side.container ms ∨ s ∈ Ty.constituentsAll (b.side side) := by
    have hmembers {m : String × Ty} (hm : m ∈ ms) (hs : s ∈ m.2.constituents) :
        s ∈ Ty.constituentsAll (b.side side) := by
      obtain ⟨e, he, hem⟩ := List.mem_map.1 (hms m hm)
      exact Ty.mem_constituentsAll.2 ⟨e, he, hem ▸ hs⟩
    rw [Members.collapse.eq_def] at hs
    split at hs
    · exact .inr (hmembers (List.mem_singleton_self _) hs)
    · rw [Ty.constituents_container, List.mem_cons, Ty.mem_constituentsAll] at hs
      exact hs.imp_right fun ⟨m, hm, hs⟩ => hmembers hm hs
  have hside (side : Side) (hs : s ∈ (Members.collapse side.container
      (Members.ofTypes ((Members.types (b.side side)).filter (!·.isConvertible)))).constituents) :
      s ∈ b.constituents := by
    refine List.mem_flatMap.2 ⟨side, by cases side <;> simp, List.mem_cons.2 (hcollapse ?_ hs)⟩
    exact Members.forall_mem_ofTypes fun t ht => List.mem_of_mem_filter ht
  unfold standsFor? at h
  dsimp only at h
  split at h
  · cases h
  · obtain rfl := Option.some_inj.1 h
    exact hside .upper hs
  · obtain rfl := Option.some_inj.1 h
    exact hside .lower hs

/-- **The extent of a graph's resolver is right**, whatever the bounds are. -/
theorem Graph.measured_resolver (g : Graph) : g.resolver.Measured := by
  refine ⟨g.bounds.entries.flatMap fun e => e.2.constituents, ?_, fun owner var t ht s hs => ?_⟩
  · rw [Graph.resolver]
    dsimp only
    induction g.bounds.entries with
    | nil => exact le_rfl
    | cons e es ih =>
      rw [List.flatMap_cons, List.length_append, Bounds.length_constituents, List.foldr_cons]
      omega
  · rw [Graph.resolver] at ht
    dsimp only at ht
    split at ht
    · obtain ⟨b, hb, ht⟩ := Option.bind_eq_some_iff.1 ht
      exact List.mem_flatMap.2 ⟨(var, b), Table.mem_entries_of_get? hb,
        b.mem_constituents_of_standsFor? ht hs⟩
    · cases ht

/-! ## Main statement -/

/-- **Questions come to an end.** Let conversions lead between named types, in circles or not, and
let variables be ranked such that what one of them stands for mentions variables of smaller rank
only, at any depth. Below a question about types whose variables are ranked, no chain of questions
goes on forever. Nothing but the questions about subtypes that come up decides the answer, and
subtyping answers each of them as the rules say, where the extent of the resolver is right: that the
rules are unrolled to a certain depth makes no difference. -/
theorem questions_end {l : Lattice} {r : Resolver}
    (hl : ∀ c ∈ l.conversions, c.source.IsNamed ∧ c.target.IsNamed)
    (rank : Nat → String → Option Nat)
    (hrank : ∀ owner var n t, rank owner var = some n → r.resolve owner var = some t →
      ∀ p ∈ t.bindings, ∃ k < n, rank p.1 p.2 = some k)
    (q : Question) (hq : ∀ t ∈ q.types, ∀ p ∈ t.bindings, (rank p.1 p.2).isSome) :
    Acc (Asks l r) q ∧
      (∀ sub sub' : Ty → Ty →
        Bool, (∀ a b, TransGen (Asks l r) (.subtype a b) q → sub a b = sub' a b) →
        q.answer l r sub = q.answer l r sub') ∧
      (r.Measured → ∀ a b, ReflTransGen (Asks l r) (.subtype a b) q →
        l.isSubtype r a b = l.subtypeStep r (l.isSubtype r) a b) := by
  have hacc : Acc (Asks l r) q := acc_asks hl fun t ht => acc_opens_of_ranked hrank (hq t ht)
  refine ⟨hacc, fun sub sub' h => Question.answer_congr h, fun hr a b hab => ?_⟩
  apply Lattice.isSubtype_eq_subtypeStep hr
  rcases reflTransGen_iff_eq_or_transGen.1 hab with rfl | hab
  · exact hacc.transGen
  · exact hacc.transGen.inv hab

/-- A graph in which `T` is bounded by a union with a convertible to `U`, and whole and decimal
numbers are converted into each other. -/
def chained : Graph where
  tag := 1
  lattice := ⟨[Lattice.widen, ⟨Lattice.decimal, Lattice.whole, false, "round"⟩]⟩
  bounds := ⟨[("T", { lower := Members.ofTypes [.unionOf [.asVar none 1 "U", Lattice.whole]] }),
    ("U", { lower := Members.ofTypes [Lattice.decimal] })]⟩

/-- What `T` stands for mentions `U`, and what `U` stands for mentions nothing. -/
def chainedRank : Nat → String → Option Nat
  | 1, "T" => some 1
  | 1, "U" => some 0
  | _, _ => none

theorem questions_end_chained :
    let a : Ty := .asVar none 1 "T"
    let b : Ty := .asType (.asVar none 1 "U")
    Acc (Asks chained.lattice chained.resolver) (.subtype a b) ∧
      chained.isSubtype a b = chained.lattice.subtypeStep chained.resolver chained.isSubtype a b ∧
      chained.isSubtype a b = true := by
  intro a b
  have hrank (owner : Nat) (var : String) (n : Nat) (t : Ty) (hn : chainedRank owner var = some n)
      (ht : chained.resolver.resolve owner var = some t) (p : Nat × String) (hp : p ∈ t.bindings) :
      ∃ k < n, chainedRank p.1 p.2 = some k := by
    rw [chainedRank.eq_def] at hn
    split at hn
    · have hU : (chained.resolver.resolve 1 "T").all fun t => t.bindings.all (· = (1, "U")) := by
        decide +kernel
      rw [ht, Option.all_some, List.all_eq_true] at hU
      obtain rfl := of_decide_eq_true (hU p hp)
      exact ⟨0, by cases hn; decide, rfl⟩
    · have hnone : (chained.resolver.resolve 1 "U").all fun t => t.bindings.isEmpty := by
        decide +kernel
      rw [ht, Option.all_some, List.isEmpty_iff] at hnone
      rw [hnone] at hp
      cases hp
    · cases hn
  obtain ⟨hacc, -, hrules⟩ := questions_end (l := chained.lattice) (r := chained.resolver)
    (by simp [chained, Lattice.widen, Lattice.decimal, Lattice.whole, Ty.IsNamed]) chainedRank hrank
    (.subtype a b) (by decide)
  exact ⟨hacc, hrules chained.measured_resolver a b .refl, by decide +kernel⟩

end TypeBounds
