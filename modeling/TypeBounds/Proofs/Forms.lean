import Mathlib.Data.List.Perm.Basic
import TypeBounds.Proofs.RoundTrip

/-!
# What names identify

Containers keep one member for each name, and types of equal names count as the same type. So a name
has to tell all that matters about a type. What matters is its **form**: containers around one
member are that member, an empty intersection is the top and an empty union the bottom, classes go
by their names, and members have no order.

* `Ty.form`, `Form.Same`: the form of a type, and forms that are the same up to the order of
  members;
* `Form.name`: a form has a name of its own, and a type has the name of its form (`Ty.Worded.form`);
* `Form.same_of_name_eq`: the form can be read off the name.

Main statement: `name_eq_iff_same_form`.
-/

namespace TypeBounds

/-- **The form of a type**: what is left of it when containers around one member and empty
containers are gone. -/
inductive Form where
  | top
  | bottom
  | leaf (name : String)
  | several (side : Side) (members : List Form)

/-- What an empty container amounts to. -/
def Side.emptyForm : Side → Form
  | .lower => .bottom
  | .upper => .top

namespace Form

/-- A container of the given members. One member stands for itself. -/
def collect (side : Side) : List Form → Form
  | [] => side.emptyForm
  | [f] => f
  | fs => .several side fs

/-- **The same form** up to the order of members: those of the one can be paired off with those of
the other. -/
inductive Same : Form → Form → Prop where
  | top : Same top top
  | bottom : Same bottom bottom
  | leaf (name : String) : Same (leaf name) (leaf name)
  | several (side : Side) (pairs : List (Form × Form)) {gs : List Form}
      (h : ∀ p ∈ pairs, Same p.1 p.2) (hperm : (pairs.map Prod.snd).Perm gs) :
      Same (several side (pairs.map Prod.fst)) (several side gs)

mutual

/-- How a form is written. -/
def name : Form → String
  | top => "mixed"
  | bottom => "nothing"
  | leaf name => name
  | several side fs => joinNames side.separator side.emptyName (names fs)

/-- How each of the forms is written. -/
def names : List Form → List String
  | [] => []
  | f :: fs => name f :: names fs

end

/-- **Forms that types can have**: leaves are identifiers which name neither the top nor the bottom,
and containers have at least two members. -/
inductive Proper : Form → Prop where
  | top : Proper top
  | bottom : Proper bottom
  | leaf {name : String} (h : IsIdentifier name) (hnothing : name ≠ "nothing")
      (hmixed : name ≠ "mixed") : Proper (leaf name)
  | several (side : Side) {fs : List Form} (hlen : 2 ≤ fs.length) (h : ∀ f ∈ fs, Proper f) :
      Proper (several side fs)

end Form

namespace Ty

mutual

/-- The form of a type. Convertibles are left as they are. -/
def form : Ty → Form
  | mixed => .top
  | nominal name _ _ _ => .leaf name
  | union ms => .collect .lower (formEach ms)
  | inter ms => .collect .upper (formEach ms)
  | asVar cell owner var => .leaf (name (.asVar cell owner var))
  | asType t => .leaf (name (.asType t))

/-- The forms of the members in order. -/
def formEach : Members → List Form
  | [] => []
  | (_, t) :: ms => form t :: formEach ms

end

/-- **Types in words**: built from the top type and classes with identifiers for their names, other
than `nothing` and `mixed`, by adding types to containers one after the other. -/
inductive Worded : Ty → Prop where
  | mixed : Worded mixed
  | nominal {name : String} {kind : Kind} {final : Bool} {parents : List Ty} (h : IsIdentifier name)
      (hnothing : name ≠ "nothing") (hmixed : name ≠ "mixed") :
      Worded (nominal name kind final parents)
  | container (side : Side) (ts : List Ty) (h : ∀ t ∈ ts, Worded t) :
      Worded (side.container (Members.ofTypes ts))

end Ty

/-! ## Names of forms -/

namespace Form

variable {f g : Form} {fs gs : List Form} {side : Side}

theorem names_eq (fs : List Form) : names fs = fs.map name := by
  induction fs with
  | nil => simp [names]
  | cons f fs ih => simp [names, ih]

theorem name_several (side : Side) (fs : List Form) :
    (several side fs).name = joinNames side.separator side.emptyName (fs.map name) := by
  rw [name, names_eq]

theorem name_collect (side : Side) (fs : List Form) :
    (collect side fs).name = joinNames side.separator side.emptyName (fs.map name) := by
  rcases fs with _ | ⟨f, _ | ⟨g, fs⟩⟩
  · cases side <;> simp [collect, Side.emptyForm, name, joinNames, Side.emptyName]
  · rfl
  · exact name_several side (f :: g :: fs)

theorem Proper.collect (h : ∀ f ∈ fs, Proper f) (side : Side) : (collect side fs).Proper := by
  rcases fs with _ | ⟨f, _ | ⟨g, fs⟩⟩
  · cases side
    · exact .bottom
    · exact .top
  · exact h f (List.mem_singleton_self f)
  · exact .several side (by simp) h

theorem Same.name_eq (h : Same f g) : f.name = g.name := by
  induction h with
  | top => rfl
  | bottom => rfl
  | leaf => rfl
  | several side pairs h hperm ih =>
    have hpairs : (pairs.map Prod.fst).map name = (pairs.map Prod.snd).map name := by
      simpa using ih
    rw [name_several, name_several, hpairs, joinNames_eq_of_perm _ _ (hperm.map name)]

theorem Proper.isPhrase_name (h : f.Proper) : IsPhrase f.name.toList := by
  induction h with
  | top => exact isPhrase_of_plain (isPlainChar_emptyName .upper)
  | bottom => exact isPhrase_of_plain (isPlainChar_emptyName .lower)
  | leaf h => exact isPhrase_of_plain h.isPlainChar
  | several side _ _ ih =>
    rw [name_several]
    exact isPhrase_joinNames side.isPlainChar_sign side.toList_separator
      (isPhrase_of_plain (isPlainChar_emptyName side)) (List.forall_mem_map.2 ih)

/-- The name of a container has a parenthesis, other names have none. -/
theorem name_several_ne (hlen : 2 ≤ fs.length) {name : String}
    (hname : ∀ c ∈ name.toList, isPlainChar c) : (several side fs).name ≠ name := by
  rintro rfl
  rw [name_several, toList_joinNames side.toList_separator (by simpa using hlen)] at hname
  exact absurd (hname '(' (List.mem_cons_self ..)) (by decide)

/-- Forms whose names are the same in some order can be paired off by their names. -/
theorem exists_pairs (h : (fs.map name).Perm (gs.map name)) : ∃ pairs : List (Form × Form),
    pairs.map Prod.fst = fs ∧ (pairs.map Prod.snd).Perm gs ∧ ∀ p ∈ pairs, p.1.name = p.2.name := by
  have hnames : List.Forall₂ (fun n g => n = name g) (gs.map name) gs := by
    rw [List.forall₂_map_left_iff]
    exact List.forall₂_same.2 fun g _ => rfl
  obtain ⟨hs, hpaired, hperm⟩ := List.perm_comp_forall₂ h hnames
  rw [List.forall₂_map_left_iff, List.forall₂_iff_zip] at hpaired
  obtain ⟨hlength, hzip⟩ := hpaired
  refine ⟨fs.zip hs, List.map_fst_zip hlength.le, ?_, fun p hp => hzip hp⟩
  rwa [List.map_snd_zip hlength.ge]

/-- **The form is read off the name.** -/
theorem same_of_name_eq (hf : f.Proper) (hg : g.Proper) (h : f.name = g.name) : f.Same g := by
  induction hn : f.name.toList.length using Nat.strongRecOn generalizing f g with
  | _ n ih =>
    have hmixed := isPlainChar_emptyName .upper
    have hnothing := isPlainChar_emptyName .lower
    cases hf with
    | top =>
      cases hg with
      | top => exact .top
      | bottom => exact absurd h (by simp [name])
      | leaf _ _ hm => exact absurd h.symm hm
      | several side hlen => exact absurd h.symm (name_several_ne hlen hmixed)
    | bottom =>
      cases hg with
      | top => exact absurd h (by simp [name])
      | bottom => exact .bottom
      | leaf _ hm _ => exact absurd h.symm hm
      | several side hlen => exact absurd h.symm (name_several_ne hlen hnothing)
    | leaf hid hm hm' =>
      cases hg with
      | top => exact absurd h hm'
      | bottom => exact absurd h hm
      | leaf =>
        rw [name, name] at h
        exact h ▸ .leaf _
      | several side hlen => exact absurd h.symm (name_several_ne hlen hid.isPlainChar)
    | @several side fs hlen hfs =>
      cases hg with
      | top => exact absurd h (name_several_ne hlen hmixed)
      | bottom => exact absurd h (name_several_ne hlen hnothing)
      | leaf hid => exact absurd h (name_several_ne hlen hid.isPlainChar)
      | @several side' gs hlen' hgs =>
        have hlen : 2 ≤ (fs.map name).length := by simpa using hlen
        have hphrase {fs : List Form} (hfs : ∀ f ∈ fs, f.Proper) :
            ∀ k ∈ fs.map name, IsPhrase k.toList :=
          List.forall_mem_map.2 fun f hf => (hfs f hf).isPhrase_name
        rw [name_several, name_several] at h
        obtain ⟨hsign, hperm⟩ := joinNames_inj side.toList_separator side'.toList_separator hlen
          (by simpa using hlen') (hphrase hfs) (hphrase hgs) h
        obtain rfl := Side.sign_inj hsign
        obtain ⟨pairs, rfl, hpaired, hnames⟩ := exists_pairs hperm
        refine .several side pairs (fun p hp => ?_) hpaired
        have hleft : p.1 ∈ pairs.map Prod.fst := List.mem_map_of_mem hp
        have hright : p.2 ∈ gs := hpaired.mem_iff.1 (List.mem_map_of_mem hp)
        -- a member has a shorter name than the container
        have hshort : p.1.name.toList.length < n := by
          rw [← hn, name_several]
          exact length_lt_joinNames side.toList_separator hlen (List.mem_map_of_mem hleft)
        exact ih _ hshort (hfs _ hleft) (hgs _ hright) (hnames p hp) rfl

theorem same_iff_name_eq (hf : f.Proper) (hg : g.Proper) : f.Same g ↔ f.name = g.name :=
  ⟨Same.name_eq, same_of_name_eq hf hg⟩

end Form

/-! ## Names of types -/

namespace Ty

variable {s t : Ty} {ms : Members}

theorem formEach_eq (ms : Members) : formEach ms = ms.map fun m => m.2.form := by
  induction ms with
  | nil => simp [formEach]
  | cons m ms ih => simp [formEach, ih]

theorem form_container (side : Side) (ms : Members) :
    (side.container ms).form = .collect side (ms.map fun m => m.2.form) := by
  cases side <;> simp [Side.container, form, formEach_eq]

/-- **A type in words** has a proper form, of its own name. -/
theorem Worded.form (h : t.Worded) : t.form.Proper ∧ t.form.name = t.name := by
  induction h with
  | mixed => exact ⟨.top, rfl⟩
  | nominal h hnothing hmixed => exact ⟨.leaf h hnothing hmixed, rfl⟩
  | container side ts _ ih =>
    have hkeyed := Members.keyed_ofTypes ts
    have hmember (m : String × Ty) (hm : m ∈ Members.ofTypes ts) : m.2 ∈ ts :=
      Members.mem_of_mem_types_ofTypes (Members.mem_types.2 ⟨m, hm, rfl⟩)
    rw [form_container, Form.name_collect, name_container]
    refine ⟨.collect (List.forall_mem_map.2 fun m hm => (ih m.2 (hmember m hm)).1) side,
      congrArg _ ?_⟩
    rw [List.map_map, Members.keys]
    exact List.map_congr_left fun m hm => (ih m.2 (hmember m hm)).2.trans (hkeyed.key m hm).symm

theorem Worded.name_eq_iff (hs : s.Worded) (ht : t.Worded) :
    s.name = t.name ↔ s.form.Same t.form := by
  rw [Form.same_iff_name_eq hs.form.1 ht.form.1, hs.form.2, ht.form.2]

end Ty

theorem Members.add_eq_self_iff {ms : Members} {t : Ty} : add ms t = ms ↔ holds ms t.name := by
  by_cases h : holds ms t.name <;> simp [add, h]

/-- **Names identify types.** Two types in words have the same name if and only if they have the
same form. So a container that types are added to keeps exactly one of each form: a type is turned
away if and only if one of its form is there already. -/
theorem name_eq_iff_same_form :
    (∀ s t : Ty, s.Worded → t.Worded → (s.name = t.name ↔ s.form.Same t.form)) ∧
    ∀ (ts : List Ty) (t : Ty), (∀ s ∈ ts, s.Worded) → t.Worded →
      (Members.types (Members.ofTypes ts)).Pairwise (fun s s' => ¬s.form.Same s'.form) ∧
      (∀ s ∈ ts, ∃ s' ∈ Members.types (Members.ofTypes ts), s'.form.Same s.form) ∧
      (Members.add (Members.ofTypes ts) t = Members.ofTypes ts ↔ ∃ s ∈ ts, s.form.Same t.form) := by
  refine ⟨fun s t hs ht => hs.name_eq_iff ht, fun ts t hts ht => ?_⟩
  have hkeyed := Members.keyed_ofTypes ts
  have hworded (s : Ty) (hs : s ∈ Members.types (Members.ofTypes ts)) : s.Worded :=
    hts s (Members.mem_of_mem_types_ofTypes hs)
  refine ⟨?_, fun s hs => ?_, ?_⟩
  · refine hkeyed.nodup_types.imp_of_mem fun {s s'} hs hs' hne hsame => hne ?_
    exact hkeyed.eq_of_name_eq hs hs' (((hworded s hs).name_eq_iff (hworded s' hs')).2 hsame)
  · obtain ⟨s', hs', hname⟩ := Members.exists_mem_types_ofTypes hs
    exact ⟨s', hs', ((hworded s' hs').name_eq_iff (hts s hs)).1 hname⟩
  · rw [Members.add_eq_self_iff, Members.holds, List.any_eq_true]
    constructor
    · rintro ⟨m, hm, hname⟩
      have hmem : m.2 ∈ Members.types (Members.ofTypes ts) := Members.mem_types.2 ⟨m, hm, rfl⟩
      rw [decide_eq_true_eq, hkeyed.key m hm] at hname
      exact ⟨m.2, Members.mem_of_mem_types_ofTypes hmem,
        ((hworded m.2 hmem).name_eq_iff ht).1 hname⟩
    · rintro ⟨s, hs, hsame⟩
      obtain ⟨s', hs', hname⟩ := Members.exists_mem_types_ofTypes hs
      refine ⟨(s'.name, s'), hkeyed.mem hs', decide_eq_true ?_⟩
      exact hname.trans (((hts s hs).name_eq_iff ht).2 hsame)

/-! ## Two ways to write one type -/

def reader : Ty := .nominal "Reader" .interface false []

def writer : Ty := .nominal "Writer" .interface false []

/-- Another class of the same name. -/
def writer' : Ty := .nominal "Writer" .concrete true [reader]

def device : Ty := .unionOf [.interOf [writer, reader], .interOf []]

def device' : Ty :=
  .unionOf [.mixed, .unionOf [.interOf [reader, .unionOf [writer']]], .interOf [reader, writer]]

theorem name_eq_iff_same_form_device :
    device.name = device'.name ∧ device.form.Same device'.form ∧
      ¬device.form.Same (Ty.interOf [writer, reader]).form ∧
      Members.add (Members.ofTypes [reader, device]) device' =
      Members.ofTypes [reader, device] := by
  obtain ⟨hname, hadd⟩ := name_eq_iff_same_form
  have hr : reader.Worded := .nominal (by decide) (by decide) (by decide)
  have hw : writer.Worded := .nominal (by decide) (by decide) (by decide)
  have hw' : writer'.Worded := .nominal (by decide) (by decide) (by decide)
  have hunion {ts : List Ty} (h : ∀ t ∈ ts, t.Worded) : (Ty.unionOf ts).Worded :=
    .container .lower ts h
  have hinter {ts : List Ty} (h : ∀ t ∈ ts, t.Worded) : (Ty.interOf ts).Worded :=
    .container .upper ts h
  have hboth : (Ty.interOf [writer, reader]).Worded := hinter (by simp [hr, hw])
  have hd : device.Worded := hunion (by simp [hboth, hinter])
  have hd' : device'.Worded := by
    have hone : (Ty.unionOf [writer']).Worded := hunion (by simp [hw'])
    have hinner : (Ty.unionOf [.interOf [reader, .unionOf [writer']]]).Worded :=
      hunion (by simpa using hinter (by simp [hr, hone]))
    exact hunion (by simp [hinner, hinter, hr, hw, Ty.Worded.mixed])
  have hsame : device.form.Same device'.form := (hname _ _ hd hd').1 (by decide +kernel)
  refine ⟨by decide +kernel, hsame, (hname _ _ hd hboth).not.1 (by decide +kernel), ?_⟩
  exact (hadd [reader, device] device' (by simp [hr, hd]) hd').2.2.2 ⟨device, by simp, hsame⟩

end TypeBounds
