import TypeBounds.Proofs.Permanence
import TypeBounds.Proofs.Replay

/-!
# How fresh minted ids are

Ids are minted by counting, and the counter does not look at what is registered. So an id is never
minted twice, not even by a fork for what came before it. But a caller may choose an id that has not
been minted yet:

* `Graph.mintedAlong`: the ids that a list of calls mints, which are numbered by the counter
  (`mem_mintedAlong`);
* `Graph.chosen_of_mem_ids`: whatever is registered was chosen by a caller;
* `Problem.denoted_of_declared`: what the variables of a problem denote.

Main statement: `minted_fresh_unless_chosen`.
-/

namespace TypeBounds

open Infer

/-! ## Numbered ids -/

/-- The id with a number. -/
def numbered (n : Nat) : VarId := "V" ++ toString n

theorem numbered_injective : Function.Injective numbered := by
  intro m n h
  have hdigits : Nat.toDigits 10 m = Nat.toDigits 10 n :=
    String.ofList_injective ((String.append_right_inj "V").1 h)
  calc m = Nat.ofDigitChars 10 (Nat.toDigits 10 m) 0 := Nat.ofDigitChars_ten_toDigits.symm
    _ = Nat.ofDigitChars 10 (Nat.toDigits 10 n) 0 := by rw [hdigits]
    _ = n := Nat.ofDigitChars_ten_toDigits

theorem numbered_ne_empty (n : Nat) : numbered n ≠ "" := by
  intro h
  have hlength := congrArg String.length h
  simp [numbered] at hlength

/-! ## What is minted -/

open TypeBounds.Graph

namespace Graph

/-- The id that a call mints, if it mints one. -/
def mintedBy? (g : Graph) : Call → Option VarId
  | .mint => some g.mint.2.id
  | _ => none

/-- The ids that a list of calls mints, in order. -/
def mintedAlong : Graph → List Call → List VarId
  | _, [] => []
  | g, c :: cs => (g.mintedBy? c).toList ++ mintedAlong (c.outcome g).graph cs

end Graph

/-- **The counter** goes up when an id is minted, and only then. -/
theorem Call.minted_outcome (c : Call) (g : Graph) :
    (c.outcome g).graph.minted = g.minted + (g.mintedBy? c).toList.length ∧
      ∀ x ∈ g.mintedBy? c, x = numbered (g.minted + 1) := by
  cases c with
  | mint =>
    refine ⟨rfl, fun x hx => ?_⟩
    cases hx
    rfl
  | addVariable name r =>
    refine ⟨attempt_keeps (I := fun g' => g'.minted = g.minted) rfl fun g' hg => ?_,
      fun x hx => by cases hx⟩
    obtain ⟨_, -, -, rfl⟩ := addVariable_eq_ok.1 hg
    rfl
  | addRef id r => exact ⟨(sameSetting_addRef id r g).minted, fun x hx => by cases hx⟩
  | _ =>
    refine ⟨(steps_sameSetting.outcome _ ?_ ?_ ?_).minted, fun x hx => by cases hx⟩
    · rintro ⟨⟩
    · rintro _ _ ⟨⟩
    · rintro _ _ ⟨⟩

namespace Graph

theorem minted_le_after (g : Graph) (calls : List Call) : g.minted ≤ (g.after calls).minted := by
  induction calls generalizing g with
  | nil => exact Nat.le_refl _
  | cons c calls ih => exact (Nat.le.intro (c.minted_outcome g).1.symm).trans (ih _)

/-- **What is minted** has a number between what the counter was and what it is. -/
theorem mem_mintedAlong {x : VarId} {calls : List Call} (g : Graph) (hx : x ∈ g.mintedAlong calls) :
    ∃ n, x = numbered n ∧ g.minted < n ∧ n ≤ (g.after calls).minted := by
  induction calls generalizing g with
  | nil => cases hx
  | cons c calls ih =>
    obtain ⟨hcount, hid⟩ := c.minted_outcome g
    rcases List.mem_append.1 hx with hx | hx
    · refine ⟨g.minted + 1, hid x (Option.mem_toList.1 hx), Nat.lt_succ_self _, ?_⟩
      have hpos := List.length_pos_of_mem hx
      have hle := (c.outcome g).graph.minted_le_after calls
      change g.minted + 1 ≤ ((c.outcome g).graph.after calls).minted
      omega
    · obtain ⟨n, hn, hlow, hhigh⟩ := ih (c.outcome g).graph hx
      exact ⟨n, hn, by omega, hhigh⟩

/-- An id that is minted was not minted before. -/
theorem mint_not_mem_mintedAlong (g : Graph) (calls : List Call) :
    (g.after calls).mint.2.id ∉ g.mintedAlong calls := by
  intro hmem
  obtain ⟨n, hn, -, hle⟩ := mem_mintedAlong g hmem
  have hnumber := numbered_injective hn
  omega

end Graph

/-! ## What is registered -/

theorem Graph.mem_ids_addVariable {g g' : Graph} {name : String} {r : Reference} {x : VarId}
    (hg : g.addVariable name (some r) = .ok g') : x ∈ g'.ids ↔ x ∈ g.ids ∨ x = r.id := by
  obtain ⟨_, hr, -, rfl⟩ := addVariable_eq_ok.1 hg
  cases hr
  change x ∈ (g.register r.id).ids ↔ _
  rw [ids_register]
  split
  · rename_i hmem
    exact ⟨.inl, fun h => h.elim (fun hx => hx) fun hx => hx ▸ hmem⟩
  · rw [List.mem_append, List.mem_singleton]

/-- **One call** registers what it was told to, if anything. -/
theorem Call.chosen_of_mem_ids {c : Call} {g : Graph} {x : VarId}
    (hx : x ∈ (c.outcome g).graph.ids) :
    x ∈ g.ids ∨ ∃ name r, c = .addVariable name (some r) ∧ r.id = x ∧
      (g.addVariable name (some r)).isOk := by
  cases c with
  | addVariable name r =>
    rw [outcome] at hx
    cases hg : g.addVariable name r with
    | error m =>
      rw [hg] at hx
      exact .inl hx
    | ok g' =>
      rw [hg] at hx
      obtain ⟨r', rfl, -, -⟩ := addVariable_eq_ok.1 hg
      rcases (mem_ids_addVariable hg).1 hx with hx | rfl
      · exact .inl hx
      · exact .inr ⟨name, r', rfl, rfl, by rw [hg]; rfl⟩
  | mint => exact .inl hx
  | addRef id r => exact .inl ((lasting_addRef id r g).registered x hx)
  | _ =>
    refine .inl (Lasting.registered (steps_lasting.outcome _ ?_ ?_ ?_) x hx)
    · rintro ⟨⟩
    · rintro _ _ ⟨⟩
    · rintro _ _ ⟨⟩

/-- **Whatever is registered was chosen** by a caller, by the last of the calls that did so or an
earlier one. -/
theorem Graph.chosen_of_mem_ids {g : Graph} {calls : List Call} {x : VarId}
    (hx : x ∈ (g.after calls).ids) :
    x ∈ g.ids ∨ ∃ before name r later, calls = before ++ .addVariable name (some r) :: later ∧
      r.id = x ∧
      ((g.after before).addVariable name (some r)).isOk := by
  induction calls generalizing g with
  | nil => exact .inl hx
  | cons c calls ih =>
    rcases ih (g := (c.outcome g).graph) hx with hx | ⟨before, name, r, later, rfl, hid, hok⟩
    · rcases c.chosen_of_mem_ids hx with hx | ⟨name, r, rfl, hid, hok⟩
      · exact .inl hx
      · exact .inr ⟨[], name, r, calls, rfl, hid, hok⟩
    · exact .inr ⟨c :: before, name, r, later, rfl, hid, hok⟩

/-! ## The variables of a problem -/

namespace Problem

variable {g g' : Graph} {d : VariableDecl} {ds : List VariableDecl}

/-- What a declaration makes its variable denote, after so many ids were minted. -/
def reference (minted : Nat) (d : VariableDecl) : Reference :=
  { id := if d.id = "" then numbered (minted + 1) else d.id, fixed := d.fixed }

/-- How many of the declarations mint an id. -/
def mintCount (ds : List VariableDecl) : Nat := ds.countP fun d => d.id = ""

/-- **One declaration.** -/
theorem declareVariable_eq_ok (hg : declareVariable g d = .ok g') :
    d.name ∉ g.names.keys ∧ g'.names = g.names.insert d.name (reference g.minted d) ∧
      g'.minted = g.minted + mintCount [d] := by
  unfold declareVariable at hg
  by_cases hid : d.id = ""
  · rw [if_pos hid] at hg
    obtain ⟨_, hr, hname, rfl⟩ := addVariable_eq_ok.1 hg
    cases hr
    refine ⟨hname, ?_, ?_⟩
    · rw [reference, if_pos hid]
      rfl
    · simp [mintCount, hid, Graph.register]
  · rw [if_neg hid] at hg
    obtain ⟨_, hr, hname, rfl⟩ := addVariable_eq_ok.1 hg
    cases hr
    refine ⟨hname, ?_, ?_⟩
    · rw [reference, if_neg hid]
    · simp [mintCount, hid, Graph.register]

/-- **All declarations.** A variable denotes what its declaration says, given how many of the
declarations before it mint an id. -/
theorem denoted_of_declared (hg : ds.foldlM declareVariable g = .ok g') :
    (∀ name ∈ g.names.keys, g'.names.get? name = g.names.get? name) ∧
      ∀ before d later, ds = before ++ d :: later →
        g'.names.get? d.name = some (reference (g.minted + mintCount before) d) := by
  induction ds generalizing g with
  | nil =>
    cases hg
    exact ⟨fun _ _ => rfl, fun before d later h => by simp at h⟩
  | cons d ds ih =>
    rw [List.foldlM_cons] at hg
    obtain ⟨g₁, hg₁, hg⟩ := Universe.except_bind_eq_ok hg
    obtain ⟨hname, hnames, hminted⟩ := declareVariable_eq_ok hg₁
    obtain ⟨hkept, hdenoted⟩ := ih hg
    have hkeys : g₁.names.keys = g.names.keys ++ [d.name] := by
      rw [hnames, Table.keys_insert, if_neg hname]
    refine ⟨fun name hmem => ?_, fun before d' later h => ?_⟩
    · have hne : name ≠ d.name := fun heq => hname (heq ▸ hmem)
      rw [hkept name (hkeys ▸ List.mem_append_left _ hmem), hnames, Table.get?_insert, if_neg hne]
    · cases before with
      | nil =>
        cases h
        rw [hkept d.name (by rw [hkeys]; simp), hnames, Table.get?_insert, if_pos rfl]
        rfl
      | cons e before =>
        cases h
        rw [hdenoted before d' later rfl, hminted]
        simp only [mintCount, List.countP_cons, List.countP_nil]
        congr 2
        omega

/-- **Sharing.** A variable that is declared without an id denotes the same as an earlier one if and
only if that one was declared with just this id. -/
theorem shared_iff_chosen (hg : ds.foldlM declareVariable g = .ok g')
    {before later : List VariableDecl} (hds : ds = before ++ d :: later) (hid : d.id = "") :
    g'.names.get? d.name =
      some { id := numbered (g.minted + mintCount before + 1), fixed := d.fixed } ∧
      ∀ d' ∈ before,
        ((g'.names.get? d'.name).map Reference.id =
          some (numbered (g.minted + mintCount before + 1)) ↔
        d'.id = numbered (g.minted + mintCount before + 1)) := by
  obtain ⟨-, hdenoted⟩ := denoted_of_declared hg
  refine ⟨?_, fun d' hd' => ?_⟩
  · rw [hdenoted before d later hds, reference, if_pos hid]
  · obtain ⟨first, rest, rfl⟩ := List.append_of_mem hd'
    rw [hdenoted first d' (rest ++ d :: later) (by rw [hds]; simp)]
    simp only [Option.map_some, reference, Option.some.injEq]
    by_cases hid' : d'.id = ""
    · -- the earlier one was minted, too, and has a smaller number
      rw [if_pos hid', hid']
      refine iff_of_false (fun heq => ?_) (numbered_ne_empty _).symm
      have hnumber := numbered_injective heq
      simp [mintCount, hid'] at hnumber
    · rw [if_neg hid']

end Problem

/-- **Minted ids are fresh unless they were chosen.** Whatever calls a graph has seen, failed ones
and forks included, the id that it mints was not minted before. If it is registered at that moment,
then some earlier call has added a variable with this very id; and whoever adds a variable with the
id that comes next makes it one that is registered when it is minted. So a variable that a problem
declares without an id shares its type variable with an earlier one if and only if that one was
declared with just the id that is minted. -/
theorem minted_fresh_unless_chosen (tag : Nat) (lattice : Lattice) (policy : Policy)
    (calls : List Call) (p : Problem) : let g₀ : Graph := { tag, lattice, policy }
    let g := g₀.after calls
    g.mint.2.id ∉ g₀.mintedAlong calls ∧
    (g.hasTypeVariable g.mint.2.id → ∃ before name r later, calls =
      before ++ .addVariable name (some r) :: later ∧ r.id = g.mint.2.id ∧
      ((g₀.after before).addVariable name (some r)).isOk) ∧
    (∀ name, name ∉ g.names.keys → ∃ g', g.addVariable name (some g.mint.2) = .ok g' ∧
      g'.mint.2 = g.mint.2 ∧ g'.hasTypeVariable g'.mint.2.id) ∧
    ∀ u g, p.start = .ok (u, g) → ∀ before d later, p.vars = before ++ d :: later → d.id = "" →
      let id := numbered (Problem.mintCount before + 1)
      g.names.get? d.name = some { id, fixed := d.fixed } ∧
      ∀ d' ∈ before, (g.names.get? d'.name).map Reference.id = some id ↔ d'.id = id := by
  intro g₀ g
  refine ⟨g₀.mint_not_mem_mintedAlong calls, fun hmem => ?_, fun name hname => ?_,
    fun u g hstart before d later hvars hid => ?_⟩
  · exact (chosen_of_mem_ids (Graph.mem_ids.2 hmem)).resolve_left List.not_mem_nil
  · have hg : g.addVariable name (some g.mint.2) = .ok { g.register g.mint.2.id with
        names := g.names.insert name g.mint.2 } := addVariable_eq_ok.2 ⟨_, rfl, hname, rfl⟩
    exact ⟨_, hg, rfl, Graph.mem_ids.1 ((mem_ids_addVariable hg).2 (.inr rfl))⟩
  · obtain ⟨policy, l, -, -, hg⟩ := Problem.start_eq_ok hstart
    have hshared := Problem.shared_iff_chosen hg hvars hid
    simpa using hshared

/-- A problem that gives its first variable the id that is minted for the second one. -/
def preempted : Problem := { vars := [{ name := "$x", id := "V1" }, { name := "$y" }] }

/-- **Not fresh.** The id that is minted is registered already, and two variables share it. -/
theorem shared_of_preempted :
    (Graph.after { tag := 1 } [.addVariable "$x" (some { id := "V1" })]).hasTypeVariable
        (Graph.after { tag := 1 } [.addVariable "$x" (some { id := "V1" })]).mint.2.id ∧
      preempted.start.toOption.map (fun s => [s.2.names.get? "$x", s.2.names.get? "$y"]) =
        some [some { id := "V1" }, some { id := "V1" }] := by
  decide +kernel

end TypeBounds
