import PlanOptimizer.Proofs.Memo.Calls

/-!
# Intact memos

A memo says many things twice.  A group is found by its position and carries its number.  A
candidate refers to groups, and these list the groups that refer to them.  A shape is in the
list of a group, and the index leads to it.  `Memo.Intact` says that all of this agrees, and
it holds in every reachable memo (`Memo.Reachable.intact`), also after calls that have failed
halfway.

Most of it is part of what makes a memo valid.  `Memo.Tidy` adds that groups have their
numbers, and that the lists of parents and of retired positions are ascending, so each of
them stands for one set.
-/

namespace PlanOptimizer

/-! ## Numbers and order -/

/-- A group has its number, and its lists of numbers are ascending. -/
structure Group.Tidy (id : GroupId) (g : Group) : Prop where
  /-- The group has this number. -/
  numbered : g.id = id
  /-- The parents are in ascending order. -/
  parents : g.parents.Pairwise (· < ·)
  /-- The retired positions are in ascending order. -/
  retired : g.retired.Pairwise (· < ·)

namespace Group

variable {id : GroupId} {g : Group}

theorem tidy_single (id : GroupId) (s : Shape) : (single id s).Tidy id := ⟨rfl, .nil, .nil⟩

/-- What else is known of a group has no part in its tidiness. -/
theorem Tidy.congr {g' : Group} (h : g.Tidy id) (hid : g'.id = g.id)
    (hp : g'.parents = g.parents) (hr : g'.retired = g.retired) : g'.Tidy id where
  numbered := hid.trans h.numbered
  parents := hp ▸ h.parents
  retired := hr ▸ h.retired

theorem Tidy.push (h : g.Tidy id) (s : Shape) : (g.push s).Tidy id := h.congr rfl rfl rfl

theorem Tidy.promote (h : g.Tidy id) (pos : Nat) : (g.promote pos).Tidy id :=
  h.congr (g.id_promote pos) (g.parents_promote pos) (g.retired_promote pos)

theorem Tidy.pin (h : g.Tidy id) {pos : Nat} (hpos : pos < g.candidates.length) :
    (g.pin pos).Tidy id where
  numbered := (g.id_pin pos).trans h.numbered
  parents := (g.parents_pin pos).symm ▸ h.parents
  retired := pairwise_retired_pin hpos

theorem Tidy.adopt (h : g.Tidy id) (p : GroupId) (s : Shape) (j : GroupId) :
    (g.adopt p s j).Tidy id where
  numbered := h.numbered
  parents := by
    unfold Group.adopt
    split
    · exact pairwise_insertId p h.parents
    · exact h.parents
  retired := h.retired

theorem Tidy.reopen (h : g.Tidy id) (above : List GroupId) (changed j : GroupId) :
    (g.reopen above changed j).Tidy id := h.congr id_reopen parents_reopen retired_reopen

end Group

namespace Memo

variable {m m' : Memo} {j : GroupId}

/-- Every group is tidy. -/
def Tidy (m : Memo) : Prop := ∀ ⦃id : GroupId⦄ ⦃g : Group⦄, m.groups[id]? = some g → g.Tidy id

theorem tidy_empty : Memo.empty.Tidy := fun _ _ h => by simp [Memo.empty] at h

/-- A memo stays tidy if the one group that changes does. -/
theorem Tidy.edit (h : m.Tidy) {f : Group → Group}
    (hf : ∀ g, m.groups[j]? = some g → g.Tidy j → (f g).Tidy j) : (m.edit j f).Tidy := by
  intro id g' hg'
  rw [groups_edit] at hg'
  obtain ⟨g, hg, rfl⟩ := Option.map_eq_some_iff.mp hg'
  split
  · next heq =>
    subst heq
    exact hf g hg (h hg)
  · exact h hg

theorem Tidy.invalidate (h : m.Tidy) (j : GroupId) : (m.invalidate j).Tidy := by
  intro id g' hg'
  rw [groups_invalidate] at hg'
  obtain ⟨g, hg, rfl⟩ := Option.map_eq_some_iff.mp hg'
  exact (h hg).reopen _ _ _

theorem Tidy.force (h : m.Tidy) {g : Group} (hj : m.groups[j]? = some g) {pos : Nat}
    (hpos : pos < g.candidates.length) : (m.force j pos).Tidy := by
  refine h.edit fun g' hg' ht => ht.pin ?_
  obtain rfl : g = g' := Option.some.inj (hj.symm.trans hg')
  exact hpos

theorem Create.tidy (h : Create m m') (ht : m.Tidy) : m'.Tidy := by
  obtain ⟨-, -⟩ := h
  intro id g hg
  rcases group_withGroup_cases hg with ⟨g₀, hg₀, rfl⟩ | ⟨rfl, rfl⟩
  · exact (ht hg₀).adopt _ _ _
  · exact Group.tidy_single _ _

theorem Quiet.tidy (h : Quiet m m') (ht : m.Tidy) : m'.Tidy := by
  cases h with
  | create h => exact h.tidy ht
  | attach =>
    intro id g hg
    obtain ⟨g₀, hg₀, ⟨rfl, rfl⟩ | ⟨-, rfl⟩⟩ := group_attach_cases hg
    · exact ((ht hg₀).adopt _ _ _).push _
    · exact (ht hg₀).adopt _ _ _
  | @pin _ g hat => exact ht.force hat g.representative_lt
  | settle => exact ht.edit fun _ _ h => h.congr rfl rfl rfl

theorem Move.tidy (h : Move m m') (ht : m.Tidy) : m'.Tidy := by
  cases h with
  | quiet h => exact h.tidy ht
  | explore h =>
    obtain ⟨-⟩ := h
    exact ht.edit fun _ _ h => h.congr rfl rfl rfl
  | turn h =>
    cases h with
    | promote => exact (ht.edit fun _ _ h => h.promote _).invalidate _
    | force hat hpos => exact (ht.force hat (List.getElem?_eq_some_iff.mp hpos).1).invalidate _

theorem Moves.tidy (h : m.Moves m') (ht : m.Tidy) : m'.Tidy := by
  induction h with
  | refl => exact ht
  | tail _ hmove ih => exact hmove.tidy ih

theorem Reachable.tidy (h : m.Reachable) : m.Tidy := (h.later.moves .empty).tidy tidy_empty

/-! ## Intact memos -/

/-- The parts of a memo agree with each other. -/
structure Intact (m : Memo) : Prop where
  /-- A group has the number under which it is found. -/
  numbered : ∀ (id : GroupId) (g : Group), m.groups[id]? = some g → g.id = id
  /-- A candidate is an operator, and its inputs are references to groups that exist. -/
  operators : ∀ id c, m.Candidate id c → c.overGroups.groupId? = none ∧
    ∀ q ∈ c.overGroups.inputs, ∃ i < m.size, q = .group i
  /-- No two candidates of a group are the same. -/
  different : ∀ (id : GroupId) (g : Group), m.groups[id]? = some g →
    g.candidates.Pairwise fun a b => Node.same a b = false
  /-- The representative is a candidate that has not retired. -/
  representative : ∀ (id : GroupId) (g : Group), m.groups[id]? = some g →
    g.representative < g.candidates.length ∧ g.representative ∉ g.retired
  /-- The retired positions are positions of candidates. -/
  retired : ∀ (id : GroupId) (g : Group), m.groups[id]? = some g →
    g.retired.Pairwise (· < ·) ∧ ∀ pos ∈ g.retired, pos < g.candidates.length
  /-- The parents of a group are the groups with a candidate that refers to it. -/
  parents : ∀ (id : GroupId) (g : Group), m.groups[id]? = some g → g.parents.Pairwise (· < ·) ∧
    ∀ p, p ∈ g.parents ↔ ∃ c, m.Candidate p c ∧ .group id ∈ c.overGroups.inputs
  /-- The index has an entry for every candidate and for nothing else. -/
  indexed : ∀ k, (m.index.find? k).isSome = true ↔ ∃ id c, m.Candidate id c ∧ c.canon = k
  /-- An entry of the index names a group that holds the shape. -/
  housed : ∀ k id, m.index.find? k = some id → ∃ c, m.Candidate id c ∧ c.canon = k

theorem inputs_overGroups (s : Shape) : s.overGroups.inputs = s.inputs.map Plan.group := by
  rw [Node.overGroups, Plan.inputs_plan, Node.inputs_map]

theorem group_mem_inputs_iff {s : Shape} {i : GroupId} :
    .group i ∈ s.overGroups.inputs ↔ i ∈ s.inputs := by
  rw [inputs_overGroups, List.mem_map_of_injective fun _ _ h => Plan.group.inj h]

theorem Valid.operators (hv : m.Valid) {id : GroupId} {c : Shape} (hc : m.Candidate id c) :
    c.overGroups.groupId? = none ∧ ∀ q ∈ c.overGroups.inputs, ∃ i < m.size, q = .group i := by
  refine ⟨by cases c <;> rfl, fun q hq => ?_⟩
  rw [inputs_overGroups] at hq
  obtain ⟨i, hi, rfl⟩ := List.mem_map.mp hq
  exact ⟨i, hv.live hc i hi, rfl⟩

theorem Valid.different (hv : m.Valid) {id : GroupId} {g : Group} (hg : m.groups[id]? = some g) :
    g.candidates.Pairwise fun a b => Node.same a b = false := by
  have hdistinct : (g.candidates.map Node.canon).Pairwise (· ≠ ·) := (hv.group hg).distinct
  refine (List.pairwise_map.mp hdistinct).imp fun hne => ?_
  rw [Node.same, decide_eq_false_iff_not]
  exact hne

theorem Valid.indexed_iff (hv : m.Valid) {k : Shape} :
    (m.index.find? k).isSome = true ↔ ∃ id c, m.Candidate id c ∧ c.canon = k := by
  constructor
  · intro h
    obtain ⟨id, hid⟩ := Option.isSome_iff_exists.mp h
    exact ⟨id, hv.housed hid⟩
  · rintro ⟨id, c, hc, rfl⟩
    exact hv.indexed hc

/-- In every reachable memo the parts agree with each other. -/
theorem Reachable.intact (h : m.Reachable) : m.Intact := by
  have hv := h.valid
  have ht := h.tidy
  exact {
    numbered := fun _ _ hg => (ht hg).numbered
    operators := fun _ _ hc => hv.operators hc
    different := fun _ _ hg => hv.different hg
    representative := fun _ g hg => ⟨g.representative_lt, (hv.group hg).alive⟩
    retired := fun _ _ hg => ⟨(ht hg).retired, (hv.group hg).retired_lt⟩
    parents := fun _ _ hg => ⟨(ht hg).parents, fun p => by
      simp only [hv.parents hg p, Mentions, group_mem_inputs_iff]⟩
    indexed := fun _ => hv.indexed_iff
    housed := fun _ _ hk => hv.housed hk }

section Halfway

private def halting : Edit Outcome := do
  let _ ← (Call.insert (.limit 0 5 (.scanAll "s" "t"))).edit .indifferent
  let _ ← (Call.offer 1 (.replacement (.limit 0 7 (.group 0)))).edit .indifferent
  (Call.offer 1 (.alternative (.limit 0 9 (.limit 0 3 (.group 1))))).edit .indifferent

private def halted : Memo :=
  (halting.runOn .empty).2

/-- An offer that leads back to its group has made a group for its input before it fails. -/
theorem intact_of_failed_offer :
    halted.Reachable ∧ (halting.runOn .empty).1 = .error (.selfReference 1) ∧
      halted.groups.map (fun g => (g.id, g.candidates.length, g.retired, g.parents)) =
        [(0, 1, [], [1]), (1, 2, [0], [2]), (2, 1, [], [])] ∧
      halted.Intact := by
  have hscript : halting.Scripted :=
    .bind (.call _ _) fun _ => .bind (.call _ _) fun _ => .call _ _
  have h : halted.Reachable := hscript.reachable .empty
  exact ⟨h, by decide +kernel, by decide +kernel, h.intact⟩

end Halfway

end Memo

end PlanOptimizer
