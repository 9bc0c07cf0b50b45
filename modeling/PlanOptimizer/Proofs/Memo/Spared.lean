import PlanOptimizer.Proofs.Memo.Invalidation

/-!
# Calls that fail

A call may fail before it does anything, in the middle of an insertion, when its shape is
vetted, and when its shape is ranked.  All that it has done by then is to make new groups
(`Call.grows_of_error`), and a new group touches the others only where it enters itself as their
parent (`Memo.Grows.group_of_lt`).  So a failed call spares what was there
(`Memo.Reachable.spares_of_error`).
-/

namespace PlanOptimizer

namespace Memo

variable {m m' : Memo} {id : GroupId}

/-- Nothing that was in the memo is touched.  There may be new groups, and they may be entered
as parents. -/
structure Spares (m m' : Memo) : Prop where
  /-- A group keeps all that it has, and the parents that it gets are new groups. -/
  group : ∀ {id : GroupId} {g : Group}, m.groups[id]? = some g → ∃ parents : List GroupId,
    m'.groups[id]? = some { g with parents := parents } ∧ g.parents ⊆ parents ∧
      ∀ p ∈ parents, p ∈ g.parents ∨ m.size ≤ p ∧ p < m'.size
  /-- A group keeps its plan. -/
  plan : ∀ {id : GroupId}, id < m.size →
    (Plan.group id).resolve m'.lookup = (Plan.group id).resolve m.lookup
  /-- Entries of the index stay. -/
  index : ∀ {k : Shape} {id : GroupId}, m.index.find? k = some id → m'.index.find? k = some id
  /-- A new group has one candidate. -/
  single : ∀ {id : GroupId} {g : Group}, m'.groups[id]? = some g → m.size ≤ id →
    g.candidates.length = 1

/-- New groups are entered as parents of the groups that were there, and these are not changed
otherwise. -/
theorem Grows.group_of_lt (h : m.Grows m') {g : Group} (hg : m.groups[id]? = some g) :
    ∃ parents : List GroupId, m'.groups[id]? = some { g with parents := parents } ∧
      g.parents ⊆ parents ∧ ∀ p ∈ parents, p ∈ g.parents ∨ m.size ≤ p ∧ p < m'.size := by
  induction h with
  | refl => exact ⟨g.parents, hg, fun _ hp => hp, fun _ hp => .inl hp⟩
  | tail hfirst hlast ih =>
    obtain ⟨parents, hg₁, hsub, hnew⟩ := ih
    obtain ⟨-, -⟩ := hlast
    rename_i m₁ s
    have hle : m.size ≤ m₁.size := Grows.size_le hfirst
    rw [size_withGroup]
    refine ⟨(Group.adopt m₁.size s id { g with parents := parents }).parents, ?_, fun p hp => ?_,
      fun p hp => ?_⟩
    · rw [groups_withGroup_of_lt (lt_size_iff.mpr ⟨_, hg₁⟩), hg₁]
      rfl
    · exact Group.mem_parents_adopt.mpr (.inl (hsub hp))
    · rcases Group.mem_parents_adopt.mp hp with hp | ⟨rfl, -⟩
      · rcases hnew p hp with hp | ⟨hge, hlt⟩
        · exact .inl hp
        · exact .inr ⟨hge, Nat.lt_succ_of_lt hlt⟩
      · exact .inr ⟨hle, Nat.lt_succ_self _⟩

/-- Making new groups spares those that were there. -/
theorem Grows.spares (h : m.Grows m') (hv : m.Valid) : m.Spares m' where
  group hg := h.group_of_lt hg
  plan hid := by
    have hstill : m.Still (fun _ => False) m' := h.still
    exact hstill.resolve_group h.extends hv hid
  index hk := h.extends.index hk
  single hg hid := h.single_of_size_le hg hid

variable {model : CostModel} {f : Fault}

/-- A shape that cannot be ranked is not placed. -/
theorem Placement.eq_of_error {s : Shape} {forced : Bool}
    (h : Placement model id s m forced (.error f) m') : m' = m := by
  cases h with
  | unranked => rfl

/-- An offer that fails has only made new groups. -/
theorem Offering.grows_of_error {o : Offer} (h : Offering model id o m (.error f) m') :
    m.Grows m' := by
  cases h with
  | unknown => exact .refl
  | dangling hgrows => exact hgrows
  | refused hgrows => exact hgrows
  | placed hgrows _ _ hplacement => exact hplacement.eq_of_error ▸ hgrows

/-- A ranking that fails has done nothing. -/
theorem Ranking.eq_of_error (h : Ranking model id m (.error f) m') : m' = m := by
  cases h with
  | unknown => rfl
  | failed => rfl

end Memo

/-- A call that fails has only made new groups, and nothing if it ranks a group. -/
theorem Call.grows_of_error {α : Type} {model : CostModel} {c : Call α} {m m' : Memo} {f : Fault}
    (hv : m.Valid) (hrun : (c.edit model).runOn m = (.error f, m')) :
    m.Grows m' ∧ ∀ id, c.Ranks id → m' = m := by
  cases c with
  | insert p => exact ⟨Memo.grows_of_insert hv hrun, fun _ h => h.elim⟩
  | offer id o =>
    obtain ⟨r, m₁, hrun₁, hoffering⟩ := Memo.offer_cases hv model id o
    obtain ⟨rfl, rfl⟩ := Prod.mk.inj (hrun₁.symm.trans hrun)
    exact ⟨hoffering.grows_of_error, fun _ h => h.elim⟩
  | rerank id =>
    obtain ⟨r, m₁, hrun₁, hranking⟩ := Memo.rerank_cases model id m
    obtain ⟨rfl, rfl⟩ := Prod.mk.inj (hrun₁.symm.trans hrun)
    obtain rfl := hranking.eq_of_error
    exact ⟨.refl, fun _ _ => rfl⟩
  | markExplored id key =>
    cases hg : m.groups[id]? with
    | none =>
      obtain ⟨-, rfl⟩ := Prod.mk.inj
        ((Memo.runOn_markExplored_of_unknown hg key).symm.trans hrun)
      exact ⟨.refl, fun _ _ => rfl⟩
    | some g => cases (Memo.runOn_markExplored_of_group hg key).symm.trans hrun

/-- **A failed call damages nothing.**  Whatever model ranks plans and wherever a call fails: the
groups that were there keep their candidates, representatives, notes and plans, the index keeps
its entries, and each new group has one candidate.  A ranking that fails leaves the memo as it
is. -/
theorem Memo.Reachable.spares_of_error {m m' : Memo} (hm : m.Reachable) {α : Type}
    (model : CostModel) (c : Call α) {f : Fault}
    (hrun : (c.edit model).runOn m = (.error f, m')) :
    m.Spares m' ∧ ∀ id, c.Ranks id → m' = m := by
  obtain ⟨hgrows, hranks⟩ := c.grows_of_error hm.valid hrun
  exact ⟨hgrows.spares hm.valid, hranks⟩

section Refusing

private def topping : Call GroupId := .insert (.limit 0 5 (.scanAll "s" "t"))

/-- A limit over a scan. -/
private def topped : Memo := ((topping.edit .indifferent).runOn .empty).2

/-- An offer of a limit over a limit over the group itself. -/
private def encircling : Call Outcome := .offer 1 (.alternative (.limit 0 3 (.limit 0 2 (.group 1))))

/-- An offer that leads back to its group is refused after its lower limit has come in.  The
group has a new parent and is what it was otherwise. -/
theorem spares_of_refused_circle :
    topped.Reachable ∧
      ((encircling.edit .indifferent).runOn topped).1 = .error (.selfReference 1) ∧
      ((encircling.edit .indifferent).runOn topped).2.size = 3 ∧
      ((encircling.edit .indifferent).runOn topped).2.parents 1 = [2] ∧
      topped.Spares ((encircling.edit .indifferent).runOn topped).2 := by
  have hreach : topped.Reachable := .call .indifferent topping .empty
  have hfault : ((encircling.edit .indifferent).runOn topped).1 = .error (.selfReference 1) := by
    decide +kernel
  refine ⟨hreach, hfault, by decide +kernel, by decide +kernel, ?_⟩
  exact (hreach.spares_of_error .indifferent encircling (Prod.ext hfault rfl)).1

end Refusing

end PlanOptimizer
