import PlanOptimizer.Proofs.Memo.Below
import PlanOptimizer.Proofs.Memo.Resolvable

/-!
# Resolved plans and what is below

The plan a shape resolves to is told by what is below the groups under it
(`Memo.Valid.resolve_congr`).  So a turn of one group changes the plans of no groups but
those that lead to it through representatives.
-/

namespace PlanOptimizer

open Relation

namespace Memo

variable {m m' : Memo} {id j : GroupId} {s : Shape}

/-- A shape expands alike in two memos if the groups under it do. -/
theorem expand_overGroups_congr {path : List GroupId}
    (h : ∀ i ∈ s.inputs,
      m'.lookup.expand path (.group i) = m.lookup.expand path (.group i)) :
    m'.lookup.expand path s.overGroups = m.lookup.expand path s.overGroups := by
  refine Lookup.expand_congr fun i hi => h i ?_
  rwa [Node.groups_overGroups] at hi

theorem SameBelow.expand_group (h : m.SameBelow m' id) (hv : m.Valid) (path : List GroupId) :
    m'.lookup.expand path (.group id) = m.lookup.expand path (.group id) := by
  induction id using hv.acyclic.induction generalizing path with
  | _ id ih =>
    by_cases hpath : id ∈ path
    · rw [Lookup.expand_group_of_mem hpath, Lookup.expand_group_of_mem hpath]
    · cases hs : m.rep? id with
      | none =>
        rw [Lookup.expand_group_of_unknown hpath (by rw [find_lookup, h.rep?, hs]; rfl),
          Lookup.expand_group_of_unknown hpath (by rw [find_lookup, hs]; rfl)]
      | some s =>
        rw [Lookup.expand_group_of_find hpath (by rw [find_lookup, h.rep?, hs]; rfl),
          Lookup.expand_group_of_find hpath (by rw [find_lookup, hs]; rfl)]
        refine expand_overGroups_congr fun i hi => ?_
        have hlink : Links m.children id i := (links_of_rep hs).mpr hi
        exact ih i hlink (h.of_reaches (.single hlink)) _

theorem SameBelow.resolve_group (h : m.SameBelow m' id) (hv : m.Valid) :
    (Plan.group id).resolve m'.lookup = (Plan.group id).resolve m.lookup := by
  rw [Plan.resolve_eq_expand, Plan.resolve_eq_expand, h.expand_group hv]

/-- The plan a shape resolves to is told by what is below the groups under it. -/
theorem Valid.resolve_congr (hv : m.Valid) (h : ∀ i ∈ s.inputs, m.SameBelow m' i) :
    s.overGroups.resolve m'.lookup = s.overGroups.resolve m.lookup := by
  rw [Plan.resolve_eq_expand, Plan.resolve_eq_expand]
  exact expand_overGroups_congr fun i hi => (h i hi).expand_group hv []

/-- Every shape over groups that exist resolves to a plan. -/
theorem Valid.resolve_shape_ok (hv : m.Valid) (hlive : ∀ i ∈ s.inputs, i < m.size) :
    ∃ q, s.overGroups.resolve m.lookup = .ok q := by
  obtain ⟨q, hq, -⟩ := hv.resolve_plan_ok (p := s.overGroups) fun i hi => by
    rw [Node.groups_overGroups] at hi
    exact hlive i hi
  exact ⟨q, hq⟩

/-- A group that does not lead to any group with another representative is the same below. -/
theorem SameBelow.of_ne (hrep : ∀ i, i ≠ j → i < m.size → m'.rep? i = m.rep? i) (hv : m.Valid)
    (hid : id < m.size) (h : ¬ Reaches m.children id j) : m.SameBelow m' id := by
  intro i hi
  exact hrep i (fun heq => h (heq ▸ hi)) (hv.lt_of_reaches hid hi)

end Memo

end PlanOptimizer
