import PlanOptimizer.Proofs.Memo.Resolvable
import PlanOptimizer.Proofs.Unfolding

/-!
# Seeing through a memo

A plan over the groups of a reachable memo resolves to a plan without references.  Width, cost,
statistics and tables of the plan, seen through the memo, are those of the resolved plan, seen
without it (`Memo.Reachable.transparent`).  A group may be referred to from many places: it is
asked again at each of them, it is visited once when tables are collected, and it is resolved
once.  No question can tell the difference.
-/

namespace PlanOptimizer

theorem Estimator.statistics_of_estimate (e : Estimator Float) {p : Plan} {lookup : Lookup}
    {x : Estimate Float} (h : e.estimate p lookup = .ok x) :
    e.statistics p lookup = .ok x.statistics := by
  rw [statistics, h]
  rfl

namespace Memo

variable {m : Memo} {p : Plan}

/-- Every plan over groups that exist resolves, and seen through the memo it has the width, the
cost, the statistics and the tables of the plan that it resolves to. -/
theorem Reachable.transparent (hm : m.Reachable) (hp : ∀ i ∈ p.groups, i < m.size) :
    ∃ t, p.resolve m.lookup = .ok t ∧ t.hasGroups = false ∧
      (∃ w, p.width m.lookup = .ok w ∧ t.width .empty = .ok w) ∧
      (∀ e : Estimator Float,
        (∃ x, e.costModel.cost p m.lookup = .ok x ∧ e.costModel.cost t .empty = .ok x) ∧
          ∃ s, e.statistics p m.lookup = .ok s ∧ e.statistics t .empty = .ok s) ∧
      ∃ names, p.tables m.lookup = .ok names ∧ ∀ name, name ∈ names ↔ name ∈ t.scanned := by
  obtain ⟨t, ht, hclosed⟩ := hm.valid.resolve_plan_ok hp
  refine ⟨t, ht, hclosed, ?_, fun e => ?_, Plan.tables_of_resolve ht⟩
  · obtain ⟨w, hw⟩ := Plan.total_widthBy.answer_empty hclosed
    exact ⟨w, (Lookup.compositional_widthBy.answer_of_resolve ht).trans hw, hw⟩
  · obtain ⟨x, hx⟩ := e.total_estimateBy.answer_empty hclosed
    have hseen : e.estimate p m.lookup = .ok x :=
      ((Lookup.compositional_estimateBy e).answer_of_resolve ht).trans hx
    exact ⟨⟨x.cost, e.cost_of_estimate hseen, e.cost_of_estimate hx⟩,
      x.statistics, e.statistics_of_estimate hseen, e.statistics_of_estimate hx⟩

section Shared

private def sharing : Edit Outcome := do
  let both : Plan := .join ⟨.cross, .always⟩ (.scanOf "s" "t" ["a"]) (.scanOf "s" "u" ["a"])
  let _ ← (Call.insert both).edit .indifferent
  (Call.offer 1 (.replacement (.filter .always (.group 0)))).edit .indifferent

private def shared : Memo :=
  (sharing.runOn .empty).2

/-- The join of a group with itself. -/
private def doubled : Plan := .join ⟨.cross, .always⟩ (.group 2) (.group 2)

private def half : Plan :=
  .join ⟨.cross, .always⟩ (.scanOf "s" "t" ["a"]) (.filter .always (.scanOf "s" "t" ["a"]))

private def unshared : Plan := .join ⟨.cross, .always⟩ half half

/-- The plan refers twice to a group in which another one is met twice. -/
theorem transparent_of_shared :
    shared.Reachable ∧ (∀ i ∈ doubled.groups, i < shared.size) ∧
      doubled.resolve shared.lookup = .ok unshared ∧
      doubled.width shared.lookup = .ok (some 4) ∧
      (∀ e : Estimator Float, ∃ x,
        e.costModel.cost doubled shared.lookup = .ok x ∧ e.costModel.cost unshared .empty = .ok x) ∧
      ∃ names, doubled.tables shared.lookup = .ok names ∧ ∀ name, name ∈ names ↔ name = "t" := by
  have hscript : sharing.Scripted := .bind (.call _ _) fun _ => .call _ _
  have h : shared.Reachable := hscript.reachable .empty
  have hlive : ∀ i ∈ doubled.groups, i < shared.size := by decide +kernel
  have hresolve : doubled.resolve shared.lookup = .ok unshared := by decide +kernel
  have hwidth : unshared.width .empty = .ok (some 4) := by decide +kernel
  obtain ⟨t, ht, -, ⟨w, hw, hwt⟩, hestimates, names, hnames, hall⟩ := h.transparent hlive
  obtain rfl : unshared = t := Except.ok.inj (hresolve.symm.trans ht)
  refine ⟨h, hlive, hresolve, ?_, fun e => (hestimates e).1, names, hnames, fun name => ?_⟩
  · rw [hw, ← hwt, hwidth]
  · rw [hall]
    simp [unshared, half, Plan.scanned]

end Shared

end Memo

end PlanOptimizer
