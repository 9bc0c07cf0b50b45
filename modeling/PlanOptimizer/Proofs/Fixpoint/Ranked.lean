import PlanOptimizer.Proofs.Fixpoint.Settled
import PlanOptimizer.Proofs.Memo.Ranking

/-!
# Ranked groups after a run

When a run has ended, no group below its root is stale.  So all these groups are ranked, if
the model compares plans by one key of what they resolve to.
-/

namespace PlanOptimizer

open Relation

universe u

variable {κ : Type u} [Preorder κ] {model : CostModel} {key : Plan → κ}

/-- **A group that is not stale is optimally ranked.**  Let the model compare plans by one key
of what they resolve to.  Then the representative of a group is the earliest of the best
candidates that are alive and do not lead back to it,

* in any memo, if the group is not stale,
* after the group has been ranked again, which does not fail,
* after a run, if the group is below its root. -/
theorem CostModel.RanksBy.ranked (hkey : model.RanksBy key) :
    (∀ m : Memo, m.ReachableBy model → ∀ (id : GroupId) (g : Group), m.groups[id]? = some g →
      g.stale = false → m.Ranked key id g) ∧
    (∀ m : Memo, m.ReachableBy model → ∀ id < m.size, ∃ moved m' g,
      (Memo.rerank model id).runOn m = (.ok moved, m') ∧ m'.groups[id]? = some g ∧
        g.stale = false ∧ m'.Ranked key id g) ∧
    ∀ (o : Optimizer) (m m' : Memo) (root : GroupId) (c : Convergence), o.model = model →
      m.ReachableBy model → (o.optimizeIn root).runOn m = (.ok c, m') →
        ∀ id, Reaches m'.children root id →
          ∃ g : Group, m'.groups[id]? = some g ∧ m'.Ranked key id g := by
  refine ⟨fun m hm => hm.ordered hkey, fun m hm id hid => hm.ranked_of_rerank hkey hid, ?_⟩
  rintro o m m' root c rfl hm hrun id hreach
  obtain ⟨g, hg, hstale, -⟩ := Optimizer.settled_of_optimizeIn hm.reachable hrun id hreach
  have hend := (o.scriptedBy_optimizeIn root).reachableBy hm
  rw [hrun] at hend
  exact ⟨g, hg, hend.ordered hkey id g hg hstale⟩

section Counting

private def counting : CostModel where
  cost _ _ := .ok 0.0
  compare p q lookup := do
    let a ← p.resolve lookup
    let b ← q.resolve lookup
    return Ord.compare a.nodeCount b.nodeCount

private def shortening : Edit Outcome := do
  let id ← (Call.insert (.limit 0 9 (.limit 0 5 (.scanAll "s" "t")))).edit counting
  (Call.offer id (.alternative (.limit 0 5 (.scanAll "s" "t")))).edit counting

private def shortened : Memo := (shortening.runOn .empty).2

/-- A shorter plan has become the representative of its group, and it is the best one. -/
theorem ranked_of_shorter_plan :
    counting.RanksBy Plan.nodeCount ∧ shortened.ReachableBy counting ∧
      ∃ g : Group, shortened.groups[2]? = some g ∧
        g.candidates = [.unary (.limit 0 9) 1, .unary (.limit 0 5) 0] ∧ g.representative = 1 ∧
        shortened.Ranked Plan.nodeCount 2 g := by
  have hkey : counting.RanksBy Plan.nodeCount := by
    refine ⟨Nat.le_total, fun {m p q a b} _ hp hq => ?_⟩
    refine ⟨Ord.compare a.nodeCount b.nodeCount, ?_, Nat.compare_eq_lt, Nat.compare_eq_gt⟩
    simp only [counting, hp, hq]
    rfl
  have hm : shortened.ReachableBy counting :=
    (show Edit.ScriptedBy counting shortening from .bind (.call _) fun _ => .call _).reachableBy .empty
  have hgroup : (shortened.groups[2]?).map (fun g => (g.candidates, g.representative, g.stale)) =
      some ([.unary (.limit 0 9) 1, .unary (.limit 0 5) 0], 1, false) := by decide +kernel
  obtain ⟨g, hg, heq⟩ := Option.map_eq_some_iff.mp hgroup
  simp only [Prod.mk.injEq] at heq
  exact ⟨hkey, hm, g, hg, heq.1, heq.2.1, hkey.ranked.1 _ hm 2 g hg heq.2.2⟩

end Counting

end PlanOptimizer
