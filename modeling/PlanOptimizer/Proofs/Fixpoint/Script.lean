import PlanOptimizer.Fixpoint.Run
import PlanOptimizer.Proofs.Memo.Calls

/-!
# Runs are made of calls

A run changes its memo through calls alone, and between them it only asks questions.  So
a run leads from one reachable memo to another, and it is a sequence of moves.  In all calls
of a run the same model ranks plans.
-/

namespace PlanOptimizer

namespace Optimizer

open Edit

variable (o : Optimizer) (root : GroupId) (pass : Nat) (id : GroupId)

theorem scriptedBy_offerAll (xs : List Offer) : (o.offerAll id xs).ScriptedBy o.model := by
  induction xs with
  | nil => exact .pure _
  | cons x xs ih => exact .bind (.call (.offer id x)) fun _ => .bind ih fun _ => .pure _

theorem scriptedBy_tryRule (rule : Rule) : (o.tryRule root pass id rule).ScriptedBy o.model := by
  refine .bind (.ask _) fun g => .ite (.pure _) ?_
  refine .bind (.call (.markExplored id rule.key)) fun _ => .bind (.ask _) fun _ => ?_
  refine .ite (.bind (.ask _) fun offers => ?_) (.pure _)
  exact .bind (o.scriptedBy_offerAll id offers) fun _ => .bind (.ask _) fun _ => .pure _

theorem scriptedBy_tryRules (rules : List Rule) : (o.tryRules root pass id rules).ScriptedBy o.model := by
  induction rules with
  | nil => exact .pure _
  | cons rule rules ih =>
    exact .bind (o.scriptedBy_tryRule root pass id rule) fun _ => .bind ih fun _ => .pure _

theorem scriptedBy_explore : (o.explore root pass id).ScriptedBy o.model :=
  .bind (.call (.rerank id)) fun _ =>
    .bind (o.scriptedBy_tryRules root pass id o.rules) fun _ => .pure _

theorem scriptedBy_walk (budget : Nat) : ∀ visited pending : List GroupId,
    (o.walk root pass budget visited pending).ScriptedBy o.model := by
  induction budget with
  | zero =>
    intro visited pending
    unfold walk
    split
    · exact .pure _
    · exact .bind (.ask _) fun _ => .throw _
  | succ budget ih =>
    intro visited pending
    unfold walk
    split
    · exact .pure _
    · next id rest _ =>
      refine .bind (o.scriptedBy_explore root pass id) fun _ => .bind (.ask _) fun s => ?_
      exact .bind (ih _ _) fun _ => .pure _

theorem scriptedBy_runPass : (o.runPass root pass).ScriptedBy o.model :=
  .bind (.ask .ok) fun _ => o.scriptedBy_walk root pass _ _ _

theorem scriptedBy_runPasses (left : Nat) : ∀ c : Convergence, (o.runPasses root left c).ScriptedBy o.model := by
  induction left with
  | zero =>
    intro c
    exact .bind (.ask _) fun _ => .throw _
  | succ left ih =>
    intro c
    exact .bind (o.scriptedBy_runPass root _) fun _ => .ite (ih _) (.pure _)

theorem scriptedBy_optimizeIn : (o.optimizeIn root).ScriptedBy o.model :=
  .bind (.ask _) fun _ => o.scriptedBy_runPasses root _ _

theorem scriptedBy_optimizeInto (p : Plan) : (o.optimizeInto p).ScriptedBy o.model :=
  .bind (.call (.insert p)) fun root => .bind (.ask _) fun _ =>
    .bind (o.scriptedBy_optimizeIn root) fun _ => .bind (.ask _) fun _ => .pure _

/-! ## Calls in which any model ranks plans -/

theorem scripted_offerAll (xs : List Offer) : (o.offerAll id xs).Scripted :=
  (o.scriptedBy_offerAll id xs).scripted

theorem scripted_tryRule (rule : Rule) : (o.tryRule root pass id rule).Scripted :=
  (o.scriptedBy_tryRule root pass id rule).scripted

theorem scripted_tryRules (rules : List Rule) : (o.tryRules root pass id rules).Scripted :=
  (o.scriptedBy_tryRules root pass id rules).scripted

theorem scripted_explore : (o.explore root pass id).Scripted :=
  (o.scriptedBy_explore root pass id).scripted

theorem scripted_walk (budget : Nat) (visited pending : List GroupId) :
    (o.walk root pass budget visited pending).Scripted :=
  (o.scriptedBy_walk root pass budget visited pending).scripted

theorem scripted_runPass : (o.runPass root pass).Scripted := (o.scriptedBy_runPass root pass).scripted

theorem scripted_optimizeIn : (o.optimizeIn root).Scripted := (o.scriptedBy_optimizeIn root).scripted

theorem scripted_optimizeInto (p : Plan) : (o.optimizeInto p).Scripted :=
  (o.scriptedBy_optimizeInto p).scripted

end Optimizer

end PlanOptimizer
