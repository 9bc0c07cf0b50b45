import PlanOptimizer.Fixpoint.Run
import PlanOptimizer.Memo.Text
import PlanOptimizer.Rule.Standard
import PlanOptimizer.Wire.Estimates
import PlanOptimizer.Wire.Plans
import PlanOptimizer.Proofs.Edit
import PlanOptimizer.Proofs.Except
import PlanOptimizer.Proofs.Expansion
import PlanOptimizer.Proofs.Clauses
import PlanOptimizer.Proofs.Reachability
import PlanOptimizer.Proofs.Memo.Groups
import PlanOptimizer.Proofs.Memo.Moves
import PlanOptimizer.Proofs.Memo.Valid
import PlanOptimizer.Proofs.Memo.Insertion
import PlanOptimizer.Proofs.Memo.Operations
import PlanOptimizer.Proofs.Memo.Calls
import PlanOptimizer.Proofs.Memo.References
import PlanOptimizer.Proofs.Memo.Intact
import PlanOptimizer.Proofs.Memo.Later
import PlanOptimizer.Proofs.Memo.Resolvable
import PlanOptimizer.Proofs.Memo.Meaning
import PlanOptimizer.Proofs.Memo.Canonical
import PlanOptimizer.Proofs.Memo.Faults
import PlanOptimizer.Proofs.Memo.Held
import PlanOptimizer.Proofs.Memo.Below
import PlanOptimizer.Proofs.Memo.Notes
import PlanOptimizer.Proofs.Memo.Resolved
import PlanOptimizer.Proofs.Memo.Invalidation
import PlanOptimizer.Proofs.Memo.Spared
import PlanOptimizer.Proofs.Memo.Ranking
import PlanOptimizer.Proofs.Memo.Grading
import PlanOptimizer.Proofs.Rules.Rewrites
import PlanOptimizer.Proofs.Rules.Conserved
import PlanOptimizer.Proofs.Rules.Items
import PlanOptimizer.Proofs.Rules.Admitted
import PlanOptimizer.Proofs.Rules.Scope
import PlanOptimizer.Proofs.Memo.Bounded
import PlanOptimizer.Proofs.Memo.Potential
import PlanOptimizer.Proofs.Fixpoint.Script
import PlanOptimizer.Proofs.Fixpoint.Soundness
import PlanOptimizer.Proofs.Fixpoint.Settled
import PlanOptimizer.Proofs.Fixpoint.Ranked
import PlanOptimizer.Proofs.Fixpoint.Vouched
import PlanOptimizer.Proofs.Fixpoint.Completeness
import PlanOptimizer.Proofs.Fixpoint.Filters
import PlanOptimizer.Proofs.Fixpoint.Regime
import PlanOptimizer.Proofs.Fixpoint.Consistent
import PlanOptimizer.Proofs.Fixpoint.Convergence
import PlanOptimizer.Proofs.Memo.Widths
import PlanOptimizer.Proofs.Fixpoint.Conservation
import PlanOptimizer.Proofs.Rules.Readings
import PlanOptimizer.Proofs.Unfolding
import PlanOptimizer.Proofs.Memo.Transparent
import PlanOptimizer.Proofs.Rows
import PlanOptimizer.Proofs.Rules.Bags
import PlanOptimizer.Proofs.Rules.Bound
import PlanOptimizer.Proofs.Rules.Pieces
import PlanOptimizer.Proofs.Recursion
import PlanOptimizer.Proofs.Memo.Outcomes
import PlanOptimizer.Proofs.Fixpoint.Stirring
import PlanOptimizer.Proofs.Fixpoint.Walks
import PlanOptimizer.Proofs.Fixpoint.Budgets
import PlanOptimizer.Proofs.Recombination
import PlanOptimizer.Proofs.Memo.Pinned
import PlanOptimizer.Proofs.Rules.Mirrors
import PlanOptimizer.Proofs.Fixpoint.Countdown
import PlanOptimizer.Proofs.Fixpoint.Swaps
import PlanOptimizer.Proofs.Fixpoint.Debts
import PlanOptimizer.Proofs.Fixpoint.Linear
import PlanOptimizer.Proofs.Memo.Circles
import PlanOptimizer.Proofs.Memo.Matching
import PlanOptimizer.Proofs.Estimate.Sane
import PlanOptimizer.Proofs.Wire.RoundTrip
