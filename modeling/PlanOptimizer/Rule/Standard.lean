import PlanOptimizer.Rule.FilterMerge
import PlanOptimizer.Rule.Pruning
import PlanOptimizer.Rule.Rotation
import PlanOptimizer.Rule.Routing
import PlanOptimizer.Rule.Swap

/-!
# The standard rules

Simplifications come first, so that the other rules see the simplified plan.
-/

namespace PlanOptimizer

/-- The standard rules, in the order in which they are tried. -/
def Rule.standard : List Rule :=
  [removeTrivialFilter, mergeFilters, routePredicates, pruneColumns, swapJoin, rotateJoin]

/-- The registry of the standard rules. -/
def Registry.standard : Registry := { Registry.empty with base := Rule.standard }

end PlanOptimizer
