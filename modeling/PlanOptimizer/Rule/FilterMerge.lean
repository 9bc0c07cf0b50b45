import PlanOptimizer.Expr.Conjuncts
import PlanOptimizer.Rule.Basic

/-!
# Simplifying filters

Two rules that are always for the better, so their offers are replacements.

* A filter over a filter becomes one filter for both predicates.
* A filter for `TRUE` is replaced by its input.  The offer is the bare reference
  to the input, so it states that the two groups mean the same.
-/

namespace PlanOptimizer.Rule

/-- The offer for a filter `q` over a filter `p`: one filter for `p` and `q`. -/
def mergedFilter (lookup : Lookup) : Plan → Except Fault (List Offer)
  | .filter outer input => do
    match ← lookup.expose input with
    | .filter inner below =>
      return [.replacement (.filter (Expr.conjunction [inner, outer]) below)]
    | _ => return []
  | _ => return []

/-- Merges adjacent filters. -/
def mergeFilters : Rule where
  name := "MergeFilters"
  family := "MergeFilters"
  pattern := .filterOverFilter
  apply _ lookup p := mergedFilter lookup p

/-- Whether a plan is a filter for the literal `TRUE`. -/
def isTrivialFilter : Plan → Bool
  | .filter predicate _ => predicate.isTrue
  | _ => false

/-- Replaces a filter by its input. -/
def withoutFilter : Plan → List Offer
  | .filter _ input => [.replacement input]
  | _ => []

/-- Removes filters for `TRUE`. -/
def removeTrivialFilter : Rule where
  name := "RemoveTrivialFilter"
  family := "RemoveTrivialFilter"
  pattern := .filter
  accepts := isTrivialFilter
  apply _ _ p := return withoutFilter p

end PlanOptimizer.Rule
