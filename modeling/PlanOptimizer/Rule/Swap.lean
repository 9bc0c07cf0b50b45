import PlanOptimizer.Rule.Basic

/-!
# Swapping joins

The inputs of an inner or cross join may change sides.  The sides of the
equalities in its condition change with them, so a swap of a swap is the join it
started from.
-/

namespace PlanOptimizer.Rule

mutual

/-- A condition with the sides of its equalities exchanged.  Only equalities that
stand in its conjunctions are touched. -/
def swapSides : Expr → Expr
  | .binary .eq a b => .binary .eq b a
  | .and ps => .and (swapSidesAll ps)
  | e => e

/-- Some conditions with the sides of their equalities exchanged. -/
def swapSidesAll : List Expr → List Expr
  | [] => []
  | p :: ps => swapSides p :: swapSidesAll ps

end

mutual

/-- A second exchange undoes the first. -/
theorem swapSides_swapSides : ∀ e : Expr, swapSides (swapSides e) = e
  | .column _ | .literal _ | .unary _ _ | .call _ _ | .or _ => rfl
  | .binary op a b => by cases op <;> rfl
  | .and ps => by simp [swapSides, swapSidesAll_swapSidesAll ps]

theorem swapSidesAll_swapSidesAll : ∀ ps : List Expr, swapSidesAll (swapSidesAll ps) = ps
  | [] => rfl
  | p :: ps => by simp [swapSidesAll, swapSides_swapSides p, swapSidesAll_swapSidesAll ps]

end

/-- Whether the two inputs of a join are alike. -/
def isSymmetric : Plan → Bool
  | .join j _ _ => decide (j.kind = .inner ∨ j.kind = .cross)
  | _ => false

/-- The offers for a join. -/
def swapped : Plan → List Offer
  | .join j a b => [.alternative (.join { j with condition := swapSides j.condition } b a)]
  | _ => []

/-- Swaps the inputs of a join. -/
def swapJoin : Rule where
  name := "JoinCommutativity"
  family := "JoinCommutativity"
  pattern := .join
  accepts := isSymmetric
  apply _ _ p := return swapped p

end PlanOptimizer.Rule
