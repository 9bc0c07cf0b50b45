import PlanOptimizer.Estimate.Statistics
import PlanOptimizer.Expr.Basic

/-!
# Selectivity

The fraction of rows a predicate is expected to keep.  An equality with a column
keeps one value out of the distinct ones, a range a third, a null test the
fraction of nulls.  Conjunctions multiply, as if their members were independent,
and a disjunction fails where all its members fail.
-/

namespace PlanOptimizer

open Quantity

variable {α : Type} [Quantity α]

/-- The fraction of rows a range keeps. -/
def rangeSelectivity : α := 0.33

/-- The fraction of rows in which an operand is null. -/
def Statistics.nullSelectivity (s : Statistics α) : Expr → α
  | .column c => s.nullFraction c.name
  | _ => Statistics.defaultSelectivity

/-- The fraction of rows in which a comparison of two operands keeps a row.  An
equality looks at the left operand first. -/
def Statistics.comparisonSelectivity (s : Statistics α) : BinOp → Expr → Expr → α
  | .eq, .column c, _ => s.equalitySelectivity c.name
  | .eq, _, .column c => s.equalitySelectivity c.name
  | .lt, _, _ | .le, _, _ | .gt, _, _ | .ge, _, _ => rangeSelectivity
  | _, _, _ => Statistics.defaultSelectivity

mutual

/-- The fraction of rows a predicate keeps. -/
def Statistics.selectivity (s : Statistics α) : Expr → α
  | .literal (.bool b) => if b then 1.0 else 0.0
  | .literal .null => 0.0
  | .binary op a b => s.comparisonSelectivity op a b
  | .unary .isNull a => s.nullSelectivity a
  | .unary .isNotNull a => 1.0 - s.nullSelectivity a
  | .and as => product (s.selectivities as)
  | .or as => 1.0 - product ((s.selectivities as).map fun x => 1.0 - x)
  | _ => Statistics.defaultSelectivity

/-- The fractions of rows that some predicates keep. -/
def Statistics.selectivities (s : Statistics α) : List Expr → List α
  | [] => []
  | a :: as => s.selectivity a :: s.selectivities as

end

end PlanOptimizer
