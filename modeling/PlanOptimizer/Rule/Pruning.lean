import PlanOptimizer.Expr.Conjuncts
import PlanOptimizer.Rule.Basic

/-!
# Pruning columns

A projection over a scan needs only the columns it mentions.  If these are fewer
than the scan reads, the same projection over a narrower scan is offered.  A
scan that lists no columns reads all of its table, and the catalog tells how many
that is; if it does not know, the narrower scan is offered too.
-/

namespace PlanOptimizer.Rule

/-- Each column once, in the order of first mention. -/
def distinctColumns : List Column → List Column
  | [] => []
  | c :: cs => c :: (distinctColumns cs).filter (· ≠ c)

/-- The number of columns a scan reads, if it is known. -/
def columnsRead (catalog : Catalog Float) (s : Scan) : Option Nat :=
  if s.columns.isEmpty then (catalog.columns? s.table).map List.length else some s.columns.length

/-- Whether reading only some columns saves anything. -/
def saves (needed : List Column) (read : Option Nat) : Bool :=
  !needed.isEmpty &&
    match read with
    | some n => decide (needed.length < n)
    | none => true

/-- The offers for a projection over a scan. -/
def prunedScan (catalog : Catalog Float) (lookup : Lookup) : Plan → Except Fault (List Offer)
  | .project exprs aliases input => do
    match ← lookup.expose input with
    | .scan s =>
      let needed := distinctColumns (exprs.flatMap Expr.columns)
      if saves needed (columnsRead catalog s) then
        return [.alternative (.project exprs aliases (.scan { s with columns := needed }))]
      else return []
    | _ => return []
  | _ => return []

/-- Reads only the columns a projection needs. -/
def pruneColumns : Rule where
  name := "ProjectionPushdown"
  family := "ProjectionPushdown"
  pattern := .projectOverScan
  apply context lookup p := prunedScan context.catalog lookup p

end PlanOptimizer.Rule
