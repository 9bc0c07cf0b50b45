import PlanOptimizer.Expr.Text
import PlanOptimizer.Plan.Basic

/-!
# Text of plans

A plan is explained one operator a line, its inputs below it and two spaces
further in.  The line of an operator alone is its *header*.
-/

namespace PlanOptimizer

/-- The name of a kind. -/
def Kind.text : Kind → String
  | .scan => "Scan"
  | .filter => "Filter"
  | .project => "Project"
  | .join => "Join"
  | .aggregate => "Aggregate"
  | .sort => "Sort"
  | .limit => "Limit"
  | .group => "GroupReference"

/-- The header of a scan.  Columns and predicate are shown when there are any. -/
def Scan.header (s : Scan) : String :=
  let columns :=
    if s.columns.isEmpty then "" else " [" ++ joinWith ", " (s.columns.map Column.text) ++ "]"
  let predicate :=
    match s.predicate with
    | some p => " filter=" ++ p.text
    | none => ""
  "Scan: " ++ s.table.text ++ columns ++ predicate

/-- The outputs of a projection, each with its alias if that is not empty. -/
def projected : List Expr → List String → List String
  | [], _ => []
  | e :: es, [] => e.text :: projected es []
  | e :: es, name :: names =>
    (if name.isEmpty then e.text else e.text ++ " AS " ++ name) :: projected es names

/-- The header of an operator with one input. -/
def Unary.header : Unary → String
  | .filter p => "Filter: " ++ p.text
  | .project es names => "Project: " ++ joinWith ", " (projected es names)
  | .aggregate ks cs =>
    "Aggregate: group_by=[" ++ joinWith ", " (ks.map Expr.text) ++ "] aggs=["
      ++ joinWith ", " (cs.map Aggregate.text) ++ "]"
  | .sort ts => "Sort: " ++ joinWith ", " (ts.map SortTerm.text)
  | .limit o c => "Limit: offset=" ++ toString o.toNat ++ " count=" ++ toString c.toNat

/-- The header of a join. -/
def Join.header (j : Join) : String := "Join(" ++ j.kind.text ++ "): " ++ j.condition.text

/-- The header of an operator. -/
def Node.header {α : Type} : Node α → String
  | .scan s => s.header
  | .unary op _ => op.header
  | .join j _ _ => j.header

/-- The header of a plan. -/
def Plan.header : Plan → String
  | .scan s => s.header
  | .unary op _ => op.header
  | .join j _ _ => j.header
  | .group id => "Group#" ++ toString id

/-- The lines of a plan: each header with its depth. -/
def Plan.outline (depth : Nat) : Plan → List (Nat × String)
  | .scan s => [(depth, s.header)]
  | .unary op a => (depth, op.header) :: a.outline (depth + 1)
  | .join j a b => (depth, j.header) :: (a.outline (depth + 1) ++ b.outline (depth + 1))
  | .group id => [(depth, (Plan.group id).header)]

/-- A line of an explanation, indented by its depth and ended. -/
def indented (line : Nat × String) : String :=
  String.ofList (List.replicate (2 * line.1) ' ') ++ line.2 ++ "\n"

/-- The explanation of a plan. -/
def Plan.explain (p : Plan) : String := String.join ((p.outline 0).map indented)

/-- There is one line for each operator and each reference. -/
theorem Plan.length_outline (p : Plan) (d : Nat) : (p.outline d).length = p.nodeCount := by
  induction p generalizing d with
  | scan s => rfl
  | unary op a ih => simp [outline, nodeCount, ih, Nat.add_comm]
  | join j a b iha ihb => simp [outline, nodeCount, iha, ihb]; omega
  | group id => rfl

end PlanOptimizer
