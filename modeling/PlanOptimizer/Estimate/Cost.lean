import PlanOptimizer.Estimate.Catalog
import PlanOptimizer.Estimate.Selectivity
import PlanOptimizer.Expr.Conjuncts
import PlanOptimizer.Group.Lookup

/-!
# Cost

A cost model puts a number on a plan and says which of two plans is preferable.
The plans it is given may refer to groups, and it sees through the references
with the lookup it is handed.

The standard model estimates rows and cost from the leaves up: the cost of an
operator is its own work on top of the cost of its inputs.  A join that equates
columns builds a hash table on its right input, and any other join pairs all
rows.  Building costs memory, so the smaller input is better on the right.
-/

namespace PlanOptimizer

open Quantity

/-! ## Comparing costs -/

/-- The distance below which two costs are taken to be equal: the gap between one
and the next float. -/
def costTolerance : Float := 2.220446049250313e-16

/-- Whether two costs are taken to be equal. -/
def sameCost (a b : Float) : Bool := decide ((a - b).abs < costTolerance)

/-- The order of two costs, if they have one. -/
def compareCost? (a b : Float) : Option Ordering :=
  if sameCost a b then some .eq
  else if a < b then some .lt
  else if a > b then some .gt
  else if a == b then some .eq
  else none

/-- A way to rank plans. -/
structure CostModel where
  /-- The cost of a plan with everything below it. -/
  cost : Plan → Lookup → Except Fault Float
  /-- The order of two plans: the preferable one is less.  Plans whose costs have
  no order rank equal. -/
  compare : Plan → Plan → Lookup → Except Fault Ordering := fun left right lookup => do
    let a ← cost left lookup
    let b ← cost right lookup
    return (compareCost? a b).getD .eq

/-! ## The standard model -/

/-- The price of the two resources. -/
structure Weights (α : Type) where
  /-- The price of one row handled or one comparison made. -/
  cpu : α
  /-- The price of one byte held in memory. -/
  memory : α

/-- A unit of work per row, and a hundredth of it per byte. -/
def Weights.standard {α : Type} [Quantity α] : Weights α := ⟨1.0, 0.01⟩

/-- What is estimated of a plan. -/
structure Estimate (α : Type) where
  /-- The rows it puts out. -/
  statistics : Statistics α
  /-- What it costs with everything below it. -/
  cost : α

/-- What the standard model works with. -/
structure Estimator (α : Type) where
  /-- The prices. -/
  weights : Weights α
  /-- The tables. -/
  catalog : Catalog α

namespace Estimator

variable {α : Type} [Quantity α]

/-- The share of a table's columns that a scan reads.  A scan that lists no
columns reads all of them, and so does a scan of a table without known columns. -/
def share (m : Estimator α) (s : Scan) : α :=
  match m.catalog.columns? s.table with
  | some all =>
    if s.columns.isEmpty || all.isEmpty then 1.0
    else smaller (ofNat s.columns.length / ofNat all.length) 1.0
  | none => 1.0

/-- A scan reads its share of the table. -/
def scan (m : Estimator α) (s : Scan) : Estimate α :=
  let table := (m.catalog.statistics? s.table).getD Statistics.unknown
  let kept :=
    match s.predicate with
    | some p => table.filtered (table.selectivity p)
    | none => table
  ⟨kept, m.weights.cpu * table.rows * m.share s⟩

/-- The work of sorting some rows. -/
def sortWork (rows : α) : α := if less 1.0 rows then rows * log2 rows else 1.0

/-- The names of the columns among some key expressions. -/
def keyColumns (keys : List Expr) : List String :=
  keys.filterMap fun
    | .column c => some c.name
    | _ => none

/-- An operator over one input. -/
def unary (m : Estimator α) (op : Unary) (input : Estimate α) : Estimate α :=
  let rows := input.statistics
  match op with
  | .filter p => ⟨rows.filtered (rows.selectivity p), input.cost + m.weights.cpu * rows.rows⟩
  | .project .. => ⟨rows, input.cost + m.weights.cpu * rows.rows⟩
  | .aggregate keys _ =>
    let out := rows.aggregated (keyColumns keys)
    ⟨out, input.cost + m.weights.cpu * rows.rows + m.weights.memory * out.bytes⟩
  | .sort _ =>
    ⟨rows, input.cost + m.weights.cpu * sortWork rows.rows + m.weights.memory * rows.bytes⟩
  | .limit offset count =>
    let out := rows.capped (ofNat (min (offset.toNat + count.toNat) (UInt64.size - 1)))
    ⟨out, input.cost + m.weights.cpu * out.rows⟩

/-- The conjuncts of a condition that filter the pairs of rows left by its column
equalities. -/
def residue (condition : Expr) : List Expr :=
  condition.conjuncts.filter fun p => !p.isTrue && p.equiPair?.isNone

/-- The pairs of rows that satisfy a condition. -/
def paired (condition : Expr) (left right : Statistics α) : Statistics α :=
  (residue condition).foldl (fun s p => s.filtered (s.selectivity p))
    (left.joined right condition.equiPairs)

/-- The work of pairing rows: a hash table on the right, or all pairs. -/
def joinWork (m : Estimator α) (condition : Expr) (left right : Statistics α) : α :=
  if condition.equiPairs.isEmpty then m.weights.cpu * left.rows * right.rows
  else m.weights.cpu * (left.rows + right.rows) + m.weights.memory * right.bytes

/-- A join.  A semi or anti join puts out rows of its left input. -/
def join (m : Estimator α) (j : Join) (left right : Estimate α) : Estimate α :=
  let pairs := paired j.condition left.statistics right.statistics
  let out := if j.kind.emitsRight then pairs else left.statistics.capped pairs.rows
  ⟨out, left.cost + right.cost + m.joinWork j.condition left.statistics right.statistics⟩

/-- The estimate of a plan, given the estimates of the groups it refers to. -/
def estimateBy (m : Estimator α) (through : GroupId → Except Fault (Estimate α)) :
    Plan → Except Fault (Estimate α)
  | .scan s => .ok (m.scan s)
  | .unary op a => do
    let input ← m.estimateBy through a
    return m.unary op input
  | .join j a b => do
    let left ← m.estimateBy through a
    let right ← m.estimateBy through b
    return m.join j left right
  | .group id => through id

/-- The estimate of a plan, seen through a lookup. -/
def estimate (m : Estimator α) (p : Plan) (lookup : Lookup) : Except Fault (Estimate α) :=
  lookup.answer m.estimateBy p

/-- The statistics of a plan. -/
def statistics (m : Estimator α) (p : Plan) (lookup : Lookup) : Except Fault (Statistics α) :=
  Estimate.statistics <$> m.estimate p lookup

end Estimator

/-- The estimator for want of another one: the standard weights, and no table is known. -/
def Estimator.standard : Estimator Float := ⟨.standard, .empty⟩

/-- The standard model ranks plans by their estimated costs. -/
def Estimator.costModel (m : Estimator Float) : CostModel where
  cost p lookup := Estimate.cost <$> m.estimate p lookup

end PlanOptimizer
