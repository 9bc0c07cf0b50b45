import PlanOptimizer.Assoc
import PlanOptimizer.Estimate.Quantity

/-!
# Statistics

What is known of the rows an operator puts out: how many there are, how many
bytes they take, and for some columns how many distinct values and nulls they
hold.  Columns are known by their bare names.

* A filter keeps a fraction of the rows and of the distinct values.
* A join keeps `1 / max (l, r)` of all pairs for each pair of columns it
  equates, where `l` and `r` are the numbers of distinct values: values are taken
  to be uniform, and the smaller set of keys to lie in the larger one.
* An aggregation has one row per combination of key values.

No estimate goes below one row.
-/

namespace PlanOptimizer

open Quantity

/-- What is known of a column. -/
structure ColumnStatistics (α : Type) where
  /-- The number of distinct values. -/
  distinct : α
  /-- The fraction of nulls. -/
  nullFraction : α
deriving DecidableEq

/-- What is known of some rows. -/
structure Statistics (α : Type) where
  /-- The number of rows. -/
  rows : α
  /-- Their size in bytes. -/
  bytes : α
  /-- The columns something is known of. -/
  columns : Assoc String (ColumnStatistics α)
deriving DecidableEq

namespace Statistics

variable {α : Type} [Quantity α]

/-- The fraction of rows a predicate keeps when nothing better is known. -/
def defaultSelectivity : α := 0.1

/-- The size of a row when nothing better is known. -/
def defaultRowSize : α := 100.0

/-- The statistics of a table nothing is known of: a thousand rows. -/
def unknown : Statistics α := ⟨1000.0, 1000.0 * defaultRowSize, ∅⟩

/-- The average size of a row. -/
def rowSize (s : Statistics α) : α :=
  if less 0.0 s.rows then s.bytes / s.rows else defaultRowSize

/-- The number of distinct values of a column, or the number of rows if nothing
is known of the column. -/
def distinct (s : Statistics α) (column : String) : α :=
  match s.columns.find? column with
  | some c => c.distinct
  | none => s.rows

/-- The fraction of nulls of a column. -/
def nullFraction (s : Statistics α) (column : String) : α :=
  match s.columns.find? column with
  | some c => c.nullFraction
  | none => defaultSelectivity

/-- The fraction of rows in which a column has one given value. -/
def equalitySelectivity (s : Statistics α) (column : String) : α :=
  match s.columns.find? column with
  | some c => 1.0 / larger c.distinct 1.0
  | none => defaultSelectivity

/-- The rows that a predicate of a selectivity keeps. -/
def filtered (s : Statistics α) (selectivity : α) : Statistics α :=
  let rows := larger (s.rows * selectivity) 1.0
  let ratio := if less 0.0 s.rows then rows / s.rows else 1.0
  let shrink (c : ColumnStatistics α) : ColumnStatistics α :=
    { c with distinct := smaller (larger (c.distinct * ratio) 1.0) rows }
  ⟨rows, s.bytes * ratio, s.columns.mapValues shrink⟩

/-- The same rows, at most `limit` of them. -/
def capped (s : Statistics α) (limit : α) : Statistics α :=
  if atMost s.rows limit then s
  else
    let selectivity := if less 0.0 s.rows then limit / s.rows else 1.0
    { s.filtered selectivity with rows := larger limit 1.0 }

/-- The pairs of rows that agree on the given pairs of columns.  Where both sides
have a column of one name, the right one is kept. -/
def joined (left right : Statistics α) (pairs : List (String × String)) : Statistics α :=
  let narrow (selectivity : α) (pair : String × String) : α :=
    selectivity / larger (larger (left.distinct pair.1) (right.distinct pair.2)) 1.0
  let selectivity := pairs.foldl narrow 1.0
  let rows := larger (left.rows * right.rows * selectivity) 1.0
  let cap (c : ColumnStatistics α) : ColumnStatistics α :=
    { c with distinct := smaller c.distinct rows }
  ⟨rows, rows * (left.rowSize + right.rowSize),
    (left.columns.mapValues cap).setAll (right.columns.mapValues cap).entries⟩

/-- One row per combination of values of the key columns. -/
def aggregated (s : Statistics α) (keys : List String) : Statistics α :=
  let rows := larger (smaller (product (keys.map s.distinct)) s.rows) 1.0
  ⟨rows, rows * defaultRowSize, ∅⟩

end Statistics

end PlanOptimizer
