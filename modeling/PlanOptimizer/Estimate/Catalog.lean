import PlanOptimizer.Estimate.Statistics
import PlanOptimizer.Expr.Basic

/-!
# Catalogs

A catalog tells what columns a base table has and what is known of its rows.  A
table that is added again replaces its earlier entry.
-/

namespace PlanOptimizer

/-- What a catalog holds of a table. -/
structure TableInfo (α : Type) where
  /-- The columns. -/
  columns : List Column
  /-- The statistics. -/
  statistics : Statistics α

/-- The known base tables. -/
structure Catalog (α : Type) where
  /-- The tables by name. -/
  tables : Assoc TableName (TableInfo α)

namespace Catalog

variable {α : Type}

/-- The catalog without tables. -/
def empty : Catalog α := ⟨∅⟩

/-- Add a table. -/
def add (c : Catalog α) (name : TableName) (info : TableInfo α) : Catalog α :=
  ⟨c.tables.set name info⟩

/-- The columns of a table. -/
def columns? (c : Catalog α) (name : TableName) : Option (List Column) :=
  (c.tables.find? name).map TableInfo.columns

/-- The statistics of a table. -/
def statistics? (c : Catalog α) (name : TableName) : Option (Statistics α) :=
  (c.tables.find? name).map TableInfo.statistics

/-- The number of tables. -/
def size (c : Catalog α) : Nat := c.tables.size

end Catalog

end PlanOptimizer
