import PlanOptimizer.Estimate.Statistics
import PlanOptimizer.Fixpoint.Limits
import PlanOptimizer.Wire.Records

/-!
# The wire form of statistics, costs and limits

Statistics name their columns in an object, where a name that is repeated counts
as it stands last.  Limits are only read.  They may leave out any field, and as an
array they may leave out the last ones.
-/

namespace PlanOptimizer

open Wire

/-- The wire form of what is known of a column. -/
def ColumnStatistics.encode (c : ColumnStatistics Float) : Json :=
  .object [("distinct_count", ofFloat c.distinct), ("null_fraction", ofFloat c.nullFraction)]

/-- Read what is known of a column. -/
def ColumnStatistics.decode : Nat → Json → Option (ColumnStatistics Float)
  | _ + 1, j => do
    let [distinct, nulls] ← asRecord [⟨"distinct_count", false⟩, ⟨"null_fraction", false⟩] j | none
    return ⟨← asFloat distinct, ← asFloat nulls⟩
  | 0, _ => none

/-- Read the named values of an object. -/
def Wire.namedValues {α : Type} (read : Nat → Json → Option α) :
    Nat → Json → Option (Assoc String α)
  | n + 1, .object members => do
    let entries ← members.mapM fun m => (read n m.2).map fun v => (m.1, v)
    return Assoc.ofList entries
  | _, _ => none

/-- The wire form of statistics. -/
def Statistics.encode (s : Statistics Float) : Json :=
  .object [("row_count", ofFloat s.rows), ("total_size_bytes", ofFloat s.bytes),
    ("column_stats", .object (s.columns.mapValues ColumnStatistics.encode).entries)]

/-- Read statistics. -/
def Statistics.decode : Nat → Json → Option (Statistics Float)
  | n + 1, j => do
    let [rows, bytes, columns] ←
      asRecord [⟨"row_count", false⟩, ⟨"total_size_bytes", false⟩, ⟨"column_stats", false⟩] j | none
    return ⟨← asFloat rows, ← asFloat bytes, ← namedValues ColumnStatistics.decode n columns⟩
  | 0, _ => none

/-- Read a cost. -/
def costFromWire : Nat → Json → Option Float
  | _ + 1, j => do
    let [total] ← asRecord [⟨"total", false⟩] j | none
    asFloat total
  | 0, _ => none

namespace Limits

/-- Read a field of limits, unless it is missing. -/
def fieldOr {α : Type} (default : α) (read : Json → Option α) : Option Json → Option α
  | none => some default
  | some j => read j

/-- Read limits from their fields. -/
def ofFields (passes groups source : Option Json) : Option Limits := do
  let usual : Limits := {}
  return {
    passes := ← fieldOr usual.passes (fun j => (max · 1) <$> asWord j) passes
    groups := ← fieldOr usual.groups asWord groups
    source := ← fieldOr usual.source (asOptional asString) source }

/-- The field of a name, if it is there, and nothing if it is repeated. -/
def field? (name : String) (members : List (String × Json)) : Option (Option Json) :=
  match fieldValues name members with
  | [] => some none
  | [j] => some (some j)
  | _ => none

/-- Read limits. -/
def decode : Nat → Json → Option Limits
  | _ + 1, .object members => do
    ofFields (← field? "max_iterations" members) (← field? "max_memo_groups" members)
      (← field? "source_type" members)
  | _ + 1, .array items => if items.length ≤ 3 then ofFields items[0]? items[1]? items[2]? else none
  | _, _ => none

end Limits

end PlanOptimizer
