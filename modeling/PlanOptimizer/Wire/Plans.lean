import PlanOptimizer.Plan.Basic
import PlanOptimizer.Wire.Expressions

/-!
# The wire form of plans
-/

namespace PlanOptimizer

open Wire

/-- The wire form of a list. -/
def Wire.ofList {α : Type} (encode : α → Json) (as : List α) : Json := .array (as.map encode)

/-- The wire form of a scan's fields. -/
def Scan.encode (s : Scan) : Json :=
  .object [("table", s.table.encode), ("columns", ofList Column.encode s.columns),
    ("predicate", s.predicate.elim .null Expr.encode)]

/-- Read the fields of a scan. -/
def Scan.decode : Nat → Json → Option Scan
  | n + 2, j => do
    let [table, columns, predicate] ←
      asRecord [⟨"table", false⟩, ⟨"columns", false⟩, ⟨"predicate", true⟩] j | none
    return ⟨← TableName.decode (n + 1) table, ← asList (Column.decode n) columns,
      ← asOptional (Expr.decode (n + 1)) predicate⟩
  | _, _ => none

/-- The wire form of an operator over one input. -/
def Unary.encode (input : Json) : Unary → Json
  | .filter p => variant "Filter" (.object [("predicate", p.encode), ("input", input)])
  | .project es names =>
    variant "Project"
      (.object [("exprs", ofList Expr.encode es), ("aliases", ofList Json.string names),
        ("input", input)])
  | .aggregate ks cs =>
    variant "Aggregate"
      (.object [("group_by", ofList Expr.encode ks), ("aggregates", ofList Aggregate.encode cs),
        ("input", input)])
  | .sort ts => variant "Sort" (.object [("order", ofList SortTerm.encode ts), ("input", input)])
  | .limit o c =>
    variant "Limit"
      (.object [("offset", .int o.toNat), ("count", .int c.toNat), ("input", input)])

namespace Plan

/-- The wire form of a plan. -/
def encode : Plan → Json
  | .scan s => variant "Scan" s.encode
  | .unary op a => op.encode a.encode
  | .join j a b =>
    variant "Join"
      (.object [("join_type", j.kind.encode), ("condition", j.condition.encode),
        ("left", a.encode), ("right", b.encode)])
  | .group id => variant "GroupReference" (.int id)

/-- Read a list in a place that may still nest `levels` arrays and objects. -/
def listAt {α : Type} (item : Nat → Json → Option α) : Nat → Json → Option (List α)
  | n + 1, j => asList (item n) j
  | 0, _ => none

/-- Read a plan. -/
def decode : Nat → Json → Option Plan
  | n + 1, .object [(tag, content)] =>
    match tag, n with
    | "Scan", n => Plan.scan <$> Scan.decode n content
    | "Filter", k + 1 => do
      let [predicate, input] ← asRecord [⟨"predicate", false⟩, ⟨"input", false⟩] content | none
      return .filter (← Expr.decode k predicate) (← decode k input)
    | "Project", k + 1 => do
      let [exprs, aliases, input] ←
        asRecord [⟨"exprs", false⟩, ⟨"aliases", false⟩, ⟨"input", false⟩] content | none
      return .project (← listAt Expr.decode k exprs) (← listAt (fun _ => asString) k aliases)
        (← decode k input)
    | "Join", k + 1 => do
      let [kind, condition, left, right] ←
        asRecord [⟨"join_type", false⟩, ⟨"condition", false⟩, ⟨"left", false⟩, ⟨"right", false⟩]
          content | none
      return .join ⟨← JoinKind.decode k kind, ← Expr.decode k condition⟩ (← decode k left)
        (← decode k right)
    | "Aggregate", k + 1 => do
      let [keys, calls, input] ←
        asRecord [⟨"group_by", false⟩, ⟨"aggregates", false⟩, ⟨"input", false⟩] content | none
      return .aggregate (← listAt Expr.decode k keys) (← listAt Aggregate.decode k calls)
        (← decode k input)
    | "Sort", k + 1 => do
      let [order, input] ← asRecord [⟨"order", false⟩, ⟨"input", false⟩] content | none
      return .sort (← listAt SortTerm.decode k order) (← decode k input)
    | "Limit", k + 1 => do
      let [offset, count, input] ←
        asRecord [⟨"offset", false⟩, ⟨"count", false⟩, ⟨"input", false⟩] content | none
      return .limit (UInt64.ofNat (← asWord offset)) (UInt64.ofNat (← asWord count))
        (← decode k input)
    | "GroupReference", _ => Plan.group <$> asGroup content
    | _, _ => none
  | _, _ => none

end Plan

end PlanOptimizer
