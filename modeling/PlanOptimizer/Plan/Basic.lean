import PlanOptimizer.Expr.Basic

/-!
# Plans

A plan is a tree of relational operators.  An operator has a fixed number of
inputs: none for a scan, two for a join, one for every other.  One more kind of
leaf, the group reference, stands for whatever plan a group currently has.

An operator without its inputs is a *node*.  `Node α` holds an operator whose
inputs are of type `α`: `Node Plan` is an operator over plans, and a `Shape` is an
operator over groups, the form in which a memo stores its candidates.

Like expressions, plans are the *same* when their canonical forms are equal.
-/

namespace PlanOptimizer

/-- The number that names a group. -/
abbrev GroupId := Nat

/-! ## Operators -/

/-- Reads a base table. -/
structure Scan where
  /-- The table. -/
  table : TableName
  /-- The columns read.  None listed means all of them. -/
  columns : List Column
  /-- A predicate applied while reading. -/
  predicate : Option Expr
deriving DecidableEq, Repr

/-- The operators with one input. -/
inductive Unary where
  /-- Keeps the rows for which the predicate holds. -/
  | filter (predicate : Expr)
  /-- Computes one column per expression.  An empty or missing alias names nothing. -/
  | project (exprs : List Expr) (aliases : List String)
  /-- Groups the rows by the keys and computes one column per call. -/
  | aggregate (keys : List Expr) (calls : List Aggregate)
  /-- Sorts the rows. -/
  | sort (order : List SortTerm)
  /-- Skips `offset` rows and keeps the next `count`. -/
  | limit (offset count : UInt64)
deriving DecidableEq, Repr

/-- A join, without its inputs. -/
structure Join where
  /-- How rows are paired. -/
  kind : JoinKind
  /-- The condition on a pair. -/
  condition : Expr
deriving DecidableEq, Repr

/-- An operator with inputs of type `α`. -/
inductive Node (α : Type) where
  /-- A scan has no input. -/
  | scan (op : Scan)
  /-- An operator over one input. -/
  | unary (op : Unary) (input : α)
  /-- A join of two inputs. -/
  | join (op : Join) (left right : α)
deriving DecidableEq, Repr

/-- An operator over groups. -/
abbrev Shape := Node GroupId

/-- A plan. -/
inductive Plan where
  /-- A scan. -/
  | scan (op : Scan)
  /-- An operator over one plan. -/
  | unary (op : Unary) (input : Plan)
  /-- A join of two plans. -/
  | join (op : Join) (left right : Plan)
  /-- A reference to a group. -/
  | group (id : GroupId)
deriving DecidableEq, Repr

namespace Plan

/-- A scan of all columns of a table. -/
@[match_pattern] abbrev scanAll (schema name : String) : Plan := .scan ⟨⟨schema, name⟩, [], none⟩

/-- A scan of some columns of a table. -/
abbrev scanOf (schema name : String) (columns : List String) : Plan :=
  .scan ⟨⟨schema, name⟩, columns.map fun c => ⟨some name, c⟩, none⟩

/-- A filter. -/
@[match_pattern] abbrev filter (predicate : Expr) (input : Plan) : Plan :=
  .unary (.filter predicate) input

/-- A projection. -/
@[match_pattern] abbrev project (exprs : List Expr) (aliases : List String) (input : Plan) : Plan :=
  .unary (.project exprs aliases) input

/-- An aggregation. -/
@[match_pattern] abbrev aggregate (keys : List Expr) (calls : List Aggregate) (input : Plan) :
    Plan :=
  .unary (.aggregate keys calls) input

/-- A sort. -/
@[match_pattern] abbrev sort (order : List SortTerm) (input : Plan) : Plan :=
  .unary (.sort order) input

/-- A limit. -/
@[match_pattern] abbrev limit (offset count : UInt64) (input : Plan) : Plan :=
  .unary (.limit offset count) input

end Plan

/-! ## Kinds -/

/-- The kind of a plan's top operator. -/
inductive Kind where
  | scan | filter | project | join | aggregate | sort | limit | group
deriving DecidableEq, Repr

/-- The number of inputs an operator of a kind has. -/
def Kind.arity : Kind → Nat
  | .scan | .group => 0
  | .join => 2
  | _ => 1

/-- The kind of an operator with one input. -/
def Unary.kind : Unary → Kind
  | .filter _ => .filter
  | .project .. => .project
  | .aggregate .. => .aggregate
  | .sort _ => .sort
  | .limit .. => .limit

/-- The kind of a plan. -/
def Plan.kind : Plan → Kind
  | .scan _ => .scan
  | .unary op _ => op.kind
  | .join .. => .join
  | .group _ => .group

/-- The number of inputs a plan has. -/
def Plan.arity (p : Plan) : Nat := p.kind.arity

/-! ## Inputs -/

namespace Node

/-- The inputs of an operator, from left to right. -/
def inputs {α : Type} : Node α → List α
  | .scan _ => []
  | .unary _ a => [a]
  | .join _ a b => [a, b]

/-- The same operator over other inputs. -/
def map {α β : Type} (f : α → β) : Node α → Node β
  | .scan s => .scan s
  | .unary op a => .unary op (f a)
  | .join j a b => .join j (f a) (f b)

@[simp] theorem inputs_map {α β : Type} (f : α → β) (n : Node α) :
    (n.map f).inputs = n.inputs.map f := by
  cases n <;> rfl

/-- The plan with this operator on top. -/
def plan : Node Plan → Plan
  | .scan s => .scan s
  | .unary op a => .unary op a
  | .join j a b => .join j a b

end Node

/-- A shape as a plan: references to groups below an operator. -/
def Node.overGroups (s : Shape) : Plan := (s.map Plan.group).plan

namespace Plan

/-- The inputs of a plan, from left to right. -/
def inputs : Plan → List Plan
  | .scan _ | .group _ => []
  | .unary _ a => [a]
  | .join _ a b => [a, b]

@[simp] theorem inputs_plan (n : Node Plan) : n.plan.inputs = n.inputs := by cases n <;> rfl

/-- A plan has as many inputs as its kind says. -/
theorem length_inputs (p : Plan) : p.inputs.length = p.arity := by
  cases p with
  | unary op a => cases op <;> rfl
  | _ => rfl

/-- The group a plan refers to, if it is a reference. -/
def groupId? : Plan → Option GroupId
  | .group id => some id
  | _ => none

/-- The same top operator over other inputs, if there are as many as it needs. -/
def withInputs? : Plan → List Plan → Option Plan
  | .scan s, [] => some (.scan s)
  | .group id, [] => some (.group id)
  | .unary op _, [a] => some (.unary op a)
  | .join j _ _, [a, b] => some (.join j a b)
  | _, _ => none

theorem withInputs?_inputs (p : Plan) : p.withInputs? p.inputs = some p := by cases p <;> rfl

/-- The groups a plan refers to, from left to right, with repetitions. -/
def groups : Plan → List GroupId
  | .scan _ => []
  | .unary _ a => a.groups
  | .join _ a b => a.groups ++ b.groups
  | .group id => [id]

/-- Whether a plan refers to a group anywhere. -/
def hasGroups : Plan → Bool
  | .scan _ => false
  | .unary _ a => a.hasGroups
  | .join _ a b => a.hasGroups || b.hasGroups
  | .group _ => true

theorem hasGroups_iff {p : Plan} : p.hasGroups = true ↔ p.groups ≠ [] := by
  induction p with
  | scan s => simp [hasGroups, groups]
  | unary op a ih => simp [hasGroups, groups, ih]
  | join j a b iha ihb =>
    simp only [hasGroups, groups, Bool.or_eq_true, iha, ihb, ne_eq, List.append_eq_nil_iff]
    by_cases h : a.groups = [] <;> simp [h]
  | group id => simp [hasGroups, groups]

theorem not_mem_groups {p : Plan} (h : p.hasGroups = false) (id : GroupId) : id ∉ p.groups := by
  intro hid
  rw [hasGroups_iff.mpr (List.ne_nil_of_mem hid)] at h
  cases h

/-- The number of operators and references in a plan. -/
def nodeCount : Plan → Nat
  | .scan _ | .group _ => 1
  | .unary _ a => 1 + a.nodeCount
  | .join _ a b => 1 + a.nodeCount + b.nodeCount

end Plan

/-! ## The canonical form -/

/-- The canonical form of a scan. -/
def Scan.canon (s : Scan) : Scan := { s with predicate := s.predicate.map Expr.canon }

/-- The canonical form of an operator with one input. -/
def Unary.canon : Unary → Unary
  | .filter p => .filter p.canon
  | .project es names => .project (es.map Expr.canon) names
  | .aggregate ks cs => .aggregate (ks.map Expr.canon) (cs.map Aggregate.canon)
  | .sort ts => .sort (ts.map SortTerm.canon)
  | .limit o c => .limit o c

/-- The canonical form of a join. -/
def Join.canon (j : Join) : Join := { j with condition := j.condition.canon }

/-- The canonical form of an operator.  Its inputs are left as they are. -/
def Node.canon {α : Type} : Node α → Node α
  | .scan s => .scan s.canon
  | .unary op a => .unary op.canon a
  | .join j a b => .join j.canon a b

/-- The canonical form of a plan. -/
def Plan.canon : Plan → Plan
  | .scan s => .scan s.canon
  | .unary op a => .unary op.canon a.canon
  | .join j a b => .join j.canon a.canon b.canon
  | .group id => .group id

/-- Whether two shapes are the same up to the spelling of float literals. -/
def Node.same (a b : Shape) : Bool := decide (a.canon = b.canon)

/-- Whether two plans are the same up to the spelling of float literals. -/
def Plan.same (a b : Plan) : Bool := decide (a.canon = b.canon)

theorem Plan.same_iff {a b : Plan} : Plan.same a b = true ↔ a.canon = b.canon := by
  simp [Plan.same]

theorem Node.same_iff {a b : Shape} : Node.same a b = true ↔ a.canon = b.canon := by
  simp [Node.same]

end PlanOptimizer
