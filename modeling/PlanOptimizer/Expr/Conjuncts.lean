import PlanOptimizer.Expr.Basic

/-!
# Columns and conjuncts

What a rule asks of a predicate: the columns and tables it mentions, and the
conjuncts it splits into.

`Expr.conjuncts` flattens nested conjunctions to any depth.  `Expr.conjunction`
goes back: it drops `TRUE`, leaves a single predicate bare, and looks one level
into the predicates it is given.
-/

namespace PlanOptimizer

namespace Expr

/-! ## Columns and tables -/

mutual

/-- Every column an expression mentions, from left to right, with repetitions. -/
def columns : Expr → List Column
  | .column c => [c]
  | .literal _ => []
  | .binary _ a b => columns a ++ columns b
  | .unary _ a => columns a
  | .call _ as => columnsAll as
  | .and as => columnsAll as
  | .or as => columnsAll as

/-- The columns of a list of expressions. -/
def columnsAll : List Expr → List Column
  | [] => []
  | a :: as => columns a ++ columnsAll as

end

@[simp] theorem columnsAll_eq_flatMap (as : List Expr) : columnsAll as = as.flatMap columns := by
  induction as with
  | nil => rfl
  | cons a as ih => simp [columnsAll, ih]

end Expr

/-- Put a name into an ascending list of names, unless it is there. -/
def insertName (s : String) : List String → List String
  | [] => [s]
  | t :: ts => if s = t then t :: ts else if s < t then s :: t :: ts else t :: insertName s ts

theorem mem_insertName {s x : String} {ts : List String} :
    x ∈ insertName s ts ↔ x = s ∨ x ∈ ts := by
  induction ts with
  | nil => simp [insertName]
  | cons t ts ih =>
    by_cases h : s = t
    · subst h; simp [insertName]
    · by_cases h' : s < t
      · simp [insertName, h, h']
      · simp [insertName, h, h', ih, or_left_comm]

namespace Expr

/-- The tables that qualify the columns of an expression, ascending, each once. -/
def tables (e : Expr) : List String :=
  (e.columns.filterMap Column.table).foldr insertName []

theorem mem_tables {e : Expr} {t : String} :
    t ∈ e.tables ↔ ∃ c ∈ e.columns, c.table = some t := by
  have h (ts : List String) : t ∈ ts.foldr insertName [] ↔ t ∈ ts := by
    induction ts with
    | nil => simp
    | cons s ts ih => simp [mem_insertName, ih]
  simp [tables, h]

/-- Two columns of one table name it once. -/
example : (Expr.and [.col "b" "x", .col "a" "y", .col "b" "z"]).tables = ["a", "b"] := by decide

/-! ## Conjuncts -/

mutual

/-- The conjuncts of a predicate: the members of its nested conjunctions, from
left to right, none of which is itself a conjunction. -/
def conjuncts : Expr → List Expr
  | .and as => conjunctsAll as
  | e => [e]

/-- The conjuncts of a list of predicates. -/
def conjunctsAll : List Expr → List Expr
  | [] => []
  | a :: as => conjuncts a ++ conjunctsAll as

end

@[simp] theorem conjunctsAll_eq_flatMap (as : List Expr) :
    conjunctsAll as = as.flatMap conjuncts := by
  induction as with
  | nil => rfl
  | cons a as ih => simp [conjunctsAll, ih]

/-- What a predicate contributes to a conjunction: a conjunction gives its
members, another predicate itself, and `TRUE` is left out. -/
def parts : Expr → List Expr
  | .and as => as.filter fun e => !e.isTrue
  | e => if e.isTrue then [] else [e]

/-- The predicate that holds when all of `ps` hold. -/
def conjunction (ps : List Expr) : Expr :=
  match ps.flatMap parts with
  | [] => Expr.always
  | [p] => p
  | qs => .and qs

/-! ## Equalities between columns -/

/-- A predicate that equates two columns, as the pair of their names. -/
def equiPair? : Expr → Option (String × String)
  | .binary .eq (.column l) (.column r) => some (l.name, r.name)
  | _ => none

/-- The column equalities among the conjuncts of a join condition. -/
def equiPairs (condition : Expr) : List (String × String) :=
  condition.conjuncts.filterMap equiPair?

end Expr

end PlanOptimizer
