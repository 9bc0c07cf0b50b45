import PlanOptimizer.Expr.Basic
import PlanOptimizer.Number.Decimal

/-!
# Text of expressions

Expressions are shown in the usual notation of queries.  Binary operators and
disjunctions are put in parentheses, and conjunctions are not.  A text literal
stands between single quotes and is not escaped.
-/

namespace PlanOptimizer

/-- Floats in expressions are always positional, and a whole number has no
point. -/
def floatLiteral : Layout where
  positional _ := true
  whole := ""
  nan := "NaN"
  infinity := "inf"
  negativeInfinity := "-inf"

/-- The text of a list, with a separator between neighbours. -/
def joinWith (separator : String) : List String → String
  | [] => ""
  | [s] => s
  | s :: t :: ts => s ++ separator ++ joinWith separator (t :: ts)

/-- A table is shown with its schema. -/
def TableName.text (t : TableName) : String := t.schema ++ "." ++ t.name

/-- A column is shown with its table, if it is qualified. -/
def Column.text (c : Column) : String :=
  match c.table with
  | some t => t ++ "." ++ c.name
  | none => c.name

/-- The text of a literal. -/
def Literal.text : Literal → String
  | .null => "NULL"
  | .bool b => if b then "true" else "false"
  | .int v => toString v.toInt
  | .float x => floatLiteral.write x
  | .string s => "'" ++ s ++ "'"
  | .date d => "DATE(" ++ toString d.toInt ++ ")"

/-- The sign of a binary operator. -/
def BinOp.text : BinOp → String
  | .eq => "="
  | .ne => "<>"
  | .lt => "<"
  | .le => "<="
  | .gt => ">"
  | .ge => ">="
  | .add => "+"
  | .sub => "-"
  | .mul => "*"
  | .div => "/"

/-- A unary operator around its operand: the signs go in front, the null tests
behind. -/
def UnOp.around (operand : String) : UnOp → String
  | .not => "NOT " ++ operand
  | .neg => "-" ++ operand
  | .isNull => operand ++ " IS NULL"
  | .isNotNull => operand ++ " IS NOT NULL"

mutual

/-- The text of an expression. -/
def Expr.text : Expr → String
  | .column c => c.text
  | .literal l => l.text
  | .binary o a b => "(" ++ a.text ++ " " ++ o.text ++ " " ++ b.text ++ ")"
  | .unary o a => o.around a.text
  | .call f as => f ++ "(" ++ joinWith ", " (Expr.texts as) ++ ")"
  | .and as => joinWith " AND " (Expr.texts as)
  | .or as => "(" ++ joinWith " OR " (Expr.texts as) ++ ")"

/-- The texts of a list of expressions. -/
def Expr.texts : List Expr → List String
  | [] => []
  | a :: as => a.text :: Expr.texts as

end

/-- The name of a kind of join. -/
def JoinKind.text : JoinKind → String
  | .inner => "Inner"
  | .left => "Left"
  | .right => "Right"
  | .full => "Full"
  | .semi => "Semi"
  | .anti => "Anti"
  | .cross => "Cross"

/-- The name of an aggregate function. -/
def AggregateFn.text : AggregateFn → String
  | .count => "Count"
  | .sum => "Sum"
  | .avg => "Avg"
  | .min => "Min"
  | .max => "Max"

/-- An aggregate call, with `DISTINCT` in front of its argument if it asks for it. -/
def Aggregate.text (a : Aggregate) : String :=
  a.fn.text ++ "(" ++ (if a.distinct then "DISTINCT " else "") ++ a.arg.text ++ ")"

/-- A sort key, with its direction.  Where nulls go is not shown. -/
def SortTerm.text (t : SortTerm) : String :=
  t.expr.text ++ if t.ascending then " ASC" else " DESC"

end PlanOptimizer
