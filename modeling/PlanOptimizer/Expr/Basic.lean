/-!
# Scalar expressions

Plan operators carry scalar expressions as parameters: the predicate of a
filter, the condition of a join, the outputs of a projection.  The optimizer
never evaluates them.  It compares them, renders them and moves them about.

Conjunctions and disjunctions are flat lists, so that a predicate can be split
into its members and put together again.

Two expressions are the *same* when they differ at most in the sign of a zero
and in the payload of a value that is not a number.  `Expr.canon` picks one
expression of each class, so that being the same is equality of canonical forms:
`Expr.same_iff`.
-/

namespace PlanOptimizer

/-! ## Names and operators -/

/-- The name of a base table. -/
structure TableName where
  /-- The schema that holds the table. -/
  schema : String
  /-- The name within the schema. -/
  name : String
deriving DecidableEq, Repr

/-- A column, with the table it is qualified by, if any. -/
structure Column where
  /-- The qualifying table. -/
  table : Option String
  /-- The name of the column. -/
  name : String
deriving DecidableEq, Repr

/-- The binary operators: six comparisons and four arithmetic ones. -/
inductive BinOp where
  | eq | ne | lt | le | gt | ge | add | sub | mul | div
deriving DecidableEq, Repr

/-- The unary operators. -/
inductive UnOp where
  | not | neg | isNull | isNotNull
deriving DecidableEq, Repr

/-! ## Literals -/

/-- A constant. -/
inductive Literal where
  /-- The null value. -/
  | null
  /-- A truth value. -/
  | bool (value : Bool)
  /-- A 64-bit integer. -/
  | int (value : Int64)
  /-- A binary float. -/
  | float (value : Float)
  /-- A text. -/
  | string (value : String)
  /-- Days since the first of January 1970. -/
  | date (days : Int32)
deriving DecidableEq, Repr

/-- The float that stands for all floats of its class: both zeros are one, and
so are all values that are not numbers. -/
def canonFloat (x : Float) : Float := if x == 0.0 then 0.0 else x

/-- The literal that stands for its class. -/
def Literal.canon : Literal → Literal
  | .float x => .float (canonFloat x)
  | l => l

/-! ## Expressions -/

/-- A scalar expression. -/
inductive Expr where
  /-- A column reference. -/
  | column (c : Column)
  /-- A constant. -/
  | literal (value : Literal)
  /-- An application of a binary operator. -/
  | binary (op : BinOp) (left right : Expr)
  /-- An application of a unary operator. -/
  | unary (op : UnOp) (operand : Expr)
  /-- A call of a named function. -/
  | call (name : String) (args : List Expr)
  /-- A conjunction of any number of members. -/
  | and (members : List Expr)
  /-- A disjunction of any number of members. -/
  | or (members : List Expr)
deriving Repr

namespace Expr

/-- The column `table.name`. -/
def col (table name : String) : Expr := .column ⟨some table, name⟩

/-- The literal `TRUE`, the neutral member of a conjunction. -/
def always : Expr := .literal (.bool true)

/-- Whether an expression is the literal `TRUE`. -/
def isTrue : Expr → Bool
  | .literal (.bool b) => b
  | _ => false

/-! ## Equality -/

mutual

/-- Structural equality, as a test. -/
def beq : Expr → Expr → Bool
  | .column a, .column b => decide (a = b)
  | .literal a, .literal b => decide (a = b)
  | .binary o a b, .binary o' a' b' => decide (o = o') && beq a a' && beq b b'
  | .unary o a, .unary o' a' => decide (o = o') && beq a a'
  | .call f as, .call g bs => decide (f = g) && beqAll as bs
  | .and as, .and bs => beqAll as bs
  | .or as, .or bs => beqAll as bs
  | _, _ => false

/-- Structural equality of lists, as a test. -/
def beqAll : List Expr → List Expr → Bool
  | [], [] => true
  | a :: as, b :: bs => beq a b && beqAll as bs
  | _, _ => false

end

mutual

/-- The test decides equality. -/
theorem beq_iff : ∀ a b : Expr, beq a b = true ↔ a = b
  | .column a, b => by cases b <;> simp [beq]
  | .literal a, b => by cases b <;> simp [beq]
  | .binary o a₁ a₂, b => by cases b <;> simp [beq, beq_iff a₁, beq_iff a₂, and_assoc]
  | .unary o a, b => by cases b <;> simp [beq, beq_iff a]
  | .call f as, b => by cases b <;> simp [beq, beqAll_iff as]
  | .and as, b => by cases b <;> simp [beq, beqAll_iff as]
  | .or as, b => by cases b <;> simp [beq, beqAll_iff as]

theorem beqAll_iff : ∀ as bs : List Expr, beqAll as bs = true ↔ as = bs
  | [], bs => by cases bs <;> simp [beqAll]
  | a :: as, bs => by cases bs <;> simp [beqAll, beq_iff a, beqAll_iff as]

end

instance : DecidableEq Expr := fun a b => decidable_of_iff _ (beq_iff a b)

/-! ## The canonical form -/

mutual

/-- The expression that stands for its class: every float literal replaced by
its canonical float. -/
def canon : Expr → Expr
  | .column c => .column c
  | .literal l => .literal l.canon
  | .binary o a b => .binary o (canon a) (canon b)
  | .unary o a => .unary o (canon a)
  | .call f as => .call f (canonAll as)
  | .and as => .and (canonAll as)
  | .or as => .or (canonAll as)

/-- The canonical form of every member of a list. -/
def canonAll : List Expr → List Expr
  | [] => []
  | a :: as => canon a :: canonAll as

end

/-- Whether two expressions are the same up to the sign of zeros and the payload
of values that are not numbers. -/
def same (a b : Expr) : Bool := decide (a.canon = b.canon)

theorem same_iff {a b : Expr} : same a b = true ↔ a.canon = b.canon := by simp [same]

/-- Zero with and without a sign differ as floats and are the same literal. -/
example : Expr.literal (.float (-0.0)) ≠ .literal (.float 0.0)
    ∧ same (.literal (.float (-0.0))) (.literal (.float 0.0)) = true := by decide

end Expr

/-! ## Parameters built from expressions -/

/-- How a join pairs the rows of its inputs. -/
inductive JoinKind where
  | inner | left | right | full | semi | anti | cross
deriving DecidableEq, Repr

/-- Whether the columns of the right input appear in the output.  A semi or anti
join only tests for partners. -/
def JoinKind.emitsRight : JoinKind → Bool
  | .semi | .anti => false
  | _ => true

/-- The aggregate functions. -/
inductive AggregateFn where
  | count | sum | avg | min | max
deriving DecidableEq, Repr

/-- A call of an aggregate function. -/
structure Aggregate where
  /-- The function. -/
  fn : AggregateFn
  /-- Its argument. -/
  arg : Expr
  /-- Whether equal arguments count once. -/
  distinct : Bool
deriving DecidableEq, Repr

/-- The canonical form of an aggregate call. -/
def Aggregate.canon (a : Aggregate) : Aggregate := { a with arg := a.arg.canon }

/-- One key of a sort. -/
structure SortTerm where
  /-- The value sorted by. -/
  expr : Expr
  /-- Whether small values come first. -/
  ascending : Bool
  /-- Whether nulls come first. -/
  nullsFirst : Bool
deriving DecidableEq, Repr

/-- The canonical form of a sort key. -/
def SortTerm.canon (t : SortTerm) : SortTerm := { t with expr := t.expr.canon }

end PlanOptimizer
