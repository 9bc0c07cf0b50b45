import PlanOptimizer.Expr.Basic
import PlanOptimizer.Wire.Records

/-!
# The wire form of expressions
-/

namespace PlanOptimizer

open Wire

/-! ## Names and operators -/

/-- The wire form of a table name. -/
def TableName.encode (t : TableName) : Json :=
  .object [("schema", .string t.schema), ("name", .string t.name)]

/-- Read a table name. -/
def TableName.decode : Nat → Json → Option TableName
  | _ + 1, j => do
    let [schema, name] ← asRecord [⟨"schema", false⟩, ⟨"name", false⟩] j | none
    return ⟨← asString schema, ← asString name⟩
  | 0, _ => none

/-- The wire form of a column. -/
def Column.encode (c : Column) : Json :=
  .object [("table", c.table.elim .null .string), ("name", .string c.name)]

/-- Read a column. -/
def Column.decode : Nat → Json → Option Column
  | _ + 1, j => do
    let [table, name] ← asRecord [⟨"table", true⟩, ⟨"name", false⟩] j | none
    return ⟨← asOptional asString table, ← asString name⟩
  | 0, _ => none

/-- The wire form of a binary operator. -/
def BinOp.encode (op : BinOp) : Json :=
  .string <|
    match op with
    | .eq => "Eq"
    | .ne => "NotEq"
    | .lt => "Lt"
    | .le => "LtEq"
    | .gt => "Gt"
    | .ge => "GtEq"
    | .add => "Add"
    | .sub => "Sub"
    | .mul => "Mul"
    | .div => "Div"

/-- The binary operator of a name. -/
def BinOp.ofName? : String → Option BinOp
  | "Eq" => some .eq
  | "NotEq" => some .ne
  | "Lt" => some .lt
  | "LtEq" => some .le
  | "Gt" => some .gt
  | "GtEq" => some .ge
  | "Add" => some .add
  | "Sub" => some .sub
  | "Mul" => some .mul
  | "Div" => some .div
  | _ => none

/-- Read a binary operator. -/
def BinOp.decode (levels : Nat) (j : Json) : Option BinOp := do ofName? (← bareVariant levels j)

/-- The wire form of a unary operator. -/
def UnOp.encode (op : UnOp) : Json :=
  .string <|
    match op with
    | .not => "Not"
    | .neg => "Neg"
    | .isNull => "IsNull"
    | .isNotNull => "IsNotNull"

/-- The unary operator of a name. -/
def UnOp.ofName? : String → Option UnOp
  | "Not" => some .not
  | "Neg" => some .neg
  | "IsNull" => some .isNull
  | "IsNotNull" => some .isNotNull
  | _ => none

/-- Read a unary operator. -/
def UnOp.decode (levels : Nat) (j : Json) : Option UnOp := do ofName? (← bareVariant levels j)

/-! ## Literals -/

/-- The wire form of a literal. -/
def Literal.encode : Literal → Json
  | .null => .string "Null"
  | .bool b => variant "Bool" (.bool b)
  | .int v => variant "Int64" (.int v.toInt)
  | .float x => variant "Float64" (ofFloat x)
  | .string s => variant "Utf8" (.string s)
  | .date d => variant "Date" (.int d.toInt)

/-- Read a literal. -/
def Literal.decode : Nat → Json → Option Literal
  | _, .string "Null" => some .null
  | _ + 1, .object [(tag, content)] =>
    match tag with
    | "Null" => match content with
      | .null => some .null
      | _ => none
    | "Bool" => Literal.bool <$> asBool content
    | "Int64" =>
      (fun n => .int (Int64.ofInt n)) <$>
        asIntIn Int64.minValue.toInt Int64.maxValue.toInt content
    | "Float64" => Literal.float <$> asFloat content
    | "Utf8" => Literal.string <$> asString content
    | "Date" =>
      (fun n => .date (Int32.ofInt n)) <$>
        asIntIn Int32.minValue.toInt Int32.maxValue.toInt content
    | _ => none
  | _, _ => none

/-! ## Expressions -/

namespace Expr

mutual

/-- The wire form of an expression. -/
def encode : Expr → Json
  | .column c => variant "Column" c.encode
  | .literal l => variant "Literal" l.encode
  | .binary op a b =>
    variant "BinaryOp" (.object [("op", op.encode), ("left", encode a), ("right", encode b)])
  | .unary op a => variant "UnaryOp" (.object [("op", op.encode), ("operand", encode a)])
  | .call f as =>
    variant "Function" (.object [("name", .string f), ("args", .array (encodeAll as))])
  | .and as => variant "And" (.array (encodeAll as))
  | .or as => variant "Or" (.array (encodeAll as))

/-- The wire forms of some expressions. -/
def encodeAll : List Expr → List Json
  | [] => []
  | a :: as => encode a :: encodeAll as

end

/-- Read an expression. -/
def decode : Nat → Json → Option Expr
  | n + 1, .object [(tag, content)] =>
    match tag, n with
    | "Column", n => Expr.column <$> Column.decode n content
    | "Literal", n => Expr.literal <$> Literal.decode n content
    | "BinaryOp", k + 1 => do
      let [op, a, b] ← asRecord [⟨"op", false⟩, ⟨"left", false⟩, ⟨"right", false⟩] content | none
      return .binary (← BinOp.decode k op) (← decode k a) (← decode k b)
    | "UnaryOp", k + 1 => do
      let [op, a] ← asRecord [⟨"op", false⟩, ⟨"operand", false⟩] content | none
      return .unary (← UnOp.decode k op) (← decode k a)
    | "Function", k + 1 => do
      let [name, args] ← asRecord [⟨"name", false⟩, ⟨"args", false⟩] content | none
      match k with
      | k + 1 => return .call (← asString name) (← asList (decode k) args)
      | 0 => none
    | "And", k + 1 => Expr.and <$> asList (decode k) content
    | "Or", k + 1 => Expr.or <$> asList (decode k) content
    | _, _ => none
  | _, _ => none

end Expr

/-! ## Parameters -/

/-- The wire form of a kind of join. -/
def JoinKind.encode (k : JoinKind) : Json :=
  .string <|
    match k with
    | .inner => "Inner"
    | .left => "Left"
    | .right => "Right"
    | .full => "Full"
    | .semi => "Semi"
    | .anti => "Anti"
    | .cross => "Cross"

/-- The kind of join of a name. -/
def JoinKind.ofName? : String → Option JoinKind
  | "Inner" => some .inner
  | "Left" => some .left
  | "Right" => some .right
  | "Full" => some .full
  | "Semi" => some .semi
  | "Anti" => some .anti
  | "Cross" => some .cross
  | _ => none

/-- Read a kind of join. -/
def JoinKind.decode (levels : Nat) (j : Json) : Option JoinKind := do
  ofName? (← bareVariant levels j)

/-- The wire form of an aggregate function. -/
def AggregateFn.encode (f : AggregateFn) : Json :=
  .string <|
    match f with
    | .count => "Count"
    | .sum => "Sum"
    | .avg => "Avg"
    | .min => "Min"
    | .max => "Max"

/-- The aggregate function of a name. -/
def AggregateFn.ofName? : String → Option AggregateFn
  | "Count" => some .count
  | "Sum" => some .sum
  | "Avg" => some .avg
  | "Min" => some .min
  | "Max" => some .max
  | _ => none

/-- Read an aggregate function. -/
def AggregateFn.decode (levels : Nat) (j : Json) : Option AggregateFn := do
  ofName? (← bareVariant levels j)

/-- The wire form of an aggregate call. -/
def Aggregate.encode (a : Aggregate) : Json :=
  .object [("func", a.fn.encode), ("arg", a.arg.encode), ("distinct", .bool a.distinct)]

/-- Read an aggregate call. -/
def Aggregate.decode : Nat → Json → Option Aggregate
  | n + 1, j => do
    let [fn, arg, distinct] ←
      asRecord [⟨"func", false⟩, ⟨"arg", false⟩, ⟨"distinct", false⟩] j | none
    return ⟨← AggregateFn.decode n fn, ← Expr.decode n arg, ← asBool distinct⟩
  | 0, _ => none

/-- The wire form of a sort key. -/
def SortTerm.encode (t : SortTerm) : Json :=
  .object [("expr", t.expr.encode), ("ascending", .bool t.ascending),
    ("nulls_first", .bool t.nullsFirst)]

/-- Read a sort key. -/
def SortTerm.decode : Nat → Json → Option SortTerm
  | n + 1, j => do
    let [expr, ascending, nullsFirst] ←
      asRecord [⟨"expr", false⟩, ⟨"ascending", false⟩, ⟨"nulls_first", false⟩] j | none
    return ⟨← Expr.decode n expr, ← asBool ascending, ← asBool nullsFirst⟩
  | 0, _ => none

end PlanOptimizer
