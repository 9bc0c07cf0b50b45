import PlanOptimizer.Json.Reader

/-!
# The wire form of records and variants

Plans travel as JSON.  A record is written as an object with its fields by name.
A variant is written as an object with one member, whose name is the variant and
whose value is its content, and a variant without content as its bare name.

Readers are more generous than writers.  A record may also be an array of its
fields in order, unknown fields are ignored, and an optional field may be missing.
A known field may not be repeated.

A reader is told how many arrays and objects may still be nested, and each one it
enters counts.  Text is read with `textLevels`, and a value that is at hand with as
many levels as it has.
-/

namespace PlanOptimizer.Wire

/-- How deep a text may nest arrays and objects. -/
def textLevels : Nat := 127

/-- Read a text with a reader of values. -/
def fromText {α : Type} (read : Nat → Json → Option α) (s : String) : Option α := do
  read textLevels (← Json.read? s)

/-- Read a value with as many levels as it has. -/
def fromValue {α : Type} (read : Nat → Json → Option α) (j : Json) : Option α := read j.depth j

/-! ## Records and lists -/

/-- A field of a record. -/
structure Field where
  /-- The name of the field. -/
  name : String
  /-- Whether the field may be missing, which is then read as null. -/
  optional : Bool := false

/-- The values of a field among the members of an object. -/
def fieldValues (name : String) (members : List (String × Json)) : List Json :=
  members.filterMap fun m => if m.1 = name then some m.2 else none

/-- The value of a field of an object. -/
def Field.ofMembers (f : Field) (members : List (String × Json)) : Option Json :=
  match fieldValues f.name members with
  | [j] => some j
  | [] => if f.optional then some .null else none
  | _ => none

/-- The values of the fields of a record, in order. -/
def asRecord (fields : List Field) : Json → Option (List Json)
  | .object members => fields.mapM fun f => f.ofMembers members
  | .array items => if items.length = fields.length then some items else none
  | _ => none

/-- The items of an array. -/
def asList {α : Type} (item : Json → Option α) : Json → Option (List α)
  | .array items => items.mapM item
  | _ => none

/-- A value that may be absent. -/
def asOptional {α : Type} (read : Json → Option α) : Json → Option (Option α)
  | .null => some none
  | j => some <$> read j

/-- The name of a variant without content. -/
def bareVariant : Nat → Json → Option String
  | _, .string tag => some tag
  | _ + 1, .object [(tag, .null)] => some tag
  | _, _ => none

/-- A variant with content. -/
def variant (tag : String) (content : Json) : Json := .object [(tag, content)]

/-! ## Scalars -/

/-- A truth value. -/
def asBool : Json → Option Bool
  | .bool b => some b
  | _ => none

/-- A text. -/
def asString : Json → Option String
  | .string s => some s
  | _ => none

/-- A whole number from `low` to `high`. -/
def asIntIn (low high : Int) : Json → Option Int
  | .int n => if low ≤ n ∧ n ≤ high then some n else none
  | _ => none

/-- A number of 64 bits without sign. -/
def asWord (j : Json) : Option Nat := Int.toNat <$> asIntIn 0 (UInt64.size - 1) j

/-- The number of a group. -/
def asGroup (j : Json) : Option Nat := Int.toNat <$> asIntIn 0 (UInt32.size - 1) j

/-- A float.  A whole number is read as one too. -/
def asFloat : Json → Option Float
  | .int n => some (Float.ofInt n)
  | .float x => some x
  | _ => none

/-- Write a float.  What is not finite has no wire form and becomes null. -/
def ofFloat (x : Float) : Json := if x.isFinite then .float x else .null

end PlanOptimizer.Wire
