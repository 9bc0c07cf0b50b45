import PlanOptimizer.Number.Decimal

/-!
# JSON values

A JSON value keeps what a typed reader has to know.  Whole numbers that fit 64
bits stay exact, and all other numbers are floats.  An object lists its members
as they stand, repeated names included: whether a name may be repeated is for the
reader of the object to say.

A few texts are well formed and yet hold something no reader can use: half of a
surrogate pair, or a number beyond every float.  Such a part is `unreadable`.  It
does no harm where nobody reads it.
-/

namespace PlanOptimizer

/-- A JSON value. -/
inductive Json where
  /-- The null value. -/
  | null
  /-- A truth value. -/
  | bool (value : Bool)
  /-- A whole number of 64 bits, with or without sign. -/
  | int (value : Int)
  /-- Any other number. -/
  | float (value : Float)
  /-- A text. -/
  | string (value : String)
  /-- A list of values. -/
  | array (items : List Json)
  /-- A list of named values. -/
  | object (members : List (String × Json))
  /-- A well-formed part without a usable value. -/
  | unreadable
deriving Inhabited, Repr

namespace Json

mutual

/-- How many arrays and objects are nested in a value. -/
def depth : Json → Nat
  | .array items => depthItems items + 1
  | .object members => depthMembers members + 1
  | _ => 0

/-- How many arrays and objects are nested in one of some items. -/
def depthItems : List Json → Nat
  | [] => 0
  | j :: js => max (depth j) (depthItems js)

/-- How many arrays and objects are nested in one of some members. -/
def depthMembers : List (String × Json) → Nat
  | [] => 0
  | (_, j) :: ms => max (depth j) (depthMembers ms)

end

/-! ## Text -/

/-- Numbers as JSON spells them.  What is not finite has no spelling and is
written as null. -/
def numberStyle : Layout where
  positional point := decide (-5 < point ∧ point ≤ 16)
  whole := ".0"
  nan := "null"
  infinity := "null"
  negativeInfinity := "null"

/-- The escape of a character that may not stand in a text as it is. -/
def escape (c : Char) : List Char :=
  if c = '"' then ['\\', '"']
  else if c = '\\' then ['\\', '\\']
  else if c = '\n' then ['\\', 'n']
  else if c = '\r' then ['\\', 'r']
  else if c = '\t' then ['\\', 't']
  else if c.toNat < 32 then
    ['\\', 'u', '0', '0', Nat.digitChar (c.toNat / 16), Nat.digitChar (c.toNat % 16)]
  else [c]

/-- A text in quotes. -/
def quote (s : String) : String := "\"" ++ String.ofList (s.toList.flatMap escape) ++ "\""

mutual

/-- The text of a value, without blanks. -/
def text : Json → String
  | .null | .unreadable => "null"
  | .bool b => if b then "true" else "false"
  | .int n => toString n
  | .float x => numberStyle.write x
  | .string s => quote s
  | .array [] => "[]"
  | .array (j :: js) => "[" ++ text j ++ textItems js ++ "]"
  | .object [] => "\x7b\x7d"
  | .object ((name, j) :: ms) => "\x7b" ++ quote name ++ ":" ++ text j ++ textMembers ms ++ "\x7d"

/-- The text of further items, each behind a comma. -/
def textItems : List Json → String
  | [] => ""
  | j :: js => "," ++ text j ++ textItems js

/-- The text of further members, each behind a comma. -/
def textMembers : List (String × Json) → String
  | [] => ""
  | (name, j) :: ms => "," ++ quote name ++ ":" ++ text j ++ textMembers ms

end

end Json

end PlanOptimizer
