import PlanOptimizer.Json.Value

/-!
# Reading JSON

A reader of the JSON grammar.  Each step takes the characters that are left and
gives what it has read with what is left after it, or nothing if the text breaks
the grammar there.

The recursion runs on an allowance.  Each step that spends from it also
takes a character or closes a list, so twice the length of the text is enough.
-/

namespace PlanOptimizer.Json

/-- Drop blanks. -/
def skipBlanks (cs : List Char) : List Char :=
  cs.dropWhile fun c => c = ' ' || c = '\n' || c = '\t' || c = '\r'

/-- A word that has to stand here. -/
def word (w : List Char) (j : Json) (cs : List Char) : Option (Json × List Char) :=
  if w.isPrefixOf cs then some (j, cs.drop w.length) else none

/-! ## Numbers -/

/-- The number that some digits spell. -/
def digitsValue (ds : List Char) : Nat :=
  ds.foldl (fun n d => 10 * n + (d.toNat - '0'.toNat)) 0

/-- The digits in front, at least one. -/
def digits (cs : List Char) : Option (List Char × List Char) :=
  let ds := cs.takeWhile Char.isDigit
  if ds.isEmpty then none else some (ds, cs.dropWhile Char.isDigit)

/-- The whole part of a number: no zero stands in front of other digits. -/
def wholePart (cs : List Char) : Option (List Char × List Char) :=
  match digits cs with
  | some ('0' :: _ :: _, _) => none
  | r => r

/-- The digits behind a point, if there is one. -/
def fractionPart : List Char → Option (List Char × List Char)
  | '.' :: cs => digits cs
  | cs => some ([], cs)

/-- The exponent, if there is one. -/
def exponentPart : List Char → Option (Option Int × List Char)
  | c :: cs =>
    if c = 'e' || c = 'E' then
      match cs with
      | '-' :: rest => (digits rest).map fun r => (some (-(digitsValue r.1 : Int)), r.2)
      | '+' :: rest => (digits rest).map fun r => (some (digitsValue r.1 : Int), r.2)
      | rest => (digits rest).map fun r => (some (digitsValue r.1 : Int), r.2)
    else some (none, c :: cs)
  | [] => some (none, [])

/-- A float as a value, if it is one. -/
def ofMagnitude (negative : Bool) (d : Decimal) : Json :=
  let x := d.toFloat
  if x.isInf then .unreadable else .float (if negative then -x else x)

/-- The value of a number from its parts.  A whole number that fits 64 bits stays
exact, save for minus zero. -/
def ofParts (negative : Bool) (whole fraction : List Char) (exponent : Option Int) : Json :=
  let n := digitsValue whole
  let exact : Option Int :=
    if !fraction.isEmpty || exponent.isSome then none
    else if negative then
      if 0 < n && decide (Int64.minValue.toInt ≤ -(n : Int)) then some (-(n : Int)) else none
    else if n < UInt64.size then some n else none
  match exact with
  | some k => .int k
  | none =>
    ofMagnitude negative
      ⟨digitsValue (whole ++ fraction), exponent.getD 0 - (fraction.length : Int)⟩

/-- A number without its sign. -/
def unsigned (negative : Bool) (cs : List Char) : Option (Json × List Char) := do
  let (whole, cs) ← wholePart cs
  let (fraction, cs) ← fractionPart cs
  let (exponent, cs) ← exponentPart cs
  return (ofParts negative whole fraction exponent, cs)

/-- A number. -/
def number : List Char → Option (Json × List Char)
  | '-' :: cs => unsigned true cs
  | cs => unsigned false cs

/-! ## Texts -/

/-- The value of a hexadecimal digit. -/
def hexDigit? (c : Char) : Option Nat :=
  if '0' ≤ c ∧ c ≤ '9' then some (c.toNat - '0'.toNat)
  else if 'a' ≤ c ∧ c ≤ 'f' then some (c.toNat - 'a'.toNat + 10)
  else if 'A' ≤ c ∧ c ≤ 'F' then some (c.toNat - 'A'.toNat + 10)
  else none

/-- The value of four hexadecimal digits. -/
def hex4? (a b c d : Char) : Option Nat := do
  return ((← hexDigit? a) * 16 + (← hexDigit? b)) * 256 + (← hexDigit? c) * 16 + (← hexDigit? d)

/-- The character of a short escape. -/
def shortEscape? (c : Char) : Option Char :=
  if c = '"' || c = '\\' || c = '/' then some c
  else if c = 'b' then some '\x08'
  else if c = 'f' then some '\x0c'
  else if c = 'n' then some '\n'
  else if c = 'r' then some '\r'
  else if c = 't' then some '\t'
  else none

/-- Whether a code is the first half of a surrogate pair. -/
def isLeading (n : Nat) : Bool := decide (0xD800 ≤ n) && decide (n < 0xDC00)

/-- Whether a code is the second half of a surrogate pair. -/
def isTrailing (n : Nat) : Bool := decide (0xDC00 ≤ n) && decide (n < 0xE000)

/-- The characters of a text up to its closing quote.  The flag says that only
whole characters have been met. -/
def characters : List Char → Option (List Char × Bool × List Char)
  | '"' :: rest => some ([], true, rest)
  | '\\' :: 'u' :: a :: b :: c :: d :: '\\' :: 'u' :: e :: f :: g :: h :: rest => do
    let n ← hex4? a b c d
    let low ← hex4? e f g h
    if isLeading n && isTrailing low then
      let (cs, whole, left) ← characters rest
      return (Char.ofNat (0x10000 + (n - 0xD800) * 1024 + (low - 0xDC00)) :: cs, whole, left)
    else
      let (cs, whole, left) ← characters ('\\' :: 'u' :: e :: f :: g :: h :: rest)
      if isLeading n || isTrailing n then return (cs, false, left)
      else return (Char.ofNat n :: cs, whole, left)
  | '\\' :: 'u' :: a :: b :: c :: d :: rest => do
    let n ← hex4? a b c d
    let (cs, whole, left) ← characters rest
    if isLeading n || isTrailing n then return (cs, false, left)
    else return (Char.ofNat n :: cs, whole, left)
  | '\\' :: c :: rest => do
    let e ← shortEscape? c
    let (cs, whole, left) ← characters rest
    return (e :: cs, whole, left)
  | c :: rest =>
    if c.toNat < 32 || c = '\\' then none
    else do
      let (cs, whole, left) ← characters rest
      return (c :: cs, whole, left)
  | [] => none

/-! ## Values -/

mutual

/-- A value. -/
def value : Nat → List Char → Option (Json × List Char)
  | 0, _ => none
  | n + 1, cs =>
    match skipBlanks cs with
    | 'n' :: rest => word ['u', 'l', 'l'] .null rest
    | 't' :: rest => word ['r', 'u', 'e'] (.bool true) rest
    | 'f' :: rest => word ['a', 'l', 's', 'e'] (.bool false) rest
    | '"' :: rest => do
      let (cs, whole, left) ← characters rest
      return (if whole then .string (String.ofList cs) else .unreadable, left)
    | '[' :: rest =>
      match skipBlanks rest with
      | ']' :: left => some (.array [], left)
      | left => do
        let (js, left) ← items n left
        return (.array js, left)
    | '\x7b' :: rest =>
      match skipBlanks rest with
      | '\x7d' :: left => some (.object [], left)
      | left => do
        let (ms, left) ← members n left
        return ((ms.mapM id).elim .unreadable .object, left)
    | cs => number cs

/-- The items of an array up to its end, at least one. -/
def items : Nat → List Char → Option (List Json × List Char)
  | 0, _ => none
  | n + 1, cs => do
    let (j, cs) ← value n cs
    match skipBlanks cs with
    | ',' :: rest => do
      let (js, left) ← items n rest
      return (j :: js, left)
    | ']' :: left => return ([j], left)
    | _ => none

/-- The members of an object up to its end, at least one.  A member whose name is
not a text of whole characters is kept as nothing. -/
def members : Nat → List Char → Option (List (Option (String × Json)) × List Char)
  | 0, _ => none
  | n + 1, cs =>
    match skipBlanks cs with
    | '"' :: rest => do
      let (name, whole, cs) ← characters rest
      match skipBlanks cs with
      | ':' :: cs => do
        let (j, cs) ← value n cs
        let m := if whole then some (String.ofList name, j) else none
        match skipBlanks cs with
        | ',' :: rest => do
          let (ms, left) ← members n rest
          return (m :: ms, left)
        | '\x7d' :: left => return ([m], left)
        | _ => none
      | _ => none
    | _ => none

end

/-- The value of a text.  Blanks may stand around it, and nothing else. -/
def read? (s : String) : Option Json := do
  let cs := s.toList
  let (j, rest) ← value (2 * cs.length + 2) cs
  if (skipBlanks rest).isEmpty then some j else none

end PlanOptimizer.Json
