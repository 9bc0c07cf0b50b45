/-!
# Decimal text of binary floats

A finite float is a sign and a magnitude `m * 2 ^ q`.  The reals that round to
it form an interval around the magnitude, its *span*.  Its decimal text has the
fewest digits among the decimals of the span, and of those it is the nearest
one.  Both are found on grids: the grid `k` holds the multiples of `10 ^ k`.
Going from coarse grids to fine ones, the first grid with a point in the span
has the fewest digits, and its two points around the magnitude are the only ones
that have to be tried.  All of it is exact arithmetic on `Nat`.

A `Layout` says how the digits become text: where positional notation ends,
what follows a whole number, and how the values that are not finite are spelled.

Reading goes the other way.  `Decimal.toFloat` rounds `d * 10 ^ k` to the
nearest float.
-/

namespace PlanOptimizer

/-! ## The parts of a float -/

/-- What the bits of a float say: the magnitude of a finite one is
`mantissa * 2 ^ exponent`. -/
inductive Binary where
  /-- Not a number. -/
  | nan
  /-- An infinity, with its sign. -/
  | infinite (negative : Bool)
  /-- A finite value, with its sign. -/
  | finite (negative : Bool) (mantissa : Nat) (exponent : Int)
deriving DecidableEq, Repr

/-- Read the parts of a float off its bits. -/
def Binary.ofFloat (x : Float) : Binary :=
  let bits := x.toBits.toNat
  let negative := decide (Nat.pow 2 63 ≤ bits)
  let biased : Nat := bits / Nat.pow 2 52 % 2048
  let fraction := bits % Nat.pow 2 52
  if biased = 2047 then if fraction = 0 then .infinite negative else .nan
  else if biased = 0 then .finite negative fraction (-1074)
  else .finite negative (Nat.pow 2 52 + fraction) ((biased : Int) - 1075)

/-! ## Shortest digits -/

/-- The decimal `digits * 10 ^ exponent`. -/
structure Decimal where
  /-- The digits, read as one number. -/
  digits : Nat
  /-- The power of ten of the last digit. -/
  exponent : Int
deriving DecidableEq, Repr

/-- The reals that round to a positive magnitude, as numerators over a common
denominator. -/
structure Span where
  /-- The denominator. -/
  unit : Nat
  /-- The lower end. -/
  low : Nat
  /-- The magnitude itself. -/
  value : Nat
  /-- The upper end. -/
  high : Nat
  /-- Whether the ends round to the magnitude too. -/
  closed : Bool

/-- The span of `m * 2 ^ q`.  The next float is `2 ^ q` away on both sides, save
below a power of two, where it is half as far.  A tie goes to an even mantissa. -/
def Span.around (m : Nat) (q : Int) : Span :=
  let below := if m = Nat.pow 2 52 ∧ q ≠ -1074 then 1 else 2
  let scale := Nat.pow 2 q.toNat
  { unit := 4 * Nat.pow 2 (-q).toNat
    low := (4 * m - below) * scale
    value := 4 * m * scale
    high := (4 * m + 2) * scale
    closed := m % 2 = 0 }

/-- The point of the grid `k` that lies in the span, if there is one.  Of two
points the nearer is taken, and the upper one when they are equally near. -/
def Span.onGrid (s : Span) (k : Int) : Option Nat :=
  let step := s.unit * Nat.pow 10 k.toNat
  let lift := Nat.pow 10 (-k).toNat
  let inside (d : Nat) : Bool :=
    if s.closed then s.low * lift ≤ d * step && d * step ≤ s.high * lift
    else s.low * lift < d * step && d * step < s.high * lift
  let d := s.value * lift / step
  if inside d && (!inside (d + 1) || 2 * (s.value * lift % step) < step) then some d
  else if inside (d + 1) then some (d + 1)
  else none

/-- A grid too coarse for the magnitude: `10 ^ top` is at least as large. -/
def Span.top (s : Span) : Int :=
  if s.unit ≤ s.value then (Nat.toDigits 10 (s.value / s.unit)).length
  else 1 - (Nat.toDigits 10 (s.unit / s.value)).length

/-- The shortest decimal that rounds to the positive magnitude `m * 2 ^ q`.
Seventeen digits always suffice. -/
def Decimal.shortest (m : Nat) (q : Int) : Decimal :=
  let s := Span.around m q
  let found := (List.range 20).findSome? fun (i : Nat) =>
    (s.onGrid (s.top - i)).map fun d => (⟨d, s.top - i⟩ : Decimal)
  found.getD ⟨s.value / s.unit, 0⟩

/-! ## Layouts -/

/-- How a float is laid out as text. -/
structure Layout where
  /-- Whether a value is written without an exponent, by the place of its point:
  the number of its digits before the point. -/
  positional : Int → Bool
  /-- What follows the digits of a whole number. -/
  whole : String
  /-- The text of what is not a number. -/
  nan : String
  /-- The text of positive infinity. -/
  infinity : String
  /-- The text of negative infinity. -/
  negativeInfinity : String

/-- The text of `n` zeros. -/
def zeros (n : Nat) : String := String.ofList (List.replicate n '0')

/-- Positional notation: the digits with the point set among them. -/
def Decimal.positional (whole : String) (d : Decimal) : String :=
  let digits := Nat.toDigits 10 d.digits
  let point := digits.length + d.exponent
  if 0 ≤ d.exponent then String.ofList digits ++ zeros d.exponent.toNat ++ whole
  else if 0 < point then
    String.ofList (digits.take point.toNat) ++ "." ++ String.ofList (digits.drop point.toNat)
  else "0." ++ zeros (-point).toNat ++ String.ofList digits

/-- Scientific notation: the point behind the first digit. -/
def Decimal.scientific (d : Decimal) : String :=
  let digits := Nat.toDigits 10 d.digits
  let power := toString (digits.length + d.exponent - 1)
  let tail := digits.drop 1
  let fraction := if tail.isEmpty then "" else "." ++ String.ofList tail
  String.ofList (digits.take 1) ++ fraction ++ "e" ++ power

/-- The text of a float in a layout. -/
def Layout.write (style : Layout) (x : Float) : String :=
  match Binary.ofFloat x with
  | .nan => style.nan
  | .infinite negative => if negative then style.negativeInfinity else style.infinity
  | .finite negative m q =>
    let sign := if negative then "-" else ""
    if m = 0 then sign ++ "0" ++ style.whole
    else
      let d := Decimal.shortest m q
      let point := (Nat.toDigits 10 d.digits).length + d.exponent
      sign ++ if style.positional point then d.positional style.whole else d.scientific

/-! ## Reading -/

/-- The float nearest to a decimal.  Powers of ten beyond every float are settled
without computing them: the result is zero or infinite there. -/
def Decimal.toFloat (d : Decimal) : Float :=
  let point := (Nat.toDigits 10 d.digits).length + d.exponent
  if d.digits = 0 || decide (point < -400) then 0.0
  else if 400 < point then 1.0 / 0.0
  else Float.ofScientific d.digits (decide (d.exponent < 0)) d.exponent.natAbs

end PlanOptimizer
