/-!
# Quantities

Estimates are computed with quantities: row counts, sizes, fractions and costs.
The formulas ask little of them, and they are stated for every type that
has it.  Floats have it, and they are what runs.

A float may be undefined, that is, not a number.  Then `larger` and `smaller`
take the other one, so a bound is also a replacement for an undefined value.
-/

namespace PlanOptimizer

/-- What the formulas of an estimate ask of their numbers. -/
class Quantity (α : Type) extends Add α, Sub α, Mul α, Div α, OfScientific α where
  /-- A whole number as a quantity. -/
  ofNat : Nat → α
  /-- Whether one quantity is less than another. -/
  less : α → α → Bool
  /-- Whether one quantity is at most another. -/
  atMost : α → α → Bool
  /-- The logarithm to base two. -/
  log2 : α → α

instance : Quantity Float where
  ofNat := Float.ofNat
  less a b := decide (a < b)
  atMost a b := decide (a ≤ b)
  log2 := Float.log2

namespace Quantity

variable {α : Type} [Quantity α]

/-- The larger of two quantities, or the one that is defined. -/
def larger (a b : α) : α := if less a b || !atMost a a then b else a

/-- The smaller of two quantities, or the one that is defined. -/
def smaller (a b : α) : α := if less b a || !atMost a a then b else a

/-- The product of some quantities, from left to right. -/
def product (xs : List α) : α := xs.foldl (· * ·) 1.0

end Quantity

end PlanOptimizer
