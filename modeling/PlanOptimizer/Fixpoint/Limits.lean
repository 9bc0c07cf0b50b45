/-!
# Limits

How far an optimization may go, and which source of data it is for.
-/

namespace PlanOptimizer

/-- The limits of an optimization. -/
structure Limits where
  /-- The number of passes, the last one included.  There is always one. -/
  passes : Nat := 100
  /-- The number of groups. -/
  groups : Nat := 100000
  /-- The source whose rules are active besides those that always are. -/
  source : Option String := none
deriving DecidableEq, Repr

namespace Limits

/-- Allow a number of passes, at least one. -/
def withPasses (l : Limits) (n : Nat) : Limits := { l with passes := max n 1 }

/-- Allow a number of groups. -/
def withGroups (l : Limits) (n : Nat) : Limits := { l with groups := n }

/-- Select a source. -/
def withSource (l : Limits) (s : String) : Limits := { l with source := some s }

/-- Whether nothing differs from the usual limits. -/
def isDefault (l : Limits) : Bool := decide (l = {})

end Limits

end PlanOptimizer
