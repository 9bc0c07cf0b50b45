import PlanOptimizer.Memo.Offer
import PlanOptimizer.Rule.Pattern

/-!
# Rules

A rule transforms the representative of a group.  It is handed the representative
with references as inputs, and a lookup to see what they stand for, and it
answers with offers to the group.  Offers may hold operators the memo does not
have yet.

Whether a rule is tried is decided in two steps.  `Rule.accepts` looks at the top
operator alone.  The full test of the pattern is made only where the pattern
constrains an input.
-/

namespace PlanOptimizer

/-- What a rule may consult besides the plan. -/
structure Context where
  /-- The known tables. -/
  catalog : Catalog Float
  /-- The model that ranks plans. -/
  model : CostModel
  /-- The group whose representative is transformed. -/
  group : GroupId
  /-- The number of the pass, from one. -/
  pass : Nat

/-- A rule. -/
structure Rule where
  /-- The name shown in faults. -/
  name : String
  /-- The family: rules of different families keep their notes apart even if they
  share a name. -/
  family : String
  /-- The plans it transforms. -/
  pattern : Pattern
  /-- A cheap test on the top operator. -/
  accepts : Plan → Bool := pattern.fitsTop
  /-- The offers for a plan. -/
  apply : Context → Lookup → Plan → Except Fault (List Offer)

namespace Rule

/-- What the explorations of a rule are noted under. -/
def key (r : Rule) : RuleKey := ⟨r.family, r.name⟩

/-- Whether a rule is to be applied to a plan. -/
def applies (r : Rule) (lookup : Lookup) (p : Plan) : Except Fault Bool :=
  if r.accepts p then
    if r.pattern.inspectsInputs then r.pattern.fits lookup p else .ok true
  else .ok false

end Rule

/-! ## Registries -/

/-- The rules at hand: some are always active, others only for one source of
data. -/
structure Registry where
  /-- The rules that are always active. -/
  base : List Rule
  /-- The rules of each source. -/
  sources : Assoc String (List Rule)

namespace Registry

/-- The registry without rules. -/
def empty : Registry := ⟨[], ∅⟩

/-- Add a rule behind those that are always active. -/
def add (r : Registry) (rule : Rule) : Registry := { r with base := r.base ++ [rule] }

/-- Set the rules of a source.  Those it had are dropped. -/
def setSource (r : Registry) (source : String) (rules : List Rule) : Registry :=
  { r with sources := r.sources.set source rules }

/-- The rules active for a source, in the order in which they are tried. -/
def active (r : Registry) (source : Option String) : List Rule :=
  match source with
  | some s => r.base ++ (r.sources.find? s).getD []
  | none => r.base

/-- The number of rules. -/
def size (r : Registry) : Nat :=
  r.base.length + (r.sources.entries.flatMap fun e => e.2).length

/-- Whether there is no rule. -/
def isEmpty (r : Registry) : Bool := decide (r.size = 0)

end Registry

end PlanOptimizer
