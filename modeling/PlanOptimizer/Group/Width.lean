import PlanOptimizer.Group.Lookup

/-!
# Output width

The number of columns a plan puts out, where the plan tells it.  A scan that
reads all columns does not.  Filters, sorts and limits pass their input's width
on, and a join adds up what its inputs give to the output.
-/

namespace PlanOptimizer

/-- The width of a plan, given the widths of the groups it refers to. -/
def Plan.widthBy (through : GroupId → Except Fault (Option Nat)) :
    Plan → Except Fault (Option Nat)
  | .scan s => .ok (if s.columns.isEmpty then none else some s.columns.length)
  | .unary op a =>
    match op with
    | .project es _ => .ok (some es.length)
    | .aggregate ks cs => .ok (some (ks.length + cs.length))
    | .filter _ | .sort _ | .limit .. => a.widthBy through
  | .join j a b => do
    let left ← a.widthBy through
    if j.kind.emitsRight then
      let right ← b.widthBy through
      return do some ((← left) + (← right))
    else return left
  | .group id => through id

/-- The width of a plan, seen through a lookup. -/
def Plan.width (p : Plan) (lookup : Lookup) : Except Fault (Option Nat) :=
  lookup.answer Plan.widthBy p

end PlanOptimizer
