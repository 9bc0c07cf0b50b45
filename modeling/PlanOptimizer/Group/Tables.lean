import PlanOptimizer.Group.Closure
import PlanOptimizer.Group.Lookup

/-!
# Tables below a plan

The names of the tables scanned below a plan, seen through a lookup.  Each group
is visited once, so references may lead in circles.  Inputs are visited from
right to left, which decides what group is reported when several are unknown.
-/

namespace PlanOptimizer

/-- The names of the tables a plan scans itself, from left to right. -/
def Plan.scanned : Plan → List String
  | .scan s => [s.table.name]
  | .unary _ a => a.scanned
  | .join _ a b => a.scanned ++ b.scanned
  | .group _ => []

namespace Lookup

/-- The groups the plan of a group refers to, from right to left. -/
def links (lookup : Lookup) (id : GroupId) : List GroupId :=
  match lookup.find id with
  | some p => p.groups.reverse
  | none => []

/-- Every group below a plan, in the order of the visit. -/
def below (lookup : Lookup) (p : Plan) : List GroupId :=
  closure lookup.links (p.groups ++ lookup.known.flatMap lookup.links) p.groups.reverse

/-- The plans of some groups, or the first group among them that has none. -/
def getAll (lookup : Lookup) : List GroupId → Except Fault (List Plan)
  | [] => .ok []
  | id :: ids => do
    let p ← lookup.get id
    return p :: (← lookup.getAll ids)

end Lookup

/-- The names of the tables scanned below a plan, with repetitions. -/
def Plan.tables (p : Plan) (lookup : Lookup) : Except Fault (List String) := do
  let plans ← lookup.getAll (lookup.below p)
  return p.scanned ++ plans.flatMap Plan.scanned

end PlanOptimizer
