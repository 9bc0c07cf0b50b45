import PlanOptimizer.Expr.Conjuncts
import PlanOptimizer.Group.Tables
import PlanOptimizer.Rule.Basic

/-!
# Routing conjuncts through joins

A filter over an inner or cross join is taken apart.  A conjunct that mentions
tables of the left input only goes down to the left input, one that mentions
tables of the right input only goes down to the right, and every other conjunct
joins the condition.  A conjunct that mentions no table is among the others.

The routed join is an alternative: the cost model decides.
-/

namespace PlanOptimizer.Rule

/-- Whether a predicate mentions some tables, and only tables among `names`. -/
def confined (names : List String) (p : Expr) : Bool :=
  !p.tables.isEmpty && p.tables.all names.contains

/-- A plan under a filter for some predicates.  Without predicates there is no
filter. -/
def filteredBy (predicates : List Expr) (p : Plan) : Plan :=
  if predicates.isEmpty then p else .filter (Expr.conjunction predicates) p

/-- The kind of a join under a condition: a cross join with a condition is an inner
join. -/
def conditioned (kind : JoinKind) (condition : Expr) : JoinKind :=
  if kind = .cross ∧ condition.isTrue = false then .inner else kind

/-- The routed join, given the tables of both inputs. -/
def routed (predicate : Expr) (j : Join) (left right : Plan) (leftNames rightNames : List String) :
    Plan :=
  let toLeft (p : Expr) : Bool := confined leftNames p
  let toRight (p : Expr) : Bool := !toLeft p && confined rightNames p
  let stays (p : Expr) : Bool := !toLeft p && !toRight p
  let conjuncts := predicate.conjuncts
  let condition := Expr.conjunction (j.condition.conjuncts ++ conjuncts.filter stays)
  .join ⟨conditioned j.kind condition, condition⟩
    (filteredBy (conjuncts.filter toLeft) left) (filteredBy (conjuncts.filter toRight) right)

/-- Whether predicates may move between a join's condition and its inputs. -/
def movable : JoinKind → Bool
  | .inner | .cross => true
  | _ => false

/-- The offers for a filter over a join. -/
def routedFilter (lookup : Lookup) : Plan → Except Fault (List Offer)
  | .filter predicate input => do
    match ← lookup.expose input with
    | .join j left right =>
      if movable j.kind then
        let leftNames ← left.tables lookup
        let rightNames ← right.tables lookup
        return [.alternative (routed predicate j left right leftNames rightNames)]
      else return []
    | _ => return []
  | _ => return []

/-- Routes the conjuncts of a filter through the join below it. -/
def routePredicates : Rule where
  name := "PredicatePushdown"
  family := "PredicatePushdown"
  pattern := .filterOverJoin
  apply _ lookup p := routedFilter lookup p

end PlanOptimizer.Rule
