import PlanOptimizer.Fixpoint.Limits
import PlanOptimizer.Group.Resolution
import PlanOptimizer.Rule.Basic

/-!
# Running rules to a fixpoint

A plan is inserted into an empty memo, and then passes are made until one of them
changes nothing.

A pass walks the groups from the root down.  It follows the representatives as
they are when a group has been explored, so the children it visits are those of
the new parent, and it visits each group once.

To *explore* a group is to rank it again if it is stale, and then to offer its
representative to every active rule that has not seen it.  The note that a rule
has seen it is made before the rule is tried.  A new representative wipes the
notes of its group and of all groups above it, so the next pass comes back to
them.

Two budgets bound a run.  When the passes run out, or there are more groups than
allowed, the fault carries the plan found so far.
-/

namespace PlanOptimizer

/-- What an optimization works with. -/
structure Optimizer where
  /-- The rules. -/
  registry : Registry
  /-- The model that ranks plans. -/
  model : CostModel
  /-- The known tables. -/
  catalog : Catalog Float
  /-- The budgets. -/
  limits : Limits

/-- What exploring has brought. -/
structure Tally where
  /-- Whether a candidate came in or a representative moved. -/
  changed : Bool := false
  /-- How often a rule was applied. -/
  applications : Nat := 0
deriving DecidableEq, Repr

/-- What two explorations have brought together. -/
def Tally.add (a b : Tally) : Tally := ⟨a.changed || b.changed, a.applications + b.applications⟩

/-- How a run came to its end. -/
structure Convergence where
  /-- The passes made, the last one included. -/
  passes : Nat
  /-- How often a rule was applied. -/
  applications : Nat
deriving DecidableEq, Repr

/-- An optimized plan. -/
structure Optimized where
  /-- The plan, without references. -/
  plan : Plan
  /-- The group of the plan. -/
  root : GroupId
  /-- How the run ended. -/
  convergence : Convergence
  /-- The memo the plan was found in. -/
  memo : Memo

namespace Memo

/-- The plan a group stands for. -/
def best? (m : Memo) (id : GroupId) : Except Fault Plan := (Plan.group id).resolve m.lookup

end Memo

namespace Optimizer

/-- The rules that are active. -/
def rules (o : Optimizer) : List Rule := o.registry.active o.limits.source

/-- Stop if there are more groups than allowed. -/
def checkSize (o : Optimizer) (root : GroupId) (m : Memo) : Except Fault Unit :=
  if m.size ≤ o.limits.groups then .ok ()
  else do
    let best ← m.best? root
    .error (.tooManyGroups m.size best)

/-- Offer plans to a group, one after the other. -/
def offerAll (o : Optimizer) (id : GroupId) : List Offer → Edit Bool
  | [] => return false
  | x :: xs => do
    let outcome ← Memo.offer o.model id x
    let rest ← o.offerAll id xs
    return outcome.isChange || rest

/-- Offer the representative of a group to a rule, unless the rule has seen it. -/
def tryRule (o : Optimizer) (root : GroupId) (pass : Nat) (id : GroupId) (rule : Rule) :
    Edit Tally := do
  let g ← Edit.ask (·.group id)
  if rule.key ∈ g.explored then return {}
  Memo.markExplored id rule.key
  let p := g.shape.overGroups
  if ← Edit.ask fun m => rule.applies m.lookup p then
    let context : Context := ⟨o.catalog, o.model, id, pass⟩
    let offers ← Edit.ask fun m => rule.apply context m.lookup p
    let changed ← o.offerAll id offers
    Edit.ask (o.checkSize root)
    return ⟨changed, 1⟩
  else return {}

/-- Offer the representative of a group to some rules, one after the other. -/
def tryRules (o : Optimizer) (root : GroupId) (pass : Nat) (id : GroupId) :
    List Rule → Edit Tally
  | [] => return {}
  | rule :: rules => do
    let first ← o.tryRule root pass id rule
    let rest ← o.tryRules root pass id rules
    return first.add rest

/-- Rank a group again and offer its representative to all active rules. -/
def explore (o : Optimizer) (root : GroupId) (pass : Nat) (id : GroupId) : Edit Tally := do
  let moved ← Memo.rerank o.model id
  let tally ← o.tryRules root pass id o.rules
  return Tally.add ⟨moved, 0⟩ tally

/-- Explore the pending groups and what is below them, at most `budget` groups.
Every group explored is a group of the memo.  So a budget of as many groups as there
are at the start or, if more are allowed, as are allowed does not run out. -/
def walk (o : Optimizer) (root : GroupId) (pass : Nat) :
    Nat → List GroupId → List GroupId → Edit Tally
  | budget, visited, pending =>
    match pending.dropWhile visited.contains with
    | [] => return {}
    | id :: rest =>
      match budget with
      | 0 => do
        let best ← Edit.ask (·.best? root)
        throw (.tooManyGroups (visited.length + 1) best)
      | budget + 1 => do
        let here ← o.explore root pass id
        let s ← Edit.ask (·.shape id)
        let below ← o.walk root pass budget (id :: visited) (s.inputs ++ rest)
        return here.add below

/-- One pass from the root down. -/
def runPass (o : Optimizer) (root : GroupId) (pass : Nat) : Edit Tally := do
  let m ← get
  o.walk root pass (max m.size o.limits.groups) [] [root]

/-- Make passes until one changes nothing, at most `left` more. -/
def runPasses (o : Optimizer) (root : GroupId) : (left : Nat) → Convergence → Edit Convergence
  | 0, c => do
    let best ← Edit.ask (·.best? root)
    throw (.notConverged c.passes best)
  | left + 1, c => do
    let tally ← o.runPass root (c.passes + 1)
    let c : Convergence := ⟨c.passes + 1, c.applications + tally.applications⟩
    if tally.changed then o.runPasses root left c else return c

/-- Optimize a group of a memo. -/
def optimizeIn (o : Optimizer) (root : GroupId) : Edit Convergence := do
  let _ ← Edit.ask (·.group root)
  o.runPasses root (max o.limits.passes 1) ⟨0, 0⟩

/-- Insert a plan and optimize its group. -/
def optimizeInto (o : Optimizer) (p : Plan) : Edit (GroupId × Convergence × Plan) := do
  let root ← Memo.insert p
  Edit.ask (o.checkSize root)
  let c ← o.optimizeIn root
  let best ← Edit.ask (·.best? root)
  return (root, c, best)

/-- Optimize a plan. -/
def optimize (o : Optimizer) (p : Plan) : Except Fault Optimized :=
  match (o.optimizeInto p).runOn .empty with
  | (.ok (root, c, best), m) => .ok ⟨best, root, c, m⟩
  | (.error f, _) => .error f

end Optimizer

/-- The cost of an optimized plan. -/
def Optimized.cost (r : Optimized) (model : CostModel) : Except Fault Float :=
  model.cost r.plan r.memo.lookup

end PlanOptimizer
