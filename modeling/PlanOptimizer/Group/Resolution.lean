import PlanOptimizer.Group.Closure
import PlanOptimizer.Group.Lookup

/-!
# Resolution

Resolving a plan replaces every group reference, at every depth, by the plan of
the group, until no reference is left.  It is done from left to right with an
explicit agenda of tasks, so the depth of a plan costs no stack.  A group that is
met again after it has been resolved is not resolved again: its plan is kept and
shared.

The known groups are at any time either *fresh* (not met yet), *open* (met and
not finished) or *resolved*.  Meeting an open group again is a cyclic reference.
Opening a group takes it out of the fresh ones, so the agenda runs empty.
-/

namespace PlanOptimizer

/-- Something left to do. -/
inductive Task where
  /-- Resolve a plan. -/
  | visit (p : Plan)
  /-- Put an operator on top of the last result. -/
  | unary (op : Unary)
  /-- Put a join on top of the last two results. -/
  | join (op : Join)
  /-- Keep the last result as the plan of a group. -/
  | close (id : GroupId)

/-- What is resolved so far. -/
structure Progress where
  /-- The known groups that have not been met. -/
  fresh : List GroupId
  /-- The groups that are finished, with their plans. -/
  resolved : List (GroupId × Plan)
  /-- The results not yet built into a larger plan, the last one first. -/
  results : List Plan

namespace Task

/-- An upper bound on the tasks that a task leads to, references aside. -/
def weight : Task → Nat
  | .visit p => 2 * p.nodeCount
  | _ => 1

/-- The weight of an agenda. -/
def weights : List Task → Nat
  | [] => 0
  | t :: ts => t.weight + weights ts

/-- The weight of the tasks that opening a group leads to. -/
def opening (lookup : Lookup) (id : GroupId) : Nat :=
  match lookup.find id with
  | some p => 2 * p.nodeCount + 1
  | none => 0

/-- The weight of the tasks that opening some groups leads to. -/
def reserve (lookup : Lookup) : List GroupId → Nat
  | [] => 0
  | id :: ids => opening lookup id + reserve lookup ids

theorem reserve_without_le (lookup : Lookup) (id : GroupId) (ids : List GroupId) :
    reserve lookup (without id ids) ≤ reserve lookup ids := by
  induction ids with
  | nil => exact Nat.le_refl _
  | cons x xs ih => by_cases hx : x = id <;> simp [without_cons, hx, reserve] <;> omega

/-- Taking a group out of the fresh ones pays for the tasks of opening it. -/
theorem reserve_without (lookup : Lookup) {id : GroupId} {ids : List GroupId} (h : id ∈ ids) :
    reserve lookup (without id ids) + opening lookup id ≤ reserve lookup ids := by
  induction ids with
  | nil => simp at h
  | cons x xs ih =>
    by_cases hx : x = id
    · have := reserve_without_le lookup id xs
      simp [without_cons, hx, reserve]; omega
    · have := ih (by simpa [Ne.symm hx] using h)
      simp [without_cons, hx, reserve]; omega

end Task

namespace Lookup

/-- Work through an agenda.  The answer is the last result, if there is one. -/
@[semireducible] def resolveAll (lookup : Lookup) (agenda : List Task) (s : Progress) :
    Except Fault (Option Plan) :=
  match agenda with
  | [] => .ok s.results.head?
  | .visit (.scan op) :: rest =>
    lookup.resolveAll rest { s with results := .scan op :: s.results }
  | .visit (.unary op a) :: rest => lookup.resolveAll (.visit a :: .unary op :: rest) s
  | .visit (.join op a b) :: rest =>
    lookup.resolveAll (.visit a :: .visit b :: .join op :: rest) s
  | .visit (.group id) :: rest =>
    match s.resolved.lookup id with
    | some p => lookup.resolveAll rest { s with results := p :: s.results }
    | none =>
      match _hfind : lookup.find id with
      | none => .error (.unknownGroup id)
      | some p =>
        if _hfresh : id ∈ s.fresh then
          lookup.resolveAll (.visit p :: .close id :: rest)
            { s with fresh := without id s.fresh }
        else .error (.cyclicReference id)
  | .unary op :: rest =>
    match s.results with
    | a :: done => lookup.resolveAll rest { s with results := .unary op a :: done }
    | [] => lookup.resolveAll rest s
  | .join op :: rest =>
    match s.results with
    | b :: a :: done => lookup.resolveAll rest { s with results := .join op a b :: done }
    | _ => lookup.resolveAll rest s
  | .close id :: rest =>
    match s.results with
    | p :: _ => lookup.resolveAll rest { s with resolved := (id, p) :: s.resolved }
    | [] => lookup.resolveAll rest s
termination_by Task.reserve lookup s.fresh + Task.weights agenda
decreasing_by
  all_goals simp only [Task.weights, Task.weight, Plan.nodeCount]
  all_goals try omega
  have := Task.reserve_without lookup _hfresh
  simp only [Task.opening, _hfind] at this
  omega

end Lookup

/-- Replace every group reference of a plan by the plan of the group. -/
def Plan.resolve (p : Plan) (lookup : Lookup) : Except Fault Plan := do
  let result ← lookup.resolveAll [.visit p] ⟨lookup.known, [], []⟩
  return result.getD p

end PlanOptimizer
