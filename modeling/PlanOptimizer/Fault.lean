import PlanOptimizer.Plan.Text

/-!
# Faults

What can stop an optimization.  Most faults mean that a rule or a caller broke
the consistency of the groups.  A rule or a cost model may also fail on its own
account.  Two faults only say that a budget ran out: they carry the best plan
found so far, and a caller may go on with it.
-/

namespace PlanOptimizer

/-- A reason to stop. -/
inductive Fault where
  /-- A reference to a group that does not exist. -/
  | unknownGroup (id : GroupId)
  /-- An operator was given the wrong number of inputs. -/
  | inputCount (kind : Kind) (expected actual : Nat)
  /-- A candidate has another number of columns than its group. -/
  | columnCount (group : GroupId) (expected actual : Nat)
  /-- A candidate would make its group a part of itself. -/
  | selfReference (group : GroupId)
  /-- A group is part of its own plan. -/
  | cyclicReference (group : GroupId)
  /-- A rule or a cost model failed. -/
  | ruleFailed (rule message : String)
  /-- The passes ran out. -/
  | notConverged (passes : Nat) (best : Plan)
  /-- There are more groups than allowed. -/
  | tooManyGroups (groups : Nat) (best : Plan)
deriving DecidableEq, Repr

namespace Fault

/-- The text shown for a fault. -/
def message : Fault → String
  | .unknownGroup id => "unknown group " ++ toString id
  | .inputCount kind expected actual =>
    kind.text ++ " expects " ++ toString expected ++ " children, got " ++ toString actual
  | .columnCount group expected actual =>
    "candidate for group " ++ toString group ++ " produces " ++ toString actual
      ++ " columns, group produces " ++ toString expected
  | .selfReference group =>
    "candidate for group " ++ toString group ++ " references its own group"
  | .cyclicReference group =>
    "group " ++ toString group ++ " is reachable from its own representative"
  | .ruleFailed rule message => "rule '" ++ rule ++ "' failed: " ++ message
  | .notConverged passes _ =>
    "optimizer did not converge after " ++ toString passes ++ " passes"
  | .tooManyGroups groups _ =>
    "memo grew to " ++ toString groups ++ " groups, exceeding the configured limit"

/-- The plan to go on with, when only a budget ran out. -/
def best? : Fault → Option Plan
  | .notConverged _ best => some best
  | .tooManyGroups _ best => some best
  | _ => none

/-- Whether a caller may go on. -/
def recoverable (f : Fault) : Bool := f.best?.isSome

end Fault

instance {α : Type} [DecidableEq α] : DecidableEq (Except Fault α)
  | .ok a, .ok b => decidable_of_iff (a = b) (by simp)
  | .error f, .error g => decidable_of_iff (f = g) (by simp)
  | .ok _, .error _ => .isFalse (by simp)
  | .error _, .ok _ => .isFalse (by simp)

/-- The same top operator over other inputs. -/
def Plan.withInputs (p : Plan) (inputs : List Plan) : Except Fault Plan :=
  match p.withInputs? inputs with
  | some q => .ok q
  | none => .error (.inputCount p.kind p.arity inputs.length)

/-- Only the number of inputs matters. -/
theorem Plan.withInputs?_isSome (p : Plan) (inputs : List Plan) :
    (p.withInputs? inputs).isSome = true ↔ inputs.length = p.arity := by
  rcases inputs with _ | ⟨a, _ | ⟨b, _ | ⟨c, rest⟩⟩⟩ <;> cases p <;>
    first
    | (rename_i op _; cases op <;> simp [withInputs?, arity, kind, Unary.kind, Kind.arity])
    | simp [withInputs?, arity, kind, Kind.arity]

end PlanOptimizer
