import PlanOptimizer.Group.Lookup

/-!
# Patterns

A pattern describes the top of a plan.  Tested on the top alone, a pattern asks
for the kind of the operator and the number of its inputs.  Tested in full, it
also asks its input patterns of the inputs, and sees through group references
wherever an input pattern constrains an input.  The pattern `any` never looks.
-/

namespace PlanOptimizer

/-- A description of the top of a plan. -/
inductive Pattern where
  /-- Any plan, group references included. -/
  | any
  /-- An operator without inputs. -/
  | leaf
  /-- An operator of a kind over inputs that fit the input patterns. -/
  | operator (kind : Kind) (inputs : List Pattern)
deriving Repr

namespace Pattern

/-- An operator of a kind over any inputs. -/
def ofKind (kind : Kind) (inputs : Nat) : Pattern := .operator kind (List.replicate inputs .any)

/-- A filter. -/
def filter : Pattern := .ofKind .filter 1

/-- A join. -/
def join : Pattern := .ofKind .join 2

/-- A scan. -/
def scan : Pattern := .operator .scan []

/-- A filter over a filter. -/
def filterOverFilter : Pattern := .operator .filter [.filter]

/-- A filter over a join. -/
def filterOverJoin : Pattern := .operator .filter [.join]

/-- A projection over a scan. -/
def projectOverScan : Pattern := .operator .project [.scan]

/-- A join whose left input is a join. -/
def joinOverLeftJoin : Pattern := .operator .join [.join, .any]

/-- Whether a pattern accepts everything. -/
def isAny : Pattern → Bool
  | .any => true
  | _ => false

/-- Whether a pattern constrains an input of the operator. -/
def inspectsInputs : Pattern → Bool
  | .operator _ inputs => inputs.any fun p => !p.isAny
  | _ => false

/-- The test on the top of a plan alone. -/
def fitsTop (pattern : Pattern) (p : Plan) : Bool :=
  match pattern with
  | .any => true
  | .leaf => decide (p.kind ≠ .group) && decide (p.arity = 0)
  | .operator kind inputs => decide (p.kind = kind) && decide (p.arity = inputs.length)

mutual

/-- The full test, seen through a lookup. -/
def fits (lookup : Lookup) : Pattern → Plan → Except Fault Bool
  | .any, _ => .ok true
  | .leaf, p => do
    let top ← lookup.settle p
    return fitsTop .leaf top.plan
  | .operator kind inputs, p => do
    let top ← lookup.settle p
    if fitsTop (.operator kind inputs) top.plan then fitsAll lookup inputs top.inputs
    else return false

/-- The full test of input patterns on inputs, from left to right.  The first
input that does not fit ends it. -/
def fitsAll (lookup : Lookup) : List Pattern → List Plan → Except Fault Bool
  | pattern :: patterns, p :: ps => do
    if ← fits lookup pattern p then fitsAll lookup patterns ps else return false
  | _, _ => .ok true

end

end Pattern

end PlanOptimizer
