import PlanOptimizer.Fault

/-!
# Looking up groups

A group reference stands for the plan that a *lookup* gives for it.  A lookup
knows finitely many groups, and the plan of a group may refer to further groups,
or back to the same one.

`Lookup.answer` asks a question through a lookup.  The question is a function on
plans that is told how to answer for the references it meets.  A chain of
distinct known groups is never longer than the list of known groups, so a chain
that is longer has come back to a group: the answer there is a cyclic reference.
-/

namespace PlanOptimizer

/-- What group references stand for. -/
structure Lookup where
  /-- The groups that have a plan. -/
  known : List GroupId
  /-- The plan of a group. -/
  find : GroupId → Option Plan
  /-- Only known groups have a plan. -/
  known_of_find : ∀ {id : GroupId} {p : Plan}, find id = some p → id ∈ known

namespace Lookup

/-- The lookup that knows no group. -/
def empty : Lookup where
  known := []
  find _ := none
  known_of_find h := nomatch h

/-- The lookup that reads a table.  A later row of a group replaces an earlier
one. -/
def ofTable (rows : List (GroupId × Plan)) : Lookup where
  known := rows.map Prod.fst
  find id := (rows.reverse.find? fun row => row.1 == id).map Prod.snd
  known_of_find {id p} h := by
    obtain ⟨row, hrow, -⟩ := Option.map_eq_some_iff.mp h
    have hmem := List.mem_reverse.mp (List.mem_of_find?_eq_some hrow)
    have hid : row.1 = id := by simpa using List.find?_some hrow
    exact hid ▸ List.mem_map_of_mem hmem

/-- The plan of a group that has to exist. -/
def get (lookup : Lookup) (id : GroupId) : Except Fault Plan :=
  match lookup.find id with
  | some p => .ok p
  | none => .error (.unknownGroup id)

/-- See through one reference. -/
def expose (lookup : Lookup) : Plan → Except Fault Plan
  | .group id => lookup.get id
  | p => .ok p

/-! ## Asking through references -/

/-- Ask a question of a group, following references at most `hops` groups deep. -/
def answerWithin {β : Type} (lookup : Lookup)
    (question : (GroupId → Except Fault β) → Plan → Except Fault β) :
    Nat → GroupId → Except Fault β
  | 0, id => do
    let _ ← lookup.get id
    .error (.cyclicReference id)
  | hops + 1, id => do
    let p ← lookup.get id
    question (lookup.answerWithin question hops) p

/-- Ask a question of a plan, following references as far as they lead. -/
def answer {β : Type} (lookup : Lookup)
    (question : (GroupId → Except Fault β) → Plan → Except Fault β) (p : Plan) : Except Fault β :=
  question (lookup.answerWithin question lookup.known.length) p

/-- Follow references until an operator is met. -/
def settleBy (through : GroupId → Except Fault (Node Plan)) : Plan → Except Fault (Node Plan)
  | .scan s => .ok (.scan s)
  | .unary op a => .ok (.unary op a)
  | .join j a b => .ok (.join j a b)
  | .group id => through id

/-- The first operator a plan leads to. -/
def settle (lookup : Lookup) (p : Plan) : Except Fault (Node Plan) := lookup.answer settleBy p

end Lookup

end PlanOptimizer
