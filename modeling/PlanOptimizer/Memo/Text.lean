import PlanOptimizer.Memo.Basic
import PlanOptimizer.Plan.Text

/-!
# Text of memos

A memo is shown group by group, with a line for each candidate.  The
representative is marked with `*` and a retired candidate with `-`.
-/

namespace PlanOptimizer

/-- The mark of a candidate. -/
def Group.mark (g : Group) (pos : Nat) : String :=
  if pos = g.representative then "*" else if g.retired.contains pos then "-" else " "

/-- The line of a candidate: its header and the groups it refers to. -/
def Group.line (g : Group) (c : Shape × Nat) : String :=
  let children := c.1.inputs.map fun id => "#" ++ toString id
  let arrow := if children.isEmpty then "" else " -> " ++ joinWith ", " children
  "  " ++ g.mark c.2 ++ " " ++ c.1.header ++ arrow ++ "\n"

/-- A group under its number. -/
def Group.text (g : Group) : String :=
  let parents :=
    if g.parents.isEmpty then ""
    else " (parents: " ++ joinWith ", " (g.parents.map toString) ++ ")"
  "Group#" ++ toString g.id ++ parents ++ "\n" ++ String.join (g.numbered.map g.line)

/-- All groups of a memo. -/
def Memo.text (m : Memo) : String :=
  String.join (m.groups.map Group.text)

/-- A memo in short: how many groups and candidates it has. -/
def Memo.summary (m : Memo) : String :=
  "Memo \x7b groups: " ++ toString m.size ++ ", candidates: " ++ toString m.candidateCount
    ++ ", .. \x7d"

end PlanOptimizer
