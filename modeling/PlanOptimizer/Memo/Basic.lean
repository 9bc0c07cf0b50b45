import PlanOptimizer.Assoc
import PlanOptimizer.Group.Closure
import PlanOptimizer.Group.Lookup

/-!
# The memo

A memo holds *groups* of plans that are taken to mean the same.  A plan is held as
a *shape*, an operator over groups, so plans share their common parts, and the
groups form a graph.

A group lists its candidates in the order in which they came in.  One of them is
its *representative*: references to the group stand for it.  A candidate that a
forced replacement has set aside is *retired*.  It stays in the list, and it is
never chosen by rank again.

Two kinds of notes are kept on a group.  It is *explored* for a rule that has been
offered its representative, and it is *stale* when a representative further down
has changed since the group was ranked.  Links go both ways: a group lists as its
*parents* the groups with a candidate that refers to it.

The *index* finds the group a shape came into first.  It is keyed by canonical
shapes, so shapes that are the same are found under one key.
-/

namespace PlanOptimizer

/-- What explorations are noted under: two rules share their notes only if they
are of one family and have one name. -/
structure RuleKey where
  /-- The family of the rule. -/
  family : String
  /-- The name of the rule. -/
  name : String
deriving DecidableEq, Repr

/-! ## Groups -/

/-- Candidates that are taken to mean the same. -/
structure Group where
  /-- The number of the group. -/
  id : GroupId
  /-- The candidates, in the order in which they came in. -/
  candidates : List Shape
  /-- The position of the representative. -/
  representative : Nat
  /-- There is a representative. -/
  representative_lt : representative < candidates.length
  /-- The positions of the retired candidates, ascending. -/
  retired : List Nat
  /-- The groups with a candidate that refers to this group, ascending. -/
  parents : List GroupId
  /-- Whether a representative below has changed since the last ranking. -/
  stale : Bool
  /-- The rules that have been offered the representative. -/
  explored : List RuleKey
deriving DecidableEq

namespace Group

/-- A new group with one candidate. -/
def single (id : GroupId) (s : Shape) : Group where
  id := id
  candidates := [s]
  representative := 0
  representative_lt := by simp
  retired := []
  parents := []
  stale := false
  explored := []

/-- The representative. -/
def shape (g : Group) : Shape := g.candidates.get ⟨g.representative, g.representative_lt⟩

/-- The candidates with their positions. -/
def numbered (g : Group) : List (Shape × Nat) := g.candidates.zipIdx

/-- The candidates that are not retired. -/
def live (g : Group) : List Shape :=
  (g.numbered.filter fun c => !g.retired.contains c.2).map Prod.fst

/-- The position of a candidate that is the same as a shape. -/
def position? (g : Group) (s : Shape) : Option Nat := g.candidates.findIdx? (Node.same s)

/-- Whether a candidate is the same as a shape. -/
def holds (g : Group) (s : Shape) : Bool := (g.position? s).isSome

/-- Add a candidate behind the others. -/
def push (g : Group) (s : Shape) : Group :=
  { g with
    candidates := g.candidates ++ [s]
    representative_lt := by
      have := g.representative_lt
      simp; omega }

/-- Make the candidate at a position the representative. -/
def promote (g : Group) (pos : Nat) : Group :=
  if h : pos < g.candidates.length then { g with representative := pos, representative_lt := h }
  else g

/-- Make the candidate at a position the representative and retire all others. -/
def pin (g : Group) (pos : Nat) : Group :=
  if pos < g.candidates.length then
    { g.promote pos with retired := (List.range g.candidates.length).filter (· ≠ pos) }
  else g

/-- Note that a rule has been offered the representative. -/
def explore (g : Group) (key : RuleKey) : Group :=
  { g with explored := if key ∈ g.explored then g.explored else key :: g.explored }

end Group

/-- Put a number into an ascending list of numbers, unless it is there. -/
def insertId (id : Nat) : List Nat → List Nat
  | [] => [id]
  | x :: xs => if id = x then x :: xs else if id < x then id :: x :: xs else x :: insertId id xs

theorem mem_insertId {id x : Nat} {xs : List Nat} : x ∈ insertId id xs ↔ x = id ∨ x ∈ xs := by
  induction xs with
  | nil => simp [insertId]
  | cons y ys ih =>
    by_cases h : id = y
    · subst h; simp [insertId]
    · by_cases h' : id < y
      · simp [insertId, h, h']
      · simp [insertId, h, h', ih, or_left_comm]

/-! ## The memo -/

/-- A graph of groups. -/
structure Memo where
  /-- The groups by their numbers. -/
  groups : List Group
  /-- The group each shape came into first, by canonical shape. -/
  index : Assoc Shape GroupId
deriving DecidableEq

namespace Memo

/-- The memo without groups. -/
def empty : Memo := ⟨[], ∅⟩

/-- The number of groups. -/
def size (m : Memo) : Nat := m.groups.length

/-- The numbers of the groups. -/
def ids (m : Memo) : List GroupId := List.range m.size

/-- The number of candidates in all groups. -/
def candidateCount (m : Memo) : Nat := (m.groups.flatMap fun g => g.candidates).length

/-- A group that has to exist. -/
def group (m : Memo) (id : GroupId) : Except Fault Group :=
  match m.groups[id]? with
  | some g => .ok g
  | none => .error (.unknownGroup id)

/-- The representative of a group that has to exist. -/
def shape (m : Memo) (id : GroupId) : Except Fault Shape := Group.shape <$> m.group id

/-- References to groups stand for their representatives. -/
def lookup (m : Memo) : Lookup where
  known := m.ids
  find id := m.groups[id]?.map fun g => g.shape.overGroups
  known_of_find {id p} h := by
    obtain ⟨g, hg, -⟩ := Option.map_eq_some_iff.mp h
    exact List.mem_range.mpr (List.getElem?_eq_some_iff.mp hg).1

/-- The group that a shape came into first. -/
def home? (m : Memo) (s : Shape) : Option GroupId := m.index.find? s.canon

/-- Change one group. -/
def edit (m : Memo) (id : GroupId) (f : Group → Group) : Memo :=
  { m with groups := m.groups.modify id f }

/-! ## Links -/

/-- The groups that the representative of a group refers to. -/
def children (m : Memo) (id : GroupId) : List GroupId :=
  match m.groups[id]? with
  | some g => g.shape.inputs
  | none => []

/-- The groups with a candidate that refers to a group. -/
def parents (m : Memo) (id : GroupId) : List GroupId :=
  match m.groups[id]? with
  | some g => g.parents
  | none => []

/-- Whether a shape leads to a group through representatives. -/
def leadsTo (m : Memo) (s : Shape) (id : GroupId) : Bool :=
  (closure m.children m.ids s.inputs).contains id

/-- Enter a group as parent of the groups that a shape refers to. -/
def link (m : Memo) (parent : GroupId) (s : Shape) : Memo :=
  s.inputs.foldl
    (fun m child => m.edit child fun g => { g with parents := insertId parent g.parents }) m

/-- The representative of a group has changed: the group and all groups above it
have to be explored again, and those above it have to be ranked again. -/
def invalidate (m : Memo) (id : GroupId) : Memo :=
  let above := closure m.parents m.ids [id]
  let reopen (i : Nat) (g : Group) : Group :=
    if i ∈ above then { g with explored := [], stale := g.stale || decide (i ≠ id) } else g
  { m with groups := m.groups.mapIdx reopen }

end Memo

/-! ## Operations -/

/-- An operation on a memo.  It may fail, and then what it has done to the memo
so far stays done. -/
abbrev Edit := ExceptT Fault (StateM Memo)

namespace Edit

/-- Run an operation on a memo. -/
def runOn {α : Type} (e : Edit α) (m : Memo) : Except Fault α × Memo := StateT.run (ExceptT.run e) m

/-- A question to the memo. -/
def ask {α : Type} (f : Memo → Except Fault α) : Edit α := ExceptT.mk (f <$> get)

end Edit

namespace Memo

/-- A new group for a shape that is in none. -/
def create (s : Shape) : Edit GroupId := do
  let m ← get
  let id := m.size
  let linked := m.link id s
  set (⟨linked.groups ++ [Group.single id s], linked.index.set s.canon id⟩ : Memo)
  return id

/-- The group of a shape, a new one if it is in none. -/
def enter (s : Shape) : Edit GroupId := do
  match (← get).home? s with
  | some id => return id
  | none => create s

/-- Insert a plan, one group per operator, inputs first and from left to right.
The answer is the group of the plan.  A part that is there already is reused, and
a reference has to be to a group that exists. -/
def insert : Plan → Edit GroupId
  | .group id => do
    let _ ← Edit.ask (·.group id)
    return id
  | .scan s => enter (.scan s)
  | .unary op a => do
    let x ← insert a
    enter (.unary op x)
  | .join j a b => do
    let x ← insert a
    let y ← insert b
    enter (.join j x y)

/-- Insert the inputs of an operator and put it over their groups. -/
def insertInputs : Node Plan → Edit Shape
  | .scan s => return .scan s
  | .unary op a => do
    let x ← insert a
    return .unary op x
  | .join j a b => do
    let x ← insert a
    let y ← insert b
    return .join j x y

/-- Note that a rule has been offered the representative of a group. -/
def markExplored (id : GroupId) (key : RuleKey) : Edit Unit := do
  let _ ← Edit.ask (·.group id)
  modify (·.edit id (·.explore key))

end Memo

end PlanOptimizer
