import PlanOptimizer.Estimate.Cost
import PlanOptimizer.Group.Width
import PlanOptimizer.Memo.Basic

/-!
# Offers and ranking

A group is offered plans.  An *alternative* becomes the representative if the
cost model prefers it to the present one, so a tie keeps the earlier candidate.
A *replacement* becomes the representative whatever it costs, and all other
candidates of the group retire.

An offer that is a bare reference says that two groups mean the same: it offers
the representative of the other group.  An offer is refused when it leads back
to its own group through representatives, and when it has another number of
columns than the representative, where both numbers are known.

When a representative changes, the groups above become stale.  `Memo.rerank`
ranks the candidates of a stale group again.
-/

namespace PlanOptimizer

/-- A plan offered to a group. -/
inductive Offer where
  /-- It competes with the representative on cost. -/
  | alternative (p : Plan)
  /-- It becomes the representative. -/
  | replacement (p : Plan)
deriving DecidableEq, Repr

/-- The plan that is offered. -/
def Offer.plan : Offer → Plan
  | .alternative p => p
  | .replacement p => p

/-- Whether an offer has to be taken. -/
def Offer.forced : Offer → Bool
  | .alternative _ => false
  | .replacement _ => true

/-- What became of an offer. -/
inductive Outcome where
  /-- The group held it already. -/
  | duplicate
  /-- It came in beside the representative. -/
  | added
  /-- It is the representative now. -/
  | newRepresentative
deriving DecidableEq, Repr

/-- Whether an offer has brought anything new. -/
def Outcome.isChange (o : Outcome) : Bool := decide (o ≠ .duplicate)

namespace Memo

/-! ## Offers -/

/-- The shape to be offered to a group: nothing for a reference to the group
itself, the representative of the other group for another reference, and for an
operator its shape over the groups of its inputs. -/
def offered (id : GroupId) (p : Plan) : Edit (Option Shape) := do
  match p with
  | .group other => if other = id then return none else some <$> Edit.ask (·.shape other)
  | .scan s => some <$> insertInputs (.scan s)
  | .unary op a => some <$> insertInputs (.unary op a)
  | .join j a b => some <$> insertInputs (.join j a b)

/-- Refuse a shape that leads back to its own group, and one that has another
number of columns than the representative. -/
def vet (m : Memo) (id : GroupId) (s : Shape) : Except Fault Unit := do
  if m.leadsTo s id then throw (.selfReference id)
  let current ← m.shape id
  let expected ← current.overGroups.width m.lookup
  let actual ← s.overGroups.width m.lookup
  match expected, actual with
  | some e, some a => if e = a then return () else throw (.columnCount id e a)
  | _, _ => return ()

/-- Whether the cost model prefers a shape to the representative of a group. -/
def prefers (m : Memo) (model : CostModel) (id : GroupId) (s : Shape) : Except Fault Bool := do
  let current ← m.shape id
  let order ← model.compare s.overGroups current.overGroups m.lookup
  return decide (order = .lt)

/-- Force the candidate at a position: all others retire. -/
def force (m : Memo) (id : GroupId) (pos : Nat) : Memo := m.edit id (·.pin pos)

/-- Add a candidate to a group that does not hold it. -/
def attach (m : Memo) (id : GroupId) (s : Shape) : Memo :=
  let linked := m.link id s
  let index := if (linked.home? s).isSome then linked.index else linked.index.set s.canon id
  { linked with index := index }.edit id (·.push s)

/-- Place a vetted shape in a group. -/
def place (model : CostModel) (id : GroupId) (s : Shape) (forced : Bool) : Edit Outcome := do
  let m ← get
  let g ← Edit.ask (·.group id)
  match g.position? s with
  | some pos =>
    if forced then
      if pos = g.representative then
        set (m.force id pos)
        return .duplicate
      else
        set ((m.force id pos).invalidate id)
        return .newRepresentative
    else return .duplicate
  | none =>
    let wins ← if forced then pure true else Edit.ask (·.prefers model id s)
    let last := g.candidates.length
    let grown := m.attach id s
    if wins then
      let chosen := if forced then grown.force id last else grown.edit id (·.promote last)
      set (chosen.invalidate id)
      return .newRepresentative
    else
      set grown
      return .added

/-- Offer a plan to a group. -/
def offer (model : CostModel) (id : GroupId) (o : Offer) : Edit Outcome := do
  let _ ← Edit.ask (·.group id)
  match ← offered id o.plan with
  | none => return .duplicate
  | some s =>
    Edit.ask (·.vet id s)
    place model id s o.forced

/-! ## Ranking -/

/-- The best of some candidates and the best one so far.  A candidate has to be
preferred, or to rank equal and to have come in earlier, and it must not lead
back to the group. -/
def best (m : Memo) (model : CostModel) (id : GroupId) :
    Shape × Nat → List (Shape × Nat) → Except Fault (Shape × Nat)
  | b, [] => .ok b
  | b, c :: cs => do
    let order ← model.compare c.1.overGroups b.1.overGroups m.lookup
    let wins := decide (order = .lt) || decide (order = .eq) && decide (c.2 < b.2)
    if wins && !m.leadsTo c.1 id then m.best model id c cs else m.best model id b cs

/-- The candidates that challenge the representative of a group. -/
def challengers (g : Group) : List (Shape × Nat) :=
  g.numbered.filter fun c => decide (c.2 ≠ g.representative) && !g.retired.contains c.2

/-- Rank the candidates of a stale group again.  The answer says whether it has
another representative now. -/
def rerank (model : CostModel) (id : GroupId) : Edit Bool := do
  let m ← get
  let g ← Edit.ask (·.group id)
  if !g.stale then return false
  let winner ← Edit.ask (·.best model id (g.shape, g.representative) (challengers g))
  let fresh := m.edit id fun g => { g with stale := false }
  if winner.2 = g.representative then
    set fresh
    return false
  else
    set ((fresh.edit id (·.promote winner.2)).invalidate id)
    return true

end Memo

end PlanOptimizer
