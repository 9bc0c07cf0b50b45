import Mathlib.Data.Multiset.AddSub
import PlanOptimizer.Proofs.Rules.Conserved

/-!
# The items of a plan

A plan is made of tables, of operators with one input, and of joins.  The standard rules move
filters and clauses about, narrow scans, and exchange and nest inner and cross joins.  All else
they leave: every offer has the *items* of the shape that it is made for, as often as that has
them (`Rewrite.items`).

An inner join and a cross join are one item, whatever the condition is.  A rule may give a cross
join a condition, and it is an inner join then.
-/

namespace PlanOptimizer

open Rule

/-- Something a plan is made of. -/
inductive Item where
  /-- A table that is scanned. -/
  | table (name : TableName)
  /-- A projection, an aggregation, a sort or a limit, up to the spelling of literals. -/
  | operator (op : Unary)
  /-- An inner or cross join. -/
  | pairing
  /-- A join of another kind, up to the spelling of literals. -/
  | join (op : Join)
deriving DecidableEq

/-- The item of an operator with one input.  A filter is none. -/
def Unary.items (op : Unary) : List Item :=
  if op.kind = .filter then [] else [.operator op.canon]

/-- The item of a join. -/
def Join.item (j : Join) : Item := if movable j.kind then .pairing else .join j.canon

/-- What a plan is made of, from left to right and from the top down. -/
def Plan.items : Plan → List Item
  | .scan s => [.table s.table]
  | .unary op a => op.items ++ a.items
  | .join j a b => j.item :: (a.items ++ b.items)
  | .group _ => []

theorem Unary.kind_canon (op : Unary) : op.canon.kind = op.kind := by cases op <;> rfl

/-- What a plan is made of, in any order. -/
def Meaning.items : Meaning (Multiset Item) where
  scan s := {.table s.table}
  unary op v := op.items + v
  join j v w := j.item ::ₘ (v + w)
  scan_same {a b} h := by
    have htable : a.table = b.table := (Scan.mk.inj h).1
    rw [htable]
  unary_same {a b} v h := by
    have hkind : a.kind = b.kind := by rw [← a.kind_canon, h, b.kind_canon]
    rw [Unary.items, Unary.items, hkind, h]
  join_same {a b} v w h := by
    have hkind : a.kind = b.kind := (Join.mk.inj h).1
    rw [Join.item, Join.item, hkind, h]

variable {D : GroupId → Multiset Item}

/-- What a plan without references is made of. -/
theorem Meaning.items_value {p : Plan} (hp : p.hasGroups = false) :
    Meaning.items.value D p = p.items := by
  induction p with
  | scan s => rfl
  | unary op a ih =>
    show (op.items : Multiset Item) + Meaning.items.value D a = _
    rw [ih hp, Plan.items, Multiset.coe_add]
  | join j a b iha ihb =>
    obtain ⟨ha, hb⟩ := Bool.or_eq_false_iff.mp hp
    show j.item ::ₘ (Meaning.items.value D a + Meaning.items.value D b) = _
    rw [iha ha, ihb hb, Plan.items, Multiset.coe_add, Multiset.cons_coe]
  | group id => cases hp

/-! ## Rewrites -/

theorem items_filteredBy (ps : List Expr) (p : Plan) :
    Meaning.items.value D (filteredBy ps p) = Meaning.items.value D p := by
  unfold filteredBy
  split
  · rfl
  · exact Multiset.zero_add _

variable {m : Memo} {s : Shape} {x : Offer}

/-- Every rewrite keeps the items. -/
theorem Rewrite.items (h : Rewrite m s x)
    (hD : ∀ id t, m.rep? id = some t → Meaning.items.shape D t = D id) :
    Meaning.items.value D x.plan = Meaning.items.shape D s := by
  have hfilter : ∀ (p : Expr) (v : Multiset Item), Meaning.items.unary (.filter p) v = v :=
    fun p v => Multiset.zero_add v
  have hjoin : ∀ {j : Join} {v w}, movable j.kind = true →
      Meaning.items.join j v w = .pairing ::ₘ (v + w) := fun {j v w} h => by
    have hitem : j.item = .pairing := if_pos h
    show j.item ::ₘ (v + w) = _
    rw [hitem]
  cases h with
  | @trivial p y htrue => exact (hfilter p (D y)).symm
  | @merge outer inner y z hy =>
    have hinput : Meaning.items.unary (.filter inner) (D z) = D y := hD y _ hy
    show Meaning.items.unary (.filter _) (D z) = Meaning.items.unary (.filter outer) (D y)
    rw [← hinput, hfilter, hfilter, hfilter]
  | @route p j y l r lefts rights hy hmovable =>
    have hinput : Meaning.items.join j (D l) (D r) = D y := hD y _ hy
    show Meaning.items.value D (routed p j (.group l) (.group r) lefts rights) =
      Meaning.items.unary (.filter p) (D y)
    rw [hfilter, ← hinput, hjoin hmovable]
    show Meaning.items.join _ _ _ = _
    rw [hjoin (movable_conditioned hmovable _), items_filteredBy, items_filteredBy]
    rfl
  | prune hy =>
    rw [Meaning.shape, ← hD _ _ hy]
    rfl
  | @swap j a b hsym =>
    have hmovable : movable j.kind = true := by rcases hsym with h | h <;> rw [h] <;> rfl
    have hswapped : Meaning.items.join ⟨j.kind, swapSides j.condition⟩ (D b) (D a) =
        .pairing ::ₘ (D b + D a) := hjoin hmovable
    show _ = Meaning.items.join j (D a) (D b)
    rw [hjoin hmovable, Multiset.add_comm]
    exact hswapped
  | @rotate outer inner y a b c stay move moving last q hy hsides hq =>
    have hinner : Meaning.items.join ⟨.inner, inner⟩ (D a) (D b) = D y := hD y _ hy
    show Meaning.items.value D q = Meaning.items.join _ (D y) (D c)
    rw [rotation_eq_some hq, ← hinner, hjoin rfl, hjoin rfl]
    show Meaning.items.join _ (D stay) (Meaning.items.join _ (D move) (D c)) = _
    rw [hjoin rfl, hjoin rfl, Multiset.add_cons, Multiset.cons_add, ← Multiset.add_assoc]
    rcases hsides with ⟨rfl, rfl⟩ | ⟨rfl, rfl⟩
    · rfl
    · rw [Multiset.add_comm (D stay)]

end PlanOptimizer
