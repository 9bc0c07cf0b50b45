import PlanOptimizer.Expr.Conjuncts
import PlanOptimizer.Group.Tables
import PlanOptimizer.Rule.Basic

/-!
# Rotating joins

Three inputs that are joined left first may be joined in another order:
`(a ⋈ b) ⋈ c` becomes `a ⋈ (b ⋈ c)` or `b ⋈ (a ⋈ c)`.  One input *stays* outside,
and the other one *moves* next to `c`.

Conjuncts of the outer condition that mention tables of both the moving input and
`c`, and no others, become the condition of the new inner join.  If there are
none, the rotation is not offered, since its inner join would pair everything
with everything.  The remaining conjuncts stay outside, behind those of the old
inner condition.
-/

namespace PlanOptimizer.Rule

/-- Whether a predicate mentions tables on both sides and none besides. -/
def connects (moving last : List String) (p : Expr) : Bool :=
  p.tables.all (fun t => moving.contains t || last.contains t)
    && p.tables.any moving.contains && p.tables.any last.contains

/-- The rotation of `(stay ⋈ move) ⋈ last`, if a conjunct connects the last two. -/
def rotation (outer inner : Expr) (stay move last : Plan) (moveNames lastNames : List String) :
    Option Plan :=
  let connecting := connects moveNames lastNames
  let inside := outer.conjuncts.filter connecting
  let outside := outer.conjuncts.filter fun p => !connecting p
  if inside.isEmpty then none
  else some <|
    .join ⟨.inner, Expr.conjunction (inner.conjuncts ++ outside)⟩ stay
      (.join ⟨.inner, Expr.conjunction inside⟩ move last)

/-- The offers for an inner join over an inner join. -/
def rotated (lookup : Lookup) : Plan → Except Fault (List Offer)
  | .join ⟨.inner, outer⟩ left c => do
    match ← lookup.expose left with
    | .join ⟨.inner, inner⟩ a b =>
      let aNames ← a.tables lookup
      let bNames ← b.tables lookup
      let cNames ← c.tables lookup
      let rotations := [rotation outer inner a b c bNames cNames,
        rotation outer inner b a c aNames cNames]
      return rotations.filterMap fun r => r.map Offer.alternative
    | _ => return []
  | _ => return []

/-- Whether a plan is an inner join. -/
def isInnerJoin : Plan → Bool
  | .join j _ _ => decide (j.kind = .inner)
  | _ => false

/-- Rotates joins. -/
def rotateJoin : Rule where
  name := "JoinAssociativity"
  family := "JoinAssociativity"
  pattern := .joinOverLeftJoin
  accepts := isInnerJoin
  apply _ lookup p := rotated lookup p

end PlanOptimizer.Rule
