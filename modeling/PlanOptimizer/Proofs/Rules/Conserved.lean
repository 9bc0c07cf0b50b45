import PlanOptimizer.Group.Width
import PlanOptimizer.Proofs.Clauses
import PlanOptimizer.Proofs.Memo.Meaning
import PlanOptimizer.Proofs.Rules.Rewrites

/-!
# What the standard rules conserve

Every offer of a standard rule has the width of the shape it is made for, and its weight.  The
width is the number of columns, where it is known.  The *weight* counts the joins, the unary
operators but for filters, and the clauses of all filters and join conditions.  The rules move
clauses between operators, and they lose and double none.
-/

namespace PlanOptimizer

open Rule

/-! ## Width and weight -/

/-- The number of columns that an operator puts out over an input, where it is known. -/
def Unary.columns (w : Option Nat) : Unary → Option Nat
  | .project es _ => some es.length
  | .aggregate ks cs => some (ks.length + cs.length)
  | .filter _ | .sort _ | .limit .. => w

/-- What an operator over one input weighs itself. -/
def Unary.weight : Unary → Nat
  | .filter p => p.clauses.length
  | _ => 1

/-- What a join weighs itself. -/
def Join.weight (j : Join) : Nat := j.condition.clauses.length + 1

@[simp] theorem Unary.columns_canon (w : Option Nat) (op : Unary) :
    op.canon.columns w = op.columns w := by
  cases op <;> simp [Unary.canon, Unary.columns]

@[simp] theorem Unary.weight_canon (op : Unary) : op.canon.weight = op.weight := by
  cases op <;> simp [Unary.canon, Unary.weight, Expr.clauses_canon]

@[simp] theorem Join.weight_canon (j : Join) : j.canon.weight = j.weight := by
  simp [Join.canon, Join.weight, Expr.clauses_canon]

namespace Meaning

/-- The number of columns, where it is known. -/
def columns : Meaning (Option Nat) where
  scan s := if s.columns.isEmpty then none else some s.columns.length
  unary op w := op.columns w
  join j v w := if j.kind.emitsRight then do some ((← v) + (← w)) else v
  scan_same {a b} h := by
    have hcolumns : a.columns = b.columns := (Scan.mk.inj h).2.1
    rw [hcolumns]
  unary_same {a b} w h := by
    rw [← Unary.columns_canon, h, Unary.columns_canon]
  join_same {a b} v w h := by
    have hkind : a.kind = b.kind := (Join.mk.inj h).1
    rw [hkind]

/-- The joins, the unary operators but for filters, and the clauses in a plan. -/
def weight : Meaning Nat where
  scan _ := 0
  unary op w := w + op.weight
  join j v w := v + w + j.weight
  scan_same _ := rfl
  unary_same {a b} w h := by
    rw [← Unary.weight_canon, h, Unary.weight_canon]
  join_same {a b} v w h := by
    rw [← Join.weight_canon, h, Join.weight_canon]

end Meaning

/-! ## Plans under filters -/

section Value

variable {C : GroupId → Option Nat} {W : GroupId → Nat} {a b : Plan}

@[simp] theorem weight_unary (op : Unary) :
    Meaning.weight.value W (.unary op a) = Meaning.weight.value W a + op.weight := rfl

@[simp] theorem weight_join (j : Join) : Meaning.weight.value W (.join j a b) =
    Meaning.weight.value W a + Meaning.weight.value W b + j.weight := rfl

@[simp] theorem weight_group (y : GroupId) : Meaning.weight.value W (.group y) = W y := rfl

theorem columns_filteredBy (ps : List Expr) (p : Plan) :
    Meaning.columns.value C (filteredBy ps p) = Meaning.columns.value C p := by
  unfold filteredBy
  split <;> rfl

@[simp] theorem weight_filteredBy (ps : List Expr) (p : Plan) :
    Meaning.weight.value W (filteredBy ps p) =
      Meaning.weight.value W p + (ps.flatMap Expr.clauses).length := by
  unfold filteredBy
  split
  · next h => simp [List.isEmpty_iff.mp h]
  · simp [Unary.weight]

theorem emitsRight_of_movable {kind : JoinKind} (h : movable kind = true) :
    kind.emitsRight = true := by
  cases kind <;> first | rfl | cases h

theorem emitsRight_conditioned (kind : JoinKind) (condition : Expr) :
    (conditioned kind condition).emitsRight = kind.emitsRight := by
  unfold conditioned
  split
  · next h => rw [h.1]; rfl
  · rfl

theorem movable_conditioned {kind : JoinKind} (h : movable kind = true) (condition : Expr) :
    movable (conditioned kind condition) = true := by
  unfold conditioned
  split
  · rfl
  · exact h

/-- Each member goes to the first part, to the second one, or it stays. -/
theorem perm_split {α : Type} (f g : α → Bool) (xs : List α) :
    xs.Perm ((xs.filter fun x => f x) ++ (xs.filter fun x => !f x && g x) ++
      xs.filter fun x => !f x && !(!f x && g x)) := by
  have hsecond : (xs.filter fun x => !f x).filter g = xs.filter fun x => !f x && g x := by
    rw [List.filter_filter]
    exact List.filter_congr fun x _ => Bool.and_comm _ _
  have hrest : ((xs.filter fun x => !f x).filter fun x => !g x) =
      xs.filter fun x => !f x && !(!f x && g x) := by
    rw [List.filter_filter]
    exact List.filter_congr fun x _ => by cases f x <;> cases g x <;> rfl
  rw [← hsecond, ← hrest, List.append_assoc]
  have hfirst := (List.filter_append_perm f xs).symm
  exact hfirst.trans ((List.filter_append_perm g _).symm.append_left _)

theorem weight_routed (p : Expr) (j : Join) (l r : GroupId) (lefts rights : List String) :
    Meaning.weight.value W (routed p j (.group l) (.group r) lefts rights) =
      W l + W r + j.weight + p.clauses.length := by
  have hsplit := (perm_split (confined lefts) (confined rights) p.clauses).length_eq
  rw [List.length_append, List.length_append] at hsplit
  simp only [routed, Join.weight, weight_join, weight_filteredBy, weight_group,
    Expr.clauses_conjunction, Expr.clauses_conjuncts, Expr.clauses_filter_conjuncts,
    List.flatMap_append, List.length_append]
  omega

theorem rotation_eq_some {outer inner : Expr} {stay move last q : Plan}
    {moving lastNames : List String}
    (h : Rule.rotation outer inner stay move last moving lastNames = some q) :
    q = .join ⟨.inner, Expr.conjunction (inner.conjuncts ++
        outer.conjuncts.filter fun p => !connects moving lastNames p)⟩ stay
      (.join ⟨.inner, Expr.conjunction (outer.conjuncts.filter (connects moving lastNames))⟩
        move last) := by
  unfold Rule.rotation at h
  dsimp only at h
  split at h
  · cases h
  · exact (Option.some.inj h).symm

/-- A rotated join weighs what the two joins weigh that it is made from. -/
theorem weight_rotation {outer inner : Expr} {stay move last q : Plan}
    {moving lastNames : List String}
    (h : Rule.rotation outer inner stay move last moving lastNames = some q) :
    Meaning.weight.value W q = Meaning.weight.value W stay + Meaning.weight.value W move +
      Meaning.weight.value W last + (inner.clauses.length + 1) + (outer.clauses.length + 1) := by
  have hsplit := outer.clauses.length_eq_length_filter_add (connects moving lastNames)
  rw [rotation_eq_some h]
  simp only [Join.weight, weight_join, Expr.clauses_conjunction, Expr.clauses_conjuncts,
    Expr.clauses_filter_conjuncts, List.flatMap_append, List.length_append]
  omega

end Value

/-! ## Rewrites -/

variable {m : Memo} {s : Shape} {x : Offer} {C : GroupId → Option Nat} {W : GroupId → Nat}

/-- Every rewrite keeps the weight. -/
theorem Rewrite.weight (h : Rewrite m s x)
    (hW : ∀ id t, m.rep? id = some t → Meaning.weight.shape W t = W id) :
    Meaning.weight.value W x.plan = Meaning.weight.shape W s := by
  cases h with
  | @trivial p y htrue =>
    show W y = W y + p.clauses.length
    rw [Expr.clauses_of_isTrue htrue]
    rfl
  | @merge outer inner y z hy =>
    have hinner : W z + inner.clauses.length = W y := hW y _ hy
    show W z + _ = W y + outer.clauses.length
    simp [Unary.weight]
    omega
  | @route p j y l r lefts rights hy =>
    have hjoin : W l + W r + j.weight = W y := hW y _ hy
    show _ = W y + p.clauses.length
    simp only [Offer.plan, weight_routed]
    omega
  | @prune es names y t hy =>
    have hscan : 0 = W y := hW y _ hy
    show 0 + 1 = W y + 1
    omega
  | @swap j a b =>
    show W b + W a + Join.weight _ = W a + W b + j.weight
    simp [Join.weight, Expr.clauses_swapSides]
    omega
  | @rotate outer inner y a b c stay move moving last q hy hsides hq =>
    have hinner : W a + W b + (inner.clauses.length + 1) = W y := hW y _ hy
    show Meaning.weight.value W q = W y + W c + (outer.clauses.length + 1)
    rw [weight_rotation hq]
    simp only [weight_group]
    rcases hsides with ⟨rfl, rfl⟩ | ⟨rfl, rfl⟩
    · omega
    · omega

/-- The width of an inner or cross join. -/
def both (v w : Option Nat) : Option Nat := do some ((← v) + (← w))

theorem both_comm (v w : Option Nat) : both v w = both w v := by
  cases v <;> cases w <;> simp [both, Nat.add_comm]

theorem both_assoc (u v w : Option Nat) : both (both u v) w = both u (both v w) := by
  cases u <;> cases v <;> cases w <;> simp [both, Nat.add_assoc]

/-- Every rewrite keeps the width. -/
theorem Rewrite.columns (h : Rewrite m s x)
    (hC : ∀ id t, m.rep? id = some t → Meaning.columns.shape C t = C id) :
    Meaning.columns.value C x.plan = Meaning.columns.shape C s := by
  have hjoin : ∀ {j : Join} {v w}, j.kind.emitsRight = true →
      Meaning.columns.join j v w = both v w := fun h => if_pos h
  cases h with
  | trivial => rfl
  | merge hy => exact hC _ _ hy
  | @route p j y l r lefts rights hy hmovable =>
    have hright := emitsRight_of_movable hmovable
    have hinput := hC y _ hy
    show Meaning.columns.value C (routed p j (.group l) (.group r) lefts rights) = C y
    rw [← hinput]
    show Meaning.columns.join _ _ _ = Meaning.columns.join j (C l) (C r)
    rw [hjoin hright, hjoin ((emitsRight_conditioned _ _).trans hright), columns_filteredBy,
      columns_filteredBy]
    rfl
  | prune => rfl
  | @swap j a b hsym =>
    have hright : j.kind.emitsRight = true := by rcases hsym with h | h <;> rw [h] <;> rfl
    show Meaning.columns.join _ (C b) (C a) = Meaning.columns.join j (C a) (C b)
    exact (hjoin hright).trans ((both_comm _ _).trans (hjoin hright).symm)
  | @rotate outer inner y a b c stay move moving last q hy hsides hq =>
    have hinput : both (C a) (C b) = C y := hC y _ hy
    show Meaning.columns.value C q = both (C y) (C c)
    rw [rotation_eq_some hq, ← hinput]
    show both (C stay) (both (C move) (C c)) = _
    rcases hsides with ⟨rfl, rfl⟩ | ⟨rfl, rfl⟩
    · rw [both_assoc]
    · rw [both_comm (C move) (C stay), both_assoc]

end PlanOptimizer
