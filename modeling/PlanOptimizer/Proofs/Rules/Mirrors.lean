import PlanOptimizer.Proofs.Memo.Invalidation
import PlanOptimizer.Proofs.Memo.Meaning
import PlanOptimizer.Rule.Swap

/-!
# Mirror images of joins

Swapping the inputs of an inner or cross join gives its *mirror image*, and swapping them again
gives the join back (`Rule.swapJoin_swapJoin`).  So all that `Rule.swapJoin` ever makes of a shape is
the shape and its mirror image.

The *depth* of a plan is the largest number of inner and cross joins on a way down to a leaf.  A
mirror image has the depth of the join.  Where a memo keeps depths, candidates lead down to groups
that are no deeper, and from a join that can be mirrored to groups that are less deep.
-/

namespace PlanOptimizer

open Relation Rule

/-! ## Mirror images -/

/-- Whether the two inputs of a join are alike. -/
def Join.symmetric (j : Join) : Bool := decide (j.kind = .inner ∨ j.kind = .cross)

/-- The join for the inputs in the other order. -/
def Join.mirror (j : Join) : Join := { j with condition := swapSides j.condition }

@[simp] theorem Join.symmetric_mirror (j : Join) : j.mirror.symmetric = j.symmetric := rfl

@[simp] theorem Join.mirror_mirror (j : Join) : j.mirror.mirror = j := by
  rw [mirror, mirror, swapSides_swapSides]

@[simp] theorem Join.symmetric_canon (j : Join) : j.canon.symmetric = j.symmetric := rfl

namespace Node

/-- An inner or cross join with its inputs swapped, and any other operator as it is. -/
def mirror : Shape → Shape
  | .join j a b => if j.symmetric then .join j.mirror b a else .join j a b
  | s => s

theorem mirror_join {j : Join} (h : j.symmetric = true) (a b : GroupId) :
    mirror (.join j a b) = .join j.mirror b a := if_pos h

@[simp] theorem mirror_mirror (s : Shape) : s.mirror.mirror = s := by
  cases s with
  | join j a b =>
    cases h : j.symmetric with
    | true => rw [mirror_join h, mirror_join (j.symmetric_mirror.trans h), j.mirror_mirror]
    | false => simp [mirror, h]
  | _ => rfl

@[simp] theorem mem_inputs_mirror {s : Shape} {i : GroupId} : i ∈ s.mirror.inputs ↔ i ∈ s.inputs := by
  cases s with
  | join j a b =>
    cases h : j.symmetric with
    | true => simp [mirror_join h, inputs, or_comm]
    | false => simp [mirror, h]
  | _ => rfl

end Node

namespace Rule

variable {context : Context} {lookup : Lookup}

/-- The rule applies to joins that differ from their mirror images. -/
theorem swapJoin_applies (lookup : Lookup) (p : Plan) :
    swapJoin.applies lookup p = .ok (isSymmetric p) := by
  have haccepts : swapJoin.accepts p = isSymmetric p := rfl
  unfold applies
  rw [haccepts]
  cases isSymmetric p <;> rfl

/-- What the rule makes of a join is its mirror image. -/
theorem swapJoin_apply_overGroups {s : Shape} (h : isSymmetric s.overGroups = true) :
    swapJoin.apply context lookup s.overGroups = .ok [.alternative s.mirror.overGroups] := by
  cases s with
  | join j a b => rw [Node.mirror_join h]; rfl
  | _ => cases h

theorem mirror_of_not_isSymmetric {s : Shape} (h : isSymmetric s.overGroups = false) :
    s.mirror = s := by
  cases s with
  | join j a b => exact if_neg (Bool.eq_false_iff.mp h)
  | _ => rfl

/-- What the rule makes of what it has made of a join is the join. -/
theorem swapJoin_swapJoin {j : Join} (h : j.symmetric = true) (a b : Plan) :
    ∃ q, swapJoin.apply context lookup (.join j a b) = .ok [.alternative q] ∧
      swapJoin.applies lookup q = .ok true ∧
      swapJoin.apply context lookup q = .ok [.alternative (.join j a b)] := by
  refine ⟨.join j.mirror b a, rfl, (swapJoin_applies lookup _).trans (congrArg _ h), ?_⟩
  show Except.ok [Offer.alternative (.join j.mirror.mirror a b)] = _
  rw [j.mirror_mirror]

end Rule

/-! ## Depth -/

/-- The largest number of inner and cross joins on a way from the top of a plan to a leaf. -/
def Plan.swapDepth : Plan → Nat
  | .scan _ | .group _ => 0
  | .unary _ a => a.swapDepth
  | .join j a b => max a.swapDepth b.swapDepth + j.symmetric.toNat

namespace Meaning

/-- The largest number of inner and cross joins on a way down. -/
def depth : Meaning Nat where
  scan := Function.const Scan 0
  unary _ d := d
  join j d e := max d e + j.symmetric.toNat
  scan_same _ := rfl
  unary_same _ _ := rfl
  join_same {a b} d e h := by rw [← a.symmetric_canon, h, b.symmetric_canon]

variable {D : GroupId → Nat} {m : Memo} {id j : GroupId} {s : Shape}

theorem depth_value {p : Plan} (h : p.hasGroups = false) : depth.value D p = p.swapDepth := by
  induction p with
  | scan s => rfl
  | unary op a ih => exact ih h
  | join op a b iha ihb =>
    obtain ⟨ha, hb⟩ := Bool.or_eq_false_iff.mp h
    show max (depth.value D a) (depth.value D b) + _ = max a.swapDepth b.swapDepth + _
    rw [iha ha, ihb hb]
  | group i => cases h

@[simp] theorem depth_mirror (D : GroupId → Nat) (s : Shape) :
    depth.shape D s.mirror = depth.shape D s := by
  cases s with
  | join j a b =>
    cases h : j.symmetric with
    | true =>
      rw [Node.mirror_join h]
      show max (D b) (D a) + _ = max (D a) (D b) + _
      rw [Nat.max_comm, j.symmetric_mirror]
    | false => simp [Node.mirror, h]
  | _ => rfl

/-- The inputs of a shape are no deeper, and less deep if it is not its own mirror image. -/
theorem le_depth {i : GroupId} (hi : i ∈ s.inputs) :
    D i ≤ depth.shape D s ∧ (s.mirror ≠ s → D i < depth.shape D s) := by
  cases s with
  | scan op => cases hi
  | unary op a =>
    cases List.mem_singleton.mp hi
    exact ⟨Nat.le_refl _, fun hne => absurd rfl hne⟩
  | join j a b =>
    have hle : D i ≤ max (D a) (D b) := by
      rcases List.mem_pair.mp hi with rfl | rfl
      · exact Nat.le_max_left _ _
      · exact Nat.le_max_right _ _
    refine ⟨hle.trans (Nat.le_add_right _ _), fun hne => ?_⟩
    have hsymmetric : j.symmetric = true := by
      by_contra hnot
      exact hne (if_neg hnot)
    show D i < max (D a) (D b) + j.symmetric.toNat
    rw [hsymmetric]
    exact Nat.lt_succ_of_le hle

/-- A shape of no depth is its own mirror image. -/
theorem mirror_of_depth_eq_zero (h : depth.shape D s = 0) : s.mirror = s := by
  cases s with
  | join j a b =>
    by_contra hne
    have hlt := (le_depth (D := D) (i := a) (by simp [Node.inputs])).2 hne
    omega
  | _ => rfl

theorem Models.depth_le (hD : depth.Models D m) (h : m.Leads j id) : D id ≤ D j := by
  induction h with
  | refl => exact Nat.le_refl _
  | tail _ hmention ih =>
    obtain ⟨c, hc, hin⟩ := hmention
    have hle := (le_depth (D := D) hin).1
    rw [hD _ c hc] at hle
    exact hle.trans ih

/-- A group all of whose candidates can be mirrored leads to groups that are less deep. -/
theorem Models.depth_lt (hD : depth.Models D m) (h : m.Leads j id) (hne : j ≠ id)
    (hj : ∀ c, m.Candidate j c → c.mirror ≠ c) : D id < D j := by
  rcases ReflTransGen.cases_head h with heq | ⟨i, ⟨c, hc, hin⟩, hlead⟩
  · exact absurd heq hne
  · have hlt := (le_depth (D := D) hin).2 (hj c hc)
    rw [hD _ c hc] at hlt
    exact Nat.lt_of_le_of_lt (hD.depth_le hlead) hlt

end Meaning

end PlanOptimizer
