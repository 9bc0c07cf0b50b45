import PlanOptimizer.Rule.Swap
import PlanOptimizer.Expr.Conjuncts

/-!
# Clauses

The *clauses* of a predicate are its conjuncts but for `TRUE`.  Splitting a predicate and
putting it together again keeps them, so do swapping sides and respelling literals, and so
their number is what a predicate is worth wherever the rules move it.

The *bulk* of a predicate also counts the conjunctions in it.  Merging two predicates does
not add to it.
-/

namespace PlanOptimizer

namespace Expr

open Rule

variable {e c : Expr} {ps : List Expr}

/-- The conjuncts of a predicate but for `TRUE`. -/
def clauses (e : Expr) : List Expr := e.conjuncts.filter fun c => !c.isTrue

/-- Whether an expression is no conjunction. -/
def isLeaf : Expr → Bool
  | .and _ => false
  | _ => true

/-! ## Conjuncts -/

@[simp] theorem conjuncts_and (ps : List Expr) : (and ps).conjuncts = ps.flatMap conjuncts := by
  simp [conjuncts]

theorem conjuncts_of_isLeaf (h : e.isLeaf = true) : e.conjuncts = [e] := by
  cases e <;> first | rfl | cases h

mutual

theorem isLeaf_of_mem : ∀ {e c : Expr}, c ∈ e.conjuncts → c.isLeaf = true
  | .column _, _, h | .literal _, _, h | .binary _ _ _, _, h | .unary _ _, _, h
  | .call _ _, _, h | .or _, _, h => by
    cases List.mem_singleton.mp h
    rfl
  | .and ps, _, h => isLeaf_of_mem_all (show _ ∈ conjunctsAll ps from h)

theorem isLeaf_of_mem_all : ∀ {ps : List Expr} {c : Expr}, c ∈ conjunctsAll ps → c.isLeaf = true
  | [], _, h => nomatch h
  | _ :: _, _, h => (List.mem_append.mp h).elim isLeaf_of_mem isLeaf_of_mem_all

end

/-! ## Clauses -/

@[simp] theorem clauses_and (ps : List Expr) : (and ps).clauses = ps.flatMap clauses := by
  rw [clauses, conjuncts_and, List.filter_flatMap]
  rfl

theorem clauses_of_isTrue (h : e.isTrue = true) : e.clauses = [] := by
  cases e <;> first | cases h | simp_all [clauses, conjuncts]

theorem clauses_of_isLeaf (h : e.isLeaf = true) (hne : e.isTrue = false) : e.clauses = [e] := by
  simp [clauses, conjuncts_of_isLeaf h, hne]

@[simp] theorem clauses_always : always.clauses = [] := rfl

/-- The clauses of some conjuncts are the conjuncts that are not `TRUE`. -/
theorem clauses_of_leaves (h : ∀ c ∈ ps, c.isLeaf = true) :
    ps.flatMap clauses = ps.filter fun c => !c.isTrue := by
  induction ps with
  | nil => rfl
  | cons c ps ih =>
    rw [List.flatMap_cons, ih fun x hx => h x (List.mem_cons_of_mem _ hx)]
    cases hc : c.isTrue with
    | true => simp [clauses_of_isTrue hc, hc]
    | false => simp [clauses_of_isLeaf (h c List.mem_cons_self) hc, hc]

/-! ### Conjunctions -/

theorem flatMap_filter_clauses (ps : List Expr) :
    (ps.filter fun c => !c.isTrue).flatMap clauses = ps.flatMap clauses := by
  induction ps with
  | nil => rfl
  | cons c ps ih =>
    cases hc : c.isTrue with
    | true => simp [hc, ih, clauses_of_isTrue hc]
    | false => simp [hc, ih]

theorem clauses_parts (e : Expr) : e.parts.flatMap clauses = e.clauses := by
  cases e with
  | and ps =>
    show (ps.filter fun c => !c.isTrue).flatMap clauses = _
    rw [flatMap_filter_clauses, clauses_and]
  | literal l =>
    cases h : (literal l).isTrue with
    | true => simp [parts, h, clauses_of_isTrue h]
    | false => simp [parts, h]
  | _ => exact List.append_nil _

/-- Putting predicates together keeps their clauses. -/
@[simp] theorem clauses_conjunction (ps : List Expr) :
    (conjunction ps).clauses = ps.flatMap clauses := by
  have hparts : (ps.flatMap parts).flatMap clauses = ps.flatMap clauses := by
    rw [List.flatMap_assoc]
    simp only [clauses_parts]
  rw [← hparts, conjunction]
  split
  · next h => simp [h]
  · next h => simp [h]
  · exact clauses_and _

/-- The clauses of some of the conjuncts of a predicate. -/
@[simp] theorem clauses_filter_conjuncts (e : Expr) (f : Expr → Bool) :
    (e.conjuncts.filter f).flatMap clauses = e.clauses.filter f := by
  have hleaf : ∀ c ∈ e.conjuncts.filter f, c.isLeaf = true := fun c hc =>
    isLeaf_of_mem (List.mem_filter.mp hc).1
  rw [clauses_of_leaves hleaf, clauses, List.filter_filter, List.filter_filter]
  simp only [Bool.and_comm]

@[simp] theorem clauses_conjuncts (e : Expr) : e.conjuncts.flatMap clauses = e.clauses :=
  clauses_of_leaves fun _ => isLeaf_of_mem

/-! ### Swapping sides -/

mutual

theorem conjuncts_swapSides : ∀ e : Expr, (swapSides e).conjuncts = e.conjuncts.map swapSides
  | .column _ | .literal _ | .unary _ _ | .call _ _ | .or _ => rfl
  | .binary op a b => by cases op <;> rfl
  | .and ps => conjunctsAll_swapSidesAll ps

theorem conjunctsAll_swapSidesAll :
    ∀ ps : List Expr, conjunctsAll (swapSidesAll ps) = (conjunctsAll ps).map swapSides
  | [] => rfl
  | p :: ps => by
    simp only [swapSidesAll, conjunctsAll, List.map_append, conjuncts_swapSides p,
      conjunctsAll_swapSidesAll ps]

end

@[simp] theorem isTrue_swapSides (e : Expr) : (swapSides e).isTrue = e.isTrue := by
  cases e with
  | binary op a b => cases op <;> rfl
  | _ => rfl

theorem clauses_swapSides (e : Expr) : (swapSides e).clauses = e.clauses.map swapSides := by
  simp [clauses, conjuncts_swapSides, List.filter_map, Function.comp_def]

/-! ### Respelling literals -/

mutual

theorem conjuncts_canon : ∀ e : Expr, e.canon.conjuncts = e.conjuncts.map canon
  | .column _ | .literal _ | .binary _ _ _ | .unary _ _ | .call _ _ | .or _ => rfl
  | .and ps => conjunctsAll_canonAll ps

theorem conjunctsAll_canonAll :
    ∀ ps : List Expr, conjunctsAll (canonAll ps) = (conjunctsAll ps).map canon
  | [] => rfl
  | p :: ps => by
    simp only [canonAll, conjunctsAll, List.map_append, conjuncts_canon p, conjunctsAll_canonAll ps]

end

@[simp] theorem isTrue_canon (e : Expr) : e.canon.isTrue = e.isTrue := by
  cases e with
  | literal l => cases l <;> rfl
  | _ => rfl

theorem clauses_canon (e : Expr) : e.canon.clauses = e.clauses.map canon := by
  simp [clauses, conjuncts_canon, List.filter_map, Function.comp_def]

/-! ### What a conjunction is made of -/

theorem conjuncts_of_mem_parts {e p c : Expr} (he : e ∈ p.parts) (hc : c ∈ e.conjuncts) :
    c ∈ p.conjuncts := by
  cases p with
  | and ps =>
    rw [conjuncts_and]
    exact List.mem_flatMap.mpr ⟨e, (List.mem_filter.mp he).1, hc⟩
  | literal l =>
    have hmem : e ∈ if (literal l).isTrue then [] else [literal l] := he
    split at hmem
    · cases hmem
    · cases List.mem_singleton.mp hmem
      exact hc
  | _ =>
    cases List.mem_singleton.mp he
    exact hc

/-- Each conjunct comes from one of the predicates, or there was nothing to put together. -/
theorem mem_conjuncts_conjunction (h : c ∈ (conjunction ps).conjuncts) :
    c = always ∨ ∃ p ∈ ps, c ∈ p.conjuncts := by
  have hparts : ∀ {e}, e ∈ ps.flatMap parts → c ∈ e.conjuncts → ∃ p ∈ ps, c ∈ p.conjuncts := by
    intro e he hc
    obtain ⟨p, hp, he⟩ := List.mem_flatMap.mp he
    exact ⟨p, hp, conjuncts_of_mem_parts he hc⟩
  unfold conjunction at h
  split at h
  · exact .inl (List.mem_singleton.mp h)
  · next e he => exact .inr (hparts (he ▸ List.mem_singleton_self e) h)
  · rw [conjuncts_and] at h
    obtain ⟨e, he, hc⟩ := List.mem_flatMap.mp h
    exact .inr (hparts he hc)

/-! ## Bulk -/

mutual

/-- The number of conjuncts of a predicate and of conjunctions in it. -/
def nodes : Expr → Nat
  | .and ps => 1 + nodesAll ps
  | _ => 1

/-- The same for a list of predicates. -/
def nodesAll : List Expr → Nat
  | [] => 0
  | p :: ps => nodes p + nodesAll ps

end

/-- What a filter for a predicate adds to the height of a group. -/
def bulk (e : Expr) : Nat := nodes e + 1

theorem nodesAll_append (ps qs : List Expr) : nodesAll (ps ++ qs) = nodesAll ps + nodesAll qs := by
  induction ps with
  | nil => simp [nodesAll]
  | cons p ps ih => simp [nodesAll, ih, Nat.add_assoc]

theorem nodesAll_filter_le (f : Expr → Bool) (ps : List Expr) :
    nodesAll (ps.filter f) ≤ nodesAll ps := by
  induction ps with
  | nil => exact Nat.le_refl _
  | cons p ps ih => cases hp : f p <;> simp [hp, nodesAll] <;> omega

theorem nodes_of_isLeaf (h : e.isLeaf = true) : e.nodes = 1 := by
  cases e <;> first | rfl | cases h

theorem nodesAll_of_leaves (h : ∀ c ∈ ps, c.isLeaf = true) : nodesAll ps = ps.length := by
  induction ps with
  | nil => rfl
  | cons c ps ih =>
    simp only [nodesAll, nodes_of_isLeaf (h c List.mem_cons_self), List.length_cons,
      ih fun x hx => h x (List.mem_cons_of_mem _ hx)]
    omega

theorem nodesAll_parts_le (e : Expr) : nodesAll e.parts ≤ nodes e := by
  cases e with
  | and ps =>
    show nodesAll (ps.filter fun c => !c.isTrue) ≤ 1 + nodesAll ps
    have := nodesAll_filter_le (fun c => !c.isTrue) ps
    omega
  | literal l => cases h : (literal l).isTrue <;> simp [parts, h, nodesAll, nodes]
  | _ => exact Nat.le_refl _

theorem nodesAll_flatMap_parts_le (ps : List Expr) : nodesAll (ps.flatMap parts) ≤ nodesAll ps := by
  induction ps with
  | nil => exact Nat.le_refl _
  | cons p ps ih =>
    have := nodesAll_parts_le p
    simp only [List.flatMap_cons, nodesAll_append, nodesAll]
    omega

theorem nodes_conjunction_le (ps : List Expr) : nodes (conjunction ps) ≤ 1 + nodesAll ps := by
  have hparts := nodesAll_flatMap_parts_le ps
  unfold conjunction
  split
  · next h => simp [always, nodes]
  · next p h =>
    rw [h] at hparts
    simp only [nodesAll] at hparts
    omega
  · simp only [nodes]
    omega

theorem parts_of_isLeaf (h : e.isLeaf = true) : e.parts = e.clauses := by
  cases e with
  | and ps => cases h
  | literal l => cases l <;> first | rfl | (next b => cases b <;> rfl)
  | _ => rfl

/-- What is put together from conjuncts is no bulkier than its clauses. -/
theorem nodes_conjunction_of_leaves (h : ∀ c ∈ ps, c.isLeaf = true) :
    nodes (conjunction ps) ≤ 1 + (ps.flatMap clauses).length := by
  have hparts : ps.flatMap parts = ps.flatMap clauses := by
    rw [List.flatMap_def, List.flatMap_def, List.map_congr_left fun c hc => parts_of_isLeaf (h c hc)]
  have hleaves : ∀ c ∈ ps.flatMap parts, c.isLeaf = true := by
    rw [hparts, clauses_of_leaves h]
    exact fun c hc => h c (List.mem_filter.mp hc).1
  rw [← hparts, ← nodesAll_of_leaves hleaves]
  unfold conjunction
  split
  · next h => simp [always, nodes]
  · next p h =>
    rw [h]
    simp only [nodesAll]
    omega
  · simp [nodes]

mutual

@[simp] theorem nodes_swapSides : ∀ e : Expr, nodes (swapSides e) = nodes e
  | .column _ | .literal _ | .unary _ _ | .call _ _ | .or _ => rfl
  | .binary op a b => by cases op <;> rfl
  | .and ps => congrArg (1 + ·) (nodesAll_swapSidesAll ps)

theorem nodesAll_swapSidesAll : ∀ ps : List Expr, nodesAll (swapSidesAll ps) = nodesAll ps
  | [] => rfl
  | p :: ps => by
    simp only [swapSidesAll, nodesAll, nodes_swapSides p, nodesAll_swapSidesAll ps]

end

/-- Merging two predicates does not add to their bulk. -/
theorem bulk_merge_le (p q : Expr) : bulk (conjunction [p, q]) ≤ bulk p + bulk q := by
  have := nodes_conjunction_le [p, q]
  simp only [nodesAll] at this
  unfold bulk
  omega

end Expr

end PlanOptimizer
