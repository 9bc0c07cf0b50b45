import PlanOptimizer.Proofs.Rules.Readings

/-!
# Predicates that move

Three of the standard rules move predicates: two filters become one, a filter over a join goes
into the join, and a join over a join is nested the other way.  Each takes the top of a plan
apart and puts a plan together from the pieces.

The *pieces* are the predicates at the operators that the rule looks at, and the plans below these
operators.  `Rule.pieces_of_apply` says that the pieces of an offer have the clauses that the
pieces of the plan have, each as often, and the plans of these, each as often.  Nothing is asked of
the predicates nor of the tables that they mention: how a predicate is split decides where its
parts go, and `perm_split` says that each part goes to one place.
-/

namespace PlanOptimizer

open Rule

/-- The predicates at some operators, and the plans below these. -/
structure Pieces where
  /-- The predicates. -/
  predicates : List Expr
  /-- The plans, from left to right. -/
  leaves : List Plan

/-- The clauses of all predicates. -/
def Pieces.clauses (c : Pieces) : List Expr := c.predicates.flatMap Expr.clauses

/-- A plan under a filter, if there is a predicate. -/
def Plan.under (p : Plan) : Option Expr → Plan
  | none => p
  | some e => .filter e p

namespace Rule

/-- The rules that move predicates. -/
def relocating : List Rule := [mergeFilters, routePredicates, rotateJoin]

/-- The pieces that a rule sees in a plan. -/
inductive TakesApart (lookup : Lookup) : Rule → Plan → Pieces → Prop where
  /-- Two filters. -/
  | merge {outer inner : Expr} {y z : Plan} (shown : lookup.expose y = .ok (.filter inner z)) :
      TakesApart lookup mergeFilters (.filter outer y) ⟨[inner, outer], [z]⟩
  /-- A filter over a join. -/
  | route {e : Expr} {j : Join} {y l r : Plan} (shown : lookup.expose y = .ok (.join j l r)) :
      TakesApart lookup routePredicates (.filter e y) ⟨[e, j.condition], [l, r]⟩
  /-- A join whose left input is a join. -/
  | rotate {outer inner : Join} {y a b c : Plan}
      (shown : lookup.expose y = .ok (.join inner a b)) :
      TakesApart lookup rotateJoin (.join outer y c)
        ⟨[inner.condition, outer.condition], [a, b, c]⟩

/-- The pieces that a rule puts a plan together from. -/
inductive PutsTogether : Rule → Plan → Pieces → Prop where
  /-- One filter. -/
  | merge {e : Expr} {z : Plan} : PutsTogether mergeFilters (.filter e z) ⟨[e], [z]⟩
  /-- A join whose inputs may be under filters. -/
  | route {j : Join} {l r : Plan} {left right : Option Expr} :
      PutsTogether routePredicates (.join j (l.under left) (r.under right))
        ⟨left.toList ++ right.toList ++ [j.condition], [l, r]⟩
  /-- A join whose right input is a join. -/
  | rotate {outer inner : Join} {a b c : Plan} :
      PutsTogether rotateJoin (.join outer a (.join inner b c))
        ⟨[inner.condition, outer.condition], [a, b, c]⟩

variable {lookup : Lookup} {rule rule' : Rule} {p q : Plan} {c d : Pieces}

/-- A plan comes apart in one way. -/
theorem TakesApart.unique (h : TakesApart lookup rule p c) (h' : TakesApart lookup rule' p d) :
    c = d := by
  cases h with
  | merge shown =>
    cases h' with
    | merge shown' =>
      cases shown.symm.trans shown'
      rfl
    | route shown' => cases shown.symm.trans shown'
  | route shown =>
    cases h' with
    | merge shown' => cases shown.symm.trans shown'
    | route shown' =>
      cases shown.symm.trans shown'
      rfl
  | rotate shown =>
    cases h' with
    | rotate shown' =>
      cases shown.symm.trans shown'
      rfl

/-! ## Where the clauses go -/

/-- A plan under a filter for some predicates, as a plan that may be under a filter. -/
theorem filteredBy_eq_under (ps : List Expr) (p : Plan) :
    ∃ e : Option Expr, filteredBy ps p = p.under e ∧
      e.toList.flatMap Expr.clauses = ps.flatMap Expr.clauses := by
  unfold filteredBy
  split
  · next h =>
    rw [List.isEmpty_iff.mp h]
    exact ⟨none, rfl, rfl⟩
  · refine ⟨some (Expr.conjunction ps), rfl, ?_⟩
    rw [Option.toList_some, List.flatMap_singleton, Expr.clauses_conjunction]

/-- Routing a filter through a join keeps the clauses of the two. -/
theorem pieces_routed (e : Expr) (j : Join) (l r : Plan) (lefts rights : List String) :
    ∃ d, PutsTogether routePredicates (routed e j l r lefts rights) d ∧
      (e.clauses ++ j.condition.clauses).Perm d.clauses ∧ d.leaves = [l, r] := by
  obtain ⟨left, hleft, hlefts⟩ := filteredBy_eq_under (e.conjuncts.filter (confined lefts)) l
  obtain ⟨right, hright, hrights⟩ := filteredBy_eq_under
    (e.conjuncts.filter fun c => !confined lefts c && confined rights c) r
  rw [Expr.clauses_filter_conjuncts] at hlefts hrights
  have hput : ∀ k : Join, PutsTogether routePredicates
      (.join k (filteredBy (e.conjuncts.filter (confined lefts)) l)
        (filteredBy (e.conjuncts.filter fun c => !confined lefts c && confined rights c) r))
      ⟨left.toList ++ right.toList ++ [k.condition], [l, r]⟩ := fun k => by
    rw [hleft, hright]
    exact .route
  refine ⟨_, hput _, ?_, rfl⟩
  have hsplit := perm_split (confined lefts) (confined rights) e.clauses
  simp only [Pieces.clauses, List.flatMap_append, List.flatMap_singleton, hlefts, hrights,
    Expr.clauses_conjunction, Expr.clauses_conjuncts, Expr.clauses_filter_conjuncts]
  refine (hsplit.append_right _).trans ?_
  rw [List.append_assoc _ _ j.condition.clauses]
  exact List.perm_append_comm.append_left _

/-- Rotating a join keeps the clauses of its two conditions. -/
theorem perm_rotated (outer inner : Expr) (f : Expr → Bool) :
    (inner.clauses ++ outer.clauses).Perm ((Expr.conjunction (outer.conjuncts.filter f)).clauses ++
      (Expr.conjunction (inner.conjuncts ++ outer.conjuncts.filter fun e => !f e)).clauses) := by
  have hsplit := (List.filter_append_perm f outer.clauses).symm
  simp only [Expr.clauses_conjunction, List.flatMap_append, Expr.clauses_conjuncts,
    Expr.clauses_filter_conjuncts]
  refine (hsplit.append_left _).trans ?_
  rw [← List.append_assoc, ← List.append_assoc]
  exact List.perm_append_comm.append_right _

/-! ## Offers -/

/-- What a rule that moves predicates derives has the clauses and the leaves of the plan. -/
theorem Derives.pieces (h : Derives lookup rule p q) (hrule : rule ∈ relocating) :
    ∃ c d, TakesApart lookup rule p c ∧ PutsTogether rule q d ∧
      c.clauses.Perm d.clauses ∧ c.leaves.Perm d.leaves := by
  have hname : rule.name ∈ relocating.map Rule.name := List.mem_map_of_mem hrule
  cases h with
  | trivial | prune | swap => exact absurd hname (by decide)
  | @merge outer inner y z shown =>
    refine ⟨_, _, .merge shown, .merge, ?_, .refl _⟩
    simp [Pieces.clauses]
  | @route e j y l r lefts rights shown =>
    obtain ⟨d, hd, hclauses, hleaves⟩ := pieces_routed e j l r lefts rights
    refine ⟨_, d, .route shown, hd, ?_, .of_eq hleaves.symm⟩
    simpa [Pieces.clauses] using hclauses
  | @rotate outer inner y a b c stay move moving last shown sides =>
    refine ⟨_, _, .rotate shown, .rotate, ?_, ?_⟩
    · simpa [Pieces.clauses] using perm_rotated outer inner (connects moving last)
    · rcases sides with ⟨rfl, rfl⟩ | ⟨rfl, rfl⟩
      · exact .refl _
      · exact .swap _ _ _

/-- What is offered by a rule that moves predicates is derived. -/
theorem derives_of_relocating {context : Context} {offers : List Offer} {x : Offer}
    (hrule : rule ∈ relocating) (happly : rule.apply context lookup p = .ok offers)
    (hx : x ∈ offers) : Derives lookup rule p x.plan := by
  simp only [relocating, List.mem_cons, List.not_mem_nil, or_false] at hrule
  rcases hrule with rfl | rfl | rfl
  · exact derives_of_mergedFilter happly hx
  · exact derives_of_routedFilter happly hx
  · exact derives_of_rotated happly hx

/-- **Rules that move predicates lose no clause, make up none and double none.**  Where such a rule
offers anything for a plan, the plan comes apart into predicates and plans.  Each offer is put
together from predicates that have the same clauses, each as often, and from the same plans, each
as often. -/
theorem pieces_of_apply {context : Context} {offers : List Offer} (hrule : rule ∈ relocating)
    (happly : rule.apply context lookup p = .ok offers) :
    offers = [] ∨ ∃ before, TakesApart lookup rule p before ∧
      ∀ x ∈ offers, ∃ after, PutsTogether rule x.plan after ∧
        before.clauses.Perm after.clauses ∧ before.leaves.Perm after.leaves := by
  cases hoffers : offers with
  | nil => exact .inl rfl
  | cons x₀ rest =>
    rw [hoffers] at happly
    obtain ⟨before, -, hbefore, -⟩ :=
      (derives_of_relocating hrule happly List.mem_cons_self).pieces hrule
    refine .inr ⟨before, hbefore, fun x hx => ?_⟩
    obtain ⟨c, after, hc, hafter, hclauses, hleaves⟩ :=
      (derives_of_relocating hrule happly hx).pieces hrule
    cases hbefore.unique hc
    exact ⟨after, hafter, hclauses, hleaves⟩

section Triangle

private def corners : Lookup :=
  .ofTable [(0, .scanAll "s" "a"), (1, .scanAll "s" "b"), (2, .scanAll "s" "c"),
    (3, .join ⟨.inner, .and [.and [], .always, .col "a" "p"]⟩ (.group 0) (.group 1))]

private def closing : Plan :=
  .join ⟨.inner, .and [.binary .eq (.col "b" "x") (.col "c" "x"), .and [.literal .null, .always,
    .binary .eq (.col "a" "y") (.col "c" "y")]]⟩ (.group 3) (.group 2)

/-- A join of three tables, each of which is compared with the third, is rotated in both ways.
The conditions have `TRUE`, a conjunct without tables, and conjunctions without members. -/
theorem pieces_of_triangle :
    ∃ one two before, rotateJoin ∈ relocating ∧
      rotateJoin.apply ⟨.empty, .indifferent, 0, 1⟩ corners closing =
        .ok [.alternative one, .alternative two] ∧
      TakesApart corners rotateJoin closing before ∧ before.clauses.length = 4 ∧
      ∀ q ∈ [one, two], ∃ after, PutsTogether rotateJoin q after ∧
        before.clauses.Perm after.clauses ∧ before.leaves.Perm after.leaves := by
  have hrule : rotateJoin ∈ relocating := by simp [relocating]
  have happly : rotateJoin.apply ⟨.empty, .indifferent, 0, 1⟩ corners closing =
      .ok [.alternative (.join ⟨.inner, .and [.col "a" "p", .literal .null,
          .binary .eq (.col "a" "y") (.col "c" "y")]⟩ (.group 0)
          (.join ⟨.inner, .binary .eq (.col "b" "x") (.col "c" "x")⟩ (.group 1) (.group 2))),
        .alternative (.join ⟨.inner, .and [.col "a" "p", .binary .eq (.col "b" "x") (.col "c" "x"),
          .literal .null]⟩ (.group 1)
          (.join ⟨.inner, .binary .eq (.col "a" "y") (.col "c" "y")⟩ (.group 0) (.group 2)))] := by
    decide +kernel
  have hshown : corners.expose (.group 3) = .ok (.join
      ⟨.inner, .and [.and [], .always, .col "a" "p"]⟩ (.group 0) (.group 1)) := by decide +kernel
  have hseen : TakesApart corners rotateJoin closing
      ⟨[.and [.and [], .always, .col "a" "p"], .and [.binary .eq (.col "b" "x") (.col "c" "x"),
        .and [.literal .null, .always, .binary .eq (.col "a" "y") (.col "c" "y")]]],
        [.group 0, .group 1, .group 2]⟩ := .rotate hshown
  rcases pieces_of_apply hrule happly with h | ⟨before, hbefore, hoffers⟩
  · cases h
  · cases hbefore.unique hseen
    refine ⟨_, _, _, hrule, happly, hseen, by decide +kernel, fun q hq => ?_⟩
    exact hoffers (.alternative q) (List.mem_map_of_mem hq)

end Triangle

end Rule

end PlanOptimizer
