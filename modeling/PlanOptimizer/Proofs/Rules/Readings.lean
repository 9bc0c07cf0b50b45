import PlanOptimizer.Proofs.Rules.Conserved
import PlanOptimizer.Proofs.Tables

/-!
# Readings of plans

A *reading* tells what a plan stands for from what its inputs stand for, given what groups stand
for.  Other than a `Meaning` it may tell spellings of literals apart, and other than for the
groups of a memo nothing is asked of a lookup but that the references among the inputs of a plan
stand for what the lookup shows there.

`Rule.Derives` lists what the standard rules offer for a plan through any lookup, one case for each
rule, and `Rule.derives_of_apply` says that there are no other offers.
-/

namespace PlanOptimizer

universe u

/-- What operators stand for, given what their inputs stand for. -/
structure Reading (V : Type u) where
  /-- A scan. -/
  scan : Scan → V
  /-- An operator over one input. -/
  unary : Unary → V → V
  /-- A join. -/
  join : Join → V → V → V

namespace Reading

variable {V : Type u} (R : Reading V)

/-- What a plan stands for, given what groups stand for. -/
def value (D : GroupId → V) : Plan → V
  | .scan s => R.scan s
  | .unary op a => R.unary op (value D a)
  | .join j a b => R.join j (value D a) (value D b)
  | .group id => D id

/-- The references among the inputs of a plan stand for what they show. -/
def Follows (D : GroupId → V) (lookup : Lookup) (p : Plan) : Prop :=
  ∀ id q, .group id ∈ p.inputs → lookup.find id = some q → R.value D q = D id

variable {R} {D : GroupId → V} {lookup : Lookup} {p q y : Plan}

/-- An input stands for what is seen of it. -/
theorem Follows.expose (h : R.Follows D lookup p) (hy : y ∈ p.inputs)
    (hq : lookup.expose y = .ok q) : R.value D q = R.value D y := by
  cases y with
  | scan op =>
    cases hq
    rfl
  | unary op a =>
    cases hq
    rfl
  | join j a b =>
    cases hq
    rfl
  | group id => exact h id q hy (Lookup.get_eq_ok_iff.mp hq)

end Reading

/-! ## What a rule looks at -/

/-- What a filter or a join asks of rows. -/
def Plan.condition? : Plan → Option Expr
  | .filter e _ => some e
  | .join j _ _ => some j.condition
  | _ => none

/-- The first input of a plan as a rule sees it, if the rule looks at inputs. -/
def Rule.Shows (rule : Rule) (lookup : Lookup) (p q : Plan) : Prop :=
  rule.pattern.inspectsInputs = true ∧ ∃ y, p.inputs.head? = some y ∧ lookup.expose y = .ok q

/-- The plans whose top operators a rule looks at. -/
def Rule.Sees (rule : Rule) (lookup : Lookup) (p q : Plan) : Prop :=
  q = p ∨ rule.Shows lookup p q

namespace Rule

/-! ## Where conjuncts go -/

/-- A conjunct that is confined to some tables mentions a table, and only some of these. -/
theorem tables_of_confined {names : List String} {e : Expr} (h : confined names e = true) :
    e.tables ≠ [] ∧ ∀ t ∈ e.tables, t ∈ names := by
  rw [confined, Bool.and_eq_true_iff, List.all_eq_true] at h
  exact ⟨by simpa using h.1, fun t ht => by simpa using h.2 t ht⟩

/-- A conjunct that connects two inputs mentions a table, and only tables of these inputs. -/
theorem tables_of_connects {moving last : List String} {e : Expr}
    (h : connects moving last e = true) :
    e.tables ≠ [] ∧ ∀ t ∈ e.tables, t ∈ moving ∨ t ∈ last := by
  rw [connects, Bool.and_eq_true_iff, Bool.and_eq_true_iff, List.all_eq_true] at h
  obtain ⟨⟨hnames, hsome⟩, -⟩ := h
  refine ⟨fun hnone => ?_, fun t ht => by simpa using hnames t ht⟩
  rw [hnone] at hsome
  cases hsome

/-! ## What is offered -/

/-- What a standard rule offers for a plan. -/
inductive Derives (lookup : Lookup) : Rule → Plan → Plan → Prop where
  /-- A filter for `TRUE` goes. -/
  | trivial {e : Expr} {y : Plan} (isTrue : e.isTrue = true) :
      Derives lookup removeTrivialFilter (.filter e y) y
  /-- A filter over a filter becomes one filter. -/
  | merge {outer inner : Expr} {y z : Plan} (shown : lookup.expose y = .ok (.filter inner z)) :
      Derives lookup mergeFilters (.filter outer y) (.filter (Expr.conjunction [inner, outer]) z)
  /-- The conjuncts of a filter over a join go into the join. -/
  | route {e : Expr} {j : Join} {y l r : Plan} {lefts rights : List String}
      (shown : lookup.expose y = .ok (.join j l r)) (movable : movable j.kind = true)
      (at_left : l.tables lookup = .ok lefts) (at_right : r.tables lookup = .ok rights) :
      Derives lookup routePredicates (.filter e y) (routed e j l r lefts rights)
  /-- A scan under a projection is narrowed. -/
  | prune {es : List Expr} {names : List String} {y : Plan} {s : Scan}
      (shown : lookup.expose y = .ok (.scan s)) :
      Derives lookup pruneColumns (.project es names y)
        (.project es names (.scan { s with columns := distinctColumns (es.flatMap Expr.columns) }))
  /-- The inputs of a join change sides. -/
  | swap {j : Join} {l r : Plan} (symmetric : j.kind = .inner ∨ j.kind = .cross) :
      Derives lookup swapJoin (.join j l r)
        (.join { j with condition := swapSides j.condition } r l)
  /-- One input of a join below a join stays outside, and the other one moves. -/
  | rotate {outer inner : Expr} {y a b c stay move : Plan} {moving last : List String}
      (shown : lookup.expose y = .ok (.join ⟨.inner, inner⟩ a b))
      (sides : stay = a ∧ move = b ∨ stay = b ∧ move = a)
      (at_move : move.tables lookup = .ok moving) (at_last : c.tables lookup = .ok last) :
      Derives lookup rotateJoin (.join ⟨.inner, outer⟩ y c)
        (.join ⟨.inner, Expr.conjunction (inner.conjuncts ++
            outer.conjuncts.filter fun e => !connects moving last e)⟩ stay
          (.join ⟨.inner, Expr.conjunction (outer.conjuncts.filter (connects moving last))⟩ move c))

variable {lookup : Lookup} {p : Plan} {offers : List Offer} {x : Offer}

theorem derives_of_withoutFilter (haccepts : isTrivialFilter p = true)
    (hx : x ∈ withoutFilter p) : Derives lookup removeTrivialFilter p x.plan := by
  cases p with
  | unary op y =>
    cases op with
    | filter e =>
      cases List.mem_singleton.mp hx
      exact .trivial haccepts
    | _ => cases haccepts
  | _ => cases haccepts

theorem derives_of_mergedFilter (happly : mergedFilter lookup p = .ok offers) (hx : x ∈ offers) :
    Derives lookup mergeFilters p x.plan := by
  unfold mergedFilter at happly
  split at happly
  · obtain ⟨q, hq, happly⟩ := bind_eq_ok.mp happly
    split at happly
    · cases happly
      cases List.mem_singleton.mp hx
      exact .merge hq
    · cases happly
      cases hx
  · cases happly
    cases hx

theorem derives_of_routedFilter (happly : routedFilter lookup p = .ok offers) (hx : x ∈ offers) :
    Derives lookup routePredicates p x.plan := by
  unfold routedFilter at happly
  split at happly
  · obtain ⟨q, hq, happly⟩ := bind_eq_ok.mp happly
    split at happly
    · split at happly
      · next hmovable =>
        obtain ⟨lefts, hlefts, happly⟩ := bind_eq_ok.mp happly
        obtain ⟨rights, hrights, happly⟩ := bind_eq_ok.mp happly
        cases happly
        cases List.mem_singleton.mp hx
        exact .route hq hmovable hlefts hrights
      · cases happly
        cases hx
    · cases happly
      cases hx
  · cases happly
    cases hx

theorem derives_of_prunedScan {catalog : Catalog Float}
    (happly : prunedScan catalog lookup p = .ok offers) (hx : x ∈ offers) :
    Derives lookup pruneColumns p x.plan := by
  unfold prunedScan at happly
  split at happly
  · obtain ⟨q, hq, happly⟩ := bind_eq_ok.mp happly
    split at happly
    · dsimp only at happly
      split at happly
      · cases happly
        cases List.mem_singleton.mp hx
        exact .prune hq
      · cases happly
        cases hx
    · cases happly
      cases hx
  · cases happly
    cases hx

theorem derives_of_swapped (haccepts : isSymmetric p = true) (hx : x ∈ swapped p) :
    Derives lookup swapJoin p x.plan := by
  cases p with
  | join j l r =>
    cases List.mem_singleton.mp hx
    exact .swap (of_decide_eq_true haccepts)
  | _ => cases haccepts

theorem derives_of_rotated (happly : rotated lookup p = .ok offers) (hx : x ∈ offers) :
    Derives lookup rotateJoin p x.plan := by
  unfold rotated at happly
  split at happly
  · obtain ⟨q, hq, happly⟩ := bind_eq_ok.mp happly
    split at happly
    · obtain ⟨as, has, happly⟩ := bind_eq_ok.mp happly
      obtain ⟨bs, hbs, happly⟩ := bind_eq_ok.mp happly
      obtain ⟨cs, hcs, happly⟩ := bind_eq_ok.mp happly
      cases happly
      obtain ⟨r, hr, hx⟩ := List.mem_filterMap.mp hx
      obtain ⟨q, rfl, rfl⟩ := Option.map_eq_some_iff.mp hx
      rcases List.mem_pair.mp hr with hr | hr
      · rw [Offer.plan, rotation_eq_some hr.symm]
        exact .rotate hq (.inl ⟨rfl, rfl⟩) hbs hcs
      · rw [Offer.plan, rotation_eq_some hr.symm]
        exact .rotate hq (.inr ⟨rfl, rfl⟩) has hcs
    · cases happly
      cases hx
  · cases happly
    cases hx

/-- All that the standard rules offer for the plans that they accept is derived in this way. -/
theorem derives_of_apply {rule : Rule} (hrule : rule ∈ standard) {context : Context}
    (haccepts : rule.accepts p = true) (happly : rule.apply context lookup p = .ok offers)
    (hx : x ∈ offers) : Derives lookup rule p x.plan := by
  simp only [standard, List.mem_cons, List.not_mem_nil, or_false] at hrule
  rcases hrule with rfl | rfl | rfl | rfl | rfl | rfl
  · cases happly
    exact derives_of_withoutFilter haccepts hx
  · exact derives_of_mergedFilter happly hx
  · exact derives_of_routedFilter happly hx
  · exact derives_of_prunedScan happly hx
  · cases happly
    exact derives_of_swapped haccepts hx
  · exact derives_of_rotated happly hx

end Rule

end PlanOptimizer
