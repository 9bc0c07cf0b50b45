import PlanOptimizer.Proofs.Memo.Below
import PlanOptimizer.Proofs.Memo.Faults
import PlanOptimizer.Proofs.Unfolding
import PlanOptimizer.Rule.Standard

/-!
# What the standard rules offer

`Rewrite` lists the offers that the standard rules make for a shape, one case for each rule.
`answers_of_applies` says that there are no others, and that a standard rule does not fail on a
representative of a valid memo.  What is to be proved of all offers is proved by these cases.
-/

namespace PlanOptimizer

open Rule

/-- An offer of a standard rule for a shape. -/
inductive Rewrite (m : Memo) : Shape → Offer → Prop where
  /-- A filter for `TRUE` is replaced by its input. -/
  | trivial {p : Expr} {y : GroupId} (isTrue : p.isTrue = true) :
      Rewrite m (.unary (.filter p) y) (.replacement (.group y))
  /-- A filter over a filter is replaced by one filter. -/
  | merge {outer inner : Expr} {y z : GroupId} (at_y : m.rep? y = some (.unary (.filter inner) z)) :
      Rewrite m (.unary (.filter outer) y)
        (.replacement (.filter (Expr.conjunction [inner, outer]) (.group z)))
  /-- The conjuncts of a filter over a join go into the join. -/
  | route {p : Expr} {j : Join} {y l r : GroupId} {lefts rights : List String}
      (at_y : m.rep? y = some (.join j l r)) (movable : movable j.kind = true) :
      Rewrite m (.unary (.filter p) y)
        (.alternative (routed p j (.group l) (.group r) lefts rights))
  /-- A scan under a projection is narrowed. -/
  | prune {es : List Expr} {names : List String} {y : GroupId} {s : Scan}
      (at_y : m.rep? y = some (.scan s)) :
      Rewrite m (.unary (.project es names) y)
        (.alternative (.project es names
          (.scan { s with columns := distinctColumns (es.flatMap Expr.columns) })))
  /-- The inputs of a join change sides. -/
  | swap {j : Join} {a b : GroupId} (symmetric : j.kind = .inner ∨ j.kind = .cross) :
      Rewrite m (.join j a b)
        (.alternative (.join { j with condition := swapSides j.condition } (.group b) (.group a)))
  /-- One input of a join below a join stays outside, and the other one moves. -/
  | rotate {outer inner : Expr} {y a b c stay move : GroupId} {moving last : List String} {q : Plan}
      (at_y : m.rep? y = some (.join ⟨.inner, inner⟩ a b))
      (sides : stay = a ∧ move = b ∨ stay = b ∧ move = a)
      (rotated : rotation outer inner (.group stay) (.group move) (.group c) moving last = some q) :
      Rewrite m (.join ⟨.inner, outer⟩ y c) (.alternative q)

/-- Offers that are made together: there is only one, or none has to be taken. -/
def Tame (offers : List Offer) : Prop := offers.length ≤ 1 ∨ ∀ x ∈ offers, x.forced = false

theorem Tame.alone {offers : List Offer} {x : Offer} (h : Tame offers) (hx : x ∈ offers)
    (hforced : x.forced = true) : offers = [x] := by
  rcases h with hlength | hnone
  · obtain ⟨y, rfl⟩ := List.length_eq_one_iff.mp (Nat.le_antisymm hlength (List.length_pos_of_mem hx))
    rw [List.mem_singleton.mp hx]
  · exact absurd hforced (by simp [hnone x hx])

variable {m : Memo} {id : GroupId} {s : Shape}

/-! ## Looking at inputs -/

namespace Memo

theorem Valid.settle_ok (hv : m.Valid) {p : Plan} (hp : ∀ i ∈ p.groups, i < m.size) :
    ∃ top, m.lookup.settle p = .ok top ∧ ∀ q ∈ top.inputs, ∀ i ∈ q.groups, i < m.size := by
  cases p with
  | group i =>
    obtain ⟨s, hs⟩ := Option.isSome_iff_exists.mp (rep?_isSome_iff.mpr (hp i (by simp [Plan.groups])))
    refine ⟨s.map Plan.group, by rw [settle_group, hs], fun q hq x hx => ?_⟩
    rw [Node.inputs_map] at hq
    obtain ⟨y, hy, rfl⟩ := List.mem_map.mp hq
    cases List.mem_singleton.mp hx
    exact hv.live_rep hs _ hy
  | scan op =>
    refine ⟨.scan op, rfl, fun q hq => ?_⟩
    cases hq
  | unary op a =>
    refine ⟨.unary op a, rfl, fun q hq => ?_⟩
    cases List.mem_singleton.mp hq
    exact hp
  | join j a b =>
    refine ⟨.join j a b, rfl, fun q hq i hi => ?_⟩
    rcases List.mem_pair.mp hq with rfl | rfl
    · exact hp i (List.mem_append_left _ hi)
    · exact hp i (List.mem_append_right _ hi)

end Memo

namespace Pattern

mutual

/-- A pattern can be tested on every plan over groups that exist. -/
theorem fits_ok (hv : m.Valid) : ∀ (pattern : Pattern) {p : Plan}, (∀ i ∈ p.groups, i < m.size) →
    ∃ b, pattern.fits m.lookup p = .ok b
  | .any, _, _ => ⟨true, by unfold fits; rfl⟩
  | .leaf, _, h => by
    obtain ⟨top, htop, -⟩ := hv.settle_ok h
    unfold fits
    rw [htop]
    exact ⟨_, rfl⟩
  | .operator kind inputs, _, h => by
    obtain ⟨top, htop, hinputs⟩ := hv.settle_ok h
    obtain ⟨b, hb⟩ := fitsAll_ok hv inputs hinputs
    unfold fits
    rw [htop]
    show ∃ b, (if fitsTop (.operator kind inputs) top.plan then
      fitsAll m.lookup inputs top.inputs else Except.ok false) = Except.ok b
    split
    · exact ⟨b, hb⟩
    · exact ⟨false, rfl⟩

theorem fitsAll_ok (hv : m.Valid) : ∀ (patterns : List Pattern) {ps : List Plan},
    (∀ p ∈ ps, ∀ i ∈ p.groups, i < m.size) → ∃ b, fitsAll m.lookup patterns ps = .ok b
  | pattern :: patterns, p :: ps, h => by
    obtain ⟨b, hb⟩ := fits_ok hv pattern (h p List.mem_cons_self)
    obtain ⟨b', hb'⟩ := fitsAll_ok hv patterns fun q hq => h q (List.mem_cons_of_mem _ hq)
    unfold fitsAll
    rw [hb]
    cases b with
    | true => exact ⟨b', hb'⟩
    | false => exact ⟨false, rfl⟩
  | [], _, _ => ⟨true, by unfold fitsAll; rfl⟩
  | _ :: _, [], _ => ⟨true, by unfold fitsAll; rfl⟩

end

end Pattern

namespace Memo

/-- Whether a rule applies is told for every shape over groups that exist. -/
theorem Valid.applies_ok (hv : m.Valid) (rule : Rule) (hlive : ∀ i ∈ s.inputs, i < m.size) :
    ∃ b, rule.applies m.lookup s.overGroups = .ok b := by
  unfold Rule.applies
  split
  · split
    · exact Pattern.fits_ok hv _ (by simpa using hlive)
    · exact ⟨true, rfl⟩
  · exact ⟨false, rfl⟩

/-- The tables below a plan are told if its groups exist. -/
theorem Valid.tables_ok (hv : m.Valid) {p : Plan} (hp : ∀ i ∈ p.groups, i < m.size) :
    ∃ names, p.tables m.lookup = .ok names := by
  obtain ⟨t, ht, -⟩ := hv.resolve_plan_ok hp
  obtain ⟨names, hnames, -⟩ := Plan.tables_of_resolve ht
  exact ⟨names, hnames⟩

theorem expose_group (h : m.rep? id = some s) : m.lookup.expose (.group id) = .ok s.overGroups :=
  get_lookup_of_rep h

end Memo

/-! ## The rules -/

/-- A rule answers for a shape, and all its offers are rewrites. -/
def Answers (m : Memo) (s : Shape) (answer : Except Fault (List Offer)) : Prop :=
  ∃ offers, answer = .ok offers ∧ (∀ x ∈ offers, Rewrite m s x) ∧ Tame offers

theorem answers_nil : Answers m s (.ok []) :=
  ⟨[], rfl, (fun _ h => nomatch h), .inl (Nat.zero_le _)⟩

theorem answers_one {x : Offer} (h : Rewrite m s x) : Answers m s (.ok [x]) := by
  refine ⟨[x], rfl, fun y hy => ?_, .inl (Nat.le_refl _)⟩
  cases List.mem_singleton.mp hy
  exact h

theorem Memo.rep?_of_lt (h : id < m.size) : ∃ t, m.rep? id = some t :=
  Option.isSome_iff_exists.mp (Memo.rep?_isSome_iff.mpr h)

theorem answers_removeTrivialFilter (context : Context)
    (happlies : removeTrivialFilter.applies m.lookup s.overGroups = .ok true) :
    Answers m s (removeTrivialFilter.apply context m.lookup s.overGroups) := by
  cases s with
  | unary op y =>
    cases op with
    | filter p =>
      refine answers_one (.trivial ?_)
      by_contra hne
      have hreject : isTrivialFilter (Node.unary (.filter p) y).overGroups = false :=
        Bool.eq_false_iff.mpr hne
      unfold Rule.applies at happlies
      simp [removeTrivialFilter, hreject] at happlies
    | _ => exact answers_nil
  | _ => exact answers_nil

theorem answers_mergeFilters (hlive : ∀ i ∈ s.inputs, i < m.size) (context : Context) :
    Answers m s (mergeFilters.apply context m.lookup s.overGroups) := by
  cases s with
  | unary op y =>
    cases op with
    | filter outer =>
      obtain ⟨t, ht⟩ := Memo.rep?_of_lt (hlive y (by simp [Node.inputs]))
      show Answers m _ (m.lookup.expose (.group y) >>= _)
      rw [Memo.expose_group ht]
      cases t with
      | unary inner z =>
        cases inner with
        | filter p => exact answers_one (.merge ht)
        | _ => exact answers_nil
      | _ => exact answers_nil
    | _ => exact answers_nil
  | _ => exact answers_nil

theorem answers_routePredicates (hv : m.Valid) (hlive : ∀ i ∈ s.inputs, i < m.size)
    (context : Context) : Answers m s (routePredicates.apply context m.lookup s.overGroups) := by
  cases s with
  | unary op y =>
    cases op with
    | filter p =>
      obtain ⟨t, ht⟩ := Memo.rep?_of_lt (hlive y (by simp [Node.inputs]))
      show Answers m _ (m.lookup.expose (.group y) >>= _)
      rw [Memo.expose_group ht]
      cases t with
      | join j l r =>
        obtain ⟨lefts, hlefts⟩ := hv.tables_ok (p := .group l) fun i hi =>
          hv.live_rep ht i (by simp_all [Plan.groups, Node.inputs])
        obtain ⟨rights, hrights⟩ := hv.tables_ok (p := .group r) fun i hi =>
          hv.live_rep ht i (by simp_all [Plan.groups, Node.inputs])
        show Answers m _ (if movable j.kind then
          (Plan.group l).tables m.lookup >>= _ else _)
        split
        · next hmovable =>
          rw [hlefts]
          show Answers m _ ((Plan.group r).tables m.lookup >>= _)
          rw [hrights]
          exact answers_one (.route ht hmovable)
        · exact answers_nil
      | _ => exact answers_nil
    | _ => exact answers_nil
  | _ => exact answers_nil

theorem answers_pruneColumns (hlive : ∀ i ∈ s.inputs, i < m.size) (context : Context) :
    Answers m s (pruneColumns.apply context m.lookup s.overGroups) := by
  cases s with
  | unary op y =>
    cases op with
    | project es names =>
      obtain ⟨t, ht⟩ := Memo.rep?_of_lt (hlive y (by simp [Node.inputs]))
      show Answers m _ (m.lookup.expose (.group y) >>= _)
      rw [Memo.expose_group ht]
      cases t with
      | scan op =>
        show Answers m _ (if saves _ _ then _ else _)
        split
        · exact answers_one (.prune ht)
        · exact answers_nil
      | _ => exact answers_nil
    | _ => exact answers_nil
  | _ => exact answers_nil

theorem answers_swapJoin (context : Context)
    (happlies : swapJoin.applies m.lookup s.overGroups = .ok true) :
    Answers m s (swapJoin.apply context m.lookup s.overGroups) := by
  cases s with
  | join j a b =>
    refine answers_one (.swap ?_)
    by_contra hne
    have hreject : isSymmetric (Node.join j a b).overGroups = false := decide_eq_false hne
    unfold Rule.applies at happlies
    simp [swapJoin, hreject] at happlies
  | _ => exact answers_nil

theorem answers_rotateJoin (hv : m.Valid) (hlive : ∀ i ∈ s.inputs, i < m.size)
    (context : Context) : Answers m s (rotateJoin.apply context m.lookup s.overGroups) := by
  have hnames : ∀ i < m.size, ∃ names, (Plan.group i).tables m.lookup = .ok names := fun i hi =>
    hv.tables_ok fun x hx => List.mem_singleton.mp hx ▸ hi
  cases s with
  | join j y c =>
    obtain ⟨kind, outer⟩ := j
    cases kind with
    | inner =>
      obtain ⟨t, ht⟩ := Memo.rep?_of_lt (hlive y (by simp [Node.inputs]))
      show Answers m _ (m.lookup.expose (.group y) >>= _)
      rw [Memo.expose_group ht]
      cases t with
      | join below a b =>
        obtain ⟨kind, inner⟩ := below
        cases kind with
        | inner =>
          obtain ⟨as, has⟩ := hnames a (hv.live_rep ht a (by simp [Node.inputs]))
          obtain ⟨bs, hbs⟩ := hnames b (hv.live_rep ht b (by simp [Node.inputs]))
          obtain ⟨cs, hcs⟩ := hnames c (hlive c (by simp [Node.inputs]))
          show Answers m _ ((Plan.group a).tables m.lookup >>= _)
          rw [has]
          show Answers m _ ((Plan.group b).tables m.lookup >>= _)
          rw [hbs]
          show Answers m _ ((Plan.group c).tables m.lookup >>= _)
          rw [hcs]
          refine ⟨_, rfl, fun x hx => ?_, .inr fun x hx => ?_⟩
          · obtain ⟨r, hr, hx⟩ := List.mem_filterMap.mp hx
            obtain ⟨q, rfl, rfl⟩ := Option.map_eq_some_iff.mp hx
            rcases List.mem_pair.mp hr with hr | hr
            · exact .rotate ht (.inl ⟨rfl, rfl⟩) hr.symm
            · exact .rotate ht (.inr ⟨rfl, rfl⟩) hr.symm
          · obtain ⟨r, -, hx⟩ := List.mem_filterMap.mp hx
            obtain ⟨q, -, rfl⟩ := Option.map_eq_some_iff.mp hx
            rfl
        | _ => exact answers_nil
      | _ => exact answers_nil
    | _ => exact answers_nil
  | _ => exact answers_nil

/-- A standard rule does not fail on a representative, and all that it offers are rewrites. -/
theorem answers_of_applies (hv : m.Valid) (hs : m.rep? id = some s) {rule : Rule}
    (hrule : rule ∈ Rule.standard) (context : Context)
    (happlies : rule.applies m.lookup s.overGroups = .ok true) :
    Answers m s (rule.apply context m.lookup s.overGroups) := by
  have hlive := hv.live_rep hs
  simp only [Rule.standard, List.mem_cons, List.not_mem_nil, or_false] at hrule
  rcases hrule with rfl | rfl | rfl | rfl | rfl | rfl
  · exact answers_removeTrivialFilter context happlies
  · exact answers_mergeFilters hlive context
  · exact answers_routePredicates hv hlive context
  · exact answers_pruneColumns hlive context
  · exact answers_swapJoin context happlies
  · exact answers_rotateJoin hv hlive context

end PlanOptimizer
