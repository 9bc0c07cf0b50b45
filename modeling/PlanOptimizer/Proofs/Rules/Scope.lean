import Mathlib.Data.Set.Card
import Mathlib.Data.Set.Finite.List
import PlanOptimizer.Proofs.Rules.Conserved

/-!
# What a run is made of

The standard rules make up no operator: they narrow scans, and they put predicates together
from conjuncts that are there already.  A `Scope` lists what they can use.  It is closed
under the rules, it is finite, and it bounds how bulky a predicate becomes, so there are
finitely many operators within a scope (`Scope.finite_heads`).
-/

namespace PlanOptimizer

open Rule

/-! ## Finitely many predicates -/

theorem finite_lists {α : Type} {L : Set α} (hL : L.Finite) (n : Nat) :
    {l : List α | l.length ≤ n ∧ ∀ x ∈ l, x ∈ L}.Finite := by
  have : Finite L := hL
  refine ((List.finite_length_le L n).image (List.map Subtype.val)).subset ?_
  rintro l ⟨hlength, hmem⟩
  exact ⟨l.attach.map fun x => ⟨x.1, hmem x.1 x.2⟩, by simpa using hlength, by simp⟩

theorem Expr.length_le_nodesAll (ps : List Expr) : ps.length ≤ nodesAll ps := by
  induction ps with
  | nil => exact Nat.le_refl _
  | cons p ps ih =>
    have hpos : 0 < nodes p := by cases p <;> simp [nodes]
    simp only [List.length_cons, nodesAll]
    omega

theorem Expr.nodes_le_nodesAll {p : Expr} {ps : List Expr} (h : p ∈ ps) : nodes p ≤ nodesAll ps := by
  induction ps with
  | nil => cases h
  | cons q ps ih =>
    simp only [nodesAll]
    rcases List.mem_cons.mp h with rfl | h
    · omega
    · have := ih h
      omega

/-- Finitely many conjuncts make finitely many predicates of a given bulk. -/
theorem Expr.finite_predicates {L : Set Expr} (hL : L.Finite) (n : Nat) :
    {e : Expr | e.nodes ≤ n ∧ ∀ c ∈ e.conjuncts, c ∈ L}.Finite := by
  induction n with
  | zero =>
    refine Set.finite_empty.subset ?_
    rintro e ⟨hnodes, -⟩
    cases e <;> simp [nodes] at hnodes
  | succ n ih =>
    refine (hL.union ((finite_lists ih n).image Expr.and)).subset ?_
    rintro e ⟨hnodes, hmem⟩
    by_cases hleaf : e.isLeaf = true
    · exact .inl (hmem e (by simp [conjuncts_of_isLeaf hleaf]))
    · cases e with
      | and ps =>
        simp only [nodes] at hnodes
        have hlength := length_le_nodesAll ps
        refine .inr ⟨ps, ⟨by omega, fun p hp => ⟨?_, fun c hc => ?_⟩⟩, rfl⟩
        · have := nodes_le_nodesAll hp
          omega
        · rw [conjuncts_and] at hmem
          exact hmem c (List.mem_flatMap.mpr ⟨p, hp, hc⟩)
      | _ => exact absurd rfl hleaf

/-! ## Scopes -/

/-- What the operators of a run are made of, and how large it may become. -/
structure Scope where
  /-- The scans. -/
  scans : Set Scan
  /-- The operators over one input, but for filters. -/
  units : Set Unary
  /-- The conjuncts of predicates. -/
  leaves : Set Expr
  /-- What a group may weigh. -/
  weight : Nat
  /-- What the height of a group may have beyond three for each unit of its weight. -/
  slack : Nat
  finite_scans : scans.Finite
  finite_units : units.Finite
  finite_leaves : leaves.Finite
  /-- A scan may be narrowed for a projection. -/
  narrowed : ∀ {s es names}, s ∈ scans → .project es names ∈ units →
    { s with columns := distinctColumns (es.flatMap Expr.columns) } ∈ scans
  always_mem : Expr.always ∈ leaves
  /-- The sides of an equality may be exchanged. -/
  swapped : ∀ {e}, e ∈ leaves → swapSides e ∈ leaves

namespace Scope

variable {S : Scope} {α β : Type} {e : Expr} {ps : List Expr}

/-- What the height of a group may be. -/
def height (S : Scope) : Nat := S.slack + 3 * S.weight

/-- A predicate of the scope. -/
structure Predicate (S : Scope) (e : Expr) : Prop where
  leaves : ∀ c ∈ e.conjuncts, c ∈ S.leaves
  nodes : e.nodes ≤ S.height + 1

/-- An operator of the scope, whatever its inputs are. -/
def Has (S : Scope) : Node α → Prop
  | .scan s => s ∈ S.scans
  | .unary (.filter p) _ => S.Predicate p
  | .unary op _ => op ∈ S.units
  | .join j _ _ => S.Predicate j.condition

theorem has_map {f : α → β} {n : Node α} : S.Has (n.map f) ↔ S.Has n := by
  cases n with
  | unary op a => cases op <;> exact Iff.rfl
  | _ => exact Iff.rfl

/-! ### Finitely many operators -/

instance : Finite JoinKind :=
  Set.finite_univ_iff.mp <| (List.finite_toSet
    [JoinKind.inner, .left, .right, .full, .semi, .anti, .cross]).subset fun k _ => by
      cases k <;> simp

/-- There are finitely many operators within a scope. -/
theorem finite_heads (S : Scope) : {h : Node Unit | S.Has h}.Finite := by
  have hpredicates : {e : Expr | S.Predicate e}.Finite :=
    (Expr.finite_predicates S.finite_leaves (S.height + 1)).subset fun e he => ⟨he.nodes, he.leaves⟩
  have hscans := S.finite_scans.image fun s => (Node.scan s : Node Unit)
  have hunits := S.finite_units.image fun op => Node.unary op ()
  have hfilters := hpredicates.image fun p => Node.unary (.filter p) ()
  have hjoins := (Set.finite_univ.prod hpredicates).image
    fun (kp : JoinKind × Expr) => Node.join ⟨kp.1, kp.2⟩ () ()
  refine (((hscans.union hunits).union hfilters).union hjoins).subset ?_
  intro h hh
  cases h with
  | scan s => exact .inl (.inl (.inl ⟨s, hh, rfl⟩))
  | unary op a =>
    cases op with
    | filter p => exact .inl (.inr ⟨p, hh, rfl⟩)
    | _ => exact .inl (.inl (.inr ⟨_, hh, rfl⟩))
  | join j a b => exact .inr ⟨(j.kind, j.condition), ⟨trivial, hh⟩, rfl⟩

/-- The operators within a scope. -/
noncomputable def heads (S : Scope) : Finset (Node Unit) := S.finite_heads.toFinset

/-- An operator over given groups. -/
def fill (a b : GroupId) : Node Unit → Shape
  | .scan s => .scan s
  | .unary op _ => .unary op a
  | .join j _ _ => .join j a b

/-- The shapes within a scope over some groups. -/
noncomputable def shapes (S : Scope) (ids : Finset GroupId) : Finset Shape :=
  (S.heads ×ˢ insert 0 ids ×ˢ insert 0 ids).image fun x => fill x.2.1 x.2.2 x.1

theorem mem_shapes {ids : Finset GroupId} {s : Shape} (hs : S.Has s) (hids : ∀ i ∈ s.inputs, i ∈ ids) :
    s ∈ S.shapes ids := by
  have hhead : s.map (fun _ => ()) ∈ S.heads := S.finite_heads.mem_toFinset.mpr (has_map.mpr hs)
  have hmem : ∀ {a b : GroupId}, a ∈ insert 0 ids → b ∈ insert 0 ids →
      fill a b (s.map fun _ => ()) = s → s ∈ S.shapes ids := fun ha hb hfill =>
    Finset.mem_image.mpr ⟨(_, _, _), Finset.mem_product.mpr
      ⟨hhead, Finset.mem_product.mpr ⟨ha, hb⟩⟩, hfill⟩
  have hzero : 0 ∈ insert 0 ids := Finset.mem_insert_self 0 ids
  cases s with
  | scan op => exact hmem hzero hzero rfl
  | unary op a =>
    exact hmem (Finset.mem_insert_of_mem (hids a (by simp [Node.inputs]))) hzero rfl
  | join j a b =>
    exact hmem (Finset.mem_insert_of_mem (hids a (by simp [Node.inputs])))
      (Finset.mem_insert_of_mem (hids b (by simp [Node.inputs]))) rfl

/-- How many shapes there are over a number of groups, at most. -/
noncomputable def spread (S : Scope) (n : Nat) : Nat := S.heads.card * ((n + 1) * (n + 1))

theorem card_shapes_le {ids : Finset GroupId} {n : Nat} (h : ids.card ≤ n) :
    (S.shapes ids).card ≤ S.spread n := by
  have hinsert : (insert 0 ids).card ≤ n + 1 :=
    (Finset.card_insert_le 0 ids).trans (Nat.add_le_add_right h 1)
  refine Finset.card_image_le.trans ?_
  rw [Finset.card_product, Finset.card_product]
  exact Nat.mul_le_mul_left _ (Nat.mul_le_mul hinsert hinsert)

/-! ### The scope of some operators -/

/-- A scan after a projection has narrowed it. -/
def narrow (s : Scan) : Unary → Scan
  | .project es _ => { s with columns := distinctColumns (es.flatMap Expr.columns) }
  | _ => s

/-- Narrowing a scan again only replaces its columns once more. -/
theorem narrow_narrow {s : Scan} {op : Unary} {es : List Expr} {names : List String} :
    narrow (narrow s op) (.project es names) = narrow s (.project es names) := by
  cases op <;> rfl

/-- The operator of a node over one input. -/
def unary? : Node α → Option Unary
  | .unary op _ => some op
  | _ => none

/-- The predicate of a filter or of a join. -/
def predicate? : Node α → Option Expr
  | .unary (.filter p) _ => some p
  | .join j _ _ => some j.condition
  | _ => none

variable {heads : Set (Node α)}

/-- The scans among some operators. -/
def scansIn (heads : Set (Node α)) : Set Scan := {s | .scan s ∈ heads}

/-- The operators over one input among some operators. -/
def unitsIn (heads : Set (Node α)) : Set Unary := {op | ∃ a, .unary op a ∈ heads}

/-- The predicates of some operators. -/
def predicatesIn (heads : Set (Node α)) : Set Expr := {e | ∃ h ∈ heads, predicate? h = some e}

/-- The conjuncts of the predicates of some operators. -/
def leavesIn (heads : Set (Node α)) : Set Expr := ⋃ e ∈ predicatesIn heads, {c | c ∈ e.conjuncts}

theorem finite_scansIn (h : heads.Finite) : (scansIn heads).Finite := by
  refine (h.image fun n : Node α => match n with | .scan s => s | _ => ⟨⟨"", ""⟩, [], none⟩).subset ?_
  exact fun s hs => ⟨_, hs, rfl⟩

theorem finite_unitsIn (h : heads.Finite) : (unitsIn heads).Finite := by
  refine (h.image fun n => (unary? n).getD (.sort [])).subset ?_
  rintro op ⟨a, ha⟩
  exact ⟨_, ha, rfl⟩

theorem finite_predicatesIn (h : heads.Finite) : (predicatesIn heads).Finite := by
  refine (h.image fun n => (predicate? n).getD .always).subset ?_
  rintro e ⟨n, hn, he⟩
  exact ⟨n, hn, by simp [he]⟩

theorem finite_leavesIn (h : heads.Finite) : (leavesIn heads).Finite :=
  (finite_predicatesIn h).biUnion fun e _ => List.finite_toSet e.conjuncts

/-- The scope of some operators. -/
def spanned (hfinite : heads.Finite) (weight slack : Nat) : Scope where
  scans := scansIn heads ∪ Set.image2 narrow (scansIn heads) (unitsIn heads)
  units := unitsIn heads
  leaves := insert .always (leavesIn heads ∪ swapSides '' leavesIn heads)
  weight := weight
  slack := slack
  finite_scans :=
    (finite_scansIn hfinite).union ((finite_scansIn hfinite).image2 narrow (finite_unitsIn hfinite))
  finite_units := finite_unitsIn hfinite
  finite_leaves :=
    ((finite_leavesIn hfinite).union ((finite_leavesIn hfinite).image swapSides)).insert _
  narrowed := by
    rintro s es names (hs | ⟨s, hs, op, -, rfl⟩) hop
    · exact .inr ⟨s, hs, _, hop, rfl⟩
    · exact .inr ⟨s, hs, _, hop, narrow_narrow.symm⟩
  always_mem := Set.mem_insert _ _
  swapped := by
    rintro e (rfl | he | ⟨d, hd, rfl⟩)
    · exact Set.mem_insert _ _
    · exact .inr (.inr ⟨e, he, rfl⟩)
    · rw [swapSides_swapSides]
      exact .inr (.inl hd)

/-- Operators are within the scope that is made of them, if their predicates fit. -/
theorem has_spanned {hfinite : heads.Finite} {weight slack : Nat}
    (hnodes : ∀ e ∈ predicatesIn heads, e.nodes ≤ slack) :
    ∀ h ∈ heads, (spanned hfinite weight slack).Has h := by
  have hpredicate : ∀ e ∈ predicatesIn heads, (spanned hfinite weight slack).Predicate e := by
    intro e he
    refine ⟨fun c hc => .inr (.inl (Set.mem_biUnion he hc)), (hnodes e he).trans ?_⟩
    exact (Nat.le_add_right _ _).trans (Nat.le_succ _)
  intro h hh
  cases h with
  | scan s => exact .inl hh
  | unary op a =>
    cases op with
    | filter p => exact hpredicate p ⟨_, hh, rfl⟩
    | _ => exact ⟨a, hh⟩
  | join j a b => exact hpredicate j.condition ⟨_, hh, rfl⟩

/-- Any finite number of operators is within some scope, which may be as wide as one likes. -/
theorem exists_scope (hfinite : heads.Finite) (weight slack : Nat) :
    ∃ S : Scope, S.weight = weight ∧ slack ≤ S.slack ∧ ∀ h ∈ heads, S.Has h := by
  obtain ⟨n, hn⟩ := ((finite_predicatesIn hfinite).image Expr.nodes).bddAbove
  refine ⟨spanned hfinite weight (max slack n), rfl, Nat.le_max_left _ _, has_spanned ?_⟩
  exact fun e he => (hn ⟨e, he, rfl⟩).trans (Nat.le_max_right _ _)

/-! ### Predicates -/

theorem leaves_conjunction (h : ∀ p ∈ ps, ∀ c ∈ p.conjuncts, c ∈ S.leaves) :
    ∀ c ∈ (Expr.conjunction ps).conjuncts, c ∈ S.leaves := by
  intro c hc
  rcases Expr.mem_conjuncts_conjunction hc with rfl | ⟨p, hp, hc⟩
  · exact S.always_mem
  · exact h p hp c hc

/-- Conjuncts of predicates of the scope. -/
def Conjuncts (S : Scope) (ps : List Expr) : Prop := ∀ c ∈ ps, ∃ p, S.Predicate p ∧ c ∈ p.conjuncts

theorem Conjuncts.isLeaf (h : S.Conjuncts ps) : ∀ c ∈ ps, c.isLeaf = true := fun c hc => by
  obtain ⟨p, -, hmem⟩ := h c hc
  exact Expr.isLeaf_of_mem hmem

theorem conjuncts_filter (h : S.Predicate e) (f : Expr → Bool) : S.Conjuncts (e.conjuncts.filter f) :=
  fun _ hc => ⟨e, h, (List.mem_filter.mp hc).1⟩

theorem conjuncts_append_filter {e' : Expr} (h : S.Predicate e) (h' : S.Predicate e')
    (f : Expr → Bool) : S.Conjuncts (e.conjuncts ++ e'.conjuncts.filter f) := fun c hc =>
  (List.mem_append.mp hc).elim (fun hc => ⟨e, h, hc⟩) fun hc => conjuncts_filter h' f c hc

/-- What is put together from conjuncts of the scope. -/
theorem predicate_conjunction (h : S.Conjuncts ps)
    (hweight : (ps.flatMap Expr.clauses).length ≤ S.weight) : S.Predicate (Expr.conjunction ps) := by
  refine ⟨leaves_conjunction fun c hc d hd => ?_, ?_⟩
  · obtain ⟨p, hp, hmem⟩ := h c hc
    rw [Expr.conjuncts_of_isLeaf (h.isLeaf c hc)] at hd
    exact List.mem_singleton.mp hd ▸ hp.leaves c hmem
  · have := Expr.nodes_conjunction_of_leaves h.isLeaf
    unfold height
    omega

theorem predicate_swapSides (h : S.Predicate e) : S.Predicate (swapSides e) := by
  refine ⟨fun c hc => ?_, by rw [Expr.nodes_swapSides]; exact h.nodes⟩
  rw [Expr.conjuncts_swapSides] at hc
  obtain ⟨d, hd, rfl⟩ := List.mem_map.mp hc
  exact S.swapped (h.leaves d hd)

end Scope

/-! ## Rewrites -/

/-- All operators of a plan meet a condition. -/
def Plan.Each (Q : Node Plan → Prop) : Plan → Prop
  | .scan s => Q (.scan s)
  | .unary op a => Q (.unary op a) ∧ a.Each Q
  | .join j a b => Q (.join j a b) ∧ a.Each Q ∧ b.Each Q
  | .group _ => True

/-- An operator that a group may be made for. -/
structure Scope.Fits (S : Scope) (W : GroupId → Nat) (n : Node Plan) : Prop where
  has : S.Has n
  weight : Meaning.weight.value W n.plan ≤ S.weight
  slim : ∀ p a, n = .unary (.filter p) a → p.bulk ≤ 3 * p.clauses.length

variable {S : Scope} {m m₁ : Memo} {s t : Shape} {x : Offer} {W : GroupId → Nat} {p : Expr}

theorem isTrue_of_confined {names : List String} (h : confined names p = true) : p.isTrue = false := by
  cases p with
  | literal l => simp [confined, Expr.tables, Expr.columns] at h
  | _ => rfl

/-- The filter that goes into a join is as slim as its clauses. -/
theorem fits_filteredBy {ps : List Expr} {y : GroupId} (h : S.Conjuncts ps)
    (hproper : ∀ c ∈ ps, c.isTrue = false)
    (hweight : Meaning.weight.value W (filteredBy ps (.group y)) ≤ S.weight) :
    (filteredBy ps (.group y)).Each (S.Fits W) := by
  have hclauses : ps.flatMap Expr.clauses = ps := by
    rw [Expr.clauses_of_leaves h.isLeaf]
    exact List.filter_eq_self.mpr fun c hc => by simp [hproper c hc]
  rw [weight_filteredBy, hclauses] at hweight
  unfold filteredBy
  split
  · trivial
  · next hne =>
    have hpos : 0 < ps.length := List.length_pos_iff.mpr fun hnil => hne (by simp [hnil])
    have hnodes := Expr.nodes_conjunction_of_leaves h.isLeaf
    rw [hclauses] at hnodes
    refine ⟨⟨?_, ?_, ?_⟩, trivial⟩
    · exact S.predicate_conjunction h (by rw [hclauses]; omega)
    · simpa [Node.plan, Unary.weight, hclauses] using hweight
    · rintro q a ⟨⟩
      rw [Expr.clauses_conjunction, hclauses]
      unfold Expr.bulk
      omega

/-- A rewrite makes groups within the scope of the memo. -/
theorem Rewrite.fits (h : Rewrite m s x) (hreps : ∀ {id t}, m.rep? id = some t → S.Has t)
    (hs : S.Has s) (hW : ∀ id t, m.rep? id = some t → Meaning.weight.shape W t = W id)
    (hweight : Meaning.weight.shape W s ≤ S.weight) : ∀ q ∈ x.plan.inputs, q.Each (S.Fits W) := by
  rw [← h.weight hW] at hweight
  intro q hq
  cases h with
  | trivial => cases hq
  | merge =>
    cases List.mem_singleton.mp hq
    trivial
  | @route p j y l r lefts rights =>
    have hp : S.Predicate p := hs
    simp only [Offer.plan, routed, weight_join] at hweight
    dsimp only [Offer.plan, routed] at hq
    rcases List.mem_pair.mp hq with rfl | rfl
    · refine fits_filteredBy (S.conjuncts_filter hp _) (fun c hc => ?_) (by omega)
      exact isTrue_of_confined (List.mem_filter.mp hc).2
    · refine fits_filteredBy (S.conjuncts_filter hp _) (fun c hc => ?_) (by omega)
      exact isTrue_of_confined (Bool.and_eq_true_iff.mp (List.mem_filter.mp hc).2).2
  | @prune es names y scan hy =>
    cases List.mem_singleton.mp hq
    refine ⟨S.narrowed (hreps hy) hs, Nat.zero_le _, fun _ _ h => ?_⟩
    cases h
  | swap => rcases List.mem_pair.mp hq with rfl | rfl <;> trivial
  | @rotate outer inner y a b c stay move moving last r hy hsides hr =>
    have houter : S.Predicate outer := hs
    rw [Offer.plan, rotation_eq_some hr] at hq hweight
    rcases List.mem_pair.mp hq with rfl | rfl
    · trivial
    · simp only [weight_join, Join.weight] at hweight
      refine ⟨⟨?_, ?_, fun _ _ h => ?_⟩, True.intro, True.intro⟩
      · refine S.predicate_conjunction (S.conjuncts_filter houter _) ?_
        rw [← Expr.clauses_conjunction]
        omega
      · simp only [Node.plan, weight_join, Join.weight]
        omega
      · cases h

/-- What a rewrite comes down to is within the scope of the memo. -/
theorem Rewrite.has (h : Rewrite m s x) (hreps : ∀ {id t}, m.rep? id = some t → S.Has t)
    (hs : S.Has s) (hW : ∀ id t, m.rep? id = some t → Meaning.weight.shape W t = W id)
    (hweight : Meaning.weight.shape W s ≤ S.weight)
    (hreps₁ : ∀ {id t}, m₁.rep? id = some t → S.Has t) (ht : m₁.normal? x.plan = some t)
    (hbulk : ∀ p y, t = .unary (.filter p) y → p.bulk ≤ S.height) : S.Has t := by
  rw [← h.weight hW] at hweight
  cases h with
  | trivial => exact hreps₁ ht
  | @merge outer inner y z hy =>
    have houter : S.Predicate outer := hs
    have hinner : S.Predicate inner := hreps hy
    have hshape := Memo.normal?_filter ht
    have hle := hbulk _ _ hshape
    rw [hshape]
    refine ⟨S.leaves_conjunction fun p hp => ?_, ?_⟩
    · rcases List.mem_pair.mp hp with rfl | rfl
      · exact hinner.leaves
      · exact houter.leaves
    · unfold Expr.bulk at hle
      omega
  | @route p j y l r lefts rights hy =>
    have hp : S.Predicate p := hs
    have hj : S.Predicate j.condition := hreps hy
    obtain ⟨a, b, -, -, rfl⟩ := Memo.over?_join_iff.mp ht
    simp only [Offer.plan, routed, weight_join, Join.weight, Expr.clauses_conjunction] at hweight
    dsimp only [Scope.Has]
    refine S.predicate_conjunction ?_ (by omega)
    exact S.conjuncts_append_filter hj hp _
  | prune =>
    obtain ⟨a, -, rfl⟩ := Memo.over?_unary_iff.mp ht
    exact hs
  | swap =>
    obtain ⟨a, b, -, -, rfl⟩ := Memo.over?_join_iff.mp ht
    exact S.predicate_swapSides hs
  | @rotate outer inner y a b c stay move moving last r hy hsides hr =>
    have houter : S.Predicate outer := hs
    have hinner : S.Predicate inner := hreps hy
    rw [Offer.plan, rotation_eq_some hr] at ht hweight
    obtain ⟨a, b, -, -, rfl⟩ := Memo.over?_join_iff.mp ht
    simp only [weight_join, Join.weight, Expr.clauses_conjunction] at hweight
    exact S.predicate_conjunction (S.conjuncts_append_filter hinner houter _) (by omega)

end PlanOptimizer
