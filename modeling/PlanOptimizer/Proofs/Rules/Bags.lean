import Mathlib.Data.Multiset.Bind
import PlanOptimizer.Proofs.Rows
import PlanOptimizer.Proofs.Rules.Readings

/-!
# Bags of rows

A plan stands for a bag of rows.  A scan takes the rows of its table for which its predicate holds,
and restricts them to its columns.  A filter keeps the rows for which its predicate holds, and an
inner or cross join the pairs for which its condition holds.  A projection makes one row of each
row, from the values of its expressions.  Nothing is asked of the other operators.

What a standard rule offers for a plan stands for the bag of the plan (`Rule.bag_of_apply`), if the
inputs of the joins that the rule looks at have tables of their own, and predicates are fit for
being moved.

Two rules carry the content.

* A conjunct of a filter that mentions tables of one input only has the same value in a pair of rows
  as in the row of this input.  So the conjuncts that go left, those that go right and those that
  stay are together the filter (`Database.value_routed`).
* In a chain of two joins each row of the first input meets the same pairs of the other two, however
  the chain is bracketed.  The conjuncts that go into the new join say nothing of the first input,
  and those of the old one say nothing of the last (`Database.value_rotated`).  Where the second
  input stays outside instead, the join below changes sides first.
-/

namespace PlanOptimizer

universe u

variable {V : Type u}

theorem mem_distinctColumns {c : Column} {cs : List Column} :
    c ∈ Rule.distinctColumns cs ↔ c ∈ cs := by
  induction cs with
  | nil => rfl
  | cons d cs ih =>
    rw [Rule.distinctColumns, List.mem_cons, List.mem_cons, List.mem_filter, ih]
    by_cases h : c = d <;> simp [h]

/-! ## Pairs of rows -/

section Pairs

variable {A B C X Y : Multiset (Row V)} {P P' O O' : Row V → Bool} {f g : Row V → Bool}

/-- The pairs of rows for which a condition holds. -/
def paired (P : Row V → Bool) (X Y : Multiset (Row V)) : Multiset (Row V) :=
  ((X ×ˢ Y).map fun z => z.1.beside z.2).filter fun r => P r = true

theorem paired_eq_bind (P : Row V → Bool) (X Y : Multiset (Row V)) :
    paired P X Y = X.bind fun x => Y.bind fun y =>
      if P (x.beside y) = true then {x.beside y} else 0 := by
  show ((X.bind fun x => Y.map (Prod.mk x)).map _).filter _ = _
  rw [Multiset.map_bind, Multiset.filter_bind]
  simp only [Multiset.map_map, Function.comp_def, Multiset.filter_eq_bind, Multiset.bind_map]

theorem mem_paired {r : Row V} :
    r ∈ paired P X Y ↔ ∃ x ∈ X, ∃ y ∈ Y, r = x.beside y ∧ P r = true := by
  simp only [paired, Multiset.mem_filter, Multiset.mem_map, Prod.exists, Multiset.mem_product]
  grind

theorem bind_if_singleton {c : Prop} [Decidable c] (r : Row V) (F : Row V → Multiset (Row V)) :
    (if c then {r} else 0 : Multiset (Row V)).bind F = if c then F r else 0 := by
  split <;> simp

theorem if_bind {c : Prop} [Decidable c] (X : Multiset (Row V)) (F : Row V → Multiset (Row V)) :
    (if c then X.bind F else 0) = X.bind fun x => if c then F x else 0 := by
  split <;> simp

/-- Conditions on the rows of both sides and on their pairs may become one condition. -/
theorem paired_filter (h : ∀ x ∈ X, ∀ y ∈ Y, (f x = true ∧ g y = true ∧ P' (x.beside y) = true) ↔
      (P (x.beside y) = true ∧ O (x.beside y) = true)) :
    paired P' (X.filter fun x => f x = true) (Y.filter fun y => g y = true) =
      (paired P X Y).filter fun r => O r = true := by
  simp only [paired_eq_bind, Multiset.filter_eq_bind, Multiset.bind_assoc, bind_if_singleton,
    if_bind]
  refine Multiset.bind_congr fun x hx => Multiset.bind_congr fun y hy => ?_
  simp only [← ite_and, h x hx y hy]

/-- The sides of a join may change, where rows may. -/
theorem paired_comm (hrows : ∀ x ∈ X, ∀ y ∈ Y, x.beside y = y.beside x)
    (h : ∀ x ∈ X, ∀ y ∈ Y, P' (x.beside y) = P (x.beside y)) : paired P' Y X = paired P X Y := by
  rw [paired_eq_bind, paired_eq_bind, Multiset.bind_bind]
  refine Multiset.bind_congr fun x hx => Multiset.bind_congr fun y hy => ?_
  rw [← hrows x hx y hy, h x hx y hy]

/-- Joins may be rotated, where the conditions of both together are the same. -/
theorem paired_assoc (h : ∀ a ∈ A, ∀ b ∈ B, ∀ c ∈ C,
      (P' (b.beside c) = true ∧ O' ((a.beside b).beside c) = true) ↔
      (P (a.beside b) = true ∧ O ((a.beside b).beside c) = true)) :
    paired O' A (paired P' B C) = paired O (paired P A B) C := by
  simp only [paired_eq_bind, Multiset.bind_assoc, bind_if_singleton, if_bind, ← Row.beside_assoc]
  refine Multiset.bind_congr fun a ha => Multiset.bind_congr fun b hb =>
    Multiset.bind_congr fun c hc => ?_
  simp only [← ite_and, h a ha b hb c hc]

end Pairs

/-! ## Databases -/

/-- The rows of tables, and what the operators do with rows that are not filters, scans, inner or
cross joins. -/
structure Database (V : Type u) extends Evaluation V where
  /-- The rows of a table. -/
  rows : TableName → Multiset (Row V)
  /-- The row that a projection makes of the values of its expressions. -/
  projected : List Expr → List String → List V → Row V
  /-- What an aggregation, a sort or a limit makes of a bag. -/
  worked : Unary → Multiset (Row V) → Multiset (Row V)
  /-- What an outer, semi or anti join makes of two bags. -/
  joined : Join → Multiset (Row V) → Multiset (Row V) → Multiset (Row V)

namespace Database

/-- The bag of rows that a plan stands for. -/
def bags (S : Database V) : Reading (Multiset (Row V)) where
  scan s :=
    ((S.rows s.table).filter fun r => ∀ e ∈ s.predicate, S.holds e r = true).map
      (Row.restrict s.columns)
  unary op X :=
    match op with
    | .filter e => X.filter fun r => S.holds e r = true
    | .project es names => X.map fun r => S.projected es names (es.map (S.value · r))
    | op => S.worked op X
  join j X Y := if Rule.movable j.kind then paired (S.holds j.condition) X Y else S.joined j X Y

variable {S : Database V} {D : GroupId → Multiset (Row V)} {lookup : Lookup}
variable {p l r y a b c : Plan} {rule : Rule}

theorem value_filteredBy (ps : List Expr) (p : Plan) :
    S.bags.value D (Rule.filteredBy ps p) =
      (S.bags.value D p).filter fun x => ps.all (S.holds · x) = true := by
  unfold Rule.filteredBy
  split
  · next h => simp [List.isEmpty_iff.mp h]
  · refine Multiset.filter_congr fun x _ => ?_
    rw [S.holds_conjunction, List.all_eq_true]

theorem value_join {j : Join} (h : Rule.movable j.kind = true) : S.bags.value D (.join j l r) =
    paired (S.holds j.condition) (S.bags.value D l) (S.bags.value D r) := if_pos h

/-- The inputs of a join have different tables, and their rows have columns of their own tables
only. -/
def Apart (S : Database V) (D : GroupId → Multiset (Row V)) (lookup : Lookup) (l r : Plan) : Prop :=
  ∃ lefts rights, l.tables lookup = .ok lefts ∧ r.tables lookup = .ok rights ∧
    (∀ t ∈ lefts, t ∉ rights) ∧ (∀ x ∈ S.bags.value D l, x.Within lefts) ∧
      ∀ x ∈ S.bags.value D r, x.Within rights

/-- What a standard rule relies on when it moves rows and predicates. -/
structure Orderly (S : Database V) (rule : Rule) (D : GroupId → Multiset (Row V)) (lookup : Lookup)
    (p : Plan) : Prop where
  /-- The inputs of joins are apart. -/
  apart : ∀ j l r, rule.Sees lookup p (.join j l r) → S.Apart D lookup l r
  /-- The columns of filters and of join conditions are qualified. -/
  qualified : ∀ q e, rule.Sees lookup p q → q.condition? = some e → ∀ c ∈ e.columns, c.table ≠ none
  /-- The condition of a join below a join mentions no table of the other input. -/
  own : ∀ j i y c a b last, p = .join j y c → rule.Shows lookup p (.join i a b) →
    c.tables lookup = .ok last → ∀ t ∈ i.condition.tables, t ∉ last
  /-- A scan below a projection reads all columns that are mentioned. -/
  listed : ∀ es names y s, p = .project es names y → rule.Shows lookup p (.scan s) →
    s.columns = [] ∨ es.flatMap Expr.columns ⊆ s.columns

/-! ## The rules -/

theorem value_trivial {e : Expr} (h : e.isTrue = true) :
    S.bags.value D y = S.bags.value D (.filter e y) :=
  (Multiset.filter_eq_self.mpr fun _ _ => S.holds_of_isTrue h _).symm

theorem value_merge {outer inner : Expr} :
    S.bags.value D (.filter (Expr.conjunction [inner, outer]) y) =
      S.bags.value D (.filter outer (.filter inner y)) := by
  show (S.bags.value D y).filter _ = ((S.bags.value D y).filter _).filter _
  rw [Multiset.filter_filter]
  refine Multiset.filter_congr fun x _ => ?_
  rw [S.holds_conjunction]
  simp [and_comm]

/-- The conjuncts that go to the left, those that go to the right and those that stay are all
conjuncts. -/
theorem routed_iff {cs : List Expr} {toLeft toRight : Expr → Bool} {x y z : Row V}
    (hleft : ∀ c ∈ cs, toLeft c = true → S.holds c z = S.holds c x)
    (hright : ∀ c ∈ cs, toRight c = true → S.holds c z = S.holds c y) :
    ((∀ c ∈ cs.filter toLeft, S.holds c x = true) ∧
        (∀ c ∈ cs.filter fun c => !toLeft c && toRight c, S.holds c y = true) ∧
        ∀ c ∈ cs.filter fun c => !toLeft c && !(!toLeft c && toRight c), S.holds c z = true) ↔
      ∀ c ∈ cs, S.holds c z = true := by
  simp only [List.mem_filter]
  constructor
  · rintro ⟨hl, hr, hs⟩ c hc
    cases hcl : toLeft c with
    | true => rw [hleft c hc hcl, hl c ⟨hc, hcl⟩]
    | false =>
      cases hcr : toRight c with
      | true => rw [hright c hc hcr, hr c ⟨hc, by simp [hcl, hcr]⟩]
      | false => exact hs c ⟨hc, by simp [hcl, hcr]⟩
  · intro h
    refine ⟨fun c hc => ?_, fun c hc => ?_, fun c hc => h c hc.1⟩
    · rw [← hleft c hc.1 hc.2, h c hc.1]
    · rw [← hright c hc.1 (by simpa using (Bool.and_eq_true_iff.mp hc.2).2), h c hc.1]

/-- Routing the conjuncts of a filter through a join keeps the bag. -/
theorem value_routed {e : Expr} {j : Join} {lefts rights : List String}
    (hmovable : Rule.movable j.kind = true) (hapart : ∀ t ∈ lefts, t ∉ rights)
    (hl : ∀ x ∈ S.bags.value D l, x.Within lefts) (hr : ∀ x ∈ S.bags.value D r, x.Within rights)
    (hqualified : ∀ c ∈ e.columns, c.table ≠ none) :
    S.bags.value D (Rule.routed e j l r lefts rights) =
      S.bags.value D (.filter e (.join j l r)) := by
  have hconjunct : ∀ c ∈ e.conjuncts, ∀ k ∈ c.columns, k.table ≠ none := fun c hc k hk =>
    hqualified k (Expr.columns_of_mem_conjuncts hc hk)
  unfold Rule.routed
  rw [value_join (movable_conditioned hmovable _), value_filteredBy, value_filteredBy]
  show _ = (S.bags.value D (.join j l r)).filter fun r => S.holds e r = true
  rw [value_join hmovable]
  refine paired_filter fun x hx y hy => ?_
  have hleft : ∀ c ∈ e.conjuncts, Rule.confined lefts c = true →
      S.holds c (x.beside y) = S.holds c x := by
    intro c hc hconfined
    have hnames := (Rule.tables_of_confined hconfined).2
    exact S.holds_beside_left ((hr y hy).misses (hconjunct c hc) fun t ht => hapart t (hnames t ht))
  have hright : ∀ c ∈ e.conjuncts, Rule.confined rights c = true →
      S.holds c (x.beside y) = S.holds c y := by
    intro c hc hconfined
    have hnames := (Rule.tables_of_confined hconfined).2
    exact S.holds_beside_right ((hl x hx).misses (hconjunct c hc) fun t ht hleft =>
      hapart t hleft (hnames t ht))
  rw [S.holds_conjunction, List.forall_mem_append, ← S.holds_iff_conjuncts,
    S.holds_iff_conjuncts _ e, ← routed_iff hleft hright]
  simp only [List.all_eq_true]
  tauto

/-- Narrowing a scan to the columns that a projection mentions keeps the bag. -/
theorem value_pruned {es : List Expr} {names : List String} {s : Scan}
    (hlisted : s.columns = [] ∨ es.flatMap Expr.columns ⊆ s.columns) :
    S.bags.value D (.project es names
        (.scan { s with columns := Rule.distinctColumns (es.flatMap Expr.columns) })) =
      S.bags.value D (.project es names (.scan s)) := by
  show ((Multiset.filter _ _).map _).map _ = ((Multiset.filter _ _).map _).map _
  rw [Multiset.map_map, Multiset.map_map]
  refine Multiset.map_congr rfl fun x _ => congrArg (S.projected es names) ?_
  refine List.map_congr_left fun e he => S.value_congr fun c hc k hk => ?_
  have hmem : c ∈ es.flatMap Expr.columns := List.mem_flatMap.mpr ⟨e, he, hc⟩
  rw [Row.restrict_of_reads (.inr (mem_distinctColumns.mpr hmem)) hk,
    Row.restrict_of_reads (hlisted.imp_right fun hsub => hsub hmem) hk]

/-- Changing the sides of a join keeps the bag. -/
theorem value_swapped {j : Join} (hmovable : Rule.movable j.kind = true)
    (hrows : ∀ x ∈ S.bags.value D l, ∀ y ∈ S.bags.value D r, x.beside y = y.beside x) :
    S.bags.value D (.join { j with condition := Rule.swapSides j.condition } r l) =
      S.bags.value D (.join j l r) := by
  have hcondition : ∀ x, S.holds (Rule.swapSides j.condition) x = S.holds j.condition x := fun x =>
    Bool.eq_iff_iff.mpr (S.holds_swapSides x j.condition)
  have hswapped : S.bags.value D (.join { j with condition := Rule.swapSides j.condition } r l) =
      paired (S.holds (Rule.swapSides j.condition)) (S.bags.value D r) (S.bags.value D l) :=
    value_join hmovable
  rw [hswapped, value_join hmovable]
  exact paired_comm hrows fun x _ y _ => hcondition (x.beside y)

/-- The conjuncts that go into the inner join and those that stay outside are all conjuncts. -/
theorem rotated_iff {outer inner : Expr} {inside : Expr → Bool} {x y z : Row V}
    (hinner : S.holds inner z = S.holds inner x)
    (hinside : ∀ c ∈ outer.conjuncts, inside c = true → S.holds c z = S.holds c y) :
    (S.holds (Expr.conjunction (outer.conjuncts.filter inside)) y = true ∧
        S.holds (Expr.conjunction (inner.conjuncts ++
          outer.conjuncts.filter fun c => !inside c)) z = true) ↔
      (S.holds inner x = true ∧ S.holds outer z = true) := by
  rw [S.holds_conjunction, S.holds_conjunction, List.forall_mem_append, ← S.holds_iff_conjuncts,
    hinner, S.holds_iff_conjuncts _ outer]
  simp only [List.mem_filter]
  constructor
  · rintro ⟨hin, hx, hout⟩
    refine ⟨hx, fun c hc => ?_⟩
    cases hci : inside c with
    | true => rw [hinside c hc hci, hin c ⟨hc, hci⟩]
    | false => exact hout c ⟨hc, by simp [hci]⟩
  · rintro ⟨hx, hall⟩
    exact ⟨fun c hc => by rw [← hinside c hc.1 hc.2, hall c hc.1], hx, fun c hc => hall c hc.1⟩

variable {stay move last : Plan} {stays moves lasts : List String} {outer inner : Expr}

/-- Rotating joins keeps the bag, where the input that stays is on the left. -/
theorem value_rotated (hstay : ∀ x ∈ S.bags.value D stay, x.Within stays)
    (hlast : ∀ x ∈ S.bags.value D last, x.Within lasts)
    (hmoves : ∀ t ∈ stays, t ∉ moves) (hlasts : ∀ t ∈ stays, t ∉ lasts)
    (hinner : ∀ c ∈ inner.columns, c.table ≠ none) (hown : ∀ t ∈ inner.tables, t ∉ lasts)
    (houter : ∀ c ∈ outer.columns, c.table ≠ none) :
    S.bags.value D (.join ⟨.inner, Expr.conjunction (inner.conjuncts ++
          outer.conjuncts.filter fun e => !Rule.connects moves lasts e)⟩ stay
        (.join ⟨.inner, Expr.conjunction (outer.conjuncts.filter (Rule.connects moves lasts))⟩
          move last)) =
      S.bags.value D (.join ⟨.inner, outer⟩ (.join ⟨.inner, inner⟩ stay move) last) := by
  rw [value_join rfl, value_join rfl, value_join rfl, value_join rfl]
  refine paired_assoc fun x hx y hy z hz => rotated_iff ?_ fun e he hconnects => ?_
  · exact S.holds_beside_left ((hlast z hz).misses hinner hown)
  · rw [Row.beside_assoc]
    refine S.holds_beside_right ((hstay x hx).misses (fun c hc => ?_) fun t ht hin => ?_)
    · exact houter c (Expr.columns_of_mem_conjuncts he hc)
    · rcases (Rule.tables_of_connects hconnects).2 t ht with hmove | hlast
      · exact hmoves t hin hmove
      · exact hlasts t hin hlast

/-- The inputs of a join below a join are apart from the other input. -/
theorem Orderly.of_rotation (h : S.Orderly rule D lookup (.join ⟨.inner, outer⟩ y c))
    (hinspects : rule.pattern.inspectsInputs = true)
    (hshown : lookup.expose y = .ok (.join ⟨.inner, inner⟩ a b)) :
    ∃ as bs cs, a.tables lookup = .ok as ∧ b.tables lookup = .ok bs ∧ c.tables lookup = .ok cs ∧
      (∀ t ∈ as, t ∉ bs) ∧ (∀ t ∈ as, t ∉ cs) ∧ (∀ t ∈ bs, t ∉ cs) ∧
      (∀ x ∈ S.bags.value D a, x.Within as) ∧ (∀ x ∈ S.bags.value D b, x.Within bs) ∧
      ∀ x ∈ S.bags.value D c, x.Within cs := by
  obtain ⟨as, bs, has, hbs, hab, ha, hb⟩ := h.apart _ a b (.inr ⟨hinspects, y, rfl, hshown⟩)
  obtain ⟨ys, cs, hys, hcs, hyc, -, hc⟩ := h.apart _ y c (.inl rfl)
  have hleft := Plan.tables_subset_of_left hshown has hys
  have hright := Plan.tables_subset_of_right hshown hbs hys
  exact ⟨as, bs, cs, has, hbs, hcs, hab, fun t ht => hyc t (hleft ht),
    fun t ht => hyc t (hright ht), ha, hb, hc⟩

end Database

/-- What is derived from a plan stands for the bag of the plan. -/
theorem Rule.Derives.bag {S : Database V} {D : GroupId → Multiset (Row V)} {lookup : Lookup}
    {rule : Rule} {p q : Plan} (h : Rule.Derives lookup rule p q) (hD : S.bags.Follows D lookup p)
    (hp : S.Orderly rule D lookup p) : S.bags.value D q = S.bags.value D p := by
  cases h with
  | trivial htrue => exact Database.value_trivial htrue
  | @merge outer inner y z hshown =>
    have hy := hD.expose (List.mem_singleton_self y) hshown
    rw [Database.value_merge]
    exact congrArg (S.bags.unary (.filter outer)) hy
  | @route e j y l r lefts rights hshown hmovable hlefts hrights =>
    obtain ⟨ls, rs, hls, hrs, hapart, hl, hr⟩ := hp.apart j l r (.inr ⟨rfl, y, rfl, hshown⟩)
    cases hlefts.symm.trans hls
    cases hrights.symm.trans hrs
    rw [Database.value_routed hmovable hapart hl hr (hp.qualified _ e (.inl rfl) rfl)]
    exact congrArg (S.bags.unary (.filter e)) (hD.expose (List.mem_singleton_self y) hshown)
  | @prune es names y s hshown =>
    rw [Database.value_pruned (hp.listed es names y s rfl ⟨rfl, y, rfl, hshown⟩)]
    exact congrArg (S.bags.unary (.project es names)) (hD.expose (List.mem_singleton_self y) hshown)
  | @swap j l r hsymmetric =>
    obtain ⟨ls, rs, -, -, hapart, hl, hr⟩ := hp.apart j l r (.inl rfl)
    refine Database.value_swapped ?_ fun x hx y hy => Row.beside_comm (hl x hx) (hr y hy) hapart
    rcases hsymmetric with h | h <;> rw [h] <;> rfl
  | @rotate outer inner y a b c stay move moving last hshown hsides hmove hlast =>
    obtain ⟨as, bs, cs, has, hbs, hcs, hab, hac, hbc, ha, hb, hc⟩ := hp.of_rotation rfl hshown
    cases hlast.symm.trans hcs
    have hshows : rotateJoin.Shows lookup (.join ⟨.inner, outer⟩ y c) (.join ⟨.inner, inner⟩ a b) :=
      ⟨rfl, y, rfl, hshown⟩
    have houter := hp.qualified _ outer (.inl rfl) rfl
    have hinner := hp.qualified _ inner (.inr hshows) rfl
    have hown := hp.own _ _ y c a b last rfl hshows hlast
    have hnode : S.bags.value D (.join ⟨.inner, outer⟩ (.join ⟨.inner, inner⟩ a b) c) =
        S.bags.value D (.join ⟨.inner, outer⟩ y c) :=
      congrArg (S.bags.join ⟨.inner, outer⟩ · _) (hD.expose List.mem_cons_self hshown)
    rw [← hnode]
    rcases hsides with ⟨rfl, rfl⟩ | ⟨rfl, rfl⟩
    · cases hmove.symm.trans hbs
      exact Database.value_rotated ha hc hab hac hinner hown houter
    · cases hmove.symm.trans has
      rw [Database.value_rotated hb hc (fun t ht hin => hab t hin ht) hbc hinner hown houter]
      -- the join below pairs the rows the other way round
      have hswap : S.bags.value D (.join ⟨.inner, inner⟩ stay move) =
          S.bags.value D (.join ⟨.inner, inner⟩ move stay) := by
        rw [Database.value_join rfl, Database.value_join rfl]
        exact paired_comm (fun x hx y hy => Row.beside_comm (ha x hx) (hb y hy) hab)
          fun _ _ _ _ => rfl
      exact congrArg (S.bags.join ⟨.inner, outer⟩ · _) hswap

/-- What a standard rule offers for a plan that it accepts stands for the bag of the plan. -/
theorem Rule.bag_of_apply {rule : Rule} (hrule : rule ∈ Rule.standard) {context : Context}
    {lookup : Lookup} {p : Plan} {offers : List Offer} (haccepts : rule.accepts p = true)
    (happly : rule.apply context lookup p = .ok offers) (S : Database V)
    {D : GroupId → Multiset (Row V)} (hD : S.bags.Follows D lookup p)
    (hp : S.Orderly rule D lookup p) : ∀ x ∈ offers, S.bags.value D x.plan = S.bags.value D p :=
  fun _ hx => (Rule.derives_of_apply hrule haccepts happly hx).bag hD hp

section Filled

mutual

/-- The truth value of a predicate over truth values.  Columns that are missing are false. -/
private def truth (r : Row Bool) : Expr → Bool
  | .column c => (c.table.bind fun t => r (t, c.name)).getD false
  | .literal l => (Expr.literal l).isTrue
  | .binary op a b => decide (op = .eq) && truth r a == truth r b
  | .unary op a => decide (op = .not) && !truth r a
  | .call _ _ | .or _ => false
  | .and es => truths r es

private def truths (r : Row Bool) : List Expr → Bool
  | [] => true
  | e :: es => truth r e && truths r es

end

mutual

private theorem truth_congr {r s : Row Bool} : ∀ {e : Expr},
    (∀ c ∈ e.columns, ∀ k, c.Reads k → r k = s k) → truth r e = truth s e
  | .column c, h => by
    cases ht : c.table with
    | none => simp [truth, ht]
    | some t =>
      have hc := h c (List.mem_singleton_self c) (t, c.name) ⟨rfl, by simp [ht]⟩
      simp [truth, ht, hc]
  | .literal _, _ | .call _ _, _ | .or _, _ => rfl
  | .binary op a b, h => by
    rw [truth, truth, truth_congr fun c hc => h c (List.mem_append_left _ hc),
      truth_congr fun c hc => h c (List.mem_append_right _ hc)]
  | .unary op a, h => by rw [truth, truth, truth_congr (e := a) h]
  | .and es, h => truths_congr h

private theorem truths_congr {r s : Row Bool} : ∀ {es : List Expr},
    (∀ c ∈ Expr.columnsAll es, ∀ k, c.Reads k → r k = s k) → truths r es = truths s es
  | [], _ => rfl
  | e :: es, h => by
    rw [truths, truths, truth_congr fun c hc => h c (List.mem_append_left _ hc),
      truths_congr fun c hc => h c (List.mem_append_right _ hc)]

end

private theorem truths_iff (r : Row Bool) (es : List Expr) :
    truths r es = true ↔ ∀ e ∈ es, truth r e = true := by
  induction es with
  | nil => simp [truths]
  | cons e es ih => simp [truths, ih]

/-- The row of a table all columns of which are true. -/
private def filled (name : String) : Row Bool := fun k => if k.1 = name then some true else none

/-- A database whose tables have one row each. -/
private def singles : Database Bool where
  value e r := truth r e
  isTrue b := b
  value_congr := truth_congr
  isTrue_and es r := truths_iff r es
  isTrue_always _ := rfl
  isTrue_eq_comm a b r := by simp [truth, Bool.beq_comm]
  rows t := {filled t.name}
  projected _ _ vs := fun k => if k.1 = "" then some (vs.all id) else none
  worked _ X := X
  joined _ X _ := X

private theorem within_scanAll (D : GroupId → Multiset (Row Bool)) {name : String}
    {names : List String} (h : name ∈ names) :
    ∀ x ∈ singles.bags.value D (.scanAll "s" name), x.Within names := by
  intro x hx k hk
  have hvalue : singles.bags.value D (.scanAll "s" name) = {(filled name).restrict []} := rfl
  rw [hvalue] at hx
  cases Multiset.mem_singleton.mp hx
  unfold Row.restrict filled at hk
  split at hk
  · split at hk
    · next hname => exact hname ▸ h
    · exact absurd rfl hk
  · exact absurd rfl hk

private theorem within_paired {P : Row Bool → Bool} {X Y : Multiset (Row Bool)}
    {names : List String} (hX : ∀ x ∈ X, x.Within names) (hY : ∀ y ∈ Y, y.Within names) :
    ∀ r ∈ paired P X Y, r.Within names := by
  intro r hr
  obtain ⟨x, hx, y, hy, rfl, -⟩ := mem_paired.mp hr
  exact (hX x hx).beside (hY y hy)

private def equated (l r : String) : Expr := .binary .eq (.col l "x") (.col r "x")

private def chain : Lookup :=
  .ofTable [(0, .scanAll "s" "a"), (1, .scanAll "s" "b"), (2, .scanAll "s" "c"),
    (3, .join ⟨.inner, equated "a" "b"⟩ (.group 0) (.group 1))]

private def chained : GroupId → Multiset (Row Bool)
  | 0 => singles.bags.value (fun _ => 0) (.scanAll "s" "a")
  | 1 => singles.bags.value (fun _ => 0) (.scanAll "s" "b")
  | 2 => singles.bags.value (fun _ => 0) (.scanAll "s" "c")
  | _ =>
    paired (singles.holds (equated "a" "b"))
      (singles.bags.value (fun _ => 0) (.scanAll "s" "a"))
      (singles.bags.value (fun _ => 0) (.scanAll "s" "b"))

private def ends : Plan := .join ⟨.inner, equated "b" "c"⟩ (.group 3) (.group 2)

private theorem follows_chained : singles.bags.Follows chained chain ends := by
  intro id q hid hq
  rcases List.mem_pair.mp hid with h | h
  · cases h
    cases (show chain.find 3 = some (.join ⟨.inner, equated "a" "b"⟩ (.group 0) (.group 1)) by
      decide +kernel).symm.trans hq
    rfl
  · cases h
    cases (show chain.find 2 = some (.scanAll "s" "c") by decide +kernel).symm.trans hq
    rfl

private theorem shows_ends {q : Plan} (h : Rule.rotateJoin.Shows chain ends q) :
    q = .join ⟨.inner, equated "a" "b"⟩ (.group 0) (.group 1) := by
  obtain ⟨-, y, hy, hshown⟩ := h
  cases hy
  cases (show chain.expose (.group 3) =
    .ok (.join ⟨.inner, equated "a" "b"⟩ (.group 0) (.group 1)) by decide +kernel).symm.trans hshown
  rfl

private theorem orderly_chained : singles.Orderly Rule.rotateJoin chained chain ends where
  apart j l r h := by
    rcases h with h | h
    · cases h
      refine ⟨["b", "a"], ["c"], by decide +kernel, by decide +kernel, by decide, ?_, ?_⟩
      · exact within_paired (within_scanAll (fun _ => 0) (by decide))
          (within_scanAll (fun _ => 0) (by decide))
      · exact within_scanAll (fun _ => 0) (by decide)
    · cases shows_ends h
      refine ⟨["a"], ["b"], by decide +kernel, by decide +kernel, by decide, ?_, ?_⟩
      · exact within_scanAll (fun _ => 0) (by decide)
      · exact within_scanAll (fun _ => 0) (by decide)
  qualified q e h he := by
    rcases h with rfl | h
    · cases he
      decide
    · cases shows_ends h
      cases he
      decide
  own j i y c a b last hp hy hlast := by
    cases hp
    cases shows_ends hy
    cases (show (Plan.group 2).tables chain = .ok ["c"] by decide +kernel).symm.trans hlast
    decide +kernel
  listed es names y s hp := nomatch hp

/-- A join of three tables is rotated. -/
theorem bag_of_rotated_chain :
    ∃ q, Rule.rotateJoin.apply ⟨.empty, .indifferent, 0, 1⟩ chain ends = .ok [.alternative q] ∧
      singles.bags.Follows chained chain ends ∧ singles.Orderly Rule.rotateJoin chained chain ends ∧
      Multiset.card (singles.bags.value chained ends) = 1 ∧
      singles.bags.value chained q = singles.bags.value chained ends := by
  have happly : Rule.rotateJoin.apply ⟨.empty, .indifferent, 0, 1⟩ chain ends =
      .ok [.alternative (.join ⟨.inner, equated "a" "b"⟩ (.group 0)
        (.join ⟨.inner, equated "b" "c"⟩ (.group 1) (.group 2)))] := by
    decide +kernel
  have hrule : Rule.rotateJoin ∈ Rule.standard := by simp [Rule.standard]
  exact ⟨_, happly, follows_chained, orderly_chained, by decide +kernel,
    Rule.bag_of_apply hrule rfl happly singles follows_chained orderly_chained _
      (List.mem_singleton_self _)⟩

private def foreign : Plan :=
  .join ⟨.inner, equated "b" "c"⟩
    (.join ⟨.inner, .unary .not (.col "c" "y")⟩ (.scanAll "s" "a") (.scanAll "s" "b"))
    (.scanAll "s" "c")

private theorem sees_foreign {q : Plan} (h : Rule.rotateJoin.Sees .empty foreign q) :
    q = foreign ∨
      q = .join ⟨.inner, .unary .not (.col "c" "y")⟩ (.scanAll "s" "a") (.scanAll "s" "b") := by
  rcases h with rfl | ⟨-, y, hy, hshown⟩
  · exact .inl rfl
  · cases hy
    cases hshown
    exact .inr rfl

/-- The condition of the join below mentions the third table.  A pair of rows of the first two
lacks the column, and has it after the rotation. -/
theorem not_bag_of_foreign_condition :
    ¬ ∀ (S : Database Bool) (D : GroupId → Multiset (Row Bool)) (lookup : Lookup) (p : Plan)
      (context : Context) (offers : List Offer),
      (∀ j l r, Rule.rotateJoin.Sees lookup p (.join j l r) → S.Apart D lookup l r) →
      (∀ q e, Rule.rotateJoin.Sees lookup p q → q.condition? = some e →
        ∀ c ∈ e.columns, c.table ≠ none) →
      S.bags.Follows D lookup p → Rule.rotateJoin.accepts p = true →
      Rule.rotateJoin.apply context lookup p = .ok offers →
        ∀ x ∈ offers, S.bags.value D x.plan = S.bags.value D p := by
  intro hall
  have hapart : ∀ j l r, Rule.rotateJoin.Sees .empty foreign (.join j l r) →
      singles.Apart (fun _ => 0) .empty l r := by
    intro j l r h
    rcases sees_foreign h with h | h
    · cases h
      refine ⟨["a", "b"], ["c"], by decide +kernel, by decide +kernel, by decide, ?_, ?_⟩
      · exact within_paired (within_scanAll (fun _ => 0) (by decide))
          (within_scanAll (fun _ => 0) (by decide))
      · exact within_scanAll _ (by decide)
    · cases h
      refine ⟨["a"], ["b"], by decide +kernel, by decide +kernel, by decide, ?_, ?_⟩
      · exact within_scanAll _ (by decide)
      · exact within_scanAll _ (by decide)
  have hqualified : ∀ q e, Rule.rotateJoin.Sees .empty foreign q → q.condition? = some e →
      ∀ c ∈ e.columns, c.table ≠ none := by
    intro q e h he
    rcases sees_foreign h with rfl | rfl <;> cases he <;> decide
  have hfollows : singles.bags.Follows (fun _ => 0) .empty foreign := fun _ _ _ h => nomatch h
  have happly : Rule.rotateJoin.apply ⟨.empty, .indifferent, 0, 1⟩ .empty foreign =
      .ok [.alternative (.join ⟨.inner, .unary .not (.col "c" "y")⟩ (.scanAll "s" "a")
        (.join ⟨.inner, equated "b" "c"⟩ (.scanAll "s" "b") (.scanAll "s" "c")))] := by
    decide +kernel
  have hsame := hall singles (fun _ => 0) .empty foreign _ _ hapart hqualified hfollows rfl happly _
    (List.mem_singleton_self _)
  have hcard := congrArg Multiset.card hsame
  revert hcard
  decide +kernel

end Filled

end PlanOptimizer
