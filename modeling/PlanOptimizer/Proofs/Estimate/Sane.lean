import Mathlib.Analysis.SpecialFunctions.Log.Base
import PlanOptimizer.Proofs.Memo.Resolvable
import PlanOptimizer.Proofs.Unfolding

/-!
# Sane estimates

Estimates are computed by formulas that divide, and that multiply fractions without end.  Statistics
are *sane* if there is a row at least, no column has fewer than one distinct value or more of them
than there are rows, and fractions of nulls are fractions.  In exact arithmetic, all that is derived
from sane tables is sane (`Estimator.sane_of_catalog`).

* `Statistics.Sane.selectivity_mem`: predicates keep between none and all of the rows, at any depth
  of conjunctions and disjunctions.
* `Statistics.Sane.filtered` and `Statistics.Sane.capped`: the rows and the distinct values shrink
  together, and neither goes below one.
* `Statistics.Sane.joined`: distinct values are cut to the rows of the join, which may be fewer than
  those of either side.  Where a name occurs on both sides, one of the two sane columns is kept.

A join is filtered once for each conjunct that is left of its condition, and the selectivity of each
is read off what the ones before it have left.  So sanity is carried through a fold.
-/

namespace PlanOptimizer

open Quantity

/-! ## Exact quantities -/

/-- Real numbers in place of floats. -/
noncomputable instance : Quantity ℝ where
  ofNat n := n
  less a b := decide (a < b)
  atMost a b := decide (a ≤ b)
  log2 := Real.logb 2

namespace Quantity

variable {a b x : ℝ} {xs : List ℝ}

theorem less_iff : less a b = true ↔ a < b := decide_eq_true_iff

theorem atMost_iff : atMost a b = true ↔ a ≤ b := decide_eq_true_iff

theorem one_eq : (1.0 : ℝ) = 1 := by norm_num

/-- All real numbers are defined. -/
theorem larger_eq_max : larger a b = max a b := by
  have hdefined : atMost a a = true := atMost_iff.mpr (le_refl a)
  rw [larger, hdefined, max_def_lt]
  simp [less_iff]

theorem smaller_eq_min : smaller a b = min a b := by
  have hdefined : atMost a a = true := atMost_iff.mpr (le_refl a)
  rw [smaller, hdefined, min_comm, min_def_lt]
  simp [less_iff]

theorem one_le_larger (a : ℝ) : 1 ≤ larger a 1.0 := by
  rw [larger_eq_max, one_eq]
  exact le_max_right a 1

theorem product_eq_prod (xs : List ℝ) : product xs = xs.prod := by
  rw [List.prod_eq_foldl, product, one_eq]

/-- A product of fractions is a fraction. -/
theorem product_mem (h : ∀ x ∈ xs, 0 ≤ x ∧ x ≤ 1) : 0 ≤ product xs ∧ product xs ≤ 1 := by
  rw [product_eq_prod]
  induction xs with
  | nil => simp
  | cons x xs ih =>
    obtain ⟨h0, h1⟩ := h x List.mem_cons_self
    obtain ⟨hs0, hs1⟩ := ih fun y hy => h y (List.mem_cons_of_mem _ hy)
    rw [List.prod_cons]
    exact ⟨mul_nonneg h0 hs0, mul_le_one₀ h1 hs0 hs1⟩

/-- What is left of a fraction is a fraction. -/
theorem one_sub_mem (h : 0 ≤ x ∧ x ≤ 1) : 0 ≤ 1.0 - x ∧ 1.0 - x ≤ 1 := by
  rw [one_eq]
  exact ⟨sub_nonneg.mpr h.2, sub_le_self 1 h.1⟩

end Quantity

/-! ## Entries of keyed lists -/

namespace Assoc

variable {κ β γ : Type} {k : κ} {v : β} {e : κ × β}

theorem mem_entries_mapValues {f : β → γ} {m : Assoc κ β} {e : κ × γ} :
    e ∈ (m.mapValues f).entries ↔ ∃ d ∈ m.entries, (d.1, f d.2) = e := List.mem_map

variable [DecidableEq κ]

theorem mem_entries_of_find? {m : Assoc κ β} (h : m.find? k = some v) : (k, v) ∈ m.entries := by
  unfold find? at h
  generalize m.entries = es at h
  induction es with
  | nil => cases h
  | cons e es ih =>
    by_cases hk : e.1 = k
    · rw [findIn, if_pos hk] at h
      cases h
      exact hk ▸ List.mem_cons_self
    · rw [findIn, if_neg hk] at h
      exact List.mem_cons_of_mem _ (ih h)

/-- Setting a key brings in no other entry. -/
theorem mem_entries_of_set {m : Assoc κ β} (h : e ∈ (m.set k v).entries) :
    e = (k, v) ∨ e ∈ m.entries := by
  unfold set at h
  dsimp only at h
  generalize m.entries = es at h ⊢
  induction es with
  | nil => exact .inl (List.mem_singleton.mp h)
  | cons d es ih =>
    by_cases hk : d.1 = k
    · rw [setIn, if_pos hk] at h
      exact (List.mem_cons.mp h).imp_right (List.mem_cons_of_mem _)
    · rw [setIn, if_neg hk] at h
      rcases List.mem_cons.mp h with rfl | h
      · exact .inr List.mem_cons_self
      · exact (ih h).imp_right (List.mem_cons_of_mem _)

theorem mem_entries_of_setAll {m : Assoc κ β} {es : List (κ × β)}
    (h : e ∈ (m.setAll es).entries) : e ∈ m.entries ∨ e ∈ es := by
  induction es generalizing m with
  | nil => exact .inl h
  | cons d es ih =>
    rcases ih h with h | h
    · rcases mem_entries_of_set h with rfl | h
      · exact .inr List.mem_cons_self
      · exact .inl h
    · exact .inr (List.mem_cons_of_mem _ h)

end Assoc

/-! ## Sane statistics -/

/-- What is known of a column of some rows is sane. -/
structure ColumnStatistics.Sane (c : ColumnStatistics ℝ) (rows : ℝ) : Prop where
  /-- There is a value. -/
  one_le_distinct : 1 ≤ c.distinct
  /-- There are no more distinct values than rows. -/
  distinct_le : c.distinct ≤ rows
  /-- No fewer than none are null. -/
  nulls_nonneg : 0 ≤ c.nullFraction
  /-- No more than all are null. -/
  nulls_le_one : c.nullFraction ≤ 1

/-- Any number of distinct values is sane once it is cut to the rows. -/
theorem ColumnStatistics.Sane.cut {c : ColumnStatistics ℝ} {rows rows' x : ℝ} (h : c.Sane rows)
    (hx : 1 ≤ x) (hrows : 1 ≤ rows') :
    ColumnStatistics.Sane { c with distinct := smaller x rows' } rows' where
  one_le_distinct := by
    rw [smaller_eq_min]
    exact le_min hx hrows
  distinct_le := by
    rw [smaller_eq_min]
    exact min_le_right x rows'
  nulls_nonneg := h.nulls_nonneg
  nulls_le_one := h.nulls_le_one

namespace Statistics

/-- What is known of some rows is sane. -/
structure Sane (s : Statistics ℝ) : Prop where
  /-- There is a row. -/
  one_le_rows : 1 ≤ s.rows
  /-- The rows have a size. -/
  bytes_nonneg : 0 ≤ s.bytes
  /-- What is known of the columns is sane. -/
  columns : ∀ e ∈ s.columns.entries, e.2.Sane s.rows

variable {s left right : Statistics ℝ}

theorem Sane.rows_pos (h : s.Sane) : 0 < s.rows := zero_lt_one.trans_le h.one_le_rows

theorem Sane.less_rows (h : s.Sane) : less 0.0 s.rows = true :=
  less_iff.mpr (by norm_num [h.rows_pos])

theorem Sane.column (h : s.Sane) {name : String} {c : ColumnStatistics ℝ}
    (hc : s.columns.find? name = some c) : c.Sane s.rows :=
  h.columns _ (Assoc.mem_entries_of_find? hc)

/-- A table nothing is known of is sane. -/
theorem sane_unknown : (unknown : Statistics ℝ).Sane where
  one_le_rows := by norm_num [unknown]
  bytes_nonneg := by norm_num [unknown, defaultRowSize]
  columns _ he := nomatch he

/-! ### Selectivity -/

theorem defaultSelectivity_mem :
    0 ≤ (defaultSelectivity : ℝ) ∧ (defaultSelectivity : ℝ) ≤ 1 := by
  unfold defaultSelectivity
  norm_num

theorem rangeSelectivity_mem : 0 ≤ (rangeSelectivity : ℝ) ∧ (rangeSelectivity : ℝ) ≤ 1 := by
  unfold rangeSelectivity
  norm_num

theorem equalitySelectivity_mem (s : Statistics ℝ) (name : String) :
    0 ≤ s.equalitySelectivity name ∧ s.equalitySelectivity name ≤ 1 := by
  unfold equalitySelectivity
  split
  · next c hc =>
    rw [one_eq]
    have hone : 1 ≤ larger c.distinct 1 := one_eq ▸ one_le_larger c.distinct
    have hpos : 0 ≤ larger c.distinct 1 := zero_le_one.trans hone
    exact ⟨div_nonneg zero_le_one hpos, div_le_one_of_le₀ hone hpos⟩
  · exact defaultSelectivity_mem

theorem comparisonSelectivity_mem (s : Statistics ℝ) (op : BinOp) (a b : Expr) :
    0 ≤ s.comparisonSelectivity op a b ∧ s.comparisonSelectivity op a b ≤ 1 := by
  unfold comparisonSelectivity
  split
  · exact equalitySelectivity_mem s _
  · exact equalitySelectivity_mem s _
  all_goals first | exact rangeSelectivity_mem | exact defaultSelectivity_mem

namespace Sane

theorem nullSelectivity_mem (h : s.Sane) (a : Expr) :
    0 ≤ s.nullSelectivity a ∧ s.nullSelectivity a ≤ 1 := by
  unfold nullSelectivity
  split
  · unfold nullFraction
    split
    · next c hc => exact ⟨(h.column hc).nulls_nonneg, (h.column hc).nulls_le_one⟩
    · exact defaultSelectivity_mem
  · exact defaultSelectivity_mem

mutual

/-- A predicate keeps between none and all of the rows. -/
theorem selectivity_mem (h : s.Sane) : ∀ p : Expr, 0 ≤ s.selectivity p ∧ s.selectivity p ≤ 1
  | .literal l => by
    cases l with
    | bool b => cases b <;> norm_num [selectivity]
    | null => norm_num [selectivity]
    | _ => exact defaultSelectivity_mem
  | .binary op a b => comparisonSelectivity_mem s op a b
  | .unary op a => by
    cases op with
    | isNull => exact h.nullSelectivity_mem a
    | isNotNull => exact one_sub_mem (h.nullSelectivity_mem a)
    | _ => exact defaultSelectivity_mem
  | .and as => product_mem (selectivities_mem h as)
  | .or as => by
    have hmisses : ∀ x ∈ (s.selectivities as).map (fun x => 1.0 - x), 0 ≤ x ∧ x ≤ 1 := by
      intro x hx
      obtain ⟨y, hy, rfl⟩ := List.mem_map.mp hx
      exact one_sub_mem (selectivities_mem h as y hy)
    exact one_sub_mem (product_mem hmisses)
  | .column c => defaultSelectivity_mem
  | .call f as => defaultSelectivity_mem

theorem selectivities_mem (h : s.Sane) :
    ∀ as : List Expr, ∀ x ∈ s.selectivities as, 0 ≤ x ∧ x ≤ 1
  | [], _, hx => nomatch hx
  | a :: as, _, hx => by
    rcases List.mem_cons.mp hx with rfl | hx
    · exact selectivity_mem h a
    · exact selectivities_mem h as _ hx

end

end Sane

/-! ### Filters and caps -/

theorem rows_filtered (s : Statistics ℝ) (x : ℝ) : (s.filtered x).rows = max (s.rows * x) 1 := by
  rw [filtered, larger_eq_max, one_eq]

namespace Sane

/-- No more rows than come in are kept. -/
theorem rows_filtered_le (h : s.Sane) {x : ℝ} (hx : x ≤ 1) : (s.filtered x).rows ≤ s.rows := by
  rw [rows_filtered]
  exact max_le (mul_le_of_le_one_right h.rows_pos.le hx) h.one_le_rows

/-- What is filtered is sane.  The fraction may be anything. -/
theorem filtered (h : s.Sane) (x : ℝ) : (s.filtered x).Sane := by
  have hone : 1 ≤ (s.filtered x).rows := one_le_larger _
  have hratio : 0 ≤ (s.filtered x).rows / s.rows :=
    div_nonneg (zero_le_one.trans hone) h.rows_pos.le
  refine ⟨hone, ?_, fun e he => ?_⟩
  · show 0 ≤ s.bytes * if less 0.0 s.rows = true then (s.filtered x).rows / s.rows else 1.0
    rw [if_pos h.less_rows]
    exact mul_nonneg h.bytes_nonneg hratio
  · obtain ⟨d, hd, rfl⟩ := Assoc.mem_entries_mapValues.mp he
    exact (h.columns d hd).cut (one_le_larger _) hone

/-- A cap is a filter that leaves as many rows as the cap says, but one at least. -/
theorem capped_eq (h : s.Sane) (limit : ℝ) :
    s.capped limit = if s.rows ≤ limit then s else s.filtered (limit / s.rows) := by
  -- the filter comes to the limit by a division, which is exact here
  have hrows : larger limit 1.0 = (s.filtered (limit / s.rows)).rows := by
    rw [rows_filtered, mul_div_cancel₀ _ h.rows_pos.ne', larger_eq_max, one_eq]
  by_cases hle : s.rows ≤ limit
  · rw [capped, if_pos (atMost_iff.mpr hle), if_pos hle]
  · rw [capped, if_neg (mt atMost_iff.mp hle), if_neg hle]
    dsimp only
    rw [if_pos h.less_rows, hrows]

theorem capped (h : s.Sane) (limit : ℝ) :
    (s.capped limit).Sane ∧ (s.capped limit).rows ≤ s.rows := by
  rw [h.capped_eq]
  split
  · exact ⟨h, le_rfl⟩
  · next hle =>
    have hfraction : limit / s.rows ≤ 1 :=
      div_le_one_of_le₀ (not_le.mp hle).le h.rows_pos.le
    exact ⟨h.filtered _, h.rows_filtered_le hfraction⟩

/-! ### Joins and groups -/

theorem rowSize_nonneg (h : s.Sane) : 0 ≤ s.rowSize := by
  rw [rowSize, if_pos h.less_rows]
  exact div_nonneg h.bytes_nonneg h.rows_pos.le

/-- The pairs of two sane sides are sane, whatever columns are equated. -/
theorem joined (hl : left.Sane) (hr : right.Sane) (pairs : List (String × String)) :
    (left.joined right pairs).Sane := by
  have hone : 1 ≤ (left.joined right pairs).rows := one_le_larger _
  refine ⟨hone, ?_, fun e he => ?_⟩
  · exact mul_nonneg (zero_le_one.trans hone) (add_nonneg hl.rowSize_nonneg hr.rowSize_nonneg)
  · rcases Assoc.mem_entries_of_setAll he with he | he
    · obtain ⟨d, hd, rfl⟩ := Assoc.mem_entries_mapValues.mp he
      exact (hl.columns d hd).cut (hl.columns d hd).one_le_distinct hone
    · obtain ⟨d, hd, rfl⟩ := Assoc.mem_entries_mapValues.mp he
      exact (hr.columns d hd).cut (hr.columns d hd).one_le_distinct hone

/-- There are as many groups as rows at most, and nothing is known of their columns. -/
theorem aggregated (h : s.Sane) (keys : List String) :
    (s.aggregated keys).Sane ∧ (s.aggregated keys).rows ≤ s.rows := by
  have hone : 1 ≤ (s.aggregated keys).rows := one_le_larger _
  have hsize : 0 ≤ (defaultRowSize : ℝ) := by norm_num [defaultRowSize]
  refine ⟨⟨hone, mul_nonneg (zero_le_one.trans hone) hsize, fun _ he => nomatch he⟩, ?_⟩
  show larger (smaller _ s.rows) 1.0 ≤ s.rows
  rw [larger_eq_max, smaller_eq_min, one_eq]
  exact max_le (min_le_right _ _) h.one_le_rows

end Sane

end Statistics

/-! ## Plans -/

/-- What holds of the answer for a plan, if it holds of those for the groups it refers to, holds of
all answers through a lookup. -/
theorem Lookup.holds_of_answer {β : Type} {P : β → Prop} {lookup : Lookup}
    {question : (GroupId → Except Fault β) → Plan → Except Fault β}
    (hstep : ∀ through, (∀ id x, through id = .ok x → P x) →
      ∀ p x, question through p = .ok x → P x)
    {p : Plan} {x : β} (h : lookup.answer question p = .ok x) : P x := by
  refine hstep _ (fun id y hy => ?_) p x h
  generalize lookup.known.length = hops at hy
  induction hops generalizing id y with
  | zero =>
    obtain ⟨_, _, hy⟩ := bind_eq_ok.mp hy
    cases hy
  | succ hops ih =>
    obtain ⟨q, -, hy⟩ := bind_eq_ok.mp hy
    exact hstep _ ih q y hy

/-- All tables of a catalog have sane statistics. -/
def Catalog.Sane (c : Catalog ℝ) : Prop := ∀ name s, c.statistics? name = some s → s.Sane

namespace Estimator

variable {e : Estimator ℝ} {x y : Estimate ℝ}

/-- An operator over one input puts out sane statistics, and no more rows than come in. -/
theorem sane_unary (hx : x.statistics.Sane) (op : Unary) :
    (e.unary op x).statistics.Sane ∧ (e.unary op x).statistics.rows ≤ x.statistics.rows := by
  cases op with
  | filter p => exact ⟨hx.filtered _, hx.rows_filtered_le (hx.selectivity_mem p).2⟩
  | aggregate keys calls => exact hx.aggregated _
  | limit offset count => exact hx.capped _
  | project es names => exact ⟨hx, le_rfl⟩
  | sort ts => exact ⟨hx, le_rfl⟩

/-- The pairs that satisfy a condition are sane.  Each conjunct that is left filters what the ones
before it have let through. -/
theorem sane_paired {left right : Statistics ℝ} (hl : left.Sane) (hr : right.Sane) (c : Expr) :
    (paired c left right).Sane := by
  unfold paired
  have hjoined := hl.joined hr c.equiPairs
  generalize left.joined right c.equiPairs = s at hjoined ⊢
  induction residue c generalizing s with
  | nil => exact hjoined
  | cons p ps ih => exact ih _ (hjoined.filtered _)

theorem sane_join (hx : x.statistics.Sane) (hy : y.statistics.Sane) (j : Join) :
    (e.join j x y).statistics.Sane := by
  cases hkind : j.kind.emitsRight with
  | true =>
    rw [join, if_pos hkind]
    exact sane_paired hx hy _
  | false =>
    rw [join, if_neg (by simp [hkind])]
    exact (hx.capped _).1

/-- A join that puts out rows of its left input puts out no more of them than come in. -/
theorem rows_join_le (hx : x.statistics.Sane) {j : Join} (hj : j.kind.emitsRight = false) :
    (e.join j x y).statistics.rows ≤ x.statistics.rows := by
  rw [join, if_neg (by simp [hj])]
  exact (hx.capped _).2

theorem sane_scan (he : e.catalog.Sane) (s : Scan) : (e.scan s).statistics.Sane := by
  have htable : ((e.catalog.statistics? s.table).getD Statistics.unknown).Sane := by
    cases hs : e.catalog.statistics? s.table with
    | none => exact Statistics.sane_unknown
    | some t => exact he _ t hs
  unfold scan
  cases s.predicate with
  | none => exact htable
  | some p => exact htable.filtered _

/-- Estimates are sane if those of the groups that are referred to are. -/
theorem sane_estimateBy (he : e.catalog.Sane) (through : GroupId → Except Fault (Estimate ℝ))
    (hthrough : ∀ id x, through id = .ok x → x.statistics.Sane) (p : Plan) (x : Estimate ℝ)
    (h : e.estimateBy through p = .ok x) : x.statistics.Sane := by
  induction p generalizing x with
  | scan s =>
    cases h
    exact sane_scan he s
  | unary op a ih =>
    obtain ⟨y, hy, h⟩ := bind_eq_ok.mp h
    cases h
    exact (sane_unary (ih y hy) op).1
  | join j a b iha ihb =>
    obtain ⟨y, hy, h⟩ := bind_eq_ok.mp h
    obtain ⟨z, hz, h⟩ := bind_eq_ok.mp h
    cases h
    exact sane_join (iha y hy) (ihb z hz) j
  | group id => exact hthrough id x h

/-! ### Through a lookup -/

variable {lookup : Lookup} {p a b : Plan} {s t : Statistics ℝ}

theorem statistics_eq_ok_iff :
    e.statistics p lookup = .ok s ↔ ∃ x, e.estimate p lookup = .ok x ∧ x.statistics = s :=
  map_eq_ok

theorem statistics_unary (h : e.estimate a lookup = .ok x) (op : Unary) :
    e.statistics (.unary op a) lookup = .ok (e.unary op x).statistics := by
  have hestimate : e.estimate (.unary op a) lookup = .ok (e.unary op x) :=
    bind_eq_ok.mpr ⟨x, h, rfl⟩
  exact statistics_eq_ok_iff.mpr ⟨_, hestimate, rfl⟩

theorem statistics_join (ha : e.estimate a lookup = .ok x) (hb : e.estimate b lookup = .ok y)
    (j : Join) : e.statistics (.join j a b) lookup = .ok (e.join j x y).statistics := by
  have hestimate : e.estimate (.join j a b) lookup = .ok (e.join j x y) :=
    bind_eq_ok.mpr ⟨x, ha, bind_eq_ok.mpr ⟨y, hb, rfl⟩⟩
  exact statistics_eq_ok_iff.mpr ⟨_, hestimate, rfl⟩

theorem sane_estimate (he : e.catalog.Sane) (h : e.estimate p lookup = .ok x) :
    x.statistics.Sane :=
  Lookup.holds_of_answer (P := fun x => x.statistics.Sane) (sane_estimateBy he) h

/-- A plan without references has an estimate, whatever the lookup. -/
theorem exists_estimate (e : Estimator ℝ) (hp : p.hasGroups = false) (lookup : Lookup) :
    ∃ x, e.estimate p lookup = .ok x := by
  obtain ⟨x, hx⟩ := e.total_estimateBy.answer_empty hp
  have hself : p.resolve lookup = .ok p :=
    (p.resolve_eq_expand lookup).trans (Lookup.expand_of_hasGroups hp)
  exact ⟨x, ((Lookup.compositional_estimateBy e).answer_of_resolve hself).trans hx⟩

/-- **Sane tables make sane estimates.**  In exact arithmetic, and over a catalog of sane tables, a
plan without references has sane statistics, and so has every plan of which the statistics can be
told through a lookup.  Under sane statistics every predicate keeps between none and all of the
rows.  An operator over one input puts out no more rows than come in, and neither does a join that
only tests the rows of its left input for partners. -/
theorem sane_of_catalog (he : e.catalog.Sane) :
    (∀ p lookup, p.hasGroups = false → ∃ s, e.statistics p lookup = .ok s ∧ s.Sane) ∧
      (∀ p lookup s, e.statistics p lookup = .ok s → s.Sane) ∧
      (∀ s : Statistics ℝ, s.Sane →
        ∀ p : Expr, 0 ≤ s.selectivity p ∧ s.selectivity p ≤ 1) ∧
      (∀ op a lookup s, e.statistics a lookup = .ok s →
        ∃ t, e.statistics (.unary op a) lookup = .ok t ∧ t.rows ≤ s.rows) ∧
      ∀ j a b lookup s s', j.kind = .semi ∨ j.kind = .anti →
        e.statistics a lookup = .ok s → e.statistics b lookup = .ok s' →
          ∃ t, e.statistics (.join j a b) lookup = .ok t ∧ t.rows ≤ s.rows := by
  refine ⟨fun p lookup hp => ?_, fun p lookup s hs => ?_, fun s hs => hs.selectivity_mem,
    fun op a lookup s hs => ?_, fun j a b lookup s s' hj hs hs' => ?_⟩
  · obtain ⟨x, hx⟩ := e.exists_estimate hp lookup
    exact ⟨_, statistics_eq_ok_iff.mpr ⟨x, hx, rfl⟩, sane_estimate he hx⟩
  · obtain ⟨x, hx, rfl⟩ := statistics_eq_ok_iff.mp hs
    exact sane_estimate he hx
  · obtain ⟨x, hx, rfl⟩ := statistics_eq_ok_iff.mp hs
    exact ⟨_, statistics_unary hx op, (sane_unary (sane_estimate he hx) op).2⟩
  · obtain ⟨x, hx, rfl⟩ := statistics_eq_ok_iff.mp hs
    obtain ⟨y, hy, rfl⟩ := statistics_eq_ok_iff.mp hs'
    have hleft : j.kind.emitsRight = false := by
      rcases hj with hj | hj <;> rw [hj] <;> rfl
    exact ⟨_, statistics_join hx hy j, rows_join_le (sane_estimate he hx) hleft⟩

section Tables

/-- Ten rows with five values in a column, half of them null. -/
private noncomputable def ten : Statistics ℝ := ⟨10, 1000, .ofList [("a", ⟨5, 1 / 2⟩)]⟩

private noncomputable def tables : Estimator ℝ :=
  ⟨.standard, Catalog.empty.add ⟨"s", "t"⟩ ⟨[], ten⟩⟩

/-- Rows of the table that lack a partner among the rows of another one, on a column of both. -/
private def partnerless : Plan :=
  .join ⟨.anti, .binary .eq (.column ⟨none, "a"⟩) (.column ⟨none, "a"⟩)⟩ (.scanAll "s" "t")
    (.scanAll "s" "u")

/-- A limit at no rows, of the rows without a partner. -/
theorem sane_of_tables :
    tables.catalog.Sane ∧ (Plan.limit 0 0 partnerless).hasGroups = false ∧
      ∃ s t u, tables.statistics (.scanAll "s" "t") .empty = .ok s ∧
        tables.statistics partnerless .empty = .ok t ∧
        tables.statistics (.limit 0 0 partnerless) .empty = .ok u ∧ u.Sane ∧
        u.rows ≤ t.rows ∧ t.rows ≤ s.rows ∧ s.rows = 10 := by
  have hten : ten.Sane := by
    refine ⟨by norm_num [ten], by norm_num [ten], fun e he => ?_⟩
    cases List.mem_singleton.mp he
    constructor <;> norm_num [ten]
  have hcatalog : tables.catalog.Sane := by
    intro name s hs
    obtain ⟨info, hinfo, rfl⟩ := Option.map_eq_some_iff.mp hs
    have hfound : (Assoc.set ∅ ⟨"s", "t"⟩ ⟨[], ten⟩ : Assoc TableName (TableInfo ℝ)).find? name =
        some info := hinfo
    rw [Assoc.find?_set] at hfound
    split at hfound
    · cases hfound
      exact hten
    · cases hfound
  obtain ⟨hsane, hall, -, hunary, hjoin⟩ := sane_of_catalog hcatalog
  have hs : tables.statistics (.scanAll "s" "t") .empty = .ok ten := rfl
  obtain ⟨s', hs', -⟩ := hsane (.scanAll "s" "u") .empty rfl
  obtain ⟨t, ht, hts⟩ :=
    hjoin ⟨.anti, _⟩ (.scanAll "s" "t") (.scanAll "s" "u") .empty _ _ (.inr rfl) hs hs'
  obtain ⟨u, hu, hut⟩ := hunary (.limit 0 0) partnerless .empty t ht
  exact ⟨hcatalog, rfl, ten, t, u, hs, ht, hu, hall _ _ _ hu, hut, hts, rfl⟩

end Tables

end Estimator

end PlanOptimizer
