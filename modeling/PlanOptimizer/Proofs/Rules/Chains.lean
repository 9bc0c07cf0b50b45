import PlanOptimizer.Proofs.Clauses
import PlanOptimizer.Proofs.Rules.Rewrites

/-!
# Chains of operators

A plan without joins is a chain: operators with one input, one over the other, and a scan below
them.  Of the standard rules only three have something to offer there.  A filter may be taken out
or merged with the filter below it, and the scan may be narrowed for the projection over it.

The *foot* of a chain is its scan, but for the columns, together with the columns that the lowest
projection needs.  No rule changes it, so whatever filters are taken out, all that the scan is ever
narrowed to is one and the same scan (`Foot.narrow`).
-/

namespace PlanOptimizer

open Rule

/-! ## Plans without joins -/

/-- Whether a plan has no joins. -/
def Plan.joinFree : Plan → Bool
  | .scan _ | .group _ => true
  | .unary _ a => a.joinFree
  | .join .. => false

/-- One for a filter, and zero for the other operators with one input. -/
def Unary.filters : Unary → Nat
  | .filter _ => 1
  | _ => 0

/-- The number of filters in a plan. -/
def Plan.filterCount : Plan → Nat
  | .scan _ | .group _ => 0
  | .unary op a => op.filters + a.filterCount
  | .join _ a b => a.filterCount + b.filterCount

/-! ## Feet -/

/-- The columns that the expressions of a projection need. -/
def Rule.needed (exprs : List Expr) : List Column := distinctColumns (exprs.flatMap Expr.columns)

/-- What a chain of operators comes down to. -/
structure Foot where
  /-- The scan, without its columns and up to the spelling of literals. -/
  scan : Scan
  /-- The columns that the lowest projection needs, if there is a projection. -/
  needed : Option (List Column)

/-- The foot of a scan. -/
def Scan.foot (s : Scan) : Foot := ⟨{ s.canon with columns := [] }, none⟩

/-- The foot of an operator over a chain. -/
def Unary.foot (op : Unary) (f : Foot) : Foot :=
  match op with
  | .project es _ => { f with needed := f.needed.or (some (needed es)) }
  | _ => f

namespace Foot

variable {f g : Foot} {cs : List Column}

/-- The scan that reads only what the lowest projection needs. -/
def narrow (f : Foot) : Scan := { f.scan with columns := f.needed.getD [] }

/-- A chain that ends in the same scan, and in the same projection if it has one. -/
structure Within (f g : Foot) : Prop where
  scan : f.scan = g.scan
  needed : ∀ {cs}, f.needed = some cs → g.needed = some cs

theorem Within.refl (f : Foot) : f.Within f := ⟨rfl, fun h => h⟩

/-- What is below an operator has the same foot as far as it goes. -/
theorem Within.of_over {op : Unary} (h : (op.foot f).Within g) : f.Within g := by
  cases op with
  | project es names =>
    refine ⟨h.scan, fun {cs} hcs => h.needed ?_⟩
    show f.needed.or _ = some cs
    rw [hcs]
    rfl
  | _ => exact h

/-- All projections that have a scan as their input need the same narrow scan. -/
theorem Within.narrow_eq (h : f.Within g) (hcs : f.needed = some cs) : f.narrow = g.narrow := by
  unfold narrow
  rw [h.scan, hcs, h.needed hcs]

end Foot

/-! ### The spelling of literals -/

mutual

theorem Expr.columns_canon : ∀ e : Expr, e.canon.columns = e.columns
  | .column _ | .literal _ => rfl
  | .binary _ a b => by simp only [Expr.canon, Expr.columns, columns_canon a, columns_canon b]
  | .unary _ a => columns_canon a
  | .call _ as | .and as | .or as => columnsAll_canonAll as

theorem Expr.columnsAll_canonAll : ∀ es : List Expr, columnsAll (canonAll es) = columnsAll es
  | [] => rfl
  | e :: es => by simp only [canonAll, columnsAll, columns_canon e, columnsAll_canonAll es]

end

theorem Rule.needed_canon (es : List Expr) : needed (es.map Expr.canon) = needed es := by
  simp only [needed, List.flatMap_map, Expr.columns_canon]

theorem Unary.filters_canon (op : Unary) : op.canon.filters = op.filters := by cases op <;> rfl

theorem Unary.foot_canon (op : Unary) (f : Foot) : op.canon.foot f = op.foot f := by
  cases op with
  | project es names =>
    show ({ f with needed := f.needed.or (some (Rule.needed (es.map Expr.canon))) } : Foot) = _
    rw [needed_canon]
    rfl
  | _ => rfl

theorem Unary.filters_congr {a b : Unary} (h : a.canon = b.canon) : a.filters = b.filters := by
  rw [← a.filters_canon, h, b.filters_canon]

theorem Unary.foot_congr {a b : Unary} (h : a.canon = b.canon) (f : Foot) : a.foot f = b.foot f := by
  rw [← a.foot_canon, h, b.foot_canon]

theorem Scan.foot_congr {a b : Scan} (h : a.canon = b.canon) : a.foot = b.foot := by
  unfold foot
  rw [h]

/-- A scan is narrowed to the narrow scan of the foot. -/
theorem Scan.canon_narrow (s : Scan) (es : List Expr) (names : List String) :
    ({ s with columns := needed es } : Scan).canon =
      ((Unary.project es names).foot s.foot).narrow := rfl

/-! ## What the rules do on a chain -/

variable {m : Memo} {rule : Rule} {context : Context} {op : Unary} {y : GroupId} {s : Scan} {t : Shape}

/-- A rule has nothing to offer for a shape. -/
def Rule.Silent (rule : Rule) (m : Memo) (s : Shape) : Prop :=
  ∀ context, rule.apply context m.lookup s.overGroups = .ok []

/-- There is nothing to offer for a scan. -/
theorem Rule.silent_scan (hrule : rule ∈ Rule.standard) (s : Scan) : rule.Silent m (.scan s) := by
  intro context
  simp only [Rule.standard, List.mem_cons, List.not_mem_nil, or_false] at hrule
  rcases hrule with rfl | rfl | rfl | rfl | rfl | rfl <;> rfl

theorem Rule.silent_removeTrivialFilter (hop : op.filters = 0) :
    removeTrivialFilter.Silent m (.unary op y) := by
  intro context
  cases op with
  | filter => cases hop
  | _ => rfl

theorem Rule.silent_mergeFilters (hop : op.filters = 0) : mergeFilters.Silent m (.unary op y) := by
  intro context
  cases op with
  | filter => cases hop
  | _ => rfl

theorem Rule.silent_mergeFilters_of_input {p : Expr} (ht : m.rep? y = some t)
    (hnot : ∀ q z, t ≠ .unary (.filter q) z) : mergeFilters.Silent m (.unary (.filter p) y) := by
  intro context
  show (m.lookup.expose (.group y) >>= _) = _
  rw [Memo.expose_group ht]
  cases t with
  | unary inner z =>
    cases inner with
    | filter q => exact absurd rfl (hnot q z)
    | _ => rfl
  | _ => rfl

theorem Rule.silent_routePredicates (ht : m.rep? y = some t) (hnot : ∀ j a b, t ≠ .join j a b) :
    routePredicates.Silent m (.unary op y) := by
  intro context
  cases op with
  | filter p =>
    show (m.lookup.expose (.group y) >>= _) = _
    rw [Memo.expose_group ht]
    cases t with
    | join j a b => exact absurd rfl (hnot j a b)
    | _ => rfl
  | _ => rfl

theorem Rule.silent_swapJoin : swapJoin.Silent m (.unary op y) := fun _ => rfl

theorem Rule.silent_rotateJoin : rotateJoin.Silent m (.unary op y) := fun _ => rfl

theorem Rule.silent_pruneColumns (hop : ∀ es names, op ≠ .project es names) :
    pruneColumns.Silent m (.unary op y) := by
  intro context
  cases op with
  | project es names => exact absurd rfl (hop es names)
  | _ => rfl

theorem Rule.silent_pruneColumns_of_input (ht : m.rep? y = some t) (hnot : ∀ s, t ≠ .scan s) :
    pruneColumns.Silent m (.unary op y) := by
  intro context
  cases op with
  | project es names =>
    show (m.lookup.expose (.group y) >>= _) = _
    rw [Memo.expose_group ht]
    cases t with
    | scan s => exact absurd rfl (hnot s)
    | _ => rfl
  | _ => rfl

/-- The rule that prunes columns applies to every projection over a scan. -/
theorem Rule.applies_pruneColumns {es : List Expr} {names : List String}
    (hy : m.rep? y = some (.scan s)) :
    pruneColumns.applies m.lookup (Node.unary (.project es names) y : Shape).overGroups = .ok true := by
  have htop : m.lookup.settle (.group y) = .ok (.scan s) := by
    rw [Memo.settle_group, hy]
    rfl
  have hbelow : Pattern.scan.fits m.lookup (.group y) = .ok true := by
    unfold Pattern.scan Pattern.fits
    rw [htop]
    show Pattern.fitsAll m.lookup [] [] = .ok true
    simp [Pattern.fitsAll]
  show Pattern.projectOverScan.fits m.lookup (.project es names (.group y)) = .ok true
  unfold Pattern.projectOverScan Pattern.fits
  show Pattern.fitsAll m.lookup [.scan] [.group y] = .ok true
  simp [Pattern.fitsAll, hbelow, ok_bind]

/-- The offer for a projection over a scan. -/
theorem Rule.apply_pruneColumns {es : List Expr} {names : List String}
    (hy : m.rep? y = some (.scan s)) :
    pruneColumns.apply context m.lookup (Node.unary (.project es names) y : Shape).overGroups =
      .ok (if saves (needed es) (columnsRead context.catalog s) then
        [.alternative (.project es names (.scan { s with columns := needed es }))] else []) := by
  show (m.lookup.expose (.group y) >>= _) = _
  rw [Memo.expose_group hy, apply_ite Except.ok]
  rfl

theorem Rule.ne_nil_of_saves {cs : List Column} {read : Option Nat} (h : saves cs read = true) :
    cs ≠ [] := by
  rintro rfl
  cases h

/-- There is nothing left to prune in a scan that reads what is needed. -/
theorem Rule.not_saves_of_columns {catalog : Catalog Float} (hs : s.columns ≠ []) :
    saves s.columns (columnsRead catalog s) = false := by
  have hread : columnsRead catalog s = some s.columns.length := if_neg (by simpa using hs)
  rw [hread]
  simp [saves]

end PlanOptimizer
