import PlanOptimizer.Proofs.Clauses

/-!
# Rows and predicates

A row has values for some columns, each named by its table and its own name.  An `Evaluation`
gives expressions values in rows.  It is not said what values are and which of them is the truth,
so a predicate may well be unknown in a row.  What is asked is that a value depends on the columns
that are mentioned, and that conjunctions, the literal `TRUE` and equalities are what they should
be.

A predicate holds in a row if and only if all of its conjuncts do, however it has been taken apart
and put together again.
-/

namespace PlanOptimizer

universe u

/-- The values of a row.  It lacks the columns without a value. -/
abbrev Row (V : Type u) := String × String → Option V

/-- Whether a mention of a column may mean the column with a table and a name. -/
def Column.Reads (c : Column) (k : String × String) : Prop :=
  k.2 = c.name ∧ ∀ t ∈ c.table, k.1 = t

instance (c : Column) (k : String × String) : Decidable (c.Reads k) :=
  inferInstanceAs (Decidable (_ ∧ _))

namespace Row

variable {V : Type u} {r s t : Row V} {e : Expr} {names : List String}

/-- Two rows side by side. -/
def beside (r s : Row V) : Row V := fun k => (r k).or (s k)

/-- The columns of a row that some mentions may mean, or all of them if nothing is mentioned. -/
def restrict (cs : List Column) (r : Row V) : Row V := fun k =>
  if cs.isEmpty ∨ ∃ c ∈ cs, c.Reads k then r k else none

/-- A row has columns of some tables only. -/
def Within (names : List String) (r : Row V) : Prop := ∀ k, r k ≠ none → k.1 ∈ names

/-- A row has no column that an expression may mean. -/
def Misses (e : Expr) (r : Row V) : Prop := ∀ c ∈ e.columns, ∀ k, c.Reads k → r k = none

theorem restrict_of_reads {c : Column} {cs : List Column} {k : String × String}
    (h : cs = [] ∨ c ∈ cs) (hk : c.Reads k) : r.restrict cs k = r k := by
  refine if_pos (h.imp (fun hnil => ?_) fun hc => ⟨c, hc, hk⟩)
  rw [hnil]
  rfl

theorem beside_assoc (r s t : Row V) : (r.beside s).beside t = r.beside (s.beside t) :=
  funext fun _ => Option.or_assoc

theorem Within.beside (hr : r.Within names) (hs : s.Within names) : (r.beside s).Within names := by
  intro k hk
  cases hrk : r k with
  | none =>
    refine hs k ?_
    rwa [Row.beside, hrk, Option.none_or] at hk
  | some v => exact hr k (by simp [hrk])

/-- Rows of different tables may change sides. -/
theorem beside_comm {names' : List String} (hr : r.Within names) (hs : s.Within names')
    (hapart : ∀ t ∈ names, t ∉ names') : r.beside s = s.beside r := by
  funext k
  unfold Row.beside
  cases hrk : r k with
  | none => simp
  | some v =>
    cases hsk : s k with
    | none => rfl
    | some w => exact absurd (hs k (by simp [hsk])) (hapart _ (hr k (by simp [hrk])))

/-- A row misses a predicate that mentions other tables, if all columns are qualified. -/
theorem Within.misses (hr : r.Within names) (hqualified : ∀ c ∈ e.columns, c.table ≠ none)
    (hapart : ∀ t ∈ e.tables, t ∉ names) : r.Misses e := by
  intro c hc k hk
  obtain ⟨t, ht⟩ := Option.ne_none_iff_exists'.mp (hqualified c hc)
  have hlacks : k.1 ∉ names := by
    rw [hk.2 t ht]
    exact hapart t (Expr.mem_tables.mpr ⟨c, hc, ht⟩)
  cases hrk : r k with
  | none => rfl
  | some v => exact absurd (hr k (by simp [hrk])) hlacks

end Row

/-- The values that expressions have in rows. -/
structure Evaluation (V : Type u) where
  /-- The value of an expression in a row. -/
  value : Expr → Row V → V
  /-- Whether a value is the truth. -/
  isTrue : V → Bool
  /-- A value depends on the columns that are mentioned. -/
  value_congr : ∀ {e : Expr} {r s : Row V}, (∀ c ∈ e.columns, ∀ k, c.Reads k → r k = s k) →
    value e r = value e s
  /-- A conjunction is true if all its members are. -/
  isTrue_and : ∀ (es : List Expr) (r : Row V),
    isTrue (value (.and es) r) = true ↔ ∀ e ∈ es, isTrue (value e r) = true
  /-- The literal `TRUE` is true. -/
  isTrue_always : ∀ r : Row V, isTrue (value .always r) = true
  /-- The sides of an equality may change places. -/
  isTrue_eq_comm : ∀ (a b : Expr) (r : Row V),
    isTrue (value (.binary .eq a b) r) = isTrue (value (.binary .eq b a) r)

namespace Expr

mutual

/-- A conjunct mentions no other columns. -/
theorem columns_of_mem_conjuncts : ∀ {e c : Expr}, c ∈ e.conjuncts → c.columns ⊆ e.columns
  | .column _, _, h | .literal _, _, h | .binary _ _ _, _, h | .unary _ _, _, h
  | .call _ _, _, h | .or _, _, h => by
    cases List.mem_singleton.mp h
    exact List.Subset.refl _
  | .and ps, _, h => columns_of_mem_conjunctsAll (show _ ∈ conjunctsAll ps from h)

theorem columns_of_mem_conjunctsAll :
    ∀ {ps : List Expr} {c : Expr}, c ∈ conjunctsAll ps → c.columns ⊆ columnsAll ps
  | [], _, h => nomatch h
  | _ :: _, _, h => by
    rcases List.mem_append.mp h with h | h
    · exact List.Subset.trans (columns_of_mem_conjuncts h) (List.subset_append_left _ _)
    · exact List.Subset.trans (columns_of_mem_conjunctsAll h) (List.subset_append_right _ _)

end

theorem eq_always_of_isTrue {e : Expr} (h : e.isTrue = true) : e = .always := by
  cases e with
  | literal l =>
    cases l with
    | bool b =>
      cases b with
      | true => rfl
      | false => cases h
    | _ => cases h
  | _ => cases h

end Expr

namespace Evaluation

variable {V : Type u} (E : Evaluation V) {e : Expr} {ps : List Expr} {r s : Row V}

/-- Whether a predicate is true in a row. -/
def holds (e : Expr) (r : Row V) : Bool := E.isTrue (E.value e r)

variable {E}

theorem holds_of_isTrue (h : e.isTrue = true) (r : Row V) : E.holds e r = true := by
  rw [Expr.eq_always_of_isTrue h]
  exact E.isTrue_always r

/-! ## Conjuncts -/

mutual

/-- A predicate holds if and only if its conjuncts do. -/
theorem holds_iff_conjuncts (E : Evaluation V) (r : Row V) :
    ∀ e : Expr, E.holds e r = true ↔ ∀ c ∈ e.conjuncts, E.holds c r = true
  | .column _ | .literal _ | .binary _ _ _ | .unary _ _ | .call _ _ | .or _ => by
    simp [Expr.conjuncts]
  | .and ps => (E.isTrue_and ps r).trans (holdsAll_iff_conjuncts E r ps)

theorem holdsAll_iff_conjuncts (E : Evaluation V) (r : Row V) : ∀ ps : List Expr,
    (∀ p ∈ ps, E.holds p r = true) ↔ ∀ c ∈ Expr.conjunctsAll ps, E.holds c r = true
  | [] => Iff.rfl
  | p :: ps => by
    rw [Expr.conjunctsAll, List.forall_mem_append, List.forall_mem_cons,
      holds_iff_conjuncts E r p, holdsAll_iff_conjuncts E r ps]

end

theorem holds_iff_parts (E : Evaluation V) (e : Expr) (r : Row V) :
    E.holds e r = true ↔ ∀ p ∈ e.parts, E.holds p r = true := by
  have hleaf : ∀ e : Expr, E.holds e r = true ↔
      ∀ p ∈ (if e.isTrue then [] else [e]), E.holds p r = true := by
    intro e
    by_cases he : e.isTrue = true
    · simp [he, holds_of_isTrue he]
    · simp [he]
  cases e with
  | and ps =>
    rw [Expr.parts, show E.holds (.and ps) r = true ↔ _ from E.isTrue_and ps r]
    simp only [List.mem_filter, Bool.not_eq_true']
    refine ⟨fun h p hp => h p hp.1, fun h p hp => ?_⟩
    cases htrue : p.isTrue with
    | true => exact holds_of_isTrue htrue r
    | false => exact h p ⟨hp, htrue⟩
  | _ => exact hleaf _

/-- Predicates that are put together hold if and only if each of them does. -/
theorem holds_conjunction (E : Evaluation V) (ps : List Expr) (r : Row V) :
    E.holds (Expr.conjunction ps) r = true ↔ ∀ p ∈ ps, E.holds p r = true := by
  have hparts : (∀ p ∈ ps, E.holds p r = true) ↔
      ∀ p ∈ ps.flatMap Expr.parts, E.holds p r = true := by
    simp only [List.mem_flatMap]
    refine ⟨fun h q ⟨p, hp, hq⟩ => (E.holds_iff_parts p r).mp (h p hp) q hq, fun h p hp => ?_⟩
    exact (E.holds_iff_parts p r).mpr fun q hq => h q ⟨p, hp, hq⟩
  rw [hparts, Expr.conjunction]
  split
  · next h => simp [h, E.holds_of_isTrue (e := .always) rfl]
  · next h => simp [h]
  · exact E.isTrue_and _ r

mutual

/-- A condition with its sides exchanged holds in the same rows. -/
theorem holds_swapSides (E : Evaluation V) (r : Row V) :
    ∀ e : Expr, E.holds (Rule.swapSides e) r = true ↔ E.holds e r = true
  | .column _ | .literal _ | .unary _ _ | .call _ _ | .or _ => Iff.rfl
  | .binary op a b => by
    cases op with
    | eq => exact Bool.coe_iff_coe.mpr (E.isTrue_eq_comm b a r)
    | _ => exact Iff.rfl
  | .and ps => by
    show E.holds (.and (Rule.swapSidesAll ps)) r = true ↔ E.holds (.and ps) r = true
    exact ((E.isTrue_and _ r).trans (holdsAll_swapSides E r ps)).trans (E.isTrue_and ps r).symm

theorem holdsAll_swapSides (E : Evaluation V) (r : Row V) : ∀ ps : List Expr,
    (∀ p ∈ Rule.swapSidesAll ps, E.holds p r = true) ↔ ∀ p ∈ ps, E.holds p r = true
  | [] => Iff.rfl
  | p :: ps => by
    rw [Rule.swapSidesAll, List.forall_mem_cons, List.forall_mem_cons, holds_swapSides E r p,
      holdsAll_swapSides E r ps]

end

/-! ## Rows side by side -/

/-- What the right row misses has its value in the left one. -/
theorem holds_beside_left (hs : s.Misses e) : E.holds e (r.beside s) = E.holds e r := by
  unfold holds
  rw [E.value_congr fun c hc k hk => ?_]
  simp [Row.beside, hs c hc k hk]

/-- What the left row misses has its value in the right one. -/
theorem holds_beside_right (hr : r.Misses e) : E.holds e (r.beside s) = E.holds e s := by
  unfold holds
  rw [E.value_congr fun c hc k hk => ?_]
  simp [Row.beside, hr c hc k hk]

end Evaluation

end PlanOptimizer
