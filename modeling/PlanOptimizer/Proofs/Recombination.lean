import PlanOptimizer.Proofs.Clauses
import PlanOptimizer.Rule.FilterMerge

/-!
# Splitting and recombining

`Expr.conjuncts` splits a predicate at any depth and `Expr.conjunction` looks one level into
what it puts together.  Both agree on *flat* predicates, where no member of a conjunction is a
conjunction itself: a conjunction of flat predicates is flat, its conjuncts are the clauses of
the predicates, and it is the literal `TRUE` if there are none.

A nested conjunction keeps its clauses too.  But a `TRUE` below the first level stays where it
is, so the outcome may be a predicate of nothing but `TRUE` that is not the literal, and putting
it together once more may still change it.
-/

namespace PlanOptimizer

namespace Expr

open Rule

variable {e c : Expr} {ps : List Expr}

/-- Whether a predicate is no conjunction, or one without conjunctions among its members. -/
def isFlat : Expr → Bool
  | .and ps => ps.all isLeaf
  | _ => true

/-! ## Parts -/

theorem isFlat_of_isLeaf (h : e.isLeaf = true) : e.isFlat = true := by
  cases e <;> first | rfl | cases h

theorem isTrue_of_mem_parts (h : c ∈ e.parts) : c.isTrue = false := by
  cases e with
  | and ps => simpa using (List.mem_filter.mp h).2
  | literal l =>
    cases hl : (literal l).isTrue with
    | true => simp [parts, hl] at h
    | false => simp_all [parts]
  | _ => exact List.mem_singleton.mp h ▸ rfl

theorem isLeaf_of_mem_parts (he : e.isFlat = true) (h : c ∈ e.parts) : c.isLeaf = true := by
  cases e with
  | and ps => exact List.all_eq_true.mp he c (List.mem_filter.mp h).1
  | literal l =>
    have hc : c ∈ if (literal l).isTrue then [] else [literal l] := h
    split at hc
    · cases hc
    · exact List.mem_singleton.mp hc ▸ rfl
  | _ => exact List.mem_singleton.mp h ▸ rfl

/-- The parts of a flat predicate are its clauses. -/
theorem parts_of_isFlat (h : e.isFlat = true) : e.parts = e.clauses := by
  cases e with
  | and ps => rw [clauses_and, clauses_of_leaves (List.all_eq_true.mp h)]; rfl
  | _ => exact parts_of_isLeaf rfl

theorem flatMap_parts_of_isFlat (h : ∀ p ∈ ps, p.isFlat = true) :
    ps.flatMap parts = ps.flatMap clauses := by
  rw [List.flatMap_def, List.flatMap_def,
    List.map_congr_left fun p hp => parts_of_isFlat (h p hp)]

theorem isTrue_of_mem_flatMap_parts (h : c ∈ ps.flatMap parts) : c.isTrue = false := by
  obtain ⟨p, -, hc⟩ := List.mem_flatMap.mp h
  exact isTrue_of_mem_parts hc

/-- There are no clauses if every conjunct is `TRUE`. -/
theorem flatMap_clauses_eq_nil_iff :
    ps.flatMap clauses = [] ↔ ∀ p ∈ ps, ∀ c ∈ p.conjuncts, c.isTrue = true := by
  simp [List.flatMap_eq_nil_iff, clauses]

/-! ## Conjunctions -/

/-- A conjunction is made of the parts of what is put together. -/
theorem conjuncts_conjunction (ps : List Expr) :
    (conjunction ps).conjuncts
      = if ps.flatMap parts = [] then [always] else (ps.flatMap parts).flatMap conjuncts := by
  unfold conjunction
  split
  · next h => simp [h, always, conjuncts]
  · next p h => simp [h]
  · next h _ => rw [if_neg h, conjuncts_and]

theorem isTrue_conjunction (ps : List Expr) :
    (conjunction ps).isTrue = true ↔ ps.flatMap parts = [] := by
  unfold conjunction
  split
  · next h => exact ⟨fun _ => h, fun _ => rfl⟩
  · next p h =>
    have hp : p ∈ ps.flatMap parts := h ▸ List.mem_singleton_self p
    simp [h, isTrue_of_mem_flatMap_parts hp]
  · next h _ => exact ⟨nofun, fun hnil => absurd hnil h⟩

theorem conjunction_of_none (h : ps.flatMap parts = []) : conjunction ps = always := by
  unfold conjunction
  rw [h]

theorem conjunction_of_one {p : Expr} (h : ps.flatMap parts = [p]) : conjunction ps = p := by
  unfold conjunction
  rw [h]

theorem conjunction_of_several {p q : Expr} {qs : List Expr} (h : ps.flatMap parts = p :: q :: qs) :
    conjunction ps = and (p :: q :: qs) := by
  unfold conjunction
  rw [h]

/-- Once put together, several parts stay as they are. -/
theorem conjunction_singleton_conjunction (ps : List Expr) :
    conjunction [conjunction ps] = conjunction ps
      ↔ ∀ p, ps.flatMap parts = [p] → conjunction [p] = p := by
  have hpart : ∀ c ∈ ps.flatMap parts, (!c.isTrue) = true := fun c hc => by
    simp [isTrue_of_mem_flatMap_parts hc]
  rcases hparts : ps.flatMap parts with _ | ⟨p, _ | ⟨q, qs⟩⟩
  · rw [conjunction_of_none hparts]
    exact iff_of_true rfl fun p hp => by cases hp
  · rw [conjunction_of_one hparts]
    simp
  · rw [hparts] at hpart
    have hsame : [and (p :: q :: qs)].flatMap parts = p :: q :: qs := by
      rw [List.flatMap_singleton]
      exact List.filter_eq_self.mpr hpart
    rw [conjunction_of_several hparts, conjunction_of_several hsame]
    exact iff_of_true rfl fun p hp => by cases hp

/-! ### Flat predicates -/

theorem isFlat_conjunction (h : ∀ p ∈ ps, p.isFlat = true) : (conjunction ps).isFlat = true := by
  have hleaf : ∀ c ∈ ps.flatMap parts, c.isLeaf = true := by
    intro c hc
    obtain ⟨p, hp, hc⟩ := List.mem_flatMap.mp hc
    exact isLeaf_of_mem_parts (h p hp) hc
  unfold conjunction
  split
  · rfl
  · next p hp => exact isFlat_of_isLeaf (hleaf p (hp ▸ List.mem_singleton_self p))
  · exact List.all_eq_true.mpr hleaf

/-- The conjuncts of a conjunction of flat predicates are their clauses. -/
theorem conjuncts_conjunction_of_isFlat (h : ∀ p ∈ ps, p.isFlat = true) :
    (conjunction ps).conjuncts
      = if ps.flatMap clauses = [] then [always] else ps.flatMap clauses := by
  have hleaf : ∀ c ∈ ps.flatMap clauses, c.isLeaf = true := by
    intro c hc
    obtain ⟨p, -, hc⟩ := List.mem_flatMap.mp hc
    exact isLeaf_of_mem (List.mem_filter.mp hc).1
  have hsplit : (ps.flatMap clauses).flatMap conjuncts = ps.flatMap clauses := by
    rw [List.flatMap_def, List.map_congr_left fun c hc => conjuncts_of_isLeaf (hleaf c hc),
      ← List.flatMap_def, List.flatMap_singleton']
  rw [conjuncts_conjunction, flatMap_parts_of_isFlat h, hsplit]

theorem isTrue_conjunction_of_isFlat (h : ∀ p ∈ ps, p.isFlat = true) :
    (conjunction ps).isTrue = true ↔ ∀ p ∈ ps, ∀ c ∈ p.conjuncts, c.isTrue = true := by
  rw [isTrue_conjunction, flatMap_parts_of_isFlat h, flatMap_clauses_eq_nil_iff]

theorem conjunction_singleton_of_isLeaf (h : e.isLeaf = true) (hne : e.isTrue = false) :
    conjunction [e] = e := by
  unfold conjunction
  rw [List.flatMap_singleton, parts_of_isLeaf h, clauses_of_isLeaf h hne]

theorem conjunction_singleton_of_isFlat (h : ∀ p ∈ ps, p.isFlat = true) :
    conjunction [conjunction ps] = conjunction ps := by
  refine (conjunction_singleton_conjunction ps).mpr fun p hp => ?_
  have hmem : p ∈ ps.flatMap parts := hp ▸ List.mem_singleton_self p
  obtain ⟨q, hq, hpart⟩ := List.mem_flatMap.mp hmem
  exact conjunction_singleton_of_isLeaf (isLeaf_of_mem_parts (h q hq) hpart)
    (isTrue_of_mem_parts hpart)

end Expr

/-! ## Merged filters -/

namespace Rule

/-- A filter merged from flat predicates is seen to be trivial if it is. -/
theorem isTrivialFilter_of_mergedFilter {lookup : Lookup} {inner outer : Expr} {input below : Plan}
    (hinner : inner.isFlat = true) (houter : outer.isFlat = true)
    (hexpose : lookup.expose input = .ok (.filter inner below)) :
    ∃ merged, mergedFilter lookup (.filter outer input) = .ok [.replacement merged]
      ∧ (isTrivialFilter merged = true ↔
          (∀ c ∈ inner.conjuncts, c.isTrue = true) ∧ ∀ c ∈ outer.conjuncts, c.isTrue = true) := by
  refine ⟨.filter (.conjunction [inner, outer]) below, ?_, ?_⟩
  · simp only [mergedFilter, hexpose]
    rfl
  · have hflat : ∀ p ∈ [inner, outer], p.isFlat = true := by simp [hinner, houter]
    show (Expr.conjunction [inner, outer]).isTrue = true ↔ _
    simpa using Expr.isTrue_conjunction_of_isFlat hflat

end Rule

/-! ## Normal forms -/

/-- **Putting predicates together normalizes, one level deep.**  At any nesting a conjunction has
the clauses of what was put together, is the literal `TRUE` only if no part is left, and changes
when it is put together again only if its one part does.  Of flat predicates it has the clauses as
its conjuncts, or `TRUE` if there are none; it is the literal `TRUE` just if every conjunct is,
and so is the predicate of a merged filter; and putting it together again changes nothing. -/
theorem Expr.conjunction_normalizes (ps : List Expr) :
    (conjunction ps).clauses = ps.flatMap clauses
      ∧ ((conjunction ps).isTrue = true ↔ ps.flatMap parts = [])
      ∧ (conjunction [conjunction ps] = conjunction ps
          ↔ ∀ p, ps.flatMap parts = [p] → conjunction [p] = p)
      ∧ ((∀ p ∈ ps, p.isFlat = true) →
          (conjunction ps).conjuncts
              = (if ps.flatMap clauses = [] then [always] else ps.flatMap clauses)
            ∧ ((conjunction ps).isTrue = true ↔ ∀ p ∈ ps, ∀ c ∈ p.conjuncts, c.isTrue = true)
            ∧ (∀ (lookup : Lookup) (input below : Plan), ∀ inner ∈ ps, ∀ outer ∈ ps,
                lookup.expose input = .ok (.filter inner below) →
                ∃ merged, Rule.mergedFilter lookup (.filter outer input) = .ok [.replacement merged]
                  ∧ (Rule.isTrivialFilter merged = true ↔
                      (∀ c ∈ inner.conjuncts, c.isTrue = true)
                        ∧ ∀ c ∈ outer.conjuncts, c.isTrue = true))
            ∧ (conjunction ps).isFlat = true
            ∧ conjunction [conjunction ps] = conjunction ps) := by
  refine ⟨clauses_conjunction ps, isTrue_conjunction ps, conjunction_singleton_conjunction ps,
    fun hflat => ⟨conjuncts_conjunction_of_isFlat hflat, isTrue_conjunction_of_isFlat hflat, ?_,
      isFlat_conjunction hflat, conjunction_singleton_of_isFlat hflat⟩⟩
  intro lookup input below inner hinner outer houter hexpose
  exact Rule.isTrivialFilter_of_mergedFilter (hflat inner hinner) (hflat outer houter) hexpose

section Nesting

private def nestedTruth : Expr := .and [.and [.always, .always]]

/-- A conjunction in a conjunction is put together to two `TRUE`s that are not the literal, and
only the second time to the literal. -/
theorem Expr.not_normal_of_nested :
    (∀ c ∈ nestedTruth.conjuncts, c.isTrue = true) ∧ nestedTruth.clauses = []
      ∧ (conjunction [nestedTruth]).conjuncts = [always, always]
      ∧ (conjunction [nestedTruth]).isTrue = false
      ∧ conjunction [conjunction [nestedTruth]] = always
      ∧ conjunction [conjunction [nestedTruth]] ≠ conjunction [nestedTruth]
      ∧ ∃ merged,
          Rule.mergedFilter (Lookup.ofTable [(0, .filter nestedTruth (.group 1))])
              (.filter .always (.group 0)) = .ok [.replacement merged]
            ∧ Rule.isTrivialFilter merged = false :=
  ⟨by decide, rfl, rfl, rfl, rfl, by decide,
    .filter (.and [.always, .always]) (.group 1), rfl, rfl⟩

/-- Three flat predicates with two clauses. -/
theorem Expr.conjunction_normalizes_of_flat :
    (∀ p ∈ [Expr.and [.col "t" "a", .always], .always, .col "t" "b"], p.isFlat = true)
      ∧ (conjunction [.and [.col "t" "a", .always], .always, .col "t" "b"]).conjuncts
          = [.col "t" "a", .col "t" "b"] := by
  have hflat : ∀ p ∈ [Expr.and [.col "t" "a", .always], .always, .col "t" "b"],
      p.isFlat = true := by decide
  exact ⟨hflat, ((conjunction_normalizes _).2.2.2 hflat).1.trans (by decide)⟩

end Nesting

end PlanOptimizer
