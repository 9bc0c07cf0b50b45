import PlanOptimizer.Group.Tables
import PlanOptimizer.Proofs.Except
import PlanOptimizer.Proofs.Reachability

/-!
# Tables below a plan

The tables reported below a plan are those that it scans itself, and those that are scanned by
the plan of a group that its references lead to (`Plan.mem_tables_iff`).  So what is reported
below an input of an operator is also reported below a reference to it.
-/

namespace PlanOptimizer

variable {lookup : Lookup} {p q y a b : Plan} {j : Join}
  {names : List String} {t : String}

namespace Lookup

theorem get_eq_ok_iff {id : GroupId} : lookup.get id = .ok q ↔ lookup.find id = some q := by
  unfold get
  cases lookup.find id with
  | none => simp
  | some p => simp

theorem links_of_find {id : GroupId} (h : lookup.find id = some q) :
    lookup.links id = q.groups.reverse := by
  unfold links
  rw [h]

/-- The plans of some groups are the plans that the lookup finds. -/
theorem mem_of_getAll {ids : List GroupId} {ps : List Plan} (h : lookup.getAll ids = .ok ps) :
    q ∈ ps ↔ ∃ id ∈ ids, lookup.find id = some q := by
  induction ids generalizing ps with
  | nil =>
    cases h
    simp
  | cons id ids ih =>
    obtain ⟨p, hp, h⟩ := bind_eq_ok.mp h
    obtain ⟨rest, hrest, h⟩ := bind_eq_ok.mp h
    cases h
    rw [List.mem_cons, ih hrest]
    simp [get_eq_ok_iff.mp hp, eq_comm]

/-- The groups below a plan are those that its references lead to. -/
theorem mem_below_iff {id : GroupId} :
    id ∈ lookup.below p ↔ ∃ i ∈ p.groups, Reaches lookup.links i id := by
  have hclosed : ∀ i ∈ p.groups ++ lookup.known.flatMap lookup.links, ∀ k, Links lookup.links i k →
      k ∈ p.groups ++ lookup.known.flatMap lookup.links := by
    intro i _ k hk
    refine List.mem_append_right _ (List.mem_flatMap.mpr ⟨i, ?_, hk⟩)
    cases hfind : lookup.find i with
    | some q => exact lookup.known_of_find hfind
    | none =>
      unfold Links links at hk
      rw [hfind] at hk
      cases hk
  unfold below
  rw [mem_closure_iff hclosed fun i hi => List.mem_append_left _ (List.mem_reverse.mp hi)]
  simp only [List.mem_reverse]

end Lookup

namespace Plan

theorem mem_tables_iff (h : p.tables lookup = .ok names) :
    t ∈ names ↔ t ∈ p.scanned ∨
      ∃ i ∈ p.groups, ∃ id, Reaches lookup.links i id ∧
        ∃ q, lookup.find id = some q ∧ t ∈ q.scanned := by
  obtain ⟨ps, hps, h⟩ := bind_eq_ok.mp h
  cases h
  rw [List.mem_append, List.mem_flatMap]
  simp only [Lookup.mem_of_getAll hps, Lookup.mem_below_iff]
  refine or_congr_right ⟨?_, ?_⟩
  · rintro ⟨q, ⟨id, ⟨i, hi, hreach⟩, hfind⟩, ht⟩
    exact ⟨i, hi, id, hreach, q, hfind, ht⟩
  · rintro ⟨i, hi, id, hreach, q, hfind, ht⟩
    exact ⟨q, ⟨id, ⟨i, hi, hreach⟩, hfind⟩, ht⟩

/-- What is reported below a part of a plan is reported below the plan, and below a reference
to it. -/
theorem tables_subset_of_expose {as ys : List String} (hy : lookup.expose y = .ok q)
    (hscanned : a.scanned ⊆ q.scanned) (hgroups : a.groups ⊆ q.groups)
    (has : a.tables lookup = .ok as) (hys : y.tables lookup = .ok ys) : as ⊆ ys := by
  intro t ht
  rw [mem_tables_iff has] at ht
  have hsame : y = q → t ∈ ys := by
    rintro rfl
    exact (mem_tables_iff hys).mpr
      (ht.imp (hscanned ·) fun ⟨g, hg, hbelow⟩ => ⟨g, hgroups hg, hbelow⟩)
  cases y with
  | scan op => exact hsame (Except.ok.inj hy)
  | unary op x => exact hsame (Except.ok.inj hy)
  | join j x y => exact hsame (Except.ok.inj hy)
  | group i =>
    have hfind : lookup.find i = some q := Lookup.get_eq_ok_iff.mp hy
    rw [mem_tables_iff hys]
    refine .inr ⟨i, List.mem_singleton_self i, ?_⟩
    rcases ht with ht | ⟨g, hg, id, hreach, hid⟩
    · exact ⟨i, .refl, q, hfind, hscanned ht⟩
    · have hlink : Links lookup.links i g := by
        rw [Links, Lookup.links_of_find hfind, List.mem_reverse]
        exact hgroups hg
      exact ⟨id, .head hlink hreach, hid⟩

theorem tables_subset_of_left {as ys : List String} (hy : lookup.expose y = .ok (.join j a b))
    (has : a.tables lookup = .ok as) (hys : y.tables lookup = .ok ys) : as ⊆ ys :=
  tables_subset_of_expose hy (List.subset_append_left _ _) (List.subset_append_left _ _) has hys

theorem tables_subset_of_right {bs ys : List String} (hy : lookup.expose y = .ok (.join j a b))
    (hbs : b.tables lookup = .ok bs) (hys : y.tables lookup = .ok ys) : bs ⊆ ys :=
  tables_subset_of_expose hy (List.subset_append_right _ _) (List.subset_append_right _ _) hbs hys

end Plan

end PlanOptimizer
