import PlanOptimizer.Proofs.Fixpoint.Regime

/-!
# Standard runs are consistent

With the standard rules and a cost model that does not fail, no consistency check of a run
fails: the run ends with a plan, or with the fault of a spent budget
(`Optimizer.optimize_consistent`).

All memos of the run are graded.  So no rule fails, every offer is taken, and no group leads to
itself.
-/

namespace PlanOptimizer

open Edit

variable {o : Optimizer} {m m' : Memo} {id : GroupId}

/-! ## Graded memos in a run -/

/-- A reachable memo in which every group admits its candidates. -/
structure Memo.Sorted (m : Memo) : Prop where
  reachable : m.Reachable
  graded : ∃ G, m.Graded G

namespace Memo

theorem Sorted.of_candidates (h : m.Sorted) (hm' : m'.Reachable)
    (hcand : ∀ {j c}, m'.Candidate j c → m.Candidate j c) : m'.Sorted := by
  obtain ⟨G, hG⟩ := h.graded
  exact ⟨hm', G, fun hc => hG (hcand hc)⟩

theorem sorted_of_insert {p : Plan} {r : Except Fault GroupId}
    (hrun : (Memo.insert p).runOn .empty = (r, m)) : m.Sorted := by
  have hm : m.Reachable := Memo.Reachable.empty.of_insert hrun
  obtain ⟨G, -, hG⟩ := Graded.grows (graded_empty ⟨fun _ => none, fun _ => 0, fun _ => 0⟩)
    valid_empty (grows_of_insert valid_empty hrun)
  exact ⟨hm, G, hG⟩

end Memo

namespace Optimizer

/-- Grading carries through a run of standard rules. -/
theorem regime_sorted (hrules : ∀ rule ∈ o.rules, rule ∈ Rule.standard) (htotal : o.model.Total) :
    Regime o Memo.Sorted fun _ _ _ => True where
  standard := hrules
  reachable h := h.reachable
  refl _ := trivial
  trans _ _ := trivial
  note {m id} key h hid := by
    obtain ⟨g, hg⟩ := Memo.lt_size_iff.mp hid
    refine ⟨h.of_candidates (h.reachable.explore hg key) ?_, trivial⟩
    exact (Memo.candidate_edit_iff (f := (·.explore key)) fun _ => rfl).mp
  rerank {m id} h hid := by
    obtain ⟨moved, m', hrun, hranking⟩ := Memo.rerank_ok htotal h.reachable hid
    exact ⟨moved, m', hrun, h.of_candidates (h.reachable.of_rerank hrun)
      hranking.candidate_iff.mp, trivial⟩
  offer {m₀ m id s x} h₀ h hext hs hx _ := by
    have hv₀ := h₀.reachable.valid
    have hcand := Memo.candidate_of_rep? hs
    have hid : id < m.size := hext.size_le (Memo.lt_of_candidate hcand)
    obtain ⟨G, hG⟩ := h.graded
    rcases hG.offer_ok h.reachable htotal hid
      (fun i hi => hext.size_le (hx.live hv₀ (hv₀.live_rep hs) i hi))
      (fun hgrows hv₁ hG₁ ht => hx.admits hcand (hext.trans hgrows.extends) hv₁ hG₁ ht) with
      hrun | ⟨t, m₁, outcome, m', -, hgrows, ht, hrun, hplacement⟩
    · exact ⟨_, m, hrun, h, trivial⟩
    · obtain ⟨G₁, -, hG₁⟩ := hG.grows h.reachable.valid hgrows
      have hadmits := hx.admits hcand (hext.trans hgrows.extends)
        (hgrows.valid h.reachable.valid) hG₁ ht
      refine ⟨outcome, m', hrun, ⟨h.reachable.of_offer hrun, G₁, ?_⟩, trivial⟩
      exact hG₁.of_candidates hadmits hplacement.candidates

/-! ## The result -/

theorem rules_eq_standard (h : o.registry = .standard) : o.rules = Rule.standard := by
  unfold rules
  rw [h]
  cases o.limits.source with
  | none => rfl
  | some source => exact List.append_nil _

theorem rules_standard (h : o.registry = .standard) : ∀ rule ∈ o.rules, rule ∈ Rule.standard :=
  fun _ hrule => rules_eq_standard h ▸ hrule

/-- With the standard rules and a cost model that does not fail, such as the standard one, a plan
without references is optimized, or a budget is spent. -/
theorem optimize_consistent {p : Plan} (hregistry : o.registry = .standard)
    (hmodel : o.model.Total ∨ ∃ e : Estimator Float, o.model = e.costModel)
    (hp : p.hasGroups = false) :
    (∃ r, o.optimize p = .ok r) ∨ (∃ n q, o.optimize p = .error (.notConverged n q)) ∨
      ∃ n q, o.optimize p = .error (.tooManyGroups n q) := by
  have htotal : o.model.Total := by
    rcases hmodel with htotal | ⟨e, he⟩
    · exact htotal
    · rw [he]
      exact e.total_costModel
  have hregime := regime_sorted (rules_standard hregistry) htotal
  have hrun := hregime.meets_optimizeInto (p := p) hp fun hinsert => Memo.sorted_of_insert hinsert
  unfold optimize
  rcases hrun.run with ⟨⟨root, c, best⟩, m, hrun, -⟩ | ⟨f, m, hrun, hf⟩
  · rw [hrun]
    exact .inl ⟨_, rfl⟩
  · rw [hrun]
    rcases hf with ⟨-, -, n, q, rfl⟩ | ⟨-, n, q, rfl⟩
    · exact .inr (.inr ⟨n, q, rfl⟩)
    · exact .inr (.inl ⟨n, q, rfl⟩)

section Filtered

private def standing : Optimizer := ⟨.standard, Estimator.standard.costModel, .empty, {}⟩

private def filteredJoin : Plan :=
  .filter (.col "a" "x")
    (.join ⟨.cross, .always⟩ (.scanAll "s" "a") (.scanAll "s" "b"))

/-- A filter over a join is optimized, or a budget is spent. -/
theorem optimize_consistent_of_filter :
    standing.registry = .standard ∧
      (standing.model.Total ∨ ∃ e : Estimator Float, standing.model = e.costModel) ∧
      filteredJoin.hasGroups = false ∧
      ((∃ r, standing.optimize filteredJoin = .ok r) ∨
        (∃ n q, standing.optimize filteredJoin = .error (.notConverged n q)) ∨
        ∃ n q, standing.optimize filteredJoin = .error (.tooManyGroups n q)) :=
  have hmodel : standing.model.Total ∨ ∃ e : Estimator Float, standing.model = e.costModel :=
    .inr ⟨.standard, rfl⟩
  ⟨rfl, hmodel, rfl, optimize_consistent rfl hmodel rfl⟩

end Filtered

end Optimizer

end PlanOptimizer
