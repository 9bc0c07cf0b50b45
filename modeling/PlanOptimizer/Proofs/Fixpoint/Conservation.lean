import PlanOptimizer.Proofs.Fixpoint.Consistent
import PlanOptimizer.Proofs.Fixpoint.Soundness
import PlanOptimizer.Proofs.Memo.Widths
import PlanOptimizer.Proofs.Rules.Items

/-!
# Standard runs lose nothing and double nothing

A meaning is *conserved* if every rewrite has the meaning of the shape that it is made for.  Then
each group has one meaning throughout a run of standard rules, and the plan that the run comes to
means what the input means, whether it is the optimized plan or the best one when a budget was
spent (`Optimizer.found_of_conserved`).

The items of a plan are conserved, and so is its width.  So no table, no operator but for filters
and no join gets lost or comes in twice (`Optimizer.optimize_conserves`).
-/

namespace PlanOptimizer

open Edit

universe u

variable {V : Type u} {M : Meaning V} {o : Optimizer} {m : Memo} {root : GroupId} {v : V} {p : Plan}

/-- Every rewrite means what the shape means that it is made for, whenever the representative of
each group means what is assigned to the group. -/
def Meaning.Conserved (M : Meaning V) : Prop :=
  ∀ {m : Memo} {s : Shape} {x : Offer} {D : GroupId → V}, Rewrite m s x →
    (∀ id t, m.rep? id = some t → M.shape D t = D id) → M.value D x.plan = M.shape D s

theorem Meaning.conserved_items : Meaning.items.Conserved := Rewrite.items

theorem Meaning.conserved_columns : Meaning.columns.Conserved := Rewrite.columns

namespace Optimizer

/-! ## Meanings in a run -/

/-- A memo in the middle of a run of standard rules. -/
structure Staged (M : Meaning V) (root : GroupId) (v : V) (m : Memo) : Prop where
  sorted : m.Sorted
  stage : ∃ D, Stage M root v m D

/-- The root resolves to a plan with the meaning of the input. -/
theorem Staged.best (h : Staged M root v m) :
    ∃ q, m.best? root = .ok q ∧ q.hasGroups = false ∧ ∀ E, M.value E q = v := by
  obtain ⟨D, hstage⟩ := h.stage
  obtain ⟨q, hq, hclosed⟩ := hstage.reachable.valid.resolve_ok hstage.live
  exact ⟨q, hq, hclosed, hstage.value_best hq⟩

/-- A conserved meaning carries through a run of standard rules. -/
theorem regime_staged (hM : M.Conserved) (hrules : ∀ rule ∈ o.rules, rule ∈ Rule.standard)
    (htotal : o.model.Total) : Regime o (Staged M root v) fun _ _ _ => True where
  standard := hrules
  reachable h := h.sorted.reachable
  refl _ := trivial
  trans _ _ := trivial
  note {m id} key h hid := by
    obtain ⟨D, hstage⟩ := h.stage
    obtain ⟨hsorted, -⟩ := (regime_sorted hrules htotal).note key h.sorted hid
    obtain ⟨g, hg⟩ := Memo.lt_size_iff.mp hid
    obtain ⟨E, -, hend⟩ := sustains_markExplored hstage id key
    rw [Memo.runOn_markExplored_of_group hg] at hend
    exact ⟨⟨hsorted, E, hend⟩, trivial⟩
  rerank {m id} h hid := by
    obtain ⟨D, hstage⟩ := h.stage
    obtain ⟨moved, m', hrun, hsorted, -⟩ := (regime_sorted hrules htotal).rerank h.sorted hid
    obtain ⟨E, -, hend⟩ := sustains_rerank (o := o) hstage id
    rw [hrun] at hend
    exact ⟨moved, m', hrun, ⟨hsorted, E, hend⟩, trivial⟩
  offer {m₀ m id s x} h₀ h hext hs hx hforced := by
    obtain ⟨D, hstage⟩ := h.stage
    obtain ⟨outcome, m', hrun, hsorted, -⟩ :=
      (regime_sorted hrules htotal).offer h₀.sorted h.sorted hext hs hx hforced
    have hid : id < m.size := hext.size_le (Memo.lt_of_candidate (Memo.candidate_of_rep? hs))
    have hmean : ∀ E, (∀ i < m.size, E i = D i) → M.value E x.plan = D id := fun E hE => by
      have hmodels : M.Models E m := hstage.models.congr hstage.reachable.valid hE
      have hreps : ∀ i t, m₀.rep? i = some t → M.shape E t = E i := fun i t ht =>
        hmodels.of_extends hext i t (Memo.candidate_of_rep? ht)
      rw [hM hx hreps, hreps id s hs, hE id hid]
    obtain ⟨E, -, hend⟩ := sustains_offer (o := o) hstage hid hmean
    rw [hrun] at hend
    exact ⟨outcome, m', hrun, ⟨hsorted, E, hend⟩, trivial⟩

/-! ## The plan that a run comes to -/

/-- The plan that a run comes to: the optimized one, or the best one when a budget was spent. -/
def found? (o : Optimizer) (p : Plan) : Option Plan :=
  match o.optimize p with
  | .ok r => some r.plan
  | .error f => f.best?

/-- What is found is the plan of the root in the last memo of the run. -/
theorem found_of_meets {Inv : Memo → Prop}
    (h : (o.optimizeInto p).Meets .empty
      (fun r m' => r.1 = root ∧ Inv m' ∧ m'.best? root = .ok r.2.2)
      fun f m' => Inv m' ∧ Carries root f m') :
    ∃ q m', o.found? p = some q ∧ Inv m' ∧ m'.best? root = .ok q := by
  unfold found? optimize
  rcases h.run with ⟨⟨root', c, q⟩, m', hrun, rfl, hend, hq⟩ | ⟨f, m', hrun, hend, q, hbest, hq⟩
  · rw [hrun]
    exact ⟨q, m', rfl, hend, hq⟩
  · rw [hrun]
    exact ⟨q, m', hbest, hend, hq⟩

/-- With the standard rules and a cost model that does not fail, a plan without references is
optimized, or a budget is spent.  Either way there is a plan to go on with, and it means what the
input means, if the meaning is conserved. -/
theorem found_of_conserved (hM : M.Conserved) (hregistry : o.registry = .standard)
    (htotal : o.model.Total) (hp : p.hasGroups = false) :
    ∃ q, o.found? p = some q ∧ q.hasGroups = false ∧ ∀ E, M.value E q = M.value E p := by
  -- no group exists yet, so any assignment will do to start with
  let D₀ : GroupId → V := fun _ => M.scan ⟨⟨"", ""⟩, [], none⟩
  have hinput : ∀ E, M.value D₀ p = M.value E p := Meaning.value_of_hasGroups hp D₀
  obtain ⟨root, m, hinsert, -⟩ := Memo.insert_ok_of_closed hp
  obtain ⟨D, hstage⟩ := stage_of_insert (M := M) hp D₀ hinsert
  have hm : Staged M root (M.value D₀ p) m := ⟨Memo.sorted_of_insert hinsert, D, hstage⟩
  have hregime : Regime o (Staged M root (M.value D₀ p)) fun _ _ _ => True :=
    regime_staged hM (rules_standard hregistry) htotal
  obtain ⟨q, m', hfound, hend, hq⟩ :=
    found_of_meets (hregime.meets_optimizeInto_best hinsert hm hstage.live)
  obtain ⟨q', hq', hclosed, hmean⟩ := hend.best
  cases hq.symm.trans hq'
  exact ⟨q, hfound, hclosed, fun E => (hmean E).trans (hinput E)⟩

/-- **Standard runs lose nothing and double nothing.**  With the standard rules and a cost model
that does not fail, a plan without references is optimized, or a budget is spent.  The optimized
plan, or else the best plan so far, has no references.  It has the tables, the operators but for
filters and the joins of the input, each as often as the input has it, and the width of the input,
known or unknown. -/
theorem optimize_conserves (hregistry : o.registry = .standard) (htotal : o.model.Total)
    (hp : p.hasGroups = false) :
    ∃ q, o.found? p = some q ∧ q.hasGroups = false ∧ q.items.Perm p.items ∧
      ∃ w, p.width .empty = .ok w ∧ q.width .empty = .ok w := by
  obtain ⟨q, hq, hclosed, hitems⟩ :=
    found_of_conserved Meaning.conserved_items hregistry htotal hp
  obtain ⟨q', hq', -, hcolumns⟩ :=
    found_of_conserved Meaning.conserved_columns hregistry htotal hp
  cases hq.symm.trans hq'
  refine ⟨q, hq, hclosed, ?_, Meaning.columns.value (fun _ => none) p,
    Memo.width_of_hasGroups hp _, ?_⟩
  · have hsame := hitems fun _ => 0
    rw [Meaning.items_value hclosed, Meaning.items_value hp] at hsame
    exact Multiset.coe_eq_coe.mp hsame
  · rw [Memo.width_of_hasGroups hclosed fun _ => none, hcolumns]

section Spent

private def hasty : Optimizer := ⟨.standard, .indifferent, .empty, { passes := 1 }⟩

private def pairs : Plan :=
  .join ⟨.cross, .always⟩ (.scanOf "s" "t" ["a"]) (.scanOf "s" "u" ["b"])

private def chosen : Plan := .limit 0 5 (.filter (.col "t" "a") (.filter (.col "u" "b") pairs))

private def merged : Plan := .limit 0 5 (.filter (.and [.col "u" "b", .col "t" "a"]) pairs)

/-- The only pass merges two filters, and all else is there as before. -/
theorem conserves_of_spent_budget :
    hasty.registry = .standard ∧ hasty.model.Total ∧ chosen.hasGroups = false ∧
      hasty.found? chosen = some merged ∧ merged.hasGroups = false ∧
      merged.items.Perm chosen.items ∧
      ∃ w, chosen.width .empty = .ok w ∧ merged.width .empty = .ok w := by
  have htotal : hasty.model.Total := fun _ _ _ => ⟨.eq, rfl⟩
  have hfound : hasty.found? chosen = some merged := by decide +kernel
  obtain ⟨q, hq, hconserved⟩ := optimize_conserves (o := hasty) (p := chosen) rfl htotal rfl
  cases hq.symm.trans hfound
  exact ⟨rfl, htotal, rfl, hfound, hconserved⟩

end Spent

end Optimizer

end PlanOptimizer
