import PlanOptimizer.Proofs.Fixpoint.Runs
import PlanOptimizer.Proofs.Fixpoint.Script
import PlanOptimizer.Proofs.Memo.Outcomes

/-!
# What has changed when an exploration says so

A pass that reports a change is followed by another one.  The report is put together from the
answers to the calls that the pass makes, and these are exact (`Memo.Reachable.tells_of_offer`).
So an exploration that reports a change has given its group one more candidate or another
representative: when the group was ranked, or when a plan was offered that some rule had made
(`Optimizer.renews_explore`).
-/

namespace PlanOptimizer

open Edit

namespace Memo

variable {m m' : Memo} {id : GroupId} {model : CostModel}

/-- The group has more candidates, or another one of them is its representative. -/
def Stirs (m : Memo) (id : GroupId) (m' : Memo) : Prop :=
  ∃ g g' : Group, m.groups[id]? = some g ∧ m'.groups[id]? = some g' ∧
    (g.candidates.length < g'.candidates.length ∨ g'.representative ≠ g.representative)

theorem stirs_of_push {g g' : Group} {s : Shape} (hg : m.groups[id]? = some g)
    (hg' : m'.groups[id]? = some g') (hcandidates : g'.candidates = g.candidates ++ [s]) :
    m.Stirs id m' := by
  refine ⟨g, g', hg, hg', .inl ?_⟩
  rw [hcandidates, List.length_append]
  exact Nat.lt_succ_self _

theorem Turned.stirs {s : Shape} (h : m.Turned id s m') : m.Stirs id m' := by
  obtain ⟨before, now, hbefore, hnow, -, hne⟩ := h.representative
  obtain ⟨g, hg, rfl⟩ := rep?_eq_some_iff.mp hbefore
  obtain ⟨g', hg', hcandidates | hcandidates⟩ := h.own hg
  · refine ⟨g, g', hg, hg', .inr fun heq => hne ?_⟩
    obtain rfl : g'.shape = now := shape_eq_of_rep hg' hnow
    have hshape : g'.shape = g.shape := Group.shape_eq_of_getElem? <| by
      rw [hcandidates, heq, g.getElem?_representative]
    rw [hshape]
  · exact stirs_of_push hg hg' hcandidates

/-- An offer that is answered by a change has changed its group. -/
theorem Tells.stirs {o : Offer} {outcome : Outcome} (h : m.Tells id o m' outcome)
    (hchange : outcome.isChange = true) : m.Stirs id m' := by
  cases h with
  | duplicate => cases hchange
  | added known _ gained =>
    obtain ⟨g, hg⟩ := lt_size_iff.mp known
    obtain ⟨g', hg', -, hcandidates⟩ := gained.own hg
    exact stirs_of_push hg hg' hcandidates
  | newRepresentative _ turned => exact turned.stirs

/-- A ranking that is answered by a change has changed its group. -/
theorem Ranking.stirs (h : Ranking model id m (.ok true) m') : m.Stirs id m' := by
  cases h with
  | @moved g s pos hat hpos hne =>
    have hedit := groups_edit_self (groups_edit_self hat Group.settle) (·.promote pos)
    refine ⟨g, _, hat, groups_invalidate_self hedit, .inr ?_⟩
    have hlt : pos < g.settle.candidates.length := (List.getElem?_eq_some_iff.mp hpos).1
    rwa [Group.representative_reopen, Group.representative_promote hlt]

end Memo

namespace Optimizer

/-- A group is changed when a rule is tried on it. -/
inductive Alters (o : Optimizer) (pass : Nat) (id : GroupId) (rule : Rule) (m : Memo) : Prop where
  /-- The rule is applied, and one of its offers changes the group, after the offers before it. -/
  | offer {g : Group} {before after : List Offer} {x : Offer} {changed : Bool} {outcome : Outcome}
      {m₁ m₂ : Memo} (at_id : m.groups[id]? = some g) (fresh : rule.key ∉ g.explored)
      (fit : rule.applies m.lookup g.shape.overGroups = .ok true)
      (answer : rule.apply ⟨o.catalog, o.model, id, pass⟩ m.lookup g.shape.overGroups =
        .ok (before ++ x :: after))
      (offered : (o.offerAll id before).runOn (m.edit id (·.explore rule.key)) = (.ok changed, m₁))
      (run : (Memo.offer o.model id x).runOn m₁ = (.ok outcome, m₂)) (stirs : m₁.Stirs id m₂) :
      Alters o pass id rule m

/-- A group is changed when it is explored. -/
inductive Renews (o : Optimizer) (root : GroupId) (pass : Nat) (id : GroupId) (m : Memo) : Prop where
  /-- It is ranked again, and that changes it. -/
  | rank {m₁ : Memo} (run : (Memo.rerank o.model id).runOn m = (.ok true, m₁))
      (stirs : m.Stirs id m₁) : Renews o root pass id m
  /-- A rule is tried on it, after the rules before it, and that changes it. -/
  | rule {moved : Bool} {before after : List Rule} {rule : Rule} {t : Tally} {m₁ m₂ : Memo}
      (active : o.rules = before ++ rule :: after)
      (ranked : (Memo.rerank o.model id).runOn m = (.ok moved, m₁))
      (tried : (o.tryRules root pass id before).runOn m₁ = (.ok t, m₂))
      (alters : o.Alters pass id rule m₂) : Renews o root pass id m

variable {o : Optimizer} {root id : GroupId} {pass : Nat} {m m' : Memo}

/-- If offers have changed something, then one of them has changed the group. -/
theorem stirs_offerAll {xs : List Offer} : ∀ {m m' : Memo}, m.Reachable →
    (o.offerAll id xs).runOn m = (.ok true, m') →
      ∃ before x after changed m₁ outcome m₂, xs = before ++ x :: after ∧
        (o.offerAll id before).runOn m = (.ok changed, m₁) ∧
        (Memo.offer o.model id x).runOn m₁ = (.ok outcome, m₂) ∧ m₁.Stirs id m₂ := by
  induction xs with
  | nil =>
    intro m m' _ h
    cases h
  | cons x xs ih =>
    intro m m' hm h
    obtain ⟨outcome, rest, m₁, hoffer, hrest, hchanged⟩ := offerAll_cons_ok h
    rcases (Bool.or_eq_true_iff).mp hchanged.symm with hchange | rfl
    · exact ⟨[], x, xs, false, m, outcome, m₁, rfl, rfl, hoffer,
        (hm.tells_of_offer hoffer).stirs hchange⟩
    · have hm₁ := hm.of_offer hoffer
      obtain ⟨before, y, after, changed, m₂, outcome', m₃, rfl, hbefore, hlast⟩ := ih hm₁ hrest
      refine ⟨x :: before, y, after, outcome.isChange || changed, m₂, outcome', m₃, rfl, ?_, hlast⟩
      exact (runOn_bind_of_ok hoffer _).trans (runOn_bind_of_ok hbefore _)

theorem alters_tryRule (hm : m.Reachable) {rule : Rule} {t : Tally}
    (h : (o.tryRule root pass id rule).runOn m = (.ok t, m')) (ht : t.changed = true) :
    o.Alters pass id rule m := by
  cases tryRule_ok h with
  | seen => cases ht
  | skipped => cases ht
  | @tried g offers changed m' hat hfresh hfit hanswer hrun =>
    obtain rfl : changed = true := ht
    obtain ⟨before, x, after, changed, m₁, outcome, m₂, rfl, hbefore, hoffer, hstirs⟩ :=
      stirs_offerAll (hm.explore hat rule.key) hrun
    exact .offer hat hfresh hfit hanswer hbefore hoffer hstirs

/-- If rules have changed something, then one of them has changed the group. -/
theorem alters_tryRules {rules : List Rule} : ∀ {m m' : Memo} {t : Tally}, m.Reachable →
    (o.tryRules root pass id rules).runOn m = (.ok t, m') → t.changed = true →
      ∃ before rule after t₁ m₁, rules = before ++ rule :: after ∧
        (o.tryRules root pass id before).runOn m = (.ok t₁, m₁) ∧ o.Alters pass id rule m₁ := by
  induction rules with
  | nil =>
    intro m m' t _ h ht
    cases h
    cases ht
  | cons rule rules ih =>
    intro m m' t hm h ht
    obtain ⟨first, rest, m₁, hfirst, hrest, rfl⟩ := tryRules_cons_ok h
    rcases Bool.or_eq_true_iff.mp ht with hchanged | hchanged
    · exact ⟨[], rule, rules, {}, m, rfl, rfl, alters_tryRule hm hfirst hchanged⟩
    · have hm₁ := (o.scripted_tryRule root pass id rule).reachable_of_run hm hfirst
      obtain ⟨before, rule', after, t₁, m₂, rfl, hbefore, halters⟩ := ih hm₁ hrest hchanged
      refine ⟨rule :: before, rule', after, first.add t₁, m₂, rfl, ?_, halters⟩
      exact (runOn_bind_of_ok hfirst _).trans (runOn_bind_of_ok hbefore _)

/-- An exploration that reports a change has changed the group. -/
theorem renews_explore (hm : m.Reachable) {t : Tally}
    (h : (o.explore root pass id).runOn m = (.ok t, m')) (ht : t.changed = true) :
    o.Renews root pass id m := by
  obtain ⟨moved, tally, m₁, hrank, hrules, rfl⟩ := explore_ok h
  rcases Bool.or_eq_true_iff.mp ht with rfl | hchanged
  · obtain ⟨r, m₂, hrun, hranking⟩ := Memo.rerank_cases o.model id m
    cases hrun.symm.trans hrank
    exact .rank hrank hranking.stirs
  · have hm₁ := hm.of_rerank hrank
    obtain ⟨before, rule, after, t₁, m₂, hactive, htried, halters⟩ :=
      alters_tryRules hm₁ hrules hchanged
    exact .rule hactive hrank htried halters

end Optimizer

end PlanOptimizer
