import PlanOptimizer.Proofs.Fixpoint.Settled
import PlanOptimizer.Proofs.Memo.Notes

/-!
# What notes stand for

The note that a group has been explored for a rule is made before the rule is tried, and a turn
at or below the group wipes it.  So what is true of the group when all offers of the rule have
been made, and is told by what is below the group, is true of it for as long as it has the note.

`Optimizer.Certified` says what is to be shown of a fact for that, one field for each way in
which a rule can be tried.  Then a run keeps all notes true (`Optimizer.vouched_optimizeIn`), and
as all active rules have left a note on all groups below the root when the run has ended, the
fact holds of all of them (`Optimizer.certified_of_optimize`).
-/

namespace PlanOptimizer

open Relation

namespace Optimizer

open Edit

variable {o : Optimizer} {root id : GroupId} {pass : Nat} {rule : Rule} {m m' : Memo}
  {Fact : Memo → GroupId → Prop}

/-- While offers are made, notes certify that nothing changes. -/
theorem certifies_offerAll {xs : List Offer} :
    ∀ {m changed}, m.Reachable → (o.offerAll id xs).runOn m = (.ok changed, m') →
      m.Certifies m' := by
  induction xs with
  | nil =>
    intro m changed _ h
    cases h
    exact .refl _
  | cons x xs ih =>
    intro m changed hm h
    obtain ⟨outcome, rest, m₁, hoffer, hrest, -⟩ := offerAll_cons_ok h
    obtain ⟨r, m₂, hrun, hoffering⟩ := Memo.offer_cases hm.valid o.model id x
    have hm₁ := hm.of_offer hoffer
    rw [hrun] at hoffer
    cases hoffer
    exact ((hoffering.changes hm.valid).certifies hm.valid).trans (ih hm₁ hrest)

/-- A fact about groups that the notes for a rule stand for. -/
structure Certified (o : Optimizer) (rule : Rule) (Fact : Memo → GroupId → Prop) : Prop where
  /-- It holds on while nothing below the group changes. -/
  mono : ∀ {m m' : Memo} {id : GroupId}, m.Reachable → m'.Reachable → m.Extends m' →
    m.SameBelow m' id → Fact m id → Fact m' id
  /-- It holds if the rule does not apply to the representative. -/
  skipped : ∀ {m : Memo} {id : GroupId} {g : Group}, m.Reachable → m.groups[id]? = some g →
    rule.applies m.lookup g.shape.overGroups = .ok false → Fact m id
  /-- It holds if the note is still there when all that the rule offers has been offered. -/
  tried : ∀ {m m' : Memo} {id : GroupId} {g : Group} {pass : Nat} {offers : List Offer}
      {changed : Bool}, m.Reachable → m'.Reachable → m.groups[id]? = some g →
    rule.apply ⟨o.catalog, o.model, id, pass⟩ m.lookup g.shape.overGroups = .ok offers →
    (o.offerAll id offers).runOn (m.edit id (·.explore rule.key)) = (.ok changed, m') →
    m.SameBelow m' id → m'.Noted id rule.key → Fact m' id

/-- A fact holds of every group that has a note for the rule. -/
def Vouched (rule : Rule) (Fact : Memo → GroupId → Prop) (m : Memo) : Prop :=
  ∀ id, m.Noted id rule.key → Fact m id

section Runs

variable (hfact : o.Certified rule Fact)

include hfact

/-- Notes stay true in a later memo whose notes certify that nothing has changed. -/
theorem Vouched.mono (h : Vouched rule Fact m) (hm : m.Reachable) (hm' : m'.Reachable)
    (hext : m.Extends m') (hcert : m.Certifies m') : Vouched rule Fact m' := by
  intro id hnoted
  obtain ⟨hbefore, hsame⟩ := hcert id rule.key hnoted
  exact hfact.mono hm hm' hext hsame (h id hbefore)

theorem vouched_rerank {moved : Bool} (hm : m.Reachable) (h : Vouched rule Fact m)
    (hrun : (Memo.rerank o.model id).runOn m = (.ok moved, m')) : Vouched rule Fact m' := by
  have hm' := hm.of_rerank hrun
  obtain ⟨r, m₁, hrun', hranking⟩ := Memo.rerank_cases o.model id m
  rw [hrun'] at hrun
  cases hrun
  exact h.mono hfact hm hm' hranking.changes.moves.extends (hranking.changes.certifies hm.valid)

variable (hkeys : (o.rules.map Rule.key).Nodup) (hrule : rule ∈ o.rules)

include hkeys hrule

/-- A note is made when a rule is tried, and it is true if it is still there when all that the
rule offers has been offered. -/
theorem vouched_tryRule {rule' : Rule} {t : Tally} (hrule' : rule' ∈ o.rules) (hm : m.Reachable)
    (h : Vouched rule Fact m) (hrun : (o.tryRule root pass id rule').runOn m = (.ok t, m')) :
    Vouched rule Fact m' := by
  have hm' := (o.scripted_tryRule root pass id rule').reachable_of_run hm hrun
  have hext := (o.scripted_tryRule root pass id rule').extends_of_run hm hrun
  have hnote : ∀ j, m.SameBelow (m.edit id (·.explore rule'.key)) j := fun _ k _ =>
    m.rep?_explore id k rule'.key
  have hsame : rule.key = rule'.key → rule = rule' := List.inj_on_of_nodup_map hkeys hrule hrule'
  cases tryRule_ok hrun with
  | seen => exact h
  | @skipped g hat _ hunfit =>
    intro j hnoted
    rcases Memo.noted_explore hnoted with hbefore | ⟨rfl, hkey⟩
    · exact hfact.mono hm hm' hext (hnote j) (h j hbefore)
    · cases hsame hkey
      exact hfact.mono hm hm' hext (hnote j) (hfact.skipped hm hat hunfit)
  | @tried g offers changed _ hat _ _ hanswer hoffers =>
    intro j hnoted
    obtain ⟨hmid, hkept⟩ :=
      certifies_offerAll (hm.explore hat rule'.key) hoffers j rule.key hnoted
    have hbelow : m.SameBelow m' j := (hnote j).trans hkept
    rcases Memo.noted_explore hmid with hbefore | ⟨rfl, hkey⟩
    · exact hfact.mono hm hm' hext hbelow (h j hbefore)
    · cases hsame hkey
      exact hfact.tried hm hm' hat hanswer hoffers hbelow hnoted

theorem vouched_tryRules {rules : List Rule} :
    ∀ {m t}, (∀ rule' ∈ rules, rule' ∈ o.rules) → m.Reachable → Vouched rule Fact m →
      (o.tryRules root pass id rules).runOn m = (.ok t, m') → Vouched rule Fact m' := by
  induction rules with
  | nil =>
    intro m t _ _ h hrun
    cases hrun
    exact h
  | cons rule' rules ih =>
    intro m t hrules hm h hrun
    obtain ⟨first, rest, m₁, hfirst, hrest, -⟩ := tryRules_cons_ok hrun
    have hm₁ := (o.scripted_tryRule root pass id rule').reachable_of_run hm hfirst
    exact ih (fun r hr => hrules r (List.mem_cons_of_mem _ hr)) hm₁
      (vouched_tryRule hfact hkeys hrule (hrules rule' List.mem_cons_self) hm h hfirst) hrest

theorem vouched_explore {t : Tally} (hm : m.Reachable) (h : Vouched rule Fact m)
    (hrun : (o.explore root pass id).runOn m = (.ok t, m')) : Vouched rule Fact m' := by
  obtain ⟨moved, tally, m₁, hrank, hrules, -⟩ := explore_ok hrun
  have hm₁ := hm.of_rerank hrank
  exact vouched_tryRules hfact hkeys hrule (fun _ hr => hr) hm₁ (vouched_rerank hfact hm h hrank)
    hrules

theorem vouched_walk {budget : Nat} :
    ∀ {visited pending : List GroupId} {m t}, m.Reachable → Vouched rule Fact m →
      (o.walk root pass budget visited pending).runOn m = (.ok t, m') → Vouched rule Fact m' := by
  induction budget with
  | zero =>
    intro visited pending m t _ h hrun
    rcases walk_ok hrun with ⟨-, -, rfl⟩ | ⟨_, _, _, _, _, _, _, -, hbudget, -⟩
    · exact h
    · cases hbudget
  | succ budget ih =>
    intro visited pending m t hm h hrun
    rcases walk_ok hrun with ⟨-, -, rfl⟩ |
      ⟨id, rest, budget', here, below, s, m₁, -, hbudget, hexplore, -, hwalk, -⟩
    · exact h
    · cases hbudget
      have hm₁ := (o.scripted_explore root pass id).reachable_of_run hm hexplore
      exact ih hm₁ (vouched_explore hfact hkeys hrule hm h hexplore) hwalk

theorem vouched_optimizeIn {c : Convergence} (hm : m.Reachable) (h : Vouched rule Fact m)
    (hrun : (o.optimizeIn root).runOn m = (.ok c, m')) : Vouched rule Fact m' := by
  obtain ⟨-, hpasses⟩ := optimizeIn_ok hrun
  have hpass : ∀ {pass m t m'}, m.Reachable ∧ Vouched rule Fact m →
      (o.runPass root pass).runOn m = (.ok t, m') → m'.Reachable ∧ Vouched rule Fact m' := by
    rintro pass m t m' ⟨hm, h⟩ hrun
    have hm' := (o.scripted_runPass root pass).reachable_of_run hm hrun
    exact ⟨hm', vouched_walk hfact hkeys hrule hm h hrun⟩
  obtain ⟨pass, m₁, t, hm₁, hlast, -⟩ := runPasses_ok hpass ⟨hm, h⟩ hpasses
  exact (hpass hm₁ hlast).2

/-- What the notes for an active rule stand for is true of all groups below the root of a run
that has ended. -/
theorem certified_of_optimize {p : Plan} {r : Optimized} (h : o.optimize p = .ok r)
    (hbelow : Reaches r.memo.children r.root id) : Fact r.memo id := by
  obtain ⟨m₁, hinsert, hrun, -⟩ := optimizeInto_ok (optimize_ok h)
  have hm₁ := Memo.Reachable.empty.of_insert hinsert
  have hgrows := Memo.grows_of_insert Memo.valid_empty hinsert
  -- there are no notes before the first pass
  have hstart : Vouched rule Fact m₁ := fun j hnoted =>
    absurd (hgrows.rests.certifies Memo.valid_empty j _ hnoted).1 Memo.not_noted_empty
  obtain ⟨g, hg, -, hexplored⟩ := settled_of_optimizeIn hm₁ hrun id hbelow
  exact vouched_optimizeIn hfact hkeys hrule hm₁ hstart hrun id ⟨g, hg, hexplored rule hrule⟩

end Runs

end Optimizer

end PlanOptimizer
