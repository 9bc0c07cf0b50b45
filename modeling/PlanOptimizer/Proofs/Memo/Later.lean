import PlanOptimizer.Proofs.Memo.Intact

/-!
# Memos that only grow

A memo that any calls have led to has lost nothing: groups keep their numbers, their candidates
in the order in which they came in and their parents, and the index keeps its entries.  Where a
plan is found does not depend on representatives, so a plan is inserted only once: a second
insertion answers as the first one did, however late it comes, and changes nothing
(`Memo.Reachable.lasting`).
-/

namespace PlanOptimizer

namespace Memo

variable {m : Memo}

/-- A later memo keeps each group with its number, its candidates and its parents, and it keeps
each entry of the index.  A plan that has been inserted is inserted again without any change and
with the same answer. -/
theorem Reachable.lasting (hm : m.Reachable) :
    (∀ m', m.Later m' →
      (∀ (id : GroupId) (g : Group), m.groups[id]? = some g →
        ∃ g', m'.groups[id]? = some g' ∧ g'.id = g.id ∧
          g.candidates <+: g'.candidates ∧ g.parents ⊆ g'.parents) ∧
        ∀ k id, m.index.find? k = some id → m'.index.find? k = some id) ∧
      ∀ p id m₁, (Memo.insert p).runOn m = (.ok id, m₁) →
        ∀ m', m₁.Later m' → (Memo.insert p).runOn m' = (.ok id, m') := by
  constructor
  · intro m' hlater
    have hext := hlater.extends hm
    refine ⟨fun id g hg => ?_, fun k id hk => hext.index hk⟩
    obtain ⟨g', hg', hgrown⟩ := hext.group hg
    have hnumber : g'.id = g.id :=
      ((hlater.reachable hm).tidy hg').numbered.trans (hm.tidy hg).numbered.symm
    exact ⟨g', hg', hnumber, hgrown.candidates, hgrown.parents⟩
  · intro p id m₁ hrun m' hlater
    have hm₁ : m₁.Reachable := hm.of_insert hrun
    have hfind := find?_of_insert hm.valid hrun
    exact runOn_insert_of_find? (find?_mono (hlater.extends hm₁) hfind)

section Overtaken

private def begun : Memo := ((Memo.insert (.limit 0 5 (.scanAll "s" "t"))).runOn .empty).2

private def overtaking : Edit Outcome := do
  let _ ← (Call.offer 1 (.replacement (.limit 0 3 (.group 0)))).edit .indifferent
  let _ ← (Call.insert (.limit 0 3 (.scanAll "s" "t"))).edit .indifferent
  let _ ← (Call.offer 0 (.replacement (.scanAll "s" "u"))).edit .indifferent
  (Call.offer 0 (.alternative (.filter .always (.group 1)))).edit .indifferent

private def overtaken : Memo := (overtaking.runOn begun).2

/-- A limit and the scan below it are replaced, and another offer fails.  The limit is still
inserted where it was. -/
theorem lasting_of_overtaken :
    begun.Reachable ∧ begun.Later overtaken ∧
      (overtaking.runOn begun).1 = .error (.selfReference 0) ∧
      overtaken.groups.map (fun g => (g.candidates.length, g.representative)) =
        [(2, 1), (2, 1)] ∧
      (∀ (id : GroupId) (g : Group), begun.groups[id]? = some g →
        ∃ g', overtaken.groups[id]? = some g' ∧ g'.id = g.id ∧
          g.candidates <+: g'.candidates ∧ g.parents ⊆ g'.parents) ∧
      (Memo.insert (.limit 0 5 (.scanAll "s" "t"))).runOn overtaken = (.ok 1, overtaken) := by
  have hm : begun.Reachable := .call .indifferent (.insert (.limit 0 5 (.scanAll "s" "t"))) .empty
  have hscript : overtaking.Scripted :=
    .bind (.call _ _) fun _ => .bind (.call _ _) fun _ => .bind (.call _ _) fun _ => .call _ _
  have hlater : begun.Later overtaken := hscript.later begun
  obtain ⟨hgroups, hinsert⟩ := hm.lasting
  have hrun : (Memo.insert (.limit 0 5 (.scanAll "s" "t"))).runOn begun = (.ok 1, begun) := by decide +kernel
  exact ⟨hm, hlater, by decide +kernel, by decide +kernel, (hgroups overtaken hlater).1,
    hinsert (.limit 0 5 (.scanAll "s" "t")) 1 begun hrun overtaken hlater⟩

end Overtaken

end Memo

end PlanOptimizer
