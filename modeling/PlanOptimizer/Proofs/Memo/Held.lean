import PlanOptimizer.Proofs.Memo.Faults

/-!
# Offers of held candidates

A group may be offered one of its own candidates.  The candidate is found in the group, so
none is added and the memo stays as it is.  But the offer is vetted before the candidate is
looked for, and vetting asks for the representatives of other groups.  These may have moved
since the candidate came in: it may lead back to its group now, or have another width.  Then
the offer is refused, and otherwise it is a duplicate (`Memo.Reachable.offer_of_candidate`).
-/

namespace PlanOptimizer

open Relation

namespace Memo

variable {m : Memo} {id : GroupId} {c : Shape}

/-- A shape over groups that exist comes down to itself. -/
theorem over?_map_group (hlive : ∀ i ∈ c.inputs, i < m.size) :
    m.over? (c.map Plan.group) = some c := by
  have hfind : ∀ i ∈ c.inputs, m.find? (.group i) = some i := fun i hi =>
    find?_group_iff.mpr ⟨hlive i hi, rfl⟩
  cases c with
  | scan op => rfl
  | unary op a => exact over?_unary_iff.mpr ⟨a, hfind a (by simp [Node.inputs]), rfl⟩
  | join j a b =>
    exact over?_join_iff.mpr
      ⟨a, b, hfind a (by simp [Node.inputs]), hfind b (by simp [Node.inputs]), rfl⟩

theorem runOn_offered_of_live (hlive : ∀ i ∈ c.inputs, i < m.size) (id : GroupId) :
    (offered id c.overGroups).runOn m = (.ok (some c), m) := by
  have hinputs := runOn_insertInputs_of_over? (over?_map_group hlive)
  have hrun : (some <$> insertInputs (c.map Plan.group)).runOn m = (.ok (some c), m) := by
    rw [Edit.runOn_map, hinputs]
    rfl
  cases c with
  | scan op => exact hrun
  | unary op a => exact hrun
  | join j a b => exact hrun

/-- A candidate that is placed again as an alternative is a duplicate. -/
theorem runOn_place_of_candidate (hc : m.Candidate id c) (model : CostModel) :
    (place model id c false).runOn m = (.ok .duplicate, m) := by
  obtain ⟨g, hg, hmem⟩ := hc
  obtain ⟨pos, hpos⟩ := Option.isSome_iff_exists.mp (Group.holds_iff.mpr ⟨c, hmem, rfl⟩)
  unfold place
  rw [Edit.runOn_get_bind, Edit.runOn_ask_bind, group_eq_ok_iff.mpr hg]
  dsimp only
  rw [hpos]
  rfl

/-- An offer of a held candidate is answered by the checks alone. -/
theorem Valid.runOn_offer_of_candidate (hv : m.Valid) (hc : m.Candidate id c) (model : CostModel) :
    (offer model id (.alternative c.overGroups)).runOn m =
      ((m.vet id c).map fun _ => .duplicate, m) := by
  have hoffered := runOn_offered_of_live (hv.live hc) id
  have hplace := runOn_place_of_candidate hc model
  obtain ⟨g, hg, -⟩ := hc
  unfold offer
  rw [Edit.runOn_ask_bind, group_eq_ok_iff.mpr hg]
  dsimp only [Offer.plan]
  rw [Edit.runOn_bind_of_ok hoffered]
  dsimp only
  rw [Edit.runOn_ask_bind]
  cases hvet : m.vet id c with
  | error f => rfl
  | ok _ => exact hplace

/-- An offer of a candidate that the group holds changes nothing.  It is a duplicate exactly when
the candidate does not lead back to the group through representatives, and has the width of the
representative where both widths are known.  The representative itself always is. -/
theorem Reachable.offer_of_candidate (hm : m.Reachable) (hc : m.Candidate id c)
    (model : CostModel) :
    let run := (offer model id (.alternative c.overGroups)).runOn m
    run.2 = m ∧
      (run.1 = .ok .duplicate ↔
        (¬ ∃ i ∈ c.inputs, Reaches m.children i id) ∧
          ∀ r, m.rep? id = some r → m.WidthsAgree r c) ∧
      (m.rep? id = some c → run.1 = .ok .duplicate) := by
  have hv := hm.valid
  have hlive := hv.live hc
  have hanswer : ((offer model id (.alternative c.overGroups)).runOn m).1 = .ok .duplicate ↔
      (¬ ∃ i ∈ c.inputs, Reaches m.children i id) ∧
        ∀ r, m.rep? id = some r → m.WidthsAgree r c := by
    rw [hv.runOn_offer_of_candidate hc, map_eq_ok, ← hv.leadsTo_iff hlive, Bool.not_eq_true,
      ← hv.vet_ok_iff (lt_of_candidate hc) hlive]
    exact ⟨fun ⟨_, hvet, _⟩ => hvet, fun hvet => ⟨(), hvet, rfl⟩⟩
  refine ⟨?_, hanswer, fun hrep => hanswer.mpr ⟨?_, fun r hr => ?_⟩⟩
  · rw [hv.runOn_offer_of_candidate hc]
  · rintro ⟨i, hi, hreach⟩
    exact not_reaches_of_links hv.acyclic ((links_of_rep hrep).mpr hi) hreach
  · obtain rfl : c = r := Option.some.inj (hrep.symm.trans hr)
    exact .refl m c

section Circling

private def circling : Edit Outcome := do
  let _ ← (Call.insert (.limit 0 5 (.scanAll "s" "t"))).edit .indifferent
  let _ ← (Call.insert (.limit 0 7 (.group 0))).edit .indifferent
  let _ ← (Call.offer 1 (.alternative (.limit 0 9 (.group 2)))).edit .indifferent
  (Call.offer 2 (.replacement (.limit 0 8 (.group 1)))).edit .indifferent

private def circled : Memo :=
  (circling.runOn .empty).2

private theorem reachable_circled : circled.Reachable := by
  have hscript : circling.Scripted :=
    .bind (.call _ _) fun _ => .bind (.call _ _) fun _ => .bind (.call _ _) fun _ => .call _ _
  exact hscript.reachable .empty

private theorem candidate_circled :
    circled.Candidate 1 (.unary (.limit 0 9) 2) ∧ circled.Candidate 2 (.unary (.limit 0 7) 0) := by
  have hcandidates : circled.groups.map Group.candidates =
      [[.scan ⟨⟨"s", "t"⟩, [], none⟩], [.unary (.limit 0 5) 0, .unary (.limit 0 9) 2],
        [.unary (.limit 0 7) 0, .unary (.limit 0 8) 1]] := by
    decide +kernel
  have hheld : ∀ id {c cs}, (circled.groups.map Group.candidates)[id]? = some cs → c ∈ cs →
      circled.Candidate id c := by
    intro id c cs hcs hmem
    rw [List.getElem?_map, Option.map_eq_some_iff] at hcs
    obtain ⟨g, hg, rfl⟩ := hcs
    exact ⟨g, hg, hmem⟩
  rw [hcandidates] at hheld
  exact ⟨hheld 1 rfl (by decide), hheld 2 rfl (by decide)⟩

/-- A candidate that has retired is a duplicate. -/
theorem offer_of_retired_candidate :
    circled.Reachable ∧ circled.Candidate 2 (.unary (.limit 0 7) 0) ∧
      (circled.groups[2]?).map Group.retired = some [0] ∧
      (offer .indifferent 2 (.alternative (.limit 0 7 (.group 0)))).runOn circled =
        (.ok .duplicate, circled) := by
  have h := reachable_circled
  have hc := candidate_circled.2
  obtain ⟨hsame, hanswer, -⟩ := h.offer_of_candidate hc .indifferent
  have hrun := hanswer.mpr <| by
    rw [← h.valid.leadsTo_iff (h.valid.live hc)]
    refine ⟨by decide +kernel, fun r hr e a he _ => ?_⟩
    cases (show circled.rep? 2 = some (.unary (.limit 0 8) 1) by decide +kernel).symm.trans hr
    cases (show (Plan.limit 0 8 (.group 1)).width circled.lookup = .ok none by
      decide +kernel).symm.trans he
  exact ⟨h, hc, by decide +kernel, Prod.ext hrun hsame⟩

/-- A candidate that leads back to its group by now is refused. -/
theorem not_duplicate_of_candidate :
    ¬ ∀ (m : Memo) (id : GroupId) (c : Shape) (model : CostModel), m.Reachable → m.Candidate id c →
      (offer model id (.alternative c.overGroups)).runOn m = (.ok .duplicate, m) := by
  intro hall
  have hrun := hall circled 1 _ .indifferent reachable_circled candidate_circled.1
  have hrefused : ((offer .indifferent 1 (.alternative (.limit 0 9 (.group 2)))).runOn circled).1 =
      .error (.selfReference 1) := by
    decide +kernel
  cases (congrArg Prod.fst hrun).symm.trans hrefused

end Circling

end Memo

end PlanOptimizer
