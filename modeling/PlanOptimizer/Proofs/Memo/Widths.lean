import PlanOptimizer.Proofs.Memo.Grading

/-!
# Widths of candidates

A shape that comes in beside a representative has the representative's width, if both widths
are known at that moment.  This alone does not give a group one width: a width that is unknown
says nothing, and it may become known when a group below turns.

A call *mixes* widths if it places a shape of known width beside a representative of unknown width,
or the other way round.  Where no call does, each group has one width, known or unknown.  All its
candidates have it, retired ones included.  The plans it resolves to have it too, through all calls
to come that do not mix widths either (`Memo.Reachable.group_widths`).
-/

namespace PlanOptimizer

open Relation

/-- Whether the number of columns of a shape is known. -/
def Memo.knowsWidth (m : Memo) (s : Shape) : Bool :=
  match s.overGroups.width m.lookup with
  | .ok w => w.isSome
  | .error _ => false

/-- Whether an offer that is not refused places no shape of known width beside a representative of
unknown width, and none of unknown width beside one of known width. -/
def Memo.unmixedOffer (m : Memo) (id : GroupId) (o : Offer) : Bool :=
  match (Memo.offered id o.plan).runOn m with
  | (.ok (some s), m₁) =>
    match m₁.vet id s, m₁.rep? id with
    | .ok _, some r => m₁.knowsWidth r == m₁.knowsWidth s
    | _, _ => true
  | _ => true

/-- Whether a call places no shape of known width beside a representative of unknown width, and
none of unknown width beside one of known width.  Only an offer places a shape beside another. -/
def Call.unmixed (m : Memo) : {α : Type} → Call α → Bool
  | _, .insert _ => true
  | _, .offer id o => m.unmixedOffer id o
  | _, .rerank _ => true
  | _, .markExplored _ _ => true

namespace Memo

/-- One call that places no known width beside an unknown one, or the other way round. -/
inductive UnmixedCall (m : Memo) : Memo → Prop where
  | call {α : Type} (model : CostModel) (c : Call α) (unmixed : c.unmixed m = true) :
      UnmixedCall m ((c.edit model).runOn m).2

/-- Any calls, none of which places a known width beside an unknown one, or the other way round. -/
abbrev UnmixedRun : Memo → Memo → Prop := ReflTransGen UnmixedCall

variable {model : CostModel} {m m' m₁ : Memo} {id : GroupId} {o : Offer} {s r : Shape}
variable {C : GroupId → Option Nat}

theorem UnmixedRun.later (h : UnmixedRun m m') : m.Later m' := by
  refine ReflTransGen.mono (fun m₁ m₂ hcall => ?_) _ _ h
  obtain ⟨model, c, -⟩ := hcall
  exact .call model c

theorem UnmixedRun.reachable (h : UnmixedRun m m') (hm : m.Reachable) : m'.Reachable :=
  h.later.reachable hm

theorem UnmixedRun.extends (h : UnmixedRun m m') (hm : m.Reachable) : m.Extends m' :=
  h.later.extends hm

/-! ## Offers -/

theorem Placement.lt_size {forced : Bool} {answer : Except Fault Outcome}
    (h : Placement model id s m forced answer m') : id < m.size := by
  cases h <;> exact lt_size_iff.mpr ⟨_, ‹_›⟩

/-- What an offer that is accepted comes down to agrees with the representative. -/
theorem Offering.widthsAgree {outcome : Outcome} (h : Offering model id o m (.ok outcome) m')
    (hv : m.Valid) (hrun : (offered id o.plan).runOn m = (.ok (some s), m₁))
    (hr : m₁.rep? id = some r) : m₁.WidthsAgree r s := by
  cases h with
  | itself hplan =>
    have hnone : offered id o.plan = pure none := by
      rw [hplan]
      exact if_pos rfl
    rw [hnone, Edit.runOn_pure] at hrun
    cases hrun
  | placed hgrows hs hvet _ hrun' =>
    cases hrun'.symm.trans hrun
    have hv₁ := hgrows.valid hv
    have hid : id < m₁.size := rep?_isSome_iff.mp (Option.isSome_iff_exists.mpr ⟨r, hr⟩)
    exact ((hv₁.vet_ok_iff hid (hv₁.live_normal? hs)).mp hvet).2 r hr

/-- Widths that agree are the same, if both are known or both are unknown. -/
theorem WidthsAgree.eq (h : m.WidthsAgree r s) {e a : Option Nat}
    (he : r.overGroups.width m.lookup = .ok e) (ha : s.overGroups.width m.lookup = .ok a)
    (hunmixed : m.knowsWidth r = m.knowsWidth s) : e = a := by
  unfold knowsWidth at hunmixed
  rw [he, ha] at hunmixed
  cases e with
  | none => exact (Option.not_isSome_iff_eq_none.mp (by simp [← hunmixed])).symm
  | some e =>
    obtain ⟨a, rfl⟩ := Option.isSome_iff_exists.mp hunmixed.symm
    rw [h e a he ha]

theorem knowsWidth_of_unmixed (h : m.unmixedOffer id o = true)
    (hrun : (offered id o.plan).runOn m = (.ok (some s), m₁)) (hvet : m₁.vet id s = .ok ())
    (hr : m₁.rep? id = some r) : m₁.knowsWidth r = m₁.knowsWidth s := by
  unfold unmixedOffer at h
  rw [hrun] at h
  dsimp only at h
  rw [hvet, hr] at h
  exact eq_of_beq h

/-! ## One width for each group -/

/-- An offer that does not mix known and unknown widths keeps the width of each group. -/
theorem Offering.columns {answer : Except Fault Outcome} (h : Offering model id o m answer m')
    (hC : Meaning.columns.Models C m) (hv : m.Valid)
    (hunmixed : m.unmixedOffer id o = true) :
    ∃ E, (∀ i < m.size, E i = C i) ∧ Meaning.columns.Models E m' := by
  cases h with
  | unknown => exact ⟨C, fun _ _ => rfl, hC⟩
  | itself => exact ⟨C, fun _ _ => rfl, hC⟩
  | dangling hgrows => exact hC.grows hv hgrows
  | refused hgrows => exact hC.grows hv hgrows
  | @placed s _ m₁ _ hgrows hs hvet hplacement hrun =>
    obtain ⟨E, hE, hmodels⟩ := hC.grows hv hgrows
    have hv₁ := hgrows.valid hv
    have hid₁ := hplacement.lt_size
    have hlive := hv₁.live_normal? hs
    obtain ⟨r, hr⟩ := rep?_of_lt hid₁
    obtain ⟨e, he⟩ := hv₁.width_ok (hv₁.live_rep hr)
    obtain ⟨a, ha⟩ := hv₁.width_ok hlive
    have hagree := ((hv₁.vet_ok_iff hid₁ hlive).mp hvet).2 r hr
    have hsame : e = a := hagree.eq he ha (knowsWidth_of_unmixed hunmixed hrun hvet hr)
    -- the representative has the width of its group, so the newcomer has it as well
    have hwidth : Meaning.columns.shape E s = E id := by
      rw [← hmodels id r (candidate_of_rep? hr), ← Meaning.value_overGroups s,
        ← Meaning.value_overGroups r, ← hmodels.width_value he, ← hmodels.width_value ha, hsame]
    exact ⟨E, hE, hmodels.of_candidates hwidth fun j c hc => hplacement.candidates hc⟩

/-- A call that does not mix known and unknown widths keeps the width of each group. -/
theorem UnmixedCall.columns (h : UnmixedCall m m') (hC : Meaning.columns.Models C m)
    (hv : m.Valid) : ∃ E, (∀ i < m.size, E i = C i) ∧ Meaning.columns.Models E m' := by
  obtain ⟨model, c, hunmixed⟩ := h
  cases c with
  | insert p =>
    obtain ⟨m', hgrows, ⟨id, hrun, -⟩ | ⟨i, hrun⟩⟩ := insert_cases p hv
    · rw [Call.edit, hrun]
      exact hC.grows hv hgrows
    · rw [Call.edit, hrun]
      exact hC.grows hv hgrows
  | offer id o =>
    obtain ⟨answer, m', hrun, hoffering⟩ := offer_cases hv model id o
    rw [Call.edit, hrun]
    exact hoffering.columns hC hv hunmixed
  | rerank id =>
    obtain ⟨answer, m', hrun, hranking⟩ := rerank_cases model id m
    rw [Call.edit, hrun]
    exact ⟨C, fun _ _ => rfl, hC.ranking hranking⟩
  | markExplored id key =>
    refine ⟨C, fun _ _ => rfl, ?_⟩
    rw [Call.edit]
    cases hg : m.groups[id]? with
    | none =>
      rw [runOn_markExplored_of_unknown hg]
      exact hC
    | some g =>
      rw [runOn_markExplored_of_group hg]
      exact hC.explore

/-- Calls that do not mix known and unknown widths keep the width of each group. -/
theorem UnmixedRun.columns (h : UnmixedRun m m') (hC : Meaning.columns.Models C m)
    (hm : m.Reachable) : ∃ E, (∀ i < m.size, E i = C i) ∧ Meaning.columns.Models E m' := by
  induction h with
  | refl => exact ⟨C, fun _ _ => rfl, hC⟩
  | @tail m₁ m' hfirst hlast ih =>
    obtain ⟨E, hE, hmodels⟩ := ih
    obtain ⟨F, hF, hmodels'⟩ := hlast.columns hmodels (UnmixedRun.reachable hfirst hm).valid
    refine ⟨F, fun i hi => ?_, hmodels'⟩
    rw [hF i ((UnmixedRun.extends hfirst hm).size_le hi), hE i hi]

/-! ## Main result -/

/-- A plan without references has the width that it means. -/
theorem width_of_hasGroups {p : Plan} (hp : p.hasGroups = false) (C : GroupId → Option Nat) :
    p.width .empty = .ok (Meaning.columns.value C p) := by
  have hthrough : ∀ i w, Lookup.empty.answerWithin Plan.widthBy 0 i = .ok w → w = C i := by
    intro i w hw
    obtain ⟨_, hget, -⟩ := bind_eq_ok.mp hw
    cases hget
  obtain ⟨w, hw⟩ := Plan.total_widthBy.answer_empty hp
  have hmeans := Meaning.widthBy_value hthrough hw
  rw [← hmeans]
  exact hw

/-- An offer that is accepted agrees with the representative of the group, where both widths are
known.  After calls none of which has placed a known width beside an unknown one, each group has one
width, known or unknown, which all its candidates have and which the plans that it resolves to keep
through all such calls to come. -/
theorem Reachable.group_widths (hm : m.Reachable) :
    (∀ model id o outcome m' s m₁ r, (offer model id o).runOn m = (.ok outcome, m') →
      (offered id o.plan).runOn m = (.ok (some s), m₁) → m₁.rep? id = some r →
        m₁.WidthsAgree r s) ∧
      (UnmixedRun .empty m → ∀ id < m.size, ∃ w,
        (∀ c, m.Candidate id c → c.overGroups.width m.lookup = .ok w) ∧
          ∀ m', UnmixedRun m m' →
            ∃ q, (Plan.group id).resolve m'.lookup = .ok q ∧ q.width .empty = .ok w) := by
  refine ⟨fun model id o outcome m' s m₁ r hrun hoffered hr => ?_, fun hunmixed id hid => ?_⟩
  · obtain ⟨_, _, hrun', hoffering⟩ := offer_cases hm.valid model id o
    cases hrun'.symm.trans hrun
    exact hoffering.widthsAgree hm.valid hoffered hr
  · obtain ⟨C, -, hC⟩ := hunmixed.columns (Meaning.models_empty fun _ => none) .empty
    refine ⟨C id, fun c hc => ?_, fun m' hrun => ?_⟩
    · obtain ⟨w, hw⟩ := hm.valid.width_ok (hm.valid.live hc)
      rw [hw, hC.width_value hw, Meaning.value_overGroups, hC id c hc]
    · obtain ⟨E, hE, hmodels⟩ := hrun.columns hC hm
      have hm' := hrun.reachable hm
      obtain ⟨q, hq, hgroups⟩ := hm'.valid.resolve_ok ((hrun.extends hm).size_le hid)
      refine ⟨q, hq, ?_⟩
      rw [width_of_hasGroups hgroups E, hmodels.resolve hq, hE id hid]

section Widening

private def widening : Edit Outcome := do
  let _ ← (Call.insert (.scanOf "s" "t" ["a"])).edit .indifferent
  let _ ← (Call.insert (.scanOf "s" "u" [])).edit .indifferent
  let _ ← (Call.offer 0 (.alternative (.filter .always (.group 1)))).edit .indifferent
  (Call.offer 1 (.replacement (.scanOf "s" "u" ["a", "b"]))).edit .indifferent

private def widened : Memo :=
  (widening.runOn .empty).2

/-- A filter comes in beside a scan of one column, and has two columns later on. -/
theorem not_widths_of_widened :
    ¬ ∀ m : Memo, m.Reachable → ∀ id c c' w w', m.Candidate id c → m.Candidate id c' →
      c.overGroups.width m.lookup = .ok (some w) → c'.overGroups.width m.lookup = .ok (some w') →
        w = w' := by
  intro hall
  have hscript : widening.Scripted :=
    .bind (.call _ _) fun _ => .bind (.call _ _) fun _ => .bind (.call _ _) fun _ => .call _ _
  have hcandidates : (widened.groups[0]?).map Group.candidates =
      some [.scan ⟨⟨"s", "t"⟩, [⟨some "t", "a"⟩], none⟩, .unary (.filter .always) 1] := by
    decide +kernel
  obtain ⟨g, hg, hcs⟩ := Option.map_eq_some_iff.mp hcandidates
  have hscan : widened.Candidate 0 (.scan ⟨⟨"s", "t"⟩, [⟨some "t", "a"⟩], none⟩) :=
    ⟨g, hg, hcs ▸ List.mem_cons_self⟩
  have hfilter : widened.Candidate 0 (.unary (.filter .always) 1) :=
    ⟨g, hg, hcs ▸ List.mem_cons_of_mem _ List.mem_cons_self⟩
  exact absurd (hall widened (hscript.reachable .empty) 0 _ _ 1 2 hscan hfilter
    (by decide +kernel) (by decide +kernel)) (by decide)

private def narrow : Plan := .limit 0 5 (.scanOf "s" "t" ["a"])

private def overlaying : Offer := .replacement (.filter .always (.group 0))

private def overlaid : Memo :=
  ((Memo.offer .indifferent 1 overlaying).runOn ((Memo.insert narrow).runOn .empty).2).2

/-- A limit and the filter that replaces it have the width of the scan below, and so has the plan
that their group resolves to. -/
theorem widths_of_replaced_limit :
    overlaid.Reachable ∧ UnmixedRun .empty overlaid ∧
      (overlaid.groups[1]?).map Group.candidates =
        some [.unary (.limit 0 5) 0, .unary (.filter .always) 0] ∧
      (∀ c, overlaid.Candidate 1 c → c.overGroups.width overlaid.lookup = .ok (some 1)) ∧
        ∀ m', UnmixedRun overlaid m' →
          ∃ q, (Plan.group 1).resolve m'.lookup = .ok q ∧ q.width .empty = .ok (some 1) := by
  have hinsert : UnmixedCall .empty ((Memo.insert narrow).runOn .empty).2 :=
    .call .indifferent (.insert narrow) rfl
  have hoffer : UnmixedCall ((Memo.insert narrow).runOn .empty).2 overlaid :=
    .call .indifferent (.offer 1 overlaying) (by decide +kernel)
  have hunmixed : UnmixedRun .empty overlaid := .tail (.single hinsert) hoffer
  have h := hunmixed.reachable .empty
  have hcandidates : (overlaid.groups[1]?).map Group.candidates =
      some [.unary (.limit 0 5) 0, .unary (.filter .always) 0] := by
    decide +kernel
  obtain ⟨g, hg, hcs⟩ := Option.map_eq_some_iff.mp hcandidates
  obtain ⟨w, hw, hlater⟩ := h.group_widths.2 hunmixed 1 (by decide +kernel)
  obtain rfl : w = some 1 := by
    have hlimit := hw (.unary (.limit 0 5) 0) ⟨g, hg, hcs ▸ List.mem_cons_self⟩
    rw [show (Node.unary (.limit 0 5) 0 : Shape).overGroups.width overlaid.lookup = .ok (some 1) by
      decide +kernel] at hlimit
    exact (Except.ok.inj hlimit).symm
  exact ⟨h, hunmixed, hcandidates, hw, hlater⟩

end Widening

end Memo

end PlanOptimizer
