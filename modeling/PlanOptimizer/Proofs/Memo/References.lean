import PlanOptimizer.Proofs.Memo.Calls

/-!
# References to groups

An insertion walks through a plan from left to right and makes groups on its way.  A reference is
checked when the walk comes to it, so it may be to a group that the same insertion has made for a
part further left.  A reference *dangles* if its group does not exist even then.

What an insertion answers is told by the first reference that dangles
(`Memo.insert_of_dangling?`), and an offer to a group answers the same, since it inserts the
inputs of the plan in the same order (`Memo.offer_of_dangling?`).
-/

namespace PlanOptimizer

/-! ## The references of a plan -/

namespace Plan

/-- A reference in a plan. -/
structure Reference where
  /-- The parts of the plan that are to the left of it, from left to right.  Parts of these are
  not listed again. -/
  before : List Plan
  /-- The group that it is to. -/
  id : GroupId
deriving DecidableEq

/-- The references in a plan, from left to right. -/
def references : Plan → List Reference
  | .scan _ => []
  | .unary _ a => a.references
  | .join _ a b => a.references ++ b.references.map fun r => { r with before := a :: r.before }
  | .group id => [⟨[], id⟩]

/-- The references are to the groups of the plan. -/
theorem map_id_references (p : Plan) : p.references.map Reference.id = p.groups := by
  induction p with
  | scan s => rfl
  | unary op a ih => exact ih
  | join j a b iha ihb =>
    rw [references, groups, List.map_append, List.map_map, iha, ← ihb]
    rfl
  | group id => rfl

end Plan

namespace Memo

variable {m m' : Memo} {id : GroupId} {p : Plan} {r : Plan.Reference}

/-- The memo after some plans have been inserted one after the other. -/
def after (m : Memo) : List Plan → Memo
  | [] => m
  | p :: ps => after ((Memo.insert p).runOn m).2 ps

/-- A reference is to a group that does not exist, not even after the parts to its left have
been inserted. -/
def dangles (m : Memo) (r : Plan.Reference) : Bool := decide ((m.after r.before).size ≤ r.id)

/-- The first reference of a plan that dangles. -/
def dangling? (m : Memo) (p : Plan) : Option Plan.Reference := p.references.find? (m.dangles ·)

theorem dangling?_eq_none_iff :
    m.dangling? p = none ↔ ∀ r ∈ p.references, r.id < (m.after r.before).size := by
  simp [dangling?, dangles, List.find?_eq_none]

/-- In a join the right input is reached after the left one has been inserted. -/
theorem dangling?_join (j : Join) (a b : Plan) :
    m.dangling? (.join j a b) = (m.dangling? a).or
      ((((Memo.insert a).runOn m).2.dangling? b).map fun r =>
        { r with before := a :: r.before }) := by
  rw [dangling?, Plan.references, List.find?_append, List.find?_map]
  rfl

theorem dangling?_group (i : GroupId) :
    m.dangling? (.group i) = if i < m.size then none else some ⟨[], i⟩ := by
  by_cases hi : i < m.size
  · rw [if_pos hi, dangling?_eq_none_iff]
    simpa [Plan.references, after] using hi
  · simp [dangling?, Plan.references, dangles, after, hi, Nat.not_lt.mp hi]

/-- Inserting plans makes new groups and no other change. -/
theorem grows_after (hv : m.Valid) (ps : List Plan) : m.Grows (m.after ps) := by
  induction ps generalizing m with
  | nil => exact .refl
  | cons p ps ih =>
    have hgrows := grows_of_insert (p := p) hv rfl
    exact hgrows.trans (ih (hgrows.valid hv))

/-- A reference that dangles is to a group that did not exist before either. -/
theorem size_le_of_dangling? (hv : m.Valid) (h : m.dangling? p = some r) : m.size ≤ r.id := by
  have hsize : (m.after r.before).size ≤ r.id := by simpa [dangles] using List.find?_some h
  exact (grows_after hv r.before).size_le.trans hsize

/-! ## Insertions -/

/-- A plan is inserted if no reference dangles.  Otherwise the insertion stops at the first one
that does. -/
theorem insert_of_dangling? (m : Memo) (p : Plan) :
    (m.dangling? p = none → ∃ id m', (Memo.insert p).runOn m = (.ok id, m')) ∧
      ∀ r, m.dangling? p = some r →
        (Memo.insert p).runOn m = (.error (.unknownGroup r.id), m.after r.before) := by
  induction p generalizing m with
  | scan s => exact ⟨fun _ => enter_ok m (.scan s), fun r h => nomatch h⟩
  | unary op a ih =>
    obtain ⟨hok, hfault⟩ := ih m
    refine ⟨fun h => ?_, fun r h => ?_⟩
    · obtain ⟨x, m₁, hrun⟩ := hok h
      rw [runOn_insert_unary, Edit.runOn_bind_of_ok hrun]
      exact enter_ok m₁ (.unary op x)
    · exact Edit.runOn_bind_of_error (hfault r h) _
  | join j a b iha ihb =>
    obtain ⟨hok, hfault⟩ := iha m
    rw [dangling?_join, runOn_insert_join]
    cases ha : m.dangling? a with
    | some r =>
      refine ⟨fun h => (nomatch h), fun r' h => ?_⟩
      cases h
      exact Edit.runOn_bind_of_error (hfault r ha) _
    | none =>
      obtain ⟨x, m₁, hrun⟩ := hok ha
      obtain ⟨hok₁, hfault₁⟩ := ihb m₁
      rw [Edit.runOn_bind_of_ok hrun, hrun, Option.none_or]
      refine ⟨fun h => ?_, fun r h => ?_⟩
      · obtain ⟨y, m₂, hrun₁⟩ := hok₁ (Option.map_eq_none_iff.mp h)
        rw [Edit.runOn_bind_of_ok hrun₁]
        exact enter_ok m₂ (.join j x y)
      · obtain ⟨r₁, hr₁, rfl⟩ := Option.map_eq_some_iff.mp h
        rw [Edit.runOn_bind_of_error (hfault₁ r₁ hr₁), after, hrun]
  | group i =>
    rw [dangling?_group]
    by_cases hi : i < m.size
    · rw [if_pos hi]
      refine ⟨fun _ => ?_, fun r h => (nomatch h)⟩
      exact ⟨i, m, runOn_insert_of_find? (find?_group_iff.mpr ⟨hi, rfl⟩)⟩
    · rw [if_neg hi]
      refine ⟨fun h => (nomatch h), fun r h => ?_⟩
      cases h
      rw [Memo.insert, Edit.runOn_ask_bind, group_of_unknown (List.getElem?_eq_none (Nat.not_lt.mp hi))]
      rfl

/-! ## Offers -/

/-- Inserting an operator is inserting its inputs and entering it over their groups. -/
theorem runOn_insert_plan (n : Node Plan) (m : Memo) :
    (Memo.insert n.plan).runOn m = (insertInputs n >>= enter).runOn m := by
  have hdef : Memo.insert n.plan = insertInputs n >>= enter := by
    cases n with
    | scan s => rfl
    | unary op a => simp [Node.plan, Memo.insert, insertInputs]
    | join j a b => simp [Node.plan, Memo.insert, insertInputs]
  rw [hdef]

/-- An insertion that fails has failed at the inputs of the plan. -/
theorem runOn_insertInputs_of_error {n : Node Plan} {f : Fault}
    (h : (Memo.insert n.plan).runOn m = (.error f, m')) :
    (insertInputs n).runOn m = (.error f, m') := by
  rw [runOn_insert_plan] at h
  rcases Edit.runOn_bind_error_iff.mp h with h | ⟨s, m₁, -, h⟩
  · exact h
  · obtain ⟨x, m₂, hrun⟩ := enter_ok m₁ s
    cases hrun.symm.trans h

/-- A plan with a reference that dangles cannot be offered to a group. -/
theorem offer_of_dangling? {o : Offer} (hid : id < m.size) (h : m.dangling? o.plan = some r)
    (model : CostModel) :
    (Memo.offer model id o).runOn m = (.error (.unknownGroup r.id), m.after r.before) := by
  have hfault := (insert_of_dangling? m o.plan).2 r h
  have hinputs : ∀ n : Node Plan, o.plan = n.plan →
      (some <$> insertInputs n).runOn m = (.error (.unknownGroup r.id), m.after r.before) := by
    intro n hn
    rw [hn] at hfault
    rw [Edit.runOn_map, runOn_insertInputs_of_error hfault]
    rfl
  have hoffered : (offered id o.plan).runOn m =
      (.error (.unknownGroup r.id), m.after r.before) := by
    cases hp : o.plan with
    | scan s => exact hinputs (.scan s) hp
    | unary op a => exact hinputs (.unary op a) hp
    | join j a b => exact hinputs (.join j a b) hp
    | group other =>
      rw [hp, dangling?_group] at h
      by_cases hother : other < m.size
      · rw [if_pos hother] at h
        cases h
      · rw [if_neg hother] at h
        cases h
        have hne : other ≠ id := fun heq => hother (heq ▸ hid)
        have hunknown : m.groups[other]? = none := List.getElem?_eq_none (Nat.not_lt.mp hother)
        rw [runOn_offered_group hne, shape_of_unknown hunknown]
        rfl
  obtain ⟨g, hg⟩ := lt_size_iff.mp hid
  rw [Memo.offer, Edit.runOn_ask_bind, group_eq_ok_iff.mpr hg]
  exact Edit.runOn_bind_of_error hoffered _

/-- **References are checked on the way.**  For every reachable memo:

* a plan is inserted if and only if each of its references is to a group that exists once the
  parts to its left have been inserted, which is so for all groups that existed before;
* otherwise the insertion, and an offer of the plan to a group that exists, stops at the first
  reference that is to no such group, and reports its group, which did not exist before. -/
theorem Reachable.insert_ok_iff_references (hm : m.Reachable) (p : Plan) :
    ((∃ id m', (Memo.insert p).runOn m = (.ok id, m')) ↔
      ∀ r ∈ p.references, r.id < (m.after r.before).size) ∧
    ((∀ i ∈ p.groups, i < m.size) → ∀ r ∈ p.references, r.id < (m.after r.before).size) ∧
    ∀ r, m.dangling? p = some r → m.size ≤ r.id ∧
      (Memo.insert p).runOn m = (.error (.unknownGroup r.id), m.after r.before) ∧
      ∀ (model : CostModel) (id : GroupId) (o : Offer), id < m.size → o.plan = p →
        (Memo.offer model id o).runOn m = (.error (.unknownGroup r.id), m.after r.before) := by
  have hv := hm.valid
  obtain ⟨hok, hfault⟩ := insert_of_dangling? m p
  refine ⟨⟨fun ⟨id, m', hrun⟩ => ?_, fun h => hok (dangling?_eq_none_iff.mpr h)⟩,
    fun h r hr => ?_, fun r hr => ⟨size_le_of_dangling? hv hr, hfault r hr, ?_⟩⟩
  · cases hd : m.dangling? p with
    | none => exact dangling?_eq_none_iff.mp hd
    | some r => cases hrun.symm.trans (hfault r hd)
  · have hid : r.id ∈ p.groups := p.map_id_references ▸ List.mem_map_of_mem hr
    exact (grows_after hv r.before).extends.size_le (h r.id hid)
  · rintro model id o hid rfl
    exact offer_of_dangling? hid hr model

section Ahead

/-- A table beside a reference. -/
private def beside (name : String) (id : GroupId) : Plan :=
  .join ⟨.cross, .always⟩ (.scanAll "s" name) (.group id)

/-- A memo with a group for one table. -/
private def tabled : Memo := (((Call.insert (.scanAll "s" "t")).edit .indifferent).runOn .empty).2

/-- A plan with two references. -/
private def twice : Plan := .join ⟨.cross, .always⟩ (beside "u" 1) (.group 5)

/-- The second of two references dangles, and the first is to a group that is made on the way. -/
theorem insert_stops_at_second_reference :
    tabled.Reachable ∧ tabled.dangling? twice = some ⟨[beside "u" 1], 5⟩ ∧ 0 < tabled.size ∧
      (Memo.insert twice).runOn tabled =
        (.error (.unknownGroup 5), tabled.after [beside "u" 1]) ∧
      (Memo.offer .indifferent 0 (.alternative twice)).runOn tabled =
        (.error (.unknownGroup 5), tabled.after [beside "u" 1]) := by
  have hreach : tabled.Reachable := .call .indifferent (.insert (.scanAll "s" "t")) .empty
  have hdangling : tabled.dangling? twice = some ⟨[beside "u" 1], 5⟩ := by decide +kernel
  have hsize : 0 < tabled.size := by decide +kernel
  obtain ⟨-, hinsert, hoffer⟩ := (hreach.insert_ok_iff_references twice).2.2 _ hdangling
  exact ⟨hreach, hdangling, hsize, hinsert, hoffer .indifferent 0 (.alternative twice) hsize rfl⟩

/-- A reference need not be to a group that existed before the plan is inserted or offered: the
number of a group that the same call makes for a part further left will do. -/
theorem reference_to_group_ahead :
    ¬ (∀ m : Memo, m.Reachable → ∀ p : Plan,
      (∃ id m', (Memo.insert p).runOn m = (.ok id, m')) ↔ ∀ i ∈ p.groups, i < m.size) ∧
    ¬ ∀ m : Memo, m.Reachable → ∀ (model : CostModel) (id : GroupId) (o : Offer), id < m.size →
      (∃ i ∈ o.plan.groups, m.size ≤ i) →
        ∃ i m', (Memo.offer model id o).runOn m = (.error (.unknownGroup i), m') := by
  refine ⟨fun h => ?_, fun h => ?_⟩
  · have hrun : ((Memo.insert (beside "t" 0)).runOn .empty).1 = .ok 1 := by decide +kernel
    have hlive := (h .empty .empty (beside "t" 0)).mp ⟨1, _, Prod.ext hrun rfl⟩
    exact Nat.not_lt_zero 0 (hlive 0 (by decide))
  · have hreach : tabled.Reachable := .call .indifferent (.insert (.scanAll "s" "t")) .empty
    have hrun : ((Memo.offer .indifferent 0 (.alternative (beside "u" 1))).runOn tabled).1 =
        .ok .added := by decide +kernel
    obtain ⟨i, m', hfault⟩ := h tabled hreach .indifferent 0 (.alternative (beside "u" 1))
      (by decide +kernel) ⟨1, by decide, by decide +kernel⟩
    rw [hfault] at hrun
    cases hrun

end Ahead

end Memo

end PlanOptimizer
