import PlanOptimizer.Proofs.Expansion
import PlanOptimizer.Proofs.Memo.Calls

/-!
# Reachable memos can be resolved

In a reachable memo links through representatives do not lead in circles.  So every
group has a plan without references, and every question that follows references is
answered for every candidate, also for one that is retired or that leads back to its
own group.

A question follows references as many groups deep as there are groups.  That is
enough: the groups on a chain of links are all different.
-/

namespace PlanOptimizer

open Relation

/-- A question that is answered for a plan whenever it is answered for the groups the plan
refers to. -/
def Lookup.Total {β : Type} (question : (GroupId → Except Fault β) → Plan → Except Fault β) : Prop :=
  ∀ (through : GroupId → Except Fault β) (p : Plan), (∀ id ∈ p.groups, ∃ b, through id = .ok b) →
    ∃ b, question through p = .ok b

/-- A question is answered for a plan without references, with nothing to look up. -/
theorem Lookup.Total.answer_empty {β : Type}
    {question : (GroupId → Except Fault β) → Plan → Except Fault β} (hq : Lookup.Total question)
    {p : Plan} (hp : p.hasGroups = false) : ∃ b, Lookup.empty.answer question p = .ok b :=
  hq _ p fun i hi => absurd hi (Plan.not_mem_groups hp i)

theorem Plan.total_widthBy : Lookup.Total Plan.widthBy := by
  intro through p
  induction p with
  | scan s =>
    intro _
    exact ⟨_, rfl⟩
  | unary op a ih =>
    intro h
    cases op with
    | project es names => exact ⟨_, rfl⟩
    | aggregate ks cs => exact ⟨_, rfl⟩
    | filter e => exact ih h
    | sort ts => exact ih h
    | limit o c => exact ih h
  | join j a b iha ihb =>
    intro h
    obtain ⟨wa, hwa⟩ := iha fun id hid => h id (List.mem_append_left _ hid)
    obtain ⟨wb, hwb⟩ := ihb fun id hid => h id (List.mem_append_right _ hid)
    unfold widthBy
    rw [hwa, hwb]
    cases j.kind.emitsRight with
    | true => exact ⟨_, rfl⟩
    | false => exact ⟨_, rfl⟩
  | group id =>
    intro h
    exact h id (List.mem_singleton_self id)

theorem Estimator.total_estimateBy {α : Type} [Quantity α] (e : Estimator α) :
    Lookup.Total e.estimateBy := by
  intro through p
  induction p with
  | scan s =>
    intro _
    exact ⟨_, rfl⟩
  | unary op a ih =>
    intro h
    obtain ⟨x, hx⟩ := ih h
    unfold estimateBy
    rw [hx]
    exact ⟨_, rfl⟩
  | join j a b iha ihb =>
    intro h
    obtain ⟨x, hx⟩ := iha fun id hid => h id (List.mem_append_left _ hid)
    obtain ⟨y, hy⟩ := ihb fun id hid => h id (List.mem_append_right _ hid)
    unfold estimateBy
    rw [hx, hy]
    exact ⟨_, rfl⟩
  | group id =>
    intro h
    exact h id (List.mem_singleton_self id)

theorem Estimator.cost_of_estimate (e : Estimator Float) {p : Plan} {lookup : Lookup}
    {x : Estimate Float} (h : e.estimate p lookup = .ok x) :
    e.costModel.cost p lookup = .ok x.cost := by
  show Estimate.cost <$> e.estimate p lookup = _
  rw [h]
  rfl

namespace Memo

variable {m : Memo} {id : GroupId} {s : Shape}

/-- Links do not lead from a group to itself. -/
theorem Valid.not_transGen_self (hv : m.Valid) (id : GroupId) :
    ¬ TransGen (Links m.children) id id := by
  intro h
  obtain ⟨b, hb, hback⟩ := TransGen.head'_iff.mp h
  exact not_reaches_of_links hv.acyclic hb hback

/-- No representative refers to its own group. -/
theorem Valid.not_mem_inputs (hv : m.Valid) (hs : m.rep? id = some s) : id ∉ s.inputs := fun h =>
  hv.not_transGen_self id (.single ((links_of_rep hs).mpr h))

/-! ## Questions -/

/-- A question is answered for a group, if as many groups may still be followed as are
not on the chain of links that has led to it. -/
theorem Valid.answerWithin_ok (hv : m.Valid) {β : Type}
    {question : (GroupId → Except Fault β) → Plan → Except Fault β} (hq : Lookup.Total question) :
    ∀ (hops : Nat) (chain : List GroupId) (id : GroupId), hops + chain.length = m.size →
      chain.Nodup → (∀ x ∈ chain, x < m.size ∧ TransGen (Links m.children) x id) → id < m.size →
      ∃ b, m.lookup.answerWithin question hops id = .ok b := by
  intro hops
  induction hops with
  | zero =>
    intro chain id hlen hnodup hchain hid
    -- the chain and the group together are more groups than there are
    have hnew : id ∉ chain := fun h => hv.not_transGen_self id (hchain id h).2
    have hlt := length_lt_size hnodup (fun x hx => (hchain x hx).1) hid hnew
    omega
  | succ hops ih =>
    intro chain id hlen hnodup hchain hid
    obtain ⟨s, hs⟩ := Option.isSome_iff_exists.mp (rep?_isSome_iff.mpr hid)
    have hnew : id ∉ chain := fun h => hv.not_transGen_self id (hchain id h).2
    obtain ⟨b, hb⟩ := hq (m.lookup.answerWithin question hops) s.overGroups <| by
      intro i hi
      rw [Node.groups_overGroups] at hi
      have hlink : Links m.children id i := (links_of_rep hs).mpr hi
      refine ih (id :: chain) i ?_ (List.nodup_cons.mpr ⟨hnew, hnodup⟩) ?_ (hv.live_rep hs i hi)
      · rw [List.length_cons]
        omega
      · intro x hx
        rcases List.mem_cons.mp hx with rfl | hx
        · exact ⟨hid, .single hlink⟩
        · exact ⟨(hchain x hx).1, (hchain x hx).2.tail hlink⟩
    refine ⟨b, ?_⟩
    rw [Lookup.answerWithin, get_lookup_of_rep hs]
    exact hb

/-- A question is answered for a shape over groups that exist. -/
theorem Valid.answer_ok (hv : m.Valid) {β : Type}
    {question : (GroupId → Except Fault β) → Plan → Except Fault β} (hq : Lookup.Total question)
    (hlive : ∀ i ∈ s.inputs, i < m.size) : ∃ b, m.lookup.answer question s.overGroups = .ok b := by
  refine hq _ _ fun i hi => ?_
  rw [Node.groups_overGroups] at hi
  refine hv.answerWithin_ok hq _ [] i ?_ List.nodup_nil (fun _ h => nomatch h) (hlive i hi)
  exact length_known_lookup m

theorem Valid.width_ok (hv : m.Valid) (hlive : ∀ i ∈ s.inputs, i < m.size) :
    ∃ w, s.overGroups.width m.lookup = .ok w := hv.answer_ok Plan.total_widthBy hlive

theorem Valid.cost_ok (hv : m.Valid) (e : Estimator Float) (hlive : ∀ i ∈ s.inputs, i < m.size) :
    ∃ x, e.costModel.cost s.overGroups m.lookup = .ok x := by
  obtain ⟨x, hx⟩ := hv.answer_ok e.total_estimateBy hlive
  exact ⟨x.cost, e.cost_of_estimate hx⟩

/-! ## Vetting -/

/-- Two shapes have the same number of columns, where both numbers are known. -/
def WidthsAgree (m : Memo) (s t : Shape) : Prop :=
  ∀ e a, s.overGroups.width m.lookup = .ok (some e) → t.overGroups.width m.lookup = .ok (some a) →
    e = a

theorem WidthsAgree.refl (m : Memo) (s : Shape) : m.WidthsAgree s s := by
  intro e a he ha
  rw [he] at ha
  cases ha
  rfl

theorem widthsAgree_iff {t : Shape} {e a : Option Nat} (he : s.overGroups.width m.lookup = .ok e)
    (ha : t.overGroups.width m.lookup = .ok a) :
    m.WidthsAgree s t ↔ ∀ x y, e = some x → a = some y → x = y := by
  unfold WidthsAgree
  simp only [he, ha, Except.ok.injEq]

/-- A shape leads back to the group, passes, or has another number of columns than the
representative. -/
theorem Valid.vet_cases (hv : m.Valid) (hid : id < m.size) (hlive : ∀ i ∈ s.inputs, i < m.size) :
    (m.leadsTo s id = true ∧ m.vet id s = .error (.selfReference id)) ∨
      m.leadsTo s id = false ∧ ∃ r, m.rep? id = some r ∧
        ((m.WidthsAgree r s ∧ m.vet id s = .ok ()) ∨
          ∃ e a, ¬ m.WidthsAgree r s ∧ m.vet id s = .error (.columnCount id e a)) := by
  obtain ⟨r, hrep⟩ := Option.isSome_iff_exists.mp (rep?_isSome_iff.mpr hid)
  obtain ⟨e, he⟩ := hv.width_ok (hv.live_rep hrep)
  obtain ⟨a, ha⟩ := hv.width_ok hlive
  unfold vet
  cases m.leadsTo s id with
  | true => exact .inl ⟨rfl, rfl⟩
  | false =>
    refine .inr ⟨rfl, r, hrep, ?_⟩
    rw [widthsAgree_iff he ha]
    simp only [Bool.false_eq_true, if_false, shape_of_rep hrep, he, ha, ok_bind]
    cases e with
    | none => exact .inl ⟨fun _ _ h => (nomatch h), rfl⟩
    | some e =>
      cases a with
      | none => exact .inl ⟨fun _ _ _ h => (nomatch h), rfl⟩
      | some a =>
        by_cases heq : e = a
        · exact .inl ⟨fun _ _ h h' => Option.some.inj h ▸ Option.some.inj h' ▸ heq, if_pos heq⟩
        · exact .inr ⟨e, a, fun h => heq (h e a rfl rfl), if_neg heq⟩

/-- What passes does not lead back to the group, and has the representative's width where both
widths are known. -/
theorem Valid.vet_ok_iff (hv : m.Valid) (hid : id < m.size) (hlive : ∀ i ∈ s.inputs, i < m.size) :
    m.vet id s = .ok () ↔
      m.leadsTo s id = false ∧ ∀ r, m.rep? id = some r → m.WidthsAgree r s := by
  rcases hv.vet_cases hid hlive with
    ⟨hlead, hvet⟩ | ⟨hlead, r, hrep, ⟨hagree, hvet⟩ | ⟨e, a, hdiffer, hvet⟩⟩
  · simp [hlead, hvet]
  · simp [hlead, hvet, hrep, hagree]
  · simp [hlead, hvet, hrep, hdiffer]

/-! ## Resolution -/

/-- A shape expands if all groups under it do. -/
theorem expand_overGroups_ok {path : List GroupId}
    (h : ∀ i ∈ s.inputs, ∃ q, m.lookup.expand path (.group i) = .ok q) :
    ∃ q, m.lookup.expand path s.overGroups = .ok q := by
  refine Lookup.expand_ok fun i hi => h i ?_
  rwa [Node.groups_overGroups] at hi

/-- A group expands on every path it does not lead back to. -/
theorem Valid.expand_group_ok (hv : m.Valid) (hid : id < m.size) {path : List GroupId}
    (hpath : ∀ x ∈ path, ¬ Reaches m.children id x) :
    ∃ q, m.lookup.expand path (.group id) = .ok q := by
  induction id using hv.acyclic.induction generalizing path with
  | _ id ih =>
    obtain ⟨s, hs⟩ := Option.isSome_iff_exists.mp (rep?_isSome_iff.mpr hid)
    have hfind : m.lookup.find id = some s.overGroups := by
      rw [find_lookup, hs]
      rfl
    rw [Lookup.expand_group_of_find (fun h => hpath id h .refl) hfind]
    refine expand_overGroups_ok fun i hi => ?_
    have hlink : Links m.children id i := (links_of_rep hs).mpr hi
    refine ih i hlink (hv.live_rep hs i hi) fun x hx hreach => ?_
    rcases List.mem_cons.mp hx with rfl | hx
    · exact not_reaches_of_links hv.acyclic hlink hreach
    · exact hpath x hx (.head hlink hreach)

/-- A plan over groups that exist resolves to a plan without references. -/
theorem Valid.resolve_plan_ok (hv : m.Valid) {p : Plan} (hp : ∀ i ∈ p.groups, i < m.size) :
    ∃ t, p.resolve m.lookup = .ok t ∧ t.hasGroups = false := by
  have hgroup : ∀ i ∈ p.groups, ∃ q, m.lookup.expand [] (.group i) = .ok q := fun i hi =>
    hv.expand_group_ok (hp i hi) fun _ h => nomatch h
  obtain ⟨t, ht⟩ := Lookup.expand_ok hgroup
  exact ⟨t, (Plan.resolve_eq_expand _ _).trans ht, Lookup.hasGroups_of_expand ht⟩

/-- Every group resolves to a plan without references. -/
theorem Valid.resolve_ok (hv : m.Valid) (hid : id < m.size) :
    ∃ q, (Plan.group id).resolve m.lookup = .ok q ∧ q.hasGroups = false :=
  hv.resolve_plan_ok fun _ hi => List.mem_singleton.mp hi ▸ hid

/-! ## Reachable memos -/

/-- In a reachable memo links through representatives do not lead in circles, every group
resolves to a plan without references, and the width and the cost of every candidate can be
told. -/
theorem Reachable.resolvable (h : m.Reachable) :
    (∀ id, ¬ TransGen (Links m.children) id id) ∧
      (∀ id < m.size, ∃ q, (Plan.group id).resolve m.lookup = .ok q ∧ q.hasGroups = false) ∧
      ∀ id c, m.Candidate id c →
        (∃ w, c.overGroups.width m.lookup = .ok w) ∧
          ∀ e : Estimator Float, ∃ x, e.costModel.cost c.overGroups m.lookup = .ok x := by
  have hv := h.valid
  refine ⟨hv.not_transGen_self, fun id hid => hv.resolve_ok hid, fun id c hc => ⟨?_, fun e => ?_⟩⟩
  · exact hv.width_ok (hv.live hc)
  · exact hv.cost_ok e (hv.live hc)

section Looping

private def looping : Edit Outcome := do
  let _ ← (Call.insert (.scanAll "s" "t")).edit .indifferent
  let _ ← (Call.insert (.scanAll "s" "u")).edit .indifferent
  let _ ← (Call.offer 0 (.alternative (.limit 0 1 (.group 1)))).edit .indifferent
  (Call.offer 1 (.replacement (.limit 0 2 (.group 0)))).edit .indifferent

private def looped : Memo :=
  (looping.runOn .empty).2

/-- The second candidate of the first group was no circle when it came in, and it leads back
to its group now. -/
theorem resolvable_of_looping_candidate :
    looped.Reachable ∧
      (looped.groups[0]?).map Group.candidates =
        some [.scan ⟨⟨"s", "t"⟩, [], none⟩, .unary (.limit 0 1) 1] ∧
      looped.leadsTo (.unary (.limit 0 1) 1) 0 = true ∧
      (∀ id, ¬ TransGen (Links looped.children) id id) ∧
      (∀ id < looped.size, ∃ q, (Plan.group id).resolve looped.lookup = .ok q ∧
        q.hasGroups = false) ∧
      ∀ id c, looped.Candidate id c →
        (∃ w, c.overGroups.width looped.lookup = .ok w) ∧
          ∀ e : Estimator Float, ∃ x, e.costModel.cost c.overGroups looped.lookup = .ok x := by
  have hscript : looping.Scripted :=
    .bind (.call _ _) fun _ => .bind (.call _ _) fun _ => .bind (.call _ _) fun _ => .call _ _
  have h : looped.Reachable := hscript.reachable .empty
  exact ⟨h, by decide +kernel, by decide +kernel, h.resolvable⟩

end Looping

end Memo

end PlanOptimizer
