import PlanOptimizer.Proofs.Memo.Grading

/-!
# Offers of the standard rules are taken

What a standard rule offers to a group of a graded memo comes down to a shape that the group
admits (`Rewrite.admits`), also when the memo has grown since the rule was applied.  So the
offer passes all checks, and if the cost model does not fail, the offer does not
(`Memo.Graded.offer_ok`).
-/

namespace PlanOptimizer

open Relation Rule

/-- The model never fails to compare two shapes over groups that exist. -/
def CostModel.Total (model : CostModel) : Prop :=
  ∀ {m : Memo} {a b : Shape}, m.Reachable → (∀ i ∈ a.inputs, i < m.size) →
    (∀ i ∈ b.inputs, i < m.size) →
      ∃ order, model.compare a.overGroups b.overGroups m.lookup = .ok order

/-- The standard model never fails, whatever its prices and its tables are. -/
theorem Estimator.total_costModel (e : Estimator Float) : e.costModel.Total := by
  intro m a b hm ha hb
  obtain ⟨x, hx⟩ := hm.valid.cost_ok e ha
  obtain ⟨y, hy⟩ := hm.valid.cost_ok e hb
  refine ⟨(compareCost? x y).getD .eq, ?_⟩
  show (e.costModel.cost a.overGroups m.lookup >>= _) = _
  rw [hx]
  show (e.costModel.cost b.overGroups m.lookup >>= _) = _
  rw [hy]
  rfl

variable {m m' m₁ : Memo} {G : Grading} {id : GroupId} {s t : Shape} {x : Offer}
  {model : CostModel}

/-! ## Rewrites -/

theorem groups_filteredBy {ps : List Expr} {p : Plan} : (filteredBy ps p).groups = p.groups := by
  unfold filteredBy
  split <;> rfl

/-- A rewrite refers to groups that exist. -/
theorem Rewrite.live (h : Rewrite m s x) (hv : m.Valid) (hlive : ∀ i ∈ s.inputs, i < m.size) :
    ∀ i ∈ x.plan.groups, i < m.size := by
  intro i hi
  cases h with
  | trivial => exact hlive i hi
  | merge hy => exact hv.live_rep hy i hi
  | @route p j y l r lefts rights hy =>
    have hgroups : (routed p j (.group l) (.group r) lefts rights).groups = [l, r] := by
      simp [routed, Plan.groups, groups_filteredBy]
    rw [Offer.plan, hgroups] at hi
    exact hv.live_rep hy i hi
  | prune => cases hi
  | swap => exact hlive i (by simpa [Plan.groups, Node.inputs, Offer.plan, or_comm] using hi)
  | @rotate outer inner y a b c stay move moving last q hy hsides hq =>
    have hbelow := hv.live_rep hy
    have hc : c < m.size := hlive c (by simp [Node.inputs])
    simp only [Offer.plan, rotation_eq_some hq, Plan.groups, List.mem_append,
      List.mem_singleton] at hi
    rcases hsides with ⟨rfl, rfl⟩ | ⟨rfl, rfl⟩
    · rcases hi with rfl | rfl | rfl <;> first | exact hc | exact hbelow _ (by simp [Node.inputs])
    · rcases hi with rfl | rfl | rfl <;> first | exact hc | exact hbelow _ (by simp [Node.inputs])

/-- What a rewrite comes down to is no higher than the group it is offered to. -/
theorem Rewrite.heightOf_le (h : Rewrite m s x) (hs : m.Candidate id s) (hext : m.Extends m₁)
    (hG : m₁.Graded G) (ht : m₁.normal? x.plan = some t) : G.heightOf t ≤ G.height id := by
  have hgraded : m.Graded G := hG.of_extends hext
  have hid := (hgraded hs).height
  cases h with
  | @trivial p y htrue =>
    have hrep : m₁.rep? y = some t := ht
    have ht' := (hG (Memo.candidate_of_rep? hrep)).height
    have hs' : G.height y + p.bulk ≤ G.height id := hid
    omega
  | @merge outer inner y z hy =>
    have hinner : G.height z + inner.bulk ≤ G.height y :=
      (hgraded (Memo.candidate_of_rep? hy)).height
    have houter : G.height y + outer.bulk ≤ G.height id := hid
    have hmerge := Expr.bulk_merge_le inner outer
    rw [Memo.normal?_filter ht]
    show G.height z + _ ≤ _
    omega
  | route =>
    obtain ⟨a, b, -, -, rfl⟩ := Memo.over?_join_iff.mp ht
    exact Nat.zero_le _
  | prune =>
    obtain ⟨a, -, rfl⟩ := Memo.over?_unary_iff.mp ht
    exact Nat.zero_le _
  | swap =>
    obtain ⟨a, b, -, -, rfl⟩ := Memo.over?_join_iff.mp ht
    exact Nat.zero_le _
  | rotate _ _ hq =>
    rw [rotation_eq_some hq] at ht
    obtain ⟨a, b, -, -, rfl⟩ := Memo.over?_join_iff.mp ht
    exact Nat.zero_le _

/-- A group admits what is offered to it. -/
theorem Rewrite.admits (h : Rewrite m s x) (hs : m.Candidate id s) (hext : m.Extends m₁)
    (hv₁ : m₁.Valid) (hG : m₁.Graded G) (ht : m₁.normal? x.plan = some t) : G.Admits id t := by
  have hgraded : m.Graded G := hG.of_extends hext
  refine ⟨?_, ?_, h.heightOf_le hs hext hG ht⟩
  · rw [hG.widths.normal? hv₁ ht, h.columns fun i c hc => hgraded.widths i c (Memo.candidate_of_rep? hc)]
    exact hgraded.widths id s hs
  · rw [hG.weights.normal? hv₁ ht, h.weight fun i c hc => hgraded.weights i c (Memo.candidate_of_rep? hc)]
    exact hgraded.weights id s hs

/-! ## Offers -/

namespace Memo

theorem offered_ok {p : Plan} (hv : m.Valid) (hp : ∀ i ∈ p.groups, i < m.size) (id : GroupId) :
    (p = .group id ∧ (offered id p).runOn m = (.ok none, m)) ∨
      ∃ s m', (offered id p).runOn m = (.ok (some s), m') ∧ m.Grows m' ∧ m'.normal? p = some s := by
  have hinputs : ∀ n : Node Plan, (∀ i ∈ n.plan.groups, i < m.size) → ∃ s m',
      (some <$> insertInputs n).runOn m = (.ok (some s), m') ∧ m.Grows m' ∧ m'.over? n = some s := by
    intro n hn
    obtain ⟨s, m', hrun, hgrows, hs⟩ := insertInputs_ok hv hn
    refine ⟨s, m', ?_, hgrows, hs⟩
    rw [Edit.runOn_map, hrun]
    rfl
  cases p with
  | scan op => exact .inr (hinputs (.scan op) hp)
  | unary op a => exact .inr (hinputs (.unary op a) hp)
  | join j a b => exact .inr (hinputs (.join j a b) hp)
  | group other =>
    obtain ⟨t, ht⟩ := rep?_of_lt (hp other (by simp [Plan.groups]))
    by_cases heq : other = id
    · subst heq
      exact .inl ⟨rfl, runOn_offered_itself m other⟩
    · refine .inr ⟨t, m, ?_, .refl, ht⟩
      rw [runOn_offered_group heq, shape_of_rep ht]
      rfl

/-- What an offer comes down to, and the placing of that. -/
theorem runOn_offer_of_offered (hid : id < m.size)
    (hrun : (offered id x.plan).runOn m = (.ok (some s), m₁)) (hvet : m₁.vet id s = .ok ()) :
    (offer model id x).runOn m = (place model id s x.forced).runOn m₁ := by
  obtain ⟨g, hg⟩ := lt_size_iff.mp hid
  unfold offer
  rw [Edit.runOn_ask_bind, group_eq_ok_iff.mpr hg]
  dsimp only
  rw [Edit.runOn_bind_of_ok hrun]
  dsimp only
  rw [Edit.runOn_ask_bind, hvet]

/-- A shape is placed if the cost model does not fail. -/
theorem Placement.ok {forced : Bool} {r : Except Fault Outcome}
    (h : Placement model id s m forced r m') (hprefers : ∃ wins, m.prefers model id s = .ok wins) :
    ∃ outcome, r = .ok outcome := by
  cases h with
  | unranked _ hfault =>
    obtain ⟨wins, hwins⟩ := hprefers
    cases hwins.symm.trans hfault
  | _ => exact ⟨_, rfl⟩

theorem prefers_of_total (htotal : model.Total) (hm : m.Reachable) (hid : id < m.size)
    (hlive : ∀ i ∈ s.inputs, i < m.size) : ∃ wins, m.prefers model id s = .ok wins := by
  obtain ⟨c, hrep⟩ := rep?_of_lt hid
  obtain ⟨order, horder⟩ := htotal hm hlive (hm.valid.live_rep hrep)
  unfold prefers
  rw [shape_of_rep hrep]
  show ∃ wins, (model.compare s.overGroups c.overGroups m.lookup >>= _) = Except.ok wins
  rw [horder]
  exact ⟨_, rfl⟩

/-- What an offer comes down to is placed, if the group admits it. -/
theorem Graded.offer_of_offered (hG : m₁.Graded G) (hm : m.Reachable) (hgrows : m.Grows m₁)
    (htotal : model.Total) (hid : id < m.size) (hlive : ∀ i ∈ t.inputs, i < m₁.size)
    (hrun : (offered id x.plan).runOn m = (.ok (some t), m₁)) (hadmits : G.Admits id t) :
    ∃ outcome m', (offer model id x).runOn m = (.ok outcome, m') ∧
      Placement model id t m₁ x.forced (.ok outcome) m' := by
  have hm₁ := hgrows.reachable hm
  have hid₁ := hgrows.extends.size_le hid
  obtain ⟨r, m', hplace, hplacement⟩ := place_cases model t x.forced hid₁
  obtain ⟨outcome, rfl⟩ := hplacement.ok (prefers_of_total htotal hm₁ hid₁ hlive)
  have hvet := hG.vet_ok hm₁.valid hid₁ hlive hadmits
  exact ⟨outcome, m', (runOn_offer_of_offered hid hrun hvet).trans hplace, hplacement⟩

/-- A rewrite that is offered to the group it is made for is taken: it comes down to a shape
that the group admits, and this shape is placed. -/
theorem Graded.offer_ok (hG : m.Graded G) (hm : m.Reachable) (htotal : model.Total)
    (hid : id < m.size) (hlive : ∀ i ∈ x.plan.groups, i < m.size)
    (hadmits : ∀ {m₁ G₁ t}, m.Grows m₁ → m₁.Valid → m₁.Graded G₁ → m₁.normal? x.plan = some t →
      G₁.Admits id t) :
    (offer model id x).runOn m = (.ok .duplicate, m) ∨
      ∃ t m₁ outcome m', (offered id x.plan).runOn m = (.ok (some t), m₁) ∧ m.Grows m₁ ∧
        m₁.normal? x.plan = some t ∧ (offer model id x).runOn m = (.ok outcome, m') ∧
        Placement model id t m₁ x.forced (.ok outcome) m' := by
  have hv := hm.valid
  rcases offered_ok hv hlive id with ⟨hitself, hrun⟩ | ⟨t, m₁, hrun, hgrows, ht⟩
  · obtain ⟨g, hg⟩ := lt_size_iff.mp hid
    left
    unfold offer
    rw [Edit.runOn_ask_bind, group_eq_ok_iff.mpr hg]
    dsimp only
    rw [Edit.runOn_bind_of_ok hrun]
    rfl
  · right
    have hv₁ := hgrows.valid hv
    obtain ⟨G₁, -, hG₁⟩ := hG.grows hv hgrows
    obtain ⟨outcome, m', hoffer, hplacement⟩ := hG₁.offer_of_offered hm hgrows htotal hid
      (hv₁.live_normal? ht) hrun (hadmits hgrows hv₁ hG₁ ht)
    exact ⟨t, m₁, outcome, m', hrun, hgrows, ht, hoffer, hplacement⟩

/-! ## Ranking again -/

theorem best_ok (htotal : model.Total) (hm : m.Reachable) {cs : List (Shape × Nat)} :
    ∀ {b : Shape × Nat}, (∀ i ∈ b.1.inputs, i < m.size) → (∀ c ∈ cs, ∀ i ∈ c.1.inputs, i < m.size) →
      ∃ w, m.best model id b cs = .ok w := by
  induction cs with
  | nil => exact fun _ _ => ⟨_, rfl⟩
  | cons c cs ih =>
    intro b hb hcs
    obtain ⟨hc, hcs⟩ := List.forall_mem_cons.mp hcs
    obtain ⟨order, horder⟩ := htotal hm hc hb
    unfold best
    rw [horder]
    dsimp only [Bind.bind, Except.bind]
    split
    · exact ih hc hcs
    · exact ih hb hcs

/-- A group is ranked again if the cost model does not fail. -/
theorem rerank_ok (htotal : model.Total) (hm : m.Reachable) (hid : id < m.size) :
    ∃ moved m', (rerank model id).runOn m = (.ok moved, m') ∧ Ranking model id m (.ok moved) m' := by
  obtain ⟨r, m', hrun, hranking⟩ := rerank_cases model id m
  have hlive : ∀ {g : Group}, m.groups[id]? = some g → ∀ c ∈ g.candidates, ∀ i ∈ c.inputs, i < m.size :=
    fun hg c hc => hm.valid.live ⟨_, hg, hc⟩
  obtain ⟨moved, rfl⟩ : ∃ moved, r = .ok moved := by
    cases hranking with
    | unknown hnone => exact absurd hid (by rw [lt_size_iff, hnone]; simp)
    | @failed g f hg hfault =>
      have hchallengers : ∀ c ∈ challengers g, ∀ i ∈ c.1.inputs, i < m.size := fun c hc =>
        hlive hg c.1 (List.mem_of_getElem? (mem_challengers_iff.mp hc).1)
      obtain ⟨w, hw⟩ : ∃ w, m.best model id (g.shape, g.representative) (challengers g) = .ok w :=
        best_ok htotal hm (hm.valid.live_rep (rep?_of_group hg)) hchallengers
      cases hw.symm.trans hfault
    | _ => exact ⟨_, rfl⟩
  exact ⟨moved, m', hrun, hranking⟩

end Memo

end PlanOptimizer
