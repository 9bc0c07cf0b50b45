import PlanOptimizer.Proofs.Fixpoint.Consistent
import PlanOptimizer.Proofs.Fixpoint.Countdown
import PlanOptimizer.Proofs.Fixpoint.Walks
import PlanOptimizer.Proofs.Memo.Canonical
import PlanOptimizer.Proofs.Memo.Held
import PlanOptimizer.Proofs.Memo.Pinned
import PlanOptimizer.Proofs.Rules.Mirrors

/-!
# Swapping joins settles from below

A run in which `Rule.swapJoin` is the only active rule creates no group, and each group has the
candidate it started with and its mirror image at most (`Memo.Mirrored`).

A group is *idle* if it has all mirror images and nothing to rank: exploring it changes nothing.
Exploring another group makes it idle, and unsettles groups only that are deeper
(`Memo.Mirrored.meets_explore`).  So a pass settles one more level of depth, and a pass that changes
something has found a group that was not settled yet (`Optimizer.Walks.levels`).  There are as many
levels as the root is deep.
-/

namespace PlanOptimizer

open Relation Edit Rule

variable {m m' m'' m₀ : Memo} {D : GroupId → Nat} {id j root : GroupId} {s c : Shape} {g g' : Group}
  {model : CostModel}

/-! ## Mirror images in a group -/

/-- A candidate, and its mirror image at most. -/
def Twins (c : Shape) (cs : List Shape) : Prop := cs = [c] ∨ cs = [c, c.mirror]

namespace Group

/-- The group has the mirror image of each of its candidates. -/
def Paired (g : Group) : Prop := ∀ c ∈ g.candidates, g.holds c.mirror = true

theorem Paired.congr (h : g.Paired) (hc : g'.candidates = g.candidates) : g'.Paired := by
  unfold Paired holds position?
  rw [hc]
  exact h

/-- Two candidates that are mirror images of each other. -/
theorem paired_of_pair (h : g.candidates = [c, c.mirror]) : g.Paired := by
  intro x hx
  refine holds_iff.mpr ⟨x.mirror, ?_, rfl⟩
  rw [h] at hx ⊢
  rcases List.mem_pair.mp hx with rfl | rfl <;> simp

theorem Twins.mirror_shape (h : Twins c g.candidates) : g.shape = c ∨ g.shape = c.mirror := by
  have hmem := g.shape_mem
  rcases h with heq | heq
  · rw [heq] at hmem
    exact .inl (List.mem_singleton.mp hmem)
  · rw [heq] at hmem
    exact List.mem_pair.mp hmem

/-- A group with the mirror image of its representative has all mirror images. -/
theorem paired_of_holds (h : Twins c g.candidates) (hmirror : g.holds g.shape.mirror = true) :
    g.Paired := by
  rcases h with heq | heq
  · intro x hx
    have hshape := g.shape_mem
    rw [heq] at hx hshape
    rwa [List.mem_singleton.mp hx, ← List.mem_singleton.mp hshape]
  · exact paired_of_pair heq

/-- If the mirror image of the representative is new, the group has had one candidate. -/
theorem eq_singleton_of_fresh (h : Twins c g.candidates) (hfresh : g.position? g.shape.mirror = none) :
    g.candidates = [g.shape] := by
  rcases h with heq | heq
  · have hshape := g.shape_mem
    rw [heq] at hshape ⊢
    rw [List.mem_singleton.mp hshape]
  · have hheld := paired_of_pair heq g.shape g.shape_mem
    unfold holds at hheld
    rw [hfresh] at hheld
    cases hheld

end Group

namespace Memo

/-! ## Memos of a run -/

/-- The groups of a memo, each with the candidate it had before and its mirror image at most. -/
structure Twinned (m₀ m : Memo) : Prop where
  /-- Calls lead to the memo, and every group admits its candidates. -/
  sorted : m.Sorted
  /-- There are no new groups. -/
  size : m.size = m₀.size
  /-- There are no other candidates. -/
  twins : ∀ {id : GroupId} {g : Group}, m.groups[id]? = some g →
    ∃ c, m₀.rep? id = some c ∧ Twins c g.candidates

/-- If a group is noted, it has all mirror images. -/
def NotedAt (m : Memo) (id : GroupId) : Prop :=
  ∀ g : Group, m.groups[id]? = some g → swapJoin.key ∈ g.explored → g.Paired

/-- A memo between two explorations. -/
structure Mirrored (m₀ m : Memo) : Prop extends Twinned m₀ m where
  /-- The notes are true. -/
  noted : ∀ id, m.NotedAt id

/-- The group has all mirror images and nothing to rank. -/
def Idle (m : Memo) (id : GroupId) : Prop :=
  ∃ g : Group, m.groups[id]? = some g ∧ g.Paired ∧ (g.stale = false ∨ g.candidates.length = 1)

/-- Nothing has turned but for one group, and only if that is answered as a change. -/
def Shifts (m : Memo) (id : GroupId) (changed : Bool) (m' : Memo) : Prop :=
  m.Still (· = id) m' ∨ changed = true ∧ m.Swung (· = id) id m'

/-- What a step at a group does to idle groups: it changes nothing if its own group is idle, and
unsettles groups only that are deeper. -/
structure Unsettles (D : GroupId → Nat) (id : GroupId) (changed : Bool) (m m' : Memo) : Prop where
  own : m.Idle id → changed = false ∧ m'.Idle id
  others : ∀ {j}, j ≠ id → m.Idle j → m'.Idle j ∨ changed = true ∧ D id < D j

theorem Unsettles.trans {a b : Bool} (h : Unsettles D id a m m') (h' : Unsettles D id b m' m'') :
    Unsettles D id (a || b) m m'' where
  own hidle := by
    obtain ⟨rfl, hidle⟩ := h.own hidle
    exact h'.own hidle
  others hne hidle := by
    rcases h.others hne hidle with hidle | ⟨rfl, hlt⟩
    · exact (h'.others hne hidle).imp_right fun hlt => ⟨by rw [hlt.1, Bool.or_true], hlt.2⟩
    · exact .inr ⟨rfl, hlt⟩

theorem Mirrored.models (h : m₀.Twinned m) (hD : Meaning.depth.Models D m₀) :
    Meaning.depth.Models D m := by
  rintro id c ⟨g, hg, hc⟩
  obtain ⟨c₀, hc₀, heq | heq⟩ := h.twins hg
  · rw [heq] at hc
    rw [List.mem_singleton.mp hc]
    exact hD id c₀ (candidate_of_rep? hc₀)
  · rw [heq] at hc
    rcases List.mem_pair.mp hc with rfl | rfl
    · exact hD id c (candidate_of_rep? hc₀)
    · rw [Meaning.depth_mirror]
      exact hD id c₀ (candidate_of_rep? hc₀)

/-- A group with two candidates can be mirrored. -/
theorem Twinned.mirror_ne (h : m₀.Twinned m) (hg : m.groups[id]? = some g)
    (htwo : g.candidates.length ≠ 1) (hc : m.Candidate id c) : c.mirror ≠ c := by
  obtain ⟨c₀, -, heq | heq⟩ := h.twins hg
  · exact absurd (by rw [heq]; rfl) htwo
  · have hdistinct := (h.sorted.reachable.valid.group hg).distinct
    rw [heq, List.map_cons, List.map_cons, List.nodup_cons] at hdistinct
    have hne : c₀.mirror ≠ c₀ := fun hsame => hdistinct.1 (by simp [hsame])
    rw [candidate_iff_of_group hg, heq] at hc
    rcases List.mem_pair.mp hc with rfl | rfl
    · exact hne
    · rw [Node.mirror_mirror]
      exact hne.symm

/-! ## Groups beside the one that is explored -/

/-- Notes are kept or lost. -/
theorem NotedAt.of_shifts {changed : Bool} (h : m.NotedAt j) (hstock : m'.stock? j = m.stock? j)
    (hshifts : m.Shifts id changed m') : m'.NotedAt j := by
  intro g' hg' hnoted
  obtain ⟨g, hg, hcandidates⟩ := group_of_stock? hstock hg'
  refine (h g hg ?_).congr hcandidates
  rcases hshifts with hstill | ⟨-, hswung⟩
  · obtain ⟨g'', hg'', -, hexplored, -⟩ := hstill j g hg
    obtain rfl : g' = g'' := Option.some.inj (hg'.symm.trans hg'')
    exact hexplored ▸ hnoted
  · by_cases hlead : m'.Leads j id
    · rw [(hswung.above hg' hlead).1] at hnoted
      cases hnoted
    · obtain ⟨g'', hg'', hexplored, -⟩ := hswung.apart hg hlead
      obtain rfl : g' = g'' := Option.some.inj (hg'.symm.trans hg'')
      exact hexplored ▸ hnoted

/-- An idle group stays idle, or it is deeper than the group that has turned. -/
theorem Idle.of_shifts {changed : Bool} (h : m.Idle j) (hD : Meaning.depth.Models D m₀)
    (hm' : m₀.Twinned m') (hne : j ≠ id) (hstock : m'.stock? j = m.stock? j)
    (hshifts : m.Shifts id changed m') : m'.Idle j ∨ changed = true ∧ D id < D j := by
  obtain ⟨g, hg, hpaired, hrest⟩ := h
  obtain ⟨g', hg'⟩ : ∃ g', m'.groups[j]? = some g' := by
    rw [stock?_of_group hg] at hstock
    obtain ⟨g', hg', -⟩ := Option.map_eq_some_iff.mp hstock
    exact ⟨g', hg'⟩
  obtain ⟨g₁, hg₁, hcandidates⟩ := group_of_stock? hstock hg'
  obtain rfl : g = g₁ := Option.some.inj (hg.symm.trans hg₁)
  have hpaired' := hpaired.congr hcandidates
  by_cases hone : g'.candidates.length = 1
  · exact .inl ⟨g', hg', hpaired', .inr hone⟩
  have hstale : g.stale = false := hrest.resolve_right (hcandidates ▸ hone)
  rcases hshifts with hstill | ⟨hchanged, hswung⟩
  · obtain ⟨g'', hg'', -, -, hstale'⟩ := hstill j g hg
    obtain rfl : g' = g'' := Option.some.inj (hg'.symm.trans hg'')
    exact .inl ⟨g', hg', hpaired', .inl (hstale'.elim (·.trans hstale) And.right)⟩
  · by_cases hlead : m'.Leads j id
    · exact .inr ⟨hchanged, (Mirrored.models hm' hD).depth_lt hlead hne fun c hc =>
        hm'.mirror_ne hg' hone hc⟩
    · obtain ⟨g'', hg'', -, hstale'⟩ := hswung.apart hg hlead
      obtain rfl : g' = g'' := Option.some.inj (hg'.symm.trans hg'')
      exact .inl ⟨g', hg', hpaired', .inl (hstale'.trans hstale)⟩

/-! ## Ranking a group -/

theorem Twinned.of_stock (h : m₀.Twinned m) (hm' : m'.Reachable) (hsize : m'.size = m.size)
    (hstock : ∀ j, m'.stock? j = m.stock? j) : m₀.Twinned m' where
  sorted := h.sorted.of_candidates hm' fun {j c} hc => by
    obtain ⟨g', hg', hmem⟩ := hc
    obtain ⟨g, hg, hcandidates⟩ := group_of_stock? (hstock j) hg'
    exact ⟨g, hg, hcandidates ▸ hmem⟩
  size := hsize.trans h.size
  twins hg' := by
    obtain ⟨g, hg, hcandidates⟩ := group_of_stock? (hstock _) hg'
    rw [hcandidates]
    exact h.twins hg

theorem Ranking.shifts {moved : Bool} (h : Ranking model id m (.ok moved) m') (hv : m.Valid) :
    m.Shifts id moved m' := by
  cases moved with
  | true => exact .inr ⟨rfl, h.swung hv⟩
  | false => exact .inl h.still

/-- Ranking moves nothing in a group that is not stale or has one candidate. -/
theorem Ranking.of_idle {moved : Bool} (h : Ranking model id m (.ok moved) m') (hidle : m.Idle id) :
    moved = false := by
  cases h with
  | rested => rfl
  | kept => rfl
  | @moved g s pos hat hpos hne _ _ _ hstale =>
    obtain ⟨g', hg', -, hrest⟩ := hidle
    obtain rfl : g = g' := Option.some.inj (hat.symm.trans hg')
    rcases hrest with hrest | hone
    · rw [hstale] at hrest
      cases hrest
    · have hlt := (List.getElem?_eq_some_iff.mp hpos).1
      have hrep := g.representative_lt
      omega

theorem Mirrored.rerank (h : m₀.Mirrored m) (hD : Meaning.depth.Models D m₀) (htotal : model.Total)
    (hid : id < m.size) : ∃ moved m', (rerank model id).runOn m = (.ok moved, m') ∧
      m₀.Mirrored m' ∧ Unsettles D id moved m m' ∧ ∃ g, m'.groups[id]? = some g ∧ g.stale = false := by
  have hm := h.sorted.reachable
  obtain ⟨moved, m', hrun, hranking⟩ := rerank_ok htotal hm hid
  have hstock : ∀ j, m'.stock? j = m.stock? j := fun j => hranking.stock?
  have hshifts := hranking.shifts hm.valid
  have hm' : m₀.Twinned m' := h.of_stock (hm.of_rerank hrun) hranking.size_eq hstock
  refine ⟨moved, m', hrun, ⟨hm', fun j => (h.noted j).of_shifts (hstock j) hshifts⟩, ⟨?_, ?_⟩,
    hranking.fresh⟩
  · intro hidle
    have hmoved := hranking.of_idle hidle
    obtain ⟨g, hg, hpaired, -⟩ := hidle
    obtain ⟨g', hg', hstale⟩ := hranking.fresh
    obtain ⟨g₁, hg₁, hcandidates⟩ := group_of_stock? (hstock id) hg'
    obtain rfl : g = g₁ := Option.some.inj (hg.symm.trans hg₁)
    exact ⟨hmoved, g', hg', hpaired.congr hcandidates, .inl hstale⟩
  · intro j hne hidle
    exact hidle.of_shifts hD hm' hne (hstock j) hshifts

/-! ## Offering a mirror image -/

/-- A group admits the mirror images of its candidates. -/
theorem Graded.admits_mirror {G : Grading} (hG : m.Graded G) (hv : m.Valid) (hc : m.Candidate id c) :
    G.Admits id c.mirror := by
  cases c with
  | join op a b =>
    by_cases hsymmetric : op.symmetric = true
    · have hx : Rewrite m (.join op a b) (.alternative (.join op.mirror (.group b) (.group a))) :=
        .swap (of_decide_eq_true hsymmetric)
      rw [Node.mirror_join hsymmetric]
      refine hx.admits hc (.refl m) hv hG (over?_map_group (c := .join op.mirror b a) fun i hi => ?_)
      exact hv.live hc i (by simpa [Node.inputs, or_comm] using hi)
    · rw [show Node.mirror (.join op a b) = .join op a b from if_neg hsymmetric]
      exact hG hc
  | _ => exact hG hc

/-- A shape over groups that exist is placed if its group admits it. -/
theorem Graded.offer_overGroups {G : Grading} (hG : m.Graded G) (hm : m.Reachable)
    (htotal : model.Total) (hid : id < m.size) (hlive : ∀ i ∈ s.inputs, i < m.size)
    (hs : G.Admits id s) : ∃ outcome m',
      (offer model id (.alternative s.overGroups)).runOn m = (.ok outcome, m') ∧
        Placement model id s m false (.ok outcome) m' := by
  exact hG.offer_of_offered (x := .alternative s.overGroups) hm .refl htotal hid hlive
    (runOn_offered_of_live hlive id) hs

theorem Placement.shifts {outcome : Outcome} (h : Placement model id s m false (.ok outcome) m')
    (hv : m.Valid) (hlive : ∀ i ∈ s.inputs, i < m.size) : m.Shifts id outcome.isChange m' := by
  cases h with
  | held => exact .inl (.refl m)
  | added => exact .inl (still_attach m id s)
  | @won g hat hfresh =>
    have hlt := (List.getElem?_eq_some_iff.mp (candidates_attach_last g id s)).1
    exact .inr ⟨rfl, swung_attach hv hat hlive hfresh (fun _ h => h) (Group.swings_promote _)
      (Group.representative_promote hlt)⟩

/-- A group that is offered the mirror image of its representative has all mirror images then. -/
theorem Twinned.own_of_placement (h : m₀.Twinned m) (hg : m.groups[id]? = some g) {outcome : Outcome}
    (hplacement : Placement model id g.shape.mirror m false (.ok outcome) m') :
    ∃ g' c, m'.groups[id]? = some g' ∧ m₀.rep? id = some c ∧ Twins c g'.candidates ∧ g'.Paired ∧
      g'.stale = g.stale := by
  obtain ⟨c, hc, htwins⟩ := h.twins hg
  have hgrown : ∀ g' : Group, g.position? g.shape.mirror = none →
      g'.candidates = g.candidates ++ [g.shape.mirror] → Twins c g'.candidates ∧ g'.Paired := by
    intro g' hfresh hcandidates
    rw [Group.eq_singleton_of_fresh htwins hfresh] at hcandidates
    have hshape : g.shape = c := by
      rcases htwins with heq | heq
      · have hmem := g.shape_mem
        rw [heq] at hmem
        exact List.mem_singleton.mp hmem
      · rw [Group.eq_singleton_of_fresh (.inr heq) hfresh] at heq
        cases heq
    exact ⟨.inr (hshape ▸ hcandidates), Group.paired_of_pair hcandidates⟩
  cases hplacement with
  | @held g₁ pos hat hpos =>
    obtain rfl : g = g₁ := Option.some.inj (hg.symm.trans hat)
    have hholds : g.holds g.shape.mirror = true := by rw [Group.holds, hpos]; rfl
    exact ⟨g, c, hg, hc, htwins, Group.paired_of_holds htwins hholds, rfl⟩
  | @added g₁ hat hfresh =>
    obtain rfl : g = g₁ := Option.some.inj (hg.symm.trans hat)
    obtain ⟨htwins', hpaired⟩ :=
      hgrown ((g.adopt id g.shape.mirror id).push g.shape.mirror) hfresh rfl
    exact ⟨_, c, groups_attach_self hg _, hc, htwins', hpaired, rfl⟩
  | @won g₁ hat hfresh =>
    obtain rfl : g = g₁ := Option.some.inj (hg.symm.trans hat)
    have hat' := groups_invalidate_self (groups_edit_self (groups_attach_self hg g.shape.mirror)
      (·.promote g.candidates.length))
    refine ⟨_, c, hat', hc, and_assoc.mp ⟨hgrown _ hfresh ?_, ?_⟩⟩
    · rw [Group.candidates_reopen, Group.candidates_promote]
      rfl
    unfold Group.reopen
    split <;> simp [Group.adopt]

theorem Twinned.offer (h : m₀.Twinned m) (hD : Meaning.depth.Models D m₀) (htotal : model.Total)
    (hnoted : ∀ j, j ≠ id → m.NotedAt j) (hg : m.groups[id]? = some g) (hstale : g.stale = false) :
    ∃ outcome m', (offer model id (.alternative g.shape.mirror.overGroups)).runOn m =
        (.ok outcome, m') ∧ m₀.Mirrored m' ∧ Unsettles D id outcome.isChange m m' ∧ m'.Idle id := by
  have hm := h.sorted.reachable
  have hid : id < m.size := lt_size_iff.mpr ⟨g, hg⟩
  have hlive : ∀ i ∈ g.shape.mirror.inputs, i < m.size := fun i hi =>
    hm.valid.live_rep (rep?_of_group hg) i (Node.mem_inputs_mirror.mp hi)
  obtain ⟨G, hG⟩ := h.sorted.graded
  have hadmits := hG.admits_mirror hm.valid (candidate_of_rep? (rep?_of_group hg))
  obtain ⟨outcome, m', hrun, hplacement⟩ := hG.offer_overGroups hm htotal hid hlive hadmits
  obtain ⟨g', c, hg', hc, htwins, hpaired, hstale'⟩ := h.own_of_placement hg hplacement
  have hshifts := hplacement.shifts hm.valid hlive
  have hstock : ∀ j, j ≠ id → m'.stock? j = m.stock? j := fun j hne =>
    (hplacement.stock? nofun).resolve_right fun hown => hne hown.1
  have hm' : m₀.Twinned m' := by
    refine ⟨⟨hm.of_offer hrun, G, hG.of_candidates hadmits hplacement.candidates⟩,
      hplacement.size.trans h.size, fun {j g₁} hg₁ => ?_⟩
    by_cases heq : j = id
    · subst heq
      obtain rfl : g' = g₁ := Option.some.inj (hg'.symm.trans hg₁)
      exact ⟨c, hc, htwins⟩
    · obtain ⟨g₀, hg₀, hcandidates⟩ := group_of_stock? (hstock j heq) hg₁
      rw [hcandidates]
      exact h.twins hg₀
  have hnoted' : ∀ j, m'.NotedAt j := fun j => by
    by_cases heq : j = id
    · subst heq
      intro g₁ hg₁ _
      obtain rfl : g' = g₁ := Option.some.inj (hg'.symm.trans hg₁)
      exact hpaired
    · exact (hnoted j heq).of_shifts (hstock j heq) hshifts
  have hidle' : m'.Idle id := ⟨g', hg', hpaired, .inl (hstale'.trans hstale)⟩
  refine ⟨outcome, m', hrun, ⟨hm', hnoted'⟩, ⟨fun hidle => ⟨?_, hidle'⟩, ?_⟩, hidle'⟩
  · obtain ⟨g₁, hg₁, hpaired₁, -⟩ := hidle
    obtain rfl : g = g₁ := Option.some.inj (hg.symm.trans hg₁)
    exact hplacement.unchanged hg (hpaired₁ g.shape g.shape_mem)
  · intro j hne hidle
    exact hidle.of_shifts hD hm' hne (hstock j hne) hshifts

/-! ## Exploring a group -/

theorem unsettles_refl (m : Memo) (id : GroupId) : Unsettles D id false m m :=
  ⟨fun hidle => ⟨rfl, hidle⟩, fun _ hidle => .inl hidle⟩

theorem Idle.explore (h : m.Idle j) (id : GroupId) (key : RuleKey) :
    (m.edit id (·.explore key)).Idle j := by
  obtain ⟨g, hg, hpaired, hrest⟩ := h
  by_cases heq : j = id
  · subst heq
    exact ⟨_, groups_edit_self hg _, hpaired.congr rfl, hrest⟩
  · exact ⟨g, (groups_edit_ne heq _).trans hg, hpaired, hrest⟩

/-- What a step at a group comes to when it makes the group idle. -/
structure Idles (m₀ : Memo) (D : GroupId → Nat) (id : GroupId) (m : Memo) (changed : Bool) (m' : Memo) :
    Prop where
  mirrored : m₀.Mirrored m'
  unsettles : Unsettles D id changed m m'
  idle : m'.Idle id

variable {o : Optimizer} {pass : Nat}

/-- The rule leaves a group that is not stale idle.  The group is noted before the rule is tried, so
its note becomes true only by what the rule does. -/
theorem Mirrored.meets_tryRule (h : m₀.Mirrored m) (hD : Meaning.depth.Models D m₀)
    (htotal : o.model.Total) (hsize : m₀.size ≤ o.limits.groups) (hg : m.groups[id]? = some g)
    (hstale : g.stale = false) :
    (o.tryRule root pass id swapJoin).Meets m
      (fun t m' => Idles m₀ D id m t.changed m') fun _ _ => False := by
  refine Optimizer.meets_tryRule_of_answer (Q := Idles m₀ D id m) hg
    (fun hnoted => ⟨h, unsettles_refl m id, g, hg, h.noted id g hg hnoted, .inl hstale⟩) fun _ => ?_
  have hg₁ : (m.edit id (·.explore swapJoin.key)).groups[id]? = some (g.explore swapJoin.key) :=
    groups_edit_self hg _
  have hm₁ : m₀.Twinned (m.edit id (·.explore swapJoin.key)) :=
    h.toTwinned.of_stock (h.sorted.reachable.explore hg _) (size_edit m id _) fun j =>
      stock?_edit (f := fun g => g.explore swapJoin.key) (fun _ => rfl) fun _ => rfl
  have hnoted₁ : ∀ j, j ≠ id → (m.edit id (·.explore swapJoin.key)).NotedAt j := fun j hne g₁ hj =>
    h.noted j g₁ ((groups_edit_ne hne _).symm.trans hj)
  have hnote : Unsettles D id false m (m.edit id (·.explore swapJoin.key)) :=
    ⟨fun hidle => ⟨rfl, hidle.explore id _⟩, fun _ hidle => .inl (hidle.explore id _)⟩
  generalize m.edit id (·.explore swapJoin.key) = m₁ at hg₁ hm₁ hnoted₁ hnote
  have hanswer := swapJoin_applies m.lookup g.shape.overGroups
  cases hsymmetric : isSymmetric g.shape.overGroups with
  | false =>
    -- the representative is its own mirror image, and so is the only candidate
    have hpaired : (g.explore swapJoin.key).Paired := by
      obtain ⟨c, -, htwins⟩ := hm₁.twins hg₁
      refine Group.paired_of_holds htwins (Group.holds_iff.mpr ⟨g.shape, g.shape_mem, ?_⟩)
      exact congrArg Node.canon (mirror_of_not_isSymmetric hsymmetric).symm
    refine .inl ⟨hsymmetric ▸ hanswer, ⟨hm₁, fun j => ?_⟩, hnote, _, hg₁, hpaired, .inl hstale⟩
    by_cases heq : j = id
    · subst heq
      intro g₁ hj _
      obtain rfl := Option.some.inj (hg₁.symm.trans hj)
      exact hpaired
    · exact hnoted₁ j heq
  | true =>
    obtain ⟨outcome, m', hrun, hm', hunsettles, hidle⟩ := hm₁.offer hD htotal hnoted₁ hg₁ hstale
    have hall := Optimizer.runOn_offerAll_singleton hrun
    rw [Bool.or_false] at hall
    exact .inr ⟨hsymmetric ▸ hanswer, _, _, m', swapJoin_apply_overGroups hsymmetric, hall,
      hm'.size.trans_le hsize, hm', hnote.trans hunsettles, hidle⟩

/-- Exploring a group makes it idle. -/
theorem Mirrored.meets_explore (h : m₀.Mirrored m) (hD : Meaning.depth.Models D m₀)
    (hrules : o.rules = [swapJoin]) (htotal : o.model.Total) (hsize : m₀.size ≤ o.limits.groups)
    (hid : id < m.size) :
    (o.explore root pass id).Meets m
      (fun t m' => Idles m₀ D id m t.changed m') fun _ _ => False := by
  obtain ⟨moved, m₁, hrun, hm₁, hranked, g, hg, hstale⟩ := h.rerank hD htotal hid
  refine meets_bind_of_ok hrun ?_
  rw [hrules]
  have htried : (o.tryRules root pass id [swapJoin]).Meets m₁
      (fun t m' => Idles m₀ D id m (moved || t.changed) m') fun _ _ => False :=
    Optimizer.meets_tryRules_cons (P := Idles m₀ D id m) (Q := Idles m₀ D id m)
      ((hm₁.meets_tryRule hD htotal hsize hg hstale).imp
        (fun t m' hq => ⟨hq.mirrored, hranked.trans hq.unsettles, hq.idle⟩) fun _ _ hf => hf)
      fun hq => Optimizer.meets_tryRules_nil (Q := Idles m₀ D id m) hq
  exact htried.bind fun t m' hq => meets_of_ok (runOn_pure _ _) hq

/-! ## Passes -/

/-- The inputs of a representative are those it had before, in one order or the other. -/
theorem Twinned.links_iff (h : m₀.Twinned m) (hs : m.rep? id = some s) {i : GroupId} :
    i ∈ s.inputs ↔ Links m₀.children id i := by
  obtain ⟨g, hg, rfl⟩ := rep?_eq_some_iff.mp hs
  obtain ⟨c, hc, htwins⟩ := h.twins hg
  rw [links_of_rep hc]
  rcases Group.Twins.mirror_shape htwins with heq | heq
  · rw [heq]
  · rw [heq, Node.mem_inputs_mirror]

/-- All groups below the root that are less deep than a level are idle, and so are those of the
level that have been visited. -/
structure Leveled (m₀ : Memo) (D : GroupId → Nat) (root : GroupId) (level : Nat)
    (visited : List GroupId) (m : Memo) : Prop extends Mirrored m₀ m where
  low : ∀ {j}, Reaches m₀.children root j → D j < level → m.Idle j
  visited : ∀ {j}, j ∈ visited → D j ≤ level → m.Idle j

/-- A step at a group keeps the levels, and its own group has been visited then. -/
theorem Leveled.step {level : Nat} {visited : List GroupId} {changed : Bool}
    (h : Leveled m₀ D root level visited m) (hm' : m₀.Mirrored m')
    (hunsettles : Unsettles D id changed m m') (hidle : m'.Idle id) (hid : Reaches m₀.children root id) :
    Leveled m₀ D root level (id :: visited) m' ∧ (changed = true → level ≤ D id) := by
  have hkept : ∀ {j}, D j ≤ level → m.Idle j → m'.Idle j := fun {j} hj hidlej => by
    by_cases heq : j = id
    · exact heq ▸ hidle
    · rcases hunsettles.others heq hidlej with hidlej | ⟨hchanged, hlt⟩
      · exact hidlej
      · -- an idle group would not have changed
        obtain ⟨hsame, -⟩ := hunsettles.own (h.low hid (Nat.lt_of_lt_of_le hlt hj))
        rw [hsame] at hchanged
        cases hchanged
  refine ⟨⟨hm', fun hj hlt => hkept (Nat.le_of_lt hlt) (h.low hj hlt), fun hj hle => ?_⟩,
    fun hchanged => ?_⟩
  · rcases List.mem_cons.mp hj with rfl | hj
    · exact hidle
    · exact hkept hle (h.visited hj hle)
  · by_contra hlt
    obtain ⟨hsame, -⟩ := hunsettles.own (h.low hid (Nat.lt_of_not_le hlt))
    rw [hsame] at hchanged
    cases hchanged

end Memo

namespace Optimizer

open Memo

variable {o : Optimizer} {pass level : Nat} {visited pending : List GroupId}
  {visits : List (GroupId × Memo)} {r : Except Fault Tally}

/-- A walk visits all that is pending and what is below it, and levels what it visits.  If it reports
a change, it has changed a group that is as deep as the level. -/
theorem Walks.levels (h : o.Walks root pass visited pending m visits r m')
    (hD : Meaning.depth.Models D m₀) (hrules : o.rules = [swapJoin]) (htotal : o.model.Total)
    (hsize : m₀.size ≤ o.limits.groups) (hm : Leveled m₀ D root level visited m)
    (hpending : ∀ x ∈ pending, Reaches m₀.children root x ∧ x < m.size)
    (hclosed : ∀ x ∈ visited, ∀ y, Links m₀.children x y → y ∈ visited ∨ y ∈ pending) :
    ∃ t seen, r = .ok t ∧ Leveled m₀ D root level seen m' ∧
      (∀ x, x ∈ visited ∨ x ∈ pending → x ∈ seen) ∧
      (∀ x ∈ seen, ∀ y, Links m₀.children x y → y ∈ seen) ∧
      (t.changed = true → ∃ j, Reaches m₀.children root j ∧ level ≤ D j) := by
  induction h with
  | @done visited m =>
    refine ⟨{}, visited, rfl, hm, fun x hx => hx.resolve_right List.not_mem_nil,
      fun x hx y hy => ?_, nofun⟩
    exact (hclosed x hx y hy).resolve_right List.not_mem_nil
  | @skip id visited pending visits m m' r hseen _ ih =>
    obtain ⟨t, seen, hr, hm', hall, hlinks, hchanged⟩ := ih hm
      (fun x hx => hpending x (List.mem_cons_of_mem _ hx)) fun x hx y hy => by
        rcases hclosed x hx y hy with hin | hin
        · exact .inl hin
        · rcases List.mem_cons.mp hin with rfl | hin
          · exact .inl hseen
          · exact .inr hin
    refine ⟨t, seen, hr, hm', fun x hx => hall x ?_, hlinks, hchanged⟩
    rcases hx with hx | hx
    · exact .inl hx
    · rcases List.mem_cons.mp hx with rfl | hx
      · exact .inl hseen
      · exact .inr hx
  | fails _ run =>
    obtain ⟨-, hid⟩ := hpending _ List.mem_cons_self
    exact ((hm.toMirrored.meets_explore hD hrules htotal hsize hid).of_error run).elim
  | @step id visited pending visits m m₁ m' here s r _ run rep _ ih =>
    obtain ⟨hbelow, hid⟩ := hpending id List.mem_cons_self
    obtain ⟨hm₁, hunsettles, hidle⟩ :=
      (hm.toMirrored.meets_explore hD hrules htotal hsize hid).of_ok run
    obtain ⟨hleveled, hhere⟩ := hm.step hm₁ hunsettles hidle hbelow
    have hgrown : m₁.size = m.size := hm₁.size.trans hm.size.symm
    have hinputs : ∀ {x}, x ∈ s.inputs ↔ Links m₀.children id x := hm₁.links_iff rep
    obtain ⟨t, seen, rfl, hm', hall, hlinks, hchanged⟩ := ih hleveled
      (fun x hx => by
        rcases List.mem_append.mp hx with hx | hx
        · exact ⟨hbelow.tail (hinputs.mp hx), hm₁.sorted.reachable.valid.live_rep rep x hx⟩
        · rw [hgrown]
          exact hpending x (List.mem_cons_of_mem _ hx))
      fun x hx y hy => by
        rcases List.mem_cons.mp hx with rfl | hx
        · exact .inr (List.mem_append_left _ (hinputs.mpr hy))
        · rcases hclosed x hx y hy with hin | hin
          · exact .inl (List.mem_cons_of_mem _ hin)
          · rcases List.mem_cons.mp hin with rfl | hin
            · exact .inl List.mem_cons_self
            · exact .inr (List.mem_append_right _ hin)
    refine ⟨here.add t, seen, rfl, hm', fun x hx => hall x ?_, hlinks, fun ht => ?_⟩
    · rcases hx with hx | hx
      · exact .inl (List.mem_cons_of_mem _ hx)
      · rcases List.mem_cons.mp hx with rfl | hx
        · exact .inl List.mem_cons_self
        · exact .inr (List.mem_append_right _ hx)
    · rcases Bool.or_eq_true_iff.mp ht with ht | ht
      · exact ⟨id, hbelow, hhere ht⟩
      · exact hchanged ht

/-- So many levels of the groups below the root are still to be settled. -/
def Levels (m₀ : Memo) (D : GroupId → Nat) (root : GroupId) (k : Nat) (m : Memo) : Prop :=
  m₀.Mirrored m ∧ ∀ {j}, Reaches m₀.children root j → D j + k ≤ D root → m.Idle j

/-- A pass that reports a change settles a level. -/
theorem countsDown_levels (hm₀ : m₀.Valid) (hroot : root < m₀.size) (hD : Meaning.depth.Models D m₀)
    (hrules : o.rules = [swapJoin]) (htotal : o.model.Total) (hsize : m₀.size ≤ o.limits.groups) :
    o.CountsDown root (Levels m₀ D root) fun _ _ => False := by
  rintro k m pass ⟨hm, hidle⟩
  have hlive : root < m.size := hm.size ▸ hroot
  obtain ⟨visits, r, m', hrun, hwalks⟩ := o.exists_visits pass hm.sorted.reachable hlive
  have hleveled : Leveled m₀ D root (D root + 1 - k) [] m :=
    ⟨hm, fun hj hlt => hidle hj (by omega), fun hj => nomatch hj⟩
  obtain ⟨t, seen, rfl, hm', hall, hlinks, hchanged⟩ := hwalks.levels hD hrules htotal hsize hleveled
    (List.forall_mem_singleton.mpr ⟨.refl, hlive⟩) fun _ hx => nomatch hx
  have hseen : ∀ {j}, Reaches m₀.children root j → j ∈ seen := fun {j} hj => by
    induction hj with
    | refl => exact hall root (.inr (List.mem_singleton_self root))
    | tail _ hlink ih => exact hlinks _ ih _ hlink
  refine meets_of_ok hrun ?_
  cases ht : t.changed with
  | false => exact ⟨k, ⟨hm'.toMirrored, fun hj hle => hm'.visited (hseen hj) (by omega)⟩, Nat.le_refl k⟩
  | true =>
    obtain ⟨j, hj, hle⟩ := hchanged ht
    have hdepth := hD.depth_le (hm₀.leads_of_reaches hj)
    refine ⟨k - 1, ⟨hm'.toMirrored, fun hi hle => hm'.visited (hseen hi) (by omega)⟩, ?_⟩
    show k - 1 + 1 ≤ k
    omega

/-- In the memo that a plan is inserted into, groups of no depth are settled. -/
theorem levels_of_insert {p : Plan} (hinsert : (Memo.insert p).runOn .empty = (.ok root, m₀))
    (hgrows : Memo.empty.Grows m₀) (hD : Meaning.depth.Models D m₀) : Levels m₀ D root (D root) m₀ := by
  have hsingle : ∀ {id : GroupId} {g : Group}, m₀.groups[id]? = some g →
      ∃ s parents, g = { Group.single id s with parents := parents } := fun hg =>
    hgrows.eq_single_of_size_le hg (Nat.zero_le _)
  refine ⟨⟨⟨sorted_of_insert hinsert, rfl, fun hg => ?_⟩, fun id g hg hnoted => ?_⟩, fun hj hle => ?_⟩
  · obtain ⟨s, parents, rfl⟩ := hsingle hg
    exact ⟨s, rep?_of_group hg, .inl rfl⟩
  · obtain ⟨s, parents, rfl⟩ := hsingle hg
    cases hnoted
  · rename_i j
    by_cases hlt : j < m₀.size
    · obtain ⟨g, hg⟩ := lt_size_iff.mp hlt
      obtain ⟨s, parents, rfl⟩ := hsingle hg
      have hs := hD j s (candidate_of_rep? (rep?_of_group hg))
      have hmirror : s.mirror = s := Meaning.mirror_of_depth_eq_zero (D := D) (by omega)
      refine ⟨_, hg, fun c hc => ?_, .inr rfl⟩
      obtain rfl : c = s := List.mem_singleton.mp hc
      exact Group.holds_iff.mpr ⟨c, List.mem_singleton_self c, congrArg Node.canon hmirror.symm⟩
    · -- only groups that exist are below the root
      have hv := (sorted_of_insert hinsert).reachable.valid
      have hroot := hv.lt_of_find? (find?_of_insert valid_empty hinsert)
      exact absurd (hv.lt_of_reaches hroot hj) hlt

/-- **Swapping joins settles from below.**  What `Rule.swapJoin` makes of its own result on an inner
or cross join is the join.  If it is the only active rule and the cost model does not fail, a plan
without references is optimized in one pass more than the largest number of inner and cross joins on
a way down, when so many passes are allowed and the groups it is inserted into.  There are no other
groups then, and each of them has its one candidate and the mirror image of it at most. -/
theorem optimize_swaps (hrules : o.rules = [swapJoin]) (htotal : o.model.Total) {p : Plan}
    (hp : p.hasGroups = false) :
    (∀ (context : Context) (lookup : Lookup) (j : Join) (a b : Plan), j.kind = .inner ∨ j.kind = .cross →
      ∃ q, swapJoin.apply context lookup (.join j a b) = .ok [.alternative q] ∧
        swapJoin.applies lookup q = .ok true ∧
        swapJoin.apply context lookup q = .ok [.alternative (.join j a b)]) ∧
    ∃ root m, (Memo.insert p).runOn .empty = (.ok root, m) ∧
      (p.swapDepth + 1 ≤ o.limits.passes → m.size ≤ o.limits.groups →
        ∃ r, o.optimize p = .ok r ∧ r.root = root ∧ r.convergence.passes ≤ p.swapDepth + 1 ∧
          r.memo.size = m.size ∧
          ∀ (id : GroupId) (g : Group), r.memo.groups[id]? = some g →
            ∃ c : Shape, (m.groups[id]?).map Group.candidates = some [c] ∧
              (g.candidates = [c] ∨ g.candidates = [c, c.mirror])) := by
  refine ⟨fun _ _ j a b hj => swapJoin_swapJoin (decide_eq_true hj) a b, ?_⟩
  obtain ⟨root, m, hinsert, hgrows, hfind⟩ := insert_ok_of_closed hp
  refine ⟨root, m, hinsert, fun hpasses hgroups => ?_⟩
  have hv := (sorted_of_insert hinsert).reachable.valid
  have hroot := hv.lt_of_find? hfind
  obtain ⟨D, -, hD⟩ := (Meaning.models_empty fun _ => 0).grows (M := Meaning.depth) valid_empty hgrows
  have hdepth : D root = p.swapDepth := (hD.find? hv hfind).symm.trans (Meaning.depth_value hp)
  obtain ⟨r, hr, hrroot, hrpasses, k, ⟨hm, -⟩⟩ := optimize_of_left
    (countsDown_levels hv hroot hD hrules htotal hgroups)
    (fun hk => ⟨hk.1.sorted.reachable, hk.1.size ▸ hroot⟩) hinsert hgroups
    (levels_of_insert hinsert hgrows hD) (hdepth ▸ hpasses)
  refine ⟨r, hr, hrroot, hdepth ▸ hrpasses, hm.size, fun id g hg => ?_⟩
  obtain ⟨c, hc, htwins⟩ := hm.twins hg
  obtain ⟨g₀, hg₀, rfl⟩ := rep?_eq_some_iff.mp hc
  obtain ⟨s, parents, rfl⟩ := hgrows.eq_single_of_size_le hg₀ (Nat.zero_le _)
  exact ⟨s, by rw [hg₀]; rfl, htwins⟩

section Stairs

private def swapper : Optimizer :=
  ⟨Registry.empty.add swapJoin, Estimator.standard.costModel, .empty, { passes := 3, groups := 7 }⟩

/-- An inner join over a left join over a cross join. -/
private def stairs : Plan :=
  .join ⟨.inner, .binary .eq (.col "r" "a") (.col "u" "a")⟩
    (.join ⟨.left, .always⟩
      (.join ⟨.cross, .always⟩ (.scanOf "s" "r" ["a"]) (.scanOf "s" "s" ["a"]))
      (.scanOf "s" "t" ["a"]))
    (.scanOf "s" "u" ["a"])

/-- The left join of three is not swapped, so there are three passes at most and not four. -/
theorem swaps_of_stairs :
    swapper.rules = [swapJoin] ∧ swapper.model.Total ∧ stairs.hasGroups = false ∧
      ∃ r, swapper.optimize stairs = .ok r ∧ r.convergence.passes ≤ 3 ∧ r.memo.size = 7 ∧
        ∀ (id : GroupId) (g : Group), r.memo.groups[id]? = some g → g.candidates.length ≤ 2 := by
  have htotal : swapper.model.Total := Estimator.standard.total_costModel
  obtain ⟨-, root, m, hinsert, hrun⟩ := optimize_swaps (o := swapper) (p := stairs) rfl htotal rfl
  have hsize : m.size = 7 := by
    have hmemo : ((Memo.insert stairs).runOn .empty).2.size = 7 := by decide +kernel
    rwa [hinsert] at hmemo
  obtain ⟨r, hr, -, hpasses, hgroups, htwins⟩ := hrun (by decide) (Nat.le_of_eq hsize)
  refine ⟨rfl, htotal, rfl, r, hr, hpasses, hgroups.trans hsize, fun id g hg => ?_⟩
  obtain ⟨c, -, heq | heq⟩ := htwins id g hg <;> rw [heq] <;> simp

end Stairs

end Optimizer

end PlanOptimizer
