import PlanOptimizer.Proofs.Fixpoint.Consistent
import PlanOptimizer.Proofs.Fixpoint.Countdown
import PlanOptimizer.Proofs.Fixpoint.Settled
import PlanOptimizer.Proofs.Memo.Potential

/-!
# Standard runs converge

With the standard rules and a cost model that does not fail, every plan is optimized if the
budgets are large enough, and how large they have to be depends on the plan alone
(`Optimizer.optimize_converges`).

The memo that the plan is inserted into has a scope, and the run does not leave it.  What is
answered as a change lowers the potential of the memo, so there are no more passes with a
change than its potential at the beginning.
-/

namespace PlanOptimizer

open Edit Relation

variable {m m' m₀ m₁ : Memo} {S : Scope} {G : Grading} {id root : GroupId} {s t : Shape} {x : Offer}
  {model : CostModel}

/-! ## Offers -/

namespace Memo

/-- A replacement takes a filter away. -/
theorem Within.tail_lt (h : m.Within S G) (hv : m.Valid) (hx : Rewrite m s x)
    (hs : m.Candidate id s) (hforced : x.forced = true) (hgrows : m.Grows m₁)
    (ht : m₁.normal? x.plan = some t) : S.tail G t < S.tail G s := by
  cases hx with
  | @trivial p y =>
    have hy : y < m.size := hv.live hs y (List.mem_singleton_self y)
    have hstill : Still (fun _ => False) m m₁ := hgrows.still
    have hrep : m.rep? y = some t := (hstill.rep? hgrows.extends hy).symm.trans ht
    have hle := tail_le_level h (hv.live_rep hrep) (h.graded (candidate_of_rep? hrep))
    exact Nat.lt_succ_of_le hle
  | @merge outer inner y z hy =>
    have hlt := h.level_lt (hv.live_rep hy) (h.graded (candidate_of_rep? hy)) z
      (List.mem_singleton_self z)
    rw [normal?_filter ht]
    exact Nat.succ_lt_succ hlt
  | _ => cases hforced

/-- A shape that comes in was not there before. -/
theorem not_candidate_of_position? {g : Group} (hat : m.groups[id]? = some g)
    (hfresh : g.position? s = none) : ¬ m.Candidate id s := by
  rintro ⟨g', hg', hc⟩
  obtain rfl : g = g' := Option.some.inj (hat.symm.trans hg')
  exact Group.position?_eq_none_iff.mp hfresh (List.mem_map.mpr ⟨s, hc, rfl⟩)

/-- A placement that brings no new candidate is no change and leaves the groups still, or it
brings a candidate back. -/
theorem Placement.still_or_revived {forced : Bool} {outcome : Outcome}
    (h : Placement model id t m forced (.ok outcome) m')
    (hold : ∀ {j c}, m'.Candidate j c → m.Candidate j c) :
    outcome.isChange = false ∧ m.Still (fun _ => False) m' ∨
      forced = true ∧ outcome.isChange = true ∧
        ∃ (g : Group) (pos : Nat), m.groups[id]? = some g ∧ g.position? t = some pos ∧
          pos ≠ g.representative ∧ m' = (m.force id pos).invalidate id := by
  have hnew : m'.Candidate id t → ¬ m.Candidate id t → False := fun hc hnot => hnot (hold hc)
  cases h with
  | held => exact .inl ⟨rfl, .refl m⟩
  | @pinned g hat =>
    refine .inl ⟨rfl, still_edit hat (Group.representative_pin g.representative_lt) ?_ ?_⟩
    · exact g.explored_pin _
    · exact .inl (g.stale_pin _)
  | @revived g pos hat hpos hne => exact .inr ⟨rfl, rfl, g, pos, hat, hpos, hne, rfl⟩
  | @added g hat hfresh =>
    exact (hnew ((candidate_attach_iff hat).mpr (.inr ⟨rfl, rfl⟩))
      (not_candidate_of_position? hat hfresh)).elim
  | @won g hat hfresh =>
    refine (hnew ?_ (not_candidate_of_position? hat hfresh)).elim
    rw [candidate_invalidate_iff, candidate_edit_iff fun g => g.candidates_promote _]
    exact (candidate_attach_iff hat).mpr (.inr ⟨rfl, rfl⟩)
  | @imposed g hat hfresh =>
    refine (hnew ?_ (not_candidate_of_position? hat hfresh)).elim
    rw [candidate_invalidate_iff]
    exact (candidate_edit_iff fun g => g.candidates_pin _).mpr
      ((candidate_attach_iff hat).mpr (.inr ⟨rfl, rfl⟩))

/-- A candidate that comes back with less of a filter on top than what it replaces lowers the
potential. -/
theorem Within.potential_lt_of_revived {g : Group} {pos : Nat} (h : m.Within S G) (hv : m.Valid)
    (hv' : ((m₁.force id pos).invalidate id).Valid) (hgrows : m.Grows m₁)
    (hsettles : m.Settles ((m₁.force id pos).invalidate id)) (hs : m.rep? id = some s)
    (htail : S.tail G t < S.tail G s) (hat : m₁.groups[id]? = some g)
    (hpos : g.position? t = some pos) (hne : pos ≠ g.representative) :
    ((m₁.force id pos).invalidate id).potential S G < m.potential S G := by
  obtain ⟨c, hc, hcanon⟩ := candidate_of_position? hpos
  have hswung : m₁.Swung (fun _ => False) id ((m₁.force id pos).invalidate id) := by
    refine swung_edit (hgrows.valid hv) hat (Group.swings_pin pos) ?_
    rwa [Group.representative_pin (List.getElem?_eq_some_iff.mp hc).1]
  obtain ⟨g₀, hg₀, hshape⟩ := rep?_eq_some_iff.mp hs
  have hfrom := hgrows.still.swung (fun _ h => h.elim) (lt_size_iff.mpr ⟨g₀, hg₀⟩) hswung
  refine hsettles.potential_lt_of_swung h hv hv' hfrom ?_
  obtain ⟨g', hg', hstale | ⟨hnone, -⟩⟩ := hfrom.self hg₀
  · have hrep : g'.shape = c := by
      have hat' := groups_invalidate_self (groups_edit_self hat (·.pin pos))
      rw [Option.some.inj (hg'.symm.trans hat'), Group.shape_reopen, Group.shape_pin hc]
    rw [debt_of_group hg₀, debt_of_group hg', Scope.debt, Scope.debt, hstale, hrep, hshape,
      tail_of_canon hcanon]
    exact Nat.add_lt_add_left htail _
  · exact hnone.elim

/-- Placing a shape that its group has already lowers the potential, or it is answered as no
change and does not raise it.  A replacement has less of a filter on top than what it replaces. -/
theorem Within.placement {forced : Bool} {outcome : Outcome} (h : m.Within S G) (hv : m.Valid)
    (hv' : m'.Valid) (hgrows : m.Grows m₁) (hsettles : m.Settles m')
    (hs : forced = true → m.rep? id = some s) (htail : forced = true → S.tail G t < S.tail G s)
    (hplacement : Placement model id t m₁ forced (.ok outcome) m') :
    m'.potential S G + outcome.isChange.toNat ≤ m.potential S G := by
  rcases hplacement.still_or_revived fun hc => (hsettles.candidates hc).extends hgrows.extends with
    ⟨hchange, hstill⟩ | ⟨hforced, hchange, g, pos, hat, hpos, hne, rfl⟩
  · rw [hchange]
    exact hsettles.potential_le_of_still (hgrows.still.trans hstill)
  · rw [hchange]
    exact h.potential_lt_of_revived hv hv' hgrows hsettles (hs hforced) (htail hforced) hat hpos hne

/-- What a rewrite comes down to is admitted by its group, and it is within the scope. -/
theorem Within.rewrite {r : Except Fault (Option Shape)} (h : m.Within S G)
    (hv : m.Valid) (hv₀ : m₀.Valid) (hext : m₀.Extends m) (hs : m₀.rep? id = some s)
    (hx : Rewrite m₀ s x) (hoffered : (Memo.offered id x.plan).runOn m = (r, m₁))
    (hgrows : m.Grows m₁) (ht : m₁.normal? x.plan = some t) :
    ∃ G₁, m₁.Within S G₁ ∧ S.Has t ∧ G₁.Admits id t := by
  have hcand := candidate_of_rep? hs
  have hid : id < m.size := hext.size_le (lt_of_candidate hcand)
  have hgraded : m.Graded G := h.graded
  have hreps : ∀ {j c}, m₀.rep? j = some c → S.Has c := fun hc =>
    h.has ((candidate_of_rep? hc).extends hext)
  have hweights : ∀ j c, m₀.rep? j = some c → Meaning.weight.shape G.weight c = G.weight j :=
    fun j c hc => (hgraded.of_extends hext (candidate_of_rep? hc)).weight
  have hweight : Meaning.weight.shape G.weight s ≤ S.weight :=
    (hweights id s hs).trans_le (h.weight id hid)
  have hgroups : m.Weighs G G.weight x.plan := fun i hi =>
    ⟨hext.size_le (hx.live hv₀ (hv₀.live_rep hs) i hi), rfl⟩
  obtain ⟨G₁, -, h₁⟩ := h.offered hv hgroups (hx.fits hreps (hreps hs) hweights hweight) hoffered
  have hadmits := hx.admits hcand (hext.trans hgrows.extends) (hgrows.valid hv) h₁.graded ht
  refine ⟨G₁, h₁, ?_, hadmits⟩
  refine hx.has hreps (hreps hs) hweights hweight (fun hc => h₁.has (candidate_of_rep? hc)) ht ?_
  rintro p y rfl
  have hle := hadmits.height.trans (h₁.height_le (hgrows.extends.size_le hid))
  exact (Nat.le_add_left _ _).trans hle

/-! ## Ranking again -/

/-- A group that moves when it is ranked again has been stale. -/
theorem Ranking.stale {g : Group} (h : Ranking model id m (.ok true) m')
    (hg : m.groups[id]? = some g) : g.stale = true := by
  cases h with
  | moved hat _ _ _ _ _ hstale =>
    rw [hg] at hat
    cases hat
    exact hstale

/-- Ranking a group again lowers the potential, or it moves nothing and does not raise it. -/
theorem Within.ranking {moved : Bool} (h : m.Within S G) (hv : m.Valid) (hv' : m'.Valid)
    (hranking : Ranking model id m (.ok moved) m') (hext : m.Extends m') :
    m'.Within S G ∧ m'.potential S G + moved.toNat ≤ m.potential S G := by
  have hsettles : m.Settles m' := ⟨hext, hranking.candidate_iff.mp⟩
  refine ⟨h.settles hsettles, ?_⟩
  cases moved with
  | false => exact hsettles.potential_le_of_still hranking.still
  | true =>
    have hswung := hranking.swung hv
    refine hsettles.potential_lt_of_swung h hv hv' hswung ?_
    obtain ⟨g', hg', hfresh⟩ := hranking.fresh
    obtain ⟨g, g₁, hg, hg₁, -⟩ := hswung.moved
    obtain rfl : g' = g₁ := Option.some.inj (hg'.symm.trans hg₁)
    have hstale : g.stale = true := hranking.stale hg
    have htail := tail_le (h.settles hsettles) (hv'.live_rep (rep?_of_group hg'))
    rw [debt_of_group hg, debt_of_group hg', Scope.debt, Scope.debt, hfresh, hstale]
    simp only [if_true, Bool.false_eq_true, if_false]
    omega

end Memo

/-! ## The run -/

/-- A reachable memo within a scope, with at most so many changes ahead. -/
structure Memo.Ahead (S : Scope) (k : Nat) (m : Memo) : Prop where
  reachable : m.Reachable
  within : ∃ G, m.Within S G ∧ m.potential S G ≤ k

namespace Optimizer

variable {o : Optimizer} {k : Nat}

open Memo

/-- The changes that are ahead get fewer with each change. -/
def Spends (S : Scope) (changed : Bool) (m m' : Memo) : Prop :=
  ∀ k, m.Ahead S k → ∃ k', m'.Ahead S k' ∧ k' + changed.toNat ≤ k

/-- Offering a rewrite keeps the memo within its scope. -/
theorem ahead_offer (h : m.Ahead S k) (htotal : o.model.Total) (hm₀ : m₀.Reachable)
    (hext : m₀.Extends m) (hs : m₀.rep? id = some s) (hx : Rewrite m₀ s x)
    (hforced : x.forced = true → m = m₀) : ∃ outcome m',
      (Memo.offer o.model id x).runOn m = (.ok outcome, m') ∧
        ∃ k', m'.Ahead S k' ∧ k' + outcome.isChange.toNat ≤ k := by
  obtain ⟨G, hG, hk⟩ := h.within
  have hscript : (Memo.offer o.model id x).Scripted := .call o.model (.offer id x)
  have hv := h.reachable.valid
  have hcand := candidate_of_rep? hs
  have hid : id < m.size := hext.size_le (lt_of_candidate hcand)
  have hgraded : m.Graded G := hG.graded
  have hlive : ∀ i ∈ x.plan.groups, i < m.size := fun i hi =>
    hext.size_le (hx.live hm₀.valid (hm₀.valid.live_rep hs) i hi)
  rcases hgraded.offer_ok h.reachable htotal hid hlive
    (fun hgrows hv₁ hG₁ ht => hx.admits hcand (hext.trans hgrows.extends) hv₁ hG₁ ht) with
    hrun | ⟨t, m₁, outcome, m', hoffered, hgrows, ht, hrun, hplacement⟩
  · exact ⟨_, m, hrun, k, h, Nat.le_refl _⟩
  · have hm' := hscript.reachable_of_run h.reachable hrun
    have hext' := hscript.extends_of_run h.reachable hrun
    have hv₁ := hgrows.valid hv
    obtain ⟨G₁, hG₁, hhas, hadmits⟩ := hG.rewrite hv hm₀.valid hext hs hx hoffered hgrows ht
    have hgraded₁ : m₁.Graded G₁ := hG₁.graded
    have hlive₁ := hv₁.live_normal? ht
    have hext₁ := (hplacement.changes hv₁ hlive₁ (hgraded₁.apart hv₁ hlive₁ hadmits)).moves.extends
    by_cases hnew : ∃ j c, m'.Candidate j c ∧ ¬ m.Candidate j c
    · obtain ⟨j, c, hc, hnot⟩ := hnew
      have hwithin := hG₁.of_candidates hhas hadmits hext₁ hplacement.size hplacement.candidates
      have hlt := potential_lt_of_new (G := G) hwithin hm'.valid hext' hc hnot
      have hone := outcome.isChange.toNat_le
      exact ⟨outcome, m', hrun, _, ⟨hm', G₁, hwithin, Nat.le_refl _⟩, by omega⟩
    · have hsettles : m.Settles m' := ⟨hext', fun {j c} hc =>
        Classical.by_contradiction fun hnot => hnew ⟨j, c, hc, hnot⟩⟩
      have hpotential := hG.placement (s := s) hv hm'.valid hgrows hsettles
        (fun hf => hforced hf ▸ hs)
        (fun hf => hG.tail_lt hv (hforced hf ▸ hx) (hforced hf ▸ hcand) hf hgrows ht) hplacement
      exact ⟨outcome, m', hrun, _, ⟨hm', G, hG.settles hsettles, Nat.le_refl _⟩,
        hpotential.trans hk⟩

theorem ahead_rerank (h : m.Ahead S k) (htotal : o.model.Total) (hid : id < m.size) :
    ∃ moved m', (Memo.rerank o.model id).runOn m = (.ok moved, m') ∧
      ∃ k', m'.Ahead S k' ∧ k' + moved.toNat ≤ k := by
  obtain ⟨G, hG, hk⟩ := h.within
  obtain ⟨moved, m', hrun, hranking⟩ := rerank_ok htotal h.reachable hid
  have hm' := h.reachable.of_rerank hrun
  obtain ⟨hwithin, hpotential⟩ := hG.ranking h.reachable.valid hm'.valid hranking
    hranking.changes.moves.extends
  exact ⟨moved, m', hrun, _, ⟨hm', G, hwithin, Nat.le_refl _⟩, hpotential.trans hk⟩

theorem ahead_note (h : m.Ahead S k) (hid : id < m.size) (key : RuleKey) :
    (m.edit id (·.explore key)).Ahead S k := by
  obtain ⟨G, hG, hk⟩ := h.within
  obtain ⟨g, hg⟩ := lt_size_iff.mp hid
  have hsettles : m.Settles (m.edit id (·.explore key)) :=
    ⟨(Explore.explore hg).extends, (candidate_edit_iff (f := (·.explore key)) fun _ => rfl).mp⟩
  refine ⟨h.reachable.explore hg key, G, hG.settles hsettles, ?_⟩
  refine (hsettles.potential_le fun i _ => ?_).trans hk
  unfold debt
  rw [groups_edit]
  cases m.groups[i]? with
  | none => exact Nat.le_refl _
  | some g =>
    show S.debt G (if i = id then g.explore key else g) ≤ S.debt G g
    split <;> exact Nat.le_refl _

/-- What can be done to a memo with so many changes ahead, in each view of it. -/
theorem spends_of_ahead {α : Type} {e : Edit α} {changed : α → Bool} (hm : ∃ k, m.Ahead S k)
    (h : ∀ {k}, m.Ahead S k → ∃ a m', e.runOn m = (.ok a, m') ∧
      ∃ k', m'.Ahead S k' ∧ k' + (changed a).toNat ≤ k) :
    ∃ a m', e.runOn m = (.ok a, m') ∧ (∃ k, m'.Ahead S k) ∧ Spends S (changed a) m m' := by
  obtain ⟨k, hk⟩ := hm
  obtain ⟨a, m', hrun, k', hk', -⟩ := h hk
  refine ⟨a, m', hrun, ⟨k', hk'⟩, fun l hl => ?_⟩
  obtain ⟨b, m'', hrun', hend⟩ := h hl
  cases hrun.symm.trans hrun'
  exact hend

/-- Changes get fewer through a run of standard rules. -/
theorem regime_ahead (S : Scope) (hrules : ∀ rule ∈ o.rules, rule ∈ Rule.standard)
    (htotal : o.model.Total) : Regime o (fun m => ∃ k, m.Ahead S k) (Spends S) where
  standard := hrules
  reachable h := by
    obtain ⟨k, hk⟩ := h
    exact hk.reachable
  refl m k hk := ⟨k, hk, Nat.le_refl _⟩
  trans {a b m m' m''} h h' k hk := by
    obtain ⟨k₁, hk₁, hle⟩ := h k hk
    obtain ⟨k₂, hk₂, hle'⟩ := h' k₁ hk₁
    have hor : (a || b).toNat ≤ a.toNat + b.toNat := by cases a <;> cases b <;> decide
    exact ⟨k₂, hk₂, by omega⟩
  note key h hid := by
    obtain ⟨k, hk⟩ := h
    exact ⟨⟨k, ahead_note hk hid key⟩, fun l hl => ⟨l, ahead_note hl hid key, Nat.le_refl _⟩⟩
  rerank h hid := spends_of_ahead h fun hk => ahead_rerank hk htotal hid
  offer h₀ h hext hs hx hforced := by
    obtain ⟨k₀, hk₀⟩ := h₀
    exact spends_of_ahead h fun hk => ahead_offer hk htotal hk₀.reachable hext hs hx hforced

/-- A pass that reports a change leaves fewer changes ahead. -/
theorem countsDown_ahead (h : Regime o (fun m => ∃ k, m.Ahead S k) (Spends S)) (hroot : root < m.size) :
    o.CountsDown root (fun k m' => m'.Ahead S k ∧ m.Extends m')
      (o.Overfull fun m => ∃ k, m.Ahead S k) := by
  rintro k m₁ pass ⟨hk, hext⟩
  refine (h.meets_runPass pass ⟨k, hk⟩ (hext.size_le hroot)).imp (fun t m₂ hkept => ?_)
    fun _ _ hf => hf.1
  obtain ⟨k', hk', hle⟩ := hkept.step k hk
  exact ⟨k', ⟨hk', hext.trans hkept.ext⟩, hle⟩

/-- A run of standard rules stays within the scope that it starts in, whatever its limits are. -/
theorem ahead_of_optimizeInto {p : Plan} (h : Regime o (fun m => ∃ k, m.Ahead S k) (Spends S))
    (hp : p.hasGroups = false)
    (hstart : ∀ {root m}, (Memo.insert p).runOn .empty = (.ok root, m) → ∃ k, m.Ahead S k) :
    ∃ k, ((o.optimizeInto p).runOn .empty).2.Ahead S k := by
  rcases (h.meets_optimizeInto hp hstart).run with ⟨r, m, hrun, hm⟩ | ⟨f, m, hrun, hf⟩
  · rw [hrun]
    exact hm
  · rw [hrun]
    rcases hf with hf | hf
    · exact hf.1
    · exact hf.1

/-- If there are enough passes and groups for the scope of the plan, the plan is optimized. -/
theorem meets_optimizeInto_of_ahead {p : Plan} (h : Regime o (fun m => ∃ k, m.Ahead S k) (Spends S))
    (hp : p.hasGroups = false)
    (hstart : ∀ {root m}, (Memo.insert p).runOn .empty = (.ok root, m) → m.Ahead S k)
    (hpasses : k + 1 ≤ o.limits.passes) (hgroups : S.groups ≤ o.limits.groups) :
    (o.optimizeInto p).Meets .empty (fun r _ => r.2.1.passes ≤ k + 1) fun _ _ => False := by
  have hwithin : ∀ f m, ¬ o.Overfull (fun m => ∃ k, m.Ahead S k) f m := by
    rintro f m ⟨⟨l, hm, G, hG, -⟩, hover, -⟩
    have hsize := hG.size_le hm.valid
    omega
  refine (h.meets_optimizeInto_of_passes (P := fun _ c _ => c.passes ≤ k + 1) hp
    (fun hinsert => ⟨k, hstart hinsert⟩) hwithin fun hinsert hroot => ?_).imp
    (fun _ _ hq => hq.1) fun _ _ hf => hf
  refine (meets_runPasses_of_left (countsDown_ahead h hroot) _ ⟨hstart hinsert, .refl _⟩ (by omega)).imp
    (fun c m hq => ?_) hwithin
  obtain ⟨hc, k', hk', hext⟩ := hq
  exact ⟨⟨k', hk'⟩, hext, hc.trans (Nat.le_of_eq (by rw [Nat.zero_add]))⟩

/-- **Standard runs converge.**  With the standard rules and a cost model that does not fail, a
plan without references leads to so many groups and candidates at most, whatever the limits are.
If as many groups are allowed, and as many passes as the plan needs, it is optimized, and another
run finds nothing to change. -/
theorem optimize_converges {p : Plan} (hp : p.hasGroups = false) :
    ∃ passes groups candidates : Nat, ∀ o : Optimizer, o.registry = .standard → o.model.Total →
      ((o.optimizeInto p).runOn .empty).2.size ≤ groups ∧
      ((o.optimizeInto p).runOn .empty).2.candidateCount ≤ candidates ∧
      (passes ≤ o.limits.passes → groups ≤ o.limits.groups → ∃ r, o.optimize p = .ok r ∧
        r.convergence.passes ≤ passes ∧
        (o.optimizeIn r.root).runOn r.memo = (.ok ⟨1, 0⟩, r.memo)) := by
  obtain ⟨root, m, hinsert, hgrows, hfind⟩ := insert_ok_of_closed hp
  have hsorted := sorted_of_insert hinsert
  obtain ⟨G, hG⟩ := hsorted.graded
  have hhomed : m.Homed := Homed.grows (fun _ hi => absurd hi (Nat.not_lt_zero _)) hgrows
  obtain ⟨S, hwithin⟩ := exists_within hG hhomed
  have hahead : m.Ahead S (S.candidates * (S.load + 1) + S.load) :=
    ⟨hsorted.reachable, G, hwithin, potential_le hwithin hsorted.reachable.valid⟩
  generalize S.candidates * (S.load + 1) + S.load = k at hahead
  have hstart : ∀ {root m'}, (Memo.insert p).runOn .empty = (.ok root, m') → m'.Ahead S k := by
    intro root m' hinsert'
    cases hinsert.symm.trans hinsert'
    exact hahead
  refine ⟨k + 1, S.groups, S.candidates, fun o hregistry htotal => ?_⟩
  have hregime := regime_ahead S (rules_standard hregistry) htotal
  obtain ⟨l, hend, G', hG', -⟩ := ahead_of_optimizeInto hregime hp fun hinsert' => ⟨k, hstart hinsert'⟩
  refine ⟨hG'.size_le hend.valid, hG'.candidateCount_le hend.valid, fun hpasses hgroups => ?_⟩
  rcases (meets_optimizeInto_of_ahead hregime hp hstart hpasses hgroups).run with
    ⟨⟨root', c, best⟩, m', hrun, hc⟩ | ⟨_, _, _, hf⟩
  · refine ⟨⟨best, root', c, m'⟩, ?_, hc, ?_⟩
    · unfold optimize
      rw [hrun]
    · obtain ⟨m₁, hinsert', hin, -⟩ := optimizeInto_ok hrun
      have hsettled := settled_of_optimizeIn (hstart hinsert').reachable hin
      obtain ⟨g, hg, -⟩ := hsettled root' .refl
      exact optimizeIn_of_settled (lt_size_iff.mpr ⟨g, hg⟩) hsettled
  · exact hf.elim

section Ordered

private def ordered : Plan :=
  .filter (.and [.col "a" "x", .col "b" "y"])
    (.join ⟨.inner, .binary .eq (.col "a" "z") (.col "b" "z")⟩
      (.scanAll "s" "a") (.scanAll "s" "b"))

/-- A filter over a join is optimized by some optimizer with the standard rules and the standard
model. -/
theorem optimize_converges_of_filter :
    ordered.hasGroups = false ∧ ∃ o : Optimizer, o.registry = .standard ∧ o.model.Total ∧
      ∃ r, o.optimize ordered = .ok r ∧ (o.optimizeIn r.root).runOn r.memo = (.ok ⟨1, 0⟩, r.memo) := by
  obtain ⟨passes, groups, candidates, hrun⟩ := optimize_converges (p := ordered) rfl
  let o : Optimizer := ⟨.standard, Estimator.standard.costModel, .empty, ⟨passes, groups, none⟩⟩
  have htotal : o.model.Total := Estimator.standard.total_costModel
  obtain ⟨-, -, hrun⟩ := hrun o rfl htotal
  obtain ⟨r, hr, -, hsettled⟩ := hrun (Nat.le_refl _) (Nat.le_refl _)
  exact ⟨rfl, o, rfl, htotal, r, hr, hsettled⟩

end Ordered

end Optimizer

end PlanOptimizer
