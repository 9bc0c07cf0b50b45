import PlanOptimizer.Proofs.Fixpoint.Runs
import PlanOptimizer.Proofs.Fixpoint.Script
import PlanOptimizer.Rule.FilterMerge

/-!
# Settled groups

A group is *settled* when it is not stale and all active rules have seen its
representative.  When a run ends, all groups below its root are settled
(`Optimizer.settled_of_optimizeIn`), and a run over settled groups does nothing
(`Optimizer.optimizeIn_of_settled`).

A run ends with a pass that reports no change.  Such a pass turns no group: every turn is
answered with a new representative, by an offer or by a ranking.  So nothing that the
pass has settled is unsettled again, and the groups it visits are those below the root
when it has ended.
-/

namespace PlanOptimizer

open Relation

/-! ## No change -/

/-- A group later on, with its representative as it was, not newly stale, and with all
exploration notes. -/
structure Group.Calm (g g' : Group) : Prop where
  /-- The representative is the same. -/
  shape : g'.shape = g.shape
  /-- The group has not become stale. -/
  stale : g'.stale = true → g.stale = true
  /-- No exploration note is lost. -/
  explored : g.explored ⊆ g'.explored

/-- A group that is not stale does not become so. -/
theorem Group.Calm.settled {g g' : Group} (h : g.Calm g') (hs : g.stale = false) :
    g'.stale = false := by
  rw [Bool.eq_false_iff] at hs ⊢
  exact fun hs' => hs (h.stale hs')

/-- A memo later on, when no group has turned. -/
def Memo.Calm (m m' : Memo) : Prop :=
  ∀ (id : GroupId) (g : Group), m.groups[id]? = some g → ∃ g', m'.groups[id]? = some g' ∧ g.Calm g'

namespace Memo

variable {m m' m'' : Memo} {id : GroupId}

theorem Calm.refl (m : Memo) : m.Calm m :=
  fun _ g hg => ⟨g, hg, rfl, fun h => h, fun _ h => h⟩

theorem Calm.trans (h : m.Calm m') (h' : m'.Calm m'') : m.Calm m'' := by
  intro id g hg
  obtain ⟨g', hg', hcalm⟩ := h id g hg
  obtain ⟨g'', hg'', hcalm'⟩ := h' id g' hg'
  refine ⟨g'', hg'', hcalm'.shape.trans hcalm.shape, fun hs => hcalm.stale (hcalm'.stale hs), ?_⟩
  exact fun _ hk => hcalm'.explored (hcalm.explored hk)

theorem Rests.calm (h : m.Rests m') : m.Calm m' := by
  intro id g hg
  obtain ⟨g', hg', hsteady⟩ := h.steady hg
  exact ⟨g', hg', hsteady.shape, hsteady.stale, fun _ hk => hsteady.explored ▸ hk⟩

theorem calm_explore (m : Memo) (id : GroupId) (key : RuleKey) :
    m.Calm (m.edit id (·.explore key)) := by
  intro j g hg
  by_cases heq : j = id
  · subst heq
    exact ⟨_, groups_edit_self hg _, rfl, fun h => h, fun _ hk => Group.mem_explore.mpr (.inr hk)⟩
  · exact ⟨g, (groups_edit_ne heq _).trans hg, rfl, fun h => h, fun _ hk => hk⟩

theorem Calm.rep? (h : m.Calm m') {s : Shape} (hs : m.rep? id = some s) : m'.rep? id = some s := by
  obtain ⟨g, hg, rfl⟩ := rep?_eq_some_iff.mp hs
  obtain ⟨g', hg', hcalm⟩ := h id g hg
  rw [rep?_of_group hg', hcalm.shape]

end Memo

/-! ## Settled groups -/

namespace Optimizer

open Edit

variable {o : Optimizer} {root id : GroupId} {pass : Nat} {m m' : Memo}

/-- A group that is not stale and whose representative all active rules have seen. -/
def Settled (o : Optimizer) (m : Memo) (id : GroupId) : Prop :=
  ∃ g : Group, m.groups[id]? = some g ∧ g.stale = false ∧ ∀ rule ∈ o.rules, rule.key ∈ g.explored

theorem Settled.calm (h : o.Settled m id) (hcalm : m.Calm m') : o.Settled m' id := by
  obtain ⟨g, hg, hstale, hexplored⟩ := h
  obtain ⟨g', hg', hgroup⟩ := hcalm id g hg
  exact ⟨g', hg', hgroup.settled hstale, fun rule hrule => hgroup.explored (hexplored rule hrule)⟩

/-! ### A pass that changes nothing -/

theorem calm_offerAll {xs : List Offer} :
    ∀ {m}, m.Valid → (o.offerAll id xs).runOn m = (.ok false, m') → m.Calm m' := by
  induction xs with
  | nil =>
    intro m _ h
    cases h
    exact .refl _
  | cons x xs ih =>
    intro m hv h
    obtain ⟨outcome, rest, m₁, hoffer, hrest, hchanged⟩ := offerAll_cons_ok h
    obtain ⟨hsame, hnone⟩ := Bool.or_eq_false_iff.mp hchanged.symm
    obtain ⟨r, m₂, hrun, hoffering⟩ := Memo.offer_cases hv o.model id x
    rw [hrun] at hoffer
    cases hoffer
    have hrests : m.Rests m₁ := hoffering.rests hv fun hr => by
      cases hr
      cases hsame
    subst hnone
    exact hrests.calm.trans (ih (hrests.moves.valid hv) hrest)

theorem calm_tryRule {rule : Rule} {t : Tally} (hv : m.Valid)
    (h : (o.tryRule root pass id rule).runOn m = (.ok t, m')) (ht : t.changed = false) :
    m.Calm m' ∧ ∃ g : Group, m'.groups[id]? = some g ∧ rule.key ∈ g.explored := by
  have hnoted : ∀ {g : Group}, m.groups[id]? = some g →
      (m.edit id (·.explore rule.key)).groups[id]? = some (g.explore rule.key) ∧
        rule.key ∈ (g.explore rule.key).explored := fun hg =>
    ⟨Memo.groups_edit_self hg _, Group.mem_explore.mpr (.inl rfl)⟩
  cases tryRule_ok h with
  | seen hat hin => exact ⟨.refl m, _, hat, hin⟩
  | skipped hat =>
    obtain ⟨hg, hin⟩ := hnoted hat
    exact ⟨Memo.calm_explore m id rule.key, _, hg, hin⟩
  | tried hat _ _ _ hrun =>
    obtain ⟨hg, hin⟩ := hnoted hat
    subst ht
    have hcalm := calm_offerAll (Memo.Explore.valid (.explore hat) hv) hrun
    obtain ⟨g', hg', hgroup⟩ := hcalm id _ hg
    exact ⟨(Memo.calm_explore m id rule.key).trans hcalm, g', hg', hgroup.explored hin⟩

theorem calm_tryRules {rules : List Rule} :
    ∀ {m t}, m.Reachable → (o.tryRules root pass id rules).runOn m = (.ok t, m') →
      t.changed = false → id < m.size → m.Calm m' ∧ ∃ g : Group, m'.groups[id]? = some g ∧
        ∀ rule ∈ rules, rule.key ∈ g.explored := by
  induction rules with
  | nil =>
    intro m t _ h _ hid
    cases h
    obtain ⟨g, hg⟩ := Memo.lt_size_iff.mp hid
    exact ⟨.refl _, g, hg, fun _ hr => nomatch hr⟩
  | cons rule rules ih =>
    intro m t hm h ht hid
    obtain ⟨first, rest, m₁, hfirst, hrest, rfl⟩ := tryRules_cons_ok h
    obtain ⟨hfirst', hrest'⟩ := Bool.or_eq_false_iff.mp ht
    obtain ⟨hcalm, g₁, hg₁, hin⟩ := calm_tryRule hm.valid hfirst hfirst'
    have hm₁ := (o.scripted_tryRule root pass id rule).reachable_of_run hm hfirst
    obtain ⟨hcalm', g', hg', hall⟩ := ih hm₁ hrest hrest' (Memo.lt_size_iff.mpr ⟨g₁, hg₁⟩)
    refine ⟨hcalm.trans hcalm', g', hg', fun r hr => ?_⟩
    rcases List.mem_cons.mp hr with rfl | hr
    · obtain ⟨g'', hg'', hgroup⟩ := hcalm' id g₁ hg₁
      obtain rfl : g' = g'' := Option.some.inj (hg'.symm.trans hg'')
      exact hgroup.explored hin
    · exact hall r hr

/-- Exploring a group without any change settles it. -/
theorem calm_explore {t : Tally} (hm : m.Reachable)
    (h : (o.explore root pass id).runOn m = (.ok t, m')) (ht : t.changed = false) :
    m.Calm m' ∧ o.Settled m' id := by
  obtain ⟨moved, tally, m₁, hrank, hrules, rfl⟩ := explore_ok h
  obtain ⟨hmoved, htally⟩ := Bool.or_eq_false_iff.mp ht
  cases hmoved
  obtain ⟨r, m₂, hrun, hranking⟩ := Memo.rerank_cases o.model id m
  rw [hrun] at hrank
  cases hrank
  have hcalm : m.Calm m₁ := (hranking.rests fun hr => nomatch hr).calm
  obtain ⟨g₁, hg₁, hsettled⟩ : ∃ g : Group, m₁.groups[id]? = some g ∧ g.stale = false := by
    cases hranking with
    | rested hat hstale => exact ⟨_, hat, hstale⟩
    | kept hat => exact ⟨_, Memo.groups_edit_self hat _, rfl⟩
  have hm₁ : m₁.Reachable := hm.of_rerank hrun
  obtain ⟨hcalm', g', hg', hall⟩ := calm_tryRules hm₁ hrules htally (Memo.lt_size_iff.mpr ⟨g₁, hg₁⟩)
  obtain ⟨g'', hg'', hgroup⟩ := hcalm' id g₁ hg₁
  obtain rfl : g' = g'' := Option.some.inj (hg'.symm.trans hg'')
  exact ⟨hcalm.trans hcalm', g', hg', hgroup.settled hsettled, hall⟩

/-- A walk without any change settles all groups it explores, and it explores all groups
below the pending ones. -/
theorem calm_walk {budget : Nat} :
    ∀ {visited pending : List GroupId} {m t}, m.Reachable →
      (o.walk root pass budget visited pending).runOn m = (.ok t, m') → t.changed = false →
      m.Calm m' ∧ ∃ seen : List GroupId, (∀ x ∈ visited, x ∈ seen) ∧ (∀ x ∈ pending, x ∈ seen) ∧
        ∀ x ∈ seen, x ∈ visited ∨ o.Settled m' x ∧ ∀ y, Links m'.children x y → y ∈ seen := by
  induction budget with
  | zero =>
    intro visited pending m t _ h _
    rcases walk_ok h with ⟨hnil, -, rfl⟩ | ⟨_, _, _, _, _, _, _, -, hbudget, -⟩
    · exact ⟨.refl _, visited, fun _ hx => hx, dropWhile_nil_spec hnil, fun _ hx => .inl hx⟩
    · cases hbudget
  | succ budget ih =>
    intro visited pending m t hm h ht
    rcases walk_ok h with ⟨hnil, -, rfl⟩ |
      ⟨id, rest, budget', here, below, s, m₁, hcons, hbudget, hexplore, hrep, hwalk, rfl⟩
    · exact ⟨.refl _, visited, fun _ hx => hx, dropWhile_nil_spec hnil, fun _ hx => .inl hx⟩
    · cases hbudget
      obtain ⟨hhere, hbelow⟩ := Bool.or_eq_false_iff.mp ht
      obtain ⟨-, -, -, hall⟩ := dropWhile_cons_spec hcons
      obtain ⟨hcalm, hsettled⟩ := calm_explore hm hexplore hhere
      have hm₁ := (o.scripted_explore root pass id).reachable_of_run hm hexplore
      obtain ⟨hcalm', seen, hvisited, hpending, hseen⟩ := ih hm₁ hwalk hbelow
      refine ⟨hcalm.trans hcalm', seen, fun x hx => hvisited x (List.mem_cons_of_mem _ hx), ?_, ?_⟩
      · intro x hx
        rcases hall x hx with hx | hx
        · exact hvisited x (List.mem_cons_of_mem _ hx)
        · rcases List.mem_cons.mp hx with rfl | hx
          · exact hvisited x List.mem_cons_self
          · exact hpending x (List.mem_append_right _ hx)
      · intro x hx
        rcases hseen x hx with hx | hx
        · rcases List.mem_cons.mp hx with rfl | hx
          · refine .inr ⟨hsettled.calm hcalm', fun y hy => ?_⟩
            exact hpending y (List.mem_append_left _ ((Memo.links_of_rep (hcalm'.rep? hrep)).mp hy))
          · exact .inl hx
        · exact .inr hx

/-- When a run has ended, all groups below its root are settled. -/
theorem settled_of_optimizeIn {c : Convergence} (hm : m.Reachable)
    (h : (o.optimizeIn root).runOn m = (.ok c, m')) :
    ∀ id, Reaches m'.children root id → o.Settled m' id := by
  obtain ⟨-, hpasses⟩ := optimizeIn_ok h
  have hpass : ∀ {pass m t m'}, Memo.Reachable m →
      (o.runPass root pass).runOn m = (.ok t, m') → m'.Reachable :=
    fun hm hrun => (o.scripted_runPass root _).reachable_of_run hm hrun
  obtain ⟨pass, m₁, t, hm₁, hrun, ht⟩ := runPasses_ok hpass hm hpasses
  obtain ⟨-, seen, -, hpending, hseen⟩ := calm_walk hm₁ hrun ht
  have hin : ∀ id, Reaches m'.children root id → id ∈ seen := by
    intro id hreach
    induction hreach with
    | refl => exact hpending root (List.mem_singleton_self root)
    | @tail a b _ hlink ih =>
      rcases hseen a ih with hnone | ⟨-, hlinks⟩
      · cases hnone
      · exact hlinks b hlink
  intro id hreach
  rcases hseen id (hin id hreach) with hnone | ⟨hsettled, -⟩
  · cases hnone
  · exact hsettled

/-! ### A pass over settled groups -/

theorem runOn_tryRules_of_explored {g : Group} {rules : List Rule} (hg : m.groups[id]? = some g)
    (hall : ∀ rule ∈ rules, rule.key ∈ g.explored) :
    (o.tryRules root pass id rules).runOn m = (.ok {}, m) := by
  induction rules with
  | nil => rfl
  | cons rule rules ih =>
    have hfirst : (o.tryRule root pass id rule).runOn m = (.ok {}, m) := by
      unfold tryRule
      rw [runOn_ask_bind, Memo.group_eq_ok_iff.mpr hg]
      dsimp only
      rw [if_pos (hall rule List.mem_cons_self), runOn_pure]
    have hrest := ih fun r hr => hall r (List.mem_cons_of_mem _ hr)
    unfold tryRules
    rw [runOn_bind_of_ok hfirst, runOn_bind_of_ok hrest, runOn_pure]
    rfl

/-- Exploring a settled group does nothing. -/
theorem runOn_explore_of_settled (h : o.Settled m id) :
    (o.explore root pass id).runOn m = (.ok {}, m) := by
  obtain ⟨g, hg, hstale, hexplored⟩ := h
  have hrank : (Memo.rerank o.model id).runOn m = (.ok false, m) :=
    Memo.runOn_rerank_of_settled hg hstale
  unfold explore
  rw [runOn_bind_of_ok hrank, runOn_bind_of_ok (runOn_tryRules_of_explored hg hexplored), runOn_pure]
  rfl

/-- A walk over settled groups does nothing.  Its budget does not run out: the groups that
have been visited are all different. -/
theorem runOn_walk_of_settled
    (hsettled : ∀ id, Reaches m.children root id → o.Settled m id) (budget : Nat) :
    ∀ {visited pending : List GroupId}, (∀ x ∈ pending, Reaches m.children root x) →
      visited.Nodup → (∀ x ∈ visited, x < m.size) → m.size ≤ budget + visited.length →
      (o.walk root pass budget visited pending).runOn m = (.ok {}, m) := by
  induction budget with
  | zero =>
    intro visited pending hpending hnodup hlive hbudget
    unfold walk
    split
    · exact runOn_pure _ _
    · next id rest hcons =>
      obtain ⟨hnew, hid, -, -⟩ := dropWhile_cons_spec hcons
      obtain ⟨g, hg, -⟩ := hsettled id (hpending id hid)
      have hlt := Memo.length_lt_size hnodup hlive (Memo.lt_size_iff.mpr ⟨g, hg⟩) hnew
      omega
  | succ budget ih =>
    intro visited pending hpending hnodup hlive hbudget
    unfold walk
    split
    · exact runOn_pure _ _
    · next id rest hcons =>
      obtain ⟨hnew, hid, hrest, -⟩ := dropWhile_cons_spec hcons
      have hreach := hpending id hid
      obtain ⟨g, hg, -⟩ := hsettled id hreach
      have hshape : (Edit.ask (·.shape id)).runOn m = (.ok g.shape, m) := by
        rw [runOn_ask, Memo.shape_of_rep (Memo.rep?_of_group hg)]
      have hbelow : (o.walk root pass budget (id :: visited) (g.shape.inputs ++ rest)).runOn m =
          (.ok {}, m) := by
        refine ih ?_ (List.nodup_cons.mpr ⟨hnew, hnodup⟩) ?_ ?_
        · intro x hx
          rcases List.mem_append.mp hx with hx | hx
          · refine hreach.tail ?_
            exact (Memo.links_of_rep (Memo.rep?_of_group hg)).mpr hx
          · exact hpending x (hrest x hx)
        · intro x hx
          rcases List.mem_cons.mp hx with rfl | hx
          · exact Memo.lt_size_iff.mpr ⟨g, hg⟩
          · exact hlive x hx
        · rw [List.length_cons]
          omega
      rw [runOn_bind_of_ok (runOn_explore_of_settled (hsettled id hreach)),
        runOn_bind_of_ok hshape, runOn_bind_of_ok hbelow, runOn_pure]
      rfl

/-- A run over settled groups does nothing. -/
theorem optimizeIn_of_settled (hroot : root < m.size)
    (hsettled : ∀ id, Reaches m.children root id → o.Settled m id) :
    (o.optimizeIn root).runOn m = (.ok ⟨1, 0⟩, m) := by
  obtain ⟨g, hg⟩ := Memo.lt_size_iff.mp hroot
  have hwalk : (o.runPass root 1).runOn m = (.ok {}, m) := by
    unfold runPass
    rw [runOn_get_bind]
    refine runOn_walk_of_settled hsettled _ ?_ List.nodup_nil (fun _ hx => nomatch hx) ?_
    · intro x hx
      cases List.mem_singleton.mp hx
      exact .refl
    · exact Nat.le_max_left _ _
  -- there is always one pass
  obtain ⟨left, hleft⟩ : ∃ left, max o.limits.passes 1 = left + 1 :=
    ⟨max o.limits.passes 1 - 1, by omega⟩
  unfold optimizeIn
  rw [runOn_ask_bind, Memo.group_eq_ok_iff.mpr hg]
  dsimp only
  rw [hleft]
  unfold runPasses
  rw [runOn_bind_of_ok hwalk]
  rfl

/-- When a run has ended, every group below its root is not stale, all active rules have seen
its representative, and another run makes one pass, applies no rule and leaves the memo as it
is. -/
theorem optimizeIn_idempotent {c : Convergence} (hm : m.Reachable)
    (h : (o.optimizeIn root).runOn m = (.ok c, m')) :
    (∀ id, Reaches m'.children root id → ∃ g : Group, m'.groups[id]? = some g ∧ g.stale = false ∧
        ∀ rule ∈ o.rules, rule.key ∈ g.explored) ∧
      (o.optimizeIn root).runOn m' = (.ok ⟨1, 0⟩, m') := by
  have hsettled := settled_of_optimizeIn hm h
  obtain ⟨g, hg, -⟩ := hsettled root .refl
  exact ⟨hsettled, optimizeIn_of_settled (Memo.lt_size_iff.mpr ⟨g, hg⟩) hsettled⟩

section Trimming

private def trimming : Optimizer where
  registry := Registry.empty.add Rule.removeTrivialFilter
  model := .indifferent
  catalog := .empty
  limits := {}

private def trimmed : Edit GroupId :=
  (Call.insert (.filter .always (.scanAll "s" "t"))).edit .indifferent

private def started : Memo := (trimmed.runOn .empty).2

private def ended : Memo := ((trimming.optimizeIn 1).runOn started).2

/-- A trivial filter is removed in the first pass, and nothing is left to do after the second. -/
theorem optimizeIn_idempotent_of_filter :
    started.Reachable ∧ (trimming.optimizeIn 1).runOn started = (.ok ⟨2, 1⟩, ended) ∧
      (∀ id, Reaches ended.children 1 id → ∃ g : Group, ended.groups[id]? = some g ∧
        g.stale = false ∧ ∀ rule ∈ trimming.rules, rule.key ∈ g.explored) ∧
      (trimming.optimizeIn 1).runOn ended = (.ok ⟨1, 0⟩, ended) := by
  have hm : started.Reachable := .call .indifferent _ .empty
  have hrun : (trimming.optimizeIn 1).runOn started = (.ok ⟨2, 1⟩, ended) :=
    Prod.ext (by decide +kernel) rfl
  exact ⟨hm, hrun, optimizeIn_idempotent hm hrun⟩

end Trimming

end Optimizer

end PlanOptimizer
