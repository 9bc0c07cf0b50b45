import PlanOptimizer.Fixpoint.Run
import PlanOptimizer.Proofs.Edit
import PlanOptimizer.Proofs.Memo.Operations

/-!
# Runs that succeed

How a run that succeeds came about, one law for each part of the loop.  `Trial` tells the
three ways in which a rule can be tried, and `walk_ok` and `runPasses_ok` are the laws of
the two recursions.
-/

namespace PlanOptimizer

namespace Optimizer

open Edit

variable {o : Optimizer} {root id : GroupId} {pass : Nat} {m m' : Memo}

/-! ## Trying rules -/

theorem offerAll_cons_ok {x : Offer} {xs : List Offer} {changed : Bool}
    (h : (o.offerAll id (x :: xs)).runOn m = (.ok changed, m')) :
    ∃ outcome rest m₁, (Memo.offer o.model id x).runOn m = (.ok outcome, m₁) ∧
      (o.offerAll id xs).runOn m₁ = (.ok rest, m') ∧ changed = (outcome.isChange || rest) := by
  obtain ⟨outcome, m₁, hoffer, h₁⟩ := runOn_bind_ok_iff.mp h
  obtain ⟨rest, m₂, hrest, h₂⟩ := runOn_bind_ok_iff.mp h₁
  cases h₂
  exact ⟨outcome, rest, m₁, hoffer, hrest, rfl⟩

/-- The answer to the only offer. -/
theorem runOn_offerAll_singleton {x : Offer} {outcome : Outcome}
    (h : (Memo.offer o.model id x).runOn m = (.ok outcome, m')) :
    (o.offerAll id [x]).runOn m = (.ok (outcome.isChange || false), m') := by
  unfold offerAll
  rw [runOn_bind_of_ok h]
  rfl

/-- How a rule is tried on a group, what that brings, and the memo it leaves. -/
inductive Trial (o : Optimizer) (pass : Nat) (id : GroupId) (rule : Rule) (m : Memo) :
    Tally → Memo → Prop where
  /-- The rule has seen the representative. -/
  | seen {g : Group} (at_id : m.groups[id]? = some g) (noted : rule.key ∈ g.explored) :
      Trial o pass id rule m {} m
  /-- The rule does not apply to the representative. -/
  | skipped {g : Group} (at_id : m.groups[id]? = some g) (fresh : rule.key ∉ g.explored)
      (unfit : rule.applies m.lookup g.shape.overGroups = .ok false) :
      Trial o pass id rule m {} (m.edit id (·.explore rule.key))
  /-- The rule is applied, and all it offers is offered to the group. -/
  | tried {g : Group} {offers : List Offer} {changed : Bool} {m' : Memo}
      (at_id : m.groups[id]? = some g) (fresh : rule.key ∉ g.explored)
      (fit : rule.applies m.lookup g.shape.overGroups = .ok true)
      (answer : rule.apply ⟨o.catalog, o.model, id, pass⟩ m.lookup g.shape.overGroups = .ok offers)
      (run : (o.offerAll id offers).runOn (m.edit id (·.explore rule.key)) = (.ok changed, m')) :
      Trial o pass id rule m ⟨changed, 1⟩ m'

theorem tryRule_ok {rule : Rule} {t : Tally}
    (h : (o.tryRule root pass id rule).runOn m = (.ok t, m')) : Trial o pass id rule m t m' := by
  obtain ⟨g, m₁, hask, h₁⟩ := runOn_bind_ok_iff.mp h
  obtain ⟨hgroup, rfl⟩ := runOn_ask_ok_iff.mp hask
  have hg : m₁.groups[id]? = some g := Memo.group_eq_ok_iff.mp hgroup
  have hlookup := m₁.lookup_explore id rule.key
  split at h₁
  · next hnoted =>
    cases h₁
    exact .seen hg hnoted
  · next hfresh =>
    obtain ⟨_, m₂, hmark, h₂⟩ := runOn_bind_ok_iff.mp h₁
    rw [Memo.runOn_markExplored_of_group hg] at hmark
    obtain rfl : m₁.edit id (·.explore rule.key) = m₂ := (Prod.mk.inj hmark).2
    obtain ⟨fits, m₃, hask, h₃⟩ := runOn_bind_ok_iff.mp h₂
    obtain ⟨hfits, rfl⟩ := runOn_ask_ok_iff.mp hask
    rw [hlookup] at hfits
    cases fits with
    | false =>
      cases h₃
      exact .skipped hg hfresh hfits
    | true =>
      obtain ⟨offers, m₄, hask, h₄⟩ := runOn_bind_ok_iff.mp h₃
      obtain ⟨happly, rfl⟩ := runOn_ask_ok_iff.mp hask
      obtain ⟨changed, m₅, hrun, h₅⟩ := runOn_bind_ok_iff.mp h₄
      obtain ⟨_, m₆, hsize, h₆⟩ := runOn_bind_ok_iff.mp h₅
      cases h₆
      obtain ⟨-, rfl⟩ := runOn_ask_ok_iff.mp hsize
      rw [hlookup] at happly
      exact .tried hg hfresh hfits happly hrun

theorem tryRules_cons_ok {rule : Rule} {rules : List Rule} {t : Tally}
    (h : (o.tryRules root pass id (rule :: rules)).runOn m = (.ok t, m')) :
    ∃ first rest m₁, (o.tryRule root pass id rule).runOn m = (.ok first, m₁) ∧
      (o.tryRules root pass id rules).runOn m₁ = (.ok rest, m') ∧ t = first.add rest := by
  obtain ⟨first, m₁, hfirst, h₁⟩ := runOn_bind_ok_iff.mp h
  obtain ⟨rest, m₂, hrest, h₂⟩ := runOn_bind_ok_iff.mp h₁
  cases h₂
  exact ⟨first, rest, m₁, hfirst, hrest, rfl⟩

theorem explore_ok {t : Tally} (h : (o.explore root pass id).runOn m = (.ok t, m')) :
    ∃ moved tally m₁, (Memo.rerank o.model id).runOn m = (.ok moved, m₁) ∧
      (o.tryRules root pass id o.rules).runOn m₁ = (.ok tally, m') ∧
      t = Tally.add ⟨moved, 0⟩ tally := by
  obtain ⟨moved, m₁, hrank, h₁⟩ := runOn_bind_ok_iff.mp h
  obtain ⟨tally, m₂, hrules, h₂⟩ := runOn_bind_ok_iff.mp h₁
  cases h₂
  exact ⟨moved, tally, m₁, hrank, hrules, rfl⟩

/-! ## Passes -/

/-- The first pending group that has not been visited, and those behind it. -/
theorem dropWhile_cons_spec {visited pending rest : List GroupId}
    (h : pending.dropWhile visited.contains = id :: rest) :
    id ∉ visited ∧ id ∈ pending ∧ (∀ x ∈ rest, x ∈ pending) ∧
      ∀ x ∈ pending, x ∈ visited ∨ x ∈ id :: rest := by
  induction pending with
  | nil => cases h
  | cons a as ih =>
    rw [List.dropWhile_cons] at h
    split at h
    · next ha =>
      obtain ⟨hnew, hid, hrest, hall⟩ := ih h
      refine ⟨hnew, List.mem_cons_of_mem _ hid, fun x hx => List.mem_cons_of_mem _ (hrest x hx), ?_⟩
      intro x hx
      rcases List.mem_cons.mp hx with rfl | hx
      · exact .inl (List.contains_iff_mem.mp ha)
      · exact hall x hx
    · next ha =>
      cases h
      refine ⟨fun hin => ha (List.contains_iff_mem.mpr hin), List.mem_cons_self,
        fun x hx => List.mem_cons_of_mem _ hx, fun x hx => .inr hx⟩

theorem dropWhile_nil_spec {visited pending : List GroupId}
    (h : pending.dropWhile visited.contains = []) : ∀ x ∈ pending, x ∈ visited := by
  induction pending with
  | nil =>
    intro x hx
    cases hx
  | cons a as ih =>
    rw [List.dropWhile_cons] at h
    split at h
    · next ha =>
      intro x hx
      rcases List.mem_cons.mp hx with rfl | hx
      · exact List.contains_iff_mem.mp ha
      · exact ih h x hx
    · cases h

/-- A walk ends when all pending groups have been visited.  Before that, it explores one that
has not been visited, and the groups below it come before the others. -/
theorem walk_ok {budget : Nat} {visited pending : List GroupId} {t : Tally}
    (h : (o.walk root pass budget visited pending).runOn m = (.ok t, m')) :
    (pending.dropWhile visited.contains = [] ∧ t = {} ∧ m' = m) ∨
      ∃ id rest budget' here below s m₁, pending.dropWhile visited.contains = id :: rest ∧
        budget = budget' + 1 ∧ (o.explore root pass id).runOn m = (.ok here, m₁) ∧
        m₁.rep? id = some s ∧
        (o.walk root pass budget' (id :: visited) (s.inputs ++ rest)).runOn m₁ = (.ok below, m') ∧
        t = here.add below := by
  unfold walk at h
  split at h
  · next hnil =>
    cases h
    exact .inl ⟨hnil, rfl, rfl⟩
  · next id rest hcons =>
    cases budget with
    | zero =>
      obtain ⟨best, m₁, -, h₁⟩ := runOn_bind_ok_iff.mp h
      cases h₁
    | succ budget' =>
      obtain ⟨here, m₁, hexplore, h₁⟩ := runOn_bind_ok_iff.mp h
      obtain ⟨s, m₂, hshape, h₂⟩ := runOn_bind_ok_iff.mp h₁
      obtain ⟨below, m₃, hwalk, h₃⟩ := runOn_bind_ok_iff.mp h₂
      cases h₃
      obtain ⟨hshape, rfl⟩ := runOn_ask_ok_iff.mp hshape
      obtain ⟨g, hgroup, rfl⟩ := map_eq_ok.mp hshape
      have hrep := Memo.rep?_of_group (Memo.group_eq_ok_iff.mp hgroup)
      exact .inr ⟨id, rest, budget', here, below, g.shape, _, hcons, rfl, hexplore, hrep, hwalk, rfl⟩

/-- Passes are made until one changes nothing.  What every pass keeps holds before and after
the last one. -/
theorem runPasses_ok {I : Memo → Prop}
    (hpass : ∀ {pass m t m'}, I m → (o.runPass root pass).runOn m = (.ok t, m') → I m')
    {left : Nat} {c c' : Convergence} (hm : I m)
    (h : (o.runPasses root left c).runOn m = (.ok c', m')) :
    ∃ pass m₁ t, I m₁ ∧ (o.runPass root pass).runOn m₁ = (.ok t, m') ∧ t.changed = false := by
  induction left generalizing m c with
  | zero =>
    obtain ⟨best, m₁, -, h₁⟩ := runOn_bind_ok_iff.mp h
    cases h₁
  | succ left ih =>
    obtain ⟨t, m₁, hrun, h₁⟩ := runOn_bind_ok_iff.mp h
    dsimp only at h₁
    split at h₁
    · exact ih (hpass hm hrun) h₁
    · next hchanged =>
      cases h₁
      exact ⟨_, m, t, hm, hrun, Bool.eq_false_iff.mpr hchanged⟩

theorem optimizeIn_ok {c : Convergence} (h : (o.optimizeIn root).runOn m = (.ok c, m')) :
    root < m.size ∧
      (o.runPasses root (max o.limits.passes 1) ⟨0, 0⟩).runOn m = (.ok c, m') := by
  obtain ⟨g, m₁, hgroup, h₁⟩ := runOn_bind_ok_iff.mp h
  obtain ⟨hgroup, rfl⟩ := runOn_ask_ok_iff.mp hgroup
  exact ⟨Memo.lt_size_iff.mpr ⟨g, Memo.group_eq_ok_iff.mp hgroup⟩, h₁⟩

/-! ## Optimizing a plan -/

/-- What is left of a run when the plan is inserted. -/
theorem runOn_optimizeInto_of_insert {p : Plan} {m m' : Memo}
    (h : (Memo.insert p).runOn m = (.ok root, m')) :
    (o.optimizeInto p).runOn m =
      (do
        Edit.ask (o.checkSize root)
        let c ← o.optimizeIn root
        let best ← Edit.ask (·.best? root)
        return (root, c, best) : Edit (GroupId × Convergence × Plan)).runOn m' :=
  runOn_bind_of_ok h _

/-- A plan is optimized by inserting it, making passes, and resolving its group. -/
theorem optimizeInto_ok {p : Plan} {c : Convergence} {best : Plan} {m m' : Memo}
    (h : (o.optimizeInto p).runOn m = (.ok (root, c, best), m')) :
    ∃ m₁, (Memo.insert p).runOn m = (.ok root, m₁) ∧ (o.optimizeIn root).runOn m₁ = (.ok c, m') ∧
      m'.best? root = .ok best := by
  obtain ⟨root', m₁, hinsert, h₁⟩ := runOn_bind_ok_iff.mp h
  obtain ⟨_, m₂, hsize, h₂⟩ := runOn_bind_ok_iff.mp h₁
  obtain ⟨c', m₃, hrun, h₃⟩ := runOn_bind_ok_iff.mp h₂
  obtain ⟨best', m₄, hbest, h₄⟩ := runOn_bind_ok_iff.mp h₃
  cases h₄
  obtain ⟨-, rfl⟩ := runOn_ask_ok_iff.mp hsize
  obtain ⟨hbest, rfl⟩ := runOn_ask_ok_iff.mp hbest
  exact ⟨_, hinsert, hrun, hbest⟩

theorem optimize_ok {p : Plan} {r : Optimized} (h : o.optimize p = .ok r) :
    (o.optimizeInto p).runOn .empty = (.ok (r.root, r.convergence, r.plan), r.memo) := by
  unfold optimize at h
  split at h
  · next hrun =>
    cases h
    exact hrun
  · cases h

theorem optimize_of_answer {p best : Plan} {c : Convergence}
    (h : ((o.optimizeInto p).runOn .empty).1 = .ok (root, c, best)) :
    o.optimize p = .ok ⟨best, root, c, ((o.optimizeInto p).runOn .empty).2⟩ := by
  unfold optimize
  rcases hrun : (o.optimizeInto p).runOn .empty with ⟨answer, m⟩
  rw [hrun] at h
  cases h
  rfl

theorem optimize_error {p : Plan} {f : Fault} (h : o.optimize p = .error f) :
    ((o.optimizeInto p).runOn .empty).1 = .error f := by
  unfold optimize at h
  split at h
  · cases h
  · next hrun =>
    cases h
    rw [hrun]

end Optimizer

end PlanOptimizer
