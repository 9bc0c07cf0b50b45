import PlanOptimizer.Proofs.Fixpoint.Countdown
import PlanOptimizer.Proofs.Fixpoint.Debts
import PlanOptimizer.Proofs.Fixpoint.Walks
import PlanOptimizer.Proofs.Memo.Canonical

/-!
# Plans without joins converge in a linear number of passes

A pass walks down the chain of a plan without joins, and what it reports as a change has been paid
for by what the chain owed (`Optimizer.Walks.pays`).  To begin with, a chain owes one for each filter
and one for its scan, so this is how many passes report a change (`Optimizer.optimize_linear`).

When a group of the chain is explored (`Optimizer.meets_explore_of_owes`), ranking it changes nothing,
and each rule pays for itself:

* A filter for `TRUE` goes away.  The group owes what its input owes, and the filter has paid for that
  (`Midway.removes`).  If the input is sealed, nothing is owed, but the group is not sealed yet.  Then
  pruning is `pending`, and there is the one change of the filter for both.
* Two filters become one, and one filter pays for that (`Midway.merges`).
* The scan below a projection is pruned, or found to be narrow enough.  The projection is sealed then
  (`Midway.prunes`).
* The other rules have nothing to offer (`Midway.spares`).
-/

namespace PlanOptimizer

open Relation Edit Rule Memo

variable {o : Optimizer} {m m' m₀ m₁ : Memo} {root id x y : GroupId} {pass k n : Nat} {f F : Foot}
  {s t : Shape} {g : Group} {op : Unary} {e : Expr} {es : List Expr} {names : List String} {c : Scan}
  {rule : Rule} {a b d : Bool} {E : Fault → Memo → Prop}

/-- A rule that has nothing to offer only makes its note. -/
theorem Optimizer.meets_tryRule_of_silent {Q : Bool → Memo → Prop} (hv : m.Valid)
    (hrep : m.rep? id = some s) (hsilent : rule.Silent m s) (hsize : m.size ≤ o.limits.groups)
    (hQ : Q false m)
    (hQ' : ∀ g, m.groups[id]? = some g → Q false (m.edit id (·.explore rule.key))) :
    (o.tryRule root pass id rule).Meets m (fun t m' => Q t.changed m') E := by
  obtain ⟨g, hg, rfl⟩ := rep?_eq_some_iff.mp hrep
  refine meets_tryRule_of_answer hg (fun _ => hQ) fun _ => ?_
  obtain ⟨fits, hfits⟩ := hv.applies_ok rule (hv.live_rep hrep)
  cases fits with
  | false => exact .inl ⟨hfits, hQ' g hg⟩
  | true =>
    have hsize' := (size_edit m id (·.explore rule.key)).trans_le hsize
    exact .inr ⟨hfits, [], false, _, hsilent _, runOn_pure _ _, hsize', hQ' g hg⟩

/-! ## Exploring a group -/

/-- A memo in the middle of exploring a group. -/
structure Halfway (F : Foot) (n : Nat) (m₀ : Memo) (id : GroupId) (changed : Bool) (m : Memo) :
    Prop where
  chained : Chained F n m
  leaves : m₀.Leaves id changed m
  fresh : m.Fresh id

theorem Halfway.keeps (h : Halfway F n m₀ id b m) (hk : m.Keeps m') (hm' : m'.Reachable) :
    Halfway F n m₀ id b m' where
  chained := h.chained.keeps hk hm'
  leaves := by
    have hleaves := h.leaves.trans (hk.leaves id)
    rwa [Bool.or_false] at hleaves
  fresh := (hk.keeps id).fresh h.fresh

theorem Halfway.step (h : Halfway F n m₀ id b m) (hchained : Chained F n m')
    (hleaves : m.Leaves id d m') : Halfway F n m₀ id (b || d) m' where
  chained := hchained
  leaves := h.leaves.trans hleaves
  fresh := (hleaves.fresh h.fresh).resolve_right fun hstale => hstale.1 rfl

/-- The group is a projection over a scan, and has no note that the scan has been pruned. -/
def Memo.Unsealed (m : Memo) (id : GroupId) (f : Foot) : Prop :=
  ∃ (g : Group) (es : List Expr) (names : List String) (x : GroupId) (c : Scan),
    m.groups[id]? = some g ∧ pruneColumns.key ∉ g.explored ∧
      m.rep? id = some (.unary (.project es names) x) ∧ m.Lone x (.scan c) ∧
      (Unary.project es names).foot c.foot = f

/-- A memo in the middle of exploring a group that owed `k` changes.  What has changed is paid for,
or else the change is still to be paid for by pruning the scan, which is `pending`. -/
structure Midway (o : Optimizer) (F : Foot) (n : Nat) (m₀ : Memo) (id : GroupId) (f : Foot) (k : Nat)
    (pending changed : Bool) (m : Memo) : Prop extends Halfway F n m₀ id changed m where
  dues : (∃ k', m.Owes o.catalog id f k' ∧ k' + changed.toNat ≤ k) ∨
    pending = true ∧ m.Unsealed id f ∧ 1 ≤ k

namespace Midway

variable {p : Bool}

/-- No group of a chain is a join. -/
theorem rep (h : Midway o F n m₀ id f k p b m) :
    (∃ c, m.rep? id = some (.scan c)) ∨ ∃ op x t, m.rep? id = some (.unary op x) ∧
      m.rep? x = some t ∧ ∀ j y z, t ≠ .join j y z := by
  rcases h.dues with ⟨k', howes, -⟩ | ⟨-, ⟨g, es, names, x, c, -, -, hrep, hscan, -⟩, -⟩
  · cases howes with
    | scan lone => exact .inl ⟨_, lone.rep?⟩
    | unary lone below =>
      obtain ⟨t, ht, hnot⟩ := below.rep
      exact .inr ⟨_, _, t, lone.rep?, ht, hnot⟩
    | sealed done =>
      obtain ⟨x, hrep, hscan⟩ := done.project
      exact .inr ⟨_, x, _, hrep, hscan.rep?, nofun⟩
  · exact .inr ⟨_, x, _, hrep, hscan.rep?, nofun⟩

/-- A filter has not been paid for. -/
theorem of_filter (h : Midway o F n m₀ id f k p b m) (hrep : m.rep? id = some (.unary (.filter e) x)) :
    ∃ k', m.Owes o.catalog x f k' ∧ k' + 1 + b.toNat ≤ k := by
  rcases h.dues with ⟨k', howes, hle⟩ | ⟨-, ⟨g, es, names, y, c, -, -, hproject, -, -⟩, -⟩
  · obtain ⟨k'', hbelow, rfl⟩ := howes.of_filter hrep
    exact ⟨k'', hbelow, by omega⟩
  · cases hproject.symm.trans hrep

/-- A note changes nothing, but pruning does not stay pending when it is noted. -/
theorem note (h : Midway o F n m₀ id f k p b m) (hg : m.groups[id]? = some g) {key : RuleKey}
    (hkey : p = true → key ≠ pruneColumns.key) :
    Midway o F n m₀ id f k p b (m.edit id (·.explore key)) := by
  have hk := keeps_explore hg key
  refine ⟨h.toHalfway.keeps hk (h.chained.sorted.reachable.explore hg key), ?_⟩
  rcases h.dues with ⟨k', howes, hle⟩ | ⟨hp, ⟨g', es, names, x, c, hg', hnew, hrep, hscan, hfoot⟩, hpos⟩
  · exact .inl ⟨k', howes.keeps hk, hle⟩
  · obtain rfl : g = g' := Option.some.inj (hg.symm.trans hg')
    refine .inr ⟨hp, ⟨_, es, names, x, c, groups_edit_self hg _, fun hin => ?_, ?_, ?_, hfoot⟩, hpos⟩
    · rcases Group.mem_explore.mp hin with heq | hin
      · exact hkey hp heq.symm
      · exact hnew hin
    · exact (hk.keeps id).rep.trans hrep
    · exact hscan.congr (hk.keeps x).rep (hk.keeps x).stock

/-- Trying a rule goes by what the rule answers. -/
theorem tries {rule : Rule} (hgroups : n + 1 ≤ o.limits.groups) (hg : m.groups[id]? = some g)
    (hseen : rule.key ∈ g.explored → Midway o F n m₀ id f k p b m)
    (htried : rule.key ∉ g.explored →
      rule.applies m.lookup g.shape.overGroups = .ok false ∧
        Midway o F n m₀ id f k p b (m.edit id (·.explore rule.key)) ∨
      rule.applies m.lookup g.shape.overGroups = .ok true ∧ ∃ offers changed m',
        rule.apply ⟨o.catalog, o.model, id, pass⟩ m.lookup g.shape.overGroups = .ok offers ∧
        (o.offerAll id offers).runOn (m.edit id (·.explore rule.key)) = (.ok changed, m') ∧
        Midway o F n m₀ id f k p (b || changed) m') :
    (o.tryRule root pass id rule).Meets m
      (fun t m' => Midway o F n m₀ id f k p (b || t.changed) m') E := by
  refine Optimizer.meets_tryRule_of_answer (Q := fun d m' => Midway o F n m₀ id f k p (b || d) m') hg
    (fun hnoted => ?_) fun hnew => ?_
  · rw [Bool.or_false]
    exact hseen hnoted
  · rw [Bool.or_false]
    rcases htried hnew with hunfit | ⟨hfits, offers, changed, m', happly, hrun, hm'⟩
    · exact .inl hunfit
    · exact .inr ⟨hfits, offers, changed, m', happly, hrun, hm'.chained.size_le.trans hgroups, hm'⟩

/-- A rule that has nothing to offer changes nothing. -/
theorem silent (h : Midway o F n m₀ id f k p b m) (hgroups : n + 1 ≤ o.limits.groups)
    (hrep : m.rep? id = some s) (hsilent : rule.Silent m s)
    (hkey : p = true → rule.key ≠ pruneColumns.key) :
    (o.tryRule root pass id rule).Meets m
      (fun t m' => Midway o F n m₀ id f k p (b || t.changed) m') E := by
  refine Optimizer.meets_tryRule_of_silent (Q := fun d m' => Midway o F n m₀ id f k p (b || d) m')
    h.chained.valid hrep hsilent (h.chained.size_le.trans hgroups) ?_ fun g hg => ?_
  · rw [Bool.or_false]
    exact h
  · rw [Bool.or_false]
    exact h.note hg hkey

/-- A replacement is one change, if what the group owes is one less then. -/
theorem replaces (h : Midway o F n m₀ id f k true b m) (htotal : o.model.Total)
    (hrep : m.rep? id = some (.unary op x)) {q : Plan}
    (hx : Rewrite m (.unary op x) (.replacement q))
    (hrun : (Memo.offered id q).runOn m = (.ok (some t), m))
    (ht : m.normal? q = some t) (hhome : ∀ c, t = .scan c → (m.home? t).isSome = true)
    (hdues : ∀ {d m'}, Replaced F n m id t d m' →
      (∃ k', m'.Owes o.catalog id f k' ∧ k' + 1 + b.toNat ≤ k) ∨ m'.Unsealed id f ∧ 1 ≤ k) :
    ∃ changed m', (o.offerAll id [.replacement q]).runOn m = (.ok changed, m') ∧
      Midway o F n m₀ id f k true (b || changed) m' := by
  obtain ⟨outcome, m', hoffer, hreplaced⟩ := h.chained.replace htotal hrep hx hrun ht hhome
  refine ⟨_, m', Optimizer.runOn_offerAll_singleton hoffer, ?_, ?_⟩
  · rw [Bool.or_false]
    exact h.toHalfway.step hreplaced.chained hreplaced.leaves
  · refine (hdues hreplaced).imp (fun ⟨k', howes, hle⟩ => ⟨k', howes, ?_⟩) fun hun => ⟨rfl, hun⟩
    have hone := Bool.toNat_le (b || (outcome.isChange || false))
    cases b <;> simp at hle hone ⊢ <;> omega

/-- A filter for `TRUE` goes away.  Its group owes what its input has owed, or it has taken over a
sealed projection. -/
theorem removes (h : Midway o F n m₀ id f k true b m) (htotal : o.model.Total)
    (hgroups : n + 1 ≤ o.limits.groups) :
    (o.tryRule root pass id removeTrivialFilter).Meets m
      (fun t m' => Midway o F n m₀ id f k true (b || t.changed) m') E := by
  have hkey : removeTrivialFilter.key ≠ pruneColumns.key := by decide
  rcases h.rep with ⟨c, hrep⟩ | ⟨op, x, t, hrep, ht, -⟩
  · exact h.silent hgroups hrep (silent_scan (by simp [Rule.standard]) c) fun _ => hkey
  cases op with
  | filter e =>
    obtain ⟨g, hg, hshape⟩ := rep?_eq_some_iff.mp hrep
    refine tries hgroups hg (fun _ => h) fun _ => ?_
    rw [hshape, applies_removeTrivialFilter]
    have hk := keeps_explore hg removeTrivialFilter.key
    have hm₁ := h.note hg fun _ => hkey
    generalize m.edit id (·.explore removeTrivialFilter.key) = m₁ at hk hm₁
    cases htrue : e.isTrue with
    | false => exact .inl ⟨rfl, hm₁⟩
    | true =>
      have hrep₁ : m₁.rep? id = some (.unary (.filter e) x) := (hk.keeps id).rep.trans hrep
      have ht₁ : m₁.rep? x = some t := (hk.keeps x).rep.trans ht
      obtain ⟨k', hbelow, hle⟩ := hm₁.of_filter hrep₁
      have hx : m₁.Mentions id x := ⟨_, candidate_of_rep? hrep₁, List.mem_singleton_self x⟩
      have hne : x ≠ id := fun heq =>
        hm₁.chained.valid.not_mem_inputs hrep₁ (heq ▸ List.mem_singleton_self x)
      have hoffered : (Memo.offered id (.group x)).runOn m₁ = (.ok (some t), m₁) := by
        rw [runOn_offered_group hne, shape_of_rep ht₁]
        rfl
      obtain ⟨changed, m', hrun, hm'⟩ := hm₁.replaces htotal hrep₁ (.trivial htrue) hoffered ht₁
        (fun c hc => hm₁.chained.valid.indexed (candidate_of_rep? ht₁)) fun {d m'} hreplaced => by
          obtain ⟨t', hlone, hcanon⟩ := hreplaced.lone
          rcases hbelow.takeover ht₁ hcanon hlone hreplaced.leaves.ext (hreplaced.below hx) with
            howes | ⟨es, names, y, c, rfl, hscan, hfoot⟩
          · exact .inl ⟨k', howes, hle⟩
          · -- the notes of the filter are gone
            obtain ⟨g', hg', hnone⟩ := hreplaced.wiped hrep₁ fun heq => by
              cases heq.trans hcanon.symm
            refine .inr ⟨⟨g', es, names, y, c, hg', ?_, hlone.rep?, hscan, hfoot.symm⟩, by omega⟩
            rw [hnone]
            exact List.not_mem_nil
      exact .inr ⟨rfl, _, changed, m', rfl, hrun, hm'⟩
  | _ => exact h.silent hgroups hrep (silent_removeTrivialFilter rfl) fun _ => hkey

/-- Two filters become one. -/
theorem merges (h : Midway o F n m₀ id f k true b m) (htotal : o.model.Total)
    (hgroups : n + 1 ≤ o.limits.groups) :
    (o.tryRule root pass id mergeFilters).Meets m
      (fun t m' => Midway o F n m₀ id f k true (b || t.changed) m') E := by
  have hkey : mergeFilters.key ≠ pruneColumns.key := by decide
  rcases h.rep with ⟨c, hrep⟩ | ⟨op, x, t, hrep, ht, -⟩
  · exact h.silent hgroups hrep (silent_scan (by simp [Rule.standard]) c) fun _ => hkey
  by_cases hstacked : ∃ e q z, op = .filter e ∧ t = .unary (.filter q) z
  · obtain ⟨e, q, z, rfl, rfl⟩ := hstacked
    obtain ⟨g, hg, hshape⟩ := rep?_eq_some_iff.mp hrep
    refine tries hgroups hg (fun _ => h) fun _ => .inr ?_
    rw [hshape, applies_mergeFilters ht, apply_mergeFilters _ ht]
    have hk := keeps_explore hg mergeFilters.key
    have hm₁ := h.note hg fun _ => hkey
    generalize m.edit id (·.explore mergeFilters.key) = m₁ at hk hm₁
    have hrep₁ : m₁.rep? id = some (.unary (.filter e) x) := (hk.keeps id).rep.trans hrep
    have ht₁ : m₁.rep? x = some (.unary (.filter q) z) := (hk.keeps x).rep.trans ht
    obtain ⟨k₁, hinput, hle⟩ := hm₁.of_filter hrep₁
    obtain ⟨k', hbelow, rfl⟩ := hinput.of_filter ht₁
    have hx : m₁.Mentions id x := ⟨_, candidate_of_rep? hrep₁, List.mem_singleton_self x⟩
    have hz : m₁.Mentions x z := ⟨_, candidate_of_rep? ht₁, List.mem_singleton_self z⟩
    have hlive : ∀ i ∈ (Node.unary (.filter (Expr.conjunction [q, e])) z : Shape).inputs, i < m₁.size :=
      fun i hi => hm₁.chained.valid.live_rep ht₁ i hi
    obtain ⟨changed, m', hrun, hm'⟩ := hm₁.replaces htotal hrep₁ (.merge ht₁)
      (runOn_offered_of_live hlive id) (over?_map_group hlive) (fun _ hc => by cases hc)
      fun {d m'} hreplaced => by
        obtain ⟨t', hlone, hcanon⟩ := hreplaced.lone
        obtain ⟨op', rfl, hop⟩ := Node.eq_unary_of_canon hcanon
        have hbelow' := hbelow.congr hreplaced.leaves.ext fun hj => hreplaced.below hx (.head hz hj)
        have howes := Owes.unary hlone hbelow'
        rw [Unary.foot_congr hop, Unary.filters_congr hop] at howes
        exact .inl ⟨1 + k', howes, hle⟩
    exact ⟨rfl, _, changed, m', rfl, hrun, hm'⟩
  · refine h.silent hgroups hrep ?_ fun _ => hkey
    cases op with
    | filter e => exact silent_mergeFilters_of_input ht fun q z heq => hstacked ⟨e, q, z, rfl, heq⟩
    | _ => exact silent_mergeFilters rfl

/-- A projection over a scan is sealed when the rule that prunes columns has been tried. -/
theorem seals (h : Midway o F n m₀ id f k true b m) (htotal : o.model.Total)
    (hgroups : n + 1 ≤ o.limits.groups) (hwithin : f.Within F)
    (hrep : m.rep? id = some (.unary (.project es names) x)) (hx : m.Lone x (.scan c))
    (hfoot : (Unary.project es names).foot c.foot = f)
    (hpays : 1 ≤ k ∨ m.Sealed o.catalog id es names c ∧ b.toNat ≤ k)
    (hseen : ∀ g, m.groups[id]? = some g → pruneColumns.key ∈ g.explored →
      Midway o F n m₀ id f k false b m) :
    (o.tryRule root pass id pruneColumns).Meets m
      (fun t m' => Midway o F n m₀ id f k false (b || t.changed) m') E := by
  obtain ⟨g, hg, hshape⟩ := rep?_eq_some_iff.mp hrep
  refine tries hgroups hg (hseen g hg) fun _ => .inr ?_
  rw [hshape, applies_pruneColumns hx.rep?, apply_pruneColumns hx.rep?]
  have hk := keeps_explore hg pruneColumns.key
  have hm₁ := h.toHalfway.keeps hk (h.chained.sorted.reachable.explore hg pruneColumns.key)
  have hpays₁ := hpays.imp_right (And.imp_left fun hsealed => hsealed.congr hk.ext fun _ _ => hk.keeps _)
  generalize m.edit id (·.explore pruneColumns.key) = m₁ at hk hm₁ hpays₁
  have hrep₁ := (hk.keeps id).rep.trans hrep
  have hx₁ : m₁.Lone x (.scan c) := hx.congr (hk.keeps x).rep (hk.keeps x).stock
  refine ⟨rfl, ?_⟩
  cases hsaves : saves (needed es) (columnsRead o.catalog c) with
  | false =>
    have hsealed : m₁.Sealed o.catalog id es names c :=
      ⟨hm₁.fresh, ⟨x, hrep₁, hx₁⟩, fun hmore => by cases hsaves.symm.trans hmore⟩
    refine ⟨[], false, m₁, rfl, runOn_pure _ _, ?_⟩
    rw [Bool.or_false]
    refine ⟨hm₁, .inl ⟨0, hfoot ▸ .sealed hsealed, ?_⟩⟩
    rcases hpays₁ with hpos | ⟨-, hle⟩
    · exact (Nat.zero_add _).le.trans ((Bool.toNat_le b).trans hpos)
    · exact (Nat.zero_add _).le.trans hle
  | true =>
    obtain ⟨outcome, m', c', hoffer, hchained, hleaves, hsealed, hsame, hduplicate⟩ :=
      hm₁.chained.prune htotal hrep₁ hx₁ hm₁.fresh (hfoot ▸ hwithin) hsaves
    have hrun := Optimizer.runOn_offerAll_singleton hoffer
    rw [Bool.or_false] at hrun
    refine ⟨_, _, m', rfl, hrun, hm₁.step hchained hleaves, .inl ⟨0, hfoot ▸ hsame ▸ .sealed hsealed, ?_⟩⟩
    rw [Nat.zero_add]
    rcases hpays₁ with hpos | ⟨hbefore, hle⟩
    · exact (Bool.toNat_le _).trans hpos
    · rwa [hduplicate hbefore, Bool.or_false]

/-- Nothing is pending any more when the rule that prunes columns has been tried. -/
theorem prunes (h : Midway o F n m₀ id f k true b m) (htotal : o.model.Total)
    (hgroups : n + 1 ≤ o.limits.groups) (hwithin : f.Within F) :
    (o.tryRule root pass id pruneColumns).Meets m
      (fun t m' => Midway o F n m₀ id f k false (b || t.changed) m') E := by
  rcases h.dues with ⟨k', howes, hle⟩ | ⟨-, ⟨g, es, names, x, c, hg, hnew, hrep, hscan, hfoot⟩, hpos⟩
  · have hdone : Midway o F n m₀ id f k false b m := ⟨h.toHalfway, .inl ⟨k', howes, hle⟩⟩
    have hkey : false = true → pruneColumns.key ≠ pruneColumns.key := fun h =>
      absurd h Bool.false_ne_true
    cases howes with
    | @scan _ c lone =>
      exact hdone.silent hgroups lone.rep? (silent_scan (by simp [Rule.standard]) c) hkey
    | @unary _ x op f k' lone below =>
      obtain ⟨t, ht, -⟩ := below.rep
      by_cases hover : ∃ es names c, op = .project es names ∧ t = .scan c
      · obtain ⟨es, names, c, rfl, rfl⟩ := hover
        obtain ⟨hscan, hfoot, hpos⟩ := below.of_scan ht
        exact h.seals htotal hgroups hwithin lone.rep? hscan (by rw [hfoot]) (.inl (by omega))
          fun _ _ _ => hdone
      · refine hdone.silent hgroups lone.rep? ?_ hkey
        cases op with
        | project es names =>
          exact silent_pruneColumns_of_input ht fun c heq => hover ⟨es, names, c, rfl, heq⟩
        | _ => exact silent_pruneColumns (by simp)
    | sealed done =>
      obtain ⟨x, hrep, hscan⟩ := done.project
      exact h.seals htotal hgroups hwithin hrep hscan rfl (.inr ⟨done, by omega⟩) fun _ _ _ => hdone
  · refine h.seals htotal hgroups hwithin hrep hscan hfoot (.inl hpos) fun g' hg' hnoted => ?_
    obtain rfl : g = g' := Option.some.inj (hg.symm.trans hg')
    exact absurd hnoted hnew

/-- The rules about joins change nothing. -/
theorem spares (h : Midway o F n m₀ id f k p b m) (hgroups : n + 1 ≤ o.limits.groups)
    (hrule : rule ∈ [routePredicates, swapJoin, rotateJoin]) :
    (o.tryRule root pass id rule).Meets m
      (fun t m' => Midway o F n m₀ id f k p (b || t.changed) m') E := by
  obtain ⟨s, hrep, hsilent⟩ : ∃ s, m.rep? id = some s ∧ rule.Silent m s := by
    rcases h.rep with ⟨c, hrep⟩ | ⟨op, x, t, hrep, ht, hnot⟩
    · refine ⟨_, hrep, silent_scan ?_ c⟩
      simp only [Rule.standard, List.mem_cons, List.not_mem_nil, or_false] at hrule ⊢
      tauto
    · refine ⟨_, hrep, ?_⟩
      simp only [List.mem_cons, List.not_mem_nil, or_false] at hrule
      rcases hrule with rfl | rfl | rfl
      · exact silent_routePredicates ht hnot
      · exact silent_swapJoin
      · exact silent_rotateJoin
  refine h.silent hgroups hrep hsilent fun _ => ?_
  have hkeys : ∀ r ∈ [routePredicates, swapJoin, rotateJoin], r.key ≠ pruneColumns.key := by decide
  exact hkeys rule hrule

end Midway

namespace Optimizer

/-- Exploring a group of a chain pays for what it changes. -/
theorem meets_explore_of_owes (hregistry : o.registry = .standard) (htotal : o.model.Total)
    (hgroups : n + 1 ≤ o.limits.groups) (hwithin : f.Within F) (hm : Chained F n m)
    (howes : m.Owes o.catalog id f k) :
    (o.explore root pass id).Meets m
      (fun t m' => Chained F n m' ∧ m.Leaves id t.changed m' ∧
        ∃ k', m'.Owes o.catalog id f k' ∧ k' + t.changed.toNat ≤ k) fun _ _ => False := by
  obtain ⟨moved, m₁, hrun, hranking⟩ := rerank_ok htotal hm.sorted.reachable howes.lt
  obtain ⟨rfl, hk, hfresh⟩ := hranking.keeps hm.valid howes.settled
  have hstart : Midway o F n m id f k true false m₁ :=
    ⟨⟨hm.keeps hk (hm.sorted.reachable.of_rerank hrun), hk.leaves id, hfresh⟩,
      .inl ⟨k, howes.keeps hk, Nat.le_refl k⟩⟩
  refine meets_bind_of_ok hrun ?_
  rw [rules_eq_standard hregistry]
  have htried : (o.tryRules root pass id Rule.standard).Meets m₁
      (fun t m' => Midway o F n m id f k false (false || t.changed) m') fun _ _ => False := by
    refine meets_tryRules_cons (hstart.removes htotal hgroups) fun h₁ => ?_
    refine meets_tryRules_cons (h₁.merges htotal hgroups) fun h₂ => ?_
    refine meets_tryRules_cons (h₂.spares hgroups (by simp)) fun h₃ => ?_
    refine meets_tryRules_cons (h₃.prunes htotal hgroups hwithin) fun h₄ => ?_
    refine meets_tryRules_cons (h₄.spares hgroups (by simp)) fun h₅ => ?_
    exact meets_tryRules_cons (h₅.spares hgroups (by simp)) fun h₆ => meets_tryRules_nil h₆
  exact htried.bind fun t m' h => meets_of_ok (runOn_pure _ _)
    ⟨h.chained, h.leaves, h.dues.resolve_right fun hpending => nomatch hpending.1⟩

theorem meets_tryRules_of_scan {rules : List Rule} (hrules : ∀ rule ∈ rules, rule ∈ Rule.standard) :
    ∀ {m : Memo}, m.Reachable → m.size ≤ o.limits.groups → m.Lone id (.scan c) →
      (o.tryRules root pass id rules).Meets m
        (fun t m' => t.changed = false ∧ m.Keeps m' ∧ m'.Reachable) fun _ _ => False := by
  induction rules with
  | nil => exact fun {m} hm _ _ => meets_of_ok (runOn_pure _ _) ⟨rfl, .refl m, hm⟩
  | cons rule rules ih =>
    obtain ⟨hrule, hrules⟩ := List.forall_mem_cons.mp hrules
    intro m hm hsize hscan
    have hfirst : (o.tryRule root pass id rule).Meets m
        (fun t m' => t.changed = false ∧ m.Keeps m' ∧ m'.Reachable) fun _ _ => False :=
      meets_tryRule_of_silent (Q := fun d m' => d = false ∧ m.Keeps m' ∧ m'.Reachable) hm.valid
        hscan.rep? (silent_scan hrule c) hsize ⟨rfl, .refl m, hm⟩
        fun g hg => ⟨rfl, keeps_explore hg rule.key, hm.explore hg rule.key⟩
    refine hfirst.bind fun t₁ m₁ h₁ => ?_
    obtain ⟨hsame₁, hk₁, hm₁⟩ := h₁
    have hscan₁ : m₁.Lone id (.scan c) := hscan.congr (hk₁.keeps id).rep (hk₁.keeps id).stock
    refine (ih hrules hm₁ (hk₁.size.trans_le hsize) hscan₁).bind fun t₂ m₂ h₂ => ?_
    obtain ⟨hsame₂, hk₂, hm₂⟩ := h₂
    refine meets_of_ok (runOn_pure _ _) ⟨?_, hk₁.trans hk₂, hm₂⟩
    show (t₁.changed || t₂.changed) = false
    rw [hsame₁, hsame₂]
    rfl

/-- Exploring a scan changes nothing. -/
theorem meets_explore_of_scan (hregistry : o.registry = .standard) (htotal : o.model.Total)
    (hm : m.Reachable) (hsize : m.size ≤ o.limits.groups) (hscan : m.Lone id (.scan c)) :
    (o.explore root pass id).Meets m
      (fun t m' => t.changed = false ∧ m.Keeps m' ∧ m'.Reachable) fun _ _ => False := by
  obtain ⟨moved, m₁, hrun, hranking⟩ := rerank_ok htotal hm hscan.lt
  obtain ⟨rfl, hk₁, -⟩ := hranking.keeps hm.valid (.inr ⟨_, hscan⟩)
  refine meets_bind_of_ok hrun ?_
  have hscan₁ : m₁.Lone id (.scan c) := hscan.congr (hk₁.keeps id).rep (hk₁.keeps id).stock
  refine (meets_tryRules_of_scan (rules_standard hregistry) (hm.of_rerank hrun)
    (hk₁.size.trans_le hsize) hscan₁).bind fun t m₂ h₂ => ?_
  obtain ⟨hsame, hk₂, hm₂⟩ := h₂
  exact meets_of_ok (runOn_pure _ _) ⟨hsame, hk₁.trans hk₂, hm₂⟩

/-! ## Walking down a chain -/

variable {visited pending : List GroupId} {visits : List (GroupId × Memo)} {r : Except Fault Tally}

/-- A walk with nothing pending is over. -/
theorem Walks.of_nil (h : o.Walks root pass visited [] m visits r m') : r = .ok {} ∧ m' = m := by
  cases h
  exact ⟨rfl, rfl⟩

/-- A walk to a scan changes nothing. -/
theorem Walks.of_scan (h : o.Walks root pass visited [id] m visits r m')
    (hregistry : o.registry = .standard) (htotal : o.model.Total) (hm : m.Reachable)
    (hsize : m.size ≤ o.limits.groups) (hscan : m.Lone id (.scan c)) :
    ∃ t, r = .ok t ∧ t.changed = false ∧ m.Keeps m' ∧ m'.Reachable := by
  cases h with
  | skip _ walks =>
    obtain ⟨rfl, rfl⟩ := walks.of_nil
    exact ⟨{}, rfl, rfl, .refl _, hm⟩
  | fails _ run => exact ((meets_explore_of_scan hregistry htotal hm hsize hscan).of_error run).elim
  | step _ run rep walks =>
    obtain ⟨hsame, hk, hm₁⟩ := (meets_explore_of_scan hregistry htotal hm hsize hscan).of_ok run
    cases ((hk.keeps id).rep.trans hscan.rep?).symm.trans rep
    obtain ⟨rfl, rfl⟩ := walks.of_nil
    exact ⟨_, rfl, (Bool.or_false _).trans hsame, hk, hm₁⟩

/-- What a walk from a group that owed `k` changes comes to. -/
structure Paid (o : Optimizer) (F : Foot) (n : Nat) (visited : List GroupId) (m : Memo) (id : GroupId)
    (f : Foot) (k : Nat) (t : Tally) (m' : Memo) : Prop where
  chained : Chained F n m'
  /-- The changes have been paid for. -/
  owes : ∃ k', m'.Owes o.catalog id f k' ∧ k' + t.changed.toNat ≤ k
  ext : m.Extends m'
  /-- The walk does not come back to the groups above. -/
  above : Undisturbed visited m m'

/-- A walk down a chain pays for what it changes. -/
theorem Walks.pays (h : o.Walks root pass visited pending m visits r m') (hpending : pending = [id])
    (hregistry : o.registry = .standard) (htotal : o.model.Total) (hgroups : n + 1 ≤ o.limits.groups)
    (hwithin : f.Within F) (hm : Chained F n m) (howes : m.Owes o.catalog id f k) :
    ∃ t, r = .ok t ∧ o.Paid F n visited m id f k t m' := by
  induction h generalizing id f k with
  | done => cases hpending
  | skip _ walks =>
    cases hpending
    obtain ⟨rfl, rfl⟩ := walks.of_nil
    exact ⟨{}, rfl, hm, ⟨k, howes, Nat.le_refl k⟩, .refl _, (Keeps.refl _).undisturbed _⟩
  | fails _ run =>
    cases hpending
    exact ((meets_explore_of_owes hregistry htotal hgroups hwithin hm howes).of_error run).elim
  | @step i visited _ visits m m₁ m' here s r fresh run rep walks ih =>
    obtain ⟨rfl, rfl⟩ := List.cons.inj hpending
    obtain ⟨hm₁, hleaves, k₁, howes₁, hle₁⟩ :=
      (meets_explore_of_owes hregistry htotal hgroups hwithin hm howes).of_ok run
    have habove := hleaves.undisturbed fresh
    cases howes₁ with
    | scan lone =>
      cases lone.rep?.symm.trans rep
      obtain ⟨rfl, rfl⟩ := walks.of_nil
      refine ⟨here.add {}, rfl, hm₁, ⟨1, .scan lone, ?_⟩, hleaves.ext, habove⟩
      rwa [Tally.add, Bool.or_false]
    | unary lone below =>
      cases lone.rep?.symm.trans rep
      obtain ⟨t, rfl, hm', ⟨k', hbelow, hle⟩, hext, hsame⟩ := ih rfl hwithin.of_over hm₁ below
      obtain ⟨hrep, hstock⟩ := hsame i List.mem_cons_self lone.lt
      refine ⟨here.add t, rfl, hm', ⟨_, .unary (lone.congr hrep hstock) hbelow, ?_⟩,
        hleaves.ext.trans hext, ?_⟩
      · have hboth : (here.add t).changed.toNat ≤ here.changed.toNat + t.changed.toNat := by
          show (here.changed || t.changed).toNat ≤ _
          cases here.changed <;> simp
        omega
      · exact habove.trans (fun j hj => hsame j (List.mem_cons_of_mem i hj)) hleaves.ext
    | sealed done =>
      obtain ⟨x, hproject, hscan⟩ := done.project
      cases hproject.symm.trans rep
      obtain ⟨t, rfl, hsame, hk, hm'⟩ := Walks.of_scan walks hregistry htotal hm₁.sorted.reachable
        (hm₁.size_le.trans hgroups) hscan
      refine ⟨here.add t, rfl, hm₁.keeps hk hm', ⟨0, (Owes.sealed done).keeps hk, ?_⟩,
        hleaves.ext.trans hk.ext, habove.trans (hk.undisturbed _) hleaves.ext⟩
      rwa [Tally.add, hsame, Bool.or_false]

/-- A pass over a chain pays for what it changes. -/
theorem countsDown_owes (hregistry : o.registry = .standard) (htotal : o.model.Total)
    (hgroups : n + 1 ≤ o.limits.groups) :
    o.CountsDown root (fun k m => Chained F n m ∧ m.Owes o.catalog root F k) fun _ _ => False := by
  rintro k m pass ⟨hm, howes⟩
  obtain ⟨visits, r, m', hrun, hwalks⟩ := o.exists_visits pass hm.sorted.reachable howes.lt
  obtain ⟨t, rfl, hpaid⟩ := hwalks.pays rfl hregistry htotal hgroups (.refl F) hm howes
  obtain ⟨k', howes', hle⟩ := hpaid.owes
  exact meets_of_ok hrun ⟨k', ⟨hpaid.chained, howes'⟩, hle⟩

/-! ## Plans without joins -/

end Optimizer

/-- Groups that have grown from nothing are lone. -/
theorem Memo.Grows.lone (h : Memo.empty.Grows m) (hm : m.Valid) (hid : m.index.find? s = some id) :
    ∃ t, m.Lone id t ∧ t.canon = s := by
  obtain ⟨t, ⟨g, hg, ht⟩, hcanon⟩ := hm.housed hid
  obtain ⟨s₀, parents, rfl⟩ := h.eq_single_of_size_le hg (Nat.zero_le id)
  obtain rfl : t = s₀ := List.mem_singleton.mp ht
  exact ⟨t, lone_of_single hg, hcanon⟩

/-- A plan without joins owes its filters and one scan. -/
theorem Memo.Grows.owes (h : Memo.empty.Grows m) (hm : m.Valid) (catalog : Catalog Float) {p : Plan}
    (hp : p.hasGroups = false) (hjoins : p.joinFree = true) (hid : m.find? p = some id) :
    ∃ f, m.Owes catalog id f (p.filterCount + 1) := by
  induction p generalizing id with
  | scan c =>
    obtain ⟨t, hlone, hcanon⟩ := h.lone hm hid
    obtain ⟨c', rfl, -⟩ := Node.eq_scan_of_canon hcanon
    exact ⟨_, .scan hlone⟩
  | unary op a ih =>
    obtain ⟨x, hx, hhome⟩ := find?_unary_iff.mp hid
    obtain ⟨f, hbelow⟩ := ih hp hjoins hx
    obtain ⟨t, hlone, hcanon⟩ := h.lone hm hhome
    obtain ⟨op', rfl, hop⟩ := Node.eq_unary_of_canon hcanon
    have howes := Owes.unary hlone hbelow
    rw [Unary.filters_congr hop, ← Nat.add_assoc] at howes
    exact ⟨_, howes⟩
  | join => cases hjoins
  | group => cases hp

/-- The memo that a plan is inserted into has as many groups as the plan has nodes at most. -/
theorem Memo.chained_of_insert {p : Plan} (hinsert : (Memo.insert p).runOn .empty = (.ok root, m))
    (hgrows : Memo.empty.Grows m) (F : Foot) : Chained F p.nodeCount m where
  sorted := sorted_of_insert hinsert
  size := by
    have hsize := (newFrom_of_insert valid_empty hinsert).size_le
    rw [Plan.length_subplans] at hsize
    exact hsize.trans (Nat.le_add_right _ _)
  bare hy := by
    obtain ⟨t, hlone, hcanon⟩ := hgrows.lone (sorted_of_insert hinsert).reachable.valid hy
    cases t with
    | scan c => exact ⟨c, hlone, Node.scan.inj hcanon⟩
    | unary _ _ => cases hcanon
    | join _ _ _ => cases hcanon

namespace Optimizer

/-- **Plans without joins converge in a linear number of passes.**  With the standard rules and a cost
model that does not fail, a plan without joins and references is optimized in two passes more than it
has filters, when so many passes are allowed and one group more than it has nodes. -/
theorem optimize_linear (hregistry : o.registry = .standard) (htotal : o.model.Total) {p : Plan}
    (hp : p.hasGroups = false) (hjoins : p.joinFree = true)
    (hpasses : p.filterCount + 2 ≤ o.limits.passes) (hgroups : p.nodeCount + 1 ≤ o.limits.groups) :
    ∃ r, o.optimize p = .ok r ∧ r.convergence.passes ≤ p.filterCount + 2 ∧
      r.memo.size ≤ p.nodeCount + 1 := by
  obtain ⟨root, m, hinsert, hgrows, hfind⟩ := insert_ok_of_closed hp
  have hv := (sorted_of_insert hinsert).reachable.valid
  obtain ⟨F, howes⟩ := hgrows.owes hv o.catalog hp hjoins hfind
  have hm := chained_of_insert hinsert hgrows F
  obtain ⟨r, hr, -, hpassed, k, hend, -⟩ := optimize_of_left (countsDown_owes hregistry htotal hgroups)
    (fun hk => ⟨hk.1.sorted.reachable, hk.2.lt⟩) hinsert (hm.size_le.trans hgroups) ⟨hm, howes⟩ hpasses
  exact ⟨r, hr, hpassed, hend.size_le⟩

section Chain

private def pruner : Optimizer :=
  ⟨.standard, Estimator.standard.costModel, .empty, { passes := 5, groups := 6 }⟩

/-- A filter for `TRUE` over a projection over two filters over a scan. -/
private def chain : Plan :=
  .filter .always <| .project [.col "t" "a"] [] <| .filter (.col "t" "a") <| .filter .always <|
    .scanOf "s" "t" ["a", "b"]

/-- Three filters, and five nodes. -/
theorem linear_of_chain :
    pruner.registry = .standard ∧ pruner.model.Total ∧ chain.hasGroups = false ∧
      chain.joinFree = true ∧ chain.filterCount = 3 ∧ chain.nodeCount = 5 ∧
      ∃ r, pruner.optimize chain = .ok r ∧ r.convergence.passes ≤ 5 ∧ r.memo.size ≤ 6 := by
  have htotal : pruner.model.Total := Estimator.standard.total_costModel
  exact ⟨rfl, htotal, rfl, rfl, rfl, rfl,
    optimize_linear (o := pruner) (p := chain) rfl htotal rfl rfl (by decide) (by decide)⟩

end Chain

end Optimizer

end PlanOptimizer
