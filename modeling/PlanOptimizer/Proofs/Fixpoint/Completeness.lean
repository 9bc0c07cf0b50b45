import PlanOptimizer.Proofs.Fixpoint.Vouched
import PlanOptimizer.Rule.Swap

/-!
# Nothing is left to do at the end of a run

If the answers of the rules are told by what they are handed and by what is below it, then
at the end of a run every active rule has been answered for every group below the root:
asked again, it offers only what the group holds already, and what it would have taken is
the representative.

The invariant is that notes are *honest*.  A group with a note for a rule holds all that
the rule offers for its representative as it is now.  A turn at or below the group, which
could make the rule answer otherwise, has wiped the note.  And what the group has taken
once, it comes down to the same candidate ever after, since the index forgets nothing.
-/

namespace PlanOptimizer

open Relation

/-! ## What a group has taken -/

namespace Memo

variable {m m' : Memo} {id : GroupId} {x : Offer}

/-- An operator that is offered comes down to a candidate that the group holds, and if it has
to be taken, to the representative. -/
def Takes (m : Memo) (id : GroupId) (x : Offer) : Prop :=
  ∀ n : Node Plan, x.plan = n.plan → ∃ (s : Shape) (g : Group), m.over? n = some s ∧
    m.groups[id]? = some g ∧ g.holds s = true ∧ (x.forced = true → s.canon = g.shape.canon)

/-- What a group has taken it has taken in every later memo, while its representative is the
same. -/
theorem Takes.mono (h : m.Takes id x) (hext : m.Extends m') (hrep : m'.rep? id = m.rep? id) :
    m'.Takes id x := by
  intro n hn
  obtain ⟨s, g, hs, hg, hholds, hforced⟩ := h n hn
  obtain ⟨g', hg', hgext⟩ := hext.group hg
  obtain ⟨c, hc, hcanon⟩ := Group.holds_iff.mp hholds
  have hshape : g'.shape = g.shape := by
    rw [rep?_of_group hg, rep?_of_group hg'] at hrep
    exact Option.some.inj hrep
  refine ⟨s, g', over?_mono hext hs, hg', Group.holds_iff.mpr ⟨c, hgext.mem hc, hcanon⟩, ?_⟩
  rw [hshape]
  exact hforced

/-- An offer that succeeds is taken. -/
theorem Offering.takes {model : CostModel} {outcome : Outcome}
    (h : Offering model id x m (.ok outcome) m') (hv : m.Valid) : m'.Takes id x := by
  intro n hn
  cases h with
  | itself hplan =>
    rw [hplan] at hn
    cases n <;> cases hn
  | @placed s _ m₁ _ hgrows hs hvet hplacement =>
    have hv₁ := hgrows.valid hv
    have hover : m₁.over? n = some s := by
      rw [hn] at hs
      cases n <;> exact hs
    have hapart := leadsTo_of_vet hvet
    have hext := (hplacement.changes hv₁ (hv₁.live_normal? hs) hapart).moves.extends
    obtain ⟨g, hg, hholds, hforced⟩ := hplacement.holds
    exact ⟨s, g, over?_mono hext hover, hg, hholds, fun hf => (hforced hf).symm⟩

end Memo

/-! ## Honest notes -/

namespace Optimizer

open Edit

variable {o : Optimizer} {root id : GroupId} {pass : Nat} {rule : Rule} {m m' : Memo}

/-- The answer of a rule is told by the shape and the group it is handed, and by what is below
the groups under the shape. -/
def Local (o : Optimizer) (rule : Rule) : Prop :=
  ∀ (m m' : Memo) (id : GroupId) (pass pass' : Nat) (s : Shape), m.Reachable → m'.Reachable →
    (∀ i ∈ s.inputs, m.SameBelow m' i) →
      rule.apply ⟨o.catalog, o.model, id, pass'⟩ m'.lookup s.overGroups =
        rule.apply ⟨o.catalog, o.model, id, pass⟩ m.lookup s.overGroups

/-- A rule that applies to the representative of a group offers only what the group has
taken. -/
def Answered (o : Optimizer) (m : Memo) (id : GroupId) (rule : Rule) : Prop :=
  ∀ s, m.rep? id = some s → rule.applies m.lookup s.overGroups = .ok true →
    ∃ offers, (∀ pass, rule.apply ⟨o.catalog, o.model, id, pass⟩ m.lookup s.overGroups =
      .ok offers) ∧ ∀ x ∈ offers, m.Takes id x

/-- Every note certifies that the rule has been answered. -/
def Honest (o : Optimizer) (m : Memo) : Prop :=
  ∀ id, ∀ rule ∈ o.rules, m.Noted id rule.key → o.Answered m id rule

/-- An answer holds while nothing below the group changes. -/
theorem Answered.mono (hlocal : o.Local rule) (hm : m.Reachable) (hm' : m'.Reachable)
    (hext : m.Extends m') (hsame : m.SameBelow m' id)
    (h : o.Answered m id rule) : o.Answered m' id rule := by
  intro s hs hfits
  have hrep : m.rep? id = some s := hsame.rep?.symm.trans hs
  have hbelow : ∀ i ∈ s.inputs, m.SameBelow m' i := by
    intro i hi
    exact hsame.of_reaches (.single ((Memo.links_of_rep hrep).mpr hi))
  rw [Rule.applies_congr hbelow] at hfits
  obtain ⟨offers, happly, htakes⟩ := h s hrep hfits
  refine ⟨offers, fun pass => ?_, fun x hx => (htakes x hx).mono hext hsame.rep?⟩
  rw [hlocal m m' id pass pass s hm hm' hbelow]
  exact happly pass

/-- A group that still has a note when offers have been made has taken all of them. -/
theorem takes_offerAll {xs : List Offer} {key : RuleKey} :
    ∀ {m changed}, m.Reachable → (o.offerAll id xs).runOn m = (.ok changed, m') →
      m'.Noted id key → ∀ x ∈ xs, m'.Takes id x := by
  induction xs with
  | nil =>
    intro m changed _ _ _ x hx
    cases hx
  | cons x xs ih =>
    intro m changed hm h hnoted y hy
    obtain ⟨outcome, rest, m₁, hoffer, hrest, -⟩ := offerAll_cons_ok h
    obtain ⟨r, m₂, hrun, hoffering⟩ := Memo.offer_cases hm.valid o.model id x
    have hm₁ := hm.of_offer hoffer
    rw [hrun] at hoffer
    cases hoffer
    rcases List.mem_cons.mp hy with rfl | hy
    · have hext := (o.scripted_offerAll id xs).extends_of_run hm₁ hrest
      have hsame := (certifies_offerAll hm₁ hrest id key hnoted).2
      exact (hoffering.takes hm.valid).mono hext hsame.rep?
    · exact ih hm₁ hrest hnoted y hy

/-- A note for a rule certifies that the rule has been answered. -/
theorem certified_answered (hlocal : o.Local rule) :
    o.Certified rule fun m id => o.Answered m id rule where
  mono hm hm' hext hsame h := h.mono hlocal hm hm' hext hsame
  skipped := by
    intro m id g _ hat hunfit s hs hfits
    obtain rfl := Memo.shape_eq_of_rep hat hs
    rw [hunfit] at hfits
    cases hfits
  tried := by
    intro m m' id g pass offers changed hm hm' hat hanswer hoffers hbelow hnoted s hs _
    rw [hbelow.rep?, Memo.rep?_of_group hat] at hs
    cases hs
    refine ⟨offers, fun pass' => ?_, takes_offerAll (hm.explore hat rule.key) hoffers hnoted⟩
    rw [hlocal m m' id pass pass' _ hm hm' fun i hi => hbelow.of_reaches (.single ?_)]
    · exact hanswer
    · exact (Memo.links_of_rep (Memo.rep?_of_group hat)).mpr hi

variable (hlocal : ∀ rule ∈ o.rules, o.Local rule) (hkeys : (o.rules.map Rule.key).Nodup)

include hlocal hkeys

theorem honest_optimizeIn {c : Convergence} (hm : m.Reachable) (h : o.Honest m)
    (hrun : (o.optimizeIn root).runOn m = (.ok c, m')) : o.Honest m' := by
  intro id rule hrule
  exact vouched_optimizeIn (certified_answered (hlocal rule hrule)) hkeys hrule hm
    (fun j => h j rule hrule) hrun id

omit hlocal hkeys

/-- At the end of a run, a rule whose answers are told by what is below the shape it is handed
is answered for every group below the root.  Applied once more, it offers only operators that
come down to candidates of the group without any change of the memo, and replacements only
that come down to the representative. -/
theorem complete_of_optimize (hlocal : ∀ rule ∈ o.rules, o.Local rule)
    (hkeys : (o.rules.map Rule.key).Nodup) {p : Plan} {r : Optimized}
    (h : o.optimize p = .ok r) {s : Shape} (hbelow : Reaches r.memo.children r.root id)
    (hrep : r.memo.rep? id = some s) (hrule : rule ∈ o.rules)
    (hfits : rule.applies r.memo.lookup s.overGroups = .ok true) (pass : Nat) :
    ∃ offers, rule.apply ⟨o.catalog, o.model, id, pass⟩ r.memo.lookup s.overGroups = .ok offers ∧
      ∀ x ∈ offers, ∀ n : Node Plan, x.plan = n.plan →
        ∃ c, (Memo.insertInputs n).runOn r.memo = (.ok c, r.memo) ∧
          (∃ g : Group, r.memo.groups[id]? = some g ∧ g.holds c = true) ∧
            (x.forced = true → Node.same c s = true) := by
  obtain ⟨m₁, hinsert, hrun, -⟩ := optimizeInto_ok (optimize_ok h)
  have hm₁ := Memo.Reachable.empty.of_insert hinsert
  -- there are no notes before the first pass
  have hstart : o.Honest m₁ := by
    obtain ⟨m', hgrows, hcases⟩ := Memo.insert_cases p Memo.valid_empty
    have hm' : m' = m₁ := by
      rcases hcases with ⟨_, hrun', -⟩ | ⟨_, hrun'⟩
      · exact (Prod.mk.inj (hrun'.symm.trans hinsert)).2
      · exact (Prod.mk.inj (hrun'.symm.trans hinsert)).2
    subst hm'
    intro j rule' _ hnoted
    exact absurd (hgrows.rests.certifies Memo.valid_empty j _ hnoted).1 Memo.not_noted_empty
  have hhonest := honest_optimizeIn hlocal hkeys hm₁ hstart hrun
  obtain ⟨g, hg, -, hexplored⟩ := settled_of_optimizeIn hm₁ hrun id hbelow
  obtain ⟨offers, happly, htakes⟩ :=
    hhonest id rule hrule ⟨g, hg, hexplored rule hrule⟩ s hrep hfits
  refine ⟨offers, happly pass, fun x hx n hn => ?_⟩
  obtain ⟨c, g', hc, hg', hholds, hforced⟩ := htakes x hx n hn
  refine ⟨c, Memo.runOn_insertInputs_of_over? hc, ⟨g', hg', hholds⟩, fun hf => ?_⟩
  rw [Memo.rep?_of_group hg'] at hrep
  cases hrep
  exact Node.same_iff.mpr (hforced hf)

section Swapping

private def swapping : Optimizer where
  registry := Registry.empty.add Rule.swapJoin
  model := .indifferent
  catalog := .empty
  limits := {}

private def crossed : Plan :=
  .join ⟨.cross, .always⟩ (.scanAll "s" "t") (.scanAll "s" "u")

private def crossing : Optimized :=
  ⟨crossed, 2, ⟨2, 1⟩, ((swapping.optimizeInto crossed).runOn .empty).2⟩

private theorem local_swapJoin : swapping.Local Rule.swapJoin := fun _ _ _ _ _ _ _ _ _ => rfl

/-- A swapped join is a candidate when the run has ended, so the swap brings nothing new. -/
theorem complete_of_swap :
    (∀ rule ∈ swapping.rules, swapping.Local rule) ∧ (swapping.rules.map Rule.key).Nodup ∧
      swapping.optimize crossed = .ok crossing ∧
      crossing.memo.rep? 2 = some (.join ⟨.cross, .always⟩ 0 1) ∧
      Rule.swapJoin.applies crossing.memo.lookup (.join ⟨.cross, .always⟩ (.group 0) (.group 1)) =
        .ok true ∧
      ∃ offers, Rule.swapJoin.apply ⟨swapping.catalog, swapping.model, 2, 3⟩ crossing.memo.lookup
          (.join ⟨.cross, .always⟩ (.group 0) (.group 1)) = .ok offers ∧
        ∀ x ∈ offers, ∀ n : Node Plan, x.plan = n.plan →
          ∃ c, (Memo.insertInputs n).runOn crossing.memo = (.ok c, crossing.memo) ∧
            (∃ g : Group, crossing.memo.groups[2]? = some g ∧ g.holds c = true) ∧
              (x.forced = true → Node.same c (.join ⟨.cross, .always⟩ 0 1) = true) := by
  have hlocal : ∀ rule ∈ swapping.rules, swapping.Local rule := by
    intro rule hrule
    cases List.mem_singleton.mp hrule
    exact local_swapJoin
  have hkeys : (swapping.rules.map Rule.key).Nodup := List.nodup_singleton _
  have hrun : (swapping.optimizeInto crossed).runOn .empty =
      (.ok (2, ⟨2, 1⟩, crossed), crossing.memo) := Prod.ext (by decide +kernel) rfl
  have hok : swapping.optimize crossed = .ok crossing := by
    unfold optimize
    rw [hrun]
    rfl
  have hrep : crossing.memo.rep? 2 = some (.join ⟨.cross, .always⟩ 0 1) := by decide +kernel
  have hfits : Rule.swapJoin.applies crossing.memo.lookup
      (.join ⟨.cross, .always⟩ (.group 0) (.group 1)) = .ok true := by decide +kernel
  exact ⟨hlocal, hkeys, hok, hrep, hfits, complete_of_optimize hlocal hkeys hok .refl hrep
    (List.mem_singleton_self _) hfits 3⟩

end Swapping

end Optimizer

end PlanOptimizer
