import PlanOptimizer.Proofs.Fixpoint.Consistent
import PlanOptimizer.Proofs.Fixpoint.Vouched
import PlanOptimizer.Proofs.Memo.Canonical

/-!
# Filters in the result of a run

A plan that the standard rules have optimized has no filter for `TRUE` and no filter over a
filter (`Optimizer.simplified_of_optimize`).

Both simplifications are replacements by something below the input of the filter.  A forced offer
wipes the notes of its group, unless it is the representative already (`Memo.Offering.forced`),
and a representative that leads to the input is no shape below the input
(`Optimizer.not_noted_of_replaced`).  So where a simplification was made there is no note left, and
a note stands for there having been nothing to simplify.
-/

namespace PlanOptimizer

open Relation

/-! ## Parts of plans -/

namespace Plan

/-- The parts of a plan are the plan itself and the parts of its inputs. -/
theorem mem_subplans_iff {p u : Plan} :
    u ∈ p.subplans ↔ u = p ∨ ∃ a ∈ p.inputs, u ∈ a.subplans := by
  cases p <;> simp [subplans, inputs]

end Plan

namespace Memo

variable {m m' : Memo} {id : GroupId} {key : RuleKey}

/-- A shape expands to its operator over the expanded plans of its groups. -/
theorem expand_overGroups_eq {path : List GroupId} {s : Shape} {q : Plan}
    (h : m.lookup.expand path s.overGroups = .ok q) :
    ∃ f : GroupId → Plan, q = (s.map f).plan ∧
      ∀ i ∈ s.inputs, m.lookup.expand path (.group i) = .ok (f i) := by
  refine ⟨fun i => (m.lookup.expand path (.group i)).toOption.getD (.group i), ?_⟩
  cases s with
  | scan op =>
    cases (Lookup.expand_scan op).symm.trans h
    exact ⟨rfl, fun i hi => nomatch hi⟩
  | unary op y =>
    obtain ⟨a, ha, rfl⟩ := map_eq_ok.mp ((Lookup.expand_unary op _).symm.trans h)
    simp [Node.map, Node.plan, Node.inputs, ha, Except.toOption]
  | join j y z =>
    obtain ⟨a, ha, h⟩ := bind_eq_ok.mp ((Lookup.expand_join j _ _).symm.trans h)
    obtain ⟨b, hb, rfl⟩ := map_eq_ok.mp h
    simp [Node.map, Node.plan, Node.inputs, ha, hb, Except.toOption]

/-- The plan of a group has the operator of its representative on top. -/
theorem shape_of_expand {path : List GroupId} {q : Plan}
    (h : m.lookup.expand path (.group id) = .ok q) :
    ∃ (s : Shape) (f : GroupId → Plan), m.rep? id = some s ∧ q = (s.map f).plan ∧
      ∀ i ∈ s.inputs, m.lookup.expand (id :: path) (.group i) = .ok (f i) := by
  by_cases hpath : id ∈ path
  · cases (Lookup.expand_group_of_mem hpath).symm.trans h
  · cases hs : m.rep? id with
    | none =>
      have hfind : m.lookup.find id = none := by rw [find_lookup, hs]; rfl
      cases (Lookup.expand_group_of_unknown hpath hfind).symm.trans h
    | some s =>
      have hfind : m.lookup.find id = some s.overGroups := by rw [find_lookup, hs]; rfl
      rw [Lookup.expand_group_of_find hpath hfind] at h
      obtain ⟨f, hq, hf⟩ := expand_overGroups_eq h
      exact ⟨s, f, rfl, hq, hf⟩

/-- The parts of the plan of a group are the plans of the groups below it. -/
theorem Valid.subplans_of_expand (hv : m.Valid) {path : List GroupId} {q u : Plan}
    (h : m.lookup.expand path (.group id) = .ok q) (hu : u ∈ q.subplans) :
    ∃ (j : GroupId) (path' : List GroupId), Reaches m.children id j ∧
      m.lookup.expand path' (.group j) = .ok u := by
  induction id using hv.acyclic.induction generalizing path q with
  | _ id ih =>
    obtain ⟨s, f, hs, rfl, hf⟩ := shape_of_expand h
    rcases Plan.mem_subplans_iff.mp hu with rfl | ⟨a, ha, hu⟩
    · exact ⟨id, path, .refl, h⟩
    · rw [Plan.inputs_plan, Node.inputs_map] at ha
      obtain ⟨i, hi, rfl⟩ := List.mem_map.mp ha
      have hlink : Links m.children id i := (links_of_rep hs).mpr hi
      obtain ⟨j, path', hreach, hexp⟩ := ih i hlink (hf i hi) hu
      exact ⟨j, path', .head hlink hreach, hexp⟩

/-! ## Forced offers -/

/-- A group that still has a note when an offer has been forced on it has come through with the
same representative, so that is what the offer comes down to. -/
theorem Offering.forced {model : CostModel} {x : Offer} {outcome : Outcome}
    (h : Offering model id x m (.ok outcome) m') (hv : m.Valid) (hforced : x.forced = true)
    (hnoted : m'.Noted id key) :
    x.plan = .group id ∨ ∃ (m₁ : Memo) (s t : Shape), m.Grows m₁ ∧ m₁.normal? x.plan = some s ∧
      m.rep? id = some t ∧ s.canon = t.canon := by
  have hsame := ((h.changes hv).certifies hv id key hnoted).2
  cases h with
  | itself hplan => exact .inl hplan
  | @placed s _ m₁ _ hgrows hs _ hplacement =>
    obtain ⟨g, hg, -, hcanon⟩ := hplacement.holds
    refine .inr ⟨m₁, s, g.shape, hgrows, hs, ?_, (hcanon hforced).symm⟩
    rw [← hsame.rep?, rep?_of_group hg]

end Memo

/-! ## When the simplifications apply -/

namespace Rule

variable {m : Memo} {p q : Expr} {y z : GroupId}

/-- The rule that removes filters for `TRUE` applies to no other filter. -/
theorem applies_removeTrivialFilter :
    removeTrivialFilter.applies m.lookup (Node.unary (.filter p) y : Shape).overGroups =
      .ok p.isTrue := by
  show (if p.isTrue = true then _ else _) = _
  cases p.isTrue <;> rfl

/-- The rule that merges filters applies to every filter over a filter. -/
theorem applies_mergeFilters (hy : m.rep? y = some (.unary (.filter q) z)) :
    mergeFilters.applies m.lookup (Node.unary (.filter p) y : Shape).overGroups = .ok true := by
  have htop : m.lookup.settle (.group y) = .ok (.unary (.filter q) (.group z)) := by
    rw [Memo.settle_group, hy]
    rfl
  have hbelow : Pattern.filter.fits m.lookup (.group y) = .ok true := by
    unfold Pattern.filter Pattern.ofKind Pattern.fits
    rw [htop]
    show Pattern.fitsAll m.lookup [.any] [.group z] = .ok true
    simp [Pattern.fitsAll, Pattern.fits, ok_bind]
  show Pattern.filterOverFilter.fits m.lookup (.filter p (.group y)) = .ok true
  unfold Pattern.filterOverFilter Pattern.fits
  show Pattern.fitsAll m.lookup [.filter] [.group y] = .ok true
  simp [Pattern.fitsAll, hbelow, ok_bind]

/-- The offer for a filter over a filter. -/
theorem apply_mergeFilters (context : Context) (hy : m.rep? y = some (.unary (.filter q) z)) :
    mergeFilters.apply context m.lookup (Node.unary (.filter p) y : Shape).overGroups =
      .ok [.replacement (.filter (Expr.conjunction [q, p]) (.group z))] := by
  show (m.lookup.expose (.group y) >>= _) = _
  rw [Memo.expose_group hy]
  rfl

end Rule

namespace Optimizer

variable {o : Optimizer} {id y : GroupId} {m m' : Memo} {key key' : RuleKey}

/-- A group has no note left when its representative has been replaced by a shape that does not
refer to an input of it. -/
theorem not_noted_of_replaced {x : Offer} {g : Group} {changed : Bool} (hm : m.Reachable)
    (hat : m.groups[id]? = some g) (hy : y ∈ g.shape.inputs) (hforced : x.forced = true)
    (hother : x.plan ≠ .group id)
    (hbelow : ∀ {m₁ : Memo} {s}, m₁.Valid → m₁.normal? x.plan = some s → y ∉ s.inputs)
    (hrun : (o.offerAll id [x]).runOn (m.edit id (·.explore key')) = (.ok changed, m')) :
    ¬ m'.Noted id key := by
  intro hnoted
  have hm₁ := (hm.explore hat key').valid
  obtain ⟨outcome, rest, m₁, hoffer, hrest, -⟩ := offerAll_cons_ok hrun
  obtain ⟨r, m₂, hrun₂, hoffering⟩ := Memo.offer_cases hm₁ o.model id x
  rw [hrun₂] at hoffer
  cases hoffer
  cases hrest
  rcases hoffering.forced hm₁ hforced hnoted with hself | ⟨m₃, s, t, hgrows, hs, ht, hcanon⟩
  · exact hother hself
  · rw [Memo.rep?_of_group (Memo.groups_edit_self hat _)] at ht
    obtain rfl : g.shape = t := Option.some.inj ht
    refine hbelow (hgrows.valid hm₁) hs ?_
    rwa [Node.inputs_eq_of_canon hcanon]

/-! ## Simplifications -/

/-- The representative is no filter for `TRUE`. -/
def Nontrivial (m : Memo) (id : GroupId) : Prop :=
  ∀ p y, m.rep? id = some (.unary (.filter p) y) → p.isTrue = false

/-- The representative is no filter over a filter. -/
def Unstacked (m : Memo) (id : GroupId) : Prop :=
  ∀ p y q z, m.rep? id = some (.unary (.filter p) y) → m.rep? y ≠ some (.unary (.filter q) z)

variable (o)

/-- A filter for `TRUE` does not survive a trial of the rule that removes it. -/
theorem certified_nontrivial : o.Certified Rule.removeTrivialFilter Nontrivial where
  mono _ _ _ hsame h p y hrep := h p y (hsame.rep?.symm.trans hrep)
  skipped := by
    intro m id g _ hat hunfit p y hrep
    have hshape := Memo.shape_eq_of_rep hat hrep
    rw [hshape, Rule.applies_removeTrivialFilter] at hunfit
    exact Except.ok.inj hunfit
  tried := by
    intro m m' id g pass offers changed hm _ hat hanswer hoffers hsame hnoted p y hrep
    rw [hsame.rep?] at hrep
    have hshape := Memo.shape_eq_of_rep hat hrep
    have hy : y ∈ g.shape.inputs := hshape ▸ List.mem_singleton_self y
    rw [hshape] at hanswer
    obtain rfl : [.replacement (.group y)] = offers := Except.ok.inj hanswer
    refine absurd hnoted (not_noted_of_replaced hm hat hy rfl (fun heq => ?_) ?_ hoffers)
    · cases heq
      exact hm.valid.not_mem_inputs hrep (hshape ▸ hy)
    · exact fun hv₁ hs => hv₁.not_mem_inputs hs

/-- A filter over a filter does not survive a trial of the rule that merges them. -/
theorem certified_unstacked : o.Certified Rule.mergeFilters Unstacked where
  mono := by
    intro m m' id _ _ _ hsame h p y q z hrep hy
    have hrep₀ : m.rep? id = some (.unary (.filter p) y) := hsame.rep?.symm.trans hrep
    have hlink := (Memo.links_of_rep hrep₀).mpr (List.mem_singleton_self y)
    exact h p y q z hrep₀ ((hsame.of_reaches (.single hlink)).rep?.symm.trans hy)
  skipped := by
    intro m id g _ hat hunfit p y q z hrep hy
    have hshape := Memo.shape_eq_of_rep hat hrep
    rw [hshape, Rule.applies_mergeFilters hy] at hunfit
    cases hunfit
  tried := by
    intro m m' id g pass offers changed hm _ hat hanswer hoffers hsame hnoted p y q z hrep hy
    rw [hsame.rep?] at hrep
    have hlink := (Memo.links_of_rep hrep).mpr (List.mem_singleton_self y)
    rw [(hsame.of_reaches (.single hlink)).rep?] at hy
    have hshape := Memo.shape_eq_of_rep hat hrep
    rw [hshape, Rule.apply_mergeFilters _ hy] at hanswer
    cases hanswer
    have hmem : y ∈ g.shape.inputs := hshape ▸ List.mem_singleton_self y
    refine not_noted_of_replaced hm hat hmem rfl Plan.noConfusion ?_ hoffers hnoted
    intro m₁ s _ hs hys
    rw [Memo.normal?_filter hs] at hys
    obtain rfl := List.mem_singleton.mp hys
    exact hm.valid.not_mem_inputs hy (List.mem_singleton_self _)

variable {o}

/-- **Filters in the result.**  A plan that the standard rules have optimized has no filter for
`TRUE` and no filter over a filter, whatever model ranks plans. -/
theorem simplified_of_optimize (hregistry : o.registry = .standard) {p : Plan} {r : Optimized}
    (h : o.optimize p = .ok r) :
    ∀ e a, .filter e a ∈ r.plan.subplans → e ≠ .always ∧ a.kind ≠ .filter := by
  intro e a hpart
  have hrules := rules_eq_standard hregistry
  have hkeys : (o.rules.map Rule.key).Nodup := by
    rw [hrules]
    decide
  have htrivial : Rule.removeTrivialFilter ∈ o.rules := hrules ▸ List.mem_cons_self
  have hmerge : Rule.mergeFilters ∈ o.rules :=
    hrules ▸ List.mem_cons_of_mem _ List.mem_cons_self
  have hm := (o.scripted_optimizeInto p).reachable_of_run .empty (optimize_ok h)
  obtain ⟨m₁, -, -, hbest⟩ := optimizeInto_ok (optimize_ok h)
  rw [Memo.best?, Plan.resolve_eq_expand] at hbest
  obtain ⟨j, path, hbelow, hexp⟩ := hm.valid.subplans_of_expand hbest hpart
  obtain ⟨s, f, hrep, hplan, hf⟩ := Memo.shape_of_expand hexp
  cases s with
  | scan _ => cases hplan
  | join _ _ _ => cases hplan
  | unary op y =>
    obtain ⟨rfl, rfl⟩ := Plan.unary.inj hplan
    have htrue : e.isTrue = false :=
      certified_of_optimize o.certified_nontrivial hkeys htrivial h hbelow e y hrep
    refine ⟨fun heq => ?_, fun hkind => ?_⟩
    · rw [heq] at htrue
      cases htrue
    · obtain ⟨t, f', hrep', hplan', -⟩ := Memo.shape_of_expand (hf y (List.mem_singleton_self y))
      rw [hplan'] at hkind
      cases t with
      | scan _ => cases hkind
      | join _ _ _ => cases hkind
      | unary op' z =>
        cases op' with
        | filter q =>
          exact certified_of_optimize o.certified_unstacked hkeys hmerge h hbelow e y q z hrep hrep'
        | _ => cases hkind

section Stacked

private def stacking : Optimizer := ⟨.standard, .indifferent, .empty, {}⟩

/-- A filter for `TRUE` over two filters. -/
private def stacked : Plan :=
  .filter .always (.filter (.col "t" "a") (.filter (.col "t" "b") (.scanAll "s" "t")))

/-- One filter for both predicates. -/
private def flattened : Plan := .filter (.and [.col "t" "b", .col "t" "a"]) (.scanAll "s" "t")

private def flattening : Optimized :=
  ⟨flattened, 3, ⟨2, 2⟩, ((stacking.optimizeInto stacked).runOn .empty).2⟩

/-- Of three filters one is left. -/
theorem simplified_of_stacked :
    stacking.registry = .standard ∧ stacking.optimize stacked = .ok flattening ∧
      ∀ e a, .filter e a ∈ flattened.subplans → e ≠ .always ∧ a.kind ≠ .filter := by
  have hanswer : ((stacking.optimizeInto stacked).runOn .empty).1 =
      .ok (3, ⟨2, 2⟩, flattened) := by decide +kernel
  have hok : stacking.optimize stacked = .ok flattening := optimize_of_answer hanswer
  exact ⟨rfl, hok, simplified_of_optimize rfl hok⟩

end Stacked

end Optimizer

end PlanOptimizer
