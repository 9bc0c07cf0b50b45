import PlanOptimizer.Proofs.Memo.Below
import PlanOptimizer.Proofs.Memo.Resolvable
import PlanOptimizer.Proofs.Unfolding

/-!
# Patterns seen through a memo

There are three ways to ask whether a plan fits a pattern: through a lookup, of the plan that it
resolves to, and by the short cut that looks at the top operator alone where no input pattern
constrains an input.  They agree.

A plan leads to an operator whose inputs resolve to the inputs of the resolved plan
(`Lookup.settle_of_resolve`), so the first two agree by induction on the pattern
(`Pattern.fits_of_resolve`).  This does not take a memo: any lookup will do through which the plan
resolves.  In a reachable memo all plans over groups that exist do (`Memo.Reachable.fits_agree`).
-/

namespace PlanOptimizer

/-- Two operators that differ in their inputs alone, which are related one by one. -/
inductive Node.Rel {α β : Type} (R : α → β → Prop) : Node α → Node β → Prop where
  /-- Scans have no inputs. -/
  | scan (s : Scan) : Rel R (.scan s) (.scan s)
  /-- The inputs are related. -/
  | unary {a : α} {b : β} (op : Unary) (input : R a b) : Rel R (.unary op a) (.unary op b)
  /-- The inputs are related, left and right. -/
  | join {a c : α} {b d : β} (j : Join) (left : R a b) (right : R c d) :
      Rel R (.join j a c) (.join j b d)

namespace Node.Rel

theorem inputs {α β : Type} {R : α → β → Prop} {n : Node α} {n' : Node β} (h : Rel R n n') :
    List.Forall₂ R n.inputs n'.inputs := by
  cases h with
  | scan s => exact .nil
  | unary op input => exact .cons input .nil
  | join j left right => exact .cons left (.cons right .nil)

/-- The kind of an operator does not depend on its inputs. -/
theorem kind_eq {R : Plan → Plan → Prop} {n n' : Node Plan} (h : Rel R n n') :
    n.plan.kind = n'.plan.kind := by
  cases h <;> rfl

end Node.Rel

namespace Lookup

variable {lookup : Lookup} {path path' : List GroupId} {p q : Plan}

/-- A plan has the same expansion where fewer groups are being expanded. -/
theorem expand_of_subset (h : lookup.expand path p = .ok q) (hsub : path' ⊆ path) :
    lookup.expand path' p = .ok q := by
  fun_induction expand lookup path p generalizing q path' with
  | case1 path s =>
    cases h
    exact expand_scan s
  | case2 path op a ih =>
    obtain ⟨a', ha, h⟩ := bind_eq_ok.mp h
    cases h
    rw [expand_unary, ih ha hsub]
    rfl
  | case3 path j a b iha ihb =>
    obtain ⟨a', ha, h⟩ := bind_eq_ok.mp h
    obtain ⟨b', hb, h⟩ := bind_eq_ok.mp h
    cases h
    rw [expand_join, iha ha hsub, ihb hb hsub]
    rfl
  | case4 path id hpath => cases h
  | case5 path id hpath hfind => cases h
  | case6 path id hpath p hfind ih =>
    rw [expand_group_of_find (fun hid => hpath (hsub hid)) hfind]
    exact ih h (List.cons_subset_cons id hsub)

theorem resolve_of_expand (h : lookup.expand path p = .ok q) : p.resolve lookup = .ok q :=
  (p.resolve_eq_expand lookup).trans (expand_of_subset h (List.nil_subset _))

/-- Nothing is looked up to find the operator on top. -/
theorem settle_plan (lookup : Lookup) (n : Node Plan) : lookup.settle n.plan = .ok n := by
  cases n <;> rfl

/-- A plan leads to an operator over inputs that resolve to those of its expansion. -/
theorem settleBy_of_expand (h : lookup.expand path p = .ok q) (hnodup : path.Nodup)
    (hknown : path ⊆ lookup.known) {hops : Nat}
    (hhops : lookup.known.length ≤ hops + path.length) :
    ∃ top top', settleBy (lookup.answerWithin settleBy hops) p = .ok top ∧ q = top'.plan ∧
      Node.Rel (fun a a' => a.resolve lookup = .ok a') top top' := by
  fun_induction expand lookup path p generalizing q hops with
  | case1 path s =>
    cases h
    exact ⟨.scan s, .scan s, rfl, rfl, .scan s⟩
  | case2 path op a ih =>
    obtain ⟨a', ha, h⟩ := bind_eq_ok.mp h
    cases h
    exact ⟨.unary op a, .unary op a', rfl, rfl, .unary op (resolve_of_expand ha)⟩
  | case3 path j a b iha ihb =>
    obtain ⟨a', ha, h⟩ := bind_eq_ok.mp h
    obtain ⟨b', hb, h⟩ := bind_eq_ok.mp h
    cases h
    refine ⟨.join j a b, .join j a' b', rfl, rfl, ?_⟩
    exact .join j (resolve_of_expand ha) (resolve_of_expand hb)
  | case4 path id hpath => cases h
  | case5 path id hpath hfind => cases h
  | case6 path id hpath p hfind ih =>
    -- the groups on the path are known and different, so one more may be followed
    obtain ⟨hops, rfl, hnodup', hknown', hhops'⟩ := exists_hop hpath hfind hnodup hknown hhops
    rw [settleBy, answerWithin, get_eq_ok_iff.mpr hfind, ok_bind]
    exact ih h hnodup' hknown' hhops'

/-- A plan that resolves leads to an operator over inputs that resolve to those of the resolved
plan. -/
theorem settle_of_resolve (h : p.resolve lookup = .ok q) :
    ∃ top top', lookup.settle p = .ok top ∧ q = top'.plan ∧
      Node.Rel (fun a a' => a.resolve lookup = .ok a') top top' := by
  rw [Plan.resolve_eq_expand] at h
  exact settleBy_of_expand h List.nodup_nil (List.nil_subset _) (Nat.le_refl _)

end Lookup

namespace Pattern

variable {lookup : Lookup} {pattern : Pattern} {p q : Plan}

/-- The test on the top looks at the kind alone. -/
theorem fitsTop_congr (h : p.kind = q.kind) : pattern.fitsTop p = pattern.fitsTop q := by
  cases pattern with
  | any => rfl
  | leaf => rw [fitsTop, fitsTop, Plan.arity, Plan.arity, h]
  | operator kind inputs => rw [fitsTop, fitsTop, Plan.arity, Plan.arity, h]

theorem fits_leaf {top : Node Plan} (h : lookup.settle p = .ok top) :
    leaf.fits lookup p = .ok (leaf.fitsTop top.plan) := by
  rw [fits, h]
  rfl

theorem fits_operator {kind : Kind} {inputs : List Pattern} {top : Node Plan}
    (h : lookup.settle p = .ok top) :
    (operator kind inputs).fits lookup p =
      if (operator kind inputs).fitsTop top.plan then fitsAll lookup inputs top.inputs
      else .ok false := by
  rw [fits, h]
  rfl

/-! ## Resolved plans -/

mutual

/-- A plan that resolves fits a pattern, or does not, as the resolved plan does with nothing to look
up. -/
theorem fits_of_resolve : ∀ (pattern : Pattern) {p q : Plan}, p.resolve lookup = .ok q →
    ∃ b, pattern.fits lookup p = .ok b ∧ pattern.fits .empty q = .ok b
  | .any, _, _, _ => by
    unfold fits
    exact ⟨true, rfl, rfl⟩
  | .leaf, _, _, h => by
    obtain ⟨top, top', htop, rfl, hrel⟩ := Lookup.settle_of_resolve h
    refine ⟨leaf.fitsTop top'.plan, ?_, fits_leaf (Lookup.settle_plan _ top')⟩
    rw [fits_leaf htop, fitsTop_congr hrel.kind_eq]
  | .operator kind inputs, _, _, h => by
    obtain ⟨top, top', htop, rfl, hrel⟩ := Lookup.settle_of_resolve h
    obtain ⟨b, hb, hb'⟩ := fitsAll_of_resolve inputs hrel.inputs
    rw [fits_operator htop, fits_operator (Lookup.settle_plan _ top'),
      fitsTop_congr hrel.kind_eq, hb, hb']
    split
    · exact ⟨b, rfl, rfl⟩
    · exact ⟨false, rfl, rfl⟩

/-- So do several plans. -/
theorem fitsAll_of_resolve : ∀ (patterns : List Pattern) {ps qs : List Plan},
    List.Forall₂ (fun p q => p.resolve lookup = .ok q) ps qs →
      ∃ b, fitsAll lookup patterns ps = .ok b ∧ fitsAll .empty patterns qs = .ok b
  | pattern :: patterns, p :: ps, q :: qs, .cons h hs => by
    obtain ⟨b, hb, hb'⟩ := fits_of_resolve pattern h
    obtain ⟨bs, hbs, hbs'⟩ := fitsAll_of_resolve patterns hs
    unfold fitsAll
    rw [hb, hb', hbs, hbs']
    cases b with
    | false => exact ⟨false, rfl, rfl⟩
    | true => exact ⟨bs, rfl, rfl⟩
  | [], _, _, _ => by
    unfold fitsAll
    exact ⟨true, rfl, rfl⟩
  | _ :: _, _, _, .nil => by
    unfold fitsAll
    exact ⟨true, rfl, rfl⟩

end

/-! ## The short cut -/

/-- An operator does not fit where its top does not. -/
theorem fits_of_fitsTop_eq_false {n : Node Plan} (h : pattern.fitsTop n.plan = false) :
    pattern.fits lookup n.plan = .ok false := by
  cases pattern with
  | any => cases h
  | leaf => rw [fits_leaf (Lookup.settle_plan _ n), h]
  | operator kind inputs =>
    rw [fits_operator (Lookup.settle_plan _ n), h]
    rfl

theorem fitsAll_of_isAny {patterns : List Pattern} (h : ∀ x ∈ patterns, x.isAny = true)
    (ps : List Plan) : fitsAll lookup patterns ps = .ok true := by
  induction patterns generalizing ps with
  | nil =>
    unfold fitsAll
    rfl
  | cons pattern patterns ih =>
    cases ps with
    | nil =>
      unfold fitsAll
      rfl
    | cons p ps =>
      cases pattern with
      | any =>
        rw [fitsAll, fits]
        exact ih (fun x hx => h x (List.mem_cons_of_mem _ hx)) ps
      | leaf => cases h _ List.mem_cons_self
      | operator kind inputs => cases h _ List.mem_cons_self

/-- Where no input is constrained, the test on the top is the full test. -/
theorem fits_of_inspectsInputs_eq_false {n : Node Plan} (h : pattern.inspectsInputs = false) :
    pattern.fits lookup n.plan = .ok (pattern.fitsTop n.plan) := by
  cases pattern with
  | any =>
    rw [fits]
    rfl
  | leaf => exact fits_leaf (Lookup.settle_plan _ n)
  | operator kind inputs =>
    have hany : ∀ x ∈ inputs, x.isAny = true := by simpa [inspectsInputs] using h
    rw [fits_operator (Lookup.settle_plan _ n), fitsAll_of_isAny hany]
    cases (operator kind inputs).fitsTop n.plan <;> rfl

end Pattern

/-- A rule that accepts what fits on top applies to an operator exactly when the operator fits. -/
theorem Rule.applies_eq_fits {rule : Rule} {lookup : Lookup} {n : Node Plan}
    (h : rule.accepts = rule.pattern.fitsTop) :
    rule.applies lookup n.plan = rule.pattern.fits lookup n.plan := by
  unfold applies
  rw [h]
  cases htop : rule.pattern.fitsTop n.plan with
  | false => exact (Pattern.fits_of_fitsTop_eq_false htop).symm
  | true =>
    cases hinputs : rule.pattern.inspectsInputs with
    | true => rfl
    | false =>
      rw [Pattern.fits_of_inspectsInputs_eq_false hinputs, htop]
      rfl

/-- A plan that is no reference is an operator. -/
theorem Plan.exists_plan_of_kind {p : Plan} (h : p.kind ≠ .group) :
    ∃ n : Node Plan, n.plan = p := by
  cases p with
  | scan s => exact ⟨.scan s, rfl⟩
  | unary op a => exact ⟨.unary op a, rfl⟩
  | join j a b => exact ⟨.join j a b, rfl⟩
  | group id => exact absurd rfl h

namespace Memo

variable {m : Memo} {id : GroupId} {s : Shape}

/-- A reference fits as the representative of its group does. -/
theorem fits_group (hs : m.rep? id = some s) (pattern : Pattern) :
    pattern.fits m.lookup (.group id) = pattern.fits m.lookup s.overGroups := by
  have hsettle : m.lookup.settle (.group id) = m.lookup.settle s.overGroups := by
    rw [settle_group, hs, Node.overGroups, Lookup.settle_plan]
  cases pattern with
  | any => rw [Pattern.fits, Pattern.fits]
  | leaf => rw [Pattern.fits, Pattern.fits, hsettle]
  | operator kind inputs => rw [Pattern.fits, Pattern.fits, hsettle]

/-- **All ways to match agree.**  Through a reachable memo it can be told of every operator over
groups that exist whether it fits a pattern, and the plan that it resolves to fits exactly then,
with nothing to look up.  The test on the top, and then the full test only where the pattern
constrains an input, decides the same: that is how a rule is matched.  A reference fits as the
representative of its group does. -/
theorem Reachable.fits_agree (hm : m.Reachable) (pattern : Pattern) :
    (∀ p : Plan, p.kind ≠ .group → (∀ i ∈ p.groups, i < m.size) →
      ∃ t b, p.resolve m.lookup = .ok t ∧ t.hasGroups = false ∧
        pattern.fits m.lookup p = .ok b ∧ pattern.fits .empty t = .ok b ∧
        b = (pattern.fitsTop p &&
          (!pattern.inspectsInputs || decide (pattern.fits m.lookup p = .ok true))) ∧
        ∀ rule : Rule, rule.pattern = pattern → rule.accepts = pattern.fitsTop →
          rule.applies m.lookup p = .ok b) ∧
      ∀ id < m.size, ∃ s, m.rep? id = some s ∧
        pattern.fits m.lookup (.group id) = pattern.fits m.lookup s.overGroups := by
  refine ⟨fun p hkind hlive => ?_, fun id hid => ?_⟩
  · obtain ⟨t, ht, hclosed⟩ := hm.valid.resolve_plan_ok hlive
    obtain ⟨b, hb, hb'⟩ := pattern.fits_of_resolve ht
    obtain ⟨n, rfl⟩ := Plan.exists_plan_of_kind hkind
    refine ⟨t, b, ht, hclosed, hb, hb', ?_, fun rule hpattern haccepts => ?_⟩
    · cases htop : pattern.fitsTop n.plan with
      | false =>
        rw [Pattern.fits_of_fitsTop_eq_false htop] at hb
        cases hb
        rfl
      | true =>
        cases hinputs : pattern.inspectsInputs with
        | true => simp [hb]
        | false =>
          rw [Pattern.fits_of_inspectsInputs_eq_false hinputs, htop] at hb
          cases hb
          rfl
    · subst hpattern
      exact (Rule.applies_eq_fits haccepts).trans hb
  · obtain ⟨s, hs⟩ := Option.isSome_iff_exists.mp (rep?_isSome_iff.mpr hid)
    exact ⟨s, hs, fits_group hs pattern⟩

section Layers

private def building : Edit GroupId :=
  (Call.insert (.join ⟨.cross, .always⟩ (.scanAll "s" "t")
    (.limit 0 1 (.scanAll "s" "u")))).edit .indifferent

/-- Groups for a join of a scan with a limit over another scan. -/
private def built : Memo := (building.runOn .empty).2

/-- A filter over a join of a scan and a limit. -/
private def layered : Pattern :=
  .operator .filter [.operator .join [.leaf, .operator .limit [.any]]]

/-- A filter over a reference. -/
private def placeheld : Pattern := .operator .filter [.operator .group []]

/-- A filter over the group of the join fits as deep as the pattern goes.  A pattern that asks for a
reference is not met by one, since references are seen through. -/
theorem fits_of_layers :
    built.Reachable ∧ (∀ i ∈ (Plan.filter .always (.group 3)).groups, i < built.size) ∧
      (∃ t, (Plan.filter .always (.group 3)).resolve built.lookup = .ok t ∧
        layered.fits .empty t = .ok true ∧ placeheld.fits .empty t = .ok false) ∧
      layered.fits built.lookup (.filter .always (.group 3)) = .ok true ∧
      placeheld.fits built.lookup (.filter .always (.group 3)) = .ok false := by
  have hscript : building.Scripted := .call _ _
  have hreach : built.Reachable := hscript.reachable .empty
  have hlive : ∀ i ∈ (Plan.filter .always (.group 3)).groups, i < built.size := by decide +kernel
  have hfits : layered.fits built.lookup (.filter .always (.group 3)) = .ok true := by
    decide +kernel
  have hfits' : placeheld.fits built.lookup (.filter .always (.group 3)) = .ok false := by
    decide +kernel
  obtain ⟨t, b, ht, -, hb, hfree, -, -⟩ := (hreach.fits_agree layered).1 _ (by decide) hlive
  obtain ⟨t', b', ht', -, hb', hfree', -, -⟩ := (hreach.fits_agree placeheld).1 _ (by decide) hlive
  cases ht.symm.trans ht'
  cases hfits.symm.trans hb
  cases hfits'.symm.trans hb'
  exact ⟨hreach, hlive, ⟨t, ht, hfree, hfree'⟩, hfits, hfits'⟩

end Layers

end Memo

end PlanOptimizer
